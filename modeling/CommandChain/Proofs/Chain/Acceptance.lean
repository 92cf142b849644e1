import CommandChain.Proofs.Chain.Handler

/-!
# Which definitions are chains

Acceptance is one recursion over a definition (`Json.IsNode`): null and texts are nodes, and an
object is one if the items of its group are nodes and, under an error block, its actions as well.
Everything else that an object says is accepted as it is. `Node.ofJson` follows this recursion
although an error block makes it enter nodes that are not part of the definition (`ofJson_accepts`).

Both are compared by one induction over definitions (`Json.node_induction`), on the equation that
makes the node of an object out of the nodes of its group and of its actions (`Node.ofJson_obj`). -/

namespace CommandChain

variable {ms : Members Json} {n : Node} {v : Json}

/-! ### Definitions -/

namespace Json

/-- The group of an object: what stands under `parallel`, else under `series`, else under
`chains`. -/
def group? (ms : Members Json) : Option Json :=
  Members.get? "parallel" ms <|> Members.get? "series" ms <|> Members.get? "chains" ms

/-- The items of the group. -/
def groupItems (ms : Members Json) : List Json := ((group? ms).map toList).getD []

/-- An object with the field `error` has an error block if there is something to watch. -/
def HasErrorBlock (ms : Members Json) : Prop :=
  (Members.get? "error" ms).isSome ∧ ((group? ms).isSome ∨
    (Members.get? "command" ms).isSome ∨ (Members.get? "process" ms).isSome)

instance (ms : Members Json) : Decidable (HasErrorBlock ms) :=
  inferInstanceAs (Decidable (_ ∧ _))

/-- The actions that count: those of an error block. -/
def handledItems (ms : Members Json) : List Json :=
  if HasErrorBlock ms then Node.actionItems ms else []

/-- The value is the definition of a node. -/
inductive IsNode : Json → Prop
  | null : IsNode .null
  | str (t : String) : IsNode (.str t)
  | obj (ms : Members Json) : (∀ v ∈ groupItems ms, IsNode v) →
      (HasErrorBlock ms → ∀ v ∈ Node.actionItems ms, IsNode v) → IsNode (.obj ms)

theorem forall_mem_handledItems {p : Json → Prop} :
    (∀ v ∈ handledItems ms, p v) ↔ (HasErrorBlock ms → ∀ v ∈ Node.actionItems ms, p v) := by
  unfold handledItems
  split_ifs with h <;> simp [h]

theorem isNode_obj_iff :
    IsNode (.obj ms) ↔ ∀ v ∈ groupItems ms ++ handledItems ms, IsNode v := by
  rw [List.forall_mem_append, forall_mem_handledItems]
  constructor
  · intro h
    cases h with
    | obj _ hgroup hactions => exact ⟨hgroup, hactions⟩
  · exact fun h => .obj ms h.1 h.2

theorem chains_eq (ms : Members Json) : Draft.chains ms = group? ms := by
  unfold Draft.chains group?
  simp only [Draft.pick]
  cases Members.get? "parallel" ms <;> cases Members.get? "series" ms <;> rfl

theorem isSome_command_iff :
    (Draft.pick ms ["command", "process"]).isSome ↔
      (Members.get? "command" ms).isSome ∨ (Members.get? "process" ms).isSome := by
  simp only [Draft.pick]
  cases Members.get? "process" ms <;> simp

/-! ### Induction -/

theorem sizeOf_lt_of_mem_toList {w : Json} (hw : sizeOf w + 3 ≤ sizeOf ms) (h : v ∈ w.toList) :
    sizeOf v < sizeOf ms := by
  have hlist := Node.sizeOf_toList w
  have hitem := List.sizeOf_lt_of_mem h
  omega

theorem sizeOf_lt_of_mem_items (h : v ∈ groupItems ms ++ handledItems ms) :
    sizeOf v < sizeOf ms := by
  rcases List.mem_append.mp h with h | h
  · unfold groupItems at h
    rw [← chains_eq] at h
    rcases hitems : Draft.chains ms with _ | items
    · simp [hitems] at h
    · rw [hitems] at h
      exact sizeOf_lt_of_mem_toList (Node.sizeOf_pick hitems) h
  · unfold handledItems at h
    split_ifs at h
    · unfold Node.actionItems at h
      rcases hitems : Members.get? "error_actions" ms with _ | items
      · simp [hitems] at h
      · rw [hitems] at h
        exact sizeOf_lt_of_mem_toList (Node.sizeOf_get? hitems) h
    · simp at h

/-- **Induction over definitions**, by the items that count. -/
@[elab_as_elim]
theorem node_induction {motive : Json → Prop} (null : motive .null) (bool : ∀ b, motive (.bool b))
    (num : ∀ n, motive (.num n)) (str : ∀ t, motive (.str t)) (arr : ∀ items, motive (.arr items))
    (obj : ∀ ms, (∀ v ∈ groupItems ms ++ handledItems ms, motive v) → motive (.obj ms)) :
    ∀ v, motive v
  | .null => null
  | .bool b => bool b
  | .num n => num n
  | .str t => str t
  | .arr items => arr items
  | .obj ms => obj ms fun v hv =>
    have := sizeOf_lt_of_mem_items hv
    node_induction null bool num str arr obj v
termination_by v => sizeOf v
decreasing_by simp only [Json.obj.sizeOf_spec]; omega

end Json

open Json (groupItems handledItems HasErrorBlock)

/-! ### Nodes -/

namespace Node

/-- The nodes of a group; a leaf has none. -/
def children : Node → List Node
  | .leaf _ _ => []
  | .group _ ns => ns

theorem exists_ofItems_iff {vs : List Json} :
    (∃ ns, ofItems vs = .ok ns) ↔ ∀ v ∈ vs, ∃ n, ofJson v = .ok n := by
  induction vs with
  | nil => simp [ofItems]
  | cons v vs ih =>
    rw [List.forall_mem_cons, ← ih]
    simp only [ofItems_cons_eq_ok_iff]
    constructor
    · rintro ⟨_, n, ns, hn, hns, -⟩
      exact ⟨⟨n, hn⟩, ns, hns⟩
    · rintro ⟨⟨n, hn⟩, ns, hns⟩
      exact ⟨_, n, ns, hn, hns, rfl⟩

theorem exists_of_ofItems_error {vs : List Json} {e : NormalizeError} (h : ofItems vs = .error e) :
    ∃ v ∈ vs, ofJson v = .error e := by
  induction vs with
  | nil =>
    rw [ofItems] at h
    cases h
  | cons v vs ih =>
    rw [ofItems_cons] at h
    rcases bind_eq_error_iff.mp h with hv | ⟨n, -, hvs⟩
    · exact ⟨v, List.mem_cons_self, hv⟩
    · obtain ⟨w, hw, hwe⟩ := ih (map_eq_error_iff.mp hvs)
      exact ⟨w, List.mem_cons_of_mem _ hw, hwe⟩

theorem children_node (d : Draft) : d.node.children = [] := by
  unfold Draft.node
  split <;> rfl

theorem groupItems_of_some {items : Json} (h : Draft.chains ms = some items) :
    groupItems ms = items.toList := by
  rw [groupItems, ← Json.chains_eq, h]
  rfl

theorem groupItems_of_none (h : Draft.chains ms = none) : groupItems ms = [] := by
  rw [groupItems, ← Json.chains_eq, h]
  rfl

/-- An object with neither children nor a command is an empty group, also if it has the field
`error`. -/
theorem ofJson_of_nothing (hchains : Draft.chains ms = none)
    (hcommand : Draft.pick ms ["command", "process"] = none) :
    ofJson (.obj ms) = .ok (Draft.ofMembers ms).withArrow.node := by
  have hnone : (Draft.ofMembers ms).withArrow.command = none := by
    simp [Draft.withArrow, Draft.ofMembers, hcommand]
  unfold ofJson
  split <;> simp_all

theorem ofJson_of_not_hasErrorBlock (h : ¬ HasErrorBlock ms) :
    ∃ build : List Node → Node, ofJson (.obj ms) = (ofItems (groupItems ms)).map build ∧
      ∀ ns, ofItems (groupItems ms) = .ok ns → (build ns).children = ns := by
  unfold HasErrorBlock at h
  rw [← Json.chains_eq, ← Json.isSome_command_iff] at h
  rcases hchains : Draft.chains ms with _ | items
  · refine ⟨fun _ => (Draft.ofMembers ms).withArrow.node, ?_, fun ns hns => ?_⟩
    · rw [groupItems_of_none hchains, ofItems]
      rcases herror : Members.get? "error" ms with _ | error
      · exact ofJson_of_fields hchains herror
      · refine ofJson_of_nothing hchains ?_
        simpa [herror, hchains] using h
    · rw [groupItems_of_none hchains, ofItems] at hns
      cases hns
      exact children_node _
  · have herror : Members.get? "error" ms = none := by simpa [hchains] using h
    refine ⟨.group (Draft.ofMembers ms).withArrow.info, ?_, fun _ _ => rfl⟩
    rw [ofJson_of_chains hchains herror, groupItems_of_some hchains]

theorem map_ofJson_groupItems (hblock : ¬ HasErrorBlock ms) (hn : ofJson (.obj ms) = .ok n) :
    (groupItems ms).map ofJson = n.children.map .ok := by
  obtain ⟨build, hbuild, hchildren⟩ := ofJson_of_not_hasErrorBlock hblock
  rw [hbuild] at hn
  obtain ⟨ns, hgroup, rfl⟩ := map_eq_ok_iff.mp hn
  rw [hchildren ns hgroup]
  exact ofItems_eq_ok_iff.mp hgroup

theorem exists_watchedBody_eq (ms : Members Json) :
    ∃ build : List Node → Node, watchedBody ms = (ofItems (groupItems ms)).map build := by
  unfold watchedBody
  rcases hchains : Draft.chains ms with _ | items
  · rw [groupItems_of_none hchains, ofItems]
    exact ⟨fun _ => _, rfl⟩
  · rw [groupItems_of_some hchains]
    exact ⟨_, rfl⟩

/-- **The node of an object** is made of the nodes of its group and of its actions. -/
theorem exists_ofJson_obj_eq (ms : Members Json) :
    ∃ build : List Node → List Node → Node, ofJson (.obj ms) =
      (ofItems (groupItems ms)).bind fun ns => (ofItems (handledItems ms)).map (build ns) := by
  unfold handledItems
  split_ifs with hblock
  · obtain ⟨error, herror⟩ := Option.isSome_iff_exists.mp hblock.1
    have hbody : (Draft.pick ms ["command", "process"]).isSome ∨ (Draft.chains ms).isSome := by
      rw [Json.isSome_command_iff, Json.chains_eq]
      exact hblock.2.symm
    obtain ⟨build, hbuild⟩ := exists_watchedBody_eq ms
    rw [ofJson_of_watched herror hbody, hbuild, ofActions_eq]
    refine ⟨fun ns actions => guarded (Draft.ofMembers ms).withArrow.info (build ns)
      (handler error (Members.get? "error_message" ms) actions), ?_⟩
    cases ofItems (groupItems ms) <;> rfl
  · obtain ⟨build, hbuild, -⟩ := ofJson_of_not_hasErrorBlock hblock
    rw [hbuild, ofItems]
    refine ⟨fun ns _ => build ns, ?_⟩
    cases ofItems (groupItems ms) <;> rfl

theorem exists_ofJson_obj_iff :
    (∃ n, ofJson (.obj ms) = .ok n) ↔
      ∀ v ∈ groupItems ms ++ handledItems ms, ∃ n, ofJson v = .ok n := by
  obtain ⟨build, hbuild⟩ := exists_ofJson_obj_eq ms
  simp only [List.forall_mem_append, ← exists_ofItems_iff, hbuild, bind_eq_ok_iff, map_eq_ok_iff]
  constructor
  · rintro ⟨_, ns, hns, actions, hactions, -⟩
    exact ⟨⟨ns, hns⟩, actions, hactions⟩
  · rintro ⟨⟨ns, hns⟩, actions, hactions⟩
    exact ⟨_, ns, hns, actions, hactions, rfl⟩

theorem exists_of_ofJson_obj_error {e : NormalizeError} (h : ofJson (.obj ms) = .error e) :
    ∃ v ∈ groupItems ms ++ handledItems ms, ofJson v = .error e := by
  obtain ⟨build, hbuild⟩ := exists_ofJson_obj_eq ms
  rw [hbuild] at h
  rcases bind_eq_error_iff.mp h with hgroup | ⟨ns, -, hrest⟩
  · obtain ⟨v, hv, hve⟩ := exists_of_ofItems_error hgroup
    exact ⟨v, List.mem_append_left _ hv, hve⟩
  · obtain ⟨v, hv, hve⟩ := exists_of_ofItems_error (map_eq_error_iff.mp hrest)
    exact ⟨v, List.mem_append_right _ hv, hve⟩

/-! ### Acceptance -/

/-- A definition is read as a node if it is one. -/
theorem exists_ofJson_iff (v : Json) : (∃ n, ofJson v = .ok n) ↔ v.IsNode := by
  induction v using Json.node_induction with
  | null => exact iff_of_true ⟨_, by rw [ofJson]⟩ .null
  | str t => exact iff_of_true ⟨_, by rw [ofJson]⟩ (.str t)
  | obj ms ih =>
    rw [exists_ofJson_obj_iff, Json.isNode_obj_iff]
    exact forall₂_congr ih
  | bool | num | arr =>
    refine iff_of_false (by simp [ofJson]) fun h => ?_
    cases h

/-- What is refused as a node is a boolean, a number or an array. -/
theorem exists_kind_of_error {e : NormalizeError} :
    ∀ v : Json, ofJson v = .error e → ∃ kind ∈ ["a boolean", "a number", "an array"],
      e = .notANode kind := by
  intro v
  induction v using Json.node_induction with
  | null | str =>
    intro h
    rw [ofJson] at h
    cases h
  | obj ms ih =>
    intro h
    obtain ⟨v, hv, hve⟩ := exists_of_ofJson_obj_error h
    exact ih v hv hve
  | bool | num | arr =>
    intro h
    simp only [ofJson, Except.error.injEq] at h
    exact ⟨_, by simp [Json.kind], h.symm⟩

end Node

namespace Chain

theorem exists_varsOf_iff :
    (∃ vars, varsOf v = .ok vars) ↔
      ∀ w, Members.get? "vars" v.members = some w → w = .null ∨ ∃ vars, w = .obj vars := by
  unfold varsOf
  split <;> simp_all

theorem exists_of_varsOf_error {e : NormalizeError} (h : varsOf v = .error e) :
    ∃ w, Members.get? "vars" v.members = some w ∧ e = .varsNotAnObject w.kind := by
  unfold varsOf at h
  split at h
  · cases h
  · cases h
  · cases h
  · next w _ _ hw => exact ⟨w, hw, (Except.error.inj h).symm⟩

theorem exists_ofJson_eq (v : Json) :
    ∃ build : Node → Members Json → Chain,
      ofJson v = (Node.ofJson v).bind fun n => (varsOf v).map (build n) :=
  ⟨_, rfl⟩

theorem exists_ofJson_iff (v : Json) :
    (∃ c, ofJson v = .ok c) ↔ (∃ n, Node.ofJson v = .ok n) ∧ ∃ vars, varsOf v = .ok vars := by
  obtain ⟨build, hbuild⟩ := exists_ofJson_eq v
  simp only [hbuild, bind_eq_ok_iff, map_eq_ok_iff]
  constructor
  · rintro ⟨_, n, hn, vars, hvars, -⟩
    exact ⟨⟨n, hn⟩, vars, hvars⟩
  · rintro ⟨⟨n, hn⟩, vars, hvars⟩
    exact ⟨_, n, hn, vars, hvars, rfl⟩

theorem error_cases {e : NormalizeError} (h : ofJson v = .error e) :
    Node.ofJson v = .error e ∨ varsOf v = .error e := by
  obtain ⟨build, hbuild⟩ := exists_ofJson_eq v
  rw [hbuild] at h
  rcases bind_eq_error_iff.mp h with hnode | ⟨n, -, hvars⟩
  · exact .inl hnode
  · exact .inr (map_eq_error_iff.mp hvars)

end Chain

/-- **Which definitions are chains.** A definition gives a node exactly if it is null, a text, or an
object whose group, and under an error block whose actions, are definitions of nodes. It gives a
chain exactly if it gives a node and its variables are an object or are left out. Nothing is refused
for any other reason. Without an error block the children of an object are the nodes of its
group. -/
theorem ofJson_accepts (v : Json) :
    ((∃ n, Node.ofJson v = .ok n) ↔ v.IsNode) ∧
    ((∃ c, Chain.ofJson v = .ok c) ↔ v.IsNode ∧
      ∀ w, Members.get? "vars" v.members = some w → w = .null ∨ ∃ vars, w = .obj vars) ∧
    (∀ e, Node.ofJson v = .error e →
      ∃ kind ∈ ["a boolean", "a number", "an array"], e = .notANode kind) ∧
    (∀ e, Chain.ofJson v = .error e →
      (∃ kind ∈ ["a boolean", "a number", "an array"], e = .notANode kind) ∨
        ∃ w, Members.get? "vars" v.members = some w ∧ e = .varsNotAnObject w.kind) ∧
    (∀ ms n, v = .obj ms → ¬ HasErrorBlock ms → Node.ofJson v = .ok n →
      (groupItems ms).map Node.ofJson = n.children.map .ok) := by
  refine ⟨Node.exists_ofJson_iff v, ?_, fun e => Node.exists_kind_of_error v, fun e h => ?_, ?_⟩
  · rw [Chain.exists_ofJson_iff, Node.exists_ofJson_iff, Chain.exists_varsOf_iff]
  · rcases Chain.error_cases h with hnode | hvars
    · exact .inl (Node.exists_kind_of_error v hnode)
    · exact .inr (Chain.exists_of_varsOf_error hvars)
  · rintro ms n rfl hblock hn
    exact Node.map_ofJson_groupItems hblock hn

end CommandChain
