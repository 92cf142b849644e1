import CommandChain.Proofs.Chain.Watched
import CommandChain.Proofs.Run.Local

/-!
# Canonical nodes are definitions of themselves

A node that was read from a definition is clean: its commands and the paths of its results are not
empty, and its input tokens are trimmed (`Node.allClean_ofJson`). Written as an object with the
fields that every node has, it is a definition again, and this definition is read as the same node
if no arrow is left in the commands (`canonical_stable`). The order in which the fields are written
is of no consequence (`Node.Written`). -/

namespace CommandChain

/-! ### Clean nodes -/

/-- The path of the result is not empty, and the input tokens have no blanks at their ends. -/
def NodeInfo.IsClean (i : NodeInfo) : Prop := i.out ≠ "" ∧ ∀ t ∈ i.ins, Text.trimmed t = t

/-- The fields of the node are clean, and its command is not empty if it is a leaf. -/
def Node.IsClean : Node → Prop
  | .leaf i c => i.IsClean ∧ c ≠ ""
  | .group i _ => i.IsClean

theorem Draft.isClean_info (d : Draft) : d.info.IsClean := by
  refine ⟨?_, fun t ht => trimmed_of_mem_tokens ht⟩
  show outPath d.out ≠ ""
  unfold outPath
  split
  · decide
  · decide
  · next hne _ => exact hne

namespace Node

/-- The node and all nodes below it are clean. -/
def AllClean (n : Node) : Prop := ∀ c ∈ n.all, c.IsClean

theorem allClean_leaf {i : NodeInfo} {c : String} (hi : i.IsClean) (hc : c ≠ "") :
    (leaf i c).AllClean := by
  intro m hm
  rw [List.mem_singleton.mp hm]
  exact ⟨hi, hc⟩

theorem allClean_group {i : NodeInfo} {ns : List Node} (hi : i.IsClean)
    (hns : ∀ n ∈ ns, n.AllClean) : (group i ns).AllClean := by
  intro m hm
  rcases List.mem_cons.mp hm with rfl | hm
  · exact hi
  · obtain ⟨n, hn, hm⟩ := mem_allIn.mp hm
    exact hns n hn m hm

theorem allClean_withArrow (d : Draft) : d.withArrow.node.AllClean := by
  rcases hc : d.command with _ | c
  · have hnode : d.withArrow.node = .group d.info [] := by simp [Draft.withArrow, Draft.node, hc]
    rw [hnode]
    exact allClean_group d.isClean_info (by simp)
  · have hnode : d.withArrow.node =
        .leaf d.withArrow.info (Arrow.ofChars c.plainText.toList).commandText := by
      simp [Draft.node, Draft.command_withArrow hc, Json.plainText]
    rw [hnode]
    refine allClean_leaf d.withArrow.isClean_info fun hempty => ?_
    exact Arrow.commandText_ne_empty _ (by rw [hempty]; rfl)

theorem allClean_ofCommand (t : String) : (ofCommand t).AllClean := allClean_withArrow _

/-- The nodes that a reading adds have no inputs, and their results go to the default path. -/
theorem isClean_added (m : Mode) (g : String) : ({ mode := m, guard := g } : NodeInfo).IsClean :=
  ⟨(by decide : defaultOut ≠ ""), by simp⟩

theorem allClean_handler {error : Json} {message : Option Json} {actions : List Node}
    (h : ∀ n ∈ actions, n.AllClean) : (handler error message actions).AllClean := by
  refine allClean_group (isClean_added .series error.plainText) fun n hn => ?_
  rw [List.mem_append, List.mem_append, List.mem_singleton, Option.mem_toList,
    Option.map_eq_some_iff] at hn
  rcases hn with (⟨m, -, rfl⟩ | hn) | rfl
  · exact allClean_ofCommand _
  · exact h n hn
  · exact allClean_ofCommand _

theorem allClean_guarded {i : NodeInfo} {body handler : Node} (hi : i.IsClean)
    (hbody : body.AllClean) (hhandler : handler.AllClean) : (guarded i body handler).AllClean := by
  refine allClean_group hi fun n hn => ?_
  rcases List.mem_pair.mp hn with rfl | rfl
  · exact hbody
  · exact hhandler

/-- The children of an object are smaller than the object. -/
theorem sizeOf_items_lt {ms : Members Json} {items : Json} (h : Draft.chains ms = some items) :
    sizeOf items.toList < sizeOf ms := by
  have hpick := sizeOf_pick h
  have hlist := sizeOf_toList items
  omega

mutual

/-- **What is read from a definition is clean.** -/
theorem allClean_ofJson : ∀ (v : Json) {n : Node}, ofJson v = .ok n → n.AllClean
  | .null, n, h => by
    unfold ofJson at h
    cases h
    exact allClean_ofCommand _
  | .str t, n, h => by
    unfold ofJson at h
    cases h
    exact allClean_ofCommand _
  | .obj ms, n, h => by
    rcases ofJson_obj_cases h with rfl | ⟨items, body, hitems, hbody, rfl⟩ |
      ⟨error, body, actions, hactions, hbody, rfl⟩
    · exact allClean_withArrow _
    · have hsize := sizeOf_items_lt hitems
      exact allClean_group (Draft.isClean_info _) (allClean_ofItems items.toList hbody)
    · refine allClean_guarded (Draft.isClean_info _) ?_
        (allClean_handler (allClean_ofActions ms hactions))
      rcases hbody with rfl | ⟨items, children, hitems, hchildren, rfl⟩
      · exact allClean_withArrow _
      · have hsize := sizeOf_items_lt hitems
        exact allClean_group (isClean_added _ _) (allClean_ofItems items.toList hchildren)
  | .bool _, n, h | .num _, n, h | .arr _, n, h => by
    unfold ofJson at h
    cases h
termination_by v => sizeOf v
decreasing_by all_goals simp only [Json.obj.sizeOf_spec]; omega

theorem allClean_ofActions (ms : Members Json) {ns : List Node} (h : ofActions ms = .ok ns) :
    ∀ n ∈ ns, n.AllClean := by
  unfold ofActions at h
  split at h
  · next actions hactions =>
    have hsize := sizeOf_get? hactions
    have hlist := sizeOf_toList actions
    exact allClean_ofItems actions.toList h
  · cases h
    simp
termination_by sizeOf ms
decreasing_by omega

theorem allClean_ofItems : ∀ (vs : List Json) {ns : List Node}, ofItems vs = .ok ns →
    ∀ n ∈ ns, n.AllClean
  | [], ns, h => by
    unfold ofItems at h
    cases h
    simp
  | v :: vs, ns, h => by
    obtain ⟨n, ns', hv, hvs, rfl⟩ := ofItems_cons_eq_ok_iff.mp h
    exact List.forall_mem_cons.mpr ⟨allClean_ofJson v hv, allClean_ofItems vs hvs⟩
termination_by vs => sizeOf vs

end

end Node

/-! ### Nodes written as definitions -/

mutual

/-- The value is an object with the fields of the node, in whatever order, and its children are
written in the same way. -/
inductive Node.Written : Node → Json → Prop
  | leaf {i : NodeInfo} {c : String} {ms : Members Json} :
    ms.Same (i.toMembers ++ [("command", .str c)]) → Written (.leaf i c) (.obj ms)
  | group {i : NodeInfo} {ns : List Node} {vs : List Json} {ms : Members Json} :
    AllWritten ns vs → ms.Same (i.toMembers ++ [("chains", .arr vs)]) →
    Written (.group i ns) (.obj ms)

/-- Every node is written, in its place in the list. -/
inductive Node.AllWritten : List Node → List Json → Prop
  | nil : AllWritten [] []
  | cons {n : Node} {v : Json} {ns : List Node} {vs : List Json} :
    Written n v → AllWritten ns vs → AllWritten (n :: ns) (v :: vs)

end

namespace Node

mutual

theorem written_toJson : (n : Node) → n.Written n.toJson
  | .leaf _ _ => by
    unfold toJson
    exact .leaf (.refl _)
  | .group _ ns => by
    unfold toJson
    exact .group (allWritten_listToJson ns) (.refl _)

theorem allWritten_listToJson : (ns : List Node) → AllWritten ns (listToJson ns)
  | [] => by
    unfold listToJson
    exact .nil
  | n :: ns => by
    unfold listToJson
    exact .cons (written_toJson n) (allWritten_listToJson ns)

end

end Node

namespace Draft

/-- The fields of a node and a command, if there is one. -/
def ofInfo (i : NodeInfo) (command : Option Json) : Draft where
  command
  ins := some (.arr (i.ins.map .str))
  out := some (.str i.out)
  mode := some (.str i.mode.name)
  guard := some (.str i.guard)
  loop := some (.str i.loop)

theorem ofText_name (m : Mode) : Mode.ofText m.name = m := by
  cases m <;> decide

theorem info_ofInfo {i : NodeInfo} (h : i.IsClean) (command : Option Json) :
    (ofInfo i command).info = i := by
  have htokens : tokens (some (.arr (i.ins.map .str))) = i.ins := tokens_arr h.2
  have hpath : outPath (some (.str i.out)) = i.out := outPath_str h.1
  unfold info ofInfo
  simp only [htokens, hpath, Option.map_some, Option.getD_some, Json.plainText, ofText_name]

end Draft

namespace Node

/-- The command of a leaf. -/
def ownCommand : Node → Option String
  | .leaf _ c => some c
  | .group _ _ => none

/-- The commands of the leaves below a node. -/
def commands (n : Node) : List String := n.all.filterMap ownCommand

/-- No arrow is left in the commands of the leaves. -/
def IsArrowFree (n : Node) : Prop :=
  ∀ c ∈ n.commands, Text.splitTop ['-', '>'] c.toList = [c.toList]

instance (n : Node) : Decidable n.IsArrowFree := List.decidableBAll ..

theorem isArrowFree_of_mem {i : NodeInfo} {ns : List Node} {n : Node}
    (h : (group i ns).IsArrowFree) (hn : n ∈ ns) : n.IsArrowFree := by
  intro c hc
  obtain ⟨m, hm, hmc⟩ := List.mem_filterMap.mp hc
  exact h c (List.mem_filterMap.mpr ⟨m, mem_all_of_mem hn hm, hmc⟩)

theorem ofJson_leaf {i : NodeInfo} {c : String} {ms : Members Json}
    (h : ms.Same (i.toMembers ++ [("command", .str c)])) (hi : i.IsClean) (hc : c ≠ "")
    (harrow : Text.splitTop ['-', '>'] c.toList = [c.toList]) :
    ofJson (.obj ms) = .ok (.leaf i c) := by
  have hchains : Draft.chains ms = none := (Draft.chains_congr h).trans rfl
  have hdraft : Draft.ofMembers ms = .ofInfo i (some (.str c)) :=
    (Draft.ofMembers_congr h).trans rfl
  have hne : c.toList ≠ [] := fun e => hc (String.toList_inj.mp e)
  rw [ofJson_of_fields hchains ((h "error").trans rfl), hdraft,
    Draft.withArrow_of_isPlain rfl hne (Arrow.isPlain_of_splitTop harrow)]
  show Except.ok (leaf (Draft.ofInfo i _).info c) = _
  rw [Draft.info_ofInfo hi]

theorem ofJson_group {i : NodeInfo} {ns : List Node} {vs : List Json} {ms : Members Json}
    (h : ms.Same (i.toMembers ++ [("chains", .arr vs)])) (hi : i.IsClean)
    (hns : ofItems vs = .ok ns) : ofJson (.obj ms) = .ok (.group i ns) := by
  have hchains : Draft.chains ms = some (.arr vs) := (Draft.chains_congr h).trans rfl
  have hdraft : Draft.ofMembers ms = .ofInfo i none := (Draft.ofMembers_congr h).trans rfl
  rw [ofJson_of_chains hchains ((h "error").trans rfl), hdraft]
  show (ofItems vs).map (group (Draft.ofInfo i none).info) = _
  rw [hns, Draft.info_ofInfo hi]
  rfl

mutual

/-- **A clean node without arrows is read from its own definition.** -/
theorem Written.ofJson {n : Node} {v : Json} (h : n.Written v) (hclean : n.AllClean)
    (harrow : n.IsArrowFree) : Node.ofJson v = .ok n := by
  cases h with
  | @leaf i c _ hms =>
    have hnode := hclean (.leaf i c) (self_mem_all _)
    exact ofJson_leaf hms hnode.1 hnode.2 (harrow c (List.mem_singleton.mpr rfl))
  | @group i ns vs _ hvs hms =>
    have hnode := hclean (.group i ns) (self_mem_all _)
    exact ofJson_group hms hnode (hvs.ofItems (fun n hn m hm => hclean m (mem_all_of_mem hn hm))
      fun n hn => isArrowFree_of_mem harrow hn)

theorem AllWritten.ofItems {ns : List Node} {vs : List Json} (h : AllWritten ns vs)
    (hclean : ∀ n ∈ ns, n.AllClean) (harrow : ∀ n ∈ ns, n.IsArrowFree) :
    Node.ofItems vs = .ok ns := by
  cases h with
  | nil =>
    unfold Node.ofItems
    rfl
  | @cons n v ns vs hv hvs =>
    obtain ⟨hn, hns⟩ := List.forall_mem_cons.mp hclean
    obtain ⟨hn', hns'⟩ := List.forall_mem_cons.mp harrow
    exact ofItems_cons_eq_ok_iff.mpr ⟨n, ns, hv.ofJson hn hn', hvs.ofItems hns hns', rfl⟩

end

end Node

/-- **Canonical nodes are stable.** A node that was read from a definition is clean with all nodes
below it; and if no arrow is left in its commands, every definition in which it is written with its
own fields is read as the node itself. -/
theorem canonical_stable {v : Json} {n : Node} (h : Node.ofJson v = .ok n) :
    n.AllClean ∧ (n.IsArrowFree →
      n.Written n.toJson ∧ ∀ w, n.Written w → Node.ofJson w = .ok n) :=
  ⟨Node.allClean_ofJson v h, fun harrow =>
    ⟨n.written_toJson, fun _ hw => hw.ofJson (Node.allClean_ofJson v h) harrow⟩⟩

/-- Two commands side by side, one with its arrows and one with other names of its fields, are
stable once they are read. -/
theorem shorthands_stable :
    ∃ n, Node.ofJson (.obj [("parallel", .arr [.str "(a, b) -> x => x -> c",
        .obj [("process", .str "y"), ("if", .str "z"), ("input", .str "( a , b )")]])]) = .ok n ∧
      n.commands = ["x => x", "y"] ∧ Node.ofJson n.toJson = .ok n := by
  have hfields : Node.ofJson
      (.obj [("process", .str "y"), ("if", .str "z"), ("input", .str "( a , b )")]) =
      .ok (.leaf { guard := "z", ins := ["a", "b"] } "y") := by
    rw [Node.ofJson_of_fields rfl rfl]
    rfl
  have hread : Node.ofJson (.obj [("parallel", .arr [.str "(a, b) -> x => x -> c",
      .obj [("process", .str "y"), ("if", .str "z"), ("input", .str "( a , b )")]])]) =
      .ok (.group { mode := .parallel } [
        .leaf { ins := ["a", "b"], out := "c" } "x => x",
        .leaf { guard := "z", ins := ["a", "b"] } "y"]) := by
    rw [Node.ofJson_of_chains rfl rfl]
    simp only [Json.toList, Node.ofItems, Node.ofJson, hfields]
    rfl
  exact ⟨_, hread, rfl, ((canonical_stable hread).2 (by decide)).2 _ (Node.written_toJson _)⟩

end CommandChain
