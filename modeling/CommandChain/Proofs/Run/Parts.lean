import CommandChain.Proofs.Run.Trace

/-!
# The parts of a task and the nodes of its tree

A task that is reached in a run is a stage of the node it was started for: `Task.Stage n t` says
that `t` may be left of `n`, and `Task.Part u w t q` that the part `u` stands at the position `q` of
`t`.

* `Stage.of_moves`, `Run.stage`: moves lead from stage to stage, so that a run stays in its tree.
* `Part.andThen_iff`, `Part.sideBySide_iff`: where the parts of a series and of nodes side by side
  stand. -/

namespace CommandChain

/-- The node at a position below a node. -/
def Node.nodeAt : Node → Position → Option Node
  | n, [] => some n
  | .leaf _ _, _ :: _ => none
  | .group i ns, .series k :: p => if i.mode = .series then (ns[k]?).bind (·.nodeAt p) else none
  | .group i ns, .parallel k :: p => if i.mode = .parallel then (ns[k]?).bind (·.nodeAt p) else none

namespace Act

/-- The act is one of the given node. -/
def IsOf : Act → Node → Prop
  | .guard condition _, n => condition = n.info.guard
  | .again condition _, n => condition = n.info.loop
  | .start c, n => n = .leaf c.info c.command
  | .finish c _ _, n => n = .leaf c.info c.command

/-- A condition holds, and the body of the node begins. -/
def Opens : Act → Prop
  | .guard _ b => b = true
  | .again _ b => b = true
  | _ => False

/-- A condition does not hold, and the node is skipped or its loop ends. -/
def Closes : Act → Prop
  | .guard _ b => b = false
  | .again _ b => b = false
  | _ => False

end Act

namespace Task

/-! ### Stages -/

/-- `Stage n t`: the task `t` may be left of the node `n`, from its guard on. -/
inductive Stage : Node → Task → Prop
  | guard (n : Node) : Stage n (.guard n)
  | done (n : Node) : Stage n .done
  | idle (n : Node) : Stage n (.loop n .done)
  | leaf (i : NodeInfo) (c : String) : Stage (.leaf i c) (.loop (.leaf i c) (.leaf i c))
  | awaiting (i : NodeInfo) (c : String) (ps : List Json) :
    Stage (.leaf i c) (.loop (.leaf i c) (.awaiting i c ps))
  | series {i : NodeInfo} {pre rest : List Node} {n : Node} {first : Task} :
    i.mode = .series → Stage n first →
      Stage (.group i (pre ++ n :: rest)) (.loop (.group i (pre ++ n :: rest)) (.series first rest))
  | parallel {i : NodeInfo} {ns : List Node} {ts : List Task} :
    i.mode = .parallel → ts.length = ns.length →
      (∀ (k : Nat) (n : Node) (t : Task), ns[k]? = some n → ts[k]? = some t → Stage n t) →
        Stage (.group i ns) (.loop (.group i ns) (.parallel ts))

theorem andThen_of_ne_done {t : Task} (h : t ≠ .done) (ns : List Node) :
    andThen t ns = .series t ns := by
  cases t <;> simp_all [andThen]

theorem sideBySide_eq (ts : List Task) :
    sideBySide ts = .parallel ts ∨ sideBySide ts = .done ∧ ∀ t ∈ ts, t = .done := by
  unfold sideBySide
  split_ifs with h
  · refine .inr ⟨rfl, fun t ht => ?_⟩
    have := List.all_eq_true.mp h t ht
    cases t <;> simp_all [isDone]
  · exact .inl rfl

/-- The body of a node, before its first step, is a stage of the node. -/
theorem stage_ofBody (n : Node) : Stage n (.loop n (ofBody n)) := by
  rcases n with ⟨i, c⟩ | ⟨i, ns⟩
  · exact .leaf i c
  · rcases hm : i.mode with _ | _
    · rcases ns with _ | ⟨n, ns⟩
      · simp only [ofBody, hm, andThen]
        exact .idle _
      · simp only [ofBody, hm, andThen]
        exact @Stage.series i [] ns n _ hm (.guard n)
    · simp only [ofBody, hm]
      rcases sideBySide_eq (ns.map .guard) with h | ⟨h, -⟩
      · rw [h]
        refine .parallel hm (by simp) fun k n t hn ht => ?_
        rw [List.getElem?_map, hn, Option.map_some, Option.some.injEq] at ht
        subst ht
        exact .guard n
      · rw [h]
        exact .idle _

theorem stage_ite (n : Node) (b : Bool) : Stage n (if b then .loop n (ofBody n) else .done) := by
  cases b
  · exact .done n
  · exact stage_ofBody n

namespace Stage

variable {n : Node} {answer : Answer} {s : Store} {w : Nat} {t t' : Task} {p : Position} {act : Act}
  {m : Moved}

theorem andThen {i : NodeInfo} {pre rest : List Node} {first : Task} (hi : i.mode = .series)
    (h : Stage n first) :
    Stage (.group i (pre ++ n :: rest))
      (.loop (.group i (pre ++ n :: rest)) (andThen first rest)) := by
  by_cases hd : first = .done
  · subst hd
    rcases rest with _ | ⟨n', rest⟩
    · exact .idle _
    · have := @Stage.series i (pre ++ [n]) rest n' _ hi (.guard n')
      rw [List.append_assoc, List.singleton_append] at this
      exact this
  · rw [andThen_of_ne_done hd]
    exact .series hi h

theorem sideBySide {i : NodeInfo} {ns : List Node} {ts : List Task} (hi : i.mode = .parallel)
    (hl : ts.length = ns.length)
    (h : ∀ (k : Nat) (n : Node) (t : Task), ns[k]? = some n → ts[k]? = some t → Stage n t) :
    Stage (.group i ns) (.loop (.group i ns) (sideBySide ts)) := by
  rcases sideBySide_eq ts with he | ⟨he, -⟩
  · rw [he]
    exact .parallel hi hl h
  · rw [he]
    exact .idle _

/-- **A move leads from a stage to a stage**, of the node itself and of the node around its body. -/
theorem of_moves (h : Moves answer s w t p act m) (ht : m.task = .ok t') :
    (Stage n t → Stage n t') ∧ (Stage n (.loop n t) → Stage n (.loop n t')) := by
  induction h generalizing n t' with
  | guard w n' =>
    rw [onCondition_eq_ok] at ht
    subst ht
    refine ⟨fun h => ?_, (fun h => nomatch h)⟩
    cases h
    exact stage_ite n' _
  | start w info command =>
    cases ht
    refine ⟨(fun h => nomatch h), fun h => ?_⟩
    cases h
    exact .awaiting info command _
  | finish w info command params =>
    rw [endLeaf_eq_ok ht]
    exact ⟨(fun h => nomatch h), fun _ => .idle n⟩
  | again w n' =>
    rw [onCondition_eq_ok] at ht
    subst ht
    refine ⟨fun h => ?_, (fun h => nomatch h)⟩
    cases h
    exact stage_ite n' _
  | @loop w n' body p act m _ ih =>
    obtain ⟨body', hb, rfl⟩ := Moved.inside_eq_ok.mp ht
    refine ⟨fun h => ?_, (fun h => nomatch h)⟩
    have hn : n = n' := by cases h <;> rfl
    subst hn
    exact (ih hb).2 h
  | series _ ih =>
    obtain ⟨first', hf, rfl⟩ := Moved.inside_eq_ok.mp ht
    refine ⟨(fun h => nomatch h), fun h => ?_⟩
    cases h with
    | series hi h => exact ((ih hf).1 h).andThen hi
  | @parallel w k ts t p act m htk _ ih =>
    obtain ⟨u, hu, rfl⟩ := Moved.inside_eq_ok.mp ht
    refine ⟨(fun h => nomatch h), fun h => ?_⟩
    cases h with
    | parallel hi hl h =>
      refine Stage.sideBySide hi (by rw [List.length_set, hl]) fun k' n' t' hn' ht' => ?_
      rw [List.getElem?_set] at ht'
      split_ifs at ht' with hk
      · subst hk
        cases ht'
        exact (ih hu).1 (h k n' t hn' htk)
      · exact h k' n' t' hn' ht'

end Stage

/-! ### Parts -/

/-- A part that acts for itself: a guard that is to be checked or a leaf that waits. -/
def isAtom : Task → Bool
  | .guard _ | .awaiting .. => true
  | _ => false

/-- `Part u w t q`: the task `u` is the part of `t` that stands at the position `q`. -/
inductive Part (u : Task) : Nat → Task → Position → Prop
  | here (w : Nat) : Part u w u []
  | loop {w : Nat} {n : Node} {body : Task} {q : Position} :
    Part u n.width body q → Part u w (.loop n body) q
  | series {w : Nat} {first : Task} {rest : List Node} {q : Position} :
    Part u 0 first q → Part u w (.series first rest) (.series (w - rest.length - 1) :: q)
  | parallel {w k : Nat} {ts : List Task} {t : Task} {q : Position} :
    ts[k]? = some t → Part u 0 t q → Part u w (.parallel ts) (.parallel k :: q)

/-- A leaf waits at a position for the answer to its command. -/
def Waits (c : Call) (w : Nat) (t : Task) (q : Position) : Prop :=
  Part (.awaiting c.info c.command c.params) w t q

/-- The guard of a node at a position is to be checked. -/
def Faces (w : Nat) (t : Task) (q : Position) : Prop := ∃ n, Part (.guard n) w t q

namespace Part

variable {u t : Task} {w : Nat} {q : Position} {ns : List Node} {ts : List Task}

theorem not_done (hu : u.isAtom) : ¬ Part u w .done q := by
  intro h
  cases h
  cases hu

theorem loop_iff (hu : u.isAtom) {n : Node} : Part u w (.loop n t) q ↔ Part u n.width t q := by
  constructor
  · intro h
    cases h with
    | here => cases hu
    | loop h => exact h
  · exact .loop

theorem series_iff (hu : u.isAtom) :
    Part u w (.series t ns) q ↔ ∃ q', q = .series (w - ns.length - 1) :: q' ∧ Part u 0 t q' := by
  constructor
  · intro h
    cases h with
    | here => cases hu
    | series h => exact ⟨_, rfl, h⟩
  · rintro ⟨q', rfl, h⟩
    exact .series h

theorem parallel_iff (hu : u.isAtom) :
    Part u w (.parallel ts) q ↔
      ∃ k t q', ts[k]? = some t ∧ q = .parallel k :: q' ∧ Part u 0 t q' := by
  constructor
  · intro h
    cases h with
    | here => cases hu
    | parallel ht h => exact ⟨_, _, _, ht, rfl, h⟩
  · rintro ⟨k, t, q', ht, rfl, h⟩
    exact .parallel ht h

theorem andThen_iff (hu : u.isAtom) :
    Part u w (andThen t ns) q ↔
      (∃ q', q = .series (w - ns.length - 1) :: q' ∧ Part u 0 t q') ∨
        (t = .done ∧ ∃ n ns', ns = n :: ns' ∧ q = [.series (w - ns'.length - 1)] ∧
          u = .guard n) := by
  by_cases hd : t = .done
  · subst hd
    rcases ns with _ | ⟨n, ns⟩
    · simp [andThen, not_done hu]
    · simp only [andThen, series_iff hu, not_done hu, and_false, exists_false, false_or, true_and]
      constructor
      · rintro ⟨q', rfl, h⟩
        cases h
        exact ⟨n, ns, rfl, rfl, rfl⟩
      · rintro ⟨n', ns', hn, rfl, rfl⟩
        cases hn
        exact ⟨[], rfl, .here 0⟩
  · simp [andThen_of_ne_done hd, series_iff hu, hd]

theorem sideBySide_iff (hu : u.isAtom) :
    Part u w (sideBySide ts) q ↔
      ∃ k t q', ts[k]? = some t ∧ q = .parallel k :: q' ∧ Part u 0 t q' := by
  rcases sideBySide_eq ts with he | ⟨he, hall⟩
  · rw [he, parallel_iff hu]
  · rw [he]
    refine ⟨fun h => absurd h (not_done hu), ?_⟩
    rintro ⟨k, t, q', ht, -, h⟩
    rw [hall t (List.mem_of_getElem? ht)] at h
    exact absurd h (not_done hu)

/-- Before its first step, a body has the guard of its first node to check, or those of all
nodes. -/
theorem ofBody {n : Node} (hu : u.isAtom) (h : Part u n.width (ofBody n) q) :
    (∃ n', u = .guard n') ∧ (q = [.series 0] ∨ ∃ k, q = [.parallel k]) := by
  rcases n with ⟨i, c⟩ | ⟨i, ns⟩
  · cases h
    cases hu
  · rcases hm : i.mode with _ | _
    · simp only [Task.ofBody, hm, andThen_iff hu, not_done hu, and_false, exists_false, false_or,
        true_and] at h
      obtain ⟨n, ns', rfl, rfl, rfl⟩ := h
      exact ⟨⟨n, rfl⟩, .inl (by simp [Node.width])⟩
    · simp only [Task.ofBody, hm, sideBySide_iff hu] at h
      obtain ⟨k, t, q', ht, rfl, h⟩ := h
      rw [List.getElem?_map, Option.map_eq_some_iff] at ht
      obtain ⟨n, -, rfl⟩ := ht
      cases h
      exact ⟨⟨n, rfl⟩, .inr ⟨k, rfl⟩⟩

theorem ite {n : Node} {b : Bool} (hu : u.isAtom)
    (h : Part u w (if b then .loop n (Task.ofBody n) else .done) q) :
    b = true ∧ (∃ n', u = .guard n') ∧ (q = [.series 0] ∨ ∃ k, q = [.parallel k]) := by
  cases b
  · exact absurd h (not_done hu)
  · exact ⟨rfl, ofBody hu ((loop_iff hu).mp h)⟩

end Part

end Task

theorem Run.stage {n : Node} {s₀ s : Store} {τ : List Mark} {r : Except RunError Task}
    (h : Run n.width (.ofBody n) s₀ τ r s) : ∀ t, r = .ok t → Task.Stage n (.loop n t) := by
  induction h with
  | start =>
    intro t ht
    cases ht
    exact Task.stage_ofBody n
  | step _ hm ih =>
    intro t ht
    exact (Task.Stage.of_moves hm ht).2 (ih _ rfl)

end CommandChain
