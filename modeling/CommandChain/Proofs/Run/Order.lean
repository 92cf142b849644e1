import CommandChain.Proofs.Run.Parts

/-!
# The order of a series

In a run the guard of a node in a series is checked right after the node before it was skipped or
has ended its loop, nothing else having been done in the group in between. A leaf that fails ends
the run where it is (`series_order`).

What carries it is that a guard which is to be checked has its predecessor's end, or the opening of
the group, as the last act in the group (`Run.leads`). -/

namespace CommandChain

/-- The entries of a trace at a position and below it. -/
def below (p : Position) (τ : List Mark) : List Mark := τ.filter fun mk => p.isPrefixOf mk.position

/-- `Leads p k τ`: the last act at or below `p` has brought up the guard of the node `k` of a series
at `p`. Before the first node the condition of the group was checked, or else the run begins
there. -/
def Leads (p : Position) : Nat → List Mark → Prop
  | 0, τ => (p = [] ∧ τ = []) ∨ ∃ l act, below p τ = l ++ [⟨p, act⟩] ∧ act.Opens
  | k + 1, τ => ∃ l act, below p τ = l ++ [⟨p ++ [.series k], act⟩] ∧ act.Closes

theorem append_singleton_eq_singleton {α : Type} {l : List α} {x y : α} (h : l ++ [x] = [y]) :
    l = [] ∧ x = y := by
  rcases l with _ | ⟨z, l⟩
  · exact ⟨rfl, List.singleton_inj.mp h⟩
  · simp at h

theorem below_snoc {p q : Position} (h : p <+: q) (τ : List Mark) (act : Act) :
    below p (τ ++ [⟨q, act⟩]) = below p τ ++ [⟨q, act⟩] := by
  simp [below, List.isPrefixOf_iff_prefix, h]

theorem below_snoc_elsewhere {p q : Position} (h : ¬ p <+: q) (τ : List Mark) (act : Act) :
    below p (τ ++ [⟨q, act⟩]) = below p τ := by
  simp [below, List.isPrefixOf_iff_prefix, h]

theorem Leads.snoc_elsewhere {p q : Position} {k : Nat} {τ : List Mark} (h : Leads p k τ)
    (hq : ¬ p <+: q) (act : Act) : Leads p k (τ ++ [⟨q, act⟩]) := by
  cases k with
  | zero =>
    rcases h with ⟨rfl, -⟩ | ⟨l, act', hl, ho⟩
    · exact absurd List.nil_prefix hq
    · exact .inr ⟨l, act', by rw [below_snoc_elsewhere hq, hl], ho⟩
  | succ k =>
    obtain ⟨l, act', hl, hc⟩ := h
    exact ⟨l, act', by rw [below_snoc_elsewhere hq, hl], hc⟩

namespace Task

/-- `New p act q k`: the act at the position `p` brings up the guard of the node `k` of a series at
`q`. -/
def New (p : Position) (act : Act) (q : Position) : Nat → Prop
  | 0 => p = q ∧ act.Opens
  | k + 1 => p = q ++ [.series k] ∧ act.Closes

theorem New.cons {p q : Position} {act : Act} {k : Nat} (h : New p act q k) (a : Turn) :
    New (a :: p) act (a :: q) k := by
  cases k with
  | zero => exact ⟨by rw [h.1], h.2⟩
  | succ k => exact ⟨by rw [h.1, List.cons_append], h.2⟩

theorem New.leads {p q : Position} {act : Act} {k : Nat} (h : New p act q k) (τ : List Mark) :
    Leads q k (τ ++ [⟨p, act⟩]) := by
  cases k with
  | zero =>
    obtain ⟨rfl, ho⟩ := h
    exact .inr ⟨below p τ, act, below_snoc (List.prefix_refl p) τ act, ho⟩
  | succ k =>
    obtain ⟨rfl, hc⟩ := h
    exact ⟨below q τ, act, below_snoc (List.prefix_append q _) τ act, hc⟩

namespace Moves

variable {answer : Answer} {s : Store} {w : Nat} {n : Node} {t t' : Task}
  {p q : Position} {act : Act} {m : Moved}

/-- **An act is one of the node at its position.** -/
theorem isOf (h : Moves answer s w t p act m) :
    (∀ n, Stage n t → ∃ c, n.nodeAt p = some c ∧ act.IsOf c) ∧
      ∀ n, Stage n (.loop n t) → w = n.width → ∃ c, n.nodeAt p = some c ∧ act.IsOf c := by
  induction h with
  | guard w n' =>
    constructor
    · intro n hn
      cases hn
      exact ⟨n', by simp [Node.nodeAt], rfl⟩
    · intro n hn
      cases hn
  | start w info command =>
    constructor
    · intro n hn
      cases hn
    · intro n hn _
      cases hn
      exact ⟨_, by simp [Node.nodeAt], rfl⟩
  | finish w info command params =>
    constructor
    · intro n hn
      cases hn
    · intro n hn _
      cases hn
      exact ⟨_, by simp [Node.nodeAt], rfl⟩
  | again w n' =>
    constructor
    · intro n hn
      cases hn
      exact ⟨n', by simp [Node.nodeAt], rfl⟩
    · intro n hn
      cases hn
  | @loop w n' body p act m _ ih =>
    constructor
    · intro n hn
      have hn' : n = n' := by cases hn <;> rfl
      subst hn'
      exact ih.2 n hn rfl
    · intro n hn
      cases hn
  | @series w first rest p act m _ ih =>
    constructor
    · intro n hn
      cases hn
    · intro n hn hw
      cases hn with
      | @series i pre rest n first hi hn =>
        obtain ⟨c, hc, ha⟩ := ih.1 n hn
        have hk : w - rest.length - 1 = pre.length := by
          simp only [hw, Node.width, List.length_append, List.length_cons]
          omega
        exact ⟨c, by simp [Node.nodeAt, hi, hk, hc], ha⟩
  | @parallel w k ts t p act m htk _ ih =>
    constructor
    · intro n hn
      cases hn
    · intro n hn _
      cases hn with
      | @parallel i ns ts hi hl hall =>
        have hk : k < ns.length := hl ▸ (List.getElem?_eq_some_iff.mp htk).1
        obtain ⟨c, hc, ha⟩ := ih.1 ns[k] (hall k ns[k] t (List.getElem?_eq_getElem hk) htk)
        exact ⟨c, by simp [Node.nodeAt, hi, hk, hc], ha⟩

/-- A node that is done after a move was skipped or has ended its loop. -/
theorem closes (h : Moves answer s w t p act m) (ht : m.task = .ok .done) (hn : Stage n t) :
    p = [] ∧ act.Closes := by
  cases hn with
  | guard n =>
    cases h
    rw [onCondition_eq_ok] at ht
    split_ifs at ht with hc
    exact ⟨rfl, by simpa [Act.Closes] using hc⟩
  | done n => exact absurd rfl h.ne_done
  | idle n =>
    cases h with
    | again w n =>
      rw [onCondition_eq_ok] at ht
      split_ifs at ht with hc
      exact ⟨rfl, by simpa [Act.Closes] using hc⟩
    | loop h => exact absurd rfl h.ne_done
  | leaf i c | awaiting i c ps | series hi hn | parallel hi hl hall =>
    -- a body that has begun stays inside the loop of its node
    cases h with
    | loop h =>
      obtain ⟨t', -, ht'⟩ := Moved.inside_eq_ok.mp ht
      cases ht'

theorem not_faces_nil (h : Moves answer s w t p act m) (ht : m.task = .ok t') :
    ¬ Faces w t' [] := by
  induction h generalizing t' with
  | guard w n =>
    rw [onCondition_eq_ok] at ht
    subst ht
    rintro ⟨n', h⟩
    obtain ⟨-, -, hq | ⟨k, hq⟩⟩ := Part.ite rfl h <;> cases hq
  | start w info command =>
    cases ht
    rintro ⟨n', h⟩
    cases h
  | finish w info command params =>
    rw [endLeaf_eq_ok ht]
    rintro ⟨n', h⟩
    cases h
  | again w n =>
    rw [onCondition_eq_ok] at ht
    subst ht
    rintro ⟨n', h⟩
    obtain ⟨-, -, hq | ⟨k, hq⟩⟩ := Part.ite rfl h <;> cases hq
  | loop _ ih =>
    obtain ⟨body', hb, rfl⟩ := Moved.inside_eq_ok.mp ht
    rintro ⟨n', h⟩
    exact ih hb ⟨n', (Part.loop_iff rfl).mp h⟩
  | series _ _ =>
    obtain ⟨first', -, rfl⟩ := Moved.inside_eq_ok.mp ht
    rintro ⟨n', h⟩
    rcases (Part.andThen_iff rfl).mp h with ⟨q', hq, -⟩ | ⟨-, n, ns', -, hq, -⟩ <;> cases hq
  | parallel _ _ _ =>
    obtain ⟨u, -, rfl⟩ := Moved.inside_eq_ok.mp ht
    rintro ⟨n', h⟩
    obtain ⟨k, t, q', -, hq, -⟩ := (Part.sideBySide_iff rfl).mp h
    cases hq

theorem new_of_ite {b : Bool} {k : Nat}
    (hf : Faces w (if b then .loop n (ofBody n) else .done) (q ++ [.series k])) :
    b = true ∧ q = [] ∧ k = 0 := by
  obtain ⟨n', h⟩ := hf
  obtain ⟨rfl, -, hq | ⟨k', hq⟩⟩ := Part.ite rfl h
  · obtain ⟨rfl, hk⟩ := append_singleton_eq_singleton hq
    cases hk
    exact ⟨rfl, rfl, rfl⟩
  · obtain ⟨-, hk⟩ := append_singleton_eq_singleton hq
    cases hk

/-- **A guard that is to be checked** after a move was so before, with nothing done in its group, or
the move has brought it up. -/
theorem faces (h : Moves answer s w t p act m) (ht : m.task = .ok t')
    (hn : (∃ n, Stage n t) ∨ ∃ n, Stage n (.loop n t) ∧ w = n.width) {k : Nat}
    (hf : Faces w t' (q ++ [.series k])) :
    (Faces w t (q ++ [.series k]) ∧ ¬ q <+: p) ∨ New p act q k := by
  induction h generalizing t' q with
  | guard w n =>
    rw [onCondition_eq_ok] at ht
    subst ht
    obtain ⟨hc, rfl, rfl⟩ := new_of_ite hf
    exact .inr ⟨rfl, hc⟩
  | start w info command =>
    cases ht
    obtain ⟨n', h⟩ := hf
    generalize hq : q ++ [.series k] = q' at h
    cases h
  | finish w info command params =>
    rw [endLeaf_eq_ok ht] at hf
    obtain ⟨n', h⟩ := hf
    exact absurd h (Part.not_done rfl)
  | again w n =>
    rw [onCondition_eq_ok] at ht
    subst ht
    obtain ⟨hc, rfl, rfl⟩ := new_of_ite hf
    exact .inr ⟨rfl, hc⟩
  | @loop w n' body p act m _ ih =>
    obtain ⟨body', hb, rfl⟩ := Moved.inside_eq_ok.mp ht
    obtain ⟨n₁, h⟩ := hf
    have hs : ∃ n, Stage n (.loop n body) ∧ n'.width = n.width := by
      rcases hn with ⟨n, hn⟩ | ⟨n, hn, -⟩
      · have : n = n' := by cases hn <;> rfl
        subst this
        exact ⟨n, hn, rfl⟩
      · cases hn
    rcases ih hb (.inr hs) ⟨n₁, (Part.loop_iff rfl).mp h⟩ with ⟨⟨n₂, h⟩, hp⟩ | hnew
    · exact .inl ⟨⟨n₂, .loop h⟩, hp⟩
    · exact .inr hnew
  | @series w first rest p act m hm ih =>
    obtain ⟨first', hf', rfl⟩ := Moved.inside_eq_ok.mp ht
    obtain ⟨n₁, h⟩ := hf
    obtain ⟨n, hn, hw⟩ : ∃ n, Stage n (.loop n (.series first rest)) ∧ w = n.width := by
      rcases hn with ⟨n, hn⟩ | hn
      · cases hn
      · exact hn
    cases hn with
    | @series i pre rest n first hi hstage =>
      simp only [Node.width, List.length_append, List.length_cons] at hw
      rcases (Part.andThen_iff rfl).mp h with ⟨q', hq, h⟩ | ⟨rfl, n₂, ns', rfl, hq, -⟩
      · rcases q with _ | ⟨a, q⟩
        · cases hq
          exact absurd ⟨n₁, h⟩ (hm.not_faces_nil hf')
        · simp only [List.cons_append, List.cons.injEq] at hq
          obtain ⟨rfl, rfl⟩ := hq
          rcases ih hf' (.inl ⟨n, hstage⟩) ⟨n₁, h⟩ with ⟨⟨n₂, h⟩, hp⟩ | hnew
          · exact .inl ⟨⟨n₂, .series h⟩, by simpa using hp⟩
          · exact .inr (hnew.cons _)
      · -- the node that is done gives way to the next one
        obtain ⟨rfl, hc⟩ := hm.closes hf' hstage
        obtain ⟨rfl, hk⟩ := append_singleton_eq_singleton hq
        simp only [List.length_cons, Turn.series.injEq] at hw hk
        have hk' : k = pre.length + 1 := by omega
        subst hk'
        exact .inr ⟨by simp; omega, hc⟩
  | @parallel w k' ts t p act m htk hm ih =>
    obtain ⟨u, hu, rfl⟩ := Moved.inside_eq_ok.mp ht
    obtain ⟨n₁, h⟩ := hf
    obtain ⟨n, hn⟩ : ∃ n, Stage n t := by
      rcases hn with ⟨n, hn⟩ | ⟨n, hn, -⟩
      · cases hn
      · cases hn with
        | @parallel i ns ts hi hl hall =>
          have hlt : k' < ns.length := hl ▸ (List.getElem?_eq_some_iff.mp htk).1
          exact ⟨_, hall k' _ t (List.getElem?_eq_getElem hlt) htk⟩
    obtain ⟨j, t₁, q', htj, hq, h⟩ := (Part.sideBySide_iff rfl).mp h
    rcases q with _ | ⟨a, q⟩
    · cases hq
    · simp only [List.cons_append, List.cons.injEq] at hq
      obtain ⟨rfl, rfl⟩ := hq
      rw [List.getElem?_set] at htj
      split_ifs at htj with hkj
      · subst hkj
        cases htj
        rcases ih hu (.inl ⟨n, hn⟩) ⟨n₁, h⟩ with ⟨⟨n₂, h⟩, hp⟩ | hnew
        · exact .inl ⟨⟨n₂, .parallel htk h⟩, by simpa using hp⟩
        · exact .inr (hnew.cons _)
      · exact .inl ⟨⟨n₁, .parallel htj h⟩, by simp [Ne.symm hkj]⟩

theorem faces_of_guard {condition : String} {b : Bool}
    (h : Moves answer s w t p act m) (ha : act = .guard condition b) : Faces w t p := by
  induction h with
  | guard w n => exact ⟨n, .here w⟩
  | start w info command => cases ha
  | finish w info command params => cases ha
  | again w n => cases ha
  | loop _ ih =>
    obtain ⟨n, h⟩ := ih ha
    exact ⟨n, .loop h⟩
  | series _ ih =>
    obtain ⟨n, h⟩ := ih ha
    exact ⟨n, .series h⟩
  | parallel htk _ ih =>
    obtain ⟨n, h⟩ := ih ha
    exact ⟨n, .parallel htk h⟩

end Moves

end Task

namespace Run

variable {n : Node} {s₀ s : Store} {τ : List Mark} {r : Except RunError Task}

/-- **Every act of a run is one of the node at its position.** -/
theorem isOf (h : Run n.width (.ofBody n) s₀ τ r s) :
    ∀ mk ∈ τ, ∃ c, n.nodeAt mk.position = some c ∧ mk.act.IsOf c := by
  intro mk hmk
  obtain ⟨l, l', rfl⟩ := List.append_of_mem hmk
  obtain ⟨t, s', answer, m, hrun, hm, -⟩ := h.split rfl
  exact hm.isOf.2 n (hrun.stage t rfl) rfl

/-- **Guards come up in order**: where one in a series is to be checked, the last act in the group
has brought it up. -/
theorem leads (h : Run n.width (.ofBody n) s₀ τ r s) : ∀ t, r = .ok t → ∀ p k,
    Task.Faces n.width t (p ++ [.series k]) → Leads p k τ := by
  induction h with
  | start =>
    rintro t ht p k ⟨n', hf⟩
    cases ht
    obtain ⟨-, hq | ⟨k', hq⟩⟩ := Task.Part.ofBody rfl hf
    · obtain ⟨rfl, hk⟩ := append_singleton_eq_singleton hq
      cases hk
      exact .inl ⟨rfl, rfl⟩
    · obtain ⟨-, hk⟩ := append_singleton_eq_singleton hq
      cases hk
  | @step τ t s answer q act m h hm ih =>
    intro t' ht p k hf
    rcases hm.faces ht (.inr ⟨n, h.stage t rfl, rfl⟩) hf with ⟨hf, hp⟩ | hnew
    · exact (ih t rfl p k hf).snoc_elsewhere hp act
    · exact hnew.leads τ

end Run

/-- **A series runs in order and stops at the first failure.** Whatever the answers and however the
parts side by side take turns, the guard of a node in a series is checked right after the node
before it was skipped or has ended its loop, with nothing done in the group in between. A leaf that
fails does the last act of all, so that no node behind it is touched in any group; a run that fails
ends with the store and the error of the leaf that failed first. -/
theorem series_order {n : Node} {s₀ s : Store} {τ : List Mark} {r : Except RunError Task}
    (h : Run n.width (.ofBody n) s₀ τ r s) :
    (∀ mk ∈ τ, ∃ c, n.nodeAt mk.position = some c ∧ mk.act.IsOf c) ∧
    (∀ (p : Position) (k : Nat) (condition : String) (b : Bool) (l l' : List Mark),
      τ = l ++ ⟨p ++ [.series (k + 1)], .guard condition b⟩ :: l' →
        ∃ l₁ act, below p l = l₁ ++ [⟨p ++ [.series k], act⟩] ∧ act.Closes) ∧
    (∀ (l : List Mark) (mk : Mark) (l' : List Mark) (e : RunError), τ = l ++ mk :: l' →
      mk.act.failure? = some e → l' = [] ∧ r = .error e ∧ ∃ c answer, mk.act = .finish c answer s) ∧
    ∀ e : RunError, r = .error e → ∃ (l : List Mark) (p : Position) (c : Call) (answer : Answer),
      τ = l ++ [⟨p, .finish c answer s⟩] ∧ (Act.finish c answer s).failure? = some e ∧
        ∀ mk ∈ l, mk.act.failure? = none := by
  refine ⟨h.isOf, ?_, ?_, ?_⟩
  · rintro p k condition b l l' rfl
    obtain ⟨t, s', answer, m, hrun, hm, -⟩ := h.split rfl
    exact hrun.leads t rfl p (k + 1) (hm.faces_of_guard rfl)
  · intro l mk l' e hτ hf
    exact h.of_failure hτ hf
  · rintro e rfl
    exact h.of_error

/-- Three steps in a row, of which the second is a series of its own. -/
def threeSteps : Node :=
  .group {} [.leaf {} "first", .group {} [.leaf {} "second"], .leaf {} "third"]

theorem replay_threeSteps (f : StepFailure) (hf : f.output = none) :
    Task.replay (.ofBody threeSteps) ⟨[]⟩
        [([], ⟨.ok .null, none⟩), ([], ⟨.ok .null, none⟩), ([], ⟨.ok (.bool true), none⟩),
          ([], ⟨.ok .null, none⟩), ([], ⟨.ok .null, none⟩), ([], ⟨.ok .null, none⟩),
          ([], ⟨.ok .null, none⟩), ([], ⟨.error f, none⟩)] =
      some (.error f.error, ⟨[("_ans", .bool true)]⟩) := by
  have h₁ : Store.set ⟨[]⟩ defaultOut (.bool true) = ⟨[("_ans", .bool true)]⟩ := rfl
  have h₂ : Store.errorRaised ⟨[("_ans", .bool true)]⟩ = false := rfl
  simp [threeSteps, Task.replay, Task.step, Task.ofBody, Task.andThen,
    Task.onCondition, Task.endLeaf, Moved.inside, Except.map, Node.info, Step.params, h₁, h₂, hf]

/-- The failure of the second of three steps is the end of the run, in the store that the first has
left. -/
theorem threeSteps_stops : ∃ τ, Run threeSteps.width (.ofBody threeSteps) ⟨[]⟩ τ
      (.error (.step "broken")) ⟨[("_ans", .bool true)]⟩ ∧
    ∃ l p c answer, τ = l ++ [⟨p, .finish c answer ⟨[("_ans", .bool true)]⟩⟩] ∧
      ∀ mk ∈ l, mk.act.failure? = none := by
  obtain ⟨τ, h⟩ := (run_iff_replay (w := threeSteps.width)).mpr
    ⟨_, replay_threeSteps { error := .step "broken" } rfl⟩
  obtain ⟨l, p, c, answer, hτ, -, hl⟩ := (series_order h).2.2.2 _ rfl
  exact ⟨τ, h, l, p, c, answer, hτ, hl⟩

end CommandChain
