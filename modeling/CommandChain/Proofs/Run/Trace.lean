import CommandChain.Proofs.Expr.Parsing
import CommandChain.Proofs.Run.Moves

/-!
# Runs and their traces

A run makes one move after another. `Run` leaves the answers open and the order of the parts that
run side by side, so that whatever is shown of it holds of all runners and of every interleaving.
The trace lists what was done, and where.

* `Run.of_failure`, `Run.of_error`: a run fails with its last act, and no act before it fails.
* `Run.store_eq`: the final store is the first one with all that was written, in the order of the
  trace.
* `run_iff_replay`: a run is what comes of `Task.step` at any routes with any answers. -/

namespace CommandChain

/-- One entry of a trace. -/
structure Mark where
  position : Position
  act : Act

/-- What the acts of a trace write, in their order. -/
def writes (τ : List Mark) : List (String × Json) := τ.filterMap (·.act.write?)

/-- `Run w t₀ s₀ τ r s`: from the task `t₀` in the store `s₀` the moves `τ` can be made, which leave
the store `s` and the task or the error `r`. -/
inductive Run (w : Nat) (t₀ : Task) (s₀ : Store) : List Mark → Except RunError Task → Store → Prop
  | start : Run w t₀ s₀ [] (.ok t₀) s₀
  | step {τ : List Mark} {t : Task} {s : Store} {answer : Answer} {p : Position} {act : Act}
      {m : Moved} :
    Run w t₀ s₀ τ (.ok t) s → t.Moves answer s w p act m →
      Run w t₀ s₀ (τ ++ [⟨p, act⟩]) m.task m.store

/-- `n.Completes s₀ τ r s`: a run of the body of `n` that comes to an end, with no error or with
one. -/
def Node.Completes (n : Node) (s₀ : Store) (τ : List Mark) (r : Except RunError Unit) (s : Store) :
    Prop :=
  Run n.width (.ofBody n) s₀ τ (r.map fun _ => .done) s

theorem snoc_eq_append_cons {α : Type} {τ l l' : List α} {x y : α} (h : τ ++ [x] = l ++ y :: l') :
    (l' = [] ∧ τ = l ∧ x = y) ∨ ∃ l'', l' = l'' ++ [x] ∧ τ = l ++ y :: l'' := by
  rcases List.eq_nil_or_concat' l' with rfl | ⟨l'', z, rfl⟩
  · obtain ⟨rfl, hx⟩ := List.append_inj' h rfl
    exact .inl ⟨rfl, rfl, List.singleton_inj.mp hx⟩
  · rw [← List.cons_append, ← List.append_assoc] at h
    obtain ⟨rfl, hx⟩ := List.append_inj' h rfl
    exact .inr ⟨l'', by rw [List.singleton_inj.mp hx], rfl⟩

theorem writes_append (τ τ' : List Mark) : writes (τ ++ τ') = writes τ ++ writes τ' :=
  List.filterMap_append

theorem writes_singleton (mk : Mark) : writes [mk] = mk.act.write?.toList := by
  rcases h : mk.act.write? with _ | w <;> simp [writes, h]

namespace Run

variable {w : Nat} {t₀ t : Task} {s₀ s : Store} {τ : List Mark} {r : Except RunError Task}
  {e : RunError}

theorem of_step {answer : Answer} {a : Route} {m : Moved} (h : Run w t₀ s₀ τ (.ok t) s)
    (hs : t.step answer s a = some m) : ∃ mk, Run w t₀ s₀ (τ ++ [mk]) m.task m.store := by
  obtain ⟨p, act, hm⟩ := (Task.step_iff w t m).mp ⟨a, hs⟩
  exact ⟨⟨p, act⟩, h.step hm⟩

theorem trans {t₁ : Task} {s₁ : Store} {τ' : List Mark} (h : Run w t₀ s₀ τ (.ok t₁) s₁)
    (h' : Run w t₁ s₁ τ' r s) : Run w t₀ s₀ (τ ++ τ') r s := by
  induction h' with
  | start => rw [List.append_nil]; exact h
  | step _ hm ih =>
    rw [← List.append_assoc]
    exact ih.step hm

theorem store_eq (h : Run w t₀ s₀ τ r s) : s = s₀.setAll (writes τ) := by
  induction h with
  | start => rfl
  | step _ hm ih =>
    rw [hm.store_eq, ih, writes_append, writes_singleton, Store.setAll_append]

/-- **As long as a run goes on, no act has failed.** -/
theorem no_failure (h : Run w t₀ s₀ τ r s) :
    ∀ t, r = .ok t → ∀ mk ∈ τ, mk.act.failure? = none := by
  induction h with
  | start => simp
  | @step τ t s answer p act m _ hm ih =>
    intro t' ht' mk hmk
    rcases List.mem_append.mp hmk with hmk | hmk
    · exact ih t rfl mk hmk
    · rw [List.mem_singleton] at hmk
      subst hmk
      rcases hf : act.failure? with _ | e
      · rfl
      · rw [(hm.task_eq_error_iff e).mpr hf] at ht'
        cases ht'

theorem of_failure {l l' : List Mark} {mk : Mark} (h : Run w t₀ s₀ τ r s) (hτ : τ = l ++ mk :: l')
    (hf : mk.act.failure? = some e) :
    l' = [] ∧ r = .error e ∧ ∃ c answer, mk.act = .finish c answer s := by
  cases h with
  | start => simp at hτ
  | @step τ t s answer p act m h hm =>
    rcases snoc_eq_append_cons hτ with ⟨rfl, rfl, rfl⟩ | ⟨l'', rfl, rfl⟩
    · obtain ⟨c, answer', s', rfl⟩ := Act.exists_finish hf
      exact ⟨rfl, (hm.task_eq_error_iff e).mpr hf, c, answer', by rw [(hm.eq_of_finish rfl).2]⟩
    · have := h.no_failure t rfl mk (by simp)
      rw [hf] at this
      cases this

/-- **A run that fails does so with its last act, and no act before it has failed.** -/
theorem of_error (h : Run w t₀ s₀ τ (.error e) s) :
    ∃ l p c answer, τ = l ++ [⟨p, .finish c answer s⟩] ∧
      (Act.finish c answer s).failure? = some e ∧ ∀ mk ∈ l, mk.act.failure? = none := by
  generalize hr : Except.error e = r at h
  cases h with
  | start => cases hr
  | @step τ t s answer p act m h hm =>
    have hf := (hm.task_eq_error_iff e).mp hr.symm
    obtain ⟨c, answer', s', rfl⟩ := Act.exists_finish hf
    obtain ⟨-, rfl⟩ := hm.eq_of_finish rfl
    exact ⟨τ, p, c, answer', rfl, hf, h.no_failure t rfl⟩

theorem split {l l' : List Mark} {mk : Mark} (h : Run w t₀ s₀ τ r s) (hτ : τ = l ++ mk :: l') :
    ∃ t s' answer m, Run w t₀ s₀ l (.ok t) s' ∧ t.Moves answer s' w mk.position mk.act m ∧
      Run w t₀ s₀ (l ++ [mk]) m.task m.store := by
  induction h generalizing l' with
  | start => simp at hτ
  | @step τ t s answer p act m h hm ih =>
    rcases snoc_eq_append_cons hτ with ⟨rfl, rfl, rfl⟩ | ⟨l'', rfl, rfl⟩
    · exact ⟨t, s, answer, m, h, hm, h.step hm⟩
    · exact ih rfl

end Run

/-! ### Schedules -/

@[simp] theorem Condition.holds_true (s : Store) : holds "true" s = true := by
  have hparse : Expr.parse "true" = .ok (.bool true) :=
    Syntax.parse_of_lex (d := .ofPrimary (.boolean true)) rfl (by decide) rfl
  rw [holds, check, Expr.evaluate, hparse]
  rfl

@[simp] theorem Condition.holds_false (s : Store) : holds "false" s = false := by
  have hparse : Expr.parse "false" = .ok (.bool false) :=
    Syntax.parse_of_lex (d := .ofPrimary (.boolean false)) rfl (by decide) rfl
  rw [holds, check, Expr.evaluate, hparse]
  rfl

namespace Task

/-- Make the steps at the ends of some routes, each with an answer to use. Nothing follows a
failure. -/
def replay : Task → Store → List (Route × Answer) → Option (Except RunError Task × Store)
  | t, s, [] => some (.ok t, s)
  | t, s, (a, answer) :: rest =>
    match t.step answer s a with
    | none => none
    | some m =>
      match m.task with
      | .ok t' => t'.replay m.store rest
      | .error e => if rest.isEmpty then some (.error e, m.store) else none

theorem replay_snoc {t' : Task} {s' : Store} {a : Route} {answer : Answer} {m : Moved}
    (hs : t'.step answer s' a = some m) : ∀ {t : Task} {s : Store} {moves : List (Route × Answer)},
      t.replay s moves = some (.ok t', s') →
        t.replay s (moves ++ [(a, answer)]) = some (m.task, m.store)
  | t, s, [], h => by
    simp only [replay, Option.some.injEq, Prod.mk.injEq, Except.ok.injEq] at h
    obtain ⟨rfl, rfl⟩ := h
    rcases hm : m.task with e | t'' <;> simp [replay, hs, hm]
  | t, s, (b, answer') :: moves, h => by
    simp only [replay, List.cons_append] at h ⊢
    rcases hb : t.step answer' s b with _ | m'
    · simp [hb] at h
    · rcases hm' : m'.task with e | t''
      · simp only [hb, hm'] at h
        split_ifs at h
        cases h
      · simp only [hb, hm'] at h ⊢
        exact replay_snoc hs h

end Task

/-- **Runs are what schedules do**: to run is to make the steps at the ends of any routes, one after
the other, with any answers. -/
theorem run_iff_replay {w : Nat} {t : Task} {s s' : Store} {r : Except RunError Task} :
    (∃ τ, Run w t s τ r s') ↔ ∃ moves, t.replay s moves = some (r, s') := by
  constructor
  · rintro ⟨τ, h⟩
    induction h with
    | start => exact ⟨[], rfl⟩
    | step _ hm ih =>
      obtain ⟨moves, hr⟩ := ih
      obtain ⟨a, ha⟩ := hm.exists_step
      exact ⟨_, Task.replay_snoc ha hr⟩
  · rintro ⟨moves, h⟩
    induction moves generalizing t s with
    | nil =>
      simp only [Task.replay, Option.some.injEq, Prod.mk.injEq] at h
      obtain ⟨rfl, rfl⟩ := h
      exact ⟨[], .start⟩
    | cons x moves ih =>
      obtain ⟨a, answer⟩ := x
      simp only [Task.replay] at h
      rcases ha : t.step answer s a with _ | m
      · simp [ha] at h
      · obtain ⟨mk, hrun⟩ := (Run.start (w := w)).of_step ha
        rcases hm : m.task with e | t'
        · simp only [ha, hm] at h
          split_ifs at h
          cases h
          rw [hm] at hrun
          exact ⟨_, hrun⟩
        · simp only [ha, hm] at h
          rw [hm] at hrun
          obtain ⟨τ, hrun'⟩ := ih h
          exact ⟨_, hrun.trans hrun'⟩

end CommandChain
