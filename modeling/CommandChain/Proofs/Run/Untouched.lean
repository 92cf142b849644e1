import CommandChain.Proofs.Run.Local
import CommandChain.Proofs.Run.Signal
import CommandChain.Step.Dispatch

/-!
# What a run leaves alone

A run changes no variable but those that the results of its leaves are rooted at (`leaves_alone`),
whether it succeeds or fails, whatever the answers are and in whatever order the parts side by side
take turns: every write of the trace is one of a leaf, at the path of its result, and a write does
not get out of its root.

So a run in which no leaf writes the error flag, and which begins with the flag down, is never ended
by it. Only an answer that calls itself raised could end a run with such an error, and no runner
gives one (`Workshop.not_isRaise_dispatch`). -/

namespace CommandChain

/-! ### Answers of the runners -/

/-- The answer is a failure that only the error flag brings about. -/
def Answer.IsRaise (a : Answer) : Prop := ∃ f msg, a.result = .error f ∧ f.error = .raised msg

namespace Answer

theorem not_isRaise_of_ok {v : Json} {warning : Option String} : ¬ IsRaise ⟨.ok v, warning⟩ := by
  rintro ⟨f, msg, hf, -⟩
  cases hf

theorem not_isRaise_of_step {msg : String} {v : Option Json} {warning : Option String} :
    ¬ IsRaise ⟨.error ⟨.step msg, v⟩, warning⟩ := by
  rintro ⟨f, msg', hf, hmsg⟩
  cases hf
  cases hmsg

theorem not_isRaise_ofOutput (o : CapabilityOutput) : ¬ (ofOutput o).IsRaise := by
  unfold ofOutput
  split_ifs
  · exact not_isRaise_of_ok
  · exact not_isRaise_of_step

theorem not_isRaise_ofExpr (w : Wording) (r : Except Expr.Error Json) :
    ¬ (ofExpr w r).IsRaise := by
  cases r with
  | ok v => exact not_isRaise_of_ok
  | error e => exact not_isRaise_of_step

theorem not_isRaise_ofScript (o : Shell.Outcome) : ¬ (ofScript o).IsRaise := by
  unfold ofScript
  simp only
  split_ifs
  · exact not_isRaise_of_ok
  · exact not_isRaise_of_ok
  · exact not_isRaise_of_step

end Answer

/-- No runner answers that the error flag is up. -/
theorem Workshop.not_isRaise_dispatch (ws : Workshop) (files : Files) (command : String)
    (params : List Json) : ¬ (ws.dispatch files command params).answer.IsRaise := by
  unfold dispatch
  split
  · exact Answer.not_isRaise_ofExpr _ _
  · unfold runScript
    split
    · exact Answer.not_isRaise_of_step
    · exact Answer.not_isRaise_ofScript _
  · split
    · rintro ⟨f, msg, hf, hmsg⟩
      cases hf
      cases hmsg
    · exact Answer.not_isRaise_ofOutput _
    · unfold runPlugin
      split
      · exact Answer.not_isRaise_ofOutput _
      · exact Answer.not_isRaise_ofOutput _

/-! ### Where a run writes -/

namespace Run

variable {n : Node} {s₀ s : Store} {τ : List Mark} {r : Except RunError Task}

theorem writes_mem_outs_of_body (h : Run n.width (.ofBody n) s₀ τ r s) :
    ∀ x ∈ writes τ, x.1 ∈ n.outs := by
  intro x hx
  obtain ⟨mk, hmk, hwrite⟩ := List.mem_filterMap.mp hx
  obtain ⟨c, hc, hact⟩ := h.isOf mk hmk
  exact Task.Moves.write_mem_outs (Node.mem_all_of_nodeAt hc) hact hwrite

/-- **Variables at which no result is rooted** are in the end as they were. -/
theorem agreeOn_of_roots {names : List String} (h : Run n.width (.ofBody n) s₀ τ r s)
    (hnames : ∀ p ∈ n.outs, Store.root p ∉ names) : Store.AgreeOn names s s₀ := by
  rw [h.store_eq]
  exact Store.AgreeOn.setAll_of_root fun x hx => hnames x.1 (h.writes_mem_outs_of_body x hx)

theorem raised_cases {msg : String} (h : Run n.width (.ofBody n) s₀ τ (.error (.raised msg)) s) :
    (∃ x ∈ replies τ, x.2.IsRaise) ∨ s.errorRaised = true := by
  obtain ⟨l, p, c, answer, rfl, hfail, -⟩ := h.of_error
  rcases Act.cause_of_failure? hfail with ⟨f, hf, hmsg⟩ | ⟨-, hflag, -⟩
  · have hreply : (c, answer) ∈ replies (l ++ [⟨p, .finish c answer s⟩]) := by
      rw [replies_append, replies_singleton]
      exact List.mem_append_right _ List.mem_cons_self
    exact .inl ⟨(c, answer), hreply, f, msg, hf, hmsg.symm⟩
  · exact .inr hflag

end Run

/-- **A run writes only where its results go.** Whatever comes of a run of a node, every variable at
which no result below the node is rooted is as it was, or is missing as before. If no result is
rooted at the error flag and the flag is down in the beginning, the run does not end with the error
of the flag, unless a runner answers with that error; and none does. -/
theorem leaves_alone {n : Node} {s₀ s : Store} {τ : List Mark} {r : Except RunError Unit}
    (h : n.Completes s₀ τ r s) :
    (∀ k, (∀ p ∈ n.outs, Store.root p ≠ k) → Members.get? k s.vars = Members.get? k s₀.vars) ∧
    ((∀ p ∈ n.outs, Store.root p ≠ Store.errorFlag) → s₀.errorRaised = false →
      (∀ x ∈ replies τ, ¬ x.2.IsRaise) → ∀ msg, r ≠ .error (.raised msg)) ∧
    ∀ (ws : Workshop) (files : Files) (command : String) (params : List Json),
      ¬ (ws.dispatch files command params).answer.IsRaise := by
  refine ⟨fun k hk => ?_, fun hflag hdown hanswers msg hr => ?_, Workshop.not_isRaise_dispatch⟩
  · have hagree : Store.AgreeOn [k] s s₀ := h.agreeOn_of_roots fun p hp => by simpa using hk p hp
    exact hagree k List.mem_cons_self
  · subst hr
    have hagree : Store.AgreeOn [Store.errorFlag] s s₀ :=
      h.agreeOn_of_roots fun p hp => by simpa using hflag p hp
    rcases Run.raised_cases h with ⟨x, hx, hraise⟩ | hup
    · exact hanswers x hx hraise
    · rw [hagree.errorRaised List.mem_cons_self, hdown] at hup
      cases hup

/-- Two leaves side by side, of which one writes into `a`. -/
def writesInside : Node :=
  .group { mode := .parallel } [.leaf { out := "a.b" } "one", .leaf { out := "c" } "two"]

/-- A failure that leaves a value. -/
def failsWithValue : Answer := ⟨.error ⟨.step "no", some (.bool true)⟩, none⟩

/-- A text in `a`, beside a variable that no leaf writes. -/
def textInside : Store := ⟨[("a", .str "text"), ("z", .null)]⟩

theorem replay_writesInside :
    Task.replay (.ofBody writesInside) textInside
        ([[0], [1], [1], [0], [0]].map (·, failsWithValue)) =
      some (.error (.step "no"), ⟨[("a", .obj [("b", .bool true)]), ("z", .null)]⟩) := by
  have h₁ : Store.set textInside "a.b" (.bool true) =
      ⟨[("a", .obj [("b", .bool true)]), ("z", .null)]⟩ := rfl
  simp [writesInside, failsWithValue, Task.replay, Task.step, Task.step.stepAt, Task.ofBody,
    Task.sideBySide, Task.isDone, Task.onCondition, Task.endLeaf, Moved.inside,
    Except.map, Node.info, Step.params, h₁]

/-- A leaf fails, and the value that it leaves takes the place of a text; the other variable is as
it was, and the error is that of the leaf. -/
theorem writesInside_fails : ∃ τ,
    writesInside.Completes textInside τ (.error (.step "no"))
      ⟨[("a", .obj [("b", .bool true)]), ("z", .null)]⟩ ∧
    (∀ x ∈ replies τ, ¬ x.2.IsRaise) ∧
    Members.get? "z" [("a", Json.obj [("b", .bool true)]), ("z", .null)] =
      Members.get? "z" textInside.vars ∧
    ∀ msg, (.error (.step "no") : Except RunError Unit) ≠ .error (.raised msg) := by
  obtain ⟨τ, hobeys, hrun⟩ := exists_run_of_replay writesInside.width replay_writesInside
  have hcompletes : writesInside.Completes textInside τ (.error (.step "no"))
      ⟨[("a", .obj [("b", .bool true)]), ("z", .null)]⟩ := hrun
  have hanswers : ∀ x ∈ replies τ, ¬ x.2.IsRaise := by
    intro x hx
    rw [hobeys x hx]
    exact Answer.not_isRaise_of_step
  obtain ⟨hkept, hraised, -⟩ := leaves_alone hcompletes
  exact ⟨τ, hcompletes, hanswers, hkept "z" (by decide),
    hraised (by decide) rfl hanswers⟩

end CommandChain
