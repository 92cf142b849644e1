import CommandChain.Run.Task
import CommandChain.Proofs.Store.Write
import Mathlib.Tactic.SplitIfs

/-!
# The moves of a task

`Task.step` makes the step of the part at the end of a route. `Task.Moves` says the same as a
relation with one rule for each kind of part, and tells besides where the part stands in the tree
(`Position`) and what it does (`Act`).

* `step_iff`: the moves of a task are its steps.
* `Moves.task_eq_error_iff`, `Moves.store_eq`: whether a move fails, and what it leaves in the
  store, is read off its act. -/

namespace CommandChain

/-- One level on the way to a node of a tree: its number among nodes that run one after the other,
or among nodes that run side by side. -/
inductive Turn where
  | series (k : Nat)
  | parallel (k : Nat)
deriving DecidableEq, Repr

/-- The way from a node down to one of the nodes below it. -/
abbrev Position := List Turn

/-- A leaf that has read its parameters. -/
structure Call where
  info : NodeInfo
  command : String
  params : List Json

/-- What an atomic step does. -/
inductive Act where
  /-- The guard of a node is checked. -/
  | guard (condition : String) (holds : Bool)
  /-- The loop condition of a node is checked after its body. -/
  | again (condition : String) (holds : Bool)
  /-- A leaf reads its parameters. -/
  | start (c : Call)
  /-- A leaf ends with an answer and leaves the store as it is here. -/
  | finish (c : Call) (answer : Answer) (store : Store)

namespace Act

/-- The error that an act ends the run with: the failure of a command, or the message in the store
if the error flag is up after the result was stored. -/
def failure? : Act → Option RunError
  | .finish _ answer s =>
    match answer.result with
    | .error f => some f.error
    | .ok _ => if s.errorRaised then some (.raised (s.raisedMessage?.getD defaultMessage)) else none
  | _ => none

/-- What an act writes, and where. -/
def write? : Act → Option (String × Json)
  | .finish c answer _ =>
    match answer.result with
    | .error f => f.output.map (c.info.out, ·)
    | .ok v => some (c.info.out, v)
  | _ => none

theorem exists_finish {act : Act} {e : RunError} (h : act.failure? = some e) :
    ∃ c answer s, act = .finish c answer s := by
  cases act with
  | finish c answer s => exact ⟨c, answer, s, rfl⟩
  | guard condition b | again condition b | start c => cases h

end Act

/-- The number of children of a node. -/
def Node.width : Node → Nat
  | .leaf _ _ => 0
  | .group _ ns => ns.length

namespace Task

/-- `Moves answer s w t p act m`: in the store `s` the part of `t` that stands at the position `p`
does `act`, by which `m` comes about. The answer is used if that part waits for one; `w` is the
number of nodes in the group whose body `t` is, if it is one. -/
inductive Moves (answer : Answer) (s : Store) : Nat → Task → Position → Act → Moved → Prop
  | guard (w : Nat) (n : Node) :
    Moves answer s w (.guard n) [] (.guard n.info.guard (Condition.holds n.info.guard s))
      (onCondition n.info.guard n s)
  | start (w : Nat) (info : NodeInfo) (command : String) :
    Moves answer s w (.leaf info command) [] (.start ⟨info, command, Step.params info.ins s⟩)
      { task := .ok (.awaiting info command (Step.params info.ins s)), store := s,
        events := [.started command (Step.params info.ins s)] }
  | finish (w : Nat) (info : NodeInfo) (command : String) (params : List Json) :
    Moves answer s w (.awaiting info command params) []
      (.finish ⟨info, command, params⟩ answer (endLeaf info command params answer s).store)
      (endLeaf info command params answer s)
  | again (w : Nat) (n : Node) :
    Moves answer s w (.loop n .done) [] (.again n.info.loop (Condition.holds n.info.loop s))
      (onCondition n.info.loop n s)
  | loop {w : Nat} {n : Node} {body : Task} {p : Position} {act : Act} {m : Moved} :
    Moves answer s n.width body p act m → Moves answer s w (.loop n body) p act (m.inside (.loop n))
  | series {w : Nat} {first : Task} {rest : List Node} {p : Position} {act : Act} {m : Moved} :
    Moves answer s 0 first p act m →
      Moves answer s w (.series first rest) (.series (w - rest.length - 1) :: p) act
        (m.inside (andThen · rest))
  | parallel {w i : Nat} {ts : List Task} {t : Task} {p : Position} {act : Act} {m : Moved} :
    ts[i]? = some t → Moves answer s 0 t p act m →
      Moves answer s w (.parallel ts) (.parallel i :: p) act
        (m.inside fun u => sideBySide (ts.set i u))

variable {answer : Answer} {s : Store}

/-! ### Steps as moves -/

theorem map_map_except {ε α β γ : Type} (f : α → β) (g : β → γ) (x : Except ε α) :
    (x.map f).map g = x.map fun a => g (f a) := by cases x <;> rfl

theorem stepAt_eq (a : Route) : ∀ (i : Nat) (ts : List Task),
    step.stepAt answer s a i ts = (ts[i]?).bind fun t => (t.step answer s a).map fun m =>
      (m.task.map (ts.set i ·), m.store, m.events)
  | _, [] => by simp [step.stepAt]
  | 0, t :: ts => by simp [step.stepAt]
  | i + 1, t :: ts => by
    rw [step.stepAt, stepAt_eq a i ts]
    rcases h : ts[i]? with _ | u
    · simp [h]
    · rcases h' : u.step answer s a with _ | m <;> simp [h, h', map_map_except]

theorem step_loop {n : Node} {body : Task} (h : body ≠ .done) (a : Route) :
    step answer s (.loop n body) a = (body.step answer s a).map (·.inside (.loop n)) := by
  cases body <;> simp_all [step]

theorem step_parallel (ts : List Task) (i : Nat) (a : Route) :
    step answer s (.parallel ts) (i :: a) = (ts[i]?).bind fun t => (t.step answer s a).map fun m =>
      m.inside fun u => sideBySide (ts.set i u) := by
  rw [step, stepAt_eq]
  rcases ts[i]? with _ | u
  · simp
  · rcases h : u.step answer s a with _ | m <;> simp [h, map_map_except, Moved.inside]

/-- Every step is a move. -/
theorem moves_of_step : ∀ (t : Task) (w : Nat) (a : Route) (m : Moved), t.step answer s a = some m →
    ∃ p act, Moves answer s w t p act m
  | .done, w, a, m, h => by simp [step] at h
  | .guard n, w, a, m, h => by
    simp only [step, Option.some.injEq] at h
    subst h
    exact ⟨_, _, .guard w n⟩
  | .leaf info command, w, a, m, h => by
    simp only [step, Option.some.injEq] at h
    subst h
    exact ⟨_, _, .start w info command⟩
  | .awaiting info command params, w, a, m, h => by
    simp only [step, Option.some.injEq] at h
    subst h
    exact ⟨_, _, .finish w info command params⟩
  | .loop n body, w, a, m, h => by
    by_cases hb : body = .done
    · subst hb
      simp only [step, Option.some.injEq] at h
      subst h
      exact ⟨_, _, .again w n⟩
    · rw [step_loop hb, Option.map_eq_some_iff] at h
      obtain ⟨m', hm', rfl⟩ := h
      obtain ⟨p, act, hmoves⟩ := moves_of_step body n.width a m' hm'
      exact ⟨p, act, .loop hmoves⟩
  | .series first rest, w, a, m, h => by
    simp only [step, Option.map_eq_some_iff] at h
    obtain ⟨m', hm', rfl⟩ := h
    obtain ⟨p, act, hmoves⟩ := moves_of_step first 0 a m' hm'
    exact ⟨_, act, .series hmoves⟩
  | .parallel ts, w, [], m, h => by simp [step] at h
  | .parallel ts, w, i :: a, m, h => by
    rw [step_parallel, Option.bind_eq_some_iff] at h
    obtain ⟨t, ht, h⟩ := h
    obtain ⟨m', hm', rfl⟩ := Option.map_eq_some_iff.mp h
    have := List.sizeOf_lt_of_mem (List.mem_of_getElem? ht)
    obtain ⟨p, act, hmoves⟩ := moves_of_step t 0 a m' hm'
    exact ⟨_, act, .parallel ht hmoves⟩

namespace Moves

variable {w : Nat} {t : Task} {p : Position} {act : Act} {m : Moved}

theorem ne_done (h : Moves answer s w t p act m) : t ≠ .done := by
  cases h <;> simp

theorem exists_step (h : Moves answer s w t p act m) : ∃ a, t.step answer s a = some m := by
  induction h with
  | guard w n => exact ⟨[], by simp [step]⟩
  | start w info command => exact ⟨[], by simp [step]⟩
  | finish w info command params => exact ⟨[], by simp [step]⟩
  | again w n => exact ⟨[], by simp [step]⟩
  | loop h ih =>
    obtain ⟨a, ha⟩ := ih
    exact ⟨a, by rw [step_loop h.ne_done, ha]; rfl⟩
  | series _ ih =>
    obtain ⟨a, ha⟩ := ih
    exact ⟨a, by rw [step, ha]; rfl⟩
  | @parallel w i ts t p act m ht _ ih =>
    obtain ⟨a, ha⟩ := ih
    exact ⟨i :: a, by rw [step_parallel, ht, Option.bind_some, ha]; rfl⟩

end Moves

/-- **The moves of a task are its steps.** -/
theorem step_iff (w : Nat) (t : Task) (m : Moved) :
    (∃ a, t.step answer s a = some m) ↔ ∃ p act, Moves answer s w t p act m :=
  ⟨fun ⟨a, h⟩ => moves_of_step t w a m h, fun ⟨_, _, h⟩ => h.exists_step⟩

end Task

/-! ### What a move leaves -/

namespace Moved

variable {m : Moved} {f : Task → Task}

theorem inside_eq_error {e : RunError} : (m.inside f).task = .error e ↔ m.task = .error e := by
  unfold inside
  rcases m.task with e' | t <;> simp [Except.map]

theorem inside_eq_ok {t' : Task} : (m.inside f).task = .ok t' ↔ ∃ t, m.task = .ok t ∧ t' = f t := by
  unfold inside
  rcases m.task with e | t <;> simp [Except.map, eq_comm]

end Moved

namespace Task

theorem onCondition_eq_ok {condition : String} {n : Node} {s : Store} {t : Task} :
    (onCondition condition n s).task = .ok t ↔
      t = if Condition.holds condition s then .loop n (ofBody n) else .done := by
  simp only [onCondition, Except.ok.injEq]
  exact eq_comm

theorem endLeaf_eq_ok {info : NodeInfo} {command : String} {params : List Json} {answer : Answer}
    {s : Store} {t : Task} (h : (endLeaf info command params answer s).task = .ok t) :
    t = .done := by
  unfold endLeaf at h
  split at h
  · cases h
  · simp only at h
    split_ifs at h
    cases h
    rfl

namespace Moves

variable {answer : Answer} {s : Store} {w : Nat} {t : Task} {p : Position} {act : Act} {m : Moved}

/-- **A move fails with the failure of its act.** -/
theorem task_eq_error_iff (h : Moves answer s w t p act m) (e : RunError) :
    m.task = .error e ↔ act.failure? = some e := by
  induction h with
  | guard w n => simp [onCondition, Act.failure?]
  | start w info command => simp [Act.failure?]
  | again w n => simp [onCondition, Act.failure?]
  | finish w info command params =>
    rcases hr : answer.result with f | v
    · simp [endLeaf, Act.failure?, hr]
    · simp only [endLeaf, Act.failure?, hr]
      split_ifs <;> simp
  | loop _ ih => rw [Moved.inside_eq_error, ih]
  | series _ ih => rw [Moved.inside_eq_error, ih]
  | parallel _ _ ih => rw [Moved.inside_eq_error, ih]

/-- **A move leaves the store as its act writes it.** -/
theorem store_eq (h : Moves answer s w t p act m) : m.store = s.setAll act.write?.toList := by
  induction h with
  | guard w n => simp [onCondition, Act.write?, Store.setAll]
  | start w info command => simp [Act.write?, Store.setAll]
  | again w n => simp [onCondition, Act.write?, Store.setAll]
  | finish w info command params =>
    rcases hr : answer.result with f | v
    · rcases ho : f.output with _ | v <;> simp [endLeaf, Act.write?, hr, ho, Store.setAll]
    · simp [endLeaf, Act.write?, hr, Store.setAll]
  | loop _ ih => exact ih
  | series _ ih => exact ih
  | parallel _ _ ih => exact ih

theorem eq_of_finish {c : Call} {answer' : Answer} {s' : Store} (h : Moves answer s w t p act m)
    (ha : act = .finish c answer' s') : answer' = answer ∧ m.store = s' := by
  induction h with
  | guard w n => cases ha
  | start w info command => cases ha
  | again w n => cases ha
  | finish w info command params => cases ha; exact ⟨rfl, rfl⟩
  | loop _ ih => exact ih ha
  | series _ ih => exact ih ha
  | parallel _ _ ih => exact ih ha

end Moves

end Task

end CommandChain
