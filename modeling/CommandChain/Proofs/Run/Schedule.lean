import CommandChain.Proofs.Run.Trace
import CommandChain.Run.Schedule

/-!
# The scheduler makes runs

Whatever the workshop answers and however long the commands take, the scheduler makes one move of
its task after another (`Running.run_reached`). So what is shown of all runs holds of its runs. -/

namespace CommandChain.Running

variable {w : Nat} {t : Task} {s : Store} {r : Running} {ws : Workshop} {route : Route}
  {answer : Answer} {m : Moved}

/-- What the scheduler has come to is reached from the task `t` in the store `s` by a run. -/
def Reached (w : Nat) (t : Task) (s : Store) : Except (RunError × Running) Running → Prop
  | .ok r => ∃ τ, Run w t s τ (.ok r.task) r.store
  | .error (e, r) => ∃ τ, Run w t s τ (.error e) r.store

theorem reached_moved (h : Reached w t s (.ok r)) (hm : r.task.step answer r.store route = some m) :
    Reached w t s (r.moved m) := by
  obtain ⟨τ, hrun⟩ := h
  obtain ⟨mk, hrun'⟩ := hrun.of_step hm
  unfold moved
  rcases ht : m.task with e | t'
  · rw [ht] at hrun'
    exact ⟨_, hrun'⟩
  · rw [ht] at hrun'
    exact ⟨_, hrun'⟩

theorem reached_deliver (h : Reached w t s (.ok r)) (route : Route) (answer : Answer) :
    Reached w t s (r.deliver route answer) := by
  unfold deliver
  split
  · next m hm => exact reached_moved h hm
  · exact h

theorem reached_ask (h : Reached w t s (.ok r)) (ws : Workshop) (route : Route) (command : String)
    (params : List Json) : Reached w t s (r.ask ws route command params) := by
  unfold ask
  simp only
  split
  · -- the files are no part of what a run is about
    exact reached_deliver
      (r := { r with files := (ws.dispatch r.files command params).files }) h route _
  · exact h

theorem reached_goOn (h : Reached w t s (.ok r)) (ws : Workshop) (route : Route) :
    Reached w t s (r.goOn ws route) := by
  unfold goOn
  split
  · exact h
  · next m hm =>
    have hmoved := reached_moved h hm
    split
    · next r' command params hr' _ =>
      rw [hr'] at hmoved
      exact reached_ask hmoved ws route command params
    · exact hmoved

theorem reached_wait {next : Except (RunError × Running) Running} (h : Reached w t s (.ok r))
    (hnext : r.wait = some next) : Reached w t s next := by
  obtain ⟨p, -, rfl⟩ := Option.map_eq_some_iff.mp hnext
  have hlater : Reached w t s (.ok { r with
      now := p.due, pending := r.pending.filter fun q => q.route != p.route }) := h
  exact reached_deliver hlater p.route p.answer

/-- **What the scheduler comes to** is reached by a run. -/
theorem run_reached {steps : Nat} {next : Except (RunError × Running) Running}
    (h : Reached w t s (.ok r)) (hnext : r.run ws steps = some next) : Reached w t s next := by
  induction steps generalizing r with
  | zero => cases hnext
  | succ steps ih =>
    unfold run at hnext
    split at hnext
    · next route _ =>
      have hgoOn := reached_goOn h ws route
      split at hnext
      · next r' hr' =>
        rw [hr'] at hgoOn
        exact ih hgoOn hnext
      · next e he =>
        rw [he] at hgoOn
        cases hnext
        exact hgoOn
    · split at hnext
      · next r' hr' => exact ih (reached_wait h hr') hnext
      · next e he =>
        cases hnext
        exact reached_wait h he
      · cases hnext
        exact h

end CommandChain.Running
