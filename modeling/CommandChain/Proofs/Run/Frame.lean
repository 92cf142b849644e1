import CommandChain.Proofs.Run.Parts
import CommandChain.Run.Schedule

/-!
# The scheduler inside of a task

A frame is a task with a hole in it. As long as the task in the hole is not done, the whole does
what the task does by itself: the step that is made next, the route to it and the answers that are
waited for are the same. So the scheduler takes the whole along until the task in the hole is done.

* `Running.next?_within`: one pass of the scheduler inside of a frame.
* `Running.exists_leads`: a run that comes to its end is one that the scheduler makes inside of any
  frame.
* `Running.Fails.run_eq`: a run that fails does so however many steps it may still make. -/

namespace CommandChain

/-! ### Frames -/

namespace Task

/-- `K` is a task with a hole. The whole waits and goes on as the task in the hole does, until that
is done. -/
structure IsFrame (K : Task → Task) : Prop where
  ne_done {t : Task} : t ≠ .done → K t ≠ .done
  ready?_eq {t : Task} : t ≠ .done → (K t).ready? = t.ready?
  step_eq {t : Task} : t ≠ .done → ∀ answer s a,
    (K t).step answer s a = (t.step answer s a).map (·.inside K)

theorem isFrame_loop (n : Node) : IsFrame (.loop n) where
  ne_done _ := by simp
  ready?_eq {t} ht := by cases t <;> simp_all [ready?]
  step_eq ht _ _ a := step_loop ht a

theorem isFrame_andThen (ns : List Node) : IsFrame (andThen · ns) where
  ne_done ht := by simp [andThen_of_ne_done ht]
  ready?_eq ht := by simp only [andThen_of_ne_done ht, ready?]
  step_eq ht answer s a := by simp only [andThen_of_ne_done ht, step]

theorem IsFrame.comp {K L : Task → Task} (hK : IsFrame K) (hL : IsFrame L) :
    IsFrame fun t => K (L t) where
  ne_done ht := hK.ne_done (hL.ne_done ht)
  ready?_eq ht := by rw [hK.ready?_eq (hL.ne_done ht), hL.ready?_eq ht]
  step_eq {t} ht answer s a := by
    rw [hK.step_eq (hL.ne_done ht), hL.step_eq ht]
    rcases t.step answer s a with _ | m <;> simp [Moved.inside, map_map_except]

/-- A leaf that was started is not done. -/
theorem Moves.ne_done_of_started {answer : Answer} {s : Store} {w : Nat}
    {t t' : Task} {p : Position} {act : Act} {m : Moved} {command : String} {params : List Json}
    (h : Moves answer s w t p act m) (hm : m.events = [.started command params])
    (ht : m.task = .ok t') : t' ≠ .done := by
  induction h generalizing t' with
  | guard | again => simp [onCondition] at hm
  | start =>
    cases ht
    simp
  | finish w info command params =>
    unfold endLeaf at hm
    split at hm <;> simp at hm
  | loop =>
    obtain ⟨u, -, rfl⟩ := Moved.inside_eq_ok.mp ht
    simp
  | series _ ih =>
    obtain ⟨u, hu, rfl⟩ := Moved.inside_eq_ok.mp ht
    exact (isFrame_andThen _).ne_done (ih hm hu)
  | @parallel w i ts t p act m hi _ ih =>
    obtain ⟨u, hu, rfl⟩ := Moved.inside_eq_ok.mp ht
    have hlt : i < ts.length := (List.getElem?_eq_some_iff.mp hi).1
    rcases sideBySide_eq (ts.set i u) with h | ⟨-, hall⟩
    · simp [h]
    · exact absurd (hall u (List.mem_set hlt u)) (ih hm hu)

end Task

/-! ### The scheduler in a frame -/

namespace Running

variable {w : Workshop} {r r' r₁ : Running} {K : Task → Task} {past : List Event} {e : RunError}

/-- The run of a task as a part of a larger task, after some events. -/
def within (K : Task → Task) (past : List Event) (r : Running) : Running :=
  { r with task := K r.task, events := r.events ++ past }

@[simp] theorem within_task (K : Task → Task) (past : List Event) (r : Running) :
    (r.within K past).task = K r.task := rfl
@[simp] theorem within_store (K : Task → Task) (past : List Event) (r : Running) :
    (r.within K past).store = r.store := rfl
@[simp] theorem within_files (K : Task → Task) (past : List Event) (r : Running) :
    (r.within K past).files = r.files := rfl

/-- What one pass has come to, as a part of a larger task. -/
def carried (K : Task → Task) (past : List Event) : Except (RunError × Running) Running →
    Except (RunError × Running) Running
  | .ok r => .ok (r.within K past)
  | .error (e, r) => .error (e, r.within K past)

/-- What one pass of the scheduler comes to; nothing if there is nothing to do. -/
def next? (w : Workshop) (r : Running) : Option (Except (RunError × Running) Running) :=
  match r.task.ready? with
  | some route => some (r.goOn w route)
  | none => r.wait

theorem run_succ (w : Workshop) (n : Nat) (r : Running) :
    r.run w (n + 1) =
      match r.next? w with
      | some (.ok r') => r'.run w n
      | some (.error e) => some (.error e)
      | none => some (.ok r) := by
  rw [run, next?]
  rcases r.task.ready? with _ | route
  · rcases r.wait with _ | _ | _ <;> rfl
  · rcases h : r.goOn w route with _ | _ <;> simp [h]

theorem moved_within (K : Task → Task) (past : List Event) (r : Running) (m : Moved) :
    (r.within K past).moved (m.inside K) = carried K past (r.moved m) := by
  unfold moved
  rcases h : m.task with e | t <;> simp [Moved.inside, h, Except.map, carried, within]

theorem deliver_within (hK : Task.IsFrame K) (h : r.task ≠ .done) (route : Route)
    (answer : Answer) :
    (r.within K past).deliver route answer = carried K past (r.deliver route answer) := by
  unfold deliver
  simp only [within_task, within_store, hK.step_eq h]
  rcases r.task.step answer r.store route with _ | m
  · simp [carried]
  · simp [moved_within]

theorem ask_within (hK : Task.IsFrame K) (h : r.task ≠ .done) (route : Route) (command : String)
    (params : List Json) :
    (r.within K past).ask w route command params =
      carried K past (r.ask w route command params) := by
  unfold ask
  simp only [within_files]
  split
  · exact deliver_within (r := { r with files := (w.dispatch r.files command params).files }) hK h
      route _
  · rfl

theorem goOn_of_started {route : Route} {m : Moved} {command : String} {params : List Json}
    (hs : r.task.step (.failed "") r.store route = some m) (hm : r.moved m = .ok r₁)
    (hevents : m.events = [.started command params]) :
    r.goOn w route = r₁.ask w route command params := by
  simp [goOn, hs, hm, hevents]

theorem goOn_of_not_started {route : Route} {m : Moved}
    (hs : r.task.step (.failed "") r.store route = some m)
    (hevents : ∀ command params, m.events ≠ [.started command params]) :
    r.goOn w route = r.moved m := by
  unfold goOn
  simp only [hs]
  split
  · next he => exact absurd he (hevents _ _)
  · rfl

theorem moved_of_ok {m : Moved} {t : Task} (ht : m.task = .ok t) (r : Running) :
    r.moved m = .ok { r with
      task := t, store := m.store, events := m.events.reverse ++ r.events } := by
  unfold moved
  rw [ht]

theorem moved_of_error {m : Moved} (ht : m.task = .error e) (r : Running) :
    ∃ r', r.moved m = .error (e, r') := by
  unfold moved
  rw [ht]
  exact ⟨_, rfl⟩

theorem task_of_moved {m : Moved} (h : r.moved m = .ok r₁) : m.task = .ok r₁.task := by
  unfold moved at h
  rcases ht : m.task with e | t <;> simp only [ht] at h <;> cases h
  rfl

theorem goOn_within (hK : Task.IsFrame K) (h : r.task ≠ .done) (route : Route) :
    (r.within K past).goOn w route = carried K past (r.goOn w route) := by
  have hstep := hK.step_eq h (.failed "") r.store route
  rcases hs : r.task.step (.failed "") r.store route with _ | m
  · simp [goOn, hstep, hs, carried]
  have hs' : (r.within K past).task.step (.failed "") (r.within K past).store route =
      some (m.inside K) := by
    simp [hstep, hs]
  by_cases hstarted : ∃ command params, m.events = [.started command params]
  · obtain ⟨command, params, hevents⟩ := hstarted
    rcases hm : r.moved m with ⟨e, r₁⟩ | r₁
    · -- a start does not fail
      unfold goOn
      simp only [hs, hs', moved_within, hm, carried]
    · obtain ⟨p, act, hmoves⟩ := (Task.step_iff 0 _ m).mp ⟨route, hs⟩
      have hwaits := hmoves.ne_done_of_started hevents (task_of_moved hm)
      rw [goOn_of_started hs hm hevents,
        goOn_of_started hs' (by rw [moved_within, hm]; rfl) hevents]
      exact ask_within hK hwaits route command params
  · have hevents : ∀ command params, m.events ≠ [.started command params] :=
      fun command params he => hstarted ⟨command, params, he⟩
    rw [goOn_of_not_started hs hevents, goOn_of_not_started hs' hevents, moved_within]

theorem wait_within (hK : Task.IsFrame K) (h : r.task ≠ .done) :
    (r.within K past).wait = r.wait.map (carried K past) := by
  unfold wait
  rw [show (r.within K past).pending = r.pending from rfl]
  rcases firstPending? r.pending with _ | p
  · rfl
  · let late : Running :=
      { r with now := p.due, pending := r.pending.filter fun q => q.route != p.route }
    exact congrArg some (deliver_within (r := late) hK h p.route p.answer)

/-- **One pass of the scheduler** in a frame is its pass over the task in the hole. -/
theorem next?_within (hK : Task.IsFrame K) (h : r.task ≠ .done) :
    (r.within K past).next? w = (r.next? w).map (carried K past) := by
  unfold next?
  rw [within_task, hK.ready?_eq h]
  rcases r.task.ready? with _ | route
  · exact wait_within hK h
  · exact congrArg some (goOn_within hK h route)

/-! ### Passes in a row -/

/-- `Leads w k r r'`: the scheduler makes `k` passes from `r`, before each of which the task is not
done, and has come to `r'` then. -/
inductive Leads (w : Workshop) : Nat → Running → Running → Prop
  | refl (r : Running) : Leads w 0 r r
  | step {k : Nat} {r r₁ r' : Running} : r.task ≠ .done → r.next? w = some (.ok r₁) →
    Leads w k r₁ r' → Leads w (k + 1) r r'

/-- `Fails w k r e`: after `k` passes the next one fails with the error `e`. -/
def Fails (w : Workshop) (k : Nat) (r : Running) (e : RunError) : Prop :=
  ∃ r₁ r', Leads w k r r₁ ∧ r₁.task ≠ .done ∧ r₁.next? w = some (.error (e, r'))

namespace Leads

variable {j k n : Nat}

theorem single (h : r.task ≠ .done) (hnext : r.next? w = some (.ok r')) : Leads w 1 r r' :=
  .step h hnext (.refl r')

theorem trans (h : Leads w j r r₁) (h' : Leads w k r₁ r') : Leads w (j + k) r r' := by
  induction h with
  | refl =>
    rw [Nat.zero_add]
    exact h'
  | @step j r r₂ r₁ hne hnext _ ih =>
    rw [Nat.add_right_comm]
    exact .step hne hnext (ih h')

theorem within (h : Leads w k r r') (hK : Task.IsFrame K) (past : List Event) :
    Leads w k (r.within K past) (r'.within K past) := by
  induction h with
  | refl => exact .refl _
  | step hne hnext _ ih =>
    refine .step (hK.ne_done hne) ?_ ih
    rw [next?_within hK hne, hnext]
    rfl

theorem run_eq (h : Leads w k r r') (n : Nat) : r.run w (k + n) = r'.run w n := by
  induction h with
  | refl => rw [Nat.zero_add]
  | step _ hnext _ ih =>
    rw [Nat.add_right_comm, run_succ, hnext]
    exact ih

theorem fails (h : Leads w j r r₁) (h' : Fails w k r₁ e) : Fails w (j + k) r e := by
  obtain ⟨r₂, r', h₂, hne, hnext⟩ := h'
  exact ⟨r₂, r', h.trans h₂, hne, hnext⟩

end Leads

namespace Fails

variable {k n : Nat}

theorem within (h : Fails w k r e) (hK : Task.IsFrame K) (past : List Event) :
    Fails w k (r.within K past) e := by
  obtain ⟨r₁, r', h₁, hne, hnext⟩ := h
  refine ⟨r₁.within K past, r'.within K past, h₁.within hK past, hK.ne_done hne, ?_⟩
  rw [next?_within hK hne, hnext]
  rfl

/-- **A run that fails** does so however many steps it may still make. -/
theorem run_eq (h : Fails w k r e) (hn : k < n) : ∃ r', r.run w n = some (.error (e, r')) := by
  obtain ⟨r₁, r', h₁, -, hnext⟩ := h
  obtain ⟨j, rfl⟩ := Nat.exists_eq_add_of_lt hn
  exact ⟨r', by rw [Nat.add_assoc, h₁.run_eq, run_succ, hnext]⟩

end Fails

/-! ### Runs that come to their end -/

theorem deliver_of_done (h : r.task = .done) (route : Route) (answer : Answer) :
    r.deliver route answer = .ok r := by
  unfold deliver
  simp [h, Task.step]

/-- Once the task is done, nothing is stored any more. -/
theorem store_eq_of_done (h : r.task = .done) {n : Nat} (hrun : r.run w n = some (.ok r')) :
    r'.store = r.store := by
  induction n generalizing r with
  | zero => cases hrun
  | succ n ih =>
    have hnext : r.next? w = none ∨ ∃ r₁, r.next? w = some (.ok r₁) ∧ r₁.task = .done ∧
        r₁.store = r.store := by
      have hready : r.task.ready? = none := by rw [h, Task.ready?]
      simp only [next?, hready, wait]
      rcases firstPending? r.pending with _ | p
      · exact .inl rfl
      · let late : Running :=
          { r with now := p.due, pending := r.pending.filter fun q => q.route != p.route }
        exact .inr ⟨late, congrArg some (deliver_of_done (r := late) h p.route p.answer), h, rfl⟩
    rw [run_succ] at hrun
    rcases hnext with hnone | ⟨r₁, hsome, hdone, hstore⟩
    · rw [hnone] at hrun
      cases hrun
      rfl
    · rw [hsome] at hrun
      exact (ih hdone hrun).trans hstore

/-- **A run that comes to its end** has led to where its task was done, with the store of the
end. -/
theorem exists_leads {n : Nat} (hrun : r.run w n = some (.ok r')) (hdone : r'.task = .done) :
    ∃ k r₁, k < n ∧ Leads w k r r₁ ∧ r₁.task = .done ∧ r₁.store = r'.store := by
  induction n generalizing r with
  | zero => cases hrun
  | succ n ih =>
    by_cases h : r.task = .done
    · exact ⟨0, r, n.succ_pos, .refl r, h, (store_eq_of_done h hrun).symm⟩
    · rw [run_succ] at hrun
      rcases hnext : r.next? w with _ | ⟨e, r₂⟩ | r₂
      · rw [hnext] at hrun
        cases hrun
        exact absurd hdone h
      · rw [hnext] at hrun
        cases hrun
      · rw [hnext] at hrun
        obtain ⟨k, r₁, hk, hleads, hdone₁, hstore⟩ := ih hrun
        exact ⟨k + 1, r₁, by omega, .step h hnext hleads, hdone₁, hstore⟩

end Running

/-! ### Single nodes -/

namespace Running

variable {w : Workshop} {r : Running} {n : Node} {info : NodeInfo} {command : String} {v : Json}
  {files : Files}

/-- One pass checks a condition. -/
theorem next?_condition (condition : String) (hready : r.task.ready? = some [])
    (hstep : r.task.step (.failed "") r.store [] = some (Task.onCondition condition n r.store)) :
    ∃ past, r.next? w = some (.ok { r with
      task := if Condition.holds condition r.store then .loop n (.ofBody n) else .done
      events := past }) := by
  have hgoOn := goOn_of_not_started (w := w) hstep (by simp [Task.onCondition])
  unfold next?
  simp only [hready, hgoOn]
  exact ⟨_, rfl⟩

/-- A node whose guard holds has its body run next. -/
theorem leads_guard (h : r.task = .guard n) (hguard : Condition.holds n.info.guard r.store = true) :
    ∃ past, Leads w 1 r { r with task := .loop n (.ofBody n), events := past } := by
  obtain ⟨past, hnext⟩ := next?_condition (w := w) (r := r) (n := n) n.info.guard
    (by rw [h]; rfl) (by rw [h]; rfl)
  rw [hguard, if_pos rfl] at hnext
  exact ⟨past, .single (by simp [h]) hnext⟩

/-- A node that is not repeated is done after its body. -/
theorem leads_idle (h : r.task = .loop n .done)
    (hloop : Condition.holds n.info.loop r.store = false) :
    ∃ past, Leads w 1 r { r with task := .done, events := past } := by
  obtain ⟨past, hnext⟩ := next?_condition (w := w) (r := r) (n := n) n.info.loop
    (by rw [h]; rfl) (by rw [h]; rfl)
  rw [hloop, if_neg Bool.false_ne_true] at hnext
  exact ⟨past, .single (by simp [h]) hnext⟩

/-- A leaf whose step succeeds at once ends in one pass: it stores the result, and fails if the
error flag is up then. -/
theorem next?_leaf (h : r.task = .leaf info command) (hreply : w.dispatch r.files command
      (Step.params info.ins r.store) = { answer := ⟨.ok v, none⟩, files }) :
    ((r.store.set info.out v).errorRaised = true → ∃ r', r.next? w =
        some (.error (.raised ((r.store.set info.out v).raisedMessage?.getD defaultMessage), r'))) ∧
      ((r.store.set info.out v).errorRaised = false → ∃ past, r.next? w = some (.ok { r with
        task := .done, store := r.store.set info.out v, files := files, events := past })) := by
  set params := Step.params info.ins r.store
  have hready : r.task.ready? = some [] := by rw [h]; rfl
  have hstep : r.task.step (.failed "") r.store [] =
      some { task := .ok (.awaiting info command params), store := r.store,
             events := [.started command params] } := by rw [h]; rfl
  have htask : (Task.endLeaf info command params ⟨.ok v, none⟩ r.store).task =
      if (r.store.set info.out v).errorRaised then
        .error (.raised ((r.store.set info.out v).raisedMessage?.getD defaultMessage))
      else .ok .done := rfl
  unfold next?
  simp only [hready, goOn_of_started hstep rfl rfl, ask, hreply]
  constructor
  · intro hup
    rw [hup, if_pos rfl] at htask
    obtain ⟨r', hmoved⟩ := moved_of_error htask _
    exact ⟨r', congrArg some hmoved⟩
  · intro hdown
    rw [hdown, if_neg Bool.false_ne_true] at htask
    exact ⟨_, congrArg some (moved_of_ok htask _)⟩

/-- Such a leaf fails if the error flag is up once its result is stored. -/
theorem fails_leaf (h : r.task = .guard (.leaf info command))
    (hguard : Condition.holds info.guard r.store = true) (hreply : w.dispatch r.files command
      (Step.params info.ins r.store) = { answer := ⟨.ok v, none⟩, files })
    (hup : (r.store.set info.out v).errorRaised = true) :
    Fails w 1 r (.raised ((r.store.set info.out v).raisedMessage?.getD defaultMessage)) := by
  obtain ⟨past, hfirst⟩ := leads_guard (w := w) h hguard
  let body : Running := { r with task := .leaf info command, events := [] }
  obtain ⟨r', hnext⟩ := (next?_leaf (r := body) rfl hreply).1 hup
  have hbody :
      Fails w 0 body (.raised ((r.store.set info.out v).raisedMessage?.getD defaultMessage)) :=
    ⟨body, r', .refl body, by simp [body], hnext⟩
  exact hfirst.fails (hbody.within (Task.isFrame_loop (.leaf info command)) past)

/-- Such a leaf comes to its end if the error flag stays down and it is not repeated. -/
theorem leads_leaf (h : r.task = .guard (.leaf info command))
    (hguard : Condition.holds info.guard r.store = true) (hreply : w.dispatch r.files command
      (Step.params info.ins r.store) = { answer := ⟨.ok v, none⟩, files })
    (hdown : (r.store.set info.out v).errorRaised = false)
    (hloop : Condition.holds info.loop (r.store.set info.out v) = false) :
    ∃ past, Leads w 3 r { r with
      task := .done, store := r.store.set info.out v, files := files, events := past } := by
  obtain ⟨past, hfirst⟩ := leads_guard (w := w) h hguard
  let body : Running := { r with task := .leaf info command, events := [] }
  obtain ⟨past₁, hnext⟩ := (next?_leaf (r := body) rfl hreply).2 hdown
  have hbody := (Leads.single (by simp [body]) hnext).within
    (Task.isFrame_loop (.leaf info command)) past
  obtain ⟨past₂, hidle⟩ := leads_idle (w := w) (n := .leaf info command) (r := { r with
    task := .loop (.leaf info command) .done, store := r.store.set info.out v, files := files,
    events := past₁ ++ past }) rfl hloop
  exact ⟨past₂, (hfirst.trans hbody).trans hidle⟩

end Running

/-! ### The members of a series -/

namespace Task

/-- A task that stands in the body of a series, before some other nodes of it. -/
def member (n : Node) (rest : List Node) (t : Task) : Task := .loop n (andThen t rest)

theorem isFrame_member (n : Node) (rest : List Node) : IsFrame (member n rest) :=
  (isFrame_loop n).comp (isFrame_andThen rest)

end Task

namespace Running

variable {w : Workshop} {r r₁ : Running} {k : Nat} {n first : Node} {rest : List Node}

/-- A series whose guard holds begins with its first node. -/
theorem leads_first {info : NodeInfo} (h : r.task = .guard (.group info (first :: rest)))
    (hmode : info.mode = .series) (hguard : Condition.holds info.guard r.store = true) :
    ∃ past, Leads w 1 r (({ r with task := .guard first, events := [] }).within
      (Task.member (.group info (first :: rest)) rest) past) := by
  obtain ⟨past, hleads⟩ := leads_guard (w := w) h hguard
  have hbody : Task.ofBody (.group info (first :: rest)) = .andThen (.guard first) rest := by
    rw [Task.ofBody, hmode]
    rfl
  rw [hbody] at hleads
  exact ⟨past, hleads⟩

/-- Once a node of a series is done, the next one follows. -/
theorem leads_next (h : Leads w k r r₁) (hdone : r₁.task = .done) (n next : Node) (rest : List Node)
    (past : List Event) :
    Leads w k (r.within (Task.member n (next :: rest)) past)
      (({ r₁ with task := .guard next }).within (Task.member n rest) past) := by
  have hwithin := h.within (Task.isFrame_member n (next :: rest)) past
  cases r₁
  cases hdone
  exact hwithin

end Running

/-! ### Nodes that succeed -/

namespace Node

/-- The scheduler runs the node alone, from its guard on, to its end and without a failure, in at
most `steps` steps. -/
def SucceedsIn (n : Node) (w : Workshop) (s : Store) (files : Files) (steps : Nat) : Prop :=
  ∃ r, ({ task := .guard n, store := s, files } : Running).run w steps = some (.ok r) ∧
    r.task = .done

/-- A leaf whose step succeeds at once does so. -/
theorem succeedsIn_leaf {info : NodeInfo} {command : String} {w : Workshop}
    {s : Store} {files : Files} {v : Json} (hguard : Condition.holds info.guard s = true)
    (hreply : w.dispatch files command (Step.params info.ins s) =
      { answer := ⟨.ok v, none⟩, files })
    (hdown : (s.set info.out v).errorRaised = false)
    (hloop : Condition.holds info.loop (s.set info.out v) = false) :
    (Node.leaf info command).SucceedsIn w s files 4 := by
  obtain ⟨past, hleads⟩ := Running.leads_leaf (w := w)
    (r := { task := .guard (.leaf info command), store := s, files }) rfl hguard hreply hdown hloop
  exact ⟨_, hleads.run_eq 1, rfl⟩

end Node

end CommandChain
