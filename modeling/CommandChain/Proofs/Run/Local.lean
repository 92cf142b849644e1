import CommandChain.Proofs.Run.Order

/-!
# What a run of a node reads and writes

The moves that are made of a node look at the variables that the node names and at the error signal,
and they write at the paths of its leaves.

* `Run.writes_mem_outs`: what is written belongs to the leaves of the node.
* `Run.transport`: in a store that agrees on what is read, the same run can be made, and it writes
  the same. -/

namespace CommandChain

/-! ### The names in a tree -/

namespace Node

mutual

/-- A node and all nodes below it. -/
def all : Node → List Node
  | .leaf i c => [.leaf i c]
  | .group i ns => .group i ns :: allIn ns

/-- Some nodes and all nodes below them. -/
def allIn : List Node → List Node
  | [] => []
  | n :: ns => n.all ++ allIn ns

end

/-- The path that a leaf writes. -/
def ownOut : Node → Option String
  | .leaf i _ => some i.out
  | .group _ _ => none

/-- The roots of the input tokens of a leaf that are not quoted. -/
def ownInputs : Node → List String
  | .leaf i _ => (i.ins.filter (!Text.isQuoted ·)).map Store.root
  | .group _ _ => []

/-- The variables that a node reads on its own: those that its conditions mention and its inputs. -/
def ownReads (n : Node) : List String :=
  Condition.mentioned n.info.guard ++ Condition.mentioned n.info.loop ++ n.ownInputs

/-- The paths that the leaves below a node write. -/
def outs (n : Node) : List String := n.all.filterMap ownOut

/-- The variables that a node and all nodes below it read. -/
def reads (n : Node) : List String := n.all.flatMap ownReads

/-- The variables that the moves of a node look at. -/
def view (n : Node) : List String := Store.errorFlag :: Store.errorMessage :: n.reads

/-- No leaf below the node writes the error signal. -/
def SparesErrors (n : Node) : Prop :=
  ∀ p ∈ n.outs, Store.root p ≠ Store.errorFlag ∧ Store.root p ≠ Store.errorMessage

instance (n : Node) : Decidable n.SparesErrors := List.decidableBAll ..

/-- Two nodes that do not touch each other's data. -/
structure Apart (a b : Node) : Prop where
  outs : ∀ p ∈ a.outs, ∀ q ∈ b.outs, Store.Incomparable p q
  left : ∀ q ∈ b.outs, Store.root q ∉ a.reads
  right : ∀ p ∈ a.outs, Store.root p ∉ b.reads

instance (a b : Node) : Decidable (Apart a b) :=
  decidable_of_iff ((∀ p ∈ a.outs, ∀ q ∈ b.outs, Store.Incomparable p q) ∧
      (∀ q ∈ b.outs, Store.root q ∉ a.reads) ∧ ∀ p ∈ a.outs, Store.root p ∉ b.reads)
    ⟨fun h => ⟨h.1, h.2.1, h.2.2⟩, fun h => ⟨h.outs, h.left, h.right⟩⟩

theorem Apart.symm {a b : Node} (h : Apart a b) : Apart b a :=
  ⟨fun q hq p hp => (h.outs p hp q hq).symm, h.right, h.left⟩

theorem self_mem_all (n : Node) : n ∈ n.all := by
  cases n <;> simp [all]

theorem mem_allIn {c : Node} : ∀ {ns : List Node}, c ∈ allIn ns ↔ ∃ n ∈ ns, c ∈ n.all
  | [] => by simp [allIn]
  | n :: ns => by simp [allIn, mem_allIn]

theorem mem_all_of_mem {i : NodeInfo} {ns : List Node} {n c : Node} (hn : n ∈ ns) (hc : c ∈ n.all) :
    c ∈ (group i ns).all := by
  rw [all]
  exact List.mem_cons_of_mem _ (mem_allIn.mpr ⟨n, hn, hc⟩)

theorem mem_all_of_nodeAt {c : Node} :
    ∀ {n : Node} {p : Position}, n.nodeAt p = some c → c ∈ n.all
  | n, [], h => by
    simp only [nodeAt, Option.some.injEq] at h
    exact h ▸ self_mem_all n
  | .leaf _ _, _ :: _, h => by simp [nodeAt] at h
  | .group i ns, .series k :: p, h => by
    simp only [nodeAt] at h
    split_ifs at h
    obtain ⟨n, hn, h⟩ := Option.bind_eq_some_iff.mp h
    exact mem_all_of_mem (List.mem_of_getElem? hn) (mem_all_of_nodeAt h)
  | .group i ns, .parallel k :: p, h => by
    simp only [nodeAt] at h
    split_ifs at h
    obtain ⟨n, hn, h⟩ := Option.bind_eq_some_iff.mp h
    exact mem_all_of_mem (List.mem_of_getElem? hn) (mem_all_of_nodeAt h)

theorem ownReads_subset_view {n c : Node} (hc : c ∈ n.all) : ∀ k ∈ c.ownReads, k ∈ n.view := by
  intro k hk
  unfold view reads
  simp only [List.mem_cons, List.mem_flatMap]
  exact .inr (.inr ⟨c, hc, hk⟩)

theorem errorFlag_mem_view (n : Node) : Store.errorFlag ∈ n.view := List.mem_cons_self

theorem errorMessage_mem_view (n : Node) : Store.errorMessage ∈ n.view :=
  List.mem_cons_of_mem _ List.mem_cons_self

theorem Apart.root_not_mem_view {a b : Node} (h : Apart a b) (ha : a.SparesErrors) {p : String}
    (hp : p ∈ a.outs) : Store.root p ∉ b.view := by
  unfold view
  simp only [List.mem_cons, not_or]
  exact ⟨(ha p hp).1, (ha p hp).2, h.right p hp⟩

end Node

/-! ### Answers -/

/-- The answer that an act gives to a leaf. -/
def Act.reply? : Act → Option (Call × Answer)
  | .finish c answer _ => some (c, answer)
  | _ => none

theorem Act.write?_eq (act : Act) :
    act.write? = act.reply?.bind fun x => (finish x.1 x.2 ⟨[]⟩).write? := by
  cases act <;> rfl

/-- The answers that are given in a trace, in their order. -/
def replies (τ : List Mark) : List (Call × Answer) := τ.filterMap (·.act.reply?)

/-- Every answer in the trace depends on nothing but the command and its parameters. -/
def Obeys (answers : String → List Json → Answer) (τ : List Mark) : Prop :=
  ∀ x ∈ replies τ, x.2 = answers x.1.command x.1.params

theorem replies_append (τ τ' : List Mark) : replies (τ ++ τ') = replies τ ++ replies τ' :=
  List.filterMap_append

theorem replies_singleton (mk : Mark) : replies [mk] = mk.act.reply?.toList := by
  rcases h : mk.act.reply? with _ | x <;> simp [replies, h]

theorem writes_eq_of_replies (τ : List Mark) :
    writes τ = (replies τ).filterMap fun x => (Act.finish x.1 x.2 ⟨[]⟩).write? := by
  unfold writes replies
  rw [List.filterMap_filterMap]
  exact List.filterMap_congr fun mk _ => mk.act.write?_eq

variable {answers : String → List Json → Answer}

theorem obeys_append {τ τ' : List Mark} :
    Obeys answers (τ ++ τ') ↔ Obeys answers τ ∧ Obeys answers τ' := by
  unfold Obeys
  rw [replies_append]
  exact List.forall_mem_append

theorem obeys_nil : Obeys answers [] := by
  intro x hx
  cases hx

theorem obeys_singleton {p : Position} {act : Act} :
    Obeys answers [⟨p, act⟩] ↔ ∀ x, act.reply? = some x → x.2 = answers x.1.command x.1.params := by
  unfold Obeys
  rw [replies_singleton]
  simp

/-! ### Moves in other stores -/

namespace Task.Moves

variable {answer : Answer} {s s' : Store} {w : Nat} {t : Task} {p : Position}
  {act : Act} {m : Moved} {n c : Node}

theorem write_mem_outs {x : String × Json} (hc : c ∈ n.all) (ha : act.IsOf c)
    (hx : act.write? = some x) : x.1 ∈ n.outs := by
  cases act with
  | finish call answer s =>
    have hout : x.1 = call.info.out := by
      rcases hr : answer.result with f | v
      · rcases ho : f.output with _ | v
        · simp [Act.write?, hr, ho] at hx
        · simp only [Act.write?, hr, ho, Option.map_some, Option.some.injEq] at hx
          rw [← hx]
      · simp only [Act.write?, hr, Option.some.injEq] at hx
        rw [← hx]
    have hleaf : c = .leaf call.info call.command := ha
    exact List.mem_filterMap.mpr ⟨c, hc, by rw [hleaf, hout]; rfl⟩
  | guard condition b | again condition b | start call => cases hx

/-- **A move can be made in every store that agrees on what is read**, with the same task, and with
the same answer and the same write. -/
theorem transport {names : List String} (h : Moves answer s w t p act m)
    (hs : Store.AgreeOn names s s') (hflag : Store.errorFlag ∈ names)
    (hmessage : Store.errorMessage ∈ names) (ha : act.IsOf c) (hc : ∀ k ∈ c.ownReads, k ∈ names) :
    ∃ act' m', Moves answer s' w t p act' m' ∧ m'.task = m.task ∧ act'.reply? = act.reply? := by
  induction h with
  | guard w n =>
    have hcond : Condition.holds n.info.guard s = Condition.holds n.info.guard s' := by
      refine hs.holds fun name hname => hc name ?_
      have hguard : n.info.guard = c.info.guard := ha
      rw [hguard] at hname
      exact List.mem_append_left _ (List.mem_append_left _ hname)
    exact ⟨_, _, .guard w n, by simp [onCondition, hcond], rfl⟩
  | start w info command =>
    have hparams : Step.params info.ins s = Step.params info.ins s' := by
      refine hs.params fun token htoken hq => hc _ ?_
      have hleaf : c = .leaf info command := ha
      rw [hleaf]
      have hinput : token ∈ info.ins.filter (!Text.isQuoted ·) :=
        List.mem_filter.mpr ⟨htoken, by simp [hq]⟩
      exact List.mem_append_right _ (List.mem_map_of_mem hinput)
    exact ⟨_, _, .start w info command, by simp [hparams], rfl⟩
  | finish w info command params =>
    refine ⟨_, _, .finish w info command params, ?_, rfl⟩
    rcases hr : answer.result with f | v
    · simp [endLeaf, hr]
    · have hset := hs.set info.out v
      simp [endLeaf, hr, hset.errorRaised hflag, hset.raisedMessage? hmessage]
  | again w n =>
    have hcond : Condition.holds n.info.loop s = Condition.holds n.info.loop s' := by
      refine hs.holds fun name hname => hc name ?_
      have hloop : n.info.loop = c.info.loop := ha
      rw [hloop] at hname
      exact List.mem_append_left _ (List.mem_append_right _ hname)
    exact ⟨_, _, .again w n, by simp [onCondition, hcond], rfl⟩
  | loop _ ih =>
    obtain ⟨act', m', hm, ht, hr⟩ := ih ha
    exact ⟨act', _, .loop hm, by simp [Moved.inside, ht], hr⟩
  | series _ ih =>
    obtain ⟨act', m', hm, ht, hr⟩ := ih ha
    exact ⟨act', _, .series hm, by simp [Moved.inside, ht], hr⟩
  | parallel htk _ ih =>
    obtain ⟨act', m', hm, ht, hr⟩ := ih ha
    exact ⟨act', _, .parallel htk hm, by simp [Moved.inside, ht], hr⟩

end Task.Moves

/-! ### Runs in other stores -/

namespace Run

variable {n : Node} {s s' S : Store} {τ : List Mark} {r : Except RunError Task}

theorem stage_of_guard (h : Run 0 (.guard n) s τ r S) : ∀ t, r = .ok t → Task.Stage n t := by
  induction h with
  | start =>
    intro t ht
    cases ht
    exact .guard n
  | step _ hm ih =>
    intro t ht
    exact (Task.Stage.of_moves hm ht).1 (ih _ rfl)

theorem isOf_of_guard {t : Task} {answer : Answer} {p : Position} {act : Act} {m : Moved}
    (h : Run 0 (.guard n) s τ (.ok t) S) (hm : t.Moves answer s' 0 p act m) :
    ∃ c ∈ n.all, act.IsOf c := by
  obtain ⟨c, hc, ha⟩ := hm.isOf.1 n (h.stage_of_guard t rfl)
  exact ⟨c, Node.mem_all_of_nodeAt hc, ha⟩

/-- **What is written belongs to the leaves of the node.** -/
theorem writes_mem_outs (h : Run 0 (.guard n) s τ r S) : ∀ x ∈ writes τ, x.1 ∈ n.outs := by
  induction h with
  | start =>
    intro x hx
    cases hx
  | @step τ t S answer p act m h hm ih =>
    intro x hx
    rw [writes_append, writes_singleton, List.mem_append, Option.mem_toList] at hx
    rcases hx with hx | hx
    · exact ih x hx
    · obtain ⟨c, hc, ha⟩ := h.isOf_of_guard hm
      exact Task.Moves.write_mem_outs hc ha hx

/-- **The same run can be made in every store that agrees on what is read.** -/
theorem transport (h : Run 0 (.guard n) s τ r S) (hs : Store.AgreeOn n.view s s') :
    ∃ τ' S', Run 0 (.guard n) s' τ' r S' ∧ replies τ' = replies τ := by
  have hrun : ∃ τ' S', Run 0 (.guard n) s' τ' r S' ∧ replies τ' = replies τ ∧
      Store.AgreeOn n.view S S' := by
    induction h with
    | start => exact ⟨[], s', .start, rfl, hs⟩
    | @step τ t S answer p act m h hm ih =>
      obtain ⟨τ', S', hrun, hreplies, hagree⟩ := ih
      obtain ⟨c, hc, ha⟩ := h.isOf_of_guard hm
      obtain ⟨act', m', hm', ht, hreply⟩ := hm.transport hagree n.errorFlag_mem_view
        n.errorMessage_mem_view ha (Node.ownReads_subset_view hc)
      refine ⟨τ' ++ [⟨p, act'⟩], m'.store, ?_, ?_, ?_⟩
      · rw [← ht]
        exact hrun.step hm'
      · simp only [replies_append, replies_singleton, hreplies, hreply]
      · rw [hm.store_eq, hm'.store_eq, act.write?_eq, act'.write?_eq, hreply]
        exact hagree.setAll _
  obtain ⟨τ', S', hrun, hreplies, -⟩ := hrun
  exact ⟨τ', S', hrun, hreplies⟩

end Run

/-! ### Schedules with one answer -/

/-- A schedule in which every step has the same answer makes a run with that answer. -/
theorem exists_run_of_replay {answer : Answer} {r : Except RunError Task} :
    ∀ {routes : List Route} {t : Task} {s S : Store} (w : Nat),
      t.replay s (routes.map (·, answer)) = some (r, S) →
        ∃ τ, Obeys (fun _ _ => answer) τ ∧ Run w t s τ r S
  | [], t, s, S, w, h => by
    simp only [List.map_nil, Task.replay, Option.some.injEq, Prod.mk.injEq] at h
    obtain ⟨rfl, rfl⟩ := h
    exact ⟨[], obeys_nil, .start⟩
  | a :: routes, t, s, S, w, h => by
    simp only [List.map_cons, Task.replay] at h
    rcases ha : t.step answer s a with _ | m
    · simp [ha] at h
    · obtain ⟨p, act, hm⟩ := Task.moves_of_step t w a m ha
      have hobeys : Obeys (fun _ _ => answer) [⟨p, act⟩] := by
        refine obeys_singleton.mpr fun x hx => ?_
        cases act with
        | finish c answer' s' =>
          cases hx
          exact (hm.eq_of_finish rfl).1
        | guard condition b | again condition b | start c => cases hx
      rcases ht : m.task with e | t'
      · simp only [ha, ht] at h
        split at h
        · cases h
          exact ⟨_, hobeys, ht ▸ Run.start.step hm⟩
        · cases h
      · simp only [ha, ht] at h
        obtain ⟨τ, hτ, hrun⟩ := exists_run_of_replay w h
        exact ⟨[⟨p, act⟩] ++ τ, obeys_append.mpr ⟨hobeys, hτ⟩,
          Run.trans (ht ▸ Run.start.step hm) hrun⟩

end CommandChain
