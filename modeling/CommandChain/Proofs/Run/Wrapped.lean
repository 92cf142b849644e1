import CommandChain.Proofs.Chain.Watched
import CommandChain.Proofs.Run.Compose

/-!
# The root over a pipeline

`Node.wrap` puts a root over the pipeline. The guard and the loop stay with the pipeline, which
loses its inputs and its result path if it is a group, and its mode if it is a leaf. None of this
matters when it is run: the runs of the root are those of the pipeline from its guard on, act by act
(`root_runs_pipeline`).

What carries it are two simulations. Tasks that are `Alike` make the same moves
(`Task.Alike.moves`), and so does a task as the only one of a series or of a parallel group
(`run_alone_iff`). -/

namespace CommandChain

/-! ### What is seen of a run -/

namespace Act

/-- An act but for the mode of the leaf that does it, by which nothing is decided. -/
def modeless : Act → Act
  | .guard condition b => .guard condition b
  | .again condition b => .again condition b
  | .start c => .start { c with info.mode := .series }
  | .finish c answer s => .finish { c with info.mode := .series } answer s

end Act

/-- What is done in a run, in its order: the conditions that are checked with their results, the
commands that are started with their parameters, and the answers with the stores that they leave. -/
def acts (τ : List Mark) : List Act := τ.map (·.act.modeless)

theorem acts_append (τ τ' : List Mark) : acts (τ ++ τ') = acts τ ++ acts τ' := List.map_append

theorem acts_singleton (mk : Mark) : acts [mk] = [mk.act.modeless] := rfl

/-! ### Nodes that run alike -/

/-- `Alike n n'`: the nodes differ at most in the mode, if they are leaves, or in the inputs and the
result path, if they are groups. -/
inductive Node.Alike : Node → Node → Prop
  | leaf (i : NodeInfo) (mode : Mode) (c : String) : Alike (.leaf i c) (.leaf { i with mode } c)
  | group (i : NodeInfo) (ins : List String) (out : String) (ns : List Node) :
    Alike (.group i ns) (.group { i with ins, out } ns)

namespace Node.Alike

variable {n n' : Node}

theorem symm (h : Alike n n') : Alike n' n := by
  cases h with
  | leaf i mode c => exact .leaf { i with mode } i.mode c
  | group i ins out ns => exact .group { i with ins, out } i.ins i.out ns

theorem guard_eq (h : Alike n n') : n'.info.guard = n.info.guard := by cases h <;> rfl

theorem loop_eq (h : Alike n n') : n'.info.loop = n.info.loop := by cases h <;> rfl

theorem width_eq (h : Alike n n') : n'.width = n.width := by cases h <;> rfl

end Node.Alike

namespace Task

/-- Tasks that are left of nodes that run alike. -/
inductive Alike : Task → Task → Prop
  | refl (t : Task) : Alike t t
  | leaf (i : NodeInfo) (mode : Mode) (c : String) : Alike (.leaf i c) (.leaf { i with mode } c)
  | awaiting (i : NodeInfo) (mode : Mode) (c : String) (ps : List Json) :
    Alike (.awaiting i c ps) (.awaiting { i with mode } c ps)
  | guard {n n' : Node} : n.Alike n' → Alike (.guard n) (.guard n')
  | loop {n n' : Node} {t t' : Task} : n.Alike n' → Alike t t' → Alike (.loop n t) (.loop n' t')

/-- Results that are the same error, or tasks that are alike. -/
inductive AlikeResult : Except RunError Task → Except RunError Task → Prop
  | error (e : RunError) : AlikeResult (.error e) (.error e)
  | ok {t t' : Task} : Alike t t' → AlikeResult (.ok t) (.ok t')

theorem AlikeResult.refl (r : Except RunError Task) : AlikeResult r r := by
  cases r with
  | error e => exact .error e
  | ok t => exact .ok (.refl t)

theorem AlikeResult.map {r r' : Except RunError Task} {f f' : Task → Task} (h : AlikeResult r r')
    (hf : ∀ t t', Alike t t' → Alike (f t) (f' t')) : AlikeResult (r.map f) (r'.map f') := by
  cases h with
  | error e => exact .error e
  | ok ht => exact .ok (hf _ _ ht)

/-- How a run has ended: with an error, with no task left, or not at all yet. -/
def outcome? : Except RunError Task → Option (Except RunError Unit)
  | .error e => some (.error e)
  | .ok t => if t.isDone then some (.ok ()) else none

theorem AlikeResult.outcome?_eq {r r' : Except RunError Task} (h : AlikeResult r r') :
    outcome? r' = outcome? r := by
  cases h with
  | error e => rfl
  | ok ht => cases ht <;> rfl

theorem alike_ofBody {n n' : Node} (h : n.Alike n') : Alike (ofBody n) (ofBody n') := by
  cases h with
  | leaf i mode c => exact .leaf i mode c
  | group i ins out ns => exact .refl _

theorem alike_onCondition {n n' : Node} (h : n.Alike n') (condition : String) (s : Store) :
    AlikeResult (onCondition condition n s).task (onCondition condition n' s).task := by
  unfold onCondition
  refine .ok ?_
  split_ifs
  · exact .loop h (alike_ofBody h)
  · exact .refl _

namespace Alike

variable {answer : Answer} {s : Store} {w : Nat} {t t' : Task} {p : Position}
  {act : Act} {m : Moved}

/-- **Tasks that are alike make the same moves.** -/
theorem moves (ht : Alike t t') (h : Moves answer s w t p act m) :
    ∃ act' m', Moves answer s w t' p act' m' ∧ act'.modeless = act.modeless ∧ m'.store = m.store ∧
      AlikeResult m.task m'.task := by
  induction ht generalizing w p act m with
  | refl t => exact ⟨act, m, h, rfl, rfl, .refl _⟩
  | leaf i mode c =>
    cases h with
    | start w i c => exact ⟨_, _, .start w { i with mode } c, rfl, rfl, .ok (.awaiting i mode c _)⟩
  | awaiting i mode c ps =>
    cases h with
    | finish w i c ps => exact ⟨_, _, .finish w { i with mode } c ps, rfl, rfl, .refl _⟩
  | @guard n n' hn =>
    cases h with
    | guard w n =>
      refine ⟨_, _, .guard w n', ?_, rfl, ?_⟩
      · rw [hn.guard_eq]
      · rw [hn.guard_eq]
        exact alike_onCondition hn _ s
  | @loop n n' b b' hn hb ih =>
    cases h with
    | again w n =>
      -- a body that is done is alike only to itself
      cases hb
      refine ⟨_, _, .again w n', ?_, rfl, ?_⟩
      · rw [hn.loop_eq]
      · rw [hn.loop_eq]
        exact alike_onCondition hn _ s
    | @loop w n b p act m h =>
      obtain ⟨act', m', hm, hact, hstore, hresult⟩ := ih h
      rw [← hn.width_eq] at hm
      exact ⟨act', _, .loop hm, hact, hstore, hresult.map fun _ _ hu => .loop hn hu⟩

end Alike

end Task

/-- A run of a task is matched by a run of every task that is alike, act by act. -/
theorem Run.alike {w : Nat} {t t' : Task} {s S : Store} {τ : List Mark} {r : Except RunError Task}
    (h : Run w t s τ r S) (ht : t.Alike t') :
    ∃ τ' r', Run w t' s τ' r' S ∧ acts τ' = acts τ ∧ Task.AlikeResult r r' := by
  induction h with
  | start => exact ⟨[], .ok t', .start, rfl, .ok ht⟩
  | @step τ u S answer p act m _ hm ih =>
    obtain ⟨τ', r', hrun, hacts, hr⟩ := ih
    cases hr with
    | ok hu =>
      obtain ⟨act', m', hm', hact, hstore, hresult⟩ := hu.moves hm
      refine ⟨τ' ++ [⟨p, act'⟩], m'.task, hstore ▸ hrun.step hm', ?_, hresult⟩
      rw [acts_append, acts_append, hacts, acts_singleton, acts_singleton, hact]

/-! ### A task alone in a group -/

namespace Task

/-- A task as the only one that runs in a group of a mode. -/
def alone : Mode → Task → Task
  | .series, t => andThen t []
  | .parallel, t => sideBySide [t]

theorem alone_eq_done_iff {mode : Mode} {t : Task} : alone mode t = .done ↔ t = .done := by
  constructor
  · intro h
    cases mode with
    | series =>
      by_contra hd
      rw [alone, andThen_of_ne_done hd] at h
      cases h
    | parallel =>
      rcases sideBySide_eq [t] with hside | ⟨-, hall⟩
      · rw [alone, hside] at h
        cases h
      · exact hall t List.mem_cons_self
  · rintro rfl
    cases mode <;> rfl

theorem outcome?_map_alone {mode : Mode} {r : Except RunError Task} :
    outcome? (r.map (alone mode)) = outcome? r := by
  have hdone : ∀ t : Task, t.isDone = true ↔ t = .done := by
    intro t
    cases t <;> simp [isDone]
  rcases r with e | t
  · rfl
  · have hsame : (alone mode t).isDone = t.isDone := by
      rw [Bool.eq_iff_iff, hdone, hdone, alone_eq_done_iff]
    simp only [Except.map, outcome?, hsame]

/-- The moves of a task that is alone are those of the task. -/
theorem alone_moves_iff {mode : Mode} {answer : Answer} {s : Store} {t : Task} {act : Act}
    {m : Moved} :
    (∃ p, Moves answer s 1 (alone mode t) p act m) ↔
      ∃ p m', Moves answer s 0 t p act m' ∧ m = m'.inside (alone mode) := by
  by_cases hd : t = .done
  · subst hd
    rw [alone_eq_done_iff.mpr rfl]
    exact ⟨fun ⟨p, h⟩ => absurd rfl h.ne_done, fun ⟨p, m', h, _⟩ => absurd rfl h.ne_done⟩
  cases mode with
  | series =>
    show (∃ p, Moves answer s 1 (andThen t []) p act m) ↔ _
    rw [andThen_of_ne_done hd]
    constructor
    · rintro ⟨p, h⟩
      cases h with
      | series h => exact ⟨_, _, h, rfl⟩
    · rintro ⟨p, m', h, rfl⟩
      exact ⟨_, .series h⟩
  | parallel =>
    have hside : sideBySide [t] = .parallel [t] := by
      rcases sideBySide_eq [t] with h | ⟨-, h⟩
      · exact h
      · exact absurd (h t List.mem_cons_self) hd
    show (∃ p, Moves answer s 1 (sideBySide [t]) p act m) ↔ _
    rw [hside]
    constructor
    · rintro ⟨p, h⟩
      cases h with
      | @parallel w i ts u p act m hi h =>
        match i with
        | 0 =>
          cases hi
          exact ⟨_, _, h, rfl⟩
        | i + 1 => simp at hi
    · rintro ⟨p, m', h, rfl⟩
      exact ⟨_, .parallel (i := 0) rfl h⟩

end Task

/-- **A task that is alone in a group runs as it does by itself**, act by act. -/
theorem run_alone_iff {mode : Mode} {t : Task} {s S : Store} {r : Except RunError Task}
    {as : List Act} :
    (∃ τ, Run 1 (.alone mode t) s τ r S ∧ acts τ = as) ↔
      ∃ τ r', Run 0 t s τ r' S ∧ acts τ = as ∧ r = r'.map (Task.alone mode) := by
  constructor
  · rintro ⟨τ, h, rfl⟩
    induction h with
    | start => exact ⟨[], .ok t, .start, rfl, rfl⟩
    | @step τ u S answer p act m _ hm ih =>
      obtain ⟨τ', r', hrun, hacts, hr⟩ := ih
      cases r' with
      | error e => cases hr
      | ok u' =>
        cases hr
        obtain ⟨p', m', hm', rfl⟩ := Task.alone_moves_iff.mp ⟨p, hm⟩
        refine ⟨τ' ++ [⟨p', act⟩], m'.task, hrun.step hm', ?_, rfl⟩
        rw [acts_append, acts_append, hacts, acts_singleton, acts_singleton]
  · rintro ⟨τ, r', h, rfl, rfl⟩
    induction h with
    | start => exact ⟨[], .start, rfl⟩
    | @step τ u S answer p act m _ hm ih =>
      obtain ⟨τ', hrun, hacts⟩ := ih
      obtain ⟨p', hm'⟩ := Task.alone_moves_iff.mpr ⟨p, m, hm, rfl⟩
      refine ⟨τ' ++ [⟨p', act⟩], hrun.step hm', ?_⟩
      rw [acts_append, acts_append, hacts, acts_singleton, acts_singleton]

/-! ### The root of a chain -/

namespace Node

/-- The root over a pipeline holds one node, which runs like the pipeline. It has no guard and no
loop of its own, and it has the inputs and the result path of the pipeline. -/
theorem wrap_eq (n : Node) :
    ∃ info child, n.wrap = .group info [child] ∧ n.Alike child ∧ info.guard = "true" ∧
      info.loop = "false" ∧ info.ins = n.info.ins ∧ info.out = n.info.out := by
  cases n with
  | leaf i c => exact ⟨_, _, rfl, .leaf i .series c, rfl, rfl, rfl, rfl⟩
  | group i ns => exact ⟨_, _, rfl, .group i [] defaultOut ns, rfl, rfl, rfl, rfl⟩

theorem ofBody_singleton (info : NodeInfo) (child : Node) :
    Task.ofBody (.group info [child]) = .alone info.mode (.guard child) := by
  rw [Task.ofBody]
  cases info.mode <;> rfl

theorem Alike.run_iff {n n' : Node} (h : n.Alike n') {s S : Store} {as : List Act}
    {x : Option (Except RunError Unit)} :
    (∃ τ r, Run 0 (.guard n) s τ r S ∧ acts τ = as ∧ Task.outcome? r = x) ↔
      ∃ τ r, Run 0 (.guard n') s τ r S ∧ acts τ = as ∧ Task.outcome? r = x := by
  constructor
  · rintro ⟨τ, r, hrun, rfl, rfl⟩
    obtain ⟨τ', r', hrun', hacts, hr⟩ := hrun.alike (.guard h)
    exact ⟨τ', r', hrun', hacts, hr.outcome?_eq⟩
  · rintro ⟨τ, r, hrun, rfl, rfl⟩
    obtain ⟨τ', r', hrun', hacts, hr⟩ := hrun.alike (.guard h.symm)
    exact ⟨τ', r', hrun', hacts, hr.outcome?_eq⟩

end Node

theorem Chain.exists_wrap {v : Json} {c : Chain} (h : Chain.ofJson v = .ok c) :
    ∃ n, Node.ofJson v = .ok n ∧ c.root = n.wrap := by
  unfold Chain.ofJson at h
  rcases hn : Node.ofJson v with e | n
  · rw [hn] at h
    cases h
  · rcases hvars : Chain.varsOf v with e | vars
    · rw [hn, hvars] at h
      cases h
    · rw [hn, hvars] at h
      cases h
      exact ⟨n, rfl, rfl⟩

/-- **The root of a chain runs as the pipeline does.** It holds one node; it has no guard and no
loop of its own, and the inputs and the result path of the pipeline. From every store, the runs of
its body and those of the pipeline from its guard on do the same acts, leave the same store and come
to the same end, whatever the answers are and in whatever order parallel parts act; a run that is
not at its end has no outcome yet. -/
theorem root_runs_pipeline {v : Json} {c : Chain} (h : Chain.ofJson v = .ok c) :
    ∃ n, Node.ofJson v = .ok n ∧
      (∃ info child, c.root = .group info [child] ∧ info.guard = "true" ∧ info.loop = "false" ∧
        info.ins = n.info.ins ∧ info.out = n.info.out) ∧
      ∀ s S as x,
        (∃ τ r, Run c.root.width (.ofBody c.root) s τ r S ∧ acts τ = as ∧ Task.outcome? r = x) ↔
          ∃ τ r, Run 0 (.guard n) s τ r S ∧ acts τ = as ∧ Task.outcome? r = x := by
  obtain ⟨n, hn, hroot⟩ := Chain.exists_wrap h
  obtain ⟨info, child, hwrap, halike, hguard, hloop, hins, hout⟩ := n.wrap_eq
  rw [hwrap] at hroot
  refine ⟨n, hn, ⟨info, child, hroot, hguard, hloop, hins, hout⟩, fun s S as x => ?_⟩
  rw [hroot, Node.ofBody_singleton, halike.run_iff]
  constructor
  · rintro ⟨τ, r, hrun, hacts, hr⟩
    obtain ⟨τ', r', hrun', hacts', rfl⟩ := run_alone_iff.mp ⟨τ, hrun, hacts⟩
    exact ⟨τ', r', hrun', hacts', Task.outcome?_map_alone.symm.trans hr⟩
  · rintro ⟨τ, r, hrun, hacts, hr⟩
    obtain ⟨τ', hrun', hacts'⟩ := run_alone_iff.mpr ⟨τ, r, hrun, hacts, rfl⟩
    exact ⟨τ', _, hrun', hacts', Task.outcome?_map_alone.trans hr⟩

/-- A command with a guard, a loop and the mode `parallel`, all of which stay below the root. -/
theorem root_of_guarded_command :
    ∃ c, Chain.ofJson (.obj [("command", .str "tick"), ("if", .str "go"), ("mode", .str "parallel"),
        ("out", .str "n"), ("while", .str "n < 3")]) = .ok c ∧
      ∀ s S as x,
        (∃ τ r, Run c.root.width (.ofBody c.root) s τ r S ∧ acts τ = as ∧ Task.outcome? r = x) ↔
          ∃ τ r, Run 0 (.guard (.leaf ⟨.parallel, "go", "n < 3", [], "n"⟩ "tick")) s τ r S ∧
            acts τ = as ∧ Task.outcome? r = x := by
  have hnode : Node.ofJson (.obj [("command", .str "tick"), ("if", .str "go"),
      ("mode", .str "parallel"), ("out", .str "n"), ("while", .str "n < 3")]) =
      .ok (.leaf ⟨.parallel, "go", "n < 3", [], "n"⟩ "tick") := by
    rw [Node.ofJson_of_fields rfl rfl]
    rfl
  have hchain : Chain.ofJson (.obj [("command", .str "tick"), ("if", .str "go"),
      ("mode", .str "parallel"), ("out", .str "n"), ("while", .str "n < 3")]) =
      .ok ⟨[], false, (Node.leaf ⟨.parallel, "go", "n < 3", [], "n"⟩ "tick").wrap⟩ := by
    unfold Chain.ofJson
    rw [hnode]
    rfl
  obtain ⟨n, hn, -, hruns⟩ := root_runs_pipeline hchain
  rw [hnode] at hn
  cases hn
  exact ⟨_, hchain, hruns⟩

end CommandChain
