import CommandChain.Proofs.Run.Branches

/-!
# Confluence

Nodes side by side that do not touch each other's data are confluent.

* `settles_of_independent`: if all groups of nodes side by side are made of nodes that do not touch
  each other's data, all runs of a node agree.
* `parallel_confluent`: a group of such nodes succeeds exactly if each of its nodes does so alone,
  and then in the store in which the nodes run one after the other end, in whatever order. -/

namespace CommandChain

variable {answers : String → List Json → Answer} {s s' S S' : Store} {τ : List Mark}
  {o o' : Except RunError Unit} {w k k' : Nat} {n : Node} {ns ns' : List Node}

/-! ### What settles -/

theorem Node.Settles.not_error {e : RunError} (h : n.Settles answers s)
    (hok : n.Alone answers s (.ok ()) S) : ¬ n.Alone answers s (.error e) S' := by
  rintro ⟨k', h'⟩
  obtain ⟨k, hk⟩ := hok
  have := (h _ _ _ _ _ _ hk h').1
  simp at this

theorem Node.Makes.alone_of_mem {Ws : List (List (String × Json))}
    (h : List.Forall₂ (Node.Makes answers s) ns Ws) :
    ∀ n ∈ ns, ∃ S', n.Alone answers s (.ok ()) S' := by
  induction h with
  | nil => simp
  | cons hn _ ih =>
    intro m hm
    rcases List.mem_cons.mp hm with rfl | hm
    · exact ⟨_, hn.alone⟩
    · exact ih m hm

/-- Nodes side by side succeed exactly if each of them does so alone. -/
theorem ends_sideBySide_ok_iff (ha : ns.Pairwise Node.Apart) (he : ∀ n ∈ ns, n.SparesErrors)
    (hs : ∀ n ∈ ns, n.Settles answers s)
    (h : Task.Ends answers k w (Task.sideBySide (ns.map .guard)) s o S) :
    o = .ok () ↔ ∀ n ∈ ns, ∃ S', n.Alone answers s (.ok ()) S' := by
  rcases of_ends_sideBySide ha he h with ⟨e, rfl, n, hn, S', hfail⟩ | ⟨rfl, Ws, hWs, -⟩
  · refine ⟨(fun ho => nomatch ho), fun hall => ?_⟩
    obtain ⟨S'', hok⟩ := hall n hn
    exact absurd hfail ((hs n hn).not_error hok)
  · exact ⟨fun _ => Node.Makes.alone_of_mem hWs, fun _ => rfl⟩

/-- **Nodes side by side that do not touch each other's data settle** if each of them does. -/
theorem settles_sideBySide (ha : ns.Pairwise Node.Apart) (he : ∀ n ∈ ns, n.SparesErrors)
    (hs : ∀ n ∈ ns, n.Settles answers s) (w : Nat) :
    Task.Settles answers w (Task.sideBySide (ns.map .guard)) s := by
  intro k k' o o' S S' h h'
  have hiff : o = .ok () ↔ o' = .ok () :=
    (ends_sideBySide_ok_iff ha he hs h).trans (ends_sideBySide_ok_iff ha he hs h').symm
  refine ⟨hiff, fun ho => ?_⟩
  have ho' := hiff.mp ho
  rcases of_ends_sideBySide ha he h with ⟨e, hoe, -⟩ | ⟨-, Ws, hWs, rfl⟩
  · rw [ho] at hoe
    cases hoe
  · rcases of_ends_sideBySide ha he h' with ⟨e, hoe, -⟩ | ⟨-, Ws', hWs', rfl⟩
    · rw [ho'] at hoe
      cases hoe
    · exact Node.Makes.unique hWs hWs' ha hs

/-! ### Independent nodes -/

/-- Below the node, no two nodes side by side touch each other's data. -/
def Node.Independent (n : Node) : Prop :=
  ∀ i ns, group i ns ∈ n.all → i.mode = .parallel → ns.Pairwise Apart

theorem Node.Independent.of_mem {i : NodeInfo} (h : (group i ns).Independent) (hn : n ∈ ns) :
    n.Independent := fun j ms hm hj => h j ms (mem_all_of_mem hn hm) hj

theorem Node.SparesErrors.of_mem {i : NodeInfo} (h : (group i ns).SparesErrors) (hn : n ∈ ns) :
    n.SparesErrors := by
  intro p hp
  obtain ⟨c, hc, hout⟩ := List.mem_filterMap.mp hp
  exact h p (List.mem_filterMap.mpr ⟨c, mem_all_of_mem hn hc, hout⟩)

/-- **All runs of a node agree** if below it no two nodes side by side touch each other's data and
no leaf writes the error signal. -/
theorem settles_of_independent : ∀ (n : Node), n.Independent → n.SparesErrors → ∀ s,
    n.Settles answers s
  | .leaf i c, _, _, s => Task.settles_guard (fun s => Task.settles_leaf i c _ s) 0 s
  | .group i ns, hi, he, s => by
    have hns : ∀ n ∈ ns, ∀ s, n.Settles answers s := fun n hn s => by
      have := List.sizeOf_lt_of_mem hn
      exact settles_of_independent n (hi.of_mem hn) (he.of_mem hn) s
    refine Task.settles_guard (fun s => ?_) 0 s
    rcases hm : i.mode with _ | _
    · simp only [Task.ofBody, hm]
      exact Task.settles_series hns _ s
    · simp only [Task.ofBody, hm]
      exact settles_sideBySide (hi i ns (Node.self_mem_all _) hm) (fun n hn => he.of_mem hn)
        (fun n hn => hns n hn s) _

/-! ### Confluence -/

theorem Node.Completes.ends {n : Node} (h : n.Completes s τ o S) (ho : Obeys answers τ) :
    ∃ k, Task.Ends answers k n.width (.ofBody n) s o S :=
  ⟨_, τ, rfl, ho, h⟩

/-- **Nodes side by side that do not touch each other's data are confluent.** Let the nodes of a
group be apart and spare the error signal, let the answers depend on nothing but commands and
parameters, and let every node below which some nodes side by side are not apart have only one
result alone. Then a run of the group that comes to an end succeeds exactly if each node does so
alone; and if it succeeds, so do all runs of the group, and all runs of the nodes one after the
other in any order, and they all end in the same store. -/
theorem parallel_confluent {i : NodeInfo} (hi : i.mode = .parallel) (ha : ns.Pairwise Node.Apart)
    (he : ∀ n ∈ ns, n.SparesErrors) (hs : ∀ n ∈ ns, ¬ n.Independent → n.Settles answers s)
    (h : (Node.group i ns).Completes s τ o S) (ho : Obeys answers τ) :
    (o = .ok () ↔ ∀ n ∈ ns, ∃ S', n.Alone answers s (.ok ()) S') ∧
    (o = .ok () →
      (∀ τ' o' S', (Node.group i ns).Completes s τ' o' S' → Obeys answers τ' →
        o' = .ok () ∧ S' = S) ∧
      ∀ (j : NodeInfo) (ns' : List Node), j.mode = .series → ns'.Perm ns →
        (∃ τ', (Node.group j ns').Completes s τ' (.ok ()) S ∧ Obeys answers τ') ∧
        ∀ τ' o' S', (Node.group j ns').Completes s τ' o' S' → Obeys answers τ' →
          o' = .ok () ∧ S' = S) := by
  have hsettles : ∀ n ∈ ns, n.Settles answers s := by
    intro n hn
    by_cases hind : n.Independent
    · exact settles_of_independent n hind (he n hn) s
    · exact hs n hn hind
  have hbody : Task.ofBody (.group i ns) = Task.sideBySide (ns.map .guard) := by
    simp only [Task.ofBody, hi]
  -- the given run against another run of the group, and then against one of the series
  obtain ⟨k, hk⟩ := h.ends ho
  rw [hbody] at hk
  have hiff := ends_sideBySide_ok_iff ha he hsettles hk
  refine ⟨hiff, ?_⟩
  rintro rfl
  refine ⟨fun τ' o' S' h' ho' => ?_, fun j ns' hj hperm => ?_⟩
  · obtain ⟨k', hk'⟩ := h'.ends ho'
    rw [hbody] at hk'
    obtain ⟨hok, hS⟩ := settles_sideBySide ha he hsettles _ _ _ _ _ _ _ hk hk'
    exact ⟨hok.mp rfl, (hS rfl).symm⟩
  · have hbody' : Task.ofBody (.group j ns') = Task.andThen .done ns' := by
      simp only [Task.ofBody, hj]
    have ha' : ns'.Pairwise Node.Apart := hperm.symm.pairwise ha Node.Apart.symm
    have he' : ∀ n ∈ ns', n.SparesErrors := fun n hn => he n (hperm.mem_iff.mp hn)
    have hsettles' : ∀ n ∈ ns', n.Settles answers s := fun n hn => hsettles n (hperm.mem_iff.mp hn)
    obtain ⟨Ws', hWs', rfl⟩ : ∃ Ws', List.Forall₂ (Node.Makes answers s) ns' Ws' ∧
        S = s.setAll Ws'.flatten := by
      rcases of_ends_sideBySide ha he hk with ⟨e, hoe, -⟩ | ⟨-, Ws, hWs, rfl⟩
      · cases hoe
      · obtain ⟨Ws', hWs', hS⟩ := Node.Makes.perm hWs ha hperm
        exact ⟨Ws', hWs', hS.symm⟩
    refine ⟨?_, fun τ' o' S' h' ho' => ?_⟩
    · obtain ⟨l, τ', -, ho', hrun⟩ := ends_series hWs' ha' he' (Node.group j ns').width
        fun n _ => Store.AgreeOn.refl n.view s
      exact ⟨τ', by unfold Node.Completes; rw [hbody']; exact hrun, ho'⟩
    · obtain ⟨k', hk'⟩ := h'.ends ho'
      rw [hbody'] at hk'
      rcases of_ends_series ha' he' (fun n _ => Store.AgreeOn.refl n.view s) hk' with
        ⟨n, hn, e, S'', hfail⟩ | ⟨rfl, Vs, hVs, rfl⟩
      · obtain ⟨S₀, hok⟩ := Node.Makes.alone_of_mem hWs' n hn
        exact absurd hfail ((hsettles' n hn).not_error hok)
      · exact ⟨rfl, Node.Makes.unique hVs hWs' ha' hsettles'⟩

/-! ### Two groups -/

/-- The answer of a command that succeeds with `true`. -/
def yes : Answer := ⟨.ok (.bool true), none⟩

/-- Two leaves that write members of the same variable. -/
def members : List Node := [.leaf { out := "r.a" } "one", .leaf { out := "r.b" } "two"]

theorem replay_members :
    Task.replay (.ofBody (.group { mode := .parallel } members)) ⟨[]⟩
        ([[0], [1], [0], [1], [1], [0], [0], [1]].map (·, yes)) =
      some (.ok .done, ⟨[("r", .obj [("a", .bool true), ("b", .bool true)])]⟩) := by
  have h₁ : Store.set ⟨[]⟩ "r.b" (.bool true) = ⟨[("r", .obj [("b", .bool true)])]⟩ := rfl
  have h₂ : Store.errorRaised ⟨[("r", .obj [("b", .bool true)])]⟩ = false := rfl
  have h₃ : Store.set ⟨[("r", .obj [("b", .bool true)])]⟩ "r.a" (.bool true) =
      ⟨[("r", .obj [("a", .bool true), ("b", .bool true)])]⟩ := rfl
  have h₄ : Store.errorRaised ⟨[("r", .obj [("a", .bool true), ("b", .bool true)])]⟩ = false :=
    rfl
  simp [members, yes, Task.replay, Task.step, Task.step.stepAt, Task.ofBody, Task.sideBySide,
    Task.isDone, Task.onCondition, Task.endLeaf, Moved.inside, Except.map, Node.info,
    Step.params, h₁, h₂, h₃, h₄]

/-- The second leaf has ended before the first, and yet the first before the second leads to the
same store. -/
theorem members_in_turn : ∃ τ,
    (Node.group {} members).Completes ⟨[]⟩ τ (.ok ())
      ⟨[("r", .obj [("a", .bool true), ("b", .bool true)])]⟩ := by
  obtain ⟨τ, hobeys, hrun⟩ := exists_run_of_replay members.length replay_members
  have hleaf : ∀ n ∈ members, n.Independent := by
    intro n hn i ns hg
    simp only [members, List.mem_cons, List.not_mem_nil, or_false] at hn
    rcases hn with rfl | rfl <;> simp [Node.all] at hg
  have hgroup : (Node.group { mode := .parallel } members).Completes ⟨[]⟩ τ (.ok ())
      ⟨[("r", .obj [("a", .bool true), ("b", .bool true)])]⟩ := hrun
  obtain ⟨-, hconfluent⟩ := parallel_confluent rfl (by decide) (by decide)
    (fun n hn hdep => absurd (hleaf n hn) hdep) hgroup hobeys
  obtain ⟨τ', hτ', -⟩ := ((hconfluent rfl).2 {} members rfl (List.Perm.refl _)).1
  exact ⟨τ', hτ'⟩

/-- Two nodes of which the first is made of two that are not apart: one of them is skipped as long
as the other has not written. -/
def racing : List Node :=
  [.group { mode := .parallel }
    [.leaf { out := "x" } "write", .leaf { guard := "x", out := "y" } "read"],
    .leaf { out := "z" } "other"]

theorem parse_guard : Expr.parse "x" = .ok (.ident "x") :=
  Syntax.parse_of_lex (d := .ofPrimary (.identifier "x")) rfl (by decide) rfl

theorem replay_racing_skipped :
    Task.replay (.ofBody (.group { mode := .parallel } racing)) ⟨[]⟩
        ([[0], [0, 1], [0, 0], [0, 0], [0, 0], [0, 0], [0], [1], [1], [1], [1]].map (·, yes)) =
      some (.ok .done, ⟨[("x", .bool true), ("z", .bool true)]⟩) := by
  have h₀ : Condition.holds "x" ⟨[]⟩ = false := by
    rw [Condition.holds, Condition.check, Expr.evaluate, parse_guard]
    rfl
  have h₁ : Store.set ⟨[]⟩ "x" (.bool true) = ⟨[("x", .bool true)]⟩ := rfl
  have h₂ : Store.errorRaised ⟨[("x", .bool true)]⟩ = false := rfl
  have h₃ : Store.set ⟨[("x", .bool true)]⟩ "z" (.bool true) =
      ⟨[("x", .bool true), ("z", .bool true)]⟩ := rfl
  have h₄ : Store.errorRaised ⟨[("x", .bool true), ("z", .bool true)]⟩ = false := rfl
  simp [racing, yes, Task.replay, Task.step, Task.step.stepAt, Task.ofBody, Task.sideBySide,
    Task.isDone, Task.onCondition, Task.endLeaf, Moved.inside, Except.map, Node.info,
    Step.params, h₀, h₁, h₂, h₃, h₄]

theorem replay_racing_run :
    Task.replay (.ofBody (.group { mode := .parallel } racing)) ⟨[]⟩
        ([[0], [0, 0], [0, 0], [0, 0], [0, 0], [0, 1], [0, 1], [0, 1], [0, 1], [0], [1], [1], [1],
          [1]].map (·, yes)) =
      some (.ok .done, ⟨[("x", .bool true), ("y", .bool true), ("z", .bool true)]⟩) := by
  have h₀ : Condition.holds "x" ⟨[("x", .bool true)]⟩ = true := by
    rw [Condition.holds, Condition.check, Expr.evaluate, parse_guard]
    rfl
  have h₁ : Store.set ⟨[]⟩ "x" (.bool true) = ⟨[("x", .bool true)]⟩ := rfl
  have h₂ : Store.errorRaised ⟨[("x", .bool true)]⟩ = false := rfl
  have h₃ : Store.set ⟨[("x", .bool true)]⟩ "y" (.bool true) =
      ⟨[("x", .bool true), ("y", .bool true)]⟩ := rfl
  have h₄ : Store.errorRaised ⟨[("x", .bool true), ("y", .bool true)]⟩ = false := rfl
  have h₅ : Store.set ⟨[("x", .bool true), ("y", .bool true)]⟩ "z" (.bool true) =
      ⟨[("x", .bool true), ("y", .bool true), ("z", .bool true)]⟩ := rfl
  have h₆ : Store.errorRaised ⟨[("x", .bool true), ("y", .bool true), ("z", .bool true)]⟩ =
      false := rfl
  simp [racing, yes, Task.replay, Task.step, Task.step.stepAt, Task.ofBody, Task.sideBySide,
    Task.isDone, Task.onCondition, Task.endLeaf, Moved.inside, Except.map, Node.info,
    Step.params, h₀, h₁, h₂, h₃, h₄, h₅, h₆]

/-- Such a group ends in two stores, although its two nodes are apart, spare the error signal and
come to an end alone. -/
theorem racing_diverges :
    racing.Pairwise Node.Apart ∧ (∀ n ∈ racing, n.SparesErrors) ∧
    (∀ n ∈ racing, ∃ S, n.Alone (fun _ _ => yes) ⟨[]⟩ (.ok ()) S) ∧
    ∃ τ τ' S S',
      (Node.group { mode := .parallel } racing).Completes ⟨[]⟩ τ (.ok ()) S ∧
      Obeys (fun _ _ => yes) τ ∧
      (Node.group { mode := .parallel } racing).Completes ⟨[]⟩ τ' (.ok ()) S' ∧
      Obeys (fun _ _ => yes) τ' ∧ S ≠ S' := by
  have ha : racing.Pairwise Node.Apart := by decide
  have he : ∀ n ∈ racing, n.SparesErrors := by decide
  obtain ⟨τ, hobeys, hrun⟩ := exists_run_of_replay racing.length replay_racing_skipped
  obtain ⟨τ', hobeys', hrun'⟩ := exists_run_of_replay racing.length replay_racing_run
  refine ⟨ha, he, ?_, τ, τ', _, _, hrun, hobeys, hrun', hobeys', by simp⟩
  have hends : Task.Ends (fun _ _ => yes) τ.length racing.length
      (Task.sideBySide (racing.map .guard)) ⟨[]⟩ (.ok ())
      ⟨[("x", .bool true), ("z", .bool true)]⟩ := ⟨τ, rfl, hobeys, hrun⟩
  rcases of_ends_sideBySide ha he hends with ⟨e, h, -⟩ | ⟨-, Ws, hWs, -⟩
  · cases h
  · exact Node.Makes.alone_of_mem hWs

end CommandChain
