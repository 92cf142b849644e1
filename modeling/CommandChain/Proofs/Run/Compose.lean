import CommandChain.Proofs.Run.Local

/-!
# Runs of composed tasks

A run of a loop is a run of its body and then one from where the loop condition is to be checked; a
run of a series is a run of its first node and then one of the others (`Ends.of_inside`).

A task settles in a store if all its runs that come to an end agree. A leaf settles, and whatever is
made of nodes that settle by guards, loops and series does so too (`settles_guard`,
`settles_series`). -/

namespace CommandChain

variable {answers : String → List Json → Answer} {s s' S S' : Store} {τ : List Mark}
  {o o' : Except RunError Unit} {w k k' : Nat} {t : Task}

/-! ### The first act of a run -/

namespace Run

variable {r : Except RunError Task}

theorem of_nil (h : Run w t s [] r S) : r = .ok t ∧ S = s := by
  generalize hτ : ([] : List Mark) = τ at h
  cases h with
  | start => exact ⟨rfl, rfl⟩
  | step => simp at hτ

/-- A run begins with a move, and goes on from where it leads. -/
theorem uncons {mk : Mark} (h : Run w t s (mk :: τ) r S) :
    ∃ answer m, t.Moves answer s w mk.position mk.act m ∧
      ((τ = [] ∧ r = m.task ∧ S = m.store) ∨ ∃ t', m.task = .ok t' ∧ Run w t' m.store τ r S) := by
  generalize hτ : mk :: τ = τ' at h
  induction h generalizing τ with
  | start => cases hτ
  | @step τ₀ t₁ s₁ answer p act m h hm ih =>
    rcases τ₀ with _ | ⟨mk', τ₀⟩
    · obtain ⟨ht, rfl⟩ := h.of_nil
      cases ht
      cases hτ
      exact ⟨answer, m, hm, .inl ⟨rfl, rfl, rfl⟩⟩
    · obtain ⟨rfl, rfl⟩ := List.cons.inj hτ
      obtain ⟨answer', m', hm', ⟨rfl, ht, rfl⟩ | ⟨t', ht, hrun⟩⟩ := ih rfl
      · exact ⟨answer', m', hm', .inr ⟨t₁, ht.symm, Run.start.step hm⟩⟩
      · exact ⟨answer', m', hm', .inr ⟨t', ht, hrun.step hm⟩⟩

theorem of_done (h : Run w .done s τ r S) : τ = [] ∧ r = .ok .done ∧ S = s := by
  rcases τ with _ | ⟨mk, τ⟩
  · exact ⟨rfl, h.of_nil⟩
  · obtain ⟨answer, m, hm, -⟩ := h.uncons
    exact absurd rfl hm.ne_done

end Run

namespace Task

/-! ### Ends -/

/-- `Ends answers k w t s o S`: with the given answers the task `t` can be run in the store `s` to
its end, in `k` acts, with the outcome `o` and the final store `S`. -/
def Ends (answers : String → List Json → Answer) (k w : Nat) (t : Task) (s : Store)
    (o : Except RunError Unit) (S : Store) : Prop :=
  ∃ τ, τ.length = k ∧ Obeys answers τ ∧ Run w t s τ (o.map fun _ => .done) S

/-- All runs of a task that come to an end agree: on whether they fail and, if they do not, on the
final store. -/
def Settles (answers : String → List Json → Answer) (w : Nat) (t : Task) (s : Store) : Prop :=
  ∀ k k' o o' S S', Ends answers k w t s o S → Ends answers k' w t s o' S' →
    (o = .ok () ↔ o' = .ok ()) ∧ (o = .ok () → S = S')

namespace Ends

theorem of_done (h : Ends answers k w .done s o S) : o = .ok () ∧ S = s := by
  obtain ⟨τ, -, -, h⟩ := h
  obtain ⟨-, ho, rfl⟩ := h.of_done
  rcases o with e | ⟨⟩
  · cases ho
  · exact ⟨rfl, rfl⟩

/-- A task that is not done makes a move, which ends the run or leads on. -/
theorem uncons (h : Ends answers k w t s o S) (ht : t ≠ .done) :
    ∃ answer p act m, t.Moves answer s w p act m ∧
      (∀ x, act.reply? = some x → x.2 = answers x.1.command x.1.params) ∧
      ((m.task = o.map (fun _ => .done) ∧ S = m.store) ∨
        ∃ t' k', m.task = .ok t' ∧ k' < k ∧ Ends answers k' w t' m.store o S) := by
  obtain ⟨τ, rfl, hobeys, h⟩ := h
  rcases τ with _ | ⟨⟨p, act⟩, τ⟩
  · obtain ⟨ho, -⟩ := h.of_nil
    rcases o with e | ⟨⟩
    · cases ho
    · exact absurd (Except.ok.inj ho).symm ht
  · obtain ⟨hfirst, hrest⟩ := obeys_append.mp (show Obeys answers ([⟨p, act⟩] ++ τ) from hobeys)
    obtain ⟨answer, m, hm, ⟨-, hr, hS⟩ | ⟨t', ht', hrun⟩⟩ := h.uncons
    · exact ⟨answer, p, act, m, hm, obeys_singleton.mp hfirst, .inl ⟨hr.symm, hS⟩⟩
    · exact ⟨answer, p, act, m, hm, obeys_singleton.mp hfirst,
        .inr ⟨t', τ.length, ht', by simp, τ, rfl, hrest, hrun⟩⟩

end Ends

/-! ### Tasks inside of tasks -/

/-- The moves of `f t` are those of `t`, with width `w` outside and `w'` inside, as long as `t` is
not done. -/
def Surrounds (f : Task → Task) (w w' : Nat) : Prop :=
  ∀ t answer s p act m, t ≠ .done → Moves answer s w (f t) p act m →
    ∃ p' m', Moves answer s w' t p' act m' ∧ m = m'.inside f

theorem surrounds_loop (n : Node) (w : Nat) : Surrounds (.loop n) w n.width := by
  intro t answer s p act m ht h
  cases h with
  | again => exact absurd rfl ht
  | loop h => exact ⟨_, _, h, rfl⟩

theorem surrounds_andThen (ns : List Node) (w : Nat) : Surrounds (andThen · ns) w 0 := by
  intro t answer s p act m ht h
  simp only [andThen_of_ne_done ht] at h
  cases h with
  | series h => exact ⟨_, _, h, rfl⟩

/-- A run of a task inside of another is one of the task, or one of the task to its end and another
one from there. -/
theorem run_of_inside {f : Task → Task} {w' : Nat} {t₀ : Task} {r : Except RunError Task}
    (hf : Surrounds f w w') (h : Run w (f t₀) s τ r S) :
    (∃ τ' r', Run w' t₀ s τ' r' S ∧ r = r'.map f ∧ replies τ' = replies τ) ∨
      ∃ τ₁ τ₂ S₁, Run w' t₀ s τ₁ (.ok .done) S₁ ∧ Run w (f .done) S₁ τ₂ r S ∧
        replies τ = replies τ₁ ++ replies τ₂ ∧ τ₂.length ≤ τ.length := by
  induction h with
  | start => exact .inl ⟨[], .ok t₀, .start, rfl, rfl⟩
  | @step τ t s' answer p act m h hm ih =>
    rcases ih with ⟨τ', r', hrun, hr, hreplies⟩ | ⟨τ₁, τ₂, S₁, h₁, h₂, hreplies, hlen⟩
    · rcases r' with e | u
      · cases hr
      · cases hr
        by_cases hu : u = .done
        · -- the task inside is done: this act is the first of what follows
          subst hu
          refine .inr ⟨τ', [⟨p, act⟩], s', hrun, ?_, ?_, by simp⟩
          · exact Run.start.step hm
          · rw [replies_append, hreplies]
        · obtain ⟨p', m', hm', rfl⟩ := hf u _ _ _ _ _ hu hm
          refine .inl ⟨τ' ++ [⟨p', act⟩], m'.task, hrun.step hm', rfl, ?_⟩
          rw [replies_append, replies_append, hreplies, replies_singleton, replies_singleton]
    · refine .inr ⟨τ₁, τ₂ ++ [⟨p, act⟩], S₁, h₁, h₂.step hm, ?_, by simpa using hlen⟩
      rw [replies_append, replies_append, hreplies, List.append_assoc]

/-- **A task inside of another** fails with it, or ends before what follows. -/
theorem Ends.of_inside {f : Task → Task} {w' : Nat} {t₀ : Task} (hf : Surrounds f w w')
    (hd : ∀ t, f t = .done → t = .done) (h : Ends answers k w (f t₀) s o S) :
    (∃ k₁ e, o = .error e ∧ Ends answers k₁ w' t₀ s (.error e) S) ∨
      ∃ k₁ k₂ S₁, Ends answers k₁ w' t₀ s (.ok ()) S₁ ∧ Ends answers k₂ w (f .done) S₁ o S ∧
        k₂ ≤ k := by
  obtain ⟨τ, rfl, hobeys, h⟩ := h
  unfold Obeys at hobeys
  rcases run_of_inside hf h with ⟨τ', r', hrun, hr, hreplies⟩ |
    ⟨τ₁, τ₂, S₁, h₁, h₂, hreplies, hlen⟩
  · have hobeys' : Obeys answers τ' := by rwa [← hreplies] at hobeys
    rcases o with e | ⟨⟩
    · rcases r' with e' | u
      · cases hr
        exact .inl ⟨_, e, rfl, τ', rfl, hobeys', hrun⟩
      · cases hr
    · rcases r' with e' | u
      · cases hr
      · have hu : f u = .done := (Except.ok.inj hr).symm
        have hu' := hd u hu
        subst hu'
        refine .inr ⟨_, 0, S, ⟨τ', rfl, hobeys', hrun⟩, ⟨[], rfl, obeys_nil, ?_⟩, by simp⟩
        rw [hu]
        exact .start
  · rw [hreplies] at hobeys
    obtain ⟨ho₁, ho₂⟩ := List.forall_mem_append.mp hobeys
    exact .inr ⟨_, _, S₁, ⟨τ₁, rfl, ho₁, h₁⟩, ⟨τ₂, rfl, ho₂, h₂⟩, hlen⟩

/-! ### Conditions -/

/-- The only thing to do of `t` in `s` is to check a condition of `n`. -/
def Checks (t : Task) (w : Nat) (condition : String) (n : Node) : Prop :=
  ∀ answer s p act m, Moves answer s w t p act m → m = onCondition condition n s ∧ act.reply? = none

theorem checks_guard (n : Node) (w : Nat) : Checks (.guard n) w n.info.guard n := by
  intro answer s p act m h
  cases h
  exact ⟨rfl, rfl⟩

theorem checks_idle (n : Node) (w : Nat) : Checks (.loop n .done) w n.info.loop n := by
  intro answer s p act m h
  cases h with
  | again => exact ⟨rfl, rfl⟩
  | loop h => exact absurd rfl h.ne_done

theorem Ends.of_checks {condition : String} {n : Node} (hc : Checks t w condition n)
    (ht : t ≠ .done) (h : Ends answers k w t s o S) :
    (Condition.holds condition s = false ∧ o = .ok () ∧ S = s) ∨
      (Condition.holds condition s = true ∧
        ∃ k', k' < k ∧ Ends answers k' w (.loop n (ofBody n)) s o S) := by
  obtain ⟨answer, p, act, m, hm, -, hnext⟩ := h.uncons ht
  obtain ⟨rfl, -⟩ := hc _ _ _ _ _ hm
  rcases hb : Condition.holds condition s with _ | _
  · refine .inl ⟨rfl, ?_⟩
    rcases hnext with ⟨ho, rfl⟩ | ⟨t', k', ht', -, hrun⟩
    · rcases o with e | ⟨⟩
      · cases ho
      · exact ⟨rfl, rfl⟩
    · rw [onCondition_eq_ok, hb] at ht'
      subst ht'
      exact hrun.of_done
  · refine .inr ⟨rfl, ?_⟩
    rcases hnext with ⟨ho, -⟩ | ⟨t', k', ht', hk, hrun⟩
    · rcases o with e | ⟨⟩
      · cases ho
      · have := onCondition_eq_ok.mp ho
        simp [hb] at this
    · rw [onCondition_eq_ok, hb] at ht'
      subst ht'
      exact ⟨k', hk, hrun⟩

/-! ### What settles -/

theorem settles_done (w : Nat) (s : Store) : Settles answers w .done s := by
  intro k k' o o' S S' h h'
  obtain ⟨rfl, rfl⟩ := h.of_done
  obtain ⟨rfl, rfl⟩ := h'.of_done
  exact ⟨Iff.rfl, fun _ => rfl⟩

theorem Ends.of_awaiting {info : NodeInfo} {command : String} {params : List Json}
    (h : Ends answers k w (.awaiting info command params) s o S) :
    o.map (fun _ => .done) = (endLeaf info command params (answers command params) s).task ∧
      S = (endLeaf info command params (answers command params) s).store := by
  obtain ⟨answer, p, act, m, hm, hreply, hnext⟩ := h.uncons (by simp)
  cases hm with
  | finish w info command params =>
    have hanswer : answer = answers command params := hreply _ rfl
    subst hanswer
    rcases hnext with ⟨ho, rfl⟩ | ⟨t', k', ht', -, hrun⟩
    · exact ⟨ho.symm, rfl⟩
    · have hdone := endLeaf_eq_ok ht'
      subst hdone
      obtain ⟨rfl, rfl⟩ := hrun.of_done
      exact ⟨ht'.symm, rfl⟩

theorem settles_leaf (info : NodeInfo) (command : String) (w : Nat) (s : Store) :
    Settles answers w (.leaf info command) s := by
  have hleaf : ∀ k o S, Ends answers k w (.leaf info command) s o S →
      ∃ k', Ends answers k' w (.awaiting info command (Step.params info.ins s)) s o S := by
    intro k o S h
    obtain ⟨answer, p, act, m, hm, -, hnext⟩ := h.uncons (by simp)
    cases hm with
    | start w info command =>
      rcases hnext with ⟨ho, -⟩ | ⟨t', k', ht', -, hrun⟩
      · rcases o with e | ⟨⟩ <;> cases ho
      · cases ht'
        exact ⟨k', hrun⟩
  intro k k' o o' S S' h h'
  obtain ⟨l, h⟩ := hleaf k o S h
  obtain ⟨l', h'⟩ := hleaf k' o' S' h'
  obtain ⟨ho, rfl⟩ := h.of_awaiting
  obtain ⟨ho', rfl⟩ := h'.of_awaiting
  have hok : ∀ o : Except RunError Unit, o = .ok () ↔ o.map (fun _ => Task.done) = .ok .done := by
    intro o
    rcases o with e | ⟨⟩ <;> simp [Except.map]
  refine ⟨?_, fun _ => rfl⟩
  rw [hok, hok, ho, ho']

/-- **A loop settles if its body does so in every store.** -/
theorem settles_loop {n : Node} (hbody : ∀ s, Settles answers n.width (ofBody n) s) (w : Nat)
    (s : Store) : Settles answers w (.loop n (ofBody n)) s := by
  have hin := surrounds_loop n w
  intro k
  -- by the number of acts of the first run: each further round has fewer
  induction k using Nat.strongRecOn generalizing s with
  | ind k ih =>
    intro k' o o' S S' h h'
    rcases h.of_inside hin (by simp) with ⟨k₁, e, rfl, h₁⟩ | ⟨k₁, k₂, S₁, h₁, h₂, hk⟩ <;>
      rcases h'.of_inside hin (by simp) with ⟨k₁', e', rfl, h₁'⟩ | ⟨k₁', k₂', S₁', h₁', h₂', -⟩
    · simp
    · have := (hbody s _ _ _ _ _ _ h₁ h₁').1
      simp at this
    · have := (hbody s _ _ _ _ _ _ h₁ h₁').1
      simp at this
    · have hS := (hbody s _ _ _ _ _ _ h₁ h₁').2 rfl
      subst hS
      rcases h₂.of_checks (checks_idle n w) (by simp) with ⟨hc, rfl, rfl⟩ | ⟨hc, k₃, hk₃, h₃⟩ <;>
        rcases h₂'.of_checks (checks_idle n w) (by simp) with ⟨hc', rfl, rfl⟩ | ⟨hc', k₃', -, h₃'⟩
      · exact ⟨Iff.rfl, fun _ => rfl⟩
      · rw [hc] at hc'
        cases hc'
      · rw [hc] at hc'
        cases hc'
      · exact ih k₃ (by omega) S₁ k₃' o o' S S' h₃ h₃'

/-- **A node settles if its body does so in every store.** -/
theorem settles_guard {n : Node} (hbody : ∀ s, Settles answers n.width (ofBody n) s) (w : Nat)
    (s : Store) : Settles answers w (.guard n) s := by
  intro k k' o o' S S' h h'
  rcases h.of_checks (checks_guard n w) (by simp) with ⟨hc, rfl, rfl⟩ | ⟨hc, l, -, h₁⟩ <;>
    rcases h'.of_checks (checks_guard n w) (by simp) with ⟨hc', rfl, rfl⟩ | ⟨hc', l', -, h₁'⟩
  · exact ⟨Iff.rfl, fun _ => rfl⟩
  · rw [hc] at hc'
    cases hc'
  · rw [hc] at hc'
    cases hc'
  · exact settles_loop hbody w s _ _ _ _ _ _ h₁ h₁'

theorem Ends.of_series {n : Node} {ns : List Node}
    (h : Ends answers k w (andThen .done (n :: ns)) s o S) :
    (∃ k₁ e, o = .error e ∧ Ends answers k₁ 0 (.guard n) s (.error e) S) ∨
      ∃ k₁ k₂ S₁, Ends answers k₁ 0 (.guard n) s (.ok ()) S₁ ∧
        Ends answers k₂ w (andThen .done ns) S₁ o S := by
  have hd : ∀ t, andThen t ns = .done → t = .done := by
    intro t ht
    by_contra hne
    rw [andThen_of_ne_done hne] at ht
    cases ht
  have hfirst : Ends answers k w ((fun t => andThen t ns) (.guard n)) s o S := h
  rcases hfirst.of_inside (surrounds_andThen ns w) hd with h | ⟨k₁, k₂, S₁, h₁, h₂, -⟩
  · exact .inl h
  · exact .inr ⟨k₁, k₂, S₁, h₁, h₂⟩

theorem run_in_series {t₀ : Task} {r : Except RunError Task} (ns : List Node) (w : Nat)
    (h : Run 0 t₀ s τ r S) :
    ∃ τ', Run w (andThen t₀ ns) s τ' (r.map (andThen · ns)) S ∧ replies τ' = replies τ := by
  induction h with
  | start => exact ⟨[], .start, rfl⟩
  | @step τ t S answer p act m _ hm ih =>
    obtain ⟨τ', hrun, hreplies⟩ := ih
    have hm' : Moves answer S w (andThen t ns) (.series (w - ns.length - 1) :: p) act
        (m.inside (andThen · ns)) := by
      rw [andThen_of_ne_done hm.ne_done]
      exact .series hm
    refine ⟨τ' ++ [⟨_, act⟩], Run.step hrun hm', ?_⟩
    rw [replies_append, replies_append, hreplies, replies_singleton, replies_singleton]

theorem Ends.series {n : Node} {ns : List Node} {S₁ : Store}
    (h₁ : Ends answers k 0 (.guard n) s (.ok ()) S₁)
    (h₂ : Ends answers k' w (andThen .done ns) S₁ o S) :
    ∃ l, Ends answers l w (andThen .done (n :: ns)) s o S := by
  obtain ⟨τ₁, -, ho₁, h₁⟩ := h₁
  obtain ⟨τ₂, -, ho₂, h₂⟩ := h₂
  obtain ⟨τ', hrun, hreplies⟩ := run_in_series ns w h₁
  refine ⟨_, τ' ++ τ₂, rfl, obeys_append.mpr ⟨?_, ho₂⟩, hrun.trans h₂⟩
  unfold Obeys
  rw [hreplies]
  exact ho₁

/-- **A series settles if its nodes do so in every store.** -/
theorem settles_series : ∀ {ns : List Node}, (∀ n ∈ ns, ∀ s, Settles answers 0 (.guard n) s) →
    ∀ (w : Nat) (s : Store), Settles answers w (andThen .done ns) s
  | [], _, w, s => settles_done w s
  | n :: ns, hns, w, s => by
    have hn := hns n List.mem_cons_self s
    have hrest := settles_series fun n' hn' => hns n' (List.mem_cons_of_mem n hn')
    intro k k' o o' S S' h h'
    rcases h.of_series with ⟨k₁, e, rfl, h₁⟩ | ⟨k₁, k₂, S₁, h₁, h₂⟩ <;>
      rcases h'.of_series with ⟨k₁', e', rfl, h₁'⟩ | ⟨k₁', k₂', S₁', h₁', h₂'⟩
    · simp
    · have := (hn _ _ _ _ _ _ h₁ h₁').1
      simp at this
    · have := (hn _ _ _ _ _ _ h₁ h₁').1
      simp at this
    · have hS := (hn _ _ _ _ _ _ h₁ h₁').2 rfl
      subst hS
      exact hrest w S₁ _ _ _ _ _ _ h₂ h₂'

end Task

end CommandChain
