import CommandChain.Proofs.Run.Parts

/-!
# The error signal

A run of a node succeeds exactly when every leaf that was started has ended with a success and no
leaf has left the error flag up (`completes_ok_iff`). What carries it is that the leaves that wait
are those whose start is the last act at their position (`Run.waits_iff`).

`Store.Tells` says which message a store has beside the error flag, and `Act.cause_of_failure?`
where an error comes from. -/

namespace CommandChain

/-! ### The message of a raised error -/

/-- `s.Tells msg`: a step that finds the error flag up in `s` fails with `msg`. -/
inductive Store.Tells (s : Store) : String → Prop
  | absent : s.lookup errorMessage = none → s.Tells defaultMessage
  | null : s.lookup errorMessage = some .null → s.Tells defaultMessage
  | empty : s.lookup errorMessage = some (.str "") → s.Tells defaultMessage
  | zero {n : Number} : s.lookup errorMessage = some (.num n) → (n.toDouble == 0.0) = true →
    s.Tells defaultMessage
  | text {t : String} : s.lookup errorMessage = some (.str t) → t ≠ "" → s.Tells t
  | value {v : Json} : s.lookup errorMessage = some v → (∀ t, v ≠ .str t) → v ≠ .null →
    (∀ n, v = .num n → (n.toDouble == 0.0) = false) → s.Tells v.text

theorem Store.tells_raisedMessage (s : Store) : s.Tells (s.raisedMessage?.getD defaultMessage) := by
  unfold raisedMessage?
  rcases h : s.lookup errorMessage with _ | v
  · exact .absent h
  · cases v with
    | null => exact .null h
    | str t =>
      by_cases ht : t = ""
      · subst ht
        exact .empty h
      · have : t.isEmpty = false := by simpa [String.isEmpty_iff] using ht
        simp only [this, Bool.false_eq_true, if_false, Option.getD_some]
        exact .text h ht
    | num n =>
      rcases hz : n.toDouble == 0.0 with _ | _
      · simp only [hz, Bool.false_eq_true, if_false, Option.getD_some]
        exact .value h (by simp) (by simp) fun n' hn => by cases hn; exact hz
      · simp only [hz, if_true, Option.getD_none]
        exact .zero h hz
    | bool b => exact .value h (by simp) (by simp) (by simp)
    | arr items => exact .value h (by simp) (by simp) (by simp)
    | obj ms => exact .value h (by simp) (by simp) (by simp)

/-- **The error of a leaf that fails** is that of its command, or the message in the store that it
leaves with the error flag up. -/
theorem Act.cause_of_failure? {c : Call} {answer : Answer} {s : Store} {e : RunError}
    (h : (Act.finish c answer s).failure? = some e) :
    (∃ f, answer.result = .error f ∧ e = f.error) ∨
      ((∃ v, answer.result = .ok v) ∧ s.errorRaised = true ∧
        ∃ msg, s.Tells msg ∧ e = .raised msg) := by
  rcases hr : answer.result with f | v
  · simp only [failure?, hr, Option.some.injEq] at h
    exact .inl ⟨f, rfl, h.symm⟩
  · simp only [failure?, hr] at h
    split_ifs at h with hs
    cases h
    exact .inr ⟨⟨v, rfl⟩, hs, _, s.tells_raisedMessage, rfl⟩

theorem Act.ok_of_failure? {c : Call} {answer : Answer} {s : Store}
    (h : (Act.finish c answer s).failure? = none) :
    (∃ v, answer.result = .ok v) ∧ s.errorRaised = false := by
  rcases hr : answer.result with f | v
  · simp [failure?, hr] at h
  · simp only [failure?, hr] at h
    split_ifs at h with hs
    exact ⟨⟨v, rfl⟩, by simpa using hs⟩

/-! ### The leaves that wait -/

namespace Task

theorem waits_awaiting_iff {c : Call} {info : NodeInfo} {command : String}
    {params : List Json} {w : Nat} {q : Position} :
    Waits c w (.awaiting info command params) q ↔ q = [] ∧ c = ⟨info, command, params⟩ := by
  constructor
  · intro h
    cases h
    exact ⟨rfl, rfl⟩
  · rintro ⟨rfl, rfl⟩
    exact .here w

namespace Moves

variable {answer : Answer} {s : Store} {w : Nat} {t t' : Task} {p q : Position}
  {act : Act} {m : Moved} {c : Call}

/-- **After a move** the leaf that it started waits at its position; elsewhere nothing has
changed. -/
theorem waits_iff (h : Moves answer s w t p act m) (ht : m.task = .ok t') :
    Waits c w t' q ↔ act = .start c ∧ q = p ∨ q ≠ p ∧ Waits c w t q := by
  have hu : (Task.awaiting c.info c.command c.params).isAtom := rfl
  induction h generalizing t' q with
  | guard w n =>
    rw [onCondition_eq_ok] at ht
    subst ht
    constructor
    · intro h
      obtain ⟨-, ⟨n', hn⟩, -⟩ := Part.ite hu h
      cases hn
    · rintro (⟨h, -⟩ | ⟨-, h⟩) <;> cases h
  | start w info command =>
    cases ht
    rw [waits_awaiting_iff]
    constructor
    · rintro ⟨rfl, rfl⟩
      exact .inl ⟨rfl, rfl⟩
    · rintro (⟨h, rfl⟩ | ⟨-, h⟩)
      · cases h
        exact ⟨rfl, rfl⟩
      · cases h
  | finish w info command params =>
    rw [endLeaf_eq_ok ht]
    constructor
    · exact fun h => absurd h (Part.not_done hu)
    · rintro (⟨h, -⟩ | ⟨hq, h⟩)
      · cases h
      · exact absurd (waits_awaiting_iff.mp h).1 hq
  | again w n =>
    rw [onCondition_eq_ok] at ht
    subst ht
    constructor
    · intro h
      obtain ⟨-, ⟨n', hn⟩, -⟩ := Part.ite hu h
      cases hn
    · rintro (⟨h, -⟩ | ⟨-, h⟩)
      · cases h
      · exact absurd ((Part.loop_iff hu).mp h) (Part.not_done hu)
  | @loop w n body p act m _ ih =>
    obtain ⟨body', hb, rfl⟩ := Moved.inside_eq_ok.mp ht
    unfold Waits at ih ⊢
    rw [Part.loop_iff hu, Part.loop_iff hu]
    exact ih hb
  | @series w first rest p act m _ ih =>
    obtain ⟨first', hf, rfl⟩ := Moved.inside_eq_ok.mp ht
    unfold Waits at ih ⊢
    rw [Part.andThen_iff hu, Part.series_iff hu]
    constructor
    · rintro (⟨q', rfl, h⟩ | ⟨-, n, ns', -, -, hn⟩)
      · rcases (ih hf).mp h with ⟨ha, rfl⟩ | ⟨hq, h⟩
        · exact .inl ⟨ha, rfl⟩
        · exact .inr ⟨by simpa using hq, q', rfl, h⟩
      · cases hn
    · rintro (⟨ha, rfl⟩ | ⟨hq, q', rfl, h⟩)
      · exact .inl ⟨p, rfl, (ih hf).mpr (.inl ⟨ha, rfl⟩)⟩
      · exact .inl ⟨q', rfl, (ih hf).mpr (.inr ⟨by simpa using hq, h⟩)⟩
  | @parallel w k ts t p act m htk _ ih =>
    obtain ⟨u, hm, rfl⟩ := Moved.inside_eq_ok.mp ht
    have hk : k < ts.length := (List.getElem?_eq_some_iff.mp htk).1
    unfold Waits at ih ⊢
    rw [Part.sideBySide_iff hu, Part.parallel_iff hu]
    constructor
    · rintro ⟨k', t'', q', ht'', rfl, h⟩
      rw [List.getElem?_set] at ht''
      split_ifs at ht'' with hkk
      · subst hkk
        cases ht''
        rcases (ih hm).mp h with ⟨ha, rfl⟩ | ⟨hq, h⟩
        · exact .inl ⟨ha, rfl⟩
        · exact .inr ⟨by simpa using hq, k, t, q', htk, rfl, h⟩
      · exact .inr ⟨by simp [Ne.symm hkk], k', t'', q', ht'', rfl, h⟩
    · rintro (⟨ha, rfl⟩ | ⟨hq, k', t'', q', ht'', rfl, h⟩)
      · exact ⟨k, u, p, by simp [hk], rfl, (ih hm).mpr (.inl ⟨ha, rfl⟩)⟩
      · by_cases hkk : k = k'
        · subst hkk
          rw [htk, Option.some.injEq] at ht''
          subst ht''
          exact ⟨k, u, q', by simp [hk], rfl, (ih hm).mpr (.inr ⟨by simpa using hq, h⟩)⟩
        · exact ⟨k', t'', q', by rw [List.getElem?_set_ne hkk, ht''], rfl, h⟩

theorem finish_iff (h : Moves answer s w t p act m) :
    Waits c w t p ↔ ∃ answer' s', act = .finish c answer' s' := by
  have hu : (Task.awaiting c.info c.command c.params).isAtom := rfl
  induction h with
  | guard w n => exact ⟨(fun h => nomatch h), (fun ⟨_, _, h⟩ => nomatch h)⟩
  | start w info command => exact ⟨(fun h => nomatch h), (fun ⟨_, _, h⟩ => nomatch h)⟩
  | finish w info command params =>
    rw [waits_awaiting_iff]
    constructor
    · rintro ⟨-, rfl⟩
      exact ⟨_, _, rfl⟩
    · rintro ⟨_, _, h⟩
      cases h
      exact ⟨rfl, rfl⟩
  | again w n =>
    refine ⟨fun h => ?_, (fun ⟨_, _, h⟩ => nomatch h)⟩
    exact absurd ((Part.loop_iff hu).mp h) (Part.not_done hu)
  | loop _ ih =>
    exact (Part.loop_iff hu).trans ih
  | series _ ih =>
    refine (Part.series_iff hu).trans (Iff.trans ?_ ih)
    constructor
    · rintro ⟨q', hq, h⟩
      cases hq
      exact h
    · exact fun h => ⟨_, rfl, h⟩
  | parallel htk _ ih =>
    refine (Part.parallel_iff hu).trans (Iff.trans ?_ ih)
    constructor
    · rintro ⟨k', t', q', ht', hq, h⟩
      cases hq
      rw [htk, Option.some.injEq] at ht'
      rw [ht']
      exact h
    · exact fun h => ⟨_, _, _, htk, rfl, h⟩

end Moves

end Task

/-- The start of a leaf is the last act at its position. -/
def Unanswered (τ : List Mark) (p : Position) (c : Call) : Prop :=
  ∃ l l', τ = l ++ ⟨p, .start c⟩ :: l' ∧ ∀ mk ∈ l', mk.position ≠ p

theorem unanswered_snoc_iff {τ : List Mark} {p q : Position} {act : Act} {c : Call} :
    Unanswered (τ ++ [⟨p, act⟩]) q c ↔ act = .start c ∧ q = p ∨ q ≠ p ∧ Unanswered τ q c := by
  constructor
  · rintro ⟨l, l', hτ, hl⟩
    rcases snoc_eq_append_cons hτ with ⟨-, -, hm⟩ | ⟨l'', rfl, rfl⟩
    · cases hm
      exact .inl ⟨rfl, rfl⟩
    · exact .inr ⟨(hl ⟨p, act⟩ (by simp)).symm, l, l'', rfl, fun mk hmk => hl mk (by simp [hmk])⟩
  · rintro (⟨rfl, rfl⟩ | ⟨hq, l, l', rfl, hl⟩)
    · exact ⟨τ, [], rfl, by simp⟩
    · refine ⟨l, l' ++ [⟨p, act⟩], by simp, fun mk hmk => ?_⟩
      rcases List.mem_append.mp hmk with hmk | hmk
      · exact hl mk hmk
      · rw [List.mem_singleton.mp hmk]
        exact hq.symm

/-- Every leaf that was started has ended with a success before anything else was done at its
position. -/
def LeavesSucceed (τ : List Mark) : Prop :=
  ∀ l p c l', τ = l ++ ⟨p, .start c⟩ :: l' →
    ∃ l₁ answer s l₂, l' = l₁ ++ ⟨p, .finish c answer s⟩ :: l₂ ∧ (∀ mk ∈ l₁, mk.position ≠ p) ∧
      ∃ v, answer.result = .ok v

/-- No leaf that wrote a value has left the error flag up. -/
def FlagStaysDown (τ : List Mark) : Prop :=
  ∀ mk ∈ τ, ∀ c answer s, mk.act = .finish c answer s → mk.act.write?.isSome → s.errorRaised = false

namespace Run

variable {w : Nat} {t₀ : Task} {s₀ s : Store} {τ : List Mark} {r : Except RunError Task}

/-- **The leaves that wait** are those whose start is the last act at their position. -/
theorem waits_iff (h : Run w t₀ s₀ τ r s) (h₀ : ∀ c q, ¬ Task.Waits c w t₀ q) :
    ∀ t, r = .ok t → ∀ c q, Task.Waits c w t q ↔ Unanswered τ q c := by
  induction h with
  | start =>
    intro t ht c q
    cases ht
    refine ⟨fun h => absurd h (h₀ c q), ?_⟩
    rintro ⟨l, l', hl, -⟩
    simp at hl
  | step _ hm ih =>
    intro t ht c q
    rw [hm.waits_iff ht, unanswered_snoc_iff, ih _ rfl]

/-- A leaf that was started waits still, or has ended before anything else was done at its
position. -/
theorem ended_or_unanswered (h : Run w t₀ s₀ τ r s) (h₀ : ∀ c q, ¬ Task.Waits c w t₀ q)
    {l l' : List Mark} {p : Position} {c : Call} (hτ : τ = l ++ ⟨p, .start c⟩ :: l') :
    (∀ mk ∈ l', mk.position ≠ p) ∨
      ∃ l₁ answer s' l₂, l' = l₁ ++ ⟨p, .finish c answer s'⟩ :: l₂ ∧
        ∀ mk ∈ l₁, mk.position ≠ p := by
  induction h generalizing l' with
  | start => simp at hτ
  | @step τ t s answer q act m h hm ih =>
    rcases snoc_eq_append_cons hτ with ⟨rfl, -, -⟩ | ⟨l'', rfl, rfl⟩
    · exact .inl (by simp)
    · rcases ih rfl with hl | ⟨l₁, answer', s', l₂, rfl, hl⟩
      · by_cases hq : q = p
        · subst hq
          have hw := (h.waits_iff h₀ t rfl c q).mpr ⟨l, l'', rfl, hl⟩
          obtain ⟨answer', s', rfl⟩ := hm.finish_iff.mp hw
          exact .inr ⟨l'', answer', s', [], rfl, hl⟩
        · refine .inl fun mk hmk => ?_
          rcases List.mem_append.mp hmk with hmk | hmk
          · exact hl mk hmk
          · rw [List.mem_singleton.mp hmk]
            exact hq
      · exact .inr ⟨l₁, answer', s', l₂ ++ [⟨q, act⟩], by simp, hl⟩

theorem flag_down (h : Run w t₀ s₀ τ r s) : ∀ t, r = .ok t →
    (∃ mk ∈ τ, ∃ c answer s', mk.act = .finish c answer s') → s.errorRaised = false := by
  induction h with
  | start => simp
  | @step τ t s answer p act m h hm ih =>
    rintro t' ht' ⟨mk, hmk, hf⟩
    have hok : act.failure? = none := (h.step hm).no_failure t' ht' ⟨p, act⟩ (by simp)
    cases act with
    | finish c answer' s' =>
      rw [(hm.eq_of_finish rfl).2]
      exact (Act.ok_of_failure? hok).2
    | guard condition b | again condition b | start c =>
      have hs : m.store = s := hm.store_eq
      rw [hs]
      refine ih t rfl ⟨mk, ?_, hf⟩
      rcases List.mem_append.mp hmk with hmk | hmk
      · exact hmk
      · rw [List.mem_singleton.mp hmk] at hf
        obtain ⟨_, _, _, hf⟩ := hf
        cases hf

theorem not_leavesSucceed {p : Position} {c : Call} {answer : Answer} {s' : Store} {f : StepFailure}
    (h : Run w t₀ s₀ (τ ++ [⟨p, .finish c answer s'⟩]) r s) (h₀ : ∀ c q, ¬ Task.Waits c w t₀ q)
    (hf : answer.result = .error f) : ¬ LeavesSucceed (τ ++ [⟨p, .finish c answer s'⟩]) := by
  intro hs
  obtain ⟨t, s₁, answer', m, hrun, hm, -⟩ := h.split rfl
  have hw := hm.finish_iff.mpr ⟨answer, s', rfl⟩
  obtain ⟨l, l', rfl, hl⟩ := (hrun.waits_iff h₀ t rfl c p).mp hw
  obtain ⟨l₁, answer₁, s₂, l₂, he, -, v, hv⟩ :=
    hs l p c (l' ++ [⟨p, .finish c answer s'⟩]) (by simp)
  rcases snoc_eq_append_cons he with ⟨-, -, hmk⟩ | ⟨l₃, -, rfl⟩
  · cases hmk
    rw [hf] at hv
    cases hv
  · exact hl ⟨p, .finish c answer₁ s₂⟩ (by simp) rfl

end Run

theorem not_waits_ofBody (n : Node) (c : Call) (q : Position) :
    ¬ Task.Waits c n.width (.ofBody n) q := by
  intro h
  obtain ⟨⟨n', hn⟩, -⟩ := Task.Part.ofBody rfl h
  cases hn

/-- **The error signal is never lost.** A run of a node that comes to an end succeeds exactly if
every leaf that was started has ended with a success and no leaf has left the error flag up. The
flag is then down in the final store, and an error is that of a leaf: its own, or the message in the
store that it left with the flag up. -/
theorem completes_ok_iff {n : Node} {s₀ s : Store} {τ : List Mark} {r : Except RunError Unit}
    (h : n.Completes s₀ τ r s) :
    (r = .ok () ↔ LeavesSucceed τ ∧ FlagStaysDown τ) ∧
    (r = .ok () → (∃ mk ∈ τ, ∃ c answer s', mk.act = .finish c answer s') →
      s.errorRaised = false) ∧
    ∀ e, r = .error e → ∃ mk ∈ τ, ∃ c answer s', mk.act = .finish c answer s' ∧
      ((∃ f, answer.result = .error f ∧ e = f.error) ∨
        ((∃ v, answer.result = .ok v) ∧ s'.errorRaised = true ∧
          ∃ msg, s'.Tells msg ∧ e = .raised msg)) := by
  have h₀ := not_waits_ofBody n
  unfold Node.Completes at h
  rcases r with e | ⟨⟩
  · obtain ⟨τ', p, c, answer, rfl, hf, -⟩ := h.of_error
    have hcause := Act.cause_of_failure? hf
    have hne : (.error e : Except RunError Unit) ≠ .ok () := by simp
    refine ⟨⟨fun hr => absurd hr hne, ?_⟩, fun hr => absurd hr hne, ?_⟩
    · rintro ⟨hs, hd⟩
      rcases hcause with ⟨f, hr, -⟩ | ⟨⟨v, hr⟩, hflag, -⟩
      · exact absurd hs (h.not_leavesSucceed h₀ hr)
      · have := hd ⟨p, .finish c answer s⟩ (by simp) c answer s rfl (by simp [Act.write?, hr])
        rw [hflag] at this
        cases this
    · rintro e' he
      cases he
      exact ⟨⟨p, .finish c answer s⟩, by simp, c, answer, s, rfl, hcause⟩
  · have hok := h.no_failure .done rfl
    refine ⟨⟨fun _ => ⟨?_, ?_⟩, fun _ => rfl⟩, fun _ => h.flag_down .done rfl, ?_⟩
    · rintro l p c l' rfl
      rcases h.ended_or_unanswered h₀ rfl with hl | ⟨l₁, answer, s', l₂, rfl, hl⟩
      · have hw := (h.waits_iff h₀ .done rfl c p).mpr ⟨l, l', rfl, hl⟩
        exact absurd hw (Task.Part.not_done rfl)
      · refine ⟨l₁, answer, s', l₂, rfl, hl, ?_⟩
        exact (Act.ok_of_failure? (hok ⟨p, .finish c answer s'⟩ (by simp))).1
    · rintro mk hmk c answer s' hact -
      have := hok mk hmk
      rw [hact] at this
      exact (Act.ok_of_failure? this).2
    · intro e he
      cases he

/-- Two leaves side by side that write the error flag. -/
def race : Node :=
  .group { mode := .parallel }
    [.leaf { out := "_error" } "first", .leaf { out := "_error" } "second"]

theorem replay_race :
    Task.replay (.ofBody race) ⟨[]⟩
        [([0], ⟨.ok .null, none⟩), ([1], ⟨.ok .null, none⟩), ([0], ⟨.ok .null, none⟩),
          ([1], ⟨.ok .null, none⟩), ([1], ⟨.ok (.bool false), none⟩),
          ([0], ⟨.ok (.str "true"), none⟩)] =
      some (.error (.raised defaultMessage), ⟨[("_error", .bool true)]⟩) := by
  have h₁ : Store.set ⟨[]⟩ "_error" (.bool false) = ⟨[("_error", .bool false)]⟩ := rfl
  have hcoerce : (Json.str "true").coerce = .bool true := by
    unfold Json.coerce Json.parseChars? Json.readValue
    rfl
  have h₂ : Store.set ⟨[("_error", .bool false)]⟩ "_error" (.str "true") =
      ⟨[("_error", .bool true)]⟩ := by
    show Store.mk (Members.write "_error" [] (Json.str "true").coerce _) = _
    rw [hcoerce]
    rfl
  have h₃ : Store.errorRaised ⟨[("_error", .bool false)]⟩ = false := rfl
  have h₄ : Store.errorRaised ⟨[("_error", .bool true)]⟩ = true := rfl
  have h₅ : Store.raisedMessage? ⟨[("_error", .bool true)]⟩ = none := rfl
  simp [race, Task.replay, Task.step, Task.step.stepAt, Task.ofBody, Task.sideBySide, Task.isDone,
    Task.onCondition, Task.endLeaf, Moved.inside, Except.map, Node.info,
    Step.params, h₁, h₂, h₃, h₄, h₅]

/-- One of two leaves puts the error flag down and the other up: the run fails. -/
theorem race_fails : ∃ τ s, race.Completes ⟨[]⟩ τ (.error (.raised defaultMessage)) s ∧
    ¬ (LeavesSucceed τ ∧ FlagStaysDown τ) := by
  obtain ⟨τ, h⟩ := (run_iff_replay (w := race.width)).mpr ⟨_, replay_race⟩
  have hc : race.Completes ⟨[]⟩ τ (.error (.raised defaultMessage)) ⟨[("_error", .bool true)]⟩ := h
  exact ⟨τ, _, hc, fun hs => by cases (completes_ok_iff hc).1.mpr hs⟩

end CommandChain
