import CommandChain.Proofs.Store.Lookup
import CommandChain.Run.Chain

/-!
# The inputs of a chain

A chain starts in the variables of its definition, overlaid with the presets (`Chain.given`), after
its inputs are bound in order. An input with an argument names what is stored for it. An input
without an argument is left alone if there is a variable of exactly its name, dots and all, and else
is 0: that a variable has a value at its path is of no consequence (`Store.lookup_prepare`).

Inputs of which none leads on to another do not disturb each other, since a write puts objects in
place of lists only on its own way (`Store.Direct`). -/

namespace CommandChain

/-! ### Paths past which one writes -/

theorem exists_parting {p q : List String} (h : ¬ p <+: q) (h' : ¬ q <+: p) :
    ∃ c a b p' q', p = c ++ a :: p' ∧ q = c ++ b :: q' ∧ a ≠ b := by
  induction p generalizing q with
  | nil => exact absurd List.nil_prefix h
  | cons a p ih =>
    cases q with
    | nil => exact absurd List.nil_prefix h'
    | cons b q =>
      by_cases hab : a = b
      · subst hab
        rw [List.prefix_cons_inj] at h h'
        obtain ⟨c, x, y, p', q', rfl, rfl, hxy⟩ := ih h h'
        exact ⟨a :: c, x, y, p', q', rfl, rfl, hxy⟩
      · exact ⟨[], a, b, p, q, rfl, rfl, hab⟩

namespace Members

open Json

variable {p q : List String} {v : Json} {ms : Members Json}

/-- No list stands before the end of a path. -/
def Direct (ms : Members Json) (path : List String) : Prop :=
  ∀ l a r, path = l ++ a :: r → ∀ items, (obj ms).descend? l ≠ some (.arr items)

theorem descend?_scalar {w : Json} (hobj : ¬ w.IsObject) (harr : ∀ items, w ≠ .arr items)
    {path : List String} (h : path ≠ []) : w.descend? path = none := by
  obtain ⟨k, path, rfl⟩ := List.exists_cons_of_ne_nil h
  cases w with
  | obj ms => exact absurd (isObject_obj ms) hobj
  | arr items => exact absurd rfl (harr items)
  | null | bool | num | str => rfl

/-- A path past which one writes names what it did before. -/
theorem descend?_assign_of_direct (h : ¬ p <+: q) (h' : ¬ q <+: p) (hq : Direct ms q) :
    (obj (assign p v ms)).descend? q = (obj ms).descend? q := by
  obtain ⟨c, a, b, p', q', rfl, rfl, hab⟩ := exists_parting h h'
  by_cases hobj : ∀ l, l ≠ [] → l <+: c → ∀ w ∈ (obj ms).descend? l, w.IsObject
  · exact descend?_assign_of_objects hab hobj
  · -- a scalar stands on the common way, so that there was nothing before either
    push Not at hobj
    obtain ⟨l, -, ⟨m, rfl⟩, w, hw, hscalar⟩ := hobj
    obtain ⟨x, r, hr⟩ : ∃ x r, m ++ b :: q' = x :: r :=
      List.exists_cons_of_ne_nil (List.append_ne_nil_of_right_ne_nil _ (List.cons_ne_nil _ _))
    have harr : ∀ items, w ≠ .arr items := by
      rintro items rfl
      exact hq l x r (by rw [List.append_assoc, hr]) items hw
    rw [descend?_assign_of_not_object hab (List.prefix_append l m) hw hscalar,
      List.append_assoc, hr, descend?_append, Option.mem_def.mp hw, Option.bind_some,
      descend?_scalar hscalar harr (List.cons_ne_nil _ _)]

theorem Direct.assign (h : ¬ p <+: q) (hq : Direct ms q) : Direct (Members.assign p v ms) q := by
  rintro l a r rfl items hitems
  by_cases hl : l <+: p
  · obtain ⟨t, rfl⟩ := hl
    cases t with
    | nil => exact h (by rw [List.append_nil]; exact List.prefix_append l _)
    | cons b t =>
      obtain ⟨w, hw, ms', rfl⟩ := @isObject_of_before b l t v ms
      rw [hitems] at hw
      cases hw
  · have hbelow : Direct ms l := fun l' a' r' hl' => hq l' a' (r' ++ a :: r) (by simp [hl'])
    rw [descend?_assign_of_direct (fun hp => h (hp.trans (List.prefix_append l _))) hl hbelow]
      at hitems
    exact hq l a r rfl items hitems

theorem direct_assign_self : Direct (Members.assign p v ms) p := by
  rintro l a r rfl items hitems
  obtain ⟨w, hw, ms', rfl⟩ := @isObject_of_before a l r v ms
  rw [hitems] at hw
  cases hw

end Members

namespace Store

variable {s : Store} {p k name : String} {v : Json} {keys : List String}
  {args : List Json} {i : Nat}

/-- No list stands before the end of the path. -/
def Direct (s : Store) (path : String) : Prop := Members.Direct s.vars (segments path)

theorem lookup_set_of_incomparable (h : Incomparable p k) (hk : s.Direct k) (v : Json) :
    (s.set p v).lookup k = s.lookup k := by
  rw [lookup_eq, lookup_eq, vars_set]
  exact Members.descend?_assign_of_direct h.1 h.2 hk

theorem Direct.set (h : Incomparable p k) (hk : s.Direct k) (v : Json) : (s.set p v).Direct k := by
  unfold Direct
  rw [vars_set]
  exact Members.Direct.assign h.1 hk

theorem direct_set_same (s : Store) (k : String) (v : Json) : (s.set k v).Direct k := by
  unfold Direct
  rw [vars_set]
  exact Members.direct_assign_self

theorem eq_of_segments (h : segments k = [name]) : name = k := Text.eq_of_fieldsText_eq_singleton h

theorem segments_root (p : String) : segments (root p) = [root p] := by
  obtain ⟨rest, hrest⟩ := fieldsText_eq p
  obtain ⟨x, hx⟩ := @exists_segments_eq p [root p] [root p] (by simp) List.prefix_rfl
    (by unfold segments; rw [hrest]; exact ⟨rest, rfl⟩)
  obtain rfl := eq_of_segments hx
  exact hx

theorem root_ne_of_incomparable (h : Incomparable p k) : root p ≠ k := by
  rintro rfl
  obtain ⟨rest, hrest⟩ := fieldsText_eq p
  refine h.2 ?_
  rw [hrest, show Text.fieldsText '.' (root p) = [root p] from segments_root p]
  exact ⟨rest, rfl⟩

theorem contains_set_of_incomparable (h : Incomparable p k) (v : Json) :
    (s.set p v).contains k = s.contains k := by
  obtain ⟨rest, hrest⟩ := fieldsText_eq p
  unfold contains Members.contains
  rw [set_eq hrest, Members.get?_write_of_ne (root_ne_of_incomparable h).symm]

/-- A variable that there was not is bound to a string: other paths see nothing of it. -/
theorem lookup_insert_of_absent {out t : String} (hout : s.contains out = false)
    (hk : segments k ≠ [out]) : (s.insert out (.str t)).lookup k = s.lookup k := by
  obtain ⟨rest, hrest⟩ := fieldsText_eq k
  unfold lookup insert
  rw [hrest]
  dsimp only
  by_cases hroot : root k = out
  · subst hroot
    have hnone : Members.get? (root k) s.vars = none := by
      simpa [contains, Members.contains] using hout
    obtain ⟨x, r, rfl⟩ : ∃ x r, rest = x :: r :=
      List.exists_cons_of_ne_nil fun e => hk (by unfold segments; rw [hrest, e])
    rw [Members.get?_insert_self, hnone]
    rfl
  · rw [Members.get?_insert_of_ne hroot]

/-! ### Binding the inputs -/

/-- The store with one input bound to its argument, if it has one. -/
def bindInput (s : Store) (key : String) (arg : Option Json) : Store :=
  bindInputs [key] arg.toList s

theorem bindInput_none (s : Store) (key : String) :
    s.bindInput key none = if s.contains key then s else s.set key .zero := rfl

theorem bindInput_cases (s : Store) (key : String) (arg : Option Json) :
    s.bindInput key arg = s ∨ ∃ v, s.bindInput key arg = s.set key v := by
  cases arg with
  | some v => exact .inr ⟨v, rfl⟩
  | none =>
    rw [bindInput_none]
    split_ifs
    · exact .inl rfl
    · exact .inr ⟨.zero, rfl⟩

theorem bindInputs_cons (key : String) (keys : List String) (args : List Json) (s : Store) :
    bindInputs (key :: keys) args s = bindInputs keys args.tail (s.bindInput key args.head?) := by
  cases args <;> rfl

/-- What an input names once it is bound. -/
def boundValue (s : Store) (key : String) : Option Json → Option Json
  | some v => some v.coerce
  | none => if s.contains key then s.lookup key else some .zero

/-- Paths of which none leads on to the other see nothing of each other's inputs. -/
theorem contains_bindInput (h : Incomparable p k) (arg : Option Json) :
    (s.bindInput p arg).contains k = s.contains k := by
  rcases s.bindInput_cases p arg with hsame | ⟨v, hset⟩
  · rw [hsame]
  · rw [hset, contains_set_of_incomparable h]

theorem lookup_bindInput (h : Incomparable p k) (hk : s.Direct k) (arg : Option Json) :
    (s.bindInput p arg).Direct k ∧ (s.bindInput p arg).lookup k = s.lookup k := by
  rcases s.bindInput_cases p arg with hsame | ⟨v, hset⟩
  · rw [hsame]
    exact ⟨hk, rfl⟩
  · rw [hset]
    exact ⟨hk.set h v, lookup_set_of_incomparable h hk v⟩

theorem contains_bindInputs (h : ∀ p ∈ keys, Incomparable p k) (args : List Json) :
    (bindInputs keys args s).contains k = s.contains k := by
  induction keys generalizing s args with
  | nil => rfl
  | cons p keys ih =>
    obtain ⟨hp, hkeys⟩ := List.forall_mem_cons.mp h
    rw [bindInputs_cons, ih hkeys, contains_bindInput hp]

theorem lookup_bindInputs (h : ∀ p ∈ keys, Incomparable p k) (hk : s.Direct k) (args : List Json) :
    (bindInputs keys args s).lookup k = s.lookup k := by
  induction keys generalizing s args with
  | nil => rfl
  | cons p keys ih =>
    obtain ⟨hp, hkeys⟩ := List.forall_mem_cons.mp h
    obtain ⟨hdirect, hlookup⟩ := lookup_bindInput hp hk args.head?
    rw [bindInputs_cons, ih hkeys hdirect, hlookup]

theorem bindInput_self (arg : Option Json) (hk : arg = none → s.contains k = true → s.Direct k) :
    (s.bindInput k arg).Direct k ∧ (s.bindInput k arg).lookup k = s.boundValue k arg ∧
      (segments k = [k] → (s.bindInput k arg).contains k = true) := by
  have hset (v : Json) (hplain : segments k = [k]) : (s.set k v).contains k = true := by
    unfold contains Members.contains
    rw [vars_set, hplain]
    show (Members.get? k (Members.insert k _ _)).isSome = true
    rw [Members.get?_insert_self]
    rfl
  cases arg with
  | some v => exact ⟨direct_set_same s k v, lookup_set_self s k v, hset v⟩
  | none =>
    unfold boundValue
    rw [bindInput_none]
    split_ifs with hcontains
    · exact ⟨hk rfl hcontains, rfl, fun _ => hcontains⟩
    · exact ⟨direct_set_same s k .zero, lookup_set_self s k .zero, hset .zero⟩

theorem boundValue_bindInput {arg' : Option Json} (h : Incomparable p k) (arg : Option Json)
    (hk : arg' = none → s.contains k = true → s.Direct k) :
    (s.bindInput p arg).boundValue k arg' = s.boundValue k arg' := by
  cases arg' with
  | some v => rfl
  | none =>
    unfold boundValue
    rw [contains_bindInput h]
    split_ifs with hcontains
    · exact (lookup_bindInput h (hk rfl hcontains) arg).2
    · rfl

/-- **Every input is bound**, and keeps its value while the others are. -/
theorem bindInputs_self (hpair : keys.Pairwise Incomparable) (hi : keys[i]? = some k)
    (hk : args[i]? = none → s.contains k = true → s.Direct k) :
    (bindInputs keys args s).lookup k = s.boundValue k args[i]? ∧
      (segments k = [k] → (bindInputs keys args s).contains k = true) := by
  induction keys generalizing s args i with
  | nil => simp at hi
  | cons key keys ih =>
    obtain ⟨hkey, hkeys⟩ := List.pairwise_cons.mp hpair
    rw [bindInputs_cons]
    cases i with
    | zero =>
      obtain rfl : key = k := by simpa using hi
      rw [← List.head?_eq_getElem?] at hk ⊢
      have hothers : ∀ p ∈ keys, Incomparable p key := fun p hp => (hkey p hp).symm
      obtain ⟨hdirect, hlookup, hcontains⟩ := bindInput_self args.head? hk
      refine ⟨(lookup_bindInputs hothers hdirect _).trans hlookup, fun hplain => ?_⟩
      rw [contains_bindInputs hothers, hcontains hplain]
    | succ i =>
      have hparts : Incomparable key k := hkey k (List.mem_of_getElem? hi)
      rw [← List.getElem?_tail] at hk ⊢
      rw [← boundValue_bindInput hparts args.head? hk]
      refine ih hkeys hi fun hnone hcontains => ?_
      rw [contains_bindInput hparts] at hcontains
      exact (lookup_bindInput hparts (hk hnone hcontains) _).1

/-! ### The store in which a chain starts -/

/-- The variables that are there before the inputs are bound. -/
def given (c : Chain) (presets : Members Json) : Store := ⟨c.vars.overlay presets⟩

theorem lookup_prepare_eq {c : Chain} {args : List Json} {k : String} (dir home : String)
    (presets : Members Json) (hroot : root k ≠ chainDirectory ∧ root k ≠ startDirectory)
    (hk : segments k = [k] →
      (bindInputs c.root.info.ins args (given c presets)).contains k = true) :
    (prepare c dir home args presets).lookup k =
      (bindInputs c.root.info.ins args (given c presets)).lookup k := by
  have hdirectories (s : Store) : AgreeOn [root k]
      ((s.set chainDirectory (withSlash dir)).set startDirectory (withSlash home)) s := by
    have hchain : root chainDirectory = chainDirectory := by decide
    have hstart : root startDirectory = startDirectory := by decide
    refine (AgreeOn.set_of_root ?_).trans (AgreeOn.set_of_root ?_)
    · simpa [hstart] using hroot.2.symm
    · simpa [hchain] using hroot.1.symm
  unfold prepare
  dsimp only
  rw [(hdirectories _).lookup List.mem_cons_self]
  change (if (bindInputs _ args (given c presets)).contains _ then _ else _ : Store).lookup k = _
  split_ifs with hout
  · rfl
  · refine lookup_insert_of_absent (Bool.eq_false_iff.mpr hout) fun hplain => hout ?_
    obtain rfl := eq_of_segments hplain
    exact hk hplain

/-- **The inputs of a chain.** Let none of the inputs lead on to another one, and none lie in the
two variables that hold directories. In the store in which the chain starts an input with an
argument names what is stored for the argument. One without an argument is 0 if there is no variable
of exactly its name, whatever the variables give at its path; and if there is one, it names what it
did before, unless a list stands on its way. So it keeps what the variables give at its path only if
there is a variable of its name, or if they give nothing but 0. -/
theorem lookup_prepare {c : Chain} {args : List Json} {i : Nat} {k : String} (dir home : String)
    (presets : Members Json) (hpair : c.root.info.ins.Pairwise Incomparable)
    (hroots : ∀ k ∈ c.root.info.ins, root k ≠ chainDirectory ∧ root k ≠ startDirectory)
    (hi : c.root.info.ins[i]? = some k) :
    (∀ v, args[i]? = some v →
      (prepare c dir home args presets).lookup k = some v.coerce) ∧
    (args[i]? = none →
      ((given c presets).contains k = false →
        (prepare c dir home args presets).lookup k = some .zero) ∧
      ((given c presets).Direct k →
        ((given c presets).contains k = true →
          (prepare c dir home args presets).lookup k = (given c presets).lookup k) ∧
        ((prepare c dir home args presets).get k = (given c presets).get k ↔
          (given c presets).contains k = true ∨ (given c presets).get k = .zero))) := by
  have hbound (hk : args[i]? = none → (given c presets).contains k = true →
      (given c presets).Direct k) :
      (prepare c dir home args presets).lookup k = (given c presets).boundValue k args[i]? := by
    obtain ⟨hlookup, hcontains⟩ := bindInputs_self hpair hi hk
    rw [lookup_prepare_eq dir home presets (hroots k (List.mem_of_getElem? hi)) hcontains, hlookup]
  refine ⟨fun v hv => ?_, fun hnone => ?_⟩
  · rw [hbound fun h => absurd (hv.symm.trans h) (by simp), hv]
    rfl
  · have hzero (habsent : (given c presets).contains k = false) :
        (prepare c dir home args presets).lookup k = some .zero := by
      rw [hbound fun _ h => absurd (habsent.symm.trans h) (by simp), hnone]
      simp [boundValue, habsent]
    refine ⟨hzero, fun hdirect => ?_⟩
    have hkept (hpresent : (given c presets).contains k = true) :
        (prepare c dir home args presets).lookup k = (given c presets).lookup k := by
      rw [hbound fun _ _ => hdirect, hnone]
      simp [boundValue, hpresent]
    refine ⟨hkept, ?_⟩
    unfold get
    cases hcontains : (given c presets).contains k with
    | false =>
      rw [hzero hcontains]
      simp [eq_comm]
    | true => simp [hkept hcontains]

/-- A chain with an input inside of a variable. -/
def nestedInput : Chain where
  vars := [("a", .obj [("b", .num (.int 5))])]
  verbose := false
  root := .group { ins := ["a.b"] } [.leaf {} "echo"]

/-- Without an argument, the value inside of the variable is lost to 0. -/
theorem nestedInput_lost :
    (given nestedInput []).lookup "a.b" = some (.num (.int 5)) ∧
      (prepare nestedInput "/" "/" [] []).lookup "a.b" = some .zero := by
  refine ⟨rfl, ?_⟩
  have hpair : nestedInput.root.info.ins.Pairwise Incomparable := List.pairwise_singleton _ _
  have hroots : ∀ k ∈ nestedInput.root.info.ins,
      root k ≠ chainDirectory ∧ root k ≠ startDirectory := by
    decide
  exact ((lookup_prepare (i := 0) "/" "/" [] hpair hroots rfl).2 rfl).1 rfl

end Store

end CommandChain
