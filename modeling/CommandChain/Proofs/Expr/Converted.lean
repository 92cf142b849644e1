import CommandChain.Proofs.Expr.Regular
import CommandChain.Proofs.Number.Whole
import CommandChain.Proofs.Store.Coerced

/-!
# JSON values in expressions

A JSON value that becomes a value of an expression and a JSON value again has the same structure and
the same texts. Its numbers go through a double: whole numbers up to `maxSafe` and doubles with a
fraction are not changed by that, and greater whole numbers come back as the nearest double
(`Value.toJson_ofJson`). -/

namespace CommandChain

/-! ### Numbers -/

namespace Number

/-- A whole number of 64 bits, or a finite double that is no whole number. -/
def IsWordOrFraction : Number → Prop
  | .int i => (Number.int i).Fits
  | .float x => Double.isFinite x = true ∧ Double.isWhole x = false

instance : DecidablePred IsWordOrFraction
  | .int i => inferInstanceAs (Decidable (-integerLimit ≤ i ∧ i < wordLimit))
  | .float x => inferInstanceAs (Decidable (Double.isFinite x = true ∧ Double.isWhole x = false))

/-- A whole number greater than `maxSafe` as the nearest double, and any other number as it is. -/
def rounded : Number → Number
  | .int i => if i.natAbs ≤ maxSafe then .int i else .float (Double.ofInt i)
  | .float x => .float x

theorem rounded_int_of_le {i : Int} (h : i.natAbs ≤ maxSafe) :
    (Number.int i).rounded = .int i := if_pos h

theorem rounded_int_of_lt {i : Int} (h : maxSafe < i.natAbs) :
    (Number.int i).rounded = .float (Double.ofInt i) :=
  if_neg h.not_ge

theorem rounded_eq_self_iff {n : Number} :
    n.rounded = n ↔ ∀ i, .int i = n → i.natAbs ≤ maxSafe := by
  cases n with
  | int i =>
    rcases Nat.lt_or_ge maxSafe i.natAbs with h | h
    · simp [rounded_int_of_lt h, h]
    · simp [rounded_int_of_le h, h]
  | float x => simp [rounded]

theorem Fits.natAbs_lt {i : Int} (h : (Number.int i).Fits) : i.natAbs < 2 ^ 64 := by
  obtain ⟨hlow, hhigh⟩ := fits_int_iff.mp h
  omega

end Number

namespace Json

/-- A number that became a double comes back as what it was rounded to. -/
theorem ofDouble_toDouble {n : Number} (h : n.IsWordOrFraction) :
    ofDouble n.toDouble = .num n.rounded := by
  cases n with
  | float x =>
    have hsettled : (Number.float x).Settled := fun hwhole => by simp [h.2] at hwhole
    exact ofDouble_of_settled hsettled h.1
  | int i =>
    have h64 := Number.Fits.natAbs_lt h
    rw [Number.toDouble]
    rcases Nat.lt_or_ge Number.maxSafe i.natAbs with hgreat | hsafe
    · have hsettled : (Number.float (Double.ofInt i)).Settled := fun hwhole =>
        (Double.maxSafe_lt_toInt_ofInt hgreat h64).not_ge hwhole.2
      rw [Number.rounded_int_of_lt hgreat, ofDouble_of_settled hsettled (Double.isFinite_ofInt h64)]
    · have hint := Double.toInt_ofInt hsafe
      have hdouble : Number.ofDouble? (Double.ofInt i) = some (.int i) := by
        rw [Number.ofDouble?, hint, Double.isWhole_ofInt h64, decide_eq_true hsafe]
        rfl
      rw [Number.rounded_int_of_le hsafe, ofDouble, hdouble]
      rfl

/-! ### Values -/

/-- **Induction over values**, by items and by values of members. -/
@[elab_as_elim]
theorem value_induction {motive : Json → Prop} (null : motive .null) (bool : ∀ b, motive (.bool b))
    (num : ∀ n, motive (.num n)) (str : ∀ t, motive (.str t))
    (arr : ∀ items, (∀ v ∈ items, motive v) → motive (.arr items))
    (obj : ∀ ms, (∀ m ∈ ms, motive m.2) → motive (.obj ms)) : ∀ v, motive v
  | .null => null
  | .bool b => bool b
  | .num n => num n
  | .str t => str t
  | .arr items => arr items fun v hv =>
    have := List.sizeOf_lt_of_mem hv
    value_induction null bool num str arr obj v
  | .obj ms => obj ms fun m hm =>
    have := List.sizeOf_lt_of_mem hm
    value_induction null bool num str arr obj m.2
termination_by v => sizeOf v
decreasing_by
  · simp only [Json.arr.sizeOf_spec]
    omega
  · obtain ⟨k, v⟩ := m
    simp only [Json.obj.sizeOf_spec, Prod.mk.sizeOf_spec] at this ⊢
    omega

mutual

/-- The value with all its numbers rounded. -/
def rounded : Json → Json
  | .null => .null
  | .bool b => .bool b
  | .num n => .num n.rounded
  | .str s => .str s
  | .arr items => .arr (roundedItems items)
  | .obj ms => .obj (roundedMembers ms)

/-- The items with all their numbers rounded. -/
def roundedItems : List Json → List Json
  | [] => []
  | v :: vs => rounded v :: roundedItems vs

/-- The members with all their numbers rounded. -/
def roundedMembers : List (String × Json) → List (String × Json)
  | [] => []
  | (k, v) :: ms => (k, rounded v) :: roundedMembers ms

end

theorem roundedItems_eq_map (vs : List Json) : roundedItems vs = vs.map rounded := by
  induction vs with
  | nil => rfl
  | cons v vs ih => rw [roundedItems, ih, List.map_cons]

theorem roundedMembers_eq_mapValues (ms : Members Json) :
    roundedMembers ms = ms.mapValues rounded := by
  induction ms with
  | nil => rfl
  | cons m ms ih => rw [roundedMembers, ih, Members.mapValues_cons]

theorem roundedItems_eq_self_iff {vs : List Json} :
    roundedItems vs = vs ↔ ∀ v ∈ vs, v.rounded = v := by
  induction vs with
  | nil => simp [roundedItems]
  | cons v vs ih => rw [roundedItems, List.cons.injEq, ih, List.forall_mem_cons]

theorem roundedMembers_eq_self_iff {ms : Members Json} :
    roundedMembers ms = ms ↔ ∀ m ∈ ms, m.2.rounded = m.2 := by
  induction ms with
  | nil => simp [roundedMembers]
  | cons m ms ih =>
    rw [roundedMembers, List.cons.injEq, Prod.mk.injEq, ih, List.forall_mem_cons]
    simp only [true_and]

/-- Rounding leaves exactly those values as they are in which no whole number is greater than
`maxSafe`. -/
theorem rounded_eq_self_iff {v : Json} :
    v.rounded = v ↔ ∀ i, .int i ∈ v.numbers → i.natAbs ≤ Number.maxSafe := by
  induction v using value_induction with
  | null | bool | str => simp [rounded, numbers]
  | num n => simp [rounded, Number.rounded_eq_self_iff, numbers]
  | arr items ih =>
    simp only [rounded, arr.injEq, roundedItems_eq_self_iff, numbers, mem_numbersOfItems]
    constructor
    · rintro h i ⟨v, hv, hi⟩
      exact (ih v hv).mp (h v hv) i hi
    · intro h v hv
      exact (ih v hv).mpr fun i hi => h i ⟨v, hv, hi⟩
  | obj ms ih =>
    simp only [rounded, obj.injEq, roundedMembers_eq_self_iff, numbers, mem_numbersOfMembers]
    constructor
    · rintro h i ⟨m, hm, hi⟩
      exact (ih m hm).mp (h m hm) i hi
    · intro h m hm
      exact (ih m hm).mpr fun i hi => h i ⟨m, hm, hi⟩

end Json

namespace Value

theorem toItems_eq_map (vs : List Value) : toItems vs = vs.map toJson := by
  induction vs with
  | nil => rfl
  | cons v vs ih => rw [toItems, ih, List.map_cons]

theorem toMembers_eq_mapValues (ms : Members Value) : toMembers ms = ms.mapValues toJson := by
  induction ms with
  | nil => rfl
  | cons m ms ih => rw [toMembers, ih, Members.mapValues_cons]

/-- **A JSON value comes back** from the values of expressions with its numbers rounded. -/
theorem toJson_ofJson {v : Json} (hv : ∀ n ∈ v.numbers, n.IsWordOrFraction) :
    (ofJson v).toJson = v.rounded := by
  induction v using Json.value_induction with
  | null => rfl
  | bool b => rfl
  | str t => rfl
  | num n => exact Json.ofDouble_toDouble (hv n (by simp [Json.numbers]))
  | arr items ih =>
    rw [Json.numbers] at hv
    rw [ofJson, toJson, ofItems_eq, toItems_eq_map, List.map_map, Json.rounded,
      Json.roundedItems_eq_map]
    refine congrArg Json.arr (List.map_congr_left fun v hmem => ih v hmem fun n hn => hv n ?_)
    exact Json.mem_numbersOfItems.mpr ⟨v, hmem, hn⟩
  | obj ms ih =>
    rw [Json.numbers] at hv
    rw [ofJson, toJson, ofMembers_eq, toMembers_eq_mapValues, Json.rounded,
      Json.roundedMembers_eq_mapValues]
    unfold Members.mapValues
    rw [List.map_map]
    refine congrArg Json.obj (List.map_congr_left fun m hmem => ?_)
    exact congrArg (m.1, ·)
      (ih m hmem fun n hn => hv n (Json.mem_numbersOfMembers.mpr ⟨m, hmem, hn⟩))

end Value

end CommandChain
