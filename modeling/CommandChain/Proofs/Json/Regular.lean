import CommandChain.Proofs.Json.Read
import CommandChain.Proofs.Members
import Mathlib.Tactic.SplitIfs

/-!
# Regular values

In a value that was read from JSON text the members of every object stand in the order of their
names, whole numbers have at most 64 bits, and arrays and objects are nested at most as deep as
there was room for them (`Json.readable_of_readValue`, `Json.readable_of_parseChars?`). -/

namespace CommandChain

/-- The members of every object in the value stand in the order of their names, and every number in
it has the property `p`. -/
inductive Json.Regular (p : Number → Prop) : Json → Prop
  | null : Regular p .null
  | bool (b : Bool) : Regular p (.bool b)
  | num {n : Number} (hn : p n) : Regular p (.num n)
  | str (s : String) : Regular p (.str s)
  | arr {items : List Json} (hitems : ∀ v ∈ items, Regular p v) : Regular p (.arr items)
  | obj {ms : Members Json} (hsorted : ms.Sorted) (hms : ∀ m ∈ ms, Regular p m.2) :
      Regular p (.obj ms)

/-- A whole number has at most 64 bits, one of them for the sign if it is negative. Nothing is said
of doubles. -/
def Number.Fits : Number → Prop
  | .int i => -integerLimit ≤ i ∧ i < wordLimit
  | .float _ => True

theorem Number.fits_int_iff {i : Int} :
    (Number.int i).Fits ↔ -9223372036854775808 ≤ i ∧ i < 18446744073709551616 := Iff.rfl

namespace Json

variable {cs rest : List Char} {n : Number} {p q : Number → Prop} {v : Json}

theorem Regular.mono (h : v.Regular p) (hpq : ∀ n, p n → q n) : v.Regular q := by
  induction h with
  | null => exact .null
  | bool b => exact .bool b
  | num hn => exact .num (hpq _ hn)
  | str s => exact .str s
  | arr hitems ih => exact .arr ih
  | obj hsorted hms ih => exact .obj hsorted ih

/-! ### Nesting -/

mutual

/-- How deep arrays and objects are nested in a value. -/
def nesting : Json → Nat
  | .arr items => nestingOfItems items + 1
  | .obj ms => nestingOfMembers ms + 1
  | .null | .bool _ | .num _ | .str _ => 0

/-- How deep arrays and objects are nested in some items. -/
def nestingOfItems : List Json → Nat
  | [] => 0
  | v :: vs => max (nesting v) (nestingOfItems vs)

/-- How deep arrays and objects are nested in some members. -/
def nestingOfMembers : List (String × Json) → Nat
  | [] => 0
  | (_, v) :: ms => max (nesting v) (nestingOfMembers ms)

end

theorem nestingOfItems_le_iff {vs : List Json} {d : Nat} :
    nestingOfItems vs ≤ d ↔ ∀ v ∈ vs, v.nesting ≤ d := by
  induction vs with
  | nil => simp [nestingOfItems]
  | cons v vs ih => rw [nestingOfItems, Nat.max_le, ih, List.forall_mem_cons]

theorem nestingOfMembers_le_iff {ms : List (String × Json)} {d : Nat} :
    nestingOfMembers ms ≤ d ↔ ∀ m ∈ ms, m.2.nesting ≤ d := by
  induction ms with
  | nil => simp [nestingOfMembers]
  | cons m ms ih => rw [nestingOfMembers, Nat.max_le, ih, List.forall_mem_cons]

/-! ### Numbers -/

theorem appendDigits_le (ds : List Char) {k : Nat} (hk : k ≤ maxSignificand) :
    (appendDigits k ds).1 ≤ maxSignificand := by
  induction ds generalizing k with
  | nil => exact hk
  | cons c ds ih =>
    rw [appendDigits]
    split_ifs with h
    · exact ih h
    · exact hk

/-- With a fraction or an exponent a double is read. -/
theorem fits_of_readScaled? {negative : Bool} {k : Nat} {e : Int}
    (h : readScaled? negative k e cs = some (n, rest)) : n.Fits := by
  obtain ⟨⟨x, rfl⟩, -⟩ := readScaled?_cases h
  trivial

theorem fits_of_readTail? {negative : Bool} {whole : List Char}
    (h : readTail? negative whole cs = some (n, rest)) : n.Fits := by
  have hmax : (appendDigits 0 whole).1 ≤ maxSignificand := appendDigits_le whole (Nat.zero_le _)
  have hbound : maxSignificand < 18446744073709551616 := by decide
  unfold readTail? at h
  simp only at h
  split at h
  · split_ifs at h
    exact fits_of_readScaled? h
  · split_ifs at h with hscaled hpositive hsmall
    · exact fits_of_readScaled? h
    · cases h
      exact Number.fits_int_iff.mpr ⟨by omega, by omega⟩
    · cases h
      have hpower : Nat.pow 2 63 = 9223372036854775808 := rfl
      simp only [Bool.and_eq_true, decide_eq_true_eq] at hsmall
      exact Number.fits_int_iff.mpr ⟨by omega, by omega⟩
    · cases h
      trivial

/-- A whole number that was read fits in 64 bits. -/
theorem fits_of_readNumber? (h : readNumber? cs = some (n, rest)) : n.Fits := by
  unfold readNumber? at h
  simp only at h
  split_ifs at h
  exact fits_of_readTail? h

/-! ### Values -/

/-- A value that could be read with so much room for arrays and objects. -/
structure Readable (room : Nat) (v : Json) : Prop where
  regular : v.Regular Number.Fits
  nesting_le : v.nesting ≤ room

theorem readable_arr {room : Nat} {vs : List Json} (h : ∀ v ∈ vs, Readable room v) :
    Readable (room + 1) (.arr vs) where
  regular := .arr fun v hv => (h v hv).regular
  nesting_le := Nat.succ_le_succ (nestingOfItems_le_iff.mpr fun v hv => (h v hv).nesting_le)

theorem readable_obj {room : Nat} {ms : Members Json} (hsorted : ms.Sorted)
    (h : ∀ m ∈ ms, Readable room m.2) : Readable (room + 1) (.obj ms) where
  regular := .obj hsorted fun m hm => (h m hm).regular
  nesting_le := Nat.succ_le_succ (nestingOfMembers_le_iff.mpr fun m hm => (h m hm).nesting_le)

/-- Items are as readable as the values that are read for them. -/
theorem readable_of_readItems {n : Nat}
    (hvalue : ∀ {cs room} {p : Parsed Json cs}, cs.length ≤ n → readValue room cs = some p →
      Readable room p.value) :
    ∀ {cs : List Char} {room : Nat} {p : Parsed (List Json) cs}, cs.length ≤ n →
      readItems room cs = some p → ∀ v ∈ p.value, Readable room v := by
  induction n with
  | zero =>
    intro cs room p hlen
    have := p.shorter
    omega
  | succ n ih =>
    intro cs room p hlen hp
    obtain ⟨v, hv, ⟨m, -, hitems, -⟩ | ⟨m, vs, -, hvs, hitems, -⟩⟩ := readItems_cases hp
    · rw [hitems]
      exact List.forall_mem_singleton.mpr (hvalue hlen hv)
    · have h₁ := v.shorter
      have h₂ := m.shorter
      rw [hitems]
      exact List.forall_mem_cons.mpr
        ⟨hvalue hlen hv, ih (fun hl => hvalue (by omega)) (by omega) hvs⟩

/-- Members are as readable as the values that are read for them. -/
theorem readable_of_readMembers {n : Nat}
    (hvalue : ∀ {cs room} {p : Parsed Json cs}, cs.length ≤ n → readValue room cs = some p →
      Readable room p.value) :
    ∀ {cs : List Char} {room : Nat} {p : Parsed (List (String × Json)) cs}, cs.length ≤ n →
      readMembers room cs = some p → ∀ m ∈ p.value, Readable room m.2 := by
  induction n with
  | zero =>
    intro cs room p hlen
    have := p.shorter
    omega
  | succ n ih =>
    intro cs room p hlen hp
    obtain ⟨q, k, m, v, -, -, -, hv, hmore⟩ := readMembers_cases hp
    have h₁ := q.shorter
    have h₂ := k.shorter
    have h₃ := m.shorter
    have h₄ := v.shorter
    have hval : Readable room v.value := hvalue (by omega) hv
    rcases hmore with ⟨e, -, hmembers, -⟩ | ⟨e, ms, -, hms, hmembers, -⟩
    · rw [hmembers]
      exact List.forall_mem_singleton.mpr hval
    · have h₅ := e.shorter
      rw [hmembers]
      exact List.forall_mem_cons.mpr ⟨hval, ih (fun hl => hvalue (by omega)) (by omega) hms⟩

/-- **What is read** is regular, and nested no deeper than there was room. -/
theorem readable_of_readValue {n : Nat} : ∀ {cs : List Char} {room : Nat} {p : Parsed Json cs},
    cs.length ≤ n → readValue room cs = some p → Readable room p.value := by
  induction n with
  | zero =>
    intro cs room p hlen
    have := p.shorter
    omega
  | succ n ih =>
    intro cs room p hlen hp
    obtain ⟨c, rest, hc, hkind⟩ := readValue_cases hp
    have hshort := length_lt_of_skipSpace hc
    rcases hkind with ⟨-, s, -, hvalue, -⟩ | ⟨-, room', m, rfl, -, hvalue, -⟩ |
      ⟨-, room', vs, rfl, hvs, hvalue, -⟩ | ⟨-, room', m, rfl, -, hvalue, -⟩ |
      ⟨-, room', ms, rfl, hms, hvalue, -⟩ | ⟨word, v, hword, -, hvalue, -⟩ | ⟨x, hx, hvalue⟩
    all_goals rw [hvalue]
    · exact ⟨.str _, Nat.zero_le _⟩
    · exact readable_arr (List.forall_mem_nil _)
    · exact readable_arr (readable_of_readItems ih (by omega) hvs)
    · exact readable_obj List.Pairwise.nil (List.forall_mem_nil _)
    · have hmembers := readable_of_readMembers ih (by omega) hms
      exact readable_obj (Members.sorted_ofList _) fun m hm =>
        hmembers m (Members.mem_of_mem_ofList hm)
    · have hwords : ∀ w ∈ words, w.2.Regular Number.Fits ∧ w.2.nesting = 0 := by
        simp [words, Regular.null, Regular.bool, nesting]
      obtain ⟨hregular, hflat⟩ := hwords _ hword
      exact ⟨hregular, hflat ▸ Nat.zero_le _⟩
    · exact ⟨.num (fits_of_readNumber? hx), Nat.zero_le _⟩

theorem readable_of_parseChars? (h : parseChars? cs = some v) : Readable maxNesting v := by
  unfold parseChars? at h
  split at h
  · next p hp =>
    split_ifs at h
    cases h
    exact readable_of_readValue (Nat.le_refl _) hp
  · cases h

end Json

end CommandChain
