import CommandChain.Proofs.Json.Atom
import CommandChain.Proofs.Json.RoundTrip
import CommandChain.Proofs.Store.Write

/-!
# Storing what was printed

A string on its way into the store is trimmed and decoded as JSON, and every whole double in the
value becomes a whole number. What comes out (`Json.stored_coerce`) has no such doubles, its objects
are in order, and it is nested no deeper than can be read. Such a value is not changed by decoding
its own text (`Json.Stored.coerce_text`), because the text is read back and nothing is left in it to
convert (`Json.wholeNumbers_eq_self`). Strings inside of a value are neither trimmed nor decoded. -/

namespace CommandChain

/-- The number is stored as it is: it is not the double of a whole number up to `maxSafe`. -/
def Number.Settled : Number → Prop
  | .int _ => True
  | .float x => ¬ (Double.isWhole x = true ∧ (Double.toInt x).natAbs ≤ maxSafe)

namespace Json

variable {v : Json} {p q : Number → Prop}

/-! ### The numbers of a value -/

mutual

/-- All numbers in a value, however deep. -/
def numbers : Json → List Number
  | .num n => [n]
  | .arr items => numbersOfItems items
  | .obj ms => numbersOfMembers ms
  | .null | .bool _ | .str _ => []

/-- All numbers in some items. -/
def numbersOfItems : List Json → List Number
  | [] => []
  | v :: vs => numbers v ++ numbersOfItems vs

/-- All numbers in some members. -/
def numbersOfMembers : List (String × Json) → List Number
  | [] => []
  | (_, v) :: ms => numbers v ++ numbersOfMembers ms

end

theorem mem_numbersOfItems {n : Number} {vs : List Json} :
    n ∈ numbersOfItems vs ↔ ∃ v ∈ vs, n ∈ v.numbers := by
  induction vs with
  | nil => simp [numbersOfItems]
  | cons v vs ih => simp [numbersOfItems, ih]

theorem mem_numbersOfMembers {n : Number} {ms : List (String × Json)} :
    n ∈ numbersOfMembers ms ↔ ∃ m ∈ ms, n ∈ m.2.numbers := by
  induction ms with
  | nil => simp [numbersOfMembers]
  | cons m ms ih => simp [numbersOfMembers, ih]

/-- A property of all numbers in a value, beside one that they are known to have. -/
theorem Regular.of_numbers (h : v.Regular p) (hq : ∀ n ∈ v.numbers, p n → q n) : v.Regular q := by
  induction h with
  | null => exact .null
  | bool b => exact .bool b
  | @num n hn => exact .num (hq n (by simp [numbers]) hn)
  | str s => exact .str s
  | arr hitems ih =>
    refine .arr fun w hw => ih w hw fun n hn => hq n ?_
    rw [numbers]
    exact mem_numbersOfItems.mpr ⟨w, hw, hn⟩
  | obj hsorted hms ih =>
    refine .obj hsorted fun m hm => ih m hm fun n hn => hq n ?_
    rw [numbers]
    exact mem_numbersOfMembers.mpr ⟨m, hm, hn⟩

/-! ### Whole numbers -/

theorem ofDouble_cases (x : Float) :
    ((Double.toInt x).natAbs ≤ Number.maxSafe ∧ ofDouble x = .num (.int (Double.toInt x))) ∨
    ((Number.float x).Settled ∧ ofDouble x = .num (.float x)) ∨ ofDouble x = .null := by
  unfold ofDouble Number.ofDouble?
  simp only [Bool.and_eq_true, decide_eq_true_eq]
  split_ifs with hwhole hfinite
  · exact .inl ⟨hwhole.2, rfl⟩
  · exact .inr (.inl ⟨hwhole, rfl⟩)
  · exact .inr (.inr rfl)

theorem ofDouble_of_settled {x : Float} (h : (Number.float x).Settled)
    (hfinite : Double.isFinite x = true) : ofDouble x = .num (.float x) := by
  have hnot : ¬ (Double.isWhole x && (Double.toInt x).natAbs ≤ Number.maxSafe) = true := by
    rw [Bool.and_eq_true, decide_eq_true_eq]
    exact h
  rw [ofDouble, Number.ofDouble?, if_neg hnot, if_pos hfinite, Option.map_some, Option.getD_some]

theorem wholeItems_eq_map (vs : List Json) : wholeItems vs = vs.map wholeNumbers := by
  induction vs with
  | nil => rfl
  | cons v vs ih => rw [wholeItems, ih, List.map_cons]

theorem wholeMembers_eq_mapValues (ms : Members Json) :
    wholeMembers ms = ms.mapValues wholeNumbers := by
  induction ms with
  | nil => rfl
  | cons m ms ih => rw [wholeMembers, ih, Members.mapValues_cons]

mutual

theorem nesting_wholeNumbers : (v : Json) → v.wholeNumbers.nesting = v.nesting
  | .null => rfl
  | .bool _ => rfl
  | .str _ => rfl
  | .num (.int _) => rfl
  | .num (.float x) => by
    rcases ofDouble_cases x with ⟨-, h⟩ | ⟨-, h⟩ | h
    all_goals simp only [wholeNumbers, h, nesting]
  | .arr items => by rw [wholeNumbers, nesting, nesting, nesting_wholeItems items]
  | .obj ms => by rw [wholeNumbers, nesting, nesting, nesting_wholeMembers ms]

theorem nesting_wholeItems : (vs : List Json) → nestingOfItems (wholeItems vs) = nestingOfItems vs
  | [] => rfl
  | v :: vs => by
    rw [wholeItems, nestingOfItems, nestingOfItems, nesting_wholeNumbers v, nesting_wholeItems vs]

theorem nesting_wholeMembers : (ms : List (String × Json)) →
    nestingOfMembers (wholeMembers ms) = nestingOfMembers ms
  | [] => rfl
  | (k, v) :: ms => by
    rw [wholeMembers, nestingOfMembers, nestingOfMembers, nesting_wholeNumbers v,
      nesting_wholeMembers ms]

end

theorem regular_wholeNumbers (h : v.Regular Number.Fits) :
    v.wholeNumbers.Regular fun n => n.Fits ∧ n.Settled := by
  induction h with
  | null => exact .null
  | bool b => exact .bool b
  | str s => exact .str s
  | @num n hn =>
    cases n with
    | int i => exact .num ⟨hn, trivial⟩
    | float x =>
      rw [wholeNumbers]
      rcases ofDouble_cases x with ⟨hsmall, h⟩ | ⟨hsettled, h⟩ | h
      · have hmax : Number.maxSafe = 9007199254740991 := rfl
        rw [h]
        exact .num ⟨Number.fits_int_iff.mpr ⟨by omega, by omega⟩, trivial⟩
      · rw [h]
        exact .num ⟨trivial, hsettled⟩
      · rw [h]
        exact .null
  | arr hitems ih =>
    rw [wholeNumbers, wholeItems_eq_map]
    exact .arr (List.forall_mem_map.mpr ih)
  | obj hsorted hms ih =>
    rw [wholeNumbers, wholeMembers_eq_mapValues]
    exact .obj (hsorted.mapValues wholeNumbers) (List.forall_mem_map.mpr ih)

/-- A double that is read from its own text is finite: the others are written as `null`. -/
theorem isFinite_of_rereads {x : Float} (h : (Number.float x).Rereads) :
    Double.isFinite x = true := by
  cases hx : Double.parts x with
  | finite negative m e => simp only [Double.isFinite, hx]
  | nan | infinite =>
    have hnull : (Number.float x).chars = ['n', 'u', 'l', 'l'] := by
      simp only [Number.chars, Number.floatText, hx]
    rw [Number.Rereads, hnull] at h
    cases h

/-- A value of settled numbers is left as it is. -/
theorem wholeNumbers_eq_self (h : v.Regular fun n => n.Rereads ∧ n.Settled) :
    v.wholeNumbers = v := by
  induction h with
  | null => rfl
  | bool b => rfl
  | str s => rfl
  | @num n hn =>
    cases n with
    | int i => rfl
    | float x =>
      rw [wholeNumbers]
      exact ofDouble_of_settled hn.2 (isFinite_of_rereads hn.1)
  | @arr items hitems ih =>
    have hitems : items.map wholeNumbers = items :=
      List.map_congr_left ih |>.trans (List.map_id items)
    rw [wholeNumbers, wholeItems_eq_map, hitems]
  | @obj ms hsorted hms ih =>
    have hms : ms.mapValues wholeNumbers = ms := by
      refine (List.map_congr_left fun m hm => ?_).trans (List.map_id ms)
      rw [ih m hm]
      rfl
    rw [wholeNumbers, wholeMembers_eq_mapValues, hms]

/-! ### Values in the store -/

/-- A value as it is stored for a string: its objects in order, its numbers settled, and nested no
deeper than can be read. -/
structure Stored (v : Json) : Prop where
  regular : v.Regular fun n => n.Fits ∧ n.Settled
  nesting_le : v.nesting ≤ maxNesting

theorem coerce_str (t : String) :
    (Json.str t).coerce =
      ((parseChars? (Text.trim t.toList)).map wholeNumbers).getD (.str (Text.trimmed t)) := by
  unfold coerce
  simp only
  cases parseChars? (Text.trim t.toList) with
  | none => rfl
  | some v => rfl

theorem stored_coerce (t : String) : (Json.str t).coerce.Stored := by
  rw [coerce_str]
  cases hread : parseChars? (Text.trim t.toList) with
  | none => exact ⟨.str _, Nat.zero_le _⟩
  | some v =>
    obtain ⟨hregular, hnesting⟩ := readable_of_parseChars? hread
    exact ⟨regular_wholeNumbers hregular, (nesting_wholeNumbers v).trans_le hnesting⟩

/-- **A stored value is stored again from its text**, if its doubles are read from theirs. -/
theorem Stored.coerce_text (h : v.Stored)
    (hfloats : ∀ x, .float x ∈ v.numbers → (Number.float x).Rereads) {before after : List Char}
    (hbefore : ∀ c ∈ before, Text.isBlank c = true) (hafter : ∀ c ∈ after, Text.isBlank c = true) :
    (Json.str (String.ofList (before ++ v.compact ++ after))).coerce = v := by
  have hnumbers : v.Regular fun n => n.Rereads ∧ n.Settled := by
    refine h.regular.of_numbers fun n hn hfits => ⟨?_, hfits.2⟩
    cases n with
    | int i => exact rereads_int hfits.1
    | float x => exact hfloats x hn
  have htrim : Text.trim (before ++ v.compact ++ after) = v.compact := by
    rw [Text.trim_append_blanks hafter, Text.trim_blanks_append hbefore,
      Text.trim_eq_self (isTrimmed_compact v).2]
  have hread : parseChars? v.compact = some v :=
    parseChars?_compact (hnumbers.mono fun n hn => hn.1) h.nesting_le
  rw [coerce_str, String.toList_ofList, htrim, hread, Option.map_some, Option.getD_some]
  exact wholeNumbers_eq_self hnumbers

/-- **Decoded values survive being printed and stored again.** What is stored for a string `t` is
stored once more for its own JSON text with blanks around it. And a value that is nested less than
128 deep, and in which no double is a whole number up to `maxSafe`, is stored for its JSON text with
blanks around it, so that it is found again at every path under which that text is written. The
objects of a value are in order and its whole numbers have 64 bits; that its doubles are read from
their digits is assumed. A string is no exception to any of this, since its JSON text is quoted. -/
theorem coerce_printed {before after : List Char} (hbefore : ∀ c ∈ before, Text.isBlank c = true)
    (hafter : ∀ c ∈ after, Text.isBlank c = true) :
    (∀ (t : String) (w : Json), (Json.str t).coerce = w →
      (∀ x, .float x ∈ w.numbers → (Number.float x).Rereads) →
      (Json.str (String.ofList (before ++ w.compact ++ after))).coerce = w) ∧
    ∀ v : Json, v.Regular Number.Fits → v.nesting < 128 →
      (∀ x, .float x ∈ v.numbers → (Number.float x).Rereads ∧ (Number.float x).Settled) →
      (Json.str (String.ofList (before ++ v.compact ++ after))).coerce = v ∧
        ∀ (s : Store) (path : String),
          (s.set path (.str (String.ofList (before ++ v.compact ++ after)))).lookup path =
            some v := by
  constructor
  · rintro t w rfl hfloats
    exact (stored_coerce t).coerce_text hfloats hbefore hafter
  · intro v hregular hnesting hfloats
    have hsettled : v.Regular fun n => n.Fits ∧ n.Settled := by
      refine hregular.of_numbers fun n hn hfits => ⟨hfits, ?_⟩
      cases n with
      | int i => trivial
      | float x => exact (hfloats x hn).2
    have hstored : v.Stored := ⟨hsettled, Nat.le_of_lt_succ hnesting⟩
    have hsame := hstored.coerce_text (fun x hx => (hfloats x hx).1) hbefore hafter
    refine ⟨hsame, fun s path => ?_⟩
    rw [Store.lookup_set_self, hsame]

/-- A list in an object, of a number and 1.5, beside a string that looks like a number. -/
def mixture (n : Number) : Json :=
  .obj [("a", .arr [.num n, .num (.float (Double.ofDecimal 15 (-1)))]), ("b", .str " 5 ")]

/-- The text of 2.0 is stored as 2, and so is its text again; the string with the 5 stays a
string. -/
theorem mixture_coerce_printed :
    (Json.str (mixture (.float (Double.ofInt 2))).text).coerce = mixture (.int 2) ∧
      (Json.str (String.ofList ([' '] ++ (mixture (.int 2)).compact ++ ['\n']))).coerce =
        mixture (.int 2) ∧
      ((Store.mk []).set "x.y"
          (.str (String.ofList ([' '] ++ (mixture (.int 2)).compact ++ ['\n'])))).lookup "x.y" =
        some (mixture (.int 2)) := by
  have hrereads : (Number.float (Double.ofDecimal 15 (-1))).Rereads := by decide +kernel
  have hfraction : Double.isWhole (Double.ofDecimal 15 (-1)) = false := by decide +kernel
  have hsettled : (Number.float (Double.ofDecimal 15 (-1))).Settled := fun h => by
    rw [hfraction] at h
    cases h.1
  have hregular {p : Number → Prop} {n : Number} (hn : p n)
      (hp : p (.float (Double.ofDecimal 15 (-1)))) : (mixture n).Regular p := by
    have hsorted : "a" < "b" := by decide
    refine .obj (List.pairwise_pair.mpr hsorted) ?_
    simp only [List.forall_mem_cons]
    refine ⟨.arr ?_, .str _, List.forall_mem_nil _⟩
    simp only [List.forall_mem_cons]
    exact ⟨.num hn, .num hp, List.forall_mem_nil _⟩
  have hfirst : (Json.str (mixture (.float (Double.ofInt 2))).text).coerce = mixture (.int 2) := by
    have hrereads' : (Number.float (Double.ofInt 2)).Rereads := by decide +kernel
    have hnesting : (mixture (.float (Double.ofInt 2))).nesting = 2 := rfl
    have hread := parseChars?_compact (hregular hrereads' hrereads) (hnesting.trans_le (by decide))
    have htwo : Number.ofDouble? (Double.ofInt 2) = some (.int 2) := by decide +kernel
    have hdouble : ofDouble (Double.ofInt 2) = .num (.int 2) := by
      rw [ofDouble, htwo]
      rfl
    have hhalf := ofDouble_of_settled hsettled (isFinite_of_rereads hrereads)
    rw [coerce_str, text, String.toList_ofList, Text.trim_eq_self (isTrimmed_compact _).2, hread]
    simp [mixture, wholeNumbers, wholeItems, wholeMembers, hdouble, hhalf]
  have hfloats : ∀ x, .float x ∈ (mixture (.int 2)).numbers →
      (Number.float x).Rereads ∧ (Number.float x).Settled := by
    have hnumbers : (mixture (.int 2)).numbers = [.int 2, .float (Double.ofDecimal 15 (-1))] := rfl
    intro x hx
    simp only [hnumbers, List.mem_cons, reduceCtorEq, false_or, List.not_mem_nil, or_false] at hx
    exact hx ▸ ⟨hrereads, hsettled⟩
  have hfits : (Number.int 2).Fits := ⟨by decide, by decide⟩
  obtain ⟨hagain, hvalue⟩ :=
    coerce_printed (List.forall_mem_singleton.mpr (by rfl : Text.isBlank ' ' = true))
      (List.forall_mem_singleton.mpr (by rfl : Text.isBlank '\n' = true))
  exact ⟨hfirst, hagain _ _ hfirst fun x hx => (hfloats x hx).1,
    (hvalue _ (hregular hfits trivial) (by decide) hfloats).2 ⟨[]⟩ "x.y"⟩

end Json

end CommandChain
