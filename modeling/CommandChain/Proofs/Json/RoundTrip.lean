import CommandChain.Proofs.Json.Printed
import CommandChain.Proofs.Json.Regular

/-!
# JSON text is read back

The reader finds in the text of a value that value (`Json.parseChars?_compact`), if the members of
its objects are in order, it is not nested too deep, and each of its numbers is read from its own
digits. The last is proved of whole numbers of 64 bits (`Json.rereads_int`) and has to be known of
doubles. A value inside of another one is followed by a comma or a closing bracket, and neither goes
on with a number (`Json.readNumber?_append`); strings are read up to their own quotation mark
(`Json.readString_quoted`). -/

namespace CommandChain

/-- The number is what is read from its own digits. -/
def Number.Rereads (n : Number) : Prop := Json.readNumber? n.chars = some (n, [])

instance (n : Number) : Decidable n.Rereads :=
  inferInstanceAs (Decidable (Json.readNumber? n.chars = some (n, [])))

namespace Json

open Syntax (takeWhile_append_of_stop)

variable {cs rest more : List Char} {n : Number} {i : Int}

/-! ### What follows a value -/

/-- What follows a value inside of another one: a comma, a closing bracket or nothing at all. -/
def Delimited (cs : List Char) : Prop := ∀ c ∈ cs.head?, c = ',' ∨ c = ']' ∨ c = '}'

theorem Delimited.nil : Delimited [] := by simp [Delimited]

theorem delimited_cons {c : Char} (hc : c = ',' ∨ c = ']' ∨ c = '}') (cs : List Char) :
    Delimited (c :: cs) := by
  rintro _ ⟨⟩
  exact hc

theorem Delimited.isDigit (h : Delimited rest) : ∀ c ∈ rest.head?, c.isDigit = false := by
  intro c hc
  rcases h c hc with rfl | rfl | rfl <;> decide

/-! ### Numbers -/

theorem readSign_append (h : cs ≠ []) :
    Decimal.readSign (cs ++ rest) = ((Decimal.readSign cs).1, (Decimal.readSign cs).2 ++ rest) := by
  obtain ⟨c, cs, rfl⟩ := List.exists_cons_of_ne_nil h
  rw [List.cons_append]
  unfold Decimal.readSign
  split <;> simp_all

theorem readExponent?_append (hrest : Delimited rest) (h : readExponent? cs = some (i, more)) :
    readExponent? (cs ++ rest) = some (i, more ++ rest) := by
  have hne : cs ≠ [] := by
    rintro rfl
    cases h
  unfold readExponent? at h ⊢
  obtain ⟨htake, hdrop⟩ := takeWhile_append_of_stop (Decimal.readSign cs).2 hrest.isDigit
  simp only [readSign_append hne, htake, hdrop] at h ⊢
  split_ifs at h ⊢
  all_goals
    cases h
    rfl

theorem readScaled?_append {negative : Bool} {significand : Nat} {power : Int}
    (hrest : Delimited rest) (h : readScaled? negative significand power cs = some (n, more)) :
    readScaled? negative significand power (cs ++ rest) = some (n, more ++ rest) := by
  by_cases hmark : ∃ c ds, cs = c :: ds ∧ (c = 'e' ∨ c = 'E')
  · obtain ⟨c, ds, rfl, hc⟩ := hmark
    rw [readScaled?_exponent hc] at h
    obtain ⟨⟨i, after⟩, hexponent, h⟩ := Option.bind_eq_some_iff.mp h
    obtain ⟨x, hx, h⟩ := Option.map_eq_some_iff.mp h
    cases h
    rw [List.cons_append, readScaled?_exponent hc, readExponent?_append hrest hexponent,
      Option.bind_some, hx, Option.map_some]
  · have hne : ∀ c ∈ (cs ++ rest).head?, c ≠ 'e' ∧ c ≠ 'E' := by
      intro c hc
      cases cs with
      | nil => rcases hrest c hc with rfl | rfl | rfl <;> decide
      | cons d ds =>
        obtain rfl : d = c := Option.some.inj hc
        exact not_or.mp fun h => hmark ⟨d, ds, rfl, h⟩
    have hne' : ∀ c ∈ cs.head?, c ≠ 'e' ∧ c ≠ 'E' := by
      intro c hc
      obtain ⟨ds, rfl⟩ := List.head?_eq_some_iff.mp hc
      exact hne c rfl
    rw [readScaled?_of_ne hne'] at h
    obtain ⟨x, hx, h⟩ := Option.map_eq_some_iff.mp h
    cases h
    rw [readScaled?_of_ne hne, hx, Option.map_some]

/-- A text that does not begin with a mark does not either with more behind it. -/
theorem append_ne_cons {mark : Char} (hmark : mark ≠ ',' ∧ mark ≠ ']' ∧ mark ≠ '}')
    (hrest : Delimited rest) (h : ∀ ds, cs ≠ mark :: ds) : ∀ ds, cs ++ rest ≠ mark :: ds := by
  intro ds hds
  cases cs with
  | nil =>
    have hhead : mark ∈ rest.head? := by
      rw [← List.nil_append rest, hds]
      rfl
    rcases hrest mark hhead with hc | hc | hc
    · exact hmark.1 hc
    · exact hmark.2.1 hc
    · exact hmark.2.2 hc
  | cons c cs =>
    obtain ⟨rfl, -⟩ := List.cons.inj hds
    exact h cs rfl

theorem readTail?_append {negative : Bool} {whole : List Char} (hrest : Delimited rest)
    (h : readTail? negative whole cs = some (n, more)) :
    readTail? negative whole (cs ++ rest) = some (n, more ++ rest) := by
  by_cases hpoint : ∃ ds, cs = '.' :: ds
  · obtain ⟨ds, rfl⟩ := hpoint
    obtain ⟨htake, hdrop⟩ := takeWhile_append_of_stop ds hrest.isDigit
    simp only [readTail?, List.cons_append, htake, hdrop] at h ⊢
    split_ifs at h ⊢
    exact readScaled?_append hrest h
  · have hne : ∀ ds, cs ≠ '.' :: ds := not_exists.mp hpoint
    have hexponent : ((cs ++ rest).head?.map fun c => c == 'e' || c == 'E').getD false =
        (cs.head?.map fun c => c == 'e' || c == 'E').getD false := by
      cases cs with
      | nil =>
        cases rest with
        | nil => rfl
        | cons c rest => rcases hrest c rfl with rfl | rfl | rfl <;> rfl
      | cons c cs => rfl
    rw [readTail?_of_ne hne] at h
    rw [readTail?_of_ne (append_ne_cons (by decide) hrest hne), hexponent]
    split_ifs at h ⊢
    · exact readScaled?_append hrest h
    all_goals
      cases h
      rfl

/-- What is read for a number does not depend on what follows. -/
theorem readNumber?_append (hrest : Delimited rest) (h : readNumber? cs = some (n, more)) :
    readNumber? (cs ++ rest) = some (n, more ++ rest) := by
  have hunsigned (negative : Bool) {ds : List Char}
      (h : readUnsigned? negative ds = some (n, more)) :
      readUnsigned? negative (ds ++ rest) = some (n, more ++ rest) := by
    obtain ⟨htake, hdrop⟩ := takeWhile_append_of_stop ds hrest.isDigit
    simp only [readUnsigned?, htake, hdrop] at h ⊢
    split_ifs at h ⊢
    exact readTail?_append hrest h
  by_cases hminus : ∃ ds, cs = '-' :: ds
  · obtain ⟨ds, rfl⟩ := hminus
    rw [readNumber?_minus] at h
    rw [List.cons_append, readNumber?_minus, hunsigned true h]
  · have hne : ∀ ds, cs ≠ '-' :: ds := not_exists.mp hminus
    rw [readNumber?_of_ne hne] at h
    rw [readNumber?_of_ne (append_ne_cons (by decide) hrest hne), hunsigned false h]

/-! #### Whole numbers -/

theorem le_ofDigitChars (ds : List Char) (k : Nat) : k ≤ Nat.ofDigitChars 10 ds k := by
  induction ds generalizing k with
  | nil => exact Nat.le_refl k
  | cons c ds ih =>
    rw [Nat.ofDigitChars_cons]
    have := ih (10 * k + (c.toNat - '0'.toNat))
    omega

/-- All digits are appended, if the number that they write is not too large. -/
theorem appendDigits_eq {ds : List Char} {k : Nat} (h : Nat.ofDigitChars 10 ds k ≤ maxSignificand) :
    appendDigits k ds = (Nat.ofDigitChars 10 ds k, 0) := by
  induction ds generalizing k with
  | nil => rfl
  | cons c ds ih =>
    rw [Nat.ofDigitChars_cons] at h ⊢
    have hnext : k * 10 + (c.toNat - 48) = 10 * k + (c.toNat - '0'.toNat) := by
      have hzero : '0'.toNat = 48 := rfl
      omega
    have hle := le_ofDigitChars ds (10 * k + (c.toNat - '0'.toNat))
    simp only [appendDigits, hnext]
    rw [if_pos (hle.trans h), ih h]

theorem head?_digits_ne {m : Nat} (hm : 0 < m) : (Decimal.digits m).head? ≠ some '0' := by
  induction m using Nat.strong_induction_on with
  | _ m ih =>
    rw [Decimal.digits, Nat.toDigits_eq_if (by decide)]
    split_ifs with hlt
    · have hsmall : ∀ k < 10, 0 < k → Nat.digitChar k ≠ '0' := by decide
      simpa using hsmall m hlt hm
    · have hshort : m / 10 < m := by omega
      have hfront := ih (m / 10) hshort (by omega)
      rwa [List.head?_append_of_ne_nil _ Nat.toDigits_ne_nil]

/-- The digits of a whole number are read behind a sign or none. -/
theorem readUnsigned?_digits (negative : Bool) {m : Nat} (hm : m ≤ maxSignificand) :
    readUnsigned? negative (Decimal.digits m) =
      if !negative then some (.int m, [])
      else if 0 < m && m ≤ Nat.pow 2 63 then some (.int (-(m : Int)), [])
      else some (.float (-(Double.ofInt m)), []) := by
  have hdigits : ∀ c ∈ Decimal.digits m, c.isDigit = true := fun c => Decimal.isDigit_of_mem_digits
  have htake : (Decimal.digits m).takeWhile Char.isDigit = Decimal.digits m :=
    List.takeWhile_eq_self_iff.mpr hdigits
  have hdrop : (Decimal.digits m).dropWhile Char.isDigit = [] :=
    List.dropWhile_eq_nil_iff.mpr hdigits
  have hzeros : ((Decimal.digits m).isEmpty ||
      ((Decimal.digits m).head? == some '0' && (Decimal.digits m).length != 1)) = false := by
    have hnonempty : (Decimal.digits m).isEmpty = false := by simp [Decimal.digits_ne_nil]
    rw [hnonempty, Bool.false_or]
    rcases Nat.eq_zero_or_pos m with rfl | hpos
    · decide
    · have hhead : ((Decimal.digits m).head? == some '0') = false := by
        simpa using head?_digits_ne hpos
      rw [hhead, Bool.false_and]
  have hvalue : Nat.ofDigitChars 10 (Decimal.digits m) 0 = m :=
    Nat.ofDigitChars_toDigits (by decide) (by decide)
  have happend : appendDigits 0 (Decimal.digits m) = (m, 0) := by
    rw [appendDigits_eq (hvalue.symm ▸ hm), hvalue]
  simp only [readUnsigned?, htake, hdrop, hzeros]
  rw [if_neg (by decide), readTail?_of_ne (by simp), happend]
  rfl

/-- A whole number of 64 bits is read from its own digits. -/
theorem rereads_int (h : (Number.int i).Fits) : (Number.int i).Rereads := by
  obtain ⟨hlow, hhigh⟩ := Number.fits_int_iff.mp h
  have hmax : maxSignificand = 18446744073709551615 := rfl
  have hpower : Nat.pow 2 63 = 9223372036854775808 := rfl
  rw [Number.Rereads, Number.chars, Number.intText]
  split_ifs with hneg
  · rw [readNumber?_minus, readUnsigned?_digits true (by omega), if_neg (by decide), if_pos]
    · congr
      omega
    · simp only [Bool.and_eq_true, decide_eq_true_eq]
      omega
  · have hsign : ∀ ds, Decimal.digits i.natAbs ≠ '-' :: ds := by
      intro ds hds
      have hdigit := Decimal.isDigit_of_mem_digits (hds ▸ List.mem_cons_self)
      exact absurd hdigit (by decide)
    rw [readNumber?_of_ne hsign, readUnsigned?_digits false (by omega), if_pos (by decide)]
    congr
    omega

/-! ### Strings -/

/-- The reader finds the value, and leaves the rest. -/
def Finds {α : Type} {cs : List Char} (r : Option (Parsed α cs)) (a : α)
    (rest : List Char) : Prop :=
  ∃ p, r = some p ∧ p.value = a ∧ p.rest = rest

theorem readEscape_letter {c x : Char} (hx : x ≠ 'u') (hc : escaped? x = some c) (cs : List Char) :
    Finds (readEscape (x :: cs)) c cs := by
  rw [readEscape]
  · split
    · next h => cases h.symm.trans hc
    · next e h =>
      obtain rfl := Option.some.inj (h.symm.trans hc)
      exact ⟨_, rfl, rfl, rfl⟩
  · intro a b c d rest hmark
    exact absurd hmark hx

theorem readEscape_control {c : Char} (h : c.toNat < 32) (cs : List Char) :
    Finds
      (readEscape ('u' :: '0' :: '0' :: hexDigit (c.toNat / 16) :: hexDigit (c.toNat % 16) :: cs))
      c cs := by
  have hnumber : ∀ n < 32,
      Text.hexNumber? ['0', '0', hexDigit (n / 16), hexDigit (n % 16)] = some n := by decide
  have hsingle : ∀ n < 32, isLowSurrogate n = false ∧ isHighSurrogate n = false := by decide
  simp [readEscape, hnumber _ h, hsingle _ h, Finds]

theorem readString_quote (cs : List Char) : Finds (readString ('"' :: cs)) [] cs := by
  rw [readString, if_pos (by decide)]
  exact ⟨_, rfl, rfl, rfl⟩

theorem readString_escape {c : Char} {s after : List Char} (hescape : Finds (readEscape cs) c after)
    (hmore : Finds (readString after) s rest) : Finds (readString ('\\' :: cs)) (c :: s) rest := by
  obtain ⟨e, he, rfl, rfl⟩ := hescape
  obtain ⟨p, hp, rfl, rfl⟩ := hmore
  rw [readString, if_neg (by decide), if_pos (by decide), he]
  simp only [hp]
  exact ⟨_, rfl, rfl, rfl⟩

theorem readString_plain {c : Char} {s : List Char} (hquote : c ≠ '"') (hslash : c ≠ '\\')
    (hcontrol : 32 ≤ c.toNat) (hmore : Finds (readString cs) s rest) :
    Finds (readString (c :: cs)) (c :: s) rest := by
  obtain ⟨p, hp, rfl, rfl⟩ := hmore
  rw [readString, if_neg (by simpa using hquote), if_neg (by simpa using hslash),
    if_neg (by omega), hp]
  exact ⟨_, rfl, rfl, rfl⟩

/-- A text is read from its JSON string. -/
theorem readString_quoted (s cs : List Char) :
    Finds (readString (s.flatMap escapeChar ++ '"' :: cs)) s cs := by
  induction s with
  | nil => exact readString_quote cs
  | cons c s ih =>
    rw [List.flatMap_cons, List.append_assoc]
    rcases escapeChar_cases c with ⟨hc, hquote, hslash, hcontrol⟩ |
      ⟨x, hc, hx, -, hletter⟩ | ⟨hc, hlt⟩
    · rw [hc]
      exact readString_plain hquote hslash hcontrol ih
    · rw [hc]
      exact readString_escape (readEscape_letter hx hletter _) ih
    · rw [hc]
      exact readString_escape (readEscape_control hlt _) ih

/-! ### Marks -/

theorem skipSpace_cons {c : Char} (hc : Text.isSpace c = false) (cs : List Char) :
    skipSpace (c :: cs) = c :: cs := by
  rw [skipSpace, List.dropWhile_cons_of_neg (by simp [hc])]

theorem readMark_self {mark : Char} (hmark : Text.isSpace mark = false) (cs : List Char) :
    Finds (readMark mark (mark :: cs)) () cs := by
  unfold readMark
  split
  · next c rest h =>
    obtain ⟨rfl, rfl⟩ := List.cons.inj ((skipSpace_cons hmark cs).symm.trans h)
    rw [if_pos (by simp)]
    exact ⟨_, rfl, rfl, rfl⟩
  · next h => cases (skipSpace_cons hmark cs).symm.trans h

theorem readMark_of_ne {c mark : Char} (hc : Text.isSpace c = false) (hne : c ≠ mark)
    (cs : List Char) : readMark mark (c :: cs) = none := by
  unfold readMark
  split
  · next d rest h =>
    obtain ⟨rfl, rfl⟩ := List.cons.inj ((skipSpace_cons hc cs).symm.trans h)
    rw [if_neg (by simpa using hne)]
  · rfl

/-! ### Values -/

/-- A value without blanks in front is told by its first character. -/
theorem readValue_cons {c : Char} (hc : Text.isSpace c = false) (room : Nat) (cs : List Char) :
    readValue room (c :: cs) =
      if c == '"' then
        (readString cs).map fun s =>
          (s.map fun t => Json.str (String.ofList t)).widen (length_le_cons c cs)
      else if c == '[' then
        match room with
        | 0 => none
        | room + 1 =>
          match readMark ']' cs with
          | some m => some ⟨.arr [], m.rest, Nat.lt_trans m.shorter (length_lt_cons c cs)⟩
          | none =>
            match readItems room cs with
            | some vs =>
              some ⟨.arr vs.value, vs.rest, Nat.lt_trans vs.shorter (length_lt_cons c cs)⟩
            | none => none
      else if c == '{' then
        match room with
        | 0 => none
        | room + 1 =>
          match readMark '}' cs with
          | some m => some ⟨.obj [], m.rest, Nat.lt_trans m.shorter (length_lt_cons c cs)⟩
          | none =>
            match readMembers room cs with
            | some ms => some ⟨.obj (Members.ofList ms.value), ms.rest,
                Nat.lt_trans ms.shorter (length_lt_cons c cs)⟩
            | none => none
      else if c == 'n' then readWord ['n', 'u', 'l', 'l'] .null (c :: cs)
      else if c == 't' then readWord ['t', 'r', 'u', 'e'] (.bool true) (c :: cs)
      else if c == 'f' then readWord ['f', 'a', 'l', 's', 'e'] (.bool false) (c :: cs)
      else (Parsed.checked (readNumber? (c :: cs))).map (·.map .num) := by
  rw [readValue]
  split
  · next h => cases (skipSpace_cons hc cs).symm.trans h
  · next d tail h =>
    obtain ⟨rfl, rfl⟩ := List.cons.inj ((skipSpace_cons hc cs).symm.trans h)
    have hwiden (r : Option (Parsed Json (c :: cs))) : r.map (·.widen (Nat.le_refl _)) = r := by
      cases r <;> rfl
    -- only the last of the branches is widened
    exact ite_congr rfl (fun _ => rfl) fun _ => ite_congr rfl (fun _ => rfl) fun _ =>
      ite_congr rfl (fun _ => rfl) fun _ => hwiden _

theorem readValue_string {s : List Char} (room : Nat) (h : Finds (readString cs) s rest) :
    Finds (readValue room ('"' :: cs)) (.str (String.ofList s)) rest := by
  obtain ⟨p, hp, rfl, rfl⟩ := h
  rw [readValue_cons (by decide), if_pos (by decide), hp]
  exact ⟨_, rfl, rfl, rfl⟩

theorem readValue_emptyArray (room : Nat) (h : Finds (readMark ']' cs) () rest) :
    Finds (readValue (room + 1) ('[' :: cs)) (.arr []) rest := by
  obtain ⟨p, hp, -, rfl⟩ := h
  rw [readValue_cons (by decide), if_neg (by decide), if_pos (by decide)]
  simp only [hp]
  exact ⟨_, rfl, rfl, rfl⟩

theorem readValue_array {vs : List Json} (room : Nat) (hopen : readMark ']' cs = none)
    (h : Finds (readItems room cs) vs rest) :
    Finds (readValue (room + 1) ('[' :: cs)) (.arr vs) rest := by
  obtain ⟨p, hp, rfl, rfl⟩ := h
  rw [readValue_cons (by decide), if_neg (by decide), if_pos (by decide)]
  simp only [hopen, hp]
  exact ⟨_, rfl, rfl, rfl⟩

theorem readValue_emptyObject (room : Nat) (h : Finds (readMark '}' cs) () rest) :
    Finds (readValue (room + 1) ('{' :: cs)) (.obj []) rest := by
  obtain ⟨p, hp, -, rfl⟩ := h
  rw [readValue_cons (by decide), if_neg (by decide), if_neg (by decide), if_pos (by decide)]
  simp only [hp]
  exact ⟨_, rfl, rfl, rfl⟩

theorem readValue_object {ms : List (String × Json)} (room : Nat) (hopen : readMark '}' cs = none)
    (h : Finds (readMembers room cs) ms rest) :
    Finds (readValue (room + 1) ('{' :: cs)) (.obj (Members.ofList ms)) rest := by
  obtain ⟨p, hp, rfl, rfl⟩ := h
  rw [readValue_cons (by decide), if_neg (by decide), if_neg (by decide), if_pos (by decide)]
  simp only [hopen, hp]
  exact ⟨_, rfl, rfl, rfl⟩

theorem finds_readWord (word : List Char) (v : Json) (hword : word ≠ []) (cs : List Char) :
    Finds (readWord word v (word ++ cs)) v cs := by
  have hlength : word.length ≠ 0 := by simpa using hword
  have hdrop : (word ++ cs).drop word.length = cs := List.drop_left
  rw [readWord, dif_pos]
  · exact ⟨_, rfl, rfl, hdrop⟩
  · refine ⟨List.isPrefixOf_iff_prefix.mpr (List.prefix_append _ _), ?_⟩
    rw [hdrop, List.length_append]
    omega

/-- A literal name is read, whatever follows. -/
theorem readValue_word {word : List Char} {v : Json} (room : Nat) (h : (word, v) ∈ words)
    (cs : List Char) : Finds (readValue room (word ++ cs)) v cs := by
  have hne : word ≠ [] := by
    rintro rfl
    exact absurd h (by simp [words])
  have hword := finds_readWord word v hne cs
  simp only [words, List.mem_cons, Prod.mk.injEq, List.not_mem_nil, or_false] at h
  rcases h with ⟨rfl, rfl⟩ | ⟨rfl, rfl⟩ | ⟨rfl, rfl⟩
  all_goals
    rw [List.cons_append] at hword ⊢
    rw [readValue_cons (by decide)]
    exact hword

theorem readValue_number {c : Char} (room : Nat) (hc : c = '-' ∨ c.isDigit = true)
    (hread : readNumber? (c :: cs) = some (n, rest)) (hshort : rest.length < (c :: cs).length) :
    Finds (readValue room (c :: cs)) (.num n) rest := by
  have hne (d : Char) (hd : d ≠ '-' ∧ d.isDigit = false) : (c == d) = false := by
    refine beq_eq_false_iff_ne.mpr fun hcd => ?_
    rcases hc with rfl | hc
    · exact hd.1 hcd.symm
    · rw [hcd, hd.2] at hc
      cases hc
  have hspace : Text.isSpace c = false := by simp [Text.isSpace, hne]
  rw [readValue_cons hspace]
  simp only [hne '"' (by decide), hne '[' (by decide), hne '{' (by decide), hne 'n' (by decide),
    hne 't' (by decide), hne 'f' (by decide), Bool.false_eq_true, if_false]
  rw [hread, Parsed.checked, dif_pos hshort]
  exact ⟨_, rfl, rfl, rfl⟩

/-! ### Items and members -/

section

variable {room : Nat} {a b c d e : List Char} {v : Json} {k : List Char}

theorem readItems_last (hv : Finds (readValue room cs) v a)
    (hend : Finds (readMark ']' a) () rest) : Finds (readItems room cs) [v] rest := by
  obtain ⟨p, hp, rfl, rfl⟩ := hv
  obtain ⟨m, hm, -, rfl⟩ := hend
  rw [readItems, hp]
  simp only [hm]
  exact ⟨_, rfl, rfl, rfl⟩

theorem readItems_more {vs : List Json} (hv : Finds (readValue room cs) v a)
    (hopen : readMark ']' a = none) (hcomma : Finds (readMark ',' a) () b)
    (hvs : Finds (readItems room b) vs rest) : Finds (readItems room cs) (v :: vs) rest := by
  obtain ⟨p, hp, rfl, rfl⟩ := hv
  obtain ⟨m, hm, -, rfl⟩ := hcomma
  obtain ⟨q, hq, rfl, rfl⟩ := hvs
  rw [readItems, hp]
  simp only [hopen, hm, hq]
  exact ⟨_, rfl, rfl, rfl⟩

theorem readMembers_last (hquote : Finds (readMark '"' cs) () a) (hk : Finds (readString a) k b)
    (hcolon : Finds (readMark ':' b) () c) (hv : Finds (readValue room c) v d)
    (hend : Finds (readMark '}' d) () rest) :
    Finds (readMembers room cs) [(String.ofList k, v)] rest := by
  obtain ⟨q, hq, -, rfl⟩ := hquote
  obtain ⟨s, hs, rfl, rfl⟩ := hk
  obtain ⟨m, hm, -, rfl⟩ := hcolon
  obtain ⟨p, hp, rfl, rfl⟩ := hv
  obtain ⟨x, hx, -, rfl⟩ := hend
  rw [readMembers, hq]
  simp only [hs, hm, hp, hx]
  exact ⟨_, rfl, rfl, rfl⟩

theorem readMembers_more {ms : List (String × Json)} (hquote : Finds (readMark '"' cs) () a)
    (hk : Finds (readString a) k b) (hcolon : Finds (readMark ':' b) () c)
    (hv : Finds (readValue room c) v d) (hopen : readMark '}' d = none)
    (hcomma : Finds (readMark ',' d) () e) (hms : Finds (readMembers room e) ms rest) :
    Finds (readMembers room cs) ((String.ofList k, v) :: ms) rest := by
  obtain ⟨q, hq, -, rfl⟩ := hquote
  obtain ⟨s, hs, rfl, rfl⟩ := hk
  obtain ⟨m, hm, -, rfl⟩ := hcolon
  obtain ⟨p, hp, rfl, rfl⟩ := hv
  obtain ⟨x, hx, -, rfl⟩ := hcomma
  obtain ⟨y, hy, rfl, rfl⟩ := hms
  rw [readMembers, hq]
  simp only [hs, hm, hp, hopen, hx, hy]
  exact ⟨_, rfl, rfl, rfl⟩

end

/-! ### JSON text -/

/-- The value is read from its own text, whatever delimits it. -/
def ReadBack (room : Nat) (v : Json) : Prop :=
  ∀ rest, Delimited rest → Finds (readValue room (v.compact ++ rest)) v rest

theorem delimited_compactMore (vs : List Json) (cs : List Char) :
    Delimited (compactMore vs ++ ']' :: cs) := by
  cases vs with
  | nil => exact delimited_cons (by simp) cs
  | cons v vs => exact delimited_cons (by simp) _

theorem delimited_compactMoreMembers (ms : List (String × Json)) (cs : List Char) :
    Delimited (compactMoreMembers ms ++ '}' :: cs) := by
  cases ms with
  | nil => exact delimited_cons (by simp) cs
  | cons m ms => exact delimited_cons (by simp) _

/-- The items of an array are read from their text, if each of them is. -/
theorem readItems_compact {room : Nat} {v : Json} {vs : List Json}
    (h : ∀ w ∈ v :: vs, w.ReadBack room) (cs : List Char) :
    Finds (readItems room (v.compact ++ (compactMore vs ++ ']' :: cs))) (v :: vs) cs := by
  induction vs generalizing v with
  | nil =>
    have hv := h v List.mem_cons_self _ (delimited_compactMore [] cs)
    exact readItems_last hv (readMark_self (by decide) cs)
  | cons w vs ih =>
    obtain ⟨hfirst, hmore⟩ := List.forall_mem_cons.mp h
    have hv := hfirst _ (delimited_compactMore (w :: vs) cs)
    have hcomma : compactMore (w :: vs) ++ ']' :: cs =
        ',' :: (w.compact ++ (compactMore vs ++ ']' :: cs)) := by
      rw [compactMore, List.cons_append, List.append_assoc]
    rw [hcomma] at hv ⊢
    exact readItems_more hv (readMark_of_ne (by decide) (by decide) _) (readMark_self (by decide) _)
      (ih hmore)

theorem quoted_append (s cs : List Char) :
    quoted s ++ cs = '"' :: (s.flatMap escapeChar ++ '"' :: cs) := by
  simp [quoted]

/-- The members of an object are read from their text, if their values are. -/
theorem readMembers_compact {room : Nat} {k : String} {v : Json} {ms : List (String × Json)}
    (h : ∀ m ∈ (k, v) :: ms, m.2.ReadBack room) (cs : List Char) :
    Finds
      (readMembers room
        (quoted k.toList ++ ':' :: (v.compact ++ (compactMoreMembers ms ++ '}' :: cs))))
      ((k, v) :: ms) cs := by
  induction ms generalizing k v with
  | nil =>
    have hv := h (k, v) List.mem_cons_self _ (delimited_compactMoreMembers [] cs)
    rw [quoted_append]
    have hlast := readMembers_last (readMark_self (by decide) _) (readString_quoted k.toList _)
      (readMark_self (by decide) _) hv (readMark_self (by decide) cs)
    rwa [String.ofList_toList] at hlast
  | cons m ms ih =>
    obtain ⟨k', v'⟩ := m
    obtain ⟨hfirst, hmore⟩ := List.forall_mem_cons.mp h
    have hv := hfirst _ (delimited_compactMoreMembers ((k', v') :: ms) cs)
    have hcomma : compactMoreMembers ((k', v') :: ms) ++ '}' :: cs =
        ',' ::
        (quoted k'.toList ++ ':' :: (v'.compact ++ (compactMoreMembers ms ++ '}' :: cs))) := by
      simp [compactMoreMembers]
    rw [hcomma] at hv ⊢
    rw [quoted_append]
    have hall := readMembers_more (readMark_self (by decide) _) (readString_quoted k.toList _)
      (readMark_self (by decide) _) hv (readMark_of_ne (by decide) (by decide) _)
      (readMark_self (by decide) _) (ih hmore)
    rwa [String.ofList_toList] at hall

theorem exists_head_of_rereads (h : n.Rereads) :
    ∃ c cs, n.chars = c :: cs ∧ (c = '-' ∨ c.isDigit = true) := by
  unfold Number.Rereads at h
  cases hchars : n.chars with
  | nil =>
    rw [hchars] at h
    cases h
  | cons c cs =>
    refine ⟨c, cs, rfl, ?_⟩
    by_contra hc
    obtain ⟨hminus, hdigit⟩ := not_or.mp hc
    have hne : ∀ ds, c :: cs ≠ '-' :: ds := fun ds hds => hminus (List.cons.inj hds).1
    have hwhole : (c :: cs).takeWhile Char.isDigit = [] :=
      List.takeWhile_cons_of_neg (by simpa using hdigit)
    rw [hchars, readNumber?_of_ne hne] at h
    simp [readUnsigned?, hwhole] at h

theorem readValue_chars (h : n.Rereads) (room : Nat) : (num n).ReadBack room := by
  intro rest hrest
  obtain ⟨c, cs, hchars, hc⟩ := exists_head_of_rereads h
  have hread : readNumber? (n.chars ++ rest) = some (n, [] ++ rest) := readNumber?_append hrest h
  rw [compact]
  rw [hchars, List.cons_append] at hread ⊢
  refine readValue_number room hc hread ?_
  simp only [List.length_cons, List.length_append]
  omega

/-- The text of a value does not begin with a blank or a closing bracket. -/
theorem exists_head_compact {v : Json} (h : v.Regular Number.Rereads) :
    ∃ c cs, v.compact = c :: cs ∧ Text.isSpace c = false ∧ c ≠ ']' := by
  cases h with
  | null => exact ⟨_, _, rfl, by decide, by decide⟩
  | bool b => cases b <;> exact ⟨_, _, rfl, by decide, by decide⟩
  | num hn =>
    obtain ⟨c, cs, hchars, hc⟩ := exists_head_of_rereads hn
    have hne (d : Char) (hd : d ≠ '-' ∧ d.isDigit = false) : c ≠ d := by
      rintro rfl
      exact hc.elim hd.1 (by simp [hd.2])
    refine ⟨c, cs, hchars, ?_, hne _ (by decide)⟩
    simp [Text.isSpace, hne]
  | str s => exact ⟨_, _, rfl, by decide, by decide⟩
  | arr hitems => exact ⟨_, _, rfl, by decide, by decide⟩
  | obj hsorted hms => exact ⟨_, _, rfl, by decide, by decide⟩

/-- **A value is read from its text**, with as much room as it is nested. -/
theorem readBack_of_regular {v : Json} (h : v.Regular Number.Rereads) :
    ∀ room, v.nesting ≤ room → v.ReadBack room := by
  induction h with
  | null =>
    intro room _ rest _
    rw [compact]
    exact readValue_word room (by simp [words]) rest
  | bool b =>
    intro room _ rest _
    cases b with
    | true =>
      rw [compact]
      exact readValue_word room (by simp [words]) rest
    | false =>
      rw [compact]
      exact readValue_word room (by simp [words]) rest
  | num hn => exact fun room _ => readValue_chars hn room
  | str s =>
    intro room _ rest _
    have hs := readValue_string room (readString_quoted s.toList rest)
    rwa [String.ofList_toList, ← quoted_append] at hs
  | @arr items hitems ih =>
    intro room hroom rest _
    rw [nesting] at hroom
    obtain ⟨room, rfl⟩ : ∃ r, room = r + 1 := ⟨room - 1, by omega⟩
    have hall := nestingOfItems_le_iff.mp (Nat.le_of_succ_le_succ hroom)
    have hback : ∀ w ∈ items, w.ReadBack room := fun w hw => ih w hw room (hall w hw)
    cases items with
    | nil => exact readValue_emptyArray room (readMark_self (by decide) rest)
    | cons w ws =>
      obtain ⟨c, cs, hcompact, hspace, hne⟩ := exists_head_compact (hitems w List.mem_cons_self)
      have htext : (arr (w :: ws)).compact ++ rest =
          '[' :: (w.compact ++ (compactMore ws ++ ']' :: rest)) := by
        simp [compact, compactItems]
      rw [htext]
      refine readValue_array room ?_ (readItems_compact hback rest)
      rw [hcompact]
      exact readMark_of_ne hspace hne _
  | @obj ms hsorted hms ih =>
    intro room hroom rest _
    rw [nesting] at hroom
    obtain ⟨room, rfl⟩ : ∃ r, room = r + 1 := ⟨room - 1, by omega⟩
    have hall := nestingOfMembers_le_iff.mp (Nat.le_of_succ_le_succ hroom)
    have hback : ∀ m ∈ ms, m.2.ReadBack room := fun m hm => ih m hm room (hall m hm)
    cases ms with
    | nil => exact readValue_emptyObject room (readMark_self (by decide) rest)
    | cons m ms =>
      obtain ⟨k, v⟩ := m
      have htext : (obj ((k, v) :: ms)).compact ++ rest =
          '{' ::
          (quoted k.toList ++ ':' :: (v.compact ++ (compactMoreMembers ms ++ '}' :: rest))) := by
        simp [compact, compactMembers]
      have hobject := readValue_object room ?_ (readMembers_compact hback rest)
      · rwa [Members.ofList_of_sorted hsorted, ← htext] at hobject
      · rw [quoted_append]
        exact readMark_of_ne (by decide) (by decide) _

/-- **JSON text is read back**: a value whose numbers are, from the whole of its text. -/
theorem parseChars?_compact {v : Json} (h : v.Regular Number.Rereads)
    (hnesting : v.nesting ≤ maxNesting) : parseChars? v.compact = some v := by
  have hback := readBack_of_regular h maxNesting hnesting [] .nil
  rw [List.append_nil] at hback
  obtain ⟨p, hp, hvalue, hrest⟩ := hback
  unfold parseChars?
  simp only [hp]
  rw [hrest, if_pos (by rfl), hvalue]

end Json

end CommandChain
