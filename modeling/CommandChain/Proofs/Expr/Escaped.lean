import CommandChain.Expr.Escape
import Mathlib.Data.Nat.Digits.Defs
import Mathlib.Tactic.SplitIfs

/-!
# What escapes stand for

The inside of a string literal is a row of pieces: characters by themselves, backslashes with a
character behind them, and codes, which are `\u` and the four characters behind it (`pieces`). A
text is told from its pieces (`text`): two codes that are a surrogate pair stand for one character,
and all other pieces for one each.

That is what decoding gives, unless there is a code that cannot be read (`decode_eq`). The look
ahead from a first half of a pair makes no difference to this: the code behind it is the next piece,
whether it is taken for the other half, read again as the beginning of another pair, or refused.
What is read as a code is a little more than four hexadecimal digits: the first of them may be a
plus sign (`hexNumber?_eq`). -/

namespace CommandChain.Escape

open CommandChain.Json (isHighSurrogate isLowSurrogate joinSurrogates)

/-! ### Pieces -/

/-- A piece of the inside of a string literal. -/
inductive Piece where
  /-- A character by itself. -/
  | plain (c : Char)
  /-- A backslash and a character other than `u`. -/
  | letter (c : Char)
  /-- A backslash, `u` and the four characters after it, or as many as there are. -/
  | code (ds : List Char)
deriving DecidableEq

/-- The pieces of the inside of a string literal, from left to right. -/
def pieces (cs : List Char) : List Piece :=
  match cs with
  | [] => []
  | '\\' :: 'u' :: rest => .code (rest.take 4) :: pieces (rest.drop 4)
  | '\\' :: c :: rest => .letter c :: pieces rest
  | c :: rest => .plain c :: pieces rest
termination_by cs.length

/-- The hexadecimal digits in the order of their values. -/
def hexDigits : List Char :=
  ['0', '1', '2', '3', '4', '5', '6', '7', '8', '9', 'a', 'b', 'c', 'd', 'e', 'f']

/-- The character is a hexadecimal digit, small or capital. -/
def IsHexDigit (c : Char) : Prop := c.toLower ∈ hexDigits

instance (c : Char) : Decidable (IsHexDigit c) := inferInstanceAs (Decidable (_ ∈ _))

/-- Four hexadecimal digits. -/
def IsCode (ds : List Char) : Prop := ds.length = 4 ∧ ∀ c ∈ ds, IsHexDigit c

instance (ds : List Char) : Decidable (IsCode ds) :=
  @instDecidableAnd _ _ _ (List.decidableBAll IsHexDigit ds)

/-- A plus sign and three hexadecimal digits. -/
def IsSignedCode (ds : List Char) : Prop :=
  ds.head? = some '+' ∧ ds.length = 4 ∧ ∀ c ∈ ds.tail, IsHexDigit c

instance (ds : List Char) : Decidable (IsSignedCode ds) :=
  @instDecidableAnd _ _ _ (@instDecidableAnd _ _ _ (List.decidableBAll IsHexDigit ds.tail))

/-- The number that the hexadecimal digits among some characters write. -/
def number (ds : List Char) : Nat :=
  Nat.ofDigits 16 ((ds.filter (IsHexDigit ·)).reverse.map fun c => hexDigits.idxOf c.toLower)

/-- The letters that stand for control characters behind a backslash. -/
def controls : List (Char × Char) :=
  [('n', '\n'), ('t', '\t'), ('r', '\r'), ('b', Char.ofNat 8), ('f', Char.ofNat 12),
    ('0', Char.ofNat 0)]

/-- The text that some pieces stand for. -/
def text : List Piece → List Char
  | [] => []
  | .plain c :: ps => c :: text ps
  | .letter c :: ps => (controls.lookup c).getD c :: text ps
  | .code ds :: .code ds' :: ps =>
    if isHighSurrogate (number ds) && isLowSurrogate (number ds') then
      joinSurrogates (number ds) (number ds') :: text ps
    else codePoint (number ds) :: text (.code ds' :: ps)
  | .code ds :: ps => codePoint (number ds) :: text ps

/-! ### Codes -/

/-- The characters are read as a code. -/
def IsReadable (ds : List Char) : Prop := IsCode ds ∨ IsSignedCode ds

instance (ds : List Char) : Decidable (IsReadable ds) := inferInstanceAs (Decidable (_ ∨ _))

variable {c : Char} {cs ds more rest : List Char}

theorem hexValue?_eq (c : Char) : Text.hexValue? c =
    if IsHexDigit c then some (hexDigits.idxOf c.toLower) else none := by
  by_cases hc : c.toNat < 128
  · have hsmall : ∀ n < 128, Text.hexValue? (Char.ofNat n) =
        if IsHexDigit (Char.ofNat n) then some (hexDigits.idxOf (Char.ofNat n).toLower)
        else none := by
      decide +kernel
    have := hsmall _ hc
    rwa [Char.ofNat_toNat] at this
  · -- beyond ASCII there are no hexadecimal digits
    have hle (d : Char) (hd : d.toNat < 128) : ¬ c ≤ d := fun h => by
      have : c.toNat ≤ d.toNat := UInt32.le_iff_toNat_le.mp h
      omega
    have hlower : c.toLower = c := dif_neg fun h => hle 'Z' (by decide) h.2
    have hnone : ¬ IsHexDigit c := by
      rw [IsHexDigit, hlower]
      intro hmem
      have hsmall : ∀ d ∈ hexDigits, decide (d.toNat < 128) = true :=
        List.all_eq_true.mp (by decide)
      exact hc (of_decide_eq_true (hsmall c hmem))
    have hdigit : c.isDigit = false := by
      rw [Bool.eq_false_iff]
      intro h
      have : c.toNat ≤ '9'.toNat := (Char.isDigit_iff_toNat.mp h).2
      exact hc (lt_of_le_of_lt this (by decide))
    simp [Text.hexValue?, hdigit, hle 'f' (by decide), hle 'F' (by decide), hnone]

/-- Characters are read as a number digit by digit, and all of them have to be digits. -/
theorem foldlM_hexValue? (ds : List Char) (n : Nat) :
    ds.foldlM (fun n c => (Text.hexValue? c).map (n * 16 + ·)) n =
      if ds.all (IsHexDigit ·) then
        some (ds.foldl (fun n c => n * 16 + hexDigits.idxOf c.toLower) n) else none := by
  induction ds generalizing n with
  | nil => simp
  | cons d ds ih =>
    rw [List.foldlM_cons, hexValue?_eq, List.all_cons]
    by_cases hd : IsHexDigit d
    · rw [if_pos hd, decide_eq_true hd, Bool.true_and]
      exact ih (n * 16 + hexDigits.idxOf d.toLower)
    · rw [if_neg hd, decide_eq_false hd, Bool.false_and]
      rfl

theorem number_eq (h : ∀ c ∈ ds, IsHexDigit c) :
    number ds = ds.foldl (fun n c => n * 16 + hexDigits.idxOf c.toLower) 0 := by
  have hfilter : ds.filter (IsHexDigit ·) = ds := List.filter_eq_self.mpr (by simpa using h)
  rw [number, hfilter, Nat.ofDigits_eq_foldr, List.foldr_map, List.foldr_reverse]
  congr 1
  funext n c
  simp only [Nat.cast_id]
  omega

theorem hexNumber?_of_ne_nil (h : ds ≠ []) :
    Text.hexNumber? ds = if ds.all (IsHexDigit ·) then some (number ds) else none := by
  have hfold : Text.hexNumber? ds =
      ds.foldlM (fun n c => (Text.hexValue? c).map (n * 16 + ·)) 0 := by
    cases ds with
    | nil => exact absurd rfl h
    | cons => rfl
  rw [hfold, foldlM_hexValue?]
  split_ifs with hdigits
  · rw [number_eq (by simpa using hdigits)]
  · rfl

/-- **Four characters are read** as the number of the digits among them, or not at all. -/
theorem hexNumber?_eq (h : ds.length = 4) :
    hexNumber? ds = if IsReadable ds then some (number ds) else none := by
  have hplus : ¬ IsHexDigit '+' := by decide
  match ds, h with
  | d :: ds, h =>
    have hlen : ds.length = 3 := Nat.succ.inj h
    have hne : ds ≠ [] := List.length_pos_iff.mp (by omega)
    by_cases hd : d = '+'
    · subst hd
      have hnumber : number ('+' :: ds) = number ds := by
        rw [number, List.filter_cons_of_neg (by simpa using hplus)]
        rfl
      rw [hexNumber?, hexNumber?_of_ne_nil hne, hnumber]
      simp [IsReadable, IsCode, IsSignedCode, hplus, hlen]
    · rw [hexNumber?, hexNumber?_of_ne_nil (List.cons_ne_nil _ _)]
      · simp [IsReadable, IsCode, IsSignedCode, hd, hlen]
      · rintro cs ⟨⟩
        exact hd rfl

theorem readCode_of_readable (h : IsReadable (cs.take 4)) :
    ∃ hshorter, readCode cs = .ok ⟨number (cs.take 4), cs.drop 4, hshorter⟩ := by
  have hlen : (cs.take 4).length = 4 := h.elim (fun h => h.1) (fun h => h.2.1)
  have hle : 4 ≤ cs.length := by
    rw [List.length_take] at hlen
    omega
  refine ⟨length_drop_four_lt hle, ?_⟩
  rw [readCode, dif_pos hle, hexNumber?_eq hlen, if_pos h]

theorem readCode_of_not_readable (h : ¬ IsReadable (cs.take 4)) :
    readCode cs = .error (cs.take 4) := by
  unfold readCode
  split_ifs with hle
  · have hlen : (cs.take 4).length = 4 := by
      rw [List.length_take]
      omega
    rw [hexNumber?_eq hlen, if_neg h]
  · rw [List.take_of_length_le (by omega)]

/-! ### Single codes and pairs -/

theorem readUnicode_of_not_readable (h : ¬ IsReadable (cs.take 4)) :
    readUnicode cs = .error (cs.take 4) := by
  simp only [readUnicode, readCode_of_not_readable h]

/-- Behind the first half of a pair the next code is read as well. -/
theorem readUnicode_of_next (h : IsReadable (cs.take 4))
    (hhigh : isHighSurrogate (number (cs.take 4)) = true)
    (hmore : cs.drop 4 = '\\' :: 'u' :: more) :
    (¬ IsReadable (more.take 4) → readUnicode cs = .error (more.take 4)) ∧
    (IsReadable (more.take 4) →
      (isLowSurrogate (number (more.take 4)) = true → ∃ hshorter, readUnicode cs =
        .ok ⟨joinSurrogates (number (cs.take 4)) (number (more.take 4)), more.drop 4, hshorter⟩) ∧
      (isLowSurrogate (number (more.take 4)) = false → ∃ hshorter, readUnicode cs =
        .ok ⟨codePoint (number (cs.take 4)), '\\' :: 'u' :: more, hshorter⟩)) := by
  obtain ⟨hshorter, hread⟩ := readCode_of_readable h
  generalize number (cs.take 4) = n at *
  generalize cs.drop 4 = rest at *
  subst hmore
  unfold readUnicode
  simp only [hread, hhigh, if_true]
  refine ⟨fun hnot => ?_, fun hr => ?_⟩
  · rw [readCode_of_not_readable hnot]
  · obtain ⟨hshorter', hread'⟩ := readCode_of_readable hr
    simp only [hread']
    refine ⟨fun hlow => ⟨?_, ?_⟩, fun hlow => ⟨hshorter, ?_⟩⟩
    · simp only [List.length_cons] at hshorter
      omega
    · simp only [hlow, if_true]
    · simp only [hlow, Bool.false_eq_true, if_false]

/-- Any other code stands by itself. -/
theorem readUnicode_of_single (h : IsReadable (cs.take 4))
    (hsingle : isHighSurrogate (number (cs.take 4)) = true →
      ∀ more, cs.drop 4 ≠ '\\' :: 'u' :: more) :
    ∃ hshorter, readUnicode cs = .ok ⟨codePoint (number (cs.take 4)), cs.drop 4, hshorter⟩ := by
  obtain ⟨hshorter, hread⟩ := readCode_of_readable h
  refine ⟨hshorter, ?_⟩
  generalize number (cs.take 4) = n at *
  generalize cs.drop 4 = rest at *
  unfold readUnicode
  simp only [hread]
  split_ifs with hhigh
  · split
    · next more => exact absurd rfl (hsingle hhigh more)
    · rfl
  · rfl

/-! ### Whole contents -/

theorem decode_plain (hc : c ≠ '\\') : decode (c :: rest) = (decode rest).map (c :: ·) := by
  rw [decode]
  · cases decode rest <;> rfl
  · exact fun cs h => absurd h hc
  · exact fun d cs h => absurd h hc

theorem decode_letter (hc : c ≠ 'u') :
    decode ('\\' :: c :: rest) = (decode rest).map (escaped c :: ·) := by
  rw [decode]
  · cases decode rest <;> rfl
  · exact hc

theorem decode_unicode {p : Parsed Char cs} (h : readUnicode cs = .ok p) :
    decode ('\\' :: 'u' :: cs) = (decode p.rest).map (p.value :: ·) := by
  rw [decode, h]
  dsimp only
  cases decode p.rest <;> rfl

theorem escaped_eq (c : Char) : escaped c = (controls.lookup c).getD c := by
  unfold escaped
  simp only [beq_iff_eq]
  split_ifs with hn ht hr hb hf hzero
  · rw [hn]
    rfl
  · rw [ht]
    rfl
  · rw [hr]
    rfl
  · rw [hb]
    rfl
  · rw [hf]
    rfl
  · rw [hzero]
    rfl
  · have hnone : controls.lookup c = none := by
      rw [List.lookup_eq_none_iff]
      simpa [controls] using ⟨hn, ht, hr, hb, hf, hzero⟩
    rw [hnone]
    rfl

theorem pieces_plain (hc : c ≠ '\\') : pieces (c :: rest) = .plain c :: pieces rest := by
  rw [pieces]
  · exact fun cs h => absurd h hc
  · exact fun d cs h => absurd h hc

theorem pieces_letter (hc : c ≠ 'u') : pieces ('\\' :: c :: rest) = .letter c :: pieces rest := by
  rw [pieces]
  exact hc

theorem pieces_unicode (rest : List Char) :
    pieces ('\\' :: 'u' :: rest) = .code (rest.take 4) :: pieces (rest.drop 4) := by
  rw [pieces]

/-- Only `\u` makes a code. -/
theorem eq_of_pieces_eq_code {ps : List Piece} (h : pieces cs = .code ds :: ps) :
    ∃ more, cs = '\\' :: 'u' :: more := by
  unfold pieces at h
  split at h
  · cases h
  · exact ⟨_, rfl⟩
  · cases h
  · cases h

/-- The characters of a code that cannot be read. -/
def Piece.fault? : Piece → Option (List Char)
  | .code ds => if IsReadable ds then none else some ds
  | _ => none

/-- The first code that cannot be read, or else the text of all pieces. -/
def meaning (ps : List Piece) : Except (List Char) (List Char) :=
  match ps.findSome? Piece.fault? with
  | some ds => .error ds
  | none => .ok (text ps)

section

variable {ds' : List Char} {ps : List Piece}

theorem meaning_plain (c : Char) (ps : List Piece) :
    meaning (.plain c :: ps) = (meaning ps).map (c :: ·) := by
  simp only [meaning, List.findSome?_cons, Piece.fault?]
  cases ps.findSome? Piece.fault? <;> rfl

theorem meaning_letter (c : Char) (ps : List Piece) :
    meaning (.letter c :: ps) = (meaning ps).map (escaped c :: ·) := by
  simp only [meaning, List.findSome?_cons, Piece.fault?, escaped_eq]
  cases ps.findSome? Piece.fault? <;> rfl

theorem meaning_of_not_readable (h : ¬ IsReadable ds) (ps : List Piece) :
    meaning (.code ds :: ps) = .error ds := by
  simp [meaning, Piece.fault?, h]

theorem meaning_pair (h : IsReadable ds) (h' : IsReadable ds')
    (hhigh : isHighSurrogate (number ds) = true) (hlow : isLowSurrogate (number ds') = true)
    (ps : List Piece) :
    meaning (.code ds :: .code ds' :: ps) =
      (meaning ps).map (joinSurrogates (number ds) (number ds') :: ·) := by
  unfold meaning
  simp only [List.findSome?_cons, Piece.fault?, if_pos h, if_pos h', text, hhigh,
    hlow, Bool.and_self, if_true]
  cases ps.findSome? Piece.fault? <;> rfl

theorem meaning_single (h : IsReadable ds)
    (hsingle : isHighSurrogate (number ds) = true →
      ∀ ds' more, ps = .code ds' :: more → isLowSurrogate (number ds') = false) :
    meaning (.code ds :: ps) = (meaning ps).map (codePoint (number ds) :: ·) := by
  have htext : text (.code ds :: ps) = codePoint (number ds) :: text ps := by
    cases ps with
    | nil => rfl
    | cons p ps =>
      cases p with
      | plain | letter => rfl
      | code ds' =>
        have hnot : ¬ (isHighSurrogate (number ds) && isLowSurrogate (number ds')) = true := by
          rw [Bool.and_eq_true]
          rintro ⟨hhigh, hlow⟩
          exact absurd (hsingle hhigh ds' ps rfl) (by simp [hlow])
        rw [text, if_neg hnot]
  unfold meaning
  simp only [List.findSome?_cons, Piece.fault?, if_pos h]
  cases ps.findSome? Piece.fault? with
  | none => exact congrArg Except.ok htext
  | some => rfl

end

/-- A code at the front, given what the texts behind it stand for. -/
theorem decode_code (ih : ∀ more : List Char, more.length < rest.length →
    decode more = meaning (pieces more))
    (hrest : decode (rest.drop 4) = meaning (pieces (rest.drop 4))) :
    decode ('\\' :: 'u' :: rest) = meaning (pieces ('\\' :: 'u' :: rest)) := by
  rw [pieces_unicode]
  by_cases hr : IsReadable (rest.take 4)
  · by_cases hpair : isHighSurrogate (number (rest.take 4)) = true ∧
        ∃ more, rest.drop 4 = '\\' :: 'u' :: more
    · obtain ⟨hhigh, more, hmore⟩ := hpair
      have hlen : (more.drop 4).length < rest.length := by
        have := congrArg List.length hmore
        simp only [List.length_drop, List.length_cons] at this ⊢
        omega
      have hnext := readUnicode_of_next hr hhigh hmore
      rw [hmore, pieces_unicode] at hrest ⊢
      by_cases hr' : IsReadable (more.take 4)
      · cases hlow : isLowSurrogate (number (more.take 4)) with
        | true =>
          obtain ⟨hshorter, hread⟩ := (hnext.2 hr').1 hlow
          rw [decode_unicode hread, meaning_pair hr hr' hhigh hlow, ih _ hlen]
        | false =>
          obtain ⟨hshorter, hread⟩ := (hnext.2 hr').2 hlow
          rw [decode_unicode hread, meaning_single hr, hrest]
          rintro - ds' ps ⟨⟩
          exact hlow
      · -- the second code is refused before the first one is written
        rw [decode, hnext.1 hr']
        simp [meaning, Piece.fault?, hr, hr']
    · obtain ⟨hshorter, hread⟩ := readUnicode_of_single hr fun hhigh more hmore =>
        hpair ⟨hhigh, more, hmore⟩
      rw [decode_unicode hread, hrest, meaning_single hr]
      intro hhigh ds' ps hps
      exact absurd ⟨hhigh, eq_of_pieces_eq_code hps⟩ hpair
  · rw [decode, readUnicode_of_not_readable hr, meaning_of_not_readable hr]

/-- **The inside of a string literal** stands for the text of its pieces, or is refused for the
first code that cannot be read. -/
theorem decode_eq (cs : List Char) : decode cs = meaning (pieces cs) := by
  induction hn : cs.length using Nat.strong_induction_on generalizing cs with
  | _ n ih =>
    subst hn
    have ih (more : List Char) (h : more.length < cs.length) :
        decode more = meaning (pieces more) :=
      ih _ h more rfl
    cases cs with
    | nil =>
      rw [decode, pieces]
      rfl
    | cons c rest =>
      by_cases hc : c = '\\'
      · subst hc
        cases rest with
        | nil =>
          -- a backslash at the end stands for itself
          rw [decode, pieces, meaning_plain, decode, pieces]
          · rfl
          all_goals simp
        | cons d rest =>
          have hrest : rest.length < ('\\' :: d :: rest).length := by
            simp only [List.length_cons]
            omega
          by_cases hd : d = 'u'
          · subst hd
            refine decode_code (fun more h => ih more (h.trans hrest)) (ih _ ?_)
            rw [List.length_drop]
            omega
          · rw [decode_letter hd, pieces_letter hd, meaning_letter, ih rest hrest]
      · rw [decode_plain hc, pieces_plain hc, meaning_plain, ih rest (by simp)]

theorem findSome?_fault?_eq_none_iff {ps : List Piece} :
    ps.findSome? Piece.fault? = none ↔ ∀ ds, .code ds ∈ ps → IsReadable ds := by
  rw [List.findSome?_eq_none_iff]
  refine ⟨fun h ds hds => ?_, fun h p hp => ?_⟩
  · by_contra hr
    simpa [Piece.fault?, hr] using h _ hds
  · cases p with
    | code ds => exact if_pos (h ds hp)
    | plain | letter => rfl

/-- **Which contents of a string literal are accepted, and what they stand for.** Every `\u` that is
met from left to right has to be followed by four hexadecimal digits, or by a plus sign and three of
them; then the content stands for the text of its pieces. So all are followed by four hexadecimal
digits just if the content is accepted and none of them is followed by a plus sign and three
digits. -/
theorem decode_accepts (cs : List Char) :
    (∀ t, decode cs = .ok t ↔
      (∀ ds, .code ds ∈ pieces cs → IsCode ds ∨ IsSignedCode ds) ∧ text (pieces cs) = t) ∧
    ((∀ ds, .code ds ∈ pieces cs → IsCode ds) ↔
      (∃ t, decode cs = .ok t) ∧ ∀ ds, .code ds ∈ pieces cs → ¬ IsSignedCode ds) := by
  have hok (t : List Char) : decode cs = .ok t ↔
      (∀ ds, .code ds ∈ pieces cs → IsReadable ds) ∧ text (pieces cs) = t := by
    rw [decode_eq, meaning, ← findSome?_fault?_eq_none_iff]
    cases (pieces cs).findSome? Piece.fault? <;> simp
  have hsigned {ds : List Char} (h : IsSignedCode ds) : ¬ IsCode ds := by
    intro hcode
    exact absurd (hcode.2 '+' (List.mem_of_mem_head? h.1)) (by decide)
  refine ⟨hok,
    fun h => ⟨⟨_, (hok _).mpr ⟨fun ds hds => .inl (h ds hds), rfl⟩⟩, fun ds hds hs => ?_⟩, ?_⟩
  · exact hsigned hs (h ds hds)
  · rintro ⟨⟨t, ht⟩, hnone⟩ ds hds
    exact (((hok t).mp ht).1 ds hds).resolve_right (hnone ds hds)

/-- A plus sign passes for a digit. -/
theorem plusSign_decoded :
    pieces "\\u+041".toList = [.code "+041".toList] ∧ ¬ IsCode "+041".toList ∧
      decode "\\u+041".toList = .ok ['A'] := by
  have hpieces : pieces "\\u+041".toList = [.code "+041".toList] := by cbv
  refine ⟨hpieces, by decide, ((decode_accepts _).1 _).mpr ⟨fun ds hds => ?_, ?_⟩⟩
  · rw [hpieces, List.mem_singleton] at hds
    obtain rfl := Piece.code.inj hds
    exact .inr (by decide)
  · rw [hpieces]
    decide

/-- Of two high surrogates only the second one has its other half. -/
example : decode "\\ud83d\\ud83d\\ude00".toList = .ok [Text.replacement, '😀'] := by cbv

end CommandChain.Escape
