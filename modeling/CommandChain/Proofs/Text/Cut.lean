import CommandChain.Proofs.Text.Split

/-!
# Where a text is cut

`s.Clears d v u` says that a scan that stands at `s` finds no delimiter `d` that begins in `u`, if
`v` is what follows `u`. So a text is one piece just if the scan clears it
(`splitTop_eq_singleton_iff`), and a piece is cut off behind a text that the scan clears and leaves
outside of brackets and quotes (`splitTop_append`).

What follows a text can make a difference only by a delimiter that begins in the text and ends
behind it. Nothing like that happens if what follows begins with a character that the delimiter does
not have (`Clears.before`).

No delimiter begins where the scan is inside of brackets or quotes (`Covers`). Between brackets the
scan of a text is the same, one level deeper, if no bracket is closed in the text below its opening
(`Nested.deeper`). -/

namespace CommandChain.Text

variable {d t u v v' : List Char} {c : Char} {s : Scan}

/-! ### Delimiters that begin in a text -/

theorem foldr_consFirst_cons (u p : List Char) (ps : List (List Char)) :
    u.foldr consFirst (p :: ps) = (u ++ p) :: ps := by
  induction u with
  | nil => rfl
  | cons c u ih =>
    rw [List.foldr_cons, ih]
    rfl

theorem consFirst_eq_singleton_iff {ps : List (List Char)} (h : ps ≠ []) :
    consFirst c ps = [c :: t] ↔ ps = [t] := by
  obtain ⟨p, ps, rfl⟩ := List.exists_cons_of_ne_nil h
  simp [consFirst]

theorem splitFrom_skip (d : List Char) (s : Scan) (w v : List Char) :
    splitFrom d w.length s (w ++ v) = splitFrom d 0 s v := by
  induction w with
  | nil => rfl
  | cons a w ih => exact ih

namespace Scan

theorem atTop_iff : s.atTop = true ↔ s = .start := by
  unfold atTop start
  split
  · simp
  · next hne => simpa using hne

theorem run_append (s : Scan) (u v : List Char) : s.run (u ++ v) = (s.run u).run v :=
  List.foldl_append

/-- No delimiter begins in the text outside of brackets and quotes, when `v` follows it. -/
def Clears (d v : List Char) : Scan → List Char → Prop
  | _, [] => True
  | s, c :: cs => ¬ (s.atTop = true ∧ d <+: c :: (cs ++ v)) ∧ (s.next c).Clears d v cs

theorem clears_append {u' : List Char} :
    s.Clears d v (u ++ u') ↔ s.Clears d (u' ++ v) u ∧ (s.run u).Clears d v u' := by
  induction u generalizing s with
  | nil => exact ⟨fun h => ⟨trivial, h⟩, fun h => h.2⟩
  | cons c u ih =>
    simp only [List.cons_append, Clears, ih, List.append_assoc, and_assoc]
    rfl

theorem clears_cons (hd : d ≠ []) (hc : d.head? ≠ some c) :
    s.Clears d v (c :: u) ↔ (s.next c).Clears d v u := by
  refine ⟨fun h => h.2, fun h => ⟨?_, h⟩⟩
  rintro ⟨-, hpre⟩
  obtain ⟨a, d, rfl⟩ := List.exists_cons_of_ne_nil hd
  exact hc (by rw [(List.cons_prefix_cons.mp hpre).1]; rfl)

theorem Clears.splitFrom_append (h : s.Clears d v u) :
    splitFrom d 0 s (u ++ v) = u.foldr consFirst (splitFrom d 0 (s.run u) v) := by
  induction u generalizing s with
  | nil => rfl
  | cons c u ih =>
    obtain ⟨hc, hu⟩ := h
    have hcut : (s.atTop && d.isPrefixOf (c :: (u ++ v))) = false := by
      rw [Bool.eq_false_iff, Ne, Bool.and_eq_true, List.isPrefixOf_iff_prefix]
      exact hc
    rw [List.cons_append, splitFrom, hcut, if_neg Bool.false_ne_true, ih hu]
    rfl

theorem splitFrom_eq_singleton_iff : splitFrom d 0 s t = [t] ↔ s.Clears d [] t := by
  induction t generalizing s with
  | nil => simp [splitFrom, Clears]
  | cons c t ih =>
    unfold splitFrom Clears
    rw [List.append_nil, ← List.isPrefixOf_iff_prefix, ← Bool.and_eq_true]
    split_ifs with hcut
    · simp [hcut]
    · rw [consFirst_eq_singleton_iff (splitFrom_ne_nil _ _ _ _), ih]
      exact ⟨fun h => ⟨hcut, h⟩, fun h => h.2⟩

/-- What follows a text makes no difference to the scan if it lets no more delimiters begin in the
text. -/
theorem Clears.mono (h : s.Clears d v u) (hv : ∀ w, w ≠ [] → d <+: w ++ v' → d <+: w ++ v) :
    s.Clears d v' u := by
  induction u generalizing s with
  | nil => trivial
  | cons c u ih =>
    obtain ⟨hc, hu⟩ := h
    refine ⟨?_, ih hu⟩
    rintro ⟨htop, hpre⟩
    exact hc ⟨htop, hv (c :: u) (List.cons_ne_nil _ _) hpre⟩

theorem prefix_of_prefix_append_cons {w : List Char} (hc : c ∉ d) (hpre : d <+: w ++ c :: v) :
    d <+: w := by
  rcases le_or_gt d.length w.length with hle | hlt
  · exact List.prefix_of_prefix_length_le hpre (List.prefix_append _ _) hle
  · have hword : w ++ [c] <+: w ++ c :: v :=
      (List.prefix_append_right_inj _).mpr (List.prefix_append [c] v)
    have hlen : (w ++ [c]).length ≤ d.length := by
      rw [List.length_append, List.length_singleton]
      omega
    have hall : w ++ [c] <+: d := List.prefix_of_prefix_length_le hword hpre hlen
    exact absurd (hall.subset (by simp)) hc

/-- A character that the delimiter does not have keeps it from reaching beyond the text. -/
theorem Clears.before (h : s.Clears d [] u) (hc : c ∉ d) : s.Clears d (c :: v) u := by
  refine h.mono fun w _ hpre => ?_
  rw [List.append_nil]
  exact prefix_of_prefix_append_cons hc hpre

theorem Clears.behind (h : s.Clears [c] [] u) : s.Clears [c] v u := by
  refine h.mono fun w hw hpre => ?_
  obtain ⟨a, w, rfl⟩ := List.exists_cons_of_ne_nil hw
  simpa using hpre

theorem clears_of_not_mem (h : c ∉ u) : s.Clears (c :: d) v u := by
  induction u generalizing s with
  | nil => trivial
  | cons a u ih =>
    obtain ⟨ha, hu⟩ := not_or.mp fun hm => h (List.mem_cons.mpr hm)
    exact (clears_cons (List.cons_ne_nil _ _) (by simpa using ha)).mpr (ih hu)

theorem Clears.longArrow (h : s.Clears ['-', '>'] [] t) : s.Clears ['-', '-', '>'] [] t := by
  induction t generalizing s with
  | nil => trivial
  | cons c t ih =>
    obtain ⟨-, ht⟩ := h
    refine ⟨?_, ih ht⟩
    rintro ⟨htop, hpre⟩
    rw [List.append_nil] at hpre
    -- the short arrow would begin at the second character of the long one
    obtain ⟨rfl, htail⟩ := List.cons_prefix_cons.mp hpre
    obtain ⟨rest, rfl⟩ := htail
    obtain rfl := atTop_iff.mp htop
    exact ht.1 ⟨rfl, by simp⟩

end Scan

/-- **A text is one piece** if the scan clears it, and only then. -/
theorem splitTop_eq_singleton_iff (hd : d ≠ []) :
    splitTop d t = [t] ↔ Scan.start.Clears d [] t := by
  rw [splitTop, if_neg (by simpa using hd)]
  exact Scan.splitFrom_eq_singleton_iff

/-- **A piece is cut off** behind a text that the scan clears and leaves where it began. -/
theorem splitTop_append (hd : d ≠ []) (h : Scan.start.Clears d (d ++ v) u)
    (hrun : Scan.start.run u = .start) : splitTop d (u ++ (d ++ v)) = u :: splitTop d v := by
  obtain ⟨a, d', rfl⟩ := List.exists_cons_of_ne_nil hd
  have hfront : (a :: d').isPrefixOf (a :: (d' ++ v)) = true :=
    List.isPrefixOf_iff_prefix.mpr (List.prefix_append _ _)
  rw [splitTop, splitTop, if_neg (by simp), if_neg (by simp), h.splitFrom_append, hrun,
    List.cons_append, splitFrom, hfront, if_pos (by rfl), foldr_consFirst_cons, List.append_nil]
  exact congrArg _ (splitFrom_skip _ _ d' v)

/-! ### Inside of brackets and quotes -/

namespace Scan

/-- The scan is inside of brackets or quotes before every character of a text. -/
def Covers : Scan → List Char → Prop
  | _, [] => True
  | s, c :: cs => s.atTop = false ∧ (s.next c).Covers cs

instance decidableCovers : (s : Scan) → (t : List Char) → Decidable (s.Covers t)
  | _, [] => inferInstanceAs (Decidable True)
  | s, c :: cs =>
    have := decidableCovers (s.next c) cs
    inferInstanceAs (Decidable (_ ∧ _))

theorem Covers.append (hu : s.Covers u) (hv : (s.run u).Covers v) : s.Covers (u ++ v) := by
  induction u generalizing s with
  | nil => exact hv
  | cons c u ih => exact ⟨hu.1, ih hu.2 hv⟩

theorem Covers.clears (h : s.Covers u) : s.Clears d v u := by
  induction u generalizing s with
  | nil => trivial
  | cons c u ih =>
    obtain ⟨htop, hu⟩ := h
    refine ⟨?_, ih hu⟩
    rintro ⟨htop', -⟩
    rw [htop] at htop'
    cases htop'

/-- The scan covers the text and comes back to where it began. -/
structure Keeps (s : Scan) (t : List Char) : Prop where
  covers : s.Covers t
  run : s.run t = s

theorem Keeps.nil : s.Keeps [] := ⟨trivial, rfl⟩

theorem Keeps.append (hu : s.Keeps u) (hv : s.Keeps v) : s.Keeps (u ++ v) := by
  refine ⟨hu.covers.append ?_, ?_⟩
  · rw [hu.run]
    exact hv.covers
  · rw [run_append, hu.run, hv.run]

theorem Keeps.intercalate {ps : List (List Char)} (hd : s.Keeps d) (hps : ∀ p ∈ ps, s.Keeps p) :
    s.Keeps (d.intercalate ps) := by
  induction ps with
  | nil => exact .nil
  | cons p ps ih =>
    obtain ⟨hp, hps⟩ := List.forall_mem_cons.mp hps
    cases ps with
    | nil =>
      rw [List.intercalate_singleton]
      exact hp
    | cons p' ps =>
      rw [List.intercalate_cons_cons, List.append_assoc]
      exact hp.append (hd.append (ih hps))

/-- A character that is neither a quotation mark nor a bracket. -/
def isNeutral (c : Char) : Bool := !(isQuote c || isOpening c || isClosing c)

theorem isNeutral_of_class {p : Char → Bool}
    (hp : ['"', '\'', '(', '[', '{', ')', ']', '}'].any p = false) (hc : p c = true) :
    isNeutral c = true := by
  by_contra hmark
  have hmem : c ∈ ['"', '\'', '(', '[', '{', ')', ']', '}'] := by
    simp only [isNeutral, isQuote, isOpening, isClosing, Bool.not_eq_true', Bool.not_eq_false,
      Bool.or_eq_true, beq_iff_eq] at hmark
    simp only [List.mem_cons, List.not_mem_nil, or_false]
    tauto
  exact List.any_eq_false.mp hp c hmem hc

theorem next_of_isNeutral (h : isNeutral c = true) (n : Nat) : (bare n).next c = .bare n := by
  simp only [isNeutral, Bool.not_eq_true', Bool.or_eq_false_iff] at h
  simp [next, h]

theorem run_of_isNeutral (h : ∀ c ∈ t, isNeutral c = true) (n : Nat) :
    (bare n).run t = .bare n := by
  induction t with
  | nil => rfl
  | cons c t ih =>
    obtain ⟨hc, ht⟩ := List.forall_mem_cons.mp h
    rw [run, List.foldl_cons, next_of_isNeutral hc]
    exact ih ht

theorem keeps_of_isNeutral (h : ∀ c ∈ t, isNeutral c = true) (n : Nat) :
    (bare (n + 1)).Keeps t := by
  refine ⟨?_, run_of_isNeutral h (n + 1)⟩
  induction t with
  | nil => trivial
  | cons c t ih =>
    obtain ⟨hc, ht⟩ := List.forall_mem_cons.mp h
    refine ⟨rfl, ?_⟩
    rw [next_of_isNeutral hc]
    exact ih ht

/-- Between brackets of its own a text is covered as it is one level deeper. -/
theorem Keeps.bracketed {a b : Char} {n : Nat} (h : (bare (n + 1)).Keeps t)
    (ha : (bare n).next a = .bare (n + 1)) (hb : (bare (n + 1)).next b = .bare n) :
    ((bare n).next a).Covers (t ++ [b]) ∧ (bare n).run (a :: (t ++ [b])) = .bare n := by
  constructor
  · rw [ha]
    refine h.covers.append ?_
    rw [h.run]
    exact ⟨rfl, trivial⟩
  · rw [Scan.run, List.foldl_cons, ha, ← Scan.run, run_append, h.run]
    exact hb

/-- No delimiter begins in a text between parentheses, and behind them the scan is outside again. -/
theorem Keeps.parenthesized (h : (bare 1).Keeps t) (hd : d ≠ []) (hopen : d.head? ≠ some '(') :
    start.Clears d v ('(' :: (t ++ [')'])) ∧ start.run ('(' :: (t ++ [')'])) = start := by
  obtain ⟨hcovers, hrun⟩ := h.bracketed (a := '(') (b := ')') rfl rfl
  exact ⟨(clears_cons hd hopen).mpr hcovers.clears, hrun⟩

/-- No bracket is closed outside of all brackets and quotes. -/
def Nested : Scan → List Char → Prop
  | _, [] => True
  | s, c :: cs => (isClosing c = true → s ≠ .start) ∧ (s.next c).Nested cs

instance decidableNested : (s : Scan) → (t : List Char) → Decidable (s.Nested t)
  | _, [] => inferInstanceAs (Decidable True)
  | s, c :: cs =>
    have := decidableNested (s.next c) cs
    inferInstanceAs (Decidable (_ ∧ _))

/-- The same place, below one more bracket. -/
def deeper : Scan → Scan
  | .bare n => .bare (n + 1)
  | .quoted q n => .quoted q (n + 1)
  | .escaped q n => .escaped q (n + 1)

theorem atTop_deeper (s : Scan) : s.deeper.atTop = false := by
  cases s <;> rfl

theorem next_deeper (h : isClosing c = true → s ≠ .start) :
    s.deeper.next c = (s.next c).deeper := by
  cases s with
  | bare n =>
    simp only [deeper, next]
    split_ifs with _ _ hclosing
    · rfl
    · rfl
    · have hn : n ≠ 0 := fun e => h hclosing (by rw [e]; rfl)
      show Scan.bare (n + 1 - 1) = .bare (n - 1 + 1)
      congr 1
      omega
    · rfl
  | quoted q n =>
    simp only [deeper, next]
    split_ifs <;> rfl
  | escaped q n => rfl

/-- **Between brackets the scan is one level deeper**, if no bracket is closed in the text below its
opening. -/
theorem Nested.deeper (h : s.Nested t) : s.deeper.run t = (s.run t).deeper ∧ s.deeper.Covers t := by
  induction t generalizing s with
  | nil => exact ⟨rfl, trivial⟩
  | cons c t ih =>
    have hrest := ih h.2
    rw [← next_deeper h.1] at hrest
    exact ⟨hrest.1, s.atTop_deeper, hrest.2⟩

end Scan

end CommandChain.Text
