import CommandChain.Text.Blank
import CommandChain.Text.Quoted
import Mathlib.Data.List.DropRight
import Mathlib.Tactic.SplitIfs

/-!
# The pieces of a text

The pieces of `splitTop d t`, joined with `d`, give back `t`. So a piece is shorter than the text as
soon as there are two. The pieces of `fields` come back from their join as well. Trimming and taking
off quotation marks make no text longer, and a trimmed text stays as it is when it is trimmed once
more. -/

namespace CommandChain.Text

variable {d t p : List Char}

/-! ### Joining the pieces -/

theorem consFirst_ne_nil (c : Char) (ps : List (List Char)) : consFirst c ps ≠ [] := by
  cases ps <;> simp [consFirst]

theorem splitFrom_ne_nil (d : List Char) (skip : Nat) (s : Scan) (t : List Char) :
    splitFrom d skip s t ≠ [] := by
  induction t generalizing skip s with
  | nil => simp [splitFrom]
  | cons c cs ih =>
    cases skip with
    | succ skip => exact ih skip s
    | zero =>
      unfold splitFrom
      split_ifs
      · exact List.cons_ne_nil _ _
      · exact consFirst_ne_nil _ _

theorem fields_ne_nil (sep : Char) (t : List Char) : fields sep t ≠ [] := by
  cases t with
  | nil => simp [fields]
  | cons c cs =>
    unfold fields
    split_ifs
    · exact List.cons_ne_nil _ _
    · exact consFirst_ne_nil _ _

theorem intercalate_consFirst (d : List Char) (c : Char) (ps : List (List Char)) :
    d.intercalate (consFirst c ps) = c :: d.intercalate ps := by
  cases ps with
  | nil => simp [consFirst]
  | cons p ps => cases ps <;> simp [consFirst]

/-- The pieces joined with the delimiter are what the text has after the skipped characters. -/
theorem intercalate_splitFrom (hd : d ≠ []) (skip : Nat) (s : Scan) (t : List Char) :
    d.intercalate (splitFrom d skip s t) = t.drop skip := by
  induction t generalizing skip s with
  | nil => simp [splitFrom]
  | cons c cs ih =>
    cases skip with
    | succ skip => exact ih skip s
    | zero =>
      unfold splitFrom
      split_ifs with h
      · rw [Bool.and_eq_true, List.isPrefixOf_iff_prefix] at h
        obtain ⟨rest, hrest⟩ := h.2
        obtain ⟨x, d', rfl⟩ := List.exists_cons_of_ne_nil hd
        rw [List.intercalate_cons_of_ne_nil (splitFrom_ne_nil _ _ _ _), ih]
        simp only [List.cons_append, List.cons.injEq] at hrest
        obtain ⟨rfl, rfl⟩ := hrest
        simp
      · rw [intercalate_consFirst, ih]
        rfl

theorem intercalate_splitTop (d t : List Char) : d.intercalate (splitTop d t) = t := by
  unfold splitTop
  split_ifs with h
  · simp
  · have hd : d ≠ [] := fun e => h (by simp [e])
    rw [intercalate_splitFrom hd]
    rfl

theorem map_ofList_toList (ws : List String) : (ws.map String.toList).map String.ofList = ws := by
  rw [List.map_map]
  exact (List.map_congr_left fun _ _ => String.ofList_toList).trans (List.map_id ws)

/-! ### Fields -/

section Fields

variable {sep : Char} {w front back : List Char}

theorem consFirst_append (c : Char) {ps : List (List Char)} (hps : ps ≠ [])
    (qs : List (List Char)) : consFirst c (ps ++ qs) = consFirst c ps ++ qs := by
  obtain ⟨p, ps, rfl⟩ := List.exists_cons_of_ne_nil hps
  rfl

/-- A text is cut at every separator. -/
theorem fields_append_cons (sep : Char) (front back : List Char) :
    fields sep (front ++ sep :: back) = fields sep front ++ fields sep back := by
  induction front with
  | nil => simp [fields]
  | cons c front ih =>
    simp only [List.cons_append, fields]
    split_ifs
    · rw [ih, List.cons_append]
    · rw [ih, consFirst_append c (fields_ne_nil sep front)]

theorem fields_eq_singleton (hw : sep ∉ w) : fields sep w = [w] := by
  induction w with
  | nil => rfl
  | cons c w ih =>
    obtain ⟨hc, hw⟩ := not_or.mp (fun h => hw (List.mem_cons.mpr h))
    rw [fields, if_neg (by simpa using Ne.symm hc), ih hw]
    rfl

/-- What stands between separators, or at an end of the text, is a piece. -/
theorem mem_fields (hw : sep ∉ w) (hfront : ∀ c ∈ front.getLast?, c = sep)
    (hback : ∀ c ∈ back.head?, c = sep) : w ∈ fields sep (front ++ (w ++ back)) := by
  have hmem : w ∈ fields sep (w ++ back) := by
    cases back with
    | nil => simp [fields_eq_singleton hw]
    | cons c back =>
      obtain rfl : c = sep := hback c rfl
      simp [fields_append_cons, fields_eq_singleton hw]
  rcases List.eq_nil_or_concat front with rfl | ⟨front, c, rfl⟩
  · exact hmem
  · obtain rfl : c = sep := hfront c (by simp)
    rw [List.concat_append, fields_append_cons]
    exact List.mem_append_right _ hmem

theorem mem_of_mem_fields {c : Char} {t : List Char} (hw : w ∈ fields sep t) (hc : c ∈ w) :
    c ∈ t := by
  induction t generalizing w with
  | nil =>
    obtain rfl := List.mem_singleton.mp hw
    exact hc
  | cons d t ih =>
    unfold fields at hw
    split_ifs at hw
    · rcases List.mem_cons.mp hw with rfl | hw
      · cases hc
      · exact List.mem_cons_of_mem _ (ih hw hc)
    · obtain ⟨p, ps, hps⟩ := List.exists_cons_of_ne_nil (fields_ne_nil sep t)
      rw [hps] at hw ih
      rcases List.mem_cons.mp hw with rfl | hw
      · rcases List.mem_cons.mp hc with rfl | hc
        · exact List.mem_cons_self
        · exact List.mem_cons_of_mem _ (ih List.mem_cons_self hc)
      · exact List.mem_cons_of_mem _ (ih (List.mem_cons_of_mem _ hw) hc)

theorem not_mem_of_mem_fields {t : List Char} (h : w ∈ fields sep t) : sep ∉ w := by
  induction t generalizing w with
  | nil =>
    rw [List.mem_singleton.mp h]
    exact List.not_mem_nil
  | cons c t ih =>
    unfold fields at h
    split_ifs at h with hc
    · rcases List.mem_cons.mp h with rfl | h
      · exact List.not_mem_nil
      · exact ih h
    · obtain ⟨p, ps, hps⟩ := List.exists_cons_of_ne_nil (fields_ne_nil sep t)
      rw [hps] at h ih
      rcases List.mem_cons.mp h with rfl | h
      · have hne : sep ≠ c := fun e => hc (by simp [e])
        have hp : sep ∉ p := ih List.mem_cons_self
        exact fun hmem => hp ((List.mem_cons.mp hmem).resolve_left hne)
      · exact ih (List.mem_cons_of_mem _ h)

/-- Pieces without the separator are read back from their join. -/
theorem fields_intercalate {ws : List (List Char)} (hne : ws ≠ []) (h : ∀ w ∈ ws, sep ∉ w) :
    fields sep ([sep].intercalate ws) = ws := by
  induction ws with
  | nil => exact absurd rfl hne
  | cons w ws ih =>
    obtain ⟨hw, hws⟩ := List.forall_mem_cons.mp h
    cases ws with
    | nil => rw [List.intercalate_singleton, fields_eq_singleton hw]
    | cons w' ws =>
      rw [List.intercalate_cons_cons, List.append_assoc, List.singleton_append, fields_append_cons,
        fields_eq_singleton hw, ih (List.cons_ne_nil _ _) hws]
      rfl

theorem intercalate_fields (sep : Char) (t : List Char) : [sep].intercalate (fields sep t) = t := by
  induction t with
  | nil => simp [fields]
  | cons c t ih =>
    unfold fields
    split_ifs with hc
    · rw [List.intercalate_cons_of_ne_nil (fields_ne_nil _ _), ih, eq_of_beq hc]
      rfl
    · rw [intercalate_consFirst, ih]

theorem intercalate_cons_eq_append (sep : Char) (w : List Char) (ws : List (List Char)) :
    [sep].intercalate (w :: ws) = w ++ ws.flatMap (sep :: ·) := by
  induction ws generalizing w with
  | nil => simp
  | cons v ws ih =>
    rw [List.intercalate_cons_cons, ih, List.flatMap_cons]
    simp

/-- A text is its first piece with the others behind it, each after a separator. -/
theorem toList_of_fieldsText {text first : String} {more : List String}
    (h : fieldsText sep text = first :: more) :
    text.toList = first.toList ++ more.flatMap fun w => sep :: w.toList := by
  have hfields : fields sep text.toList = (first :: more).map String.toList := by
    rw [← h, fieldsText, List.map_map, String.toList_comp_ofList, List.map_id]
  rw [← intercalate_fields sep text.toList, hfields, List.map_cons, intercalate_cons_eq_append,
    List.flatMap_map]

/-- A text that is not cut is its only piece. -/
theorem eq_of_fieldsText_eq_singleton {text w : String} (h : fieldsText sep text = [w]) :
    w = text := by
  have htext := toList_of_fieldsText h
  rw [List.flatMap_nil, List.append_nil] at htext
  exact (String.toList_inj.mp htext).symm

/-- Some of the first pieces of a text are the pieces of a text of their own. -/
theorem exists_fieldsText_eq {text : String} {ws : List String} (hne : ws ≠ [])
    (h : ws <+: fieldsText sep text) : ∃ u, fieldsText sep u = ws := by
  have hfree : ∀ w ∈ ws.map String.toList, sep ∉ w := by
    intro w hw
    obtain ⟨v, hv, rfl⟩ := List.mem_map.mp hw
    obtain ⟨f, hf, rfl⟩ := List.mem_map.mp (h.subset hv)
    rw [String.toList_ofList]
    exact not_mem_of_mem_fields hf
  refine ⟨String.ofList ([sep].intercalate (ws.map String.toList)), ?_⟩
  unfold fieldsText
  rw [String.toList_ofList, fields_intercalate (by simpa using hne) hfree, map_ofList_toList]

end Fields

/-! ### Lengths -/

theorem length_le_of_mem_intercalate {ps : List (List Char)} (hp : p ∈ ps) :
    p.length ≤ (d.intercalate ps).length := by
  induction ps with
  | nil => simp at hp
  | cons q ps ih =>
    cases ps with
    | nil => simp_all
    | cons r ps =>
      rw [List.intercalate_cons_cons, List.length_append, List.length_append]
      rcases List.mem_cons.mp hp with rfl | hp
      · omega
      · have := ih hp
        omega

/-- A piece is shorter than the text, unless it is the only one. -/
theorem length_lt_of_mem_splitTop (hd : d ≠ []) (hp : p ∈ splitTop d t)
    (h : (splitTop d t).length ≠ 1) : p.length < t.length := by
  have hpos : 0 < d.length := List.length_pos_iff.mpr hd
  have hjoin := intercalate_splitTop d t
  match hs : splitTop d t with
  | [] => simp [hs] at hp
  | [q] => simp [hs] at h
  | q :: r :: ps =>
    rw [hs] at hp hjoin
    rw [← hjoin, List.intercalate_cons_cons, List.length_append, List.length_append]
    rcases List.mem_cons.mp hp with rfl | hp
    · omega
    · have := length_le_of_mem_intercalate (d := d) hp
      omega

theorem length_trim_le (t : List Char) : (trim t).length ≤ t.length := by
  have h₁ : (trimStart t).length ≤ t.length := (List.dropWhile_suffix _).length_le
  have h₂ := (List.dropWhile_suffix (l := (trimStart t).reverse) isBlank).length_le
  simp only [trim, trimEnd, List.length_reverse] at h₂ ⊢
  omega

theorem length_unquote_le (t : List Char) : (unquote t).length ≤ t.length := by
  cases t with
  | nil => simp [unquote, unquote?]
  | cons q t =>
    simp only [unquote, unquote?]
    split_ifs
    · simp only [Option.getD_some, List.length_dropLast, List.length_cons]
      omega
    · simp

/-! ### Trimming -/

theorem trimEnd_eq_rdropWhile (t : List Char) : trimEnd t = t.rdropWhile isBlank := rfl

/-- There is no blank at either end. -/
def IsTrimmed (t : List Char) : Prop :=
  (∀ c, t.head? = some c → isBlank c = false) ∧ ∀ c, t.getLast? = some c → isBlank c = false

theorem isTrimmed_of_forall (h : ∀ c ∈ t, isBlank c = false) : IsTrimmed t :=
  ⟨fun c hc => h c (List.mem_of_mem_head? hc), fun c hc => h c (List.mem_of_mem_getLast? hc)⟩

/-- The visible characters of ASCII are no blanks. -/
theorem isBlank_of_visible {c : Char} (hlow : 33 ≤ c.toNat) (hhigh : c.toNat ≤ 126) :
    isBlank c = false := by
  simp only [isBlank, Bool.or_eq_false_iff, Bool.and_eq_false_iff, decide_eq_false_iff_not,
    beq_eq_false_iff_ne]
  omega

theorem isBlank_of_isDigit {c : Char} (h : c.isDigit = true) : isBlank c = false := by
  obtain ⟨hlow, hhigh⟩ := Char.isDigit_iff_toNat.mp h
  have hzero : '0'.toNat = 48 := rfl
  have hnine : '9'.toNat = 57 := rfl
  exact isBlank_of_visible (by omega) (by omega)

theorem trim_eq_self (h : IsTrimmed t) : trim t = t := by
  have hstart : trimStart t = t := by
    cases t with
    | nil => rfl
    | cons c cs => exact List.dropWhile_cons_of_neg (by simp [h.1 c rfl])
  rw [trim, hstart, trimEnd_eq_rdropWhile, List.rdropWhile_eq_self_iff]
  intro hl
  simp [h.2 _ (List.getLast?_eq_some_getLast hl)]

theorem trim_blank_cons {a : Char} (ha : isBlank a = true) (t : List Char) :
    trim (a :: t) = trim t := by
  unfold trim trimStart
  rw [List.dropWhile_cons_of_pos ha]

theorem trim_append_blank {a : Char} (ha : isBlank a = true) (t : List Char) :
    trim (t ++ [a]) = trim t := by
  unfold trim trimStart
  rw [List.dropWhile_append]
  split_ifs with h
  · rw [List.isEmpty_iff.mp h, List.dropWhile_cons_of_pos ha, List.dropWhile_nil]
  · simp only [trimEnd_eq_rdropWhile]
    exact List.rdropWhile_concat_pos _ _ _ ha

theorem trim_blanks_append {u : List Char} (hu : ∀ c ∈ u, isBlank c = true) (t : List Char) :
    trim (u ++ t) = trim t := by
  induction u with
  | nil => rfl
  | cons a u ih =>
    obtain ⟨ha, hu⟩ := List.forall_mem_cons.mp hu
    rw [List.cons_append, trim_blank_cons ha, ih hu]

theorem trim_append_blanks {u : List Char} (hu : ∀ c ∈ u, isBlank c = true) (t : List Char) :
    trim (t ++ u) = trim t := by
  induction u generalizing t with
  | nil => rw [List.append_nil]
  | cons a u ih =>
    obtain ⟨ha, hu⟩ := List.forall_mem_cons.mp hu
    rw [List.append_cons, ih hu, trim_append_blank ha]

theorem isTrimmed_of_ends {a b : Char} (ha : isBlank a = false) (hb : isBlank b = false)
    (u : List Char) : IsTrimmed (a :: (u ++ [b])) := by
  constructor
  · intro c hc
    rw [List.head?_cons, Option.some.injEq] at hc
    rw [← hc, ha]
  · intro c hc
    rw [← List.cons_append, List.getLast?_concat, Option.some.injEq] at hc
    rw [← hc, hb]

theorem isTrimmed_trim (t : List Char) : IsTrimmed (trim t) := by
  have hpre : trim t <+: trimStart t := List.rdropWhile_prefix isBlank _
  constructor
  · intro c hc
    obtain ⟨rest, hrest⟩ := hpre
    have hhead : (trimStart t).head? = some c := by rw [← hrest, List.head?_append, hc]; rfl
    have := List.head?_dropWhile_not isBlank t
    rw [show t.dropWhile isBlank = trimStart t from rfl, hhead] at this
    exact this
  · intro c hc
    have hne : trim t ≠ [] := by intro e; simp [e] at hc
    have hlast := List.rdropWhile_last_not isBlank (trimStart t) hne
    rw [List.getLast?_eq_some_getLast hne] at hc
    rw [show (List.rdropWhile isBlank (trimStart t)).getLast hne = c from
      Option.some.inj hc] at hlast
    simpa using hlast

theorem trim_trim (t : List Char) : trim (trim t) = trim t := trim_eq_self (isTrimmed_trim t)

theorem trim_toList {s : String} (h : trimmed s = s) : trim s.toList = s.toList := by
  have := congrArg String.toList h
  rwa [trimmed, String.toList_ofList] at this

theorem trimmed_trimmed (s : String) : trimmed (trimmed s) = trimmed s := by
  unfold trimmed
  rw [String.toList_ofList, trim_trim]

end CommandChain.Text
