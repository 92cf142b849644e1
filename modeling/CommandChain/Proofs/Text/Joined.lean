import CommandChain.Proofs.Text.Cut

/-!
# Splitting undoes joining

A delimiter is seen through a window of its own length. So whether it begins in `u` when it stands
behind `u` again is decided before it is over, whatever comes after it (`Scan.clears_delimiter`). A
first piece is cut off where the scan clears it and is back where it began (`exists_cut`), and that
is known from the piece and the delimiter alone (`splitTop_append_eq_cons_iff`).

The main statement is that joined parts come back just if each of them does so by itself
(`splitTop_intercalate_concat_iff`). Nothing is asked of the delimiter: it may have quotation marks
and brackets in it, or begin as it ends. -/

namespace CommandChain.Text

variable {d p t u v : List Char} {s : Scan}

/-! ### What follows a text -/

theorem prefix_append_iff {w : List Char} (h : d.length ≤ w.length) : d <+: w ++ v ↔ d <+: w :=
  ⟨fun hpre => List.prefix_of_prefix_length_le hpre (List.prefix_append w v) h,
    fun hpre => hpre.trans (List.prefix_append w v)⟩

namespace Scan

/-- A delimiter that begins in a text and ends in front of the delimiter behind it, or with it, does
so whatever comes next. -/
theorem clears_delimiter : s.Clears d (d ++ v) u ↔ s.Clears d d u := by
  have hwindow (w : List Char) : d <+: w ++ (d ++ v) ↔ d <+: w ++ d := by
    have hlen : d.length ≤ (w ++ d).length := by
      rw [List.length_append]
      omega
    rw [← List.append_assoc, prefix_append_iff hlen]
  exact ⟨fun h => h.mono fun w _ => (hwindow w).mpr, fun h => h.mono fun w _ => (hwindow w).mp⟩

theorem Clears.alone (h : s.Clears d v u) : s.Clears d [] u := by
  refine h.mono fun w _ hpre => ?_
  rw [List.append_nil] at hpre
  exact hpre.trans (List.prefix_append w v)

end Scan

/-! ### The first piece -/

/-- Where a text is cut, the scan has cleared the first piece and is back where it began: by
induction on the text, for a scan that stands anywhere. -/
theorem exists_cut {ps : List (List Char)} (hd : d ≠ []) (hps : ps ≠ [])
    (h : splitFrom d 0 s t = p :: ps) :
    ∃ v, t = p ++ (d ++ v) ∧ s.Clears d (d ++ v) p ∧ s.run p = .start ∧
      splitFrom d 0 .start v = ps := by
  induction t generalizing s p with
  | nil =>
    obtain ⟨-, hnil⟩ := List.cons.inj h
    exact absurd hnil.symm hps
  | cons c t ih =>
    unfold splitFrom at h
    split_ifs at h with hcut
    · -- the delimiter begins here
      obtain ⟨rfl, hmore⟩ := List.cons.inj h
      rw [Bool.and_eq_true, Scan.atTop_iff, List.isPrefixOf_iff_prefix] at hcut
      obtain ⟨rfl, rest, hrest⟩ := hcut
      obtain ⟨a, d', rfl⟩ := List.exists_cons_of_ne_nil hd
      obtain ⟨rfl, rfl⟩ := List.cons.inj hrest
      refine ⟨rest, rfl, trivial, rfl, ?_⟩
      rw [← splitFrom_skip _ _ d' rest]
      exact hmore
    · obtain ⟨q, qs, hq⟩ := List.exists_cons_of_ne_nil (splitFrom_ne_nil d 0 (s.next c) t)
      rw [hq] at h
      obtain ⟨rfl, rfl⟩ := List.cons.inj h
      obtain ⟨v, rfl, hclears, hrun, hmore⟩ := ih hq
      refine ⟨v, rfl, ⟨?_, hclears⟩, hrun, hmore⟩
      rwa [← List.isPrefixOf_iff_prefix, ← Bool.and_eq_true]

theorem splitTop_eq_splitFrom (hd : d ≠ []) (t : List Char) :
    splitTop d t = splitFrom d 0 .start t := by
  rw [splitTop, if_neg (by simpa using hd)]

theorem splitTop_ne_nil (d t : List Char) : splitTop d t ≠ [] := by
  unfold splitTop
  split_ifs
  · exact List.cons_ne_nil _ _
  · exact splitFrom_ne_nil _ _ _ _

@[simp] theorem splitTop_nil (d : List Char) : splitTop d [] = [[]] := by
  unfold splitTop
  split_ifs <;> rfl

theorem splitTop_append_eq_cons_iff_clears {ps : List (List Char)} (hd : d ≠ []) :
    splitTop d (p ++ (d ++ v)) = p :: ps ↔
      (Scan.start.Clears d d p ∧ Scan.start.run p = .start) ∧ splitTop d v = ps := by
  constructor
  · intro h
    have hps : ps ≠ [] := by
      rintro rfl
      have hjoin := intercalate_splitTop d (p ++ (d ++ v))
      rw [h, List.intercalate_singleton, List.self_eq_append_right, List.append_eq_nil_iff] at hjoin
      exact hd hjoin.1
    rw [splitTop_eq_splitFrom hd] at h
    obtain ⟨v', hv, hclears, hrun, hmore⟩ := exists_cut hd hps h
    obtain rfl : v = v' := List.append_cancel_left (List.append_cancel_left hv)
    refine ⟨⟨Scan.clears_delimiter.mp hclears, hrun⟩, ?_⟩
    rw [splitTop_eq_splitFrom hd, hmore]
  · rintro ⟨⟨hclears, hrun⟩, rfl⟩
    exact splitTop_append hd (Scan.clears_delimiter.mpr hclears) hrun

theorem splitTop_append_delimiter_iff (hd : d ≠ []) :
    splitTop d (p ++ d) = [p, []] ↔ Scan.start.Clears d d p ∧ Scan.start.run p = .start := by
  have h : splitTop d (p ++ (d ++ [])) = [p, []] ↔
      (Scan.start.Clears d d p ∧ Scan.start.run p = .start) ∧ splitTop d [] = [[]] :=
    splitTop_append_eq_cons_iff_clears hd
  rwa [List.append_nil, splitTop_nil, and_iff_left rfl] at h

/-- **A first piece is known from itself**: what comes after the delimiter makes no difference to
it. -/
theorem splitTop_append_eq_cons_iff {ps : List (List Char)} (hd : d ≠ []) :
    splitTop d (p ++ (d ++ v)) = p :: ps ↔
      splitTop d (p ++ d) = [p, []] ∧ splitTop d v = ps := by
  rw [splitTop_append_eq_cons_iff_clears hd, splitTop_append_delimiter_iff hd]

theorem splitTop_eq_singleton_of_append (hd : d ≠ []) (h : splitTop d (p ++ d) = [p, []]) :
    splitTop d p = [p] := by
  obtain ⟨hclears, -⟩ := (splitTop_append_delimiter_iff hd).mp h
  exact (splitTop_eq_singleton_iff hd).mpr hclears.alone

/-! ### All pieces -/

/-- **Joined parts are the pieces of their join** just if each of them is the first piece of itself
and the delimiter, and the last one is a piece by itself. -/
theorem splitTop_intercalate_concat_iff (hd : d ≠ []) (ps : List (List Char)) (last : List Char) :
    splitTop d (d.intercalate (ps ++ [last])) = ps ++ [last] ↔
      (∀ p ∈ ps, splitTop d (p ++ d) = [p, []]) ∧ splitTop d last = [last] := by
  induction ps with
  | nil => simp
  | cons p ps ih =>
    have hne : ps ++ [last] ≠ [] := by simp
    rw [List.cons_append, List.intercalate_cons_of_ne_nil hne, List.append_assoc,
      splitTop_append_eq_cons_iff hd, ih, List.forall_mem_cons, and_assoc]

theorem splitTop_intercalate {c : Char} {ps : List (List Char)} (hne : ps ≠ [])
    (hps : ∀ p ∈ ps, splitTop [c] p = [p] ∧ Scan.start.run p = .start) :
    splitTop [c] ([c].intercalate ps) = ps := by
  have hc : [c] ≠ [] := List.cons_ne_nil _ _
  obtain ⟨qs, last, hqs⟩ := (List.eq_nil_or_concat ps).resolve_left hne
  obtain rfl : ps = qs ++ [last] := hqs.trans (List.concat_eq_append ..)
  refine (splitTop_intercalate_concat_iff hc qs last).mpr ⟨fun p hp => ?_, (hps last (by simp)).1⟩
  obtain ⟨hpiece, hrun⟩ := hps p (List.mem_append_left _ hp)
  have hclears := (splitTop_eq_singleton_iff hc).mp hpiece
  exact (splitTop_append_delimiter_iff hc).mpr ⟨hclears.behind, hrun⟩

theorem splitTop_of_mem (hd : d ≠ []) (hp : p ∈ splitTop d t) : splitTop d p = [p] := by
  obtain ⟨ps, last, hpieces⟩ :=
    (List.eq_nil_or_concat (splitTop d t)).resolve_left (splitTop_ne_nil d t)
  rw [List.concat_eq_append] at hpieces
  -- the text is the join of its pieces
  have hjoin : splitTop d (d.intercalate (ps ++ [last])) = ps ++ [last] := by
    rw [← hpieces, intercalate_splitTop]
  obtain ⟨hps, hlast⟩ := (splitTop_intercalate_concat_iff hd ps last).mp hjoin
  rw [hpieces, List.mem_append, List.mem_singleton] at hp
  rcases hp with hp | rfl
  · exact splitTop_eq_singleton_of_append hd (hps p hp)
  · exact hlast

/-! ### On strings -/

theorem map_toList_splitTopText (d t : String) :
    (splitTopText d t).map String.toList = splitTop d.toList t.toList := by
  rw [splitTopText, List.map_map]
  exact (List.map_congr_left fun _ _ => String.toList_ofList).trans (List.map_id _)

theorem splitTopText_eq_iff {d t : String} {ps : List String} :
    splitTopText d t = ps ↔ splitTop d.toList t.toList = ps.map String.toList := by
  have hinj : Function.Injective (List.map String.toList) :=
    List.map_injective_iff.mpr fun _ _ => String.toList_inj.mp
  rw [← map_toList_splitTopText, hinj.eq_iff]

/-- Splitting and joining undo each other. The pieces of every text give it back when they are
joined, and none of them is split again. And parts that are joined come back as they were just if
each but the last is split off in front of the delimiter, and the last one is not split. -/
theorem splitTopText_joined {d : String} (hd : d ≠ "") :
    (∀ t, d.intercalate (splitTopText d t) = t ∧ ∀ p ∈ splitTopText d t, splitTopText d p = [p]) ∧
    ∀ (ps : List String) (last : String),
      splitTopText d (d.intercalate (ps ++ [last])) = ps ++ [last] ↔
        (∀ p ∈ ps, splitTopText d (p ++ d) = [p, ""]) ∧ splitTopText d last = [last] := by
  have hne : d.toList ≠ [] := by simpa using hd
  refine ⟨fun t => ⟨?_, fun p hp => ?_⟩, fun ps last => ?_⟩
  · rw [← String.toList_inj, String.toList_intercalate, map_toList_splitTopText,
      intercalate_splitTop]
  · have hpiece : p.toList ∈ splitTop d.toList t.toList := by
      rw [← map_toList_splitTopText]
      exact List.mem_map_of_mem hp
    exact splitTopText_eq_iff.mpr (splitTop_of_mem hne hpiece)
  · have h := splitTop_intercalate_concat_iff hne (ps.map String.toList) last.toList
    simp only [splitTopText_eq_iff, String.toList_intercalate, String.toList_append,
      List.map_append, List.map_cons, List.map_nil, String.toList_empty, List.forall_mem_map] at h ⊢
    exact h

/-- A delimiter that begins as it ends and opens a bracket. Where it is written one and a half times
it is found at the first place, and the bracket that is left is not closed. -/
theorem splitTopText_overlapping :
    "(,(" ≠ "" ∧ splitTopText "(,(" "a(,(,(b" = ["a", ",(b"] ∧
      "(,(".intercalate ["a", ",(b"] = "a(,(,(b" ∧
      splitTopText "(,(" ("a" ++ "(,(") = ["a", ""] ∧ splitTopText "(,(" ",(b" = [",(b"] := by
  have hd : "(,(" ≠ "" := by decide
  have hsplit : splitTopText "(,(" "a(,(,(b" = ["a", ",(b"] := by decide
  obtain ⟨hjoin, hparts⟩ := splitTopText_joined hd
  have htext := (hjoin "a(,(,(b").1
  rw [hsplit] at htext
  obtain ⟨ha, hb⟩ := (hparts ["a"] ",(b").mp (by rw [List.singleton_append, htext, hsplit])
  exact ⟨hd, hsplit, htext, ha "a" (by simp), hb⟩

end CommandChain.Text
