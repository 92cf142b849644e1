import CommandChain.Condition
import CommandChain.Proofs.Expr.Agreement
import CommandChain.Proofs.Expr.Parsing
import CommandChain.Proofs.Text.Split

/-!
# The variables of a condition

The names of an expression are leaves of its derivation, and a leaf without a dollar sign is a run
of name characters, or a piece of one between hyphens. So the variables that a condition mentions
are all that it can see of a store. -/

namespace CommandChain

namespace Syntax

/-! ### Names are leaves -/

mutual

theorem Expression.mem_terminals : (e : Expression) → ∀ {n : String}, n ∈ e.toExpr.names →
    .identifier n ∈ e.terminals
  | .lambda _ b, _, hn => List.mem_append_right _ (List.mem_cons_of_mem _ (b.mem_terminals hn))
  | .plain c, _, hn => c.mem_terminals hn
  | .ternary c a b, n, hn => by
    simp only [Expression.toExpr, Expr.names, List.mem_append] at hn
    simp only [Expression.terminals, List.mem_append, List.mem_cons]
    rcases hn with hn | hn | hn
    · exact .inl (c.mem_terminals hn)
    · exact .inr (.inr (.inl (a.mem_terminals hn)))
    · exact .inr (.inr (.inr (.inr (b.mem_terminals hn))))

theorem Body.mem_terminals : (b : Body) → ∀ {n : String}, n ∈ b.toExpr.names →
    .identifier n ∈ b.terminals
  | .block e _, _, hn =>
    List.mem_cons_of_mem _ (List.mem_cons_of_mem _ (List.mem_append_left _ (e.mem_terminals hn)))
  | .expression e, _, hn => e.mem_terminals hn

theorem Chain.mem_terminals {l : Nat} : (c : Chain l) → ∀ {n : String}, n ∈ c.toExpr.names →
    .identifier n ∈ c.terminals
  | .unary u, _, hn => u.mem_terminals hn
  | .level c os, n, hn => by
    rcases os.mem_terminals hn with hn | hn
    · exact List.mem_append_left _ (c.mem_terminals hn)
    · exact List.mem_append_right _ hn

theorem Operands.mem_terminals {l : Nat} : (os : Operands l) → ∀ {left : Expr} {n : String},
    n ∈ (os.applyTo left).names → n ∈ left.names ∨ .identifier n ∈ os.terminals
  | .nil, left, n, hn => .inl hn
  | .cons op hl c os, left, n, hn => by
    simp only [Operands.terminals, List.mem_cons, List.mem_append]
    rcases os.mem_terminals hn with hn | hn
    · rcases List.mem_append.mp hn with hn | hn
      · exact .inl hn
      · exact .inr (.inr (.inl (c.mem_terminals hn)))
    · exact .inr (.inr (.inr hn))

theorem Unary.mem_terminals : (u : Unary) → ∀ {n : String}, n ∈ u.toExpr.names →
    .identifier n ∈ u.terminals
  | .op _ u, _, hn => List.mem_cons_of_mem _ (u.mem_terminals hn)
  | .base p, _, hn => p.mem_terminals hn

theorem Postfix.mem_terminals : (p : Postfix) → ∀ {n : String}, n ∈ p.toExpr.names →
    .identifier n ∈ p.terminals
  | .mk p ss, n, hn => by
    rcases ss.mem_terminals hn with hn | hn
    · exact List.mem_append_left _ (p.mem_terminals hn)
    · exact List.mem_append_right _ hn

theorem Suffixes.mem_terminals : (ss : Suffixes) → ∀ {left : Expr} {n : String},
    n ∈ (ss.applyTo left).names → n ∈ left.names ∨ .identifier n ∈ ss.terminals
  | .nil, left, n, hn => .inl hn
  | .callEmpty ss, left, n, hn => by
    rcases ss.mem_terminals hn with hn | hn
    · rw [Expr.names, Expr.itemNames, List.append_nil] at hn
      exact .inl hn
    · exact .inr (List.mem_cons_of_mem _ (List.mem_cons_of_mem _ hn))
  | .call e es ss, left, n, hn => by
    simp only [Suffixes.terminals, List.mem_cons, List.mem_append]
    rcases ss.mem_terminals hn with hn | hn
    · simp only [Expr.names, Expr.itemNames, List.mem_append] at hn
      rcases hn with hn | hn | hn
      · exact .inl hn
      · exact .inr (.inr (.inl (e.mem_terminals hn)))
      · exact .inr (.inr (.inr (.inl (es.mem_terminals hn))))
    · exact .inr (.inr (.inr (.inr (.inr hn))))
  | .member m ss, left, n, hn => by
    rcases ss.mem_terminals hn with hn | hn
    · exact .inl hn
    · exact .inr (List.mem_cons_of_mem _ (List.mem_cons_of_mem _ hn))
  | .index e ss, left, n, hn => by
    simp only [Suffixes.terminals, List.mem_cons, List.mem_append]
    rcases ss.mem_terminals hn with hn | hn
    · rcases List.mem_append.mp hn with hn | hn
      · exact .inl hn
      · exact .inr (.inr (.inl (e.mem_terminals hn)))
    · exact .inr (.inr (.inr (.inr hn)))

theorem Primary.mem_terminals : (p : Primary) → ∀ {n : String}, n ∈ p.toExpr.names →
    .identifier n ∈ p.terminals
  | .number _, n, hn | .string .., n, hn | .boolean _, n, hn | .null, n, hn | .undefined, n, hn
  | .emptyArray, n, hn | .emptyObject, n, hn => by cases hn
  | .identifier m, n, hn => by
    obtain rfl := List.mem_singleton.mp hn
    exact List.mem_singleton_self _
  | .array e es trailing, n, hn => by
    simp only [Primary.terminals, List.mem_cons, List.mem_append]
    rcases List.mem_append.mp hn with hn | hn
    · exact .inr (.inl (e.mem_terminals hn))
    · exact .inr (.inr (.inl (es.mem_terminals hn)))
  | .object k e fs trailing, n, hn => by
    simp only [Primary.terminals, List.mem_cons, List.mem_append]
    rcases List.mem_append.mp hn with hn | hn
    · exact .inr (.inr (.inr (.inl (e.mem_terminals hn))))
    · exact .inr (.inr (.inr (.inr (.inl (fs.mem_terminals hn)))))
  | .paren e, _, hn => List.mem_cons_of_mem _ (List.mem_append_left _ (e.mem_terminals hn))

theorem Items.mem_terminals : (es : Items) → ∀ {n : String}, n ∈ Expr.itemNames es.toExprs →
    .identifier n ∈ es.terminals
  | .nil, n, hn => by cases hn
  | .cons e es, n, hn => by
    simp only [Items.terminals, List.mem_cons, List.mem_append]
    rcases List.mem_append.mp hn with hn | hn
    · exact .inr (.inl (e.mem_terminals hn))
    · exact .inr (.inr (es.mem_terminals hn))

theorem Fields.mem_terminals : (fs : Fields) → ∀ {n : String}, n ∈ Expr.fieldNames fs.toFields →
    .identifier n ∈ fs.terminals
  | .nil, n, hn => by cases hn
  | .cons k e fs, n, hn => by
    simp only [Fields.terminals, List.mem_cons, List.mem_append]
    rcases List.mem_append.mp hn with hn | hn
    · exact .inr (.inr (.inr (.inl (e.mem_terminals hn))))
    · exact .inr (.inr (.inr (.inr (fs.mem_terminals hn))))

end

/-! ### Leaves are pieces of the text -/

/-- The last character of a leaf that a name may follow without a blank is in no word. -/
theorem Terminal.Rule.last {x : Terminal} {w : String} {rest : List Char} (rule : x.Rule rest)
    (hjoins : x.Joins (.identifier w)) (hrest : ¬ NoWordChar rest) :
    ∀ c ∈ x.chars.getLast?, Token.isWordChar c = false := by
  cases x with
  | number n => cases hjoins
  | identifier v => cases hjoins
  | property v => cases hjoins
  | keyword v => exact absurd rule.2 hrest
  | string mark raw =>
    intro c hc
    have hmark : mark = c := by
      simpa [Terminal.chars, List.getLast?_cons] using hc
    rcases rule.1 with h | h
    · rw [← hmark, h]
      decide
    · rw [← hmark, h]
      decide
  | sym s =>
    intro c hc
    cases s <;> cases hc <;> decide

theorem WordRule.not_noWordChar {w : String} (hw : WordRule w) (back : List Char) :
    ¬ NoWordChar (w.toList ++ back) := by
  obtain ⟨c, cs, h, hc, -⟩ := hw
  intro hno
  have hword := hno c (by rw [h]; rfl)
  rw [isWordChar_of_isWordStart hc] at hword
  cases hword

/-- A name stands in the text between characters that are in no word. -/
theorem Spelled.exists_around {xs : List Terminal} {cs : List Char} (h : Spelled xs cs)
    (hjoins : xs.IsChain Terminal.Joins) {w : String} (hw : .identifier w ∈ xs) :
    ∃ front back, cs = front ++ (w.toList ++ back) ∧ WordRule w ∧
      (∀ c ∈ front.getLast?, Token.isWordChar c = false) ∧ NoWordChar back ∧
      (front = [] → xs.head? = some (.identifier w)) := by
  induction h with
  | nil hblanks => cases hw
  | @cons blanks rest x xs hblanks rule more ih =>
    have hnext := List.IsChain.rel_head? hjoins
    rcases List.mem_cons.mp hw with rfl | hw
    · refine ⟨blanks, rest, rfl, rule.1, fun c hc => ?_, more.noWordChar hnext, fun _ => rfl⟩
      exact (not_wordChar_of_isSpace (hblanks c (List.mem_of_getLast? hc))).1
    · obtain ⟨front, back, rfl, hword, hfront, hback, hhead⟩ := ih hjoins.tail hw
      obtain ⟨d, ds, hx, -⟩ := rule.exists_head
      have hne : x.chars ≠ [] := by simp [hx]
      refine ⟨blanks ++ (x.chars ++ front), back, by simp only [List.append_assoc],
        hword, ?_, hback, fun hnil => absurd hnil (by simp [hx])⟩
      intro c hc
      rw [List.getLast?_append_of_ne_nil _ (by simp [hx])] at hc
      cases front with
      | nil =>
        rw [List.append_nil] at hc
        exact rule.last (hnext (hhead rfl)) (hword.not_noWordChar back) c hc
      | cons e front =>
        rw [List.getLast?_append_of_ne_nil _ (by simp)] at hc
        exact hfront c hc

end Syntax

namespace Condition

/-! ### Pieces of the text are mentioned -/

theorem isNameChar_iff {c : Char} (hc : c ≠ '$') :
    isNameChar c = true ↔ Token.isWordChar c = true ∨ c = '-' := by
  simp only [isNameChar, Token.isWordChar, Bool.or_eq_true, beq_iff_eq, hc, or_false]

theorem eq_hyphen {c : Char} (hc : isNameChar c = true) (hword : Token.isWordChar c = false) :
    c = '-' := by
  have hdollar : c ≠ '$' := by
    rintro rfl
    exact absurd hc (by decide)
  exact ((isNameChar_iff hdollar).mp hc).resolve_left (by simp [hword])

theorem exists_run_before (p : Char → Bool) (front : List Char) :
    ∃ rest run, front = rest ++ run ∧ (∀ c ∈ run, p c = true) ∧
      ∀ c ∈ rest.getLast?, p c = false := by
  refine ⟨front.rdropWhile p, front.rtakeWhile p, List.rdropWhile_append_rtakeWhile.symm,
    fun c hc => List.mem_rtakeWhile_imp hc, fun c hc => ?_⟩
  have hne : front.rdropWhile p ≠ [] := by
    rintro hnil
    rw [hnil] at hc
    cases hc
  have hlast := List.rdropWhile_last_not p front hne
  rw [List.getLast?_eq_some_getLast hne] at hc
  rw [Option.some.inj hc] at hlast
  simpa using hlast

theorem exists_run_after (p : Char → Bool) (back : List Char) :
    ∃ run rest, back = run ++ rest ∧ (∀ c ∈ run, p c = true) ∧ ∀ c ∈ rest.head?, p c = false :=
  ⟨back.takeWhile p, back.dropWhile p, List.takeWhile_append_dropWhile.symm,
    fun _ hc => List.mem_takeWhile_imp hc, Syntax.head?_dropWhile_eq_false back⟩

/-- A run of name characters that no other name character extends is one of the runs. -/
theorem mem_runs {front run back : List Char} (hne : run ≠ [])
    (hrun : ∀ c ∈ run, isNameChar c = true) (hfront : ∀ c ∈ front.getLast?, isNameChar c = false)
    (hback : ∀ c ∈ back.head?, isNameChar c = false) : run ∈ runs (front ++ (run ++ back)) := by
  have hmap : run.map (fun c => if isNameChar c then c else ' ') = run :=
    (List.map_congr_left fun c hc => if_pos (hrun c hc)).trans (List.map_id run)
  have hblank : ' ' ∉ run := fun h => absurd (hrun ' ' h) (by decide)
  have hmem : run ∈ Text.fields ' '
      ((front ++ (run ++ back)).map fun c => if isNameChar c then c else ' ') := by
    rw [List.map_append, List.map_append, hmap]
    refine Text.mem_fields hblank ?_ ?_
    · intro c hc
      rw [List.getLast?_map] at hc
      obtain ⟨d, hd, rfl⟩ := Option.map_eq_some_iff.mp hc
      exact if_neg (by simp [hfront d hd])
    · intro c hc
      rw [List.head?_map] at hc
      obtain ⟨d, hd, rfl⟩ := Option.map_eq_some_iff.mp hc
      exact if_neg (by simp [hback d hd])
  exact List.mem_filter.mpr ⟨hmem, by simpa using hne⟩

/-- A part of a run is a piece of it if it has no hyphen and stands between hyphens or ends. -/
theorem mem_pieces {before piece after : List Char} (hne : piece ≠ []) (hhyphen : '-' ∉ piece)
    (hlast : ∀ c ∈ before.getLast?, c = '-') (hhead : ∀ c ∈ after.head?, c = '-') :
    piece ∈ pieces (before ++ (piece ++ after)) := by
  unfold pieces
  split_ifs with h
  · refine List.mem_cons_of_mem _ (List.mem_filter.mpr ⟨?_, by simpa using hne⟩)
    exact Text.mem_fields hhyphen hlast hhead
  · -- without a hyphen nothing stands around it
    simp only [List.contains_iff_mem, List.mem_append, not_or] at h
    have hbefore : before = [] := by
      cases hc : before.getLast? with
      | none => exact List.getLast?_eq_none_iff.mp hc
      | some c => exact absurd (hlast c hc ▸ List.mem_of_getLast? hc) h.1
    have hafter : after = [] := by
      cases hc : after.head? with
      | none => exact List.head?_eq_none_iff.mp hc
      | some c => exact absurd (hhead c hc ▸ List.mem_of_mem_head? hc) h.2.2
    simp [hbefore, hafter]

/-- A word without a dollar sign that no other character of a word extends is mentioned. -/
theorem mem_mentioned {t w : String} {front back : List Char}
    (ht : t.toList = front ++ (w.toList ++ back)) (hne : w.toList ≠ [])
    (hw : ∀ c ∈ w.toList, Token.isWordChar c = true) (hdollar : '$' ∉ w.toList)
    (hfront : ∀ c ∈ front.getLast?, Token.isWordChar c = false) (hback : Syntax.NoWordChar back) :
    w ∈ mentioned t := by
  obtain ⟨rest, before, rfl, hbefore, hrest⟩ := exists_run_before isNameChar front
  obtain ⟨after, rest', rfl, hafter, hrest'⟩ := exists_run_after isNameChar back
  have hname : ∀ c ∈ w.toList, isNameChar c = true := by
    intro c hc
    have hc' : c ≠ '$' := fun h => hdollar (h ▸ hc)
    exact (isNameChar_iff hc').mpr (.inl (hw c hc))
  have hhyphen : '-' ∉ w.toList := fun h => absurd (hw '-' h) (by decide)
  have hlast : ∀ c ∈ before.getLast?, c = '-' := by
    intro c hc
    have hmem : before ≠ [] := by
      rintro rfl
      cases hc
    refine eq_hyphen (hbefore c (List.mem_of_getLast? hc)) (hfront c ?_)
    rwa [List.getLast?_append_of_ne_nil _ hmem]
  have hhead : ∀ c ∈ after.head?, c = '-' := by
    intro c hc
    have hmem : after ≠ [] := by
      rintro rfl
      cases hc
    refine eq_hyphen (hafter c (List.mem_of_mem_head? hc)) (hback c ?_)
    rwa [List.head?_append_of_ne_nil _ hmem]
  have hrun : before ++ (w.toList ++ after) ∈ runs t.toList := by
    rw [ht]
    have hall : ∀ c ∈ before ++ (w.toList ++ after), isNameChar c = true := by
      simpa only [List.forall_mem_append] using ⟨hbefore, hname, hafter⟩
    simpa only [List.append_assoc] using mem_runs (by simp [hne]) hall hrest hrest'
  have hpiece := mem_pieces hne hhyphen hlast hhead
  exact List.mem_map.mpr ⟨w.toList, List.mem_flatMap.mpr ⟨_, hrun, hpiece⟩, String.ofList_toList⟩

/-- No name with a dollar sign is mentioned. -/
theorem not_mem_mentioned {t w : String} (hw : '$' ∈ w.toList) : w ∉ mentioned t := by
  intro hmem
  obtain ⟨piece, hpiece, rfl⟩ := List.mem_map.mp hmem
  obtain ⟨run, hrun, hpiece⟩ := List.mem_flatMap.mp hpiece
  rw [String.toList_ofList] at hw
  have hdollar : '$' ∈ run := by
    unfold pieces at hpiece
    split_ifs at hpiece
    · rcases List.mem_cons.mp hpiece with rfl | hpiece
      · exact hw
      · exact Text.mem_of_mem_fields (List.mem_filter.mp hpiece).1 hw
    · rwa [List.mem_singleton.mp hpiece] at hw
  obtain ⟨c, -, hc⟩ := List.mem_map.mp (Text.mem_of_mem_fields (List.mem_filter.mp hrun).1 hdollar)
  split_ifs at hc with hname
  · rw [hc] at hname
    exact absurd hname (by decide)
  · cases hc

/-! ### All variables at once -/

/-- All variables of a store whose names have no dollar sign. -/
def fullScope (s : Store) : Scope :=
  (s.vars.filter fun m => !m.1.toList.contains '$').map fun m => (m.1, .ofJson m.2)

theorem get?_fullScope (s : Store) (n : String) :
    Members.get? n (fullScope s) =
      if '$' ∈ n.toList then none else (Members.get? n s.vars).map Value.ofJson := by
  unfold fullScope
  induction s.vars with
  | nil => simp [Members.get?]
  | cons m ms ih =>
    by_cases hm : '$' ∈ m.1.toList
    · rw [List.filter_cons_of_neg (by simpa using hm), ih]
      by_cases hn : m.1 = n
      · rw [if_pos (hn ▸ hm), if_pos (hn ▸ hm)]
      · rw [Members.get?, if_neg hn]
    · rw [List.filter_cons_of_pos (by simpa using hm), List.map_cons, Members.get?,
        Members.get?, ih]
      by_cases hn : m.1 = n
      · rw [if_pos hn, if_pos hn, if_neg (hn ▸ hm), Option.map_some]
      · rw [if_neg hn, if_neg hn]

theorem get?_scope (t : String) (s : Store) (n : String) :
    Members.get? n (scope t s) =
      if n ∈ mentioned t then (Members.get? n s.vars).map Value.ofJson else none := by
  have h :=
    Members.get?_filterMap (fun n => (Members.get? n s.vars).map Value.ofJson) (mentioned t) n
  simpa only [scope, Option.map_map, Function.comp_def] using h

/-- The mentioned variables and all variables look the same to the expression of a condition. -/
theorem agreeOn_fullScope {t : String} {d : Syntax.Expression}
    (h : Syntax.Derives d t) (s : Store) :
    Scope.AgreeOn d.toExpr.names (scope t s) (fullScope s) := by
  intro n hn
  rw [Value.get?_prunedMembers, Value.get?_prunedMembers, get?_scope, get?_fullScope]
  by_cases hdollar : '$' ∈ n.toList
  · rw [if_pos hdollar, if_neg (not_mem_mentioned hdollar)]
  · obtain ⟨front, back, ht, hword, hfront, hback, -⟩ :=
      Syntax.Spelled.exists_around h d.phrase.joins (d.mem_terminals hn)
    have hmem := mem_mentioned ht hword.toList_ne_nil hword.isWordChar hdollar hfront hback
    rw [if_neg hdollar, if_pos hmem]

/-- Evaluations with the same pruned value count as true together, and fail together. -/
theorem map_isTruthy_eq {x y : Except EvalError Value}
    (h : x.map Value.pruned = y.map Value.pruned) :
    (x.mapError Expr.Error.eval).map Value.isTruthy =
      (y.mapError Expr.Error.eval).map Value.isTruthy := by
  have hpruned : ∀ z : Except EvalError Value, (z.mapError Expr.Error.eval).map Value.isTruthy =
      ((z.map Value.pruned).mapError Expr.Error.eval).map Value.isTruthy := by
    rintro (e | v)
    · rfl
    · exact congrArg Except.ok (Value.functionMap_pruned.isTruthy v).symm
  rw [hpruned x, hpruned y, h]

theorem check_eq_fullScope (t : String) (s : Store) :
    check t s = (Expr.evaluate t (fullScope s)).map Value.isTruthy := by
  unfold check Expr.evaluate
  cases ht : Expr.parse t with
  | error e => rfl
  | ok e =>
    obtain ⟨d, hd, rfl⟩ := Syntax.exists_derives_of_ok ht
    exact map_isTruthy_eq (Expr.eval_congr (agreeOn_fullScope hd s))

/-- To bind what a condition mentions is as good as to bind everything: a condition holds just if it
has a value that counts as true among all variables of the store, but for those with a dollar sign
in their names. -/
theorem holds_iff_fullScope (t : String) (s : Store) :
    holds t s = true ↔
      ∃ v, Expr.evaluate t (fullScope s) = .ok v ∧ v.isTruthy = true := by
  rw [holds, check_eq_fullScope]
  cases Expr.evaluate t (fullScope s) with
  | error e => simp [Except.map, Except.toOption]
  | ok v => simp [Except.map, Except.toOption]

end Condition

end CommandChain
