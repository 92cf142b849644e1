import CommandChain.Proofs.Expr.Regular
import CommandChain.Proofs.Expr.Mentioned
import CommandChain.Proofs.Store.Write

/-!
# Paths as conditions

A path whose segments are words is an expression as well: a name with accesses to members behind it
(`Syntax.path`). What the path names in a store is then also the value of the expression, if the
variable at its root is bound: a segment that names a part of a JSON value names a member of an
object, since no word is the number of an item. A condition binds its root unless that has a dollar
sign, so as a condition the path holds just if what it names counts as true
(`Condition.holds_path`). -/

namespace CommandChain

namespace Syntax

open Expression (ofUnary)

/-! ### The derivation of a path -/

/-- Accesses to members one after the other. -/
def members : List String → Suffixes
  | [] => .nil
  | w :: ws => .member w (members ws)

/-- A name with accesses to members behind it. -/
def path (root : String) (ws : List String) : Expression :=
  ofUnary (.base (.mk (.identifier root) (members ws)))

theorem toExpr_path (root : String) (ws : List String) :
    (path root ws).toExpr = (members ws).applyTo (.ident root) := Expression.toExpr_ofUnary _

theorem noWordChar_members (ws : List String) :
    NoWordChar (ws.flatMap fun w => '.' :: w.toList) := by
  cases ws with
  | nil => exact noWordChar_nil
  | cons w ws => exact noWordChar_cons (by decide)

theorem spells_members {ws : List String} (h : ∀ w ∈ ws, WordRule w) :
    Spells (members ws).terminals (ws.flatMap fun w => '.' :: w.toList) := by
  induction ws with
  | nil => exact .nil
  | cons w ws ih =>
    obtain ⟨hw, hws⟩ := List.forall_mem_cons.mp h
    exact ((ih hws).leaf (x := .property w) hw rfl).sym .dot

theorem spells_path {root : String} {ws : List String} (hroot : WordRule root)
    (hkeyword : root ∉ keywords) (h : ∀ w ∈ ws, WordRule w) :
    Spells (path root ws).terminals (root.toList ++ ws.flatMap fun w => '.' :: w.toList) := by
  have hahead := not_keywordAhead hkeyword hroot.isWordChar (noWordChar_members ws)
  rw [path, Expression.terminals_ofUnary]
  exact (spells_members h).leaf (x := .identifier root) ⟨hroot, hahead⟩ rfl

end Syntax

/-! ### The value of a path -/

theorem Json.index?_of_wordRule {w : String} (hw : Syntax.WordRule w) : index? w = none := by
  obtain ⟨c, cs, h, hc, -⟩ := hw
  have hdigit := Syntax.isDigit_of_isWordStart hc
  have hplus : c ≠ '+' := by
    rintro rfl
    exact absurd hc (by decide)
  unfold index?
  rw [h]
  split
  · next heq =>
    cases heq
    exact absurd rfl hplus
  · simp [hdigit]

namespace Value

theorem property_ofJson {v u : Json} {w : String} (hw : Syntax.WordRule w)
    (h : v.child? w = some u) : (ofJson v).property w = .ok (ofJson u) := by
  cases v with
  | obj ms =>
    have hget : Members.get? w ms = some u := h
    rw [ofJson, property, ofMembers_eq, Members.get?_mapValues, hget, Option.map_some,
      Option.getD_some]
  | arr items =>
    rw [Json.child?, Json.index?_of_wordRule hw] at h
    cases h
  | null | bool | num | str => cases h

theorem foldlM_property_ofJson {v u : Json} {ws : List String} (hws : ∀ w ∈ ws, Syntax.WordRule w)
    (h : v.descend? ws = some u) : ws.foldlM property (ofJson v) = .ok (ofJson u) := by
  induction ws generalizing v with
  | nil =>
    cases h
    rfl
  | cons w ws ih =>
    obtain ⟨hw, hws⟩ := List.forall_mem_cons.mp hws
    obtain ⟨x, hx, hu⟩ := Option.bind_eq_some_iff.mp h
    rw [List.foldlM_cons, property_ofJson hw hx]
    exact ih hws hu

end Value

theorem Expr.evalWith_members {caller : Caller} {s : Scope} {e : Expr} {r : Except EvalError Value}
    (ws : List String) (h : ∀ here, evalWith caller here s e = r) (here : Address) :
    evalWith caller here s ((Syntax.members ws).applyTo e) = r >>= fun v =>
      ws.foldlM Value.property v := by
  induction ws generalizing e r with
  | nil =>
    rw [Syntax.members, Syntax.Suffixes.applyTo, h]
    exact (bind_pure r).symm
  | cons w ws ih =>
    rw [Syntax.members, Syntax.Suffixes.applyTo]
    have hmember : ∀ here, evalWith caller here s (.member e w) = r >>= fun v => v.property w := by
      intro here
      rw [evalWith, h]
    rw [ih hmember, bind_assoc]
    simp only [List.foldlM_cons]

theorem Value.ofGlobal?_of_dollar {name : String} (h : '$' ∈ name.toList) :
    ofGlobal? name = none := by
  have hfree : ∀ n ∈ ["String", "Number", "Boolean", "JSON", "NaN", "Infinity"],
      '$' ∉ n.toList := by
    decide
  have hne : ∀ n ∈ ["String", "Number", "Boolean", "JSON", "NaN", "Infinity"], name ≠ n :=
    fun n hn e => hfree n hn (e ▸ h)
  simp only [List.forall_mem_cons] at hne
  simp [ofGlobal?, hne]

namespace Condition

variable {s : Store} {path root : String} {ws : List String} {v : Json}

/-- As a condition a path takes the properties that it names, from its root on. -/
theorem check_path (hpath : Text.fieldsText '.' path = root :: ws) (hroot : Syntax.WordRule root)
    (hkeyword : root ∉ Syntax.keywords) (hws : ∀ w ∈ ws, Syntax.WordRule w) :
    check path s =
      ((Value.ofName (scope path s) root >>= fun v => ws.foldlM Value.property v).mapError
        Expr.Error.eval).map Value.isTruthy := by
  have hparse : Expr.parse path = .ok (Syntax.path root ws).toExpr := by
    refine Syntax.Spells.parse ?_
    rw [Text.toList_of_fieldsText hpath]
    exact Syntax.spells_path hroot hkeyword hws
  have heval : Expr.eval (scope path s) ((Syntax.members ws).applyTo (.ident root)) =
      Value.ofName (scope path s) root >>= fun v => ws.foldlM Value.property v :=
    Expr.evalWith_members ws (fun _ => rfl) [0]
  rw [check, Expr.evaluate, hparse, Syntax.toExpr_path]
  exact congrArg (fun r => (r.mapError Expr.Error.eval).map Value.isTruthy) heval

theorem root_mem_mentioned (hpath : Text.fieldsText '.' path = root :: ws)
    (hroot : Syntax.WordRule root) (hdollar : '$' ∉ root.toList) : root ∈ mentioned path := by
  have htext : path.toList = [] ++ (root.toList ++ ws.flatMap fun w => '.' :: w.toList) :=
    Text.toList_of_fieldsText hpath
  exact mem_mentioned htext hroot.toList_ne_nil hroot.isWordChar hdollar (by simp)
    (Syntax.noWordChar_members ws)

/-- A root with a dollar sign is not bound, so the condition has no value. -/
theorem holds_of_dollar (hpath : Text.fieldsText '.' path = root :: ws)
    (hroot : Syntax.WordRule root)
    (hkeyword : root ∉ Syntax.keywords) (hws : ∀ w ∈ ws, Syntax.WordRule w)
    (hdollar : '$' ∈ root.toList) : holds path s = false := by
  rw [holds, check_path hpath hroot hkeyword hws, Value.ofName, get?_scope,
    if_neg (not_mem_mentioned hdollar), Value.ofGlobal?_of_dollar hdollar]
  rfl

/-- **Conditions and the store agree on what a path names.** Let the first segment of a path be a
word other than the keywords, and the other segments words. If the path names a value and the first
segment has no dollar sign, the path holds as a condition just if that value counts as true; with a
dollar sign in its first segment it does not hold. -/
theorem holds_path (hpath : Text.fieldsText '.' path = root :: ws) (hroot : Syntax.WordRule root)
    (hkeyword : root ∉ Syntax.keywords) (hws : ∀ w ∈ ws, Syntax.WordRule w)
    (hv : s.lookup path = some v) :
    ('$' ∉ root.toList → holds path s = v.isTruthy) ∧
      ('$' ∈ root.toList → holds path s = false) := by
  refine ⟨fun hdollar => ?_, holds_of_dollar hpath hroot hkeyword hws⟩
  rw [Store.lookup, hpath] at hv
  obtain ⟨u, hu, hv⟩ := Option.bind_eq_some_iff.mp hv
  rw [holds, check_path hpath hroot hkeyword hws, Value.ofName, get?_scope,
    if_pos (root_mem_mentioned hpath hroot hdollar), hu]
  show (((ws.foldlM Value.property (Value.ofJson u)).mapError _).map _).toOption.getD false = _
  rw [Value.foldlM_property_ofJson hws hv]
  exact Value.isTruthy_ofJson v

/-- An object under a name with a dollar sign and under one without. -/
def dollarNames : Store :=
  ⟨[("$a", .obj [("$b", .arr [])]), ("a", .obj [("$b", .arr [])])]⟩

theorem wordRule_dollar : Syntax.WordRule "$b" :=
  ⟨'$', ['b'], by decide, by decide, List.forall_mem_singleton.mpr (by decide)⟩

theorem dollarNames_holds :
    dollarNames.lookup "a.$b" = some (.arr []) ∧ holds "a.$b" dollarNames = true ∧
      dollarNames.lookup "$a.$b" = some (.arr []) ∧ holds "$a.$b" dollarNames = false := by
  have hws : ∀ w ∈ ["$b"], Syntax.WordRule w := by simp [wordRule_dollar]
  have ha : Syntax.WordRule "a" := ⟨'a', [], by decide, by decide, List.forall_mem_nil _⟩
  have hda : Syntax.WordRule "$a" :=
    ⟨'$', ['a'], by decide, by decide, List.forall_mem_singleton.mpr (by decide)⟩
  have hlookup : dollarNames.lookup "a.$b" = some (.arr []) := rfl
  have hdlookup : dollarNames.lookup "$a.$b" = some (.arr []) := rfl
  have hpath : Text.fieldsText '.' "a.$b" = ["a", "$b"] := by decide
  have hdpath : Text.fieldsText '.' "$a.$b" = ["$a", "$b"] := by decide
  exact ⟨hlookup, (holds_path hpath ha (by decide) hws hlookup).1 (by decide),
    hdlookup, (holds_path hdpath hda (by decide) hws hdlookup).2 (by decide)⟩

/-- Not every path that is an expression holds just if what it names counts as true. -/
theorem dollar_not_bound :
    ¬ ∀ (s : Store) (path root : String) (ws : List String) (v : Json),
      Text.fieldsText '.' path = root :: ws → Syntax.WordRule root → root ∉ Syntax.keywords →
      (∀ w ∈ ws, Syntax.WordRule w) → s.lookup path = some v → holds path s = v.isTruthy := by
  intro h
  have hword : Syntax.WordRule "$x" :=
    ⟨'$', ['x'], by decide, by decide, List.forall_mem_singleton.mpr (by decide)⟩
  have hpath : Text.fieldsText '.' "$x" = ["$x"] := by decide
  have hholds := h ⟨[("$x", .bool true)]⟩ "$x" "$x" [] (.bool true) hpath hword (by decide)
    (List.forall_mem_nil _) rfl
  rw [holds_of_dollar hpath hword (by decide) (List.forall_mem_nil _) (by decide)] at hholds
  cases hholds

end Condition

end CommandChain
