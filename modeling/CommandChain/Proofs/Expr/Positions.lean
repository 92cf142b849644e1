import CommandChain.Proofs.Expr.JsonText
import Mathlib.Data.List.Nodup

/-!
# Where parameters stand

The text of an arrow function writes its parameters in an order, plain and rest parameters as they
come (`WritesFunction`). A plain parameter is bound to the argument whose position is its own among
the plain parameters, and the last rest parameter to the arguments beyond the number of all plain
ones; an earlier rest parameter is not bound at all (`Params.get?_bind_plain`, `get?_bind_rest`,
`get?_bind_of_ne`).

So a parameter that stands behind a rest parameter is not bound by its position. Every parameter is,
for all arguments, exactly if there is no rest parameter but perhaps the last
(`boundByPosition_iff`). -/

namespace CommandChain

namespace Syntax

variable {t : String} {ps : Params} {b : Body} {names : List String} {rest : Option String}
  {body : Expr} {n k : Nat}

/-! ### The text of an arrow function -/

/-- The leaves of an arrow function in `n` pairs of parentheses. -/
def functionTerminals (ps : Params) (b : Body) (n : Nat) : List Terminal :=
  List.replicate n (.sym .parenL) ++
    (ps.terminals ++ .sym .arrow :: (b.terminals ++ List.replicate n (.sym .parenR)))

/-- The text writes an arrow function with these parameters and this body, perhaps in
parentheses. -/
def WritesFunction (t : String) (ps : Params) (b : Body) : Prop :=
  ∃ n, Spelled (functionTerminals ps b n) t.toList

theorem functionTerminals_zero (ps : Params) (b : Body) :
    functionTerminals ps b 0 = (Expression.lambda ps b).terminals := by
  simp [functionTerminals, Expression.terminals]

theorem functionTerminals_succ (ps : Params) (b : Body) (n : Nat) :
    functionTerminals ps b (n + 1) =
      .sym .parenL :: (functionTerminals ps b n ++ [.sym .parenR]) := by
  rw [functionTerminals, List.replicate_succ, List.replicate_succ']
  simp [functionTerminals]

/-- An arrow function in `n` pairs of parentheses. -/
def Expression.function (ps : Params) (b : Body) : Nat → Expression
  | 0 => .lambda ps b
  | n + 1 => .ofPrimary (.paren (function ps b n))

theorem Expression.terminals_function (ps : Params) (b : Body) (n : Nat) :
    (function ps b n).terminals = functionTerminals ps b n := by
  induction n with
  | zero => rw [function, functionTerminals_zero]
  | succ n ih => rw [function, terminals_ofPrimary, Primary.terminals, ih, functionTerminals_succ]

theorem Expression.toExpr_function (ps : Params) (b : Body) (n : Nat) :
    (function ps b n).toExpr = .lambda ps.names ps.rest? b.toExpr := by
  induction n with
  | zero => rw [function, toExpr]
  | succ n ih => rw [function, toExpr_ofPrimary, Primary.toExpr, ih]

/-- What the text of an arrow function is parsed to. -/
theorem WritesFunction.eq_lambda (h : WritesFunction t ps b) {e : Expr}
    (ht : Expr.parse t = .ok e) : e = .lambda ps.names ps.rest? b.toExpr := by
  obtain ⟨n, hn⟩ := h
  have hd : Derives (.function ps b n) t := by rwa [Derives, Expression.terminals_function]
  rw [parse_of_derives hd] at ht
  split at ht
  · cases ht
  · rw [← Except.ok.inj ht, Expression.toExpr_function]

theorem Operands.applyTo_eq_lambda {l : Nat} : (os : Operands l) → {left : Expr} →
    os.applyTo left = .lambda names rest body → os.terminals = [] ∧ left = .lambda names rest body
  | .nil, _, h => ⟨rfl, h⟩
  | .cons _ _ _ os, _, h => by
    obtain ⟨-, hleft⟩ := os.applyTo_eq_lambda h
    cases hleft

theorem Suffixes.applyTo_eq_lambda : (ss : Suffixes) → {left : Expr} →
    ss.applyTo left = .lambda names rest body → ss.terminals = [] ∧ left = .lambda names rest body
  | .nil, _, h => ⟨rfl, h⟩
  | .callEmpty ss, _, h | .call _ _ ss, _, h | .member _ ss, _, h | .index _ ss, _, h => by
    obtain ⟨-, hleft⟩ := ss.applyTo_eq_lambda h
    cases hleft

-- whatever stands around an arrow function without changing it is a pair of parentheses
mutual

theorem Expression.exists_function : (d : Expression) → d.toExpr = .lambda names rest body →
    ∃ ps b n, d.terminals = functionTerminals ps b n
  | .lambda ps b, _ => ⟨ps, b, 0, (functionTerminals_zero ps b).symm⟩
  | .plain c, h => c.exists_function h
  | .ternary _ _ _, h => by cases h

theorem Chain.exists_function {l : Nat} : (c : Chain l) → c.toExpr = .lambda names rest body →
    ∃ ps b n, c.terminals = functionTerminals ps b n
  | .unary u, h => u.exists_function h
  | .level c os, h => by
    obtain ⟨hos, hc⟩ := os.applyTo_eq_lambda h
    rw [Chain.terminals, hos, List.append_nil]
    exact c.exists_function hc

theorem Unary.exists_function : (u : Unary) → u.toExpr = .lambda names rest body →
    ∃ ps b n, u.terminals = functionTerminals ps b n
  | .op _ _, h => by cases h
  | .base (.mk p ss), h => by
    obtain ⟨hss, hp⟩ := ss.applyTo_eq_lambda h
    rw [Unary.terminals, Postfix.terminals, hss, List.append_nil]
    exact p.exists_function hp

theorem Primary.exists_function : (p : Primary) → p.toExpr = .lambda names rest body →
    ∃ ps b n, p.terminals = functionTerminals ps b n
  | .paren e, h => by
    obtain ⟨ps, b, n, hn⟩ := e.exists_function h
    exact ⟨ps, b, n + 1, by rw [Primary.terminals, hn, functionTerminals_succ]⟩
  | .number _, h | .string _ _, h | .boolean _, h | .null, h | .undefined, h | .identifier _, h
  | .emptyArray, h | .array _ _ _, h | .emptyObject, h | .object _ _ _ _, h => by cases h

end

theorem exists_writesFunction (ht : Expr.parse t = .ok (.lambda names rest body)) :
    ∃ ps b, WritesFunction t ps b := by
  obtain ⟨d, hd, hlambda⟩ := exists_derives_of_ok ht
  obtain ⟨ps, b, n, hn⟩ := d.exists_function hlambda
  exact ⟨ps, b, n, hn ▸ hd⟩

/-! ### Parameters in order -/

/-- The name of a parameter. -/
def Param.name : Param → String
  | .plain n | .rest n => n

/-- The value that the arguments give to a parameter at position `k`. -/
def Param.valueAt (args : List Value) (k : Nat) : Param → Value
  | .plain _ => args[k]?.getD .null
  | .rest _ => .list (args.drop k)

namespace Params

/-- The names of the parameters are distinct. -/
def Distinct (ps : Params) : Prop := (ps.params.map Param.name).Nodup

instance (ps : Params) : Decidable ps.Distinct := inferInstanceAs (Decidable (List.Nodup _))

/-- A rest parameter stands at the last position only. -/
def RestLast (ps : Params) : Prop :=
  ∀ (k : Nat) (w : String), ps.params[k]? = some (.rest w) → k + 1 = ps.params.length

/-- Among the variables every parameter has the value that the arguments give at its position. -/
def BoundByPosition (ps : Params) (args : List Value) (s : Scope) : Prop :=
  ∀ (k : Nat) (p : Param), ps.params[k]? = some p → Members.get? p.name s = some (p.valueAt args k)

/-- How many plain parameters stand before position `k`. -/
def plainBefore (ps : Params) (k : Nat) : Nat := ((ps.params.take k).filterMap Param.plain?).length

/-- The variables among which the body is evaluated. -/
def bind (ps : Params) (args : List Value) (captured : Scope) : Scope :=
  Scope.bind ps.names ps.rest? args captured

variable {p p' : Param} {w : String} {args : List Value} {s : Scope}

theorem plain?_eq_some (h : p.plain? = some w) : p = .plain w := by
  cases p with
  | plain => exact congrArg Param.plain (Option.some.inj h)
  | rest => cases h

theorem rest?_eq_some (h : p.rest? = some w) : p = .rest w := by
  cases p with
  | plain => cases h
  | rest => exact congrArg Param.rest (Option.some.inj h)

theorem mem_names : w ∈ ps.names ↔ .plain w ∈ ps.params := by
  rw [names, List.mem_filterMap]
  exact ⟨fun ⟨_, hp, hw⟩ => plain?_eq_some hw ▸ hp, fun h => ⟨_, h, rfl⟩⟩

theorem mem_of_rest? (h : ps.rest? = some w) : .rest w ∈ ps.params := by
  obtain ⟨_, hp, hw⟩ := List.mem_filterMap.mp (List.mem_of_getLast? h)
  exact rest?_eq_some hw ▸ hp

theorem Distinct.eq (h : ps.Distinct) (hp : p ∈ ps.params) (hp' : p' ∈ ps.params)
    (hname : p.name = p'.name) : p = p' :=
  List.inj_on_of_nodup_map h hp hp' hname

theorem Distinct.nodup_names (h : ps.Distinct) : ps.names.Nodup := by
  refine List.Nodup.filterMap (fun p p' w hp hp' => ?_) (List.Nodup.of_map _ h)
  rw [plain?_eq_some hp, plain?_eq_some hp']

/-- A plain parameter stands among the plain ones behind those before it. -/
theorem getElem?_names (h : ps.params[k]? = some (.plain w)) :
    ps.names[ps.plainBefore k]? = some w := by
  obtain ⟨hk, hw⟩ := List.getElem?_eq_some_iff.mp h
  have hsplit : ps.params = ps.params.take k ++ .plain w :: ps.params.drop (k + 1) := by
    rw [← hw, List.getElem_cons_drop, List.take_append_drop]
  rw [names, hsplit, List.filterMap_append, plainBefore, List.getElem?_append_right le_rfl]
  simp [Param.plain?]

end Params

end Syntax

/-! ### Binding -/

namespace Scope

variable {names : List String} {w : String}

theorem get?_bindPlain_of_not_mem (h : w ∉ names) (args : List Value) (s : Scope) :
    Members.get? w (bindPlain names args s) = Members.get? w s := by
  induction names generalizing args s with
  | nil => rfl
  | cons n names ih =>
    obtain ⟨hn, hnames⟩ : w ≠ n ∧ w ∉ names := by simpa using h
    cases args with
    | nil => rw [bindPlain, ih hnames, Members.get?, if_neg (Ne.symm hn)]
    | cons a args => rw [bindPlain, ih hnames, Members.get?, if_neg (Ne.symm hn)]

theorem get?_bindPlain_of_getElem? (hnames : names.Nodup) {i : Nat} (h : names[i]? = some w)
    (args : List Value) (s : Scope) :
    Members.get? w (bindPlain names args s) = some (args[i]?.getD .null) := by
  induction names generalizing i args s with
  | nil => simp at h
  | cons n names ih =>
    obtain ⟨hn, hnames⟩ := List.nodup_cons.mp hnames
    cases i with
    | zero =>
      obtain rfl : n = w := by simpa using h
      cases args with
      | nil => simp [bindPlain, get?_bindPlain_of_not_mem hn, Members.get?]
      | cons a args => simp [bindPlain, get?_bindPlain_of_not_mem hn, Members.get?]
    | succ i =>
      rw [List.getElem?_cons_succ] at h
      cases args with
      | nil => rw [bindPlain, ih hnames h]; simp
      | cons a args => rw [bindPlain, ih hnames h, List.getElem?_cons_succ]

end Scope

namespace Syntax.Params

variable {ps : Params} {w : String} {k : Nat} {p : Param} (args : List Value) (captured : Scope)

/-- The rest parameter that counts is bound to the arguments beyond the number of plain
parameters. -/
theorem get?_bind_rest (h : ps.rest? = some w) :
    Members.get? w (ps.bind args captured) = some (.list (args.drop ps.names.length)) := by
  simp [bind, Scope.bind, h, Members.get?]

theorem get?_bind_of_rest?_ne (h : ps.rest? ≠ some w) :
    Members.get? w (ps.bind args captured) =
      Members.get? w (Scope.bindPlain ps.names args captured) := by
  cases hr : ps.rest? with
  | none => rw [bind, hr, Scope.bind]
  | some r =>
    have hne : r ≠ w := fun hrw => h (hrw ▸ hr)
    rw [bind, hr, Scope.bind, Members.get?, if_neg hne]

/-- A plain parameter is bound to the argument at its position among the plain parameters. -/
theorem get?_bind_plain (hdistinct : ps.Distinct) (h : ps.params[k]? = some (.plain w)) :
    Members.get? w (ps.bind args captured) = some (args[ps.plainBefore k]?.getD .null) := by
  have hmem : .plain w ∈ ps.params := List.mem_of_getElem? h
  have hrest : ps.rest? ≠ some w := fun hw => by
    cases hdistinct.eq hmem (mem_of_rest? hw) rfl
  rw [get?_bind_of_rest?_ne args captured hrest]
  exact Scope.get?_bindPlain_of_getElem? hdistinct.nodup_names (getElem?_names h) args captured

/-- All other names keep what they stand for around the function, among them those of the rest
parameters before the last. -/
theorem get?_bind_of_ne (hplain : w ∉ ps.names) (hrest : ps.rest? ≠ some w) :
    Members.get? w (ps.bind args captured) = Members.get? w captured := by
  rw [get?_bind_of_rest?_ne args captured hrest, Scope.get?_bindPlain_of_not_mem hplain]

/-! ### Binding by position -/

theorem plainBefore_le (ps : Params) (k : Nat) : ps.plainBefore k ≤ k :=
  (List.length_filterMap_le _ _).trans (List.length_take_le _ _)

theorem plainBefore_succ_of_rest (h : ps.params[k]? = some (.rest w)) :
    ps.plainBefore (k + 1) = ps.plainBefore k := by
  simp [plainBefore, List.take_add_one, h, Param.plain?]

theorem RestLast.plainBefore_eq (h : ps.RestLast) (hk : k < ps.params.length) :
    ps.plainBefore k = k := by
  have hplain : ∀ p ∈ ps.params.take k, p.plain?.isSome = true := fun p hp => by
    obtain ⟨i, hi, hget⟩ := List.mem_take_iff_getElem.mp hp
    cases p with
    | plain => rfl
    | rest w =>
      have hlast := h i w (List.getElem?_eq_some_iff.mpr ⟨by omega, hget⟩)
      omega
  rw [plainBefore, List.length_filterMap_eq_countP, List.countP_eq_length.mpr hplain,
    List.length_take_of_le hk.le]

/-- A rest parameter at the last position is the one that counts, behind all plain parameters. -/
theorem rest?_of_last (h : ps.params[k]? = some (.rest w)) (hlast : k + 1 = ps.params.length) :
    ps.rest? = some w ∧ ps.names.length = ps.plainBefore k := by
  have hsplit : ps.params = ps.params.take k ++ [.rest w] := by
    have hall : ps.params.take (k + 1) = ps.params := by rw [hlast, List.take_length]
    rw [List.take_add_one, h] at hall
    exact hall.symm
  constructor
  · rw [rest?, hsplit]
    simp [Param.rest?]
  · rw [names, hsplit, plainBefore]
    simp [Param.plain?]

theorem RestLast.boundByPosition (h : ps.RestLast) (hdistinct : ps.Distinct) :
    ps.BoundByPosition args (ps.bind args captured) := by
  intro k p hp
  have hbefore := h.plainBefore_eq (List.getElem?_eq_some_iff.mp hp).1
  cases p with
  | plain w => rw [Param.name, get?_bind_plain args captured hdistinct hp, hbefore, Param.valueAt]
  | rest w =>
    obtain ⟨hrest, hlength⟩ := rest?_of_last hp (h k w hp)
    rw [Param.name, get?_bind_rest args captured hrest, hlength, hbefore, Param.valueAt]

theorem rest?_of_get?_bind (hdistinct : ps.Distinct) (h : .rest w ∈ ps.params) {v : Value}
    (hv : Members.get? w (ps.bind args []) = some v) : ps.rest? = some w := by
  by_contra hrest
  have hplain : w ∉ ps.names := fun hw => by
    cases hdistinct.eq h (mem_names.mp hw) rfl
  rw [get?_bind_of_ne args [] hplain hrest] at hv
  cases hv

/-- A plain parameter behind a rest parameter gets the wrong one of many arguments, and of two rest
parameters one gets none. -/
theorem restLast_of_boundByPosition (hdistinct : ps.Distinct)
    (h : ∀ args captured, ps.BoundByPosition args (ps.bind args captured)) : ps.RestLast := by
  intro k w hk
  by_contra hlast
  have hlt : k + 1 < ps.params.length := by
    have := (List.getElem?_eq_some_iff.mp hk).1
    omega
  cases hnext : ps.params[k + 1] with
  | plain v =>
    have hnext : ps.params[k + 1]? = some (.plain v) := List.getElem?_eq_some_iff.mpr ⟨hlt, hnext⟩
    -- among the first arguments there is nothing but null, and the next one is true
    have hbound := h (List.replicate (k + 1) .null ++ [.bool true]) [] (k + 1) _ hnext
    have hbefore : ps.plainBefore (k + 1) < k + 1 := by
      rw [plainBefore_succ_of_rest hk]
      exact Nat.lt_succ_of_le (ps.plainBefore_le k)
    rw [Param.name, get?_bind_plain _ _ hdistinct hnext] at hbound
    simp [Param.valueAt, List.getElem?_append, hbefore] at hbound
  | rest v =>
    have hnext : ps.params[k + 1]? = some (.rest v) := List.getElem?_eq_some_iff.mpr ⟨hlt, hnext⟩
    have hw := rest?_of_get?_bind [] hdistinct (List.mem_of_getElem? hk) (h [] [] k _ hk)
    have hv :=
      rest?_of_get?_bind [] hdistinct (List.mem_of_getElem? hnext) (h [] [] (k + 1) _ hnext)
    have hname : w = v := Option.some.inj (hw.symm.trans hv)
    have hpos : k = k + 1 := by
      refine (List.getElem?_inj ?_ hdistinct).mp ?_
      · rw [List.length_map]
        omega
      · simp [hk, hnext, Param.name, hname]
    omega

end Syntax.Params

namespace Syntax

variable {t : String} {e : Expr}

/-- **How parameters are bound.** A text that is parsed to an arrow function writes one. Take any
parameters and body that it writes, the parameters with distinct names. Among any variables the text
has a function as its value, and a call of it evaluates the body among these variables and the
parameters:

* a plain parameter is bound to the argument at its position among the plain ones, or to null,
* the last rest parameter is bound to the arguments beyond the number of plain parameters,
* and any other name is bound to what it was, also that of a rest parameter before the last.

So all parameters are bound by their own positions, whatever the arguments, exactly if no rest
parameter stands before the last position. -/
theorem parameters_bound (ht : Expr.parse t = .ok e) :
    (∀ names rest body, e = .lambda names rest body → ∃ ps b, WritesFunction t ps b) ∧
    ∀ ps b, WritesFunction t ps b → ps.Distinct →
      (∀ captured, ∃ f, Expr.evaluate t captured = .ok f ∧ ∀ room here args,
        f.call (room + 1) here args =
          b.toExpr.evalWith (Value.call room) here (ps.bind args captured)) ∧
      (∀ args captured,
        (∀ k w, ps.params[k]? = some (.plain w) →
          Members.get? w (ps.bind args captured) = some (args[ps.plainBefore k]?.getD .null)) ∧
        (∀ w, ps.rest? = some w →
          Members.get? w (ps.bind args captured) = some (.list (args.drop ps.names.length))) ∧
        ∀ w, w ∉ ps.names → ps.rest? ≠ some w →
          Members.get? w (ps.bind args captured) = Members.get? w captured) ∧
      ((∀ args captured, ps.BoundByPosition args (ps.bind args captured)) ↔ ps.RestLast) := by
  constructor
  · rintro names rest body rfl
    exact exists_writesFunction ht
  · intro ps b hwrites hdistinct
    refine ⟨fun captured => ?_, fun args captured => ⟨?_, ?_, ?_⟩, ?_, ?_⟩
    · obtain rfl := hwrites.eq_lambda ht
      refine ⟨.closure [0] ps.names ps.rest? b.toExpr captured, ?_, fun room here args => rfl⟩
      rw [Expr.evaluate, ht]
      rfl
    · exact fun k w hw => Params.get?_bind_plain args captured hdistinct hw
    · exact fun w hw => Params.get?_bind_rest args captured hw
    · exact fun w hplain hrest => Params.get?_bind_of_ne args captured hplain hrest
    · exact Params.restLast_of_boundByPosition hdistinct
    · exact fun hlast args captured => hlast.boundByPosition args captured hdistinct

/-- Two rest parameters. -/
def twoRests : Params := .list (.rest "a") [.rest "b"]

/-- An array of both. -/
def bothInArray : Body :=
  .expression (.ofPrimary
    (.array (.ofPrimary (.identifier "a")) (.cons (.ofPrimary (.identifier "b")) .nil) false))

/-- Of two rest parameters the first is not bound, and the body of the function has no value. -/
theorem firstRest_unbound :
    WritesFunction "(...a, ...b) => [a, b]" twoRests bothInArray ∧ twoRests.Distinct ∧
      (¬ ∀ args captured, twoRests.BoundByPosition args (twoRests.bind args captured)) ∧
      (∀ args, Members.get? "a" (twoRests.bind args []) = none) ∧
      Expr.applyText "(...a, ...b) => [a, b]" [.num (.int 1), .num (.int 2)] =
        .error (.eval (.undefinedName "a")) := by
  have hderives : Derives (.lambda twoRests bothInArray) "(...a, ...b) => [a, b]" :=
    derives_of_lex rfl (by decide)
  have hparse : Expr.parse "(...a, ...b) => [a, b]" =
      .ok (.lambda [] (some "b") (.list [.ident "a", .ident "b"])) := by
    rw [parse_of_derives hderives]
    rfl
  have hwrites : WritesFunction "(...a, ...b) => [a, b]" twoRests bothInArray :=
    ⟨0, by rwa [functionTerminals_zero]⟩
  have hdistinct : twoRests.Distinct := by decide
  obtain ⟨-, hbound, hiff⟩ := (parameters_bound hparse).2 _ _ hwrites hdistinct
  refine ⟨hwrites, hdistinct, fun h => ?_, fun args => ?_, ?_⟩
  · exact absurd (hiff.mp h 0 "a" rfl) (by decide)
  · exact (hbound args []).2.2 "a" (by decide) (by decide)
  · rw [Expr.applyText, Expr.evaluate, hparse]
    rfl

end Syntax

end CommandChain
