import CommandChain.Proofs.Expr.Agreement
import CommandChain.Proofs.Expr.JsonText
import CommandChain.Proofs.Expr.Relocated
import CommandChain.Step.Dispatch

/-!
# The logged form of an expression step

An expression step is logged as a call: its command between parentheses, and its parameters as JSON
text behind it. The log can be taken at its word: evaluated, that text gives what the step was
answered.

A derivation of the command is also one between parentheses, since a closing parenthesis goes on
with no word. The two evaluations then differ in their addresses only: in the text the command
stands below the call, and on its own it is the whole expression. -/

namespace CommandChain

/-! ### The text of a call -/

namespace Syntax

/-- The call of the value of an expression. -/
def callOf (d : Expression) (arguments : Option (Expression × Items)) : Expression :=
  .ofUnary (.base (.mk (.paren d)
    (match arguments with
      | none => .callEmpty .nil
      | some (e, es) => .call e es .nil)))

/-- The JSON text of arguments. -/
def argumentText : List Json → List Char
  | [] => []
  | v :: vs => v.compact ++ moreItems [' '] vs

theorem toList_describe {command : String} (hkind : StepKind.ofCommand command = .expression)
    (params : List Json) : (Step.describe command params).toList =
      '(' :: (command.toList ++ (')' :: '(' :: (argumentText params ++ [')']))) := by
  have hjoin (vs : List Json) : [',', ' '].intercalate (vs.map Json.compact) = argumentText vs := by
    have hmore (v : Json) (vs : List Json) :
        [',', ' '].intercalate ((v :: vs).map Json.compact) = v.compact ++ moreItems [' '] vs := by
      induction vs generalizing v with
      | nil => simp [moreItems]
      | cons w vs ih =>
        rw [List.map_cons, List.map_cons, List.intercalate_cons_cons, ← List.map_cons, ih]
        simp [moreItems]
    cases vs with
    | nil => rfl
    | cons v vs => exact hmore v vs
  have htexts : (params.map StepKind.expression.render).map String.toList =
      params.map Json.compact := by
    rw [List.map_map]
    exact List.map_congr_left fun v _ => String.toList_ofList
  simp only [Step.describe, hkind, String.toList_append, String.toList_intercalate, htexts]
  rw [show ", ".toList = [',', ' '] from rfl, hjoin]
  simp

theorem terminals_callOf (d : Expression) (arguments : Option (Expression × Items)) :
    (callOf d arguments).terminals = .sym .parenL :: (d.terminals ++ .sym .parenR :: .sym .parenL ::
      (match arguments with
        | none => [.sym .parenR]
        | some (e, es) => e.terminals ++ (es.terminals ++ [.sym .parenR]))) := by
  unfold callOf
  rw [Expression.terminals_ofUnary]
  rcases arguments with _ | ⟨e, es⟩ <;>
    simp [Unary.terminals, Postfix.terminals, Primary.terminals, Suffixes.terminals]

/-- The logged form of an expression step is derived as a call of what its command is derived as,
with arguments that evaluate to the parameters. -/
theorem exists_callOf {d : Expression} {command : String}
    (hkind : StepKind.ofCommand command = .expression) (hd : Spells d.terminals command.toList)
    {params : List Json} (hparams : ∀ v ∈ params, v.Regular Number.ReadsBack) :
    ∃ arguments es, Spells (callOf d arguments).terminals (Step.describe command params).toList ∧
      (callOf d arguments).toExpr = .call d.toExpr es ∧
      ∀ caller here scope, Expr.evalItems caller here 2 scope es = .ok (Value.ofItems params) := by
  have hclose : NoWordChar [')'] := noWordChar_cons (by decide)
  have hcall {xs : List Terminal} {cs : List Char} (h : Spells xs cs) :
      Spells (.sym .parenL :: (d.terminals ++ .sym .parenR :: .sym .parenL :: xs))
        ('(' :: (command.toList ++ ')' :: '(' :: cs)) :=
    (hd.append ((h.sym .parenL).sym .parenR) (noWordChar_cons (by decide))).sym .parenL
  rw [toList_describe hkind]
  cases params with
  | nil =>
    refine ⟨none, [], ?_, rfl, fun _ _ _ => rfl⟩
    rw [terminals_callOf]
    exact hcall (Spells.nil.sym .parenR)
  | cons v vs =>
    obtain ⟨hv, hvs⟩ := List.forall_mem_cons.mp hparams
    obtain ⟨e, he⟩ := exists_writes hv
    have hblank : ∀ c ∈ [' '], Text.isSpace c = true := List.forall_mem_singleton.mpr rfl
    obtain ⟨es, hes⟩ := exists_writesItems hblank fun w hw => exists_writes (hvs w hw)
    refine ⟨some (e, es), e.toExpr :: es.toExprs, ?_, rfl, fun caller here scope => ?_⟩
    · have hitems := hes.toSpells.append (Spells.nil.sym .parenR) hclose
      rw [terminals_callOf, argumentText, List.append_assoc]
      exact hcall (he.toSpells.append hitems ((noWordChar_moreItems [' '] vs).append hclose))
    · simp only [Expr.evalItems, he.value, hes.value, Value.ofItems]
      rfl

end Syntax

/-! ### The value of a call -/

theorem Address.move_append (a : Address) : Address.Move (· ++ a) :=
  ⟨List.append_left_injective a, fun _ _ => rfl⟩

namespace Expr

theorem map_toJson_eval_call {e : Expr} {es : List Expr} {params : List Json}
    (hes : ∀ caller here scope, evalItems caller here 2 scope es = .ok (Value.ofItems params)) :
    (eval [] (.call e es)).map Value.toJson = (do
      let f ← eval [] e
      (f.call maxCalls [1] (Value.ofItems params)).map Value.toJson) := by
  have hmove := Address.move_append [0]
  have hfunction := hmove.functionMap
  have hcallee : (eval [] e).map (Value.relocated (· ++ [0])) = e.evalIn maxCalls [0, 0] [] :=
    evalIn_relocated hmove maxCalls [0] [] e
  have heval : eval [] (.call e es) = (do
      let f ← e.evalIn maxCalls [0, 0] []
      f.call maxCalls [1, 0] (Value.ofItems params)) := by
    rw [eval, evalIn, evalWith]
    simp only [hes]
    rfl
  rw [heval, ← hcallee]
  cases eval [] e with
  | error err => rfl
  | ok f =>
    have hcall := Value.call_relocated hmove maxCalls [1] f (Value.ofItems params)
    rw [hfunction.ofItems] at hcall
    show (Value.call maxCalls ([1] ++ [0]) (f.relocated _) _).map Value.toJson =
      (Value.call maxCalls [1] f _).map Value.toJson
    rw [← hcall]
    cases Value.call maxCalls [1] f (Value.ofItems params) with
    | error err => rfl
    | ok v => exact congrArg Except.ok (hfunction.toJson v)

end Expr

theorem Expr.applyText_eq {t : String} {e : Expr} (ht : parse t = .ok e) (params : List Json) :
    applyText t params =
      (do
        let f ← eval [] e
        (f.call maxCalls [1] (Value.ofItems params)).map Value.toJson).mapError Error.eval := by
  have hevaluate : evaluate t [] = (eval [] e).mapError .eval := by simp only [evaluate, ht]
  unfold applyText
  rw [hevaluate]
  cases eval [] e with
  | error err => rfl
  | ok f =>
    show (if f.isCallable then _ else _) = Except.mapError Error.eval (Except.map Value.toJson _)
    cases hf : f.isCallable with
    | false => rw [if_neg (by simp), Value.call_of_not_callable hf]; rfl
    | true =>
      rw [if_pos rfl]
      cases Value.call maxCalls [1] f (Value.ofItems params) <;> rfl

/-- Evaluated, the logged form of an expression step gives what the step is answered: the same JSON
value, or a failure with the same message. -/
theorem described_step_is_executed {command : String} {e : Expr}
    (hparse : Expr.parse command = .ok e) (hkind : StepKind.ofCommand command = .expression)
    {params : List Json} (hparams : ∀ v ∈ params, v.Regular Number.ReadsBack) (w : Workshop)
    (files : Files) :
    w.dispatch files command params =
      { answer :=
          .ofExpr w.wording ((Expr.evaluate (Step.describe command params) []).map Value.toJson),
        files } := by
  obtain ⟨d, hd, rfl⟩ := Syntax.exists_spells hparse
  obtain ⟨arguments, es, hcall, hexpr, hes⟩ := Syntax.exists_callOf hkind hd hparams
  have hevaluate : (Expr.evaluate (Step.describe command params) []).map Value.toJson =
      Expr.applyText command params := by
    rw [Expr.applyText_eq hparse, ← Expr.map_toJson_eval_call hes]
    simp only [Expr.evaluate, hcall.parse, hexpr]
    cases Expr.eval [] (.call d.toExpr es) <;> rfl
  simp only [Workshop.dispatch, hkind, hevaluate]

/-- The step `(a, b) => [b, a]` with a number and a string. -/
theorem swapping_step_described :
    Expr.parse "(a, b) => [b, a]" =
        .ok (.lambda ["a", "b"] none (.list [.ident "b", .ident "a"])) ∧
      ({ discovery := { workingDirectory := "/" } } : Workshop).dispatch .base "(a, b) => [b, a]"
          [.num (.int 2), .str "x"] =
        { answer := .ofExpr {}
            ((Expr.evaluate "((a, b) => [b, a])(2, \"x\")" []).map Value.toJson),
          files := .base } ∧
      Expr.applyText "(a, b) => [b, a]" [.num (.int 2), .str "x"] =
        .ok (.arr [.str "x", .num (.int 2)]) := by
  have hparse : Expr.parse "(a, b) => [b, a]" =
      .ok (.lambda ["a", "b"] none (.list [.ident "b", .ident "a"])) :=
    Syntax.parse_of_lex (d := .lambda (.list (.plain "a") [.plain "b"]) (.expression (.ofPrimary
      (.array (.ofPrimary (.identifier "b")) (.cons (.ofPrimary (.identifier "a")) .nil) false))))
      rfl (by decide) rfl
  have htext : Step.describe "(a, b) => [b, a]" [.num (.int 2), .str "x"] =
      "((a, b) => [b, a])(2, \"x\")" := by decide +kernel
  have hparams : ∀ v ∈ [Json.num (.int 2), .str "x"], v.Regular Number.ReadsBack := by
    simp only [List.forall_mem_cons, List.not_mem_nil, false_implies, implies_true, and_true]
    exact ⟨.num (by decide +kernel), .str "x"⟩
  refine ⟨hparse, ?_, ?_⟩
  · rw [← htext]
    exact described_step_is_executed hparse (by decide) hparams _ _
  · have hnumber : Number.ofDouble? (Double.ofInt 2) = some (.int 2) := by decide +kernel
    rw [Expr.applyText_eq hparse]
    show Except.ok (Json.arr [.str "x", Json.ofDouble (Double.ofInt 2)]) = _
    rw [Json.ofDouble, hnumber]
    rfl

end CommandChain
