import CommandChain.Chain.Arrow
import CommandChain.Proofs.Expr.Converted
import CommandChain.Proofs.Step.Described

/-!
# The step that collects

The command that collects looks at the number of its inputs, which is a double, and takes the first
of them or all of them (`applyText_collectCommand`). It does nothing else with them: what comes out
are the inputs as they come back from the values of expressions (`inputs_collected`). -/

namespace CommandChain

/-- The only value of a list, or the list. -/
def Json.collected : List Json → Json
  | [v] => v
  | vs => .arr vs

/-- The only value of a list, or the list. -/
def Value.collected : List Value → Value
  | [v] => v
  | vs => .list vs

theorem Value.collected_eq (vs : List Value) :
    collected vs = if vs.length = 1 then vs[0]?.getD .null else .list vs := by
  match vs with
  | [] => rfl
  | [v] => rfl
  | v :: w :: vs => simp [collected]

theorem Value.toJson_collected (vs : List Value) :
    (collected vs).toJson = .collected (vs.map toJson) := by
  match vs with
  | [] => rfl
  | [v] => rfl
  | v :: w :: vs => exact congrArg Json.arr (toItems_eq_map _)

theorem Json.collected_inj {vs ws : List Json} (h : vs.length = ws.length) :
    collected vs = collected ws ↔ vs = ws := by
  match vs, ws with
  | [], [] => simp
  | [v], [w] => simp [collected]
  | v :: v' :: vs, w :: w' :: ws => simp [collected]

namespace Syntax

open Expression (ofUnary)

/-- The derivation of the command that collects. -/
def collect : Expression :=
  let args (more : Suffixes) : Unary := .base (.mk (.identifier "args") more)
  let digit (c : Char) : Unary := .base (.mk (.number ⟨[c], [], none⟩) .nil)
  let one : Operands 3 := .cons .eq rfl (.ofUnary (digit '1') 3) .nil
  let length : Chain 4 := .level (.ofUnary (args (.member "length" .nil)) 3) one
  .lambda (.list (.rest "args") [])
    (.expression (.ternary (.level (.level length .nil) .nil)
      (ofUnary (args (.index (ofUnary (digit '0')) .nil))) (ofUnary (args .nil))))

theorem parse_collectCommand : Expr.parse collectCommand = .ok collect.toExpr :=
  parse_of_lex rfl (by decide) rfl

end Syntax

/-- The body of the command that collects. -/
def collectBody : Expr :=
  .ternary (.binary .eq (.member (.ident "args") "length") (.num (Numeral.value ⟨['1'], [], none⟩)))
    (.index (.ident "args") (.num (Numeral.value ⟨['0'], [], none⟩))) (.ident "args")

theorem evalWith_collectBody (caller : Caller) (here : Address) (vs : List Value) :
    collectBody.evalWith caller here [("args", .list vs)] = .ok (.collected vs) := by
  have hone : Numeral.value ⟨['1'], [], none⟩ = Double.ofInt 1 := by decide +kernel
  have hindex : Value.position? (.num (Numeral.value ⟨['0'], [], none⟩)) = some 0 := by
    decide +kernel
  have hargs : Value.ofName [("args", .list vs)] "args" = .ok (.list vs) := rfl
  have hcount : Value.property (.list vs) "length" = .ok (.num (Double.ofInt vs.length)) := rfl
  have hcompare : (Value.num (Double.ofInt vs.length)).looseEq (.num (Double.ofInt 1)) =
      decide (vs.length = 1) := Double.ofInt_beq_one vs.length
  have hfirst : Value.item (.list vs) (.num (Numeral.value ⟨['0'], [], none⟩)) =
      .ok (vs[0]?.getD .null) := by
    unfold Value.item
    rw [hindex]
  simp only [collectBody, Expr.evalWith, hargs, hcount, hone, BinaryOp.decided,
    BinaryOp.apply, hcompare, hfirst, bind, pure, Except.bind, Except.pure, Value.isTruthy,
    Bool.false_eq_true, if_false, decide_eq_true_eq]
  rw [Value.collected_eq]
  split_ifs <;> rfl

/-- **The command that collects** hands on its only input, or all its inputs. -/
theorem applyText_collectCommand (vs : List Json) :
    Expr.applyText collectCommand vs =
      .ok (.collected (vs.map fun v => (Value.ofJson v).toJson)) := by
  have hcall : Value.call maxCalls [1] (.closure [0] [] (some "args") collectBody [])
      (Value.ofItems vs) = .ok (.collected (Value.ofItems vs)) := evalWith_collectBody _ _ _
  rw [Expr.applyText_eq Syntax.parse_collectCommand]
  show Except.mapError Expr.Error.eval (Except.map Value.toJson
    (Value.call maxCalls [1] (.closure [0] [] (some "args") collectBody []) (Value.ofItems vs))) = _
  rw [hcall, Value.ofItems_eq]
  show Except.ok (Value.collected (vs.map Value.ofJson)).toJson = _
  rw [Value.toJson_collected, List.map_map]
  rfl

theorem dispatch_collectCommand (w : Workshop) (files : Files) (vs : List Json) :
    w.dispatch files collectCommand vs =
      { answer := ⟨.ok (.collected (vs.map fun v => (Value.ofJson v).toJson)), none⟩, files } := by
  have hkind : StepKind.ofCommand collectCommand = .expression := by decide
  simp only [Workshop.dispatch, hkind, applyText_collectCommand, Answer.ofExpr]

/-- **What is collected are the inputs themselves**, but for whole numbers greater than `maxSafe`,
which become the nearest doubles. The numbers in the inputs, however deep, are whole numbers of 64
bits or doubles with a fraction. -/
theorem inputs_collected {vs : List Json} (hvs : ∀ v ∈ vs, ∀ n ∈ v.numbers, n.IsWordOrFraction) :
    Expr.applyText collectCommand vs = .ok (.collected (vs.map Json.rounded)) ∧
      (Json.collected (vs.map Json.rounded) = .collected vs ↔
        ∀ v ∈ vs, ∀ i, .int i ∈ v.numbers → i.natAbs ≤ Number.maxSafe) ∧
      ∀ v ∈ vs, ∀ i, .int i ∈ v.numbers → Double.IsNearest (Double.ofInt i) i := by
  have hrounded : (vs.map fun v => (Value.ofJson v).toJson) = vs.map Json.rounded :=
    List.map_congr_left fun v hv => Value.toJson_ofJson (hvs v hv)
  refine ⟨?_, ?_, ?_⟩
  · rw [applyText_collectCommand, hrounded]
  · rw [Json.collected_inj (List.length_map _), ← Json.roundedItems_eq_map,
      Json.roundedItems_eq_self_iff]
    exact forall₂_congr fun v _ => Json.rounded_eq_self_iff
  · intro v hv i hi
    exact Double.isNearest_ofInt (Number.Fits.natAbs_lt (hvs v hv _ hi))

/-- An object with a number and 1.5, and a list with a great number below zero. -/
def twoInputs (n : Number) : List Json :=
  [.obj [("a", .num n), ("b", .num (.float (Double.ofDecimal 15 (-1))))],
    .arr [.num (.int (-9007199254740991)), .str "x", .null]]

/-- Of these inputs only the odd number above `2 ^ 53` is changed. -/
theorem twoInputs_collected :
    (∀ v ∈ twoInputs (.int 9007199254740993), ∀ n ∈ v.numbers, n.IsWordOrFraction) ∧
      Expr.applyText collectCommand (twoInputs (.int 9007199254740993)) =
        .ok (.arr (twoInputs (.float (Double.ofInt 9007199254740992)))) := by
  have hvs : ∀ v ∈ twoInputs (.int 9007199254740993), ∀ n ∈ v.numbers, n.IsWordOrFraction := by
    decide +kernel
  have hnumber : (Number.int 9007199254740993).rounded =
      .float (Double.ofInt 9007199254740992) := by
    decide +kernel
  have hsafe : (Number.int (-9007199254740991)).rounded = .int (-9007199254740991) :=
    Number.rounded_int_of_le (by decide)
  have hhalf : (Number.float (Double.ofDecimal 15 (-1))).rounded =
      .float (Double.ofDecimal 15 (-1)) := rfl
  refine ⟨hvs, (inputs_collected hvs).1.trans ?_⟩
  simp [twoInputs, Json.collected, Json.rounded, Json.roundedItems,
    Json.roundedMembers, hnumber, hsafe, hhalf]

/-- The least number that is no double does not come out as it went in. -/
theorem oddNumber_not_collected :
    (Number.int 9007199254740993).IsWordOrFraction ∧
      Expr.applyText collectCommand [.num (.int 9007199254740993)] ≠
        .ok (.num (.int 9007199254740993)) ∧
      Expr.applyText collectCommand [.num (.int 9007199254740993)] =
        .ok (.num (.float (Double.ofInt 9007199254740992))) := by
  have hdouble : Number.ofDouble? (Double.ofInt 9007199254740993) =
      some (.float (Double.ofInt 9007199254740992)) := by decide +kernel
  have hresult : Expr.applyText collectCommand [.num (.int 9007199254740993)] =
      .ok (.num (.float (Double.ofInt 9007199254740992))) := by
    rw [applyText_collectCommand]
    show Except.ok (Json.ofDouble (Double.ofInt 9007199254740993)) = _
    rw [Json.ofDouble, hdouble]
    rfl
  refine ⟨by decide, ?_, hresult⟩
  rw [hresult]
  simp

end CommandChain
