import CommandChain.Expr.Eval
import CommandChain.Proofs.Members

/-!
# Maps that change functions only

A function is a closed thing to the operators, properties and builtin functions of the language:
they find out that it is a function and whether it is the same as another one, and nothing else. So
a map of values that changes no more than what functions are made of, and keeps functions apart that
were made apart (`FunctionMap`), commutes with everything that an expression does to values. -/

namespace CommandChain

namespace Value

/-- A map of values that leaves everything as it is but the functions of the language, of which the
origins go through `g`. -/
structure FunctionMap (g : Address → Address) (f : Value → Value) : Prop where
  injective : Function.Injective g
  null : f .null = .null
  bool (b : Bool) : f (.bool b) = .bool b
  num (x : Float) : f (.num x) = .num x
  str (s : String) : f (.str s) = .str s
  list (vs : List Value) : f (.list vs) = .list (vs.map f)
  obj (ms : Members Value) : f (.obj ms) = .obj (ms.mapValues f)
  closure (origin : Address) (params : List String) (rest : Option String) (body : Expr)
    (captured : Scope) : ∃ params' rest' body' captured',
      f (.closure origin params rest body captured) =
        .closure (g origin) params' rest' body' captured'
  builtin (b : Builtin) : f (.builtin b) = .builtin b

namespace FunctionMap

variable {g : Address → Address} {f : Value → Value}

/-! ### What a value is -/

theorem isTruthy (h : FunctionMap g f) (v : Value) : (f v).isTruthy = v.isTruthy := by
  cases v with
  | closure o ps r b c => obtain ⟨_, _, _, _, hc⟩ := h.closure o ps r b c; rw [hc]; rfl
  | _ => simp [h.null, h.bool, h.num, h.str, h.list, h.obj, h.builtin, Value.isTruthy]

theorem isCallable (h : FunctionMap g f) (v : Value) : (f v).isCallable = v.isCallable := by
  cases v with
  | closure o ps r b c => obtain ⟨_, _, _, _, hc⟩ := h.closure o ps r b c; rw [hc]; rfl
  | _ => simp [h.null, h.bool, h.num, h.str, h.list, h.obj, h.builtin, Value.isCallable]

theorem typeName (h : FunctionMap g f) (v : Value) : (f v).typeName = v.typeName := by
  cases v with
  | closure o ps r b c => obtain ⟨_, _, _, _, hc⟩ := h.closure o ps r b c; rw [hc]; rfl
  | _ => simp [h.null, h.bool, h.num, h.str, h.list, h.obj, h.builtin, Value.typeName]

theorem toNumber (h : FunctionMap g f) : (v : Value) → (f v).toNumber = v.toNumber
  | .list [] => by rw [h.list]; rfl
  | .list [v] => by
    simpa only [h.list, List.map_cons, List.map_nil, Value.toNumber] using toNumber h v
  | .list (_ :: _ :: _) => by rw [h.list]; rfl
  | .closure o ps r b c => by obtain ⟨_, _, _, _, hc⟩ := h.closure o ps r b c; rw [hc]; rfl
  | .null => by rw [h.null]
  | .bool b => by rw [h.bool]
  | .num x => by rw [h.num]
  | .str s => by rw [h.str]
  | .obj ms => by rw [h.obj]; rfl
  | .builtin b => by rw [h.builtin]

mutual

theorem toText (h : FunctionMap g f) : (v : Value) → (f v).toText = v.toText
  | .list vs => by rw [h.list, Value.toText, Value.toText, itemTexts h vs]
  | .closure o ps r b c => by obtain ⟨_, _, _, _, hc⟩ := h.closure o ps r b c; rw [hc]; rfl
  | .null => by rw [h.null]
  | .bool b => by rw [h.bool]
  | .num x => by rw [h.num]
  | .str s => by rw [h.str]
  | .obj ms => by rw [h.obj]; rfl
  | .builtin b => by rw [h.builtin]

theorem itemTexts (h : FunctionMap g f) :
    (vs : List Value) → Value.itemTexts (vs.map f) = Value.itemTexts vs
  | [] => rfl
  | v :: vs => by
    have hv := toText h v
    have hvs := itemTexts h vs
    cases v with
    | closure o ps r b c =>
      obtain ⟨_, _, _, _, hc⟩ := h.closure o ps r b c
      simp [hc, hvs, Value.itemTexts, Value.toText]
    | _ => simp_all [h.null, h.bool, h.num, h.str, h.list, h.obj, h.builtin, Value.itemTexts]

end

mutual

theorem toJson (h : FunctionMap g f) : (v : Value) → (f v).toJson = v.toJson
  | .list vs => by rw [h.list, Value.toJson, Value.toJson, toItems h vs]
  | .obj ms => by rw [h.obj, Value.toJson, Value.toJson, toMembers h ms]
  | .closure o ps r b c => by obtain ⟨_, _, _, _, hc⟩ := h.closure o ps r b c; rw [hc]; rfl
  | .null => by rw [h.null]
  | .bool b => by rw [h.bool]
  | .num x => by rw [h.num]
  | .str s => by rw [h.str]
  | .builtin b => by rw [h.builtin]

theorem toItems (h : FunctionMap g f) :
    (vs : List Value) → Value.toItems (vs.map f) = Value.toItems vs
  | [] => rfl
  | v :: vs => by rw [List.map_cons, Value.toItems, Value.toItems, toJson h v, toItems h vs]

theorem toMembers (h : FunctionMap g f) : (ms : List (String × Value)) →
    Value.toMembers (Members.mapValues f ms) = Value.toMembers ms
  | [] => rfl
  | (k, v) :: ms => by
    rw [Members.mapValues_cons, Value.toMembers, Value.toMembers, toJson h v, toMembers h ms]

end

mutual

theorem ofJson (h : FunctionMap g f) : (j : Json) → f (Value.ofJson j) = Value.ofJson j
  | .arr js => by rw [Value.ofJson, h.list, ofItems h js]
  | .obj ms => by rw [Value.ofJson, h.obj, ofMembers h ms]
  | .null => h.null
  | .bool b => h.bool b
  | .num n => h.num n.toDouble
  | .str s => h.str s

theorem ofItems (h : FunctionMap g f) :
    (js : List Json) → (Value.ofItems js).map f = Value.ofItems js
  | [] => rfl
  | j :: js => by rw [Value.ofItems, List.map_cons, ofJson h j, ofItems h js]

theorem ofMembers (h : FunctionMap g f) : (ms : List (String × Json)) →
    Members.mapValues f (Value.ofMembers ms) = Value.ofMembers ms
  | [] => rfl
  | (k, j) :: ms => by rw [Value.ofMembers, Members.mapValues_cons, ofJson h j, ofMembers h ms]

end

/-! ### Comparison -/

mutual

theorem strictEq (h : FunctionMap g f) : (a b : Value) → (f a).strictEq (f b) = a.strictEq b
  | .list as, b => by
    cases b with
    | list bs => rw [h.list, h.list]; exact strictEqItems h as bs
    | closure o ps r e c => obtain ⟨_, _, _, _, hc⟩ := h.closure o ps r e c; rw [h.list, hc]; rfl
    | _ => simp only [h.null, h.bool, h.num, h.str, h.list, h.obj, h.builtin, Value.strictEq]
  | .obj as, b => by
    cases b with
    | obj bs =>
      rw [h.obj, h.obj, Value.strictEq, Value.strictEq, strictEqMembers h as bs,
        Members.length_mapValues, Members.length_mapValues]
    | closure o ps r e c => obtain ⟨_, _, _, _, hc⟩ := h.closure o ps r e c; rw [h.obj, hc]; rfl
    | _ => simp only [h.null, h.bool, h.num, h.str, h.list, h.obj, h.builtin, Value.strictEq]
  | .closure o ps r e c, b => by
    obtain ⟨_, _, _, _, ha⟩ := h.closure o ps r e c
    cases b with
    | closure o' ps' r' e' c' =>
      obtain ⟨_, _, _, _, hb⟩ := h.closure o' ps' r' e' c'
      rw [ha, hb, Value.strictEq, Value.strictEq, Bool.beq_eq_decide_eq, Bool.beq_eq_decide_eq]
      exact decide_eq_decide.mpr h.injective.eq_iff
    | _ => simp only [ha, h.null, h.bool, h.num, h.str, h.list, h.obj, h.builtin, Value.strictEq]
  | .null, b | .bool _, b | .num _, b | .str _, b | .builtin _, b => by
    cases b with
    | closure o ps r e c =>
      obtain ⟨_, _, _, _, hc⟩ := h.closure o ps r e c
      simp only [hc, h.null, h.bool, h.num, h.str, h.builtin, Value.strictEq]
    | _ => simp only [h.null, h.bool, h.num, h.str, h.list, h.obj, h.builtin, Value.strictEq]

theorem strictEqItems (h : FunctionMap g f) :
    (as bs : List Value) → Value.strictEqItems (as.map f) (bs.map f) = Value.strictEqItems as bs
  | [], [] | [], _ :: _ | _ :: _, [] => rfl
  | a :: as, b :: bs => by
    simp only [List.map_cons, Value.strictEqItems, strictEq h a b, strictEqItems h as bs]

theorem strictEqMembers (h : FunctionMap g f) : (as bs : List (String × Value)) →
    Value.strictEqMembers (Members.mapValues f as) (Members.mapValues f bs) =
      Value.strictEqMembers as bs
  | [], bs => rfl
  | (k, a) :: as, bs => by
    simp only [Members.mapValues_cons, Value.strictEqMembers, Members.get?_mapValues,
      strictEqMembers h as bs]
    cases Members.get? k bs with
    | none => rfl
    | some b => simp only [Option.map_some, strictEq h a b]

end

theorem looseEq (h : FunctionMap g f) (a b : Value) : (f a).looseEq (f b) = a.looseEq b := by
  have hstrict := h.strictEq a b
  have htext (vs : List Value) : (Value.list (vs.map f)).toText = (Value.list vs).toText := by
    rw [← h.list, h.toText]
  have hnumber (vs : List Value) : (Value.list (vs.map f)).toNumber = (Value.list vs).toNumber := by
    rw [← h.list, h.toNumber]
  -- functions are equal to each other by origin and to nothing else, so they are taken by
  -- themselves
  cases a with
  | closure o ps r e c =>
    obtain ⟨_, _, _, _, ha⟩ := h.closure o ps r e c
    cases b with
    | closure o' ps' r' e' c' =>
      obtain ⟨_, _, _, _, hb⟩ := h.closure o' ps' r' e' c'
      rw [ha, hb] at hstrict ⊢
      exact hstrict
    | _ => simp only [ha, h.null, h.bool, h.num, h.str, h.list, h.obj, h.builtin]; rfl
  | _ =>
    cases b with
    | closure o ps r e c =>
      obtain ⟨_, _, _, _, hb⟩ := h.closure o ps r e c
      simp only [hb, h.null, h.bool, h.num, h.str, h.list, h.obj, h.builtin]; rfl
    | _ =>
      simp only [h.null, h.bool, h.num, h.str, h.list, h.obj, h.builtin, Value.looseEq, numberEq,
        htext, hnumber] at hstrict ⊢ <;>
      first | rfl | exact hstrict

theorem order (h : FunctionMap g f) (a b : Value) : (f a).order (f b) = a.order b := by
  have ha := h.toNumber a
  have hb := h.toNumber b
  cases a with
  | str s =>
    cases b with
    | str t => rw [h.str, h.str]
    | closure o ps r e c =>
      obtain ⟨_, _, _, _, hc⟩ := h.closure o ps r e c
      rw [hc, h.str]; rfl
    | _ =>
      simp only [h.null, h.bool, h.num, h.str, h.list, h.obj, h.builtin, Value.order] at hb ⊢ <;>
      rw [hb]
  | closure o ps r e c =>
    obtain ⟨_, _, _, _, hc⟩ := h.closure o ps r e c
    rw [hc] at ha ⊢
    simp only [Value.order, ha, hb]
  | _ =>
    simp only [h.null, h.bool, h.num, h.list, h.obj, h.builtin, Value.order] at ha ⊢
    simp only [ha, hb]

/-! ### Operators, properties and builtin functions -/

theorem sum (h : FunctionMap g f) (a b : Value) : f (a.sum b) = (f a).sum (f b) := by
  have hnumeric (v : Value) : sum.isNumeric (f v) = sum.isNumeric v := by
    cases v with
    | closure o ps r e c => obtain ⟨_, _, _, _, hc⟩ := h.closure o ps r e c; rw [hc]; rfl
    | _ => simp only [h.null, h.bool, h.num, h.str, h.list, h.obj, h.builtin, sum.isNumeric]
  simp only [Value.sum, hnumeric, h.toNumber, h.toText]
  split_ifs
  · exact h.num _
  · exact h.str _

theorem property (h : FunctionMap g f) (v : Value) (name : String) :
    (v.property name).map f = (f v).property name := by
  cases v with
  | list items =>
    simp only [Value.property, h.list, List.length_map]
    split_ifs
    · exact congrArg Except.ok (h.num _)
    · exact congrArg Except.ok h.null
  | str s =>
    simp only [Value.property, h.str]
    split_ifs
    · exact congrArg Except.ok (h.num _)
    · exact congrArg Except.ok h.null
  | obj ms =>
    simp only [Value.property, h.obj, Members.get?_mapValues]
    cases Members.get? name ms with
    | none => exact congrArg Except.ok h.null
    | some v => rfl
  | closure o ps r e c =>
    obtain ⟨_, _, _, _, hc⟩ := h.closure o ps r e c
    rw [hc]
    exact congrArg Except.ok h.null
  | null => rw [h.null]; rfl
  | bool b => rw [h.bool]; exact congrArg Except.ok h.null
  | num x => rw [h.num]; exact congrArg Except.ok h.null
  | builtin b => rw [h.builtin]; exact congrArg Except.ok h.null

theorem item (h : FunctionMap g f) (v key : Value) : (v.item key).map f = (f v).item (f key) := by
  have hposition : position? (f key) = position? key := by simp only [position?, h.toNumber]
  have hproperty := h.property v key.toText
  cases hp : position? key with
  | none =>
    have hitem (w k : Value) (hk : position? k = none) : w.item k = w.property k.toText := by
      cases w <;> simp only [Value.item, hk]
    rw [hitem v key hp, hitem (f v) (f key) (hposition.trans hp)]
    rw [h.toText, hproperty]
  | some i =>
    cases v with
    | list items =>
      simp only [Value.item, h.list, hposition, hp, List.getElem?_map]
      cases items[i]? with
      | none => exact congrArg Except.ok h.null
      | some v => rfl
    | str s =>
      simp only [Value.item, h.str, hposition, hp]
      cases s.toList[i]? with
      | none => exact congrArg Except.ok h.null
      | some c => exact congrArg Except.ok (h.str _)
    | closure o ps r e c =>
      obtain ⟨_, _, _, _, hc⟩ := h.closure o ps r e c
      rw [hc] at hproperty ⊢
      simpa only [Value.item, hposition, hp, h.toText] using hproperty
    | null | bool | num | obj | builtin =>
      simpa only [Value.item, h.null, h.bool, h.num, h.obj, h.builtin, hposition,
        hp, h.toText] using hproperty

theorem builtin_apply (h : FunctionMap g f) (b : Builtin) (args : List Value) :
    (b.apply args).map f = b.apply (args.map f) := by
  have htext : Value.toText ∘ f = Value.toText := funext h.toText
  cases b with
  | string =>
    simp only [Builtin.apply, List.head?_map, Option.map_map, htext]
    exact congrArg Except.ok (h.str _)
  | number =>
    have hnumber : Value.toNumber ∘ f = Value.toNumber := funext h.toNumber
    simp only [Builtin.apply, List.head?_map, Option.map_map, hnumber]
    exact congrArg Except.ok (h.num _)
  | boolean =>
    have htruthy : Value.isTruthy ∘ f = Value.isTruthy := funext h.isTruthy
    simp only [Builtin.apply, List.head?_map, Option.map_map, htruthy]
    exact congrArg Except.ok (h.bool _)
  | jsonStringify =>
    cases hv : args.head? with
    | none =>
      simp only [Builtin.apply, List.head?_map, hv, Option.map_none]
      exact congrArg Except.ok h.null
    | some v =>
      simp only [Builtin.apply, List.head?_map, hv, Option.map_some, h.isCallable, h.toJson]
      refine congrArg Except.ok ?_
      split_ifs
      · exact h.null
      · exact h.str _
  | jsonParse =>
    simp only [Builtin.apply, List.head?_map, Option.map_map, htext]
    cases Json.parse? ((args.head?.map Value.toText).getD "") with
    | none => rfl
    | some j => exact congrArg Except.ok (h.ofJson j)

theorem binary_apply (h : FunctionMap g f) (op : BinaryOp) (a b : Value) :
    f (op.apply a b) = op.apply (f a) (f b) := by
  cases op
  case and | or => simp only [BinaryOp.apply, h.isTruthy]; split_ifs <;> rfl
  case add => exact h.sum a b
  all_goals
    simp only [BinaryOp.apply, h.looseEq, h.strictEq, h.order, h.toNumber]
    first | exact h.bool _ | exact h.num _

theorem binary_decided (h : FunctionMap g f) (op : BinaryOp) (a : Value) :
    op.decided (f a) = op.decided a := by
  cases op <;> simp only [BinaryOp.decided, h.isTruthy]

theorem unary_apply (h : FunctionMap g f) (op : UnaryOp) (v : Value) :
    f (op.apply v) = op.apply (f v) := by
  cases op with
  | not => simp only [UnaryOp.apply, h.isTruthy, h.bool]
  | neg | plus => simp only [UnaryOp.apply, h.toNumber, h.num]

/-! ### Scopes -/

theorem global (h : FunctionMap g f) {name : String} {v : Value} (hv : ofGlobal? name = some v) :
    f v = v := by
  unfold ofGlobal? at hv
  split_ifs at hv <;> cases hv
  · exact h.builtin _
  · exact h.builtin _
  · exact h.builtin _
  · simp only [h.obj, Members.mapValues_cons, Members.mapValues_nil, h.builtin]
  · exact h.num _
  · exact h.num _

theorem ofName (h : FunctionMap g f) (s : Scope) (name : String) :
    (Value.ofName s name).map f = Value.ofName (Members.mapValues f s) name := by
  simp only [Value.ofName, Members.get?_mapValues]
  cases Members.get? name s with
  | some v => rfl
  | none =>
    cases hv : ofGlobal? name with
    | none => rfl
    | some v => exact congrArg Except.ok (h.global hv)

theorem bindPlain (h : FunctionMap g f) (ps : List String) (args : List Value) (s : Scope) :
    Members.mapValues f (Scope.bindPlain ps args s) =
      Scope.bindPlain ps (args.map f) (Members.mapValues f s) := by
  induction ps generalizing args s with
  | nil => rfl
  | cons p ps ih =>
    cases args with
    | nil => rw [Scope.bindPlain, ih, Members.mapValues_cons, h.null]; rfl
    | cons a as => exact ih as ((p, a) :: s)

theorem bind (h : FunctionMap g f) (ps : List String) (rest : Option String) (args : List Value)
    (s : Scope) : Members.mapValues f (Scope.bind ps rest args s) =
      Scope.bind ps rest (args.map f) (Members.mapValues f s) := by
  cases rest with
  | none => exact h.bindPlain ps args s
  | some r =>
    simp only [Scope.bind, Members.mapValues_cons, h.list, h.bindPlain, List.map_drop]

end FunctionMap

end Value

end CommandChain
