import CommandChain.Proofs.Expr.JsonText

/-!
# Regular values

In a regular value the members of every object stand in the order of their names. Reading JSON text
makes no others (`Json.ordered_of_parse?`), and among regular variables neither does an expression
(`Expr.evalIn_regular`): objects come from literals and from JSON text only, by insertions, and all
else that an expression can do with a value is to take parts of it or to keep it in a function. -/

namespace CommandChain

/-! ### Reading JSON text -/

namespace Json

/-- The members of every object in the value stand in the order of their names. -/
abbrev Ordered (v : Json) : Prop := v.Regular fun _ => True

/-- JSON text is read into ordered values. -/
theorem ordered_of_parse? {t : String} {v : Json} (h : parse? t = some v) : v.Ordered :=
  (readable_of_parseChars? h).regular.mono fun _ _ => trivial

end Json

/-! ### Values -/

/-- The members of every object in the value, and in the values that its functions keep, stand in
the order of their names. -/
inductive Value.Regular : Value → Prop
  | null : Regular .null
  | bool (b : Bool) : Regular (.bool b)
  | num (x : Float) : Regular (.num x)
  | str (s : String) : Regular (.str s)
  | list {vs : List Value} (hvs : ∀ v ∈ vs, Regular v) : Regular (.list vs)
  | obj {ms : Members Value} (hsorted : ms.Sorted) (hms : ∀ m ∈ ms, Regular m.2) : Regular (.obj ms)
  | closure {captured : Scope} (hcaptured : ∀ m ∈ captured, Regular m.2) (origin : Address)
      (params : List String) (rest : Option String) (body : Expr) :
      Regular (.closure origin params rest body captured)
  | builtin (f : Builtin) : Regular (.builtin f)

/-- Every variable has a regular value. -/
def Scope.Regular (s : Scope) : Prop := ∀ m ∈ s, m.2.Regular

/-- What the computation gives, if anything, has the property. -/
def Gives {α : Type} (p : α → Prop) (x : Except EvalError α) : Prop := ∀ a, x = .ok a → p a

namespace Gives

variable {α β : Type} {p : α → Prop} {q : β → Prop}

theorem ok {a : α} (h : p a) : Gives p (.ok a) := by
  rintro _ ⟨⟩
  exact h

theorem error (e : EvalError) : Gives p (.error e) := nofun

theorem bind {x : Except EvalError α} {k : α → Except EvalError β} (h : Gives p x)
    (hk : ∀ a, p a → Gives q (k a)) : Gives q (x >>= k) := by
  cases x with
  | ok a => exact hk a (h a rfl)
  | error e => exact .error e

end Gives

namespace Value

theorem ofItems_eq (js : List Json) : ofItems js = js.map ofJson := by
  induction js with
  | nil => rfl
  | cons j js ih => rw [ofItems, ih, List.map_cons]

theorem ofMembers_eq (ms : List (String × Json)) : ofMembers ms = Members.mapValues ofJson ms := by
  induction ms with
  | nil => rfl
  | cons m ms ih => rw [ofMembers, ih, Members.mapValues_cons]

/-- Ordered JSON values become regular values. -/
theorem regular_ofJson {p : Number → Prop} {v : Json} (h : v.Regular p) : (ofJson v).Regular := by
  induction h with
  | null => exact .null
  | bool b => exact .bool b
  | num => exact .num _
  | str s => exact .str s
  | arr _ ih =>
    rw [ofJson, ofItems_eq]
    exact .list (List.forall_mem_map.mpr ih)
  | obj hsorted _ ih =>
    rw [ofJson, ofMembers_eq]
    exact .obj (hsorted.mapValues ofJson) (List.forall_mem_map.mpr ih)

namespace Regular

variable {a b v : Value}

theorem get? {ms : Members Value} {k : String} (hms : ∀ m ∈ ms, m.2.Regular)
    (h : Members.get? k ms = some v) : v.Regular :=
  hms _ (Members.mem_of_get? h)

theorem getD {o : Option Value} (h : ∀ v ∈ o, v.Regular) : (o.getD .null).Regular := by
  cases o with
  | none => exact .null
  | some v => exact h v rfl

theorem property (h : v.Regular) (name : String) : Gives Regular (v.property name) := by
  cases h with
  | null => exact .error _
  | list => exact .ok (by split_ifs <;> constructor)
  | str => exact .ok (by split_ifs <;> constructor)
  | obj _ hms => exact .ok (getD fun v hv => get? hms hv)
  | bool | num | closure | builtin => exact .ok .null

theorem item (h : v.Regular) (key : Value) : Gives Regular (v.item key) := by
  unfold Value.item
  split
  · cases h with
    | list hvs => exact .ok (getD fun v hv => hvs v (List.mem_of_getElem? hv))
  · refine .ok (getD fun v hv => ?_)
    obtain ⟨c, -, rfl⟩ := Option.map_eq_some_iff.mp hv
    exact .str _
  · exact h.property _

theorem binary (op : BinaryOp) (ha : a.Regular) (hb : b.Regular) : (op.apply a b).Regular := by
  cases op with
  | and | or =>
    unfold BinaryOp.apply
    split_ifs
    all_goals assumption
  | add =>
    unfold BinaryOp.apply sum
    split_ifs <;> constructor
  | eq | ne | strictEq | strictNe | lt | le | gt | ge => exact .bool _
  | sub | mul | div | mod => exact .num _

theorem unary (op : UnaryOp) (v : Value) : (op.apply v).Regular := by
  cases op with
  | not => exact .bool _
  | neg | plus => exact .num _

end Regular

theorem regular_ofGlobal? {name : String} (h : ofGlobal? name = some v) : v.Regular := by
  unfold ofGlobal? at h
  split_ifs at h <;> cases h
  · exact .builtin _
  · exact .builtin _
  · exact .builtin _
  · have hsorted : "parse" < "stringify" := by decide
    exact .obj (List.pairwise_pair.mpr hsorted) (by simp [Regular.builtin])
  · exact .num _
  · exact .num _

theorem regular_ofName {s : Scope} (hs : s.Regular) (name : String) :
    Gives Regular (ofName s name) := by
  unfold ofName
  split
  · next v hv => exact .ok (.get? hs hv)
  · split
    · next v hv => exact .ok (regular_ofGlobal? hv)
    · exact .error _

end Value

/-- Builtin functions make regular values of whatever they are given. -/
theorem Builtin.regular_apply (f : Builtin) (args : List Value) :
    Gives Value.Regular (f.apply args) := by
  unfold Builtin.apply
  split
  · exact .ok (.str _)
  · exact .ok (.num _)
  · exact .ok (.bool _)
  · exact .ok .null
  · exact .ok (by split_ifs <;> constructor)
  · dsimp only
    split
    · next j hj => exact .ok (Value.regular_ofJson (Json.ordered_of_parse? hj))
    · exact .error _

/-! ### Evaluation -/

/-- The caller makes regular values of regular ones. -/
def Caller.KeepsRegular (caller : Caller) : Prop :=
  ∀ here f args, f.Regular → (∀ v ∈ args, Value.Regular v) →
    Gives Value.Regular (caller here f args)

namespace Expr

variable {caller : Caller}

mutual

theorem evalWith_regular (hcaller : caller.KeepsRegular) :
    (e : Expr) → ∀ (here : Address) {s : Scope},
      s.Regular → Gives Value.Regular (evalWith caller here s e)
  | .null, _, _, _ => .ok .null
  | .bool b, _, _, _ => .ok (.bool b)
  | .num x, _, _, _ => .ok (.num x)
  | .str s, _, _, _ => .ok (.str s)
  | .ident name, _, _, hs => Value.regular_ofName hs name
  | .lambda params rest body, here, _, hs => .ok (.closure hs here params rest body)
  | .list items, here, s, hs => by
    simp only [evalWith]
    exact (evalItems_regular hcaller items here 0 hs).bind fun vs hvs => .ok (.list hvs)
  | .obj fields, here, s, hs => by
    simp only [evalWith]
    refine (evalFields_regular hcaller fields here 0 hs List.Pairwise.nil
      (List.forall_mem_nil _)).bind
      fun ms hms => ?_
    exact .ok (.obj hms.1 hms.2)
  | .member object name, here, s, hs => by
    simp only [evalWith]
    exact (evalWith_regular hcaller object _ hs).bind fun v hv => hv.property name
  | .index object key, here, s, hs => by
    simp only [evalWith]
    refine (evalWith_regular hcaller object _ hs).bind fun v hv => ?_
    exact (evalWith_regular hcaller key _ hs).bind fun k _ => hv.item k
  | .call callee args, here, s, hs => by
    simp only [evalWith]
    refine (evalWith_regular hcaller callee _ hs).bind fun f hf => ?_
    exact (evalItems_regular hcaller args here 2 hs).bind fun vs hvs => hcaller _ f vs hf hvs
  | .unary op e, here, s, hs => by
    simp only [evalWith]
    exact (evalWith_regular hcaller e _ hs).bind fun v _ => .ok (.unary op v)
  | .binary op l r, here, s, hs => by
    simp only [evalWith]
    refine (evalWith_regular hcaller l _ hs).bind fun a ha => ?_
    split_ifs
    · exact .ok ha
    · exact (evalWith_regular hcaller r _ hs).bind fun b hb => .ok (.binary op ha hb)
  | .ternary c a b, here, s, hs => by
    simp only [evalWith]
    refine (evalWith_regular hcaller c _ hs).bind fun v _ => ?_
    split_ifs
    · exact evalWith_regular hcaller a _ hs
    · exact evalWith_regular hcaller b _ hs

theorem evalItems_regular (hcaller : caller.KeepsRegular) :
    (es : List Expr) → ∀ (here : Address) (i : Nat) {s : Scope}, s.Regular →
    Gives (fun vs => ∀ v ∈ vs, Value.Regular v) (evalItems caller here i s es)
  | [], _, _, _, _ => .ok (List.forall_mem_nil _)
  | e :: es, here, i, s, hs => by
    simp only [evalItems]
    refine (evalWith_regular hcaller e _ hs).bind fun v hv => ?_
    refine (evalItems_regular hcaller es here (i + 1) hs).bind fun vs hvs => ?_
    exact .ok (List.forall_mem_cons.mpr ⟨hv, hvs⟩)

theorem evalFields_regular (hcaller : caller.KeepsRegular) :
    (fs : List (String × Expr)) → ∀ (here : Address) (i : Nat) {s : Scope} {ms : Members Value},
    s.Regular → ms.Sorted → (∀ m ∈ ms, m.2.Regular) →
    Gives (fun ms : Members Value => ms.Sorted ∧ ∀ m ∈ ms, m.2.Regular)
      (evalFields caller here i s ms fs)
  | [], _, _, _, _, _, hsorted, hms => .ok ⟨hsorted, hms⟩
  | (k, e) :: fs, here, i, s, ms, hs, hsorted, hms => by
    simp only [evalFields]
    refine (evalWith_regular hcaller e _ hs).bind fun v hv => ?_
    refine evalFields_regular hcaller fs here (i + 1) hs (hsorted.insert k v) fun m hm => ?_
    rcases Members.mem_insert hm with rfl | hm
    · exact hv
    · exact hms m hm

end

end Expr

namespace Scope

variable {s : Scope}

theorem Regular.cons (hs : s.Regular) {v : Value} (hv : v.Regular) (p : String) :
    Scope.Regular ((p, v) :: s) :=
  List.forall_mem_cons.mpr ⟨hv, hs⟩

theorem Regular.bindPlain (hs : s.Regular) {params : List String} {args : List Value}
    (hargs : ∀ v ∈ args, v.Regular) : (bindPlain params args s).Regular := by
  induction params generalizing args s with
  | nil => exact hs
  | cons p ps ih =>
    cases args with
    | nil => exact ih (hs.cons .null p) hargs
    | cons a as =>
      obtain ⟨ha, has⟩ := List.forall_mem_cons.mp hargs
      exact ih (hs.cons ha p) has

theorem Regular.bind (hs : s.Regular) (params : List String) (rest : Option String)
    {args : List Value} (hargs : ∀ v ∈ args, v.Regular) : (bind params rest args s).Regular := by
  cases rest with
  | none => exact hs.bindPlain hargs
  | some r =>
    exact (hs.bindPlain hargs).cons (.list fun v hv => hargs v (List.mem_of_mem_drop hv)) r

end Scope

/-- Calls keep values regular, by induction on the room for calls inside each other. -/
theorem Value.call_keepsRegular (room : Nat) : Caller.KeepsRegular (Value.call room) := by
  induction room with
  | zero =>
    intro here f args hf hargs
    cases hf with
    | closure => exact .error _
    | builtin f => exact f.regular_apply args
    | null | bool | num | str | list | obj => exact .error _
  | succ room ih =>
    intro here f args hf hargs
    cases hf with
    | closure hcaptured origin params rest body =>
      exact Expr.evalWith_regular ih body here (Scope.Regular.bind hcaptured params rest hargs)
    | builtin f => exact f.regular_apply args
    | null | bool | num | str | list | obj => exact .error _

/-- Among regular variables every expression has a regular value, if any. -/
theorem Expr.evalIn_regular {s : Scope} (hs : s.Regular) (room : Nat) (here : Address) (e : Expr) :
    Gives Value.Regular (e.evalIn room here s) :=
  evalWith_regular (Value.call_keepsRegular room) e here hs

end CommandChain
