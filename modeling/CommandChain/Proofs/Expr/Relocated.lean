import CommandChain.Proofs.Expr.FunctionMap

/-!
# Evaluation at another address

An evaluation gives addresses to the functions that it makes. Moved to another address it makes the
same functions with other origins, and nothing else changes (`Expr.evalIn_relocated`): the origins
are only compared with each other, and the move keeps different ones apart. -/

namespace CommandChain

namespace Value

variable (g : Address → Address)

mutual

/-- The value with the origins of its functions changed, also of those that functions have
captured. -/
def relocated : Value → Value
  | .list items => .list (relocatedItems items)
  | .obj ms => .obj (relocatedMembers ms)
  | .closure origin params rest body captured =>
    .closure (g origin) params rest body (relocatedMembers captured)
  | .null => .null
  | .bool b => .bool b
  | .num x => .num x
  | .str s => .str s
  | .builtin f => .builtin f

/-- The items relocated. -/
def relocatedItems : List Value → List Value
  | [] => []
  | v :: vs => relocated v :: relocatedItems vs

/-- The members relocated. -/
def relocatedMembers : List (String × Value) → List (String × Value)
  | [] => []
  | (k, v) :: ms => (k, relocated v) :: relocatedMembers ms

end

theorem relocatedItems_eq (vs : List Value) : relocatedItems g vs = vs.map (relocated g) := by
  induction vs with
  | nil => rfl
  | cons v vs ih => rw [relocatedItems, ih, List.map_cons]

theorem relocatedMembers_eq (ms : List (String × Value)) :
    relocatedMembers g ms = Members.mapValues (relocated g) ms := by
  induction ms with
  | nil => rfl
  | cons m ms ih => rw [relocatedMembers, ih, Members.mapValues_cons]

theorem relocated_closure (origin : Address) (params : List String) (rest : Option String)
    (body : Expr) (captured : Scope) :
    relocated g (.closure origin params rest body captured) =
      .closure (g origin) params rest body (Members.mapValues (relocated g) captured) := by
  rw [relocated, relocatedMembers_eq]

variable {g}

theorem functionMap_relocated (hg : Function.Injective g) : FunctionMap g (relocated g) where
  injective := hg
  null := rfl
  bool _ := rfl
  num _ := rfl
  str _ := rfl
  list vs := by rw [relocated, relocatedItems_eq]
  obj ms := by rw [relocated, relocatedMembers_eq]
  closure _ _ _ _ _ := ⟨_, _, _, _, relocated_closure g _ _ _ _ _⟩
  builtin _ := rfl

end Value

/-! ### Evaluation -/

/-- Addresses move together with what is below them, and different ones stay different. -/
structure Address.Move (g : Address → Address) : Prop where
  injective : Function.Injective g
  cons (i : Nat) (a : Address) : g (i :: a) = i :: g a

theorem Address.Move.functionMap {g : Address → Address} (hg : Move g) :
    Value.FunctionMap g (Value.relocated g) :=
  Value.functionMap_relocated hg.injective

/-- A computation that has been changed by `f`, continued so that the change goes through. -/
theorem map_bind_eq {ε α β γ δ : Type} {f : α → β} {f' : γ → δ} {x : Except ε α} {y : Except ε β}
    {k : α → Except ε γ} {k' : β → Except ε δ} (h : x.map f = y)
    (hk : ∀ a, (k a).map f' = k' (f a)) : (x >>= k).map f' = (y >>= k') := by
  subst h
  cases x with
  | error e => rfl
  | ok a => exact hk a

namespace Expr

open Value

variable {g : Address → Address} {caller caller' : Caller}

/-- What the second caller makes of the relocated function and arguments is what the first one makes
of them, relocated. -/
def Relocates (g : Address → Address) (caller caller' : Caller) : Prop :=
  ∀ here f args, (caller here f args).map (relocated g) =
    caller' (g here) (relocated g f) (args.map (relocated g))

mutual

theorem evalWith_relocated (hg : Address.Move g) (hcaller : Relocates g caller caller') :
    (e : Expr) → ∀ (here : Address) (s : Scope),
      (evalWith caller here s e).map (relocated g) =
        evalWith caller' (g here) (Members.mapValues (relocated g) s) e
  | .null, here, s | .bool _, here, s | .num _, here, s | .str _, here, s => rfl
  | .list items, here, s => by
    simp only [evalWith]
    refine map_bind_eq (evalItems_relocated hg hcaller items here 0 s) fun vs => ?_
    exact congrArg Except.ok (hg.functionMap.list vs)
  | .obj fields, here, s => by
    simp only [evalWith]
    refine map_bind_eq (evalFields_relocated hg hcaller fields here 0 s []) fun ms => ?_
    exact congrArg Except.ok (hg.functionMap.obj ms)
  | .ident name, here, s => by
    simp only [evalWith]
    exact hg.functionMap.ofName s name
  | .member object name, here, s => by
    simp only [evalWith, ← hg.cons]
    refine map_bind_eq (evalWith_relocated hg hcaller object _ s) fun v => ?_
    exact hg.functionMap.property v name
  | .index object key, here, s => by
    simp only [evalWith, ← hg.cons]
    refine map_bind_eq (evalWith_relocated hg hcaller object _ s) fun v => ?_
    refine map_bind_eq (evalWith_relocated hg hcaller key _ s) fun k => ?_
    exact hg.functionMap.item v k
  | .call callee args, here, s => by
    simp only [evalWith, ← hg.cons]
    refine map_bind_eq (evalWith_relocated hg hcaller callee _ s) fun f => ?_
    refine map_bind_eq (evalItems_relocated hg hcaller args here 2 s) fun vs => ?_
    exact hcaller _ f vs
  | .unary op e, here, s => by
    simp only [evalWith, ← hg.cons]
    refine map_bind_eq (evalWith_relocated hg hcaller e _ s) fun v => ?_
    exact congrArg Except.ok (hg.functionMap.unary_apply op v)
  | .binary op l r, here, s => by
    simp only [evalWith, ← hg.cons]
    refine map_bind_eq (evalWith_relocated hg hcaller l _ s) fun a => ?_
    rw [hg.functionMap.binary_decided]
    split_ifs
    · rfl
    · refine map_bind_eq (evalWith_relocated hg hcaller r _ s) fun b => ?_
      exact congrArg Except.ok (hg.functionMap.binary_apply op a b)
  | .ternary c a b, here, s => by
    simp only [evalWith, ← hg.cons]
    refine map_bind_eq (evalWith_relocated hg hcaller c _ s) fun v => ?_
    rw [hg.functionMap.isTruthy]
    split_ifs
    · exact evalWith_relocated hg hcaller a _ s
    · exact evalWith_relocated hg hcaller b _ s
  | .lambda params rest body, here, s => by
    simp only [evalWith]
    exact congrArg Except.ok (relocated_closure g here params rest body s)

theorem evalItems_relocated (hg : Address.Move g) (hcaller : Relocates g caller caller') :
    (es : List Expr) → ∀ (here : Address) (i : Nat) (s : Scope),
    (evalItems caller here i s es).map (List.map (relocated g)) =
      evalItems caller' (g here) i (Members.mapValues (relocated g) s) es
  | [], here, i, s => rfl
  | e :: es, here, i, s => by
    simp only [evalItems, ← hg.cons]
    refine map_bind_eq (evalWith_relocated hg hcaller e _ s) fun v => ?_
    exact map_bind_eq (evalItems_relocated hg hcaller es here (i + 1) s) fun vs => rfl

theorem evalFields_relocated (hg : Address.Move g) (hcaller : Relocates g caller caller') :
    (fs : List (String × Expr)) →
    ∀ (here : Address) (i : Nat) (s : Scope) (ms : Members Value),
    (evalFields caller here i s ms fs).map (Members.mapValues (relocated g)) =
      evalFields caller' (g here) i (Members.mapValues (relocated g) s)
        (Members.mapValues (relocated g) ms) fs
  | [], here, i, s, ms => rfl
  | (k, e) :: fs, here, i, s, ms => by
    simp only [evalFields, ← hg.cons]
    refine map_bind_eq (evalWith_relocated hg hcaller e _ s) fun v => ?_
    rw [← Members.mapValues_insert]
    exact evalFields_relocated hg hcaller fs here (i + 1) s _

end

end Expr

/-- A call at another address gives the same result, relocated. -/
theorem Value.call_relocated {g : Address → Address} (hg : Address.Move g) (room : Nat) :
    Expr.Relocates g (Value.call room) (Value.call room) := by
  induction room with
  | zero =>
    intro here f args
    cases f with
    | builtin b => exact hg.functionMap.builtin_apply b args
    | _ => rfl
  | succ room ih =>
    intro here f args
    cases f with
    | closure origin params rest body captured =>
      rw [relocated_closure, Value.call, Value.call, ← hg.functionMap.bind]
      exact Expr.evalWith_relocated hg ih body here _
    | builtin b => exact hg.functionMap.builtin_apply b args
    | _ => rfl

/-- An evaluation at another address gives the same value, relocated. -/
theorem Expr.evalIn_relocated {g : Address → Address} (hg : Address.Move g) (room : Nat)
    (here : Address) (s : Scope) (e : Expr) :
    (e.evalIn room here s).map (Value.relocated g) =
      e.evalIn room (g here) (Members.mapValues (Value.relocated g) s) :=
  evalWith_relocated hg (Value.call_relocated hg room) e here s

end CommandChain
