import CommandChain.Proofs.Expr.Relocated

/-!
# More room for calls

The bound on nested calls stops an evaluation or leaves it alone. `Persists x y` says that `y` has
the result of `x` unless the bound has stopped `x`. A caller with more room persists in what one
with less room does (`Value.call_persists`), and so does every evaluation with it, part by part
(`Expr.evalWith_persists`): operands that come after a stopped one are not evaluated, and all others
have the same value. -/

namespace CommandChain

/-- The second computation has the same result as the first one, unless that is stopped by the bound
on nested calls. -/
def Persists {α : Type} (x y : Except EvalError α) : Prop := x ≠ .error .callDepth → y = x

namespace Persists

variable {α β : Type} {x y : Except EvalError α} {k k' : α → Except EvalError β}

theorem refl (x : Except EvalError α) : Persists x x := fun _ => rfl

theorem bind (h : Persists x y) (hk : ∀ a, Persists (k a) (k' a)) :
    Persists (x >>= k) (y >>= k') := by
  cases x with
  | ok a =>
    obtain rfl : y = .ok a := h (by simp)
    exact hk a
  | error e =>
    intro hne
    have he : (Except.error e : Except EvalError α) ≠ .error .callDepth := by
      rintro ⟨rfl⟩
      exact hne rfl
    obtain rfl : y = .error e := h he
    rfl

end Persists

/-- Whatever is called, the second caller persists in the result of the first one. -/
def Caller.Extends (caller' caller : Caller) : Prop :=
  ∀ here f args, Persists (caller here f args) (caller' here f args)

/-! ### Evaluation -/

namespace Expr

variable {caller caller' : Caller}

mutual

theorem evalWith_persists (h : caller'.Extends caller) :
    (e : Expr) → ∀ (here : Address) (s : Scope),
      Persists (evalWith caller here s e) (evalWith caller' here s e)
  | .null, _, _ | .bool _, _, _ | .num _, _, _ | .str _, _, _ | .ident _, _, _
  | .lambda .., _, _ => .refl _
  | .list items, here, s => by
    simp only [evalWith]
    exact (evalItems_persists h items here 0 s).bind fun vs => .refl _
  | .obj fields, here, s => by
    simp only [evalWith]
    exact (evalFields_persists h fields here 0 s []).bind fun ms => .refl _
  | .member object name, here, s => by
    simp only [evalWith]
    exact (evalWith_persists h object _ s).bind fun v => .refl _
  | .index object key, here, s => by
    simp only [evalWith]
    refine (evalWith_persists h object _ s).bind fun v => ?_
    exact (evalWith_persists h key _ s).bind fun k => .refl _
  | .call callee args, here, s => by
    simp only [evalWith]
    refine (evalWith_persists h callee _ s).bind fun f => ?_
    exact (evalItems_persists h args here 2 s).bind fun vs => h _ f vs
  | .unary op e, here, s => by
    simp only [evalWith]
    exact (evalWith_persists h e _ s).bind fun v => .refl _
  | .binary op l r, here, s => by
    simp only [evalWith]
    refine (evalWith_persists h l _ s).bind fun a => ?_
    -- an operand that is left out cannot be stopped
    split_ifs
    · exact .refl _
    · exact (evalWith_persists h r _ s).bind fun b => .refl _
  | .ternary c a b, here, s => by
    simp only [evalWith]
    refine (evalWith_persists h c _ s).bind fun v => ?_
    split_ifs
    · exact evalWith_persists h a _ s
    · exact evalWith_persists h b _ s

theorem evalItems_persists (h : caller'.Extends caller) :
    (es : List Expr) → ∀ (here : Address) (i : Nat) (s : Scope),
    Persists (evalItems caller here i s es) (evalItems caller' here i s es)
  | [], _, _, _ => .refl _
  | e :: es, here, i, s => by
    simp only [evalItems]
    refine (evalWith_persists h e _ s).bind fun v => ?_
    exact (evalItems_persists h es here (i + 1) s).bind fun vs => .refl _

theorem evalFields_persists (h : caller'.Extends caller) :
    (fs : List (String × Expr)) → ∀ (here : Address) (i : Nat) (s : Scope) (ms : Members Value),
    Persists (evalFields caller here i s ms fs) (evalFields caller' here i s ms fs)
  | [], _, _, _, _ => .refl _
  | (k, e) :: fs, here, i, s, ms => by
    simp only [evalFields]
    refine (evalWith_persists h e _ s).bind fun v => ?_
    exact evalFields_persists h fs here (i + 1) s _

end

end Expr

/-! ### Calls -/

/-- More room changes the result of a call only if the call was stopped: by induction on the room,
as the body is evaluated with one call less. -/
theorem Value.call_persists {room room' : Nat} (h : room ≤ room') :
    Caller.Extends (Value.call room') (Value.call room) := by
  induction room generalizing room' with
  | zero =>
    intro here f args
    cases f with
    | closure origin params rest body captured => exact fun hne => absurd rfl hne
    | null | bool | num | str | list | obj | builtin => cases room' <;> exact .refl _
  | succ room ih =>
    intro here f args
    obtain ⟨room', rfl⟩ : ∃ n, room' = n + 1 := ⟨room' - 1, by omega⟩
    cases f with
    | closure origin params rest body captured =>
      exact Expr.evalWith_persists (ih (by omega)) body here _
    | null | bool | num | str | list | obj | builtin => exact .refl _

namespace Expr

/-- The bound on nested calls cuts an evaluation off and never changes it. What an expression gives
when so many calls are open already, a value or an error other than that of the bound, it gives as
well with fewer calls open. At another address, among the same variables moved there, it makes the
same of them, with functions of their own. -/
theorem evalIn_of_depth_le {e : Expr} {here : Address} {s : Scope} {d d' : Nat} (hd : d' ≤ d)
    {r : Except EvalError Value} (hr : e.evalIn (maxCalls - d) here s = r)
    (hcut : r ≠ .error .callDepth) :
    e.evalIn (maxCalls - d') here s = r ∧
      ∀ g : Address → Address, Address.Move g →
        e.evalIn (maxCalls - d') (g here) (Members.mapValues (Value.relocated g) s) =
          r.map (Value.relocated g) := by
  have hroom : maxCalls - d ≤ maxCalls - d' := by omega
  have hsame : e.evalIn (maxCalls - d') here s = r := by
    subst hr
    exact evalWith_persists (Value.call_persists hroom) e here s hcut
  refine ⟨hsame, fun g hg => ?_⟩
  rw [← evalIn_relocated hg, hsame]

/-- `(f => f(f))(x => x)`, in which a call is made inside a call. -/
def nestedCall : Expr :=
  .call (.lambda ["f"] none (.call (.ident "f") [.ident "f"])) [.lambda ["x"] none (.ident "x")]

/-- With 62 calls open there is just room for it, and with one more it is cut off. -/
theorem nestedCall_below_bound :
    nestedCall.evalIn (maxCalls - 63) [0] [] = .error .callDepth ∧
      nestedCall.evalIn (maxCalls - 62) [0] [] = .ok (.closure [2, 0] ["x"] none (.ident "x") []) ∧
      nestedCall.evalIn (maxCalls - 0) [0] [] =
        .ok (.closure [2, 0] ["x"] none (.ident "x") []) := by
  have h : nestedCall.evalIn (maxCalls - 62) [0] [] =
      .ok (.closure [2, 0] ["x"] none (.ident "x") []) := rfl
  exact ⟨rfl, h, (evalIn_of_depth_le (Nat.zero_le 62) h (by simp)).1⟩

end Expr

end CommandChain
