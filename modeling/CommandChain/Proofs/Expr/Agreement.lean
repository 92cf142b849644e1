import CommandChain.Proofs.Expr.Pruned

/-!
# An expression sees the variables that it names

Two scopes that agree on the names of an expression, once their values are pruned, give it the same
value, once that is pruned (`Expr.eval_congr`). The values themselves may differ: a function takes
along the whole scope that it is made in. -/

namespace CommandChain

/-! ### Evaluation -/

/-- Two computations that agree up to `f`, continued alike, agree up to `g`. -/
theorem map_bind_congr {ε α β γ δ : Type} {f : α → β} {g : γ → δ} {x y : Except ε α}
    {k k' : α → Except ε γ} (h : x.map f = y.map f)
    (hk : ∀ a b, f a = f b → (k a).map g = (k' b).map g) : (x >>= k).map g = (y >>= k').map g := by
  cases x with
  | error e =>
    cases y with
    | error e' =>
      obtain rfl := Except.error.inj h
      rfl
    | ok b => cases h
  | ok a =>
    cases y with
    | error e => cases h
    | ok b => exact hk a b (Except.ok.inj h)

/-- The scopes have the same variables of some names, once they are pruned. -/
def Scope.AgreeOn (names : List String) (s s' : Scope) : Prop :=
  ∀ n ∈ names, Members.get? n (Value.prunedMembers s) = Members.get? n (Value.prunedMembers s')

namespace Scope.AgreeOn

variable {names more : List String} {s s' : Scope}

theorem left (h : AgreeOn (names ++ more) s s') : AgreeOn names s s' :=
  fun n hn => h n (List.mem_append_left more hn)

theorem right (h : AgreeOn (names ++ more) s s') : AgreeOn more s s' :=
  fun n hn => h n (List.mem_append_right names hn)

end Scope.AgreeOn

/-- A function that is called prunes alike what it makes of like arguments. -/
def Caller.Respects (caller : Caller) : Prop :=
  ∀ here f f' args args', Value.pruned f = Value.pruned f' →
    Value.prunedItems args = Value.prunedItems args' →
    (caller here f args).map Value.pruned = (caller here f' args').map Value.pruned

namespace Expr

variable {caller : Caller}

theorem ofName_congr {name : String} {s s' : Scope} (h : Scope.AgreeOn [name] s s') :
    (Value.ofName s name).map Value.pruned = (Value.ofName s' name).map Value.pruned := by
  have hget := h name (List.mem_singleton_self name)
  rw [Value.get?_prunedMembers, Value.get?_prunedMembers] at hget
  unfold Value.ofName
  cases hs : Members.get? name s with
  | none =>
    obtain hs' : Members.get? name s' = none := by simpa [hs] using hget.symm
    rw [hs']
  | some v =>
    cases hs' : Members.get? name s' with
    | none => simp [hs, hs'] at hget
    | some v' => exact congrArg Except.ok (by simpa [hs, hs'] using hget)

mutual

/-- Evaluation in scopes that agree on the names of the expression. -/
theorem evalWith_congr (hcaller : caller.Respects) : (e : Expr) → ∀ {here : Address} {s s' : Scope},
    Scope.AgreeOn e.names s s' →
    (evalWith caller here s e).map Value.pruned = (evalWith caller here s' e).map Value.pruned
  | .null, here, s, s', h | .bool _, here, s, s', h | .num _, here, s, s', h
  | .str _, here, s, s', h => rfl
  | .list items, here, s, s', h => by
    simp only [evalWith]
    refine map_bind_congr (evalItems_congr hcaller items h) fun vs vs' hvs => ?_
    exact congrArg (fun vs => Except.ok (Value.list vs)) hvs
  | .obj fields, here, s, s', h => by
    simp only [evalWith]
    refine map_bind_congr (evalFields_congr hcaller fields h rfl) fun ms ms' hms => ?_
    exact congrArg (fun ms => Except.ok (Value.obj ms)) hms
  | .ident name, here, s, s', h => by
    simp only [evalWith]
    exact ofName_congr h
  | .member object name, here, s, s', h => by
    simp only [evalWith]
    refine map_bind_congr (evalWith_congr hcaller object h) fun v v' hv => ?_
    rw [Value.functionMap_pruned.property, Value.functionMap_pruned.property, hv]
  | .index object key, here, s, s', h => by
    simp only [evalWith]
    refine map_bind_congr (evalWith_congr hcaller object h.left) fun v v' hv => ?_
    refine map_bind_congr (evalWith_congr hcaller key h.right) fun k k' hk => ?_
    rw [Value.functionMap_pruned.item, Value.functionMap_pruned.item, hv, hk]
  | .call callee args, here, s, s', h => by
    simp only [evalWith]
    refine map_bind_congr (evalWith_congr hcaller callee h.left) fun f f' hf => ?_
    refine map_bind_congr (evalItems_congr hcaller args h.right) fun vs vs' hvs => ?_
    exact hcaller _ f f' vs vs' hf hvs
  | .unary op e, here, s, s', h => by
    simp only [evalWith]
    refine map_bind_congr (evalWith_congr hcaller e h) fun v v' hv => ?_
    refine congrArg Except.ok ?_
    rw [Value.functionMap_pruned.unary_apply, Value.functionMap_pruned.unary_apply, hv]
  | .binary op l r, here, s, s', h => by
    simp only [evalWith]
    refine map_bind_congr (evalWith_congr hcaller l h.left) fun a a' ha => ?_
    have hdecided : op.decided a = op.decided a' := by
      rw [← Value.functionMap_pruned.binary_decided, ha, Value.functionMap_pruned.binary_decided]
    rw [hdecided]
    split_ifs
    · exact congrArg Except.ok ha
    · refine map_bind_congr (evalWith_congr hcaller r h.right) fun b b' hb => ?_
      refine congrArg Except.ok ?_
      rw [Value.functionMap_pruned.binary_apply, Value.functionMap_pruned.binary_apply, ha, hb]
  | .ternary c a b, here, s, s', h => by
    simp only [evalWith]
    refine map_bind_congr (evalWith_congr hcaller c h.left) fun v v' hv => ?_
    have htruthy : v.isTruthy = v'.isTruthy := by
      rw [← Value.functionMap_pruned.isTruthy, hv, Value.functionMap_pruned.isTruthy]
    rw [htruthy]
    split_ifs
    · exact evalWith_congr hcaller a h.right.left
    · exact evalWith_congr hcaller b h.right.right
  | .lambda params rest body, here, s, s', h => by
    simp only [evalWith]
    exact congrArg (fun captured => Except.ok (Value.closure here params rest body captured))
      (Scope.pick_congr h)

theorem evalItems_congr (hcaller : caller.Respects) :
    (es : List Expr) → ∀ {here : Address} {i : Nat} {s s' : Scope},
    Scope.AgreeOn (itemNames es) s s' →
    (evalItems caller here i s es).map Value.prunedItems =
      (evalItems caller here i s' es).map Value.prunedItems
  | [], here, i, s, s', h => rfl
  | e :: es, here, i, s, s', h => by
    simp only [evalItems]
    refine map_bind_congr (evalWith_congr hcaller e h.left) fun v v' hv => ?_
    refine map_bind_congr (evalItems_congr hcaller es h.right) fun vs vs' hvs => ?_
    exact congrArg Except.ok (by rw [Value.prunedItems, Value.prunedItems, hv, hvs])

theorem evalFields_congr (hcaller : caller.Respects) :
    (fs : List (String × Expr)) → ∀ {here : Address} {i : Nat} {s s' : Scope}
      {ms ms' : Members Value}, Scope.AgreeOn (fieldNames fs) s s' →
    Value.prunedMembers ms = Value.prunedMembers ms' →
    (evalFields caller here i s ms fs).map Value.prunedMembers =
      (evalFields caller here i s' ms' fs).map Value.prunedMembers
  | [], here, i, s, s', ms, ms', h, hms => congrArg Except.ok hms
  | (k, e) :: fs, here, i, s, s', ms, ms', h, hms => by
    simp only [evalFields]
    refine map_bind_congr (evalWith_congr hcaller e h.left) fun v v' hv => ?_
    refine evalFields_congr hcaller fs h.right ?_
    rw [Value.prunedMembers_insert, Value.prunedMembers_insert, hv, hms]

end

end Expr

/-! ### Calls -/

theorem Scope.get?_bindPlain {n : String} {s s' : Scope} (h : Members.get? n s = Members.get? n s')
    (ps : List String) (args : List Value) :
    Members.get? n (Scope.bindPlain ps args s) = Members.get? n (Scope.bindPlain ps args s') := by
  induction ps generalizing args s s' with
  | nil => exact h
  | cons p ps ih => cases args <;> exact ih (by simp only [Members.get?, h]) _

theorem Scope.get?_bind {n : String} {s s' : Scope} (h : Members.get? n s = Members.get? n s')
    (ps : List String) (rest : Option String) (args : List Value) :
    Members.get? n (Scope.bind ps rest args s) = Members.get? n (Scope.bind ps rest args s') := by
  cases rest with
  | none => exact get?_bindPlain h ps args
  | some r => simp only [Scope.bind, Members.get?, get?_bindPlain h ps args]

theorem Value.call_of_not_callable {f : Value} (hf : f.isCallable = false) (room : Nat)
    (here : Address) (args : List Value) :
    Value.call room here f args = .error (.notFunction f.typeName) := by
  cases f
  case closure | builtin => cases hf
  all_goals cases room <;> rfl

theorem Value.call_congr {room : Nat} (hcaller : ∀ n, room = n + 1 → Caller.Respects (Value.call n))
    {here : Address} {f f' : Value} {args args' : List Value} (hf : f.pruned = f'.pruned)
    (hargs : prunedItems args = prunedItems args') :
    (Value.call room here f args).map pruned = (Value.call room here f' args').map pruned := by
  have hcallable : f.isCallable = f'.isCallable := by
    rw [← functionMap_pruned.isCallable, hf, functionMap_pruned.isCallable]
  have htype : f.typeName = f'.typeName := by
    rw [← functionMap_pruned.typeName, hf, functionMap_pruned.typeName]
  cases hc : f.isCallable with
  | false => rw [call_of_not_callable hc, call_of_not_callable (hcallable ▸ hc), htype]
  | true =>
    cases f with
    | closure origin params rest body captured =>
      cases f' with
      | closure origin' params' rest' body' captured' =>
        simp only [pruned, Value.closure.injEq] at hf
        obtain ⟨rfl, rfl, rfl, rfl, hcaptured⟩ := hf
        cases room with
        | zero => rfl
        | succ room =>
          refine Expr.evalWith_congr (hcaller room rfl) body fun n hn => ?_
          rw [prunedItems_eq, prunedItems_eq] at hargs
          rw [prunedMembers_eq, prunedMembers_eq, functionMap_pruned.bind, functionMap_pruned.bind,
            hargs]
          refine Scope.get?_bind ?_ params rest _
          rw [← prunedMembers_eq, ← prunedMembers_eq, ← Scope.get?_pick hn, hcaptured,
            Scope.get?_pick hn]
      | _ => simp [pruned] at hf
    | builtin b =>
      cases f' with
      | builtin b' =>
        obtain rfl := Value.builtin.inj hf
        rw [prunedItems_eq, prunedItems_eq] at hargs
        have happly : (b.apply args).map pruned = (b.apply args').map pruned := by
          rw [functionMap_pruned.builtin_apply, functionMap_pruned.builtin_apply, hargs]
        cases room <;> exact happly
      | _ => simp [pruned] at hf
    | _ => cases hc

/-- Calls cannot tell values from their pruned forms, however deep they may be nested. -/
theorem Value.call_respects (room : Nat) : Caller.Respects (Value.call room) := by
  induction room with
  | zero => exact fun here f f' args args' hf hargs =>
      call_congr (fun n h => absurd h (by omega)) hf hargs
  | succ room ih =>
    exact fun here f f' args args' hf hargs => call_congr (fun n h => Nat.succ.inj h ▸ ih) hf hargs

/-- The value of an expression is known, up to what its functions do not look at, from the variables
that it names. -/
theorem Expr.eval_congr {e : Expr} {s s' : Scope} (h : Scope.AgreeOn e.names s s') :
    (Expr.eval s e).map Value.pruned = (Expr.eval s' e).map Value.pruned :=
  Expr.evalWith_congr (Value.call_respects maxCalls) e h

end CommandChain
