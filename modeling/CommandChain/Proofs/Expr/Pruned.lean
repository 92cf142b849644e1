import CommandChain.Proofs.Expr.FunctionMap

/-!
# Pruned values

A function keeps all the variables that it was made among, most of which it never looks at. `pruned`
leaves to every function in a value just those that its body names. As a map that changes functions
only it goes unnoticed by operators, properties and builtin functions. -/

namespace CommandChain

/-! ### Names -/

namespace Expr

mutual

/-- The names of variables in an expression, whether they are its parameters or not. -/
def names : Expr → List String
  | .null | .bool _ | .num _ | .str _ => []
  | .list items => itemNames items
  | .obj fields => fieldNames fields
  | .ident name => [name]
  | .member object _ => names object
  | .index object key => names object ++ names key
  | .call callee args => names callee ++ itemNames args
  | .unary _ e => names e
  | .binary _ l r => names l ++ names r
  | .ternary c a b => names c ++ (names a ++ names b)
  | .lambda _ _ body => names body

/-- The names of variables in expressions. -/
def itemNames : List Expr → List String
  | [] => []
  | e :: es => names e ++ itemNames es

/-- The names of variables in fields. -/
def fieldNames : List (String × Expr) → List String
  | [] => []
  | (_, e) :: fs => names e ++ fieldNames fs

end

end Expr

/-- The variables of some names. -/
def Scope.pick (names : List String) (s : Scope) : Scope :=
  names.filterMap fun n => (Members.get? n s).map fun v => (n, v)

theorem Scope.get?_pick {names : List String} {n : String} (hn : n ∈ names) (s : Scope) :
    Members.get? n (s.pick names) = Members.get? n s := by
  rw [Scope.pick, Members.get?_filterMap (fun n => Members.get? n s), if_pos hn]

theorem Scope.pick_congr {names : List String} {s s' : Scope}
    (h : ∀ n ∈ names, Members.get? n s = Members.get? n s') : s.pick names = s'.pick names := by
  unfold Scope.pick
  induction names with
  | nil => rfl
  | cons n names ih =>
    obtain ⟨hn, hnames⟩ := List.forall_mem_cons.mp h
    rw [List.filterMap_cons, List.filterMap_cons, hn, ih hnames]

/-! ### Pruned values -/

namespace Value

mutual

/-- The value, with just the named variables in every function. -/
def pruned : Value → Value
  | .list items => .list (prunedItems items)
  | .obj ms => .obj (prunedMembers ms)
  | .closure origin params rest body captured =>
    .closure origin params rest body (Scope.pick body.names (prunedMembers captured))
  | .null => .null
  | .bool b => .bool b
  | .num x => .num x
  | .str s => .str s
  | .builtin f => .builtin f

/-- The items pruned. -/
def prunedItems : List Value → List Value
  | [] => []
  | v :: vs => pruned v :: prunedItems vs

/-- The members pruned. -/
def prunedMembers : List (String × Value) → List (String × Value)
  | [] => []
  | (k, v) :: ms => (k, pruned v) :: prunedMembers ms

end

theorem prunedItems_eq (vs : List Value) : prunedItems vs = vs.map pruned := by
  induction vs with
  | nil => rfl
  | cons v vs ih => rw [prunedItems, ih, List.map_cons]

theorem prunedMembers_eq (ms : List (String × Value)) :
    prunedMembers ms = Members.mapValues pruned ms := by
  induction ms with
  | nil => rfl
  | cons m ms ih => rw [prunedMembers, ih, Members.mapValues_cons]

theorem get?_prunedMembers (k : String) (ms : List (String × Value)) :
    Members.get? k (prunedMembers ms) = (Members.get? k ms).map pruned := by
  rw [prunedMembers_eq, Members.get?_mapValues]

theorem prunedMembers_insert (k : String) (v : Value) (ms : Members Value) :
    prunedMembers (Members.insert k v ms) = Members.insert k v.pruned (prunedMembers ms) := by
  rw [prunedMembers_eq, prunedMembers_eq, Members.mapValues_insert]

/-- Only functions are pruned, and they keep their origins. -/
theorem functionMap_pruned : FunctionMap id pruned where
  injective := Function.injective_id
  null := rfl
  bool _ := rfl
  num _ := rfl
  str _ := rfl
  list vs := by rw [pruned, prunedItems_eq]
  obj ms := by rw [pruned, prunedMembers_eq]
  closure _ _ _ _ _ := ⟨_, _, _, _, rfl⟩
  builtin _ := rfl

end Value

end CommandChain
