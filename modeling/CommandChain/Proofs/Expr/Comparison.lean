import CommandChain.Proofs.Expr.Regular
import Mathlib.Data.List.Perm.Subperm

/-!
# Comparison of values

Equality does not depend on which value stands on the left, and order is turned around
(`BinaryOp.apply_comparison`). For numbers both come down to the comparison of doubles, in which
infinities, zeros and finite numbers change places and NaN is related to nothing. Objects are equal
when there are as many members in both and those on the left have equals on the right; the names of
sorted members being distinct, none is then left over on the right. So the members have to be
sorted: equality is symmetric on regular values, which are all that expressions have
(`Expr.evalIn_regular`). -/

namespace CommandChain

/-! ### Numbers -/

namespace Double

open Float.Model (UnpackedFloat)

theorem compare_swap (x y : UnpackedFloat) : y.compare x = (x.compare y).map Ordering.swap := by
  cases x with
  | notANumber => cases y <;> rfl
  | infinity s =>
    cases s <;> cases y with
    | infinity t => cases t <;> rfl
    | _ => rfl
  | zero s =>
    cases y with
    | infinity t => cases t <;> rfl
    | finite t => cases t <;> rfl
    | _ => rfl
  | finite s m e =>
    cases y with
    | notANumber => cases s <;> rfl
    | infinity t => cases s <;> cases t <;> rfl
    | zero t => cases s <;> rfl
    | finite t n f =>
      have hswap : ((compare e f).then (compare m n)).swap = (compare f e).then (compare n m) := by
        rw [Ordering.swap_then, ← Std.OrientedCmp.eq_swap, ← Std.OrientedCmp.eq_swap]
      cases s <;> cases t
      · exact congrArg (fun o => some o.swap) hswap.symm
      · rfl
      · rfl
      · exact congrArg some hswap.symm

theorem lt_iff_compare (x y : Float) :
    x < y ↔ x.toModel.unpack.compare y.toModel.unpack = some .lt := by
  have h : x < y ↔ x.toModel.unpack.lt y.toModel.unpack = true := decide_eq_true_iff
  rw [h, UnpackedFloat.lt, beq_iff_eq]

theorem beq_eq_compare (x y : Float) :
    (x == y) = (x.toModel.unpack.compare y.toModel.unpack == some .eq) := rfl

theorem beq_comm (x y : Float) : (x == y) = (y == x) := by
  rw [beq_eq_compare, beq_eq_compare, compare_swap y.toModel.unpack]
  cases y.toModel.unpack.compare x.toModel.unpack with
  | none => rfl
  | some o => cases o <;> rfl

end Double

namespace Value

theorem numberOrder_eq_compare (x y : Float) :
    numberOrder x y = x.toModel.unpack.compare y.toModel.unpack := by
  simp only [numberOrder, Double.lt_iff_compare, Double.beq_eq_compare,
    Double.compare_swap x.toModel.unpack]
  cases x.toModel.unpack.compare y.toModel.unpack with
  | none => rfl
  | some o => cases o <;> rfl

theorem numberOrder_swap (x y : Float) : numberOrder y x = (numberOrder x y).map Ordering.swap := by
  rw [numberOrder_eq_compare, numberOrder_eq_compare, Double.compare_swap]

theorem numberEq_comm (a b : Value) : numberEq a b = numberEq b a := Double.beq_comm _ _

end Value

/-! ### Objects -/

/-- As many members as on the left, among which are all names of the left, have no other names. -/
theorem Members.exists_get?_of_length_eq {α : Type} {as bs : Members α} (has : as.Sorted)
    (hlen : as.length = bs.length) (hnames : ∀ m ∈ as, ∃ b, get? m.1 bs = some b)
    {n : String × α} (hn : n ∈ bs) : ∃ a, (n.1, a) ∈ as := by
  have hsub : as.map Prod.fst ⊆ bs.map Prod.fst := by
    intro k hk
    obtain ⟨m, hm, rfl⟩ := List.mem_map.mp hk
    obtain ⟨b, hb⟩ := hnames m hm
    exact List.mem_map.mpr ⟨(m.1, b), mem_of_get? hb, rfl⟩
  have hperm : (as.map Prod.fst).Perm (bs.map Prod.fst) :=
    (List.subperm_of_subset has.nodup hsub).perm_of_length_le (by simp [hlen])
  obtain ⟨m, hm, hmn⟩ := List.mem_map.mp (hperm.mem_iff.mpr (List.mem_map_of_mem hn))
  exact ⟨m.2, hmn ▸ hm⟩

namespace Value

/-! ### Strict equality -/

/-- Arrays have their equality from their items. -/
theorem strictEqItems_symm {as bs : List Value} (h : strictEqItems as bs = true)
    (has : ∀ a ∈ as, ∀ b ∈ bs, a.strictEq b = true → b.strictEq a = true) :
    strictEqItems bs as = true := by
  induction as generalizing bs with
  | nil => cases bs with
    | nil => rfl
    | cons => cases h
  | cons a as ih => cases bs with
    | nil => cases h
    | cons b bs =>
      obtain ⟨hhead, htail⟩ := Bool.and_eq_true_iff.mp h
      have hitems := ih htail fun a' ha b' hb =>
        has a' (List.mem_cons_of_mem _ ha) b' (List.mem_cons_of_mem _ hb)
      exact Bool.and_eq_true_iff.mpr
        ⟨has a List.mem_cons_self b List.mem_cons_self hhead, hitems⟩

theorem strictEqMembers_iff {as bs : Members Value} :
    strictEqMembers as bs = true ↔
      ∀ m ∈ as, ∃ b, Members.get? m.1 bs = some b ∧ m.2.strictEq b = true := by
  induction as with
  | nil => simp [strictEqMembers]
  | cons m as ih =>
    simp only [strictEqMembers, Bool.and_eq_true, ih, List.forall_mem_cons]
    refine and_congr_left fun _ => ?_
    cases Members.get? m.1 bs <;> simp

/-- By induction on the value on the left, which has to be regular for the names of its objects to
be distinct. -/
theorem strictEq_symm {a b : Value} (ha : a.Regular) (hb : b.Regular) (h : a.strictEq b = true) :
    b.strictEq a = true := by
  induction ha generalizing b with
  | null => cases hb with
    | null => rfl
    | _ => cases h
  | bool p => cases hb with
    | bool q => exact (beq_iff_eq.mp h) ▸ BEq.rfl
    | _ => cases h
  | num x => cases hb with
    | num y => exact (Double.beq_comm y x).trans h
    | _ => cases h
  | str s => cases hb with
    | str t => exact (beq_iff_eq.mp h) ▸ BEq.rfl
    | _ => cases h
  | closure _ origin => cases hb with
    | closure => exact BEq.symm h
    | _ => cases h
  | builtin f => cases hb with
    | builtin g => exact BEq.symm h
    | _ => cases h
  | list _ ih => cases hb with
    | list hbs =>
      exact strictEqItems_symm h fun a ha b hb => ih a ha (hbs b hb)
    | _ => cases h
  | @obj as has _ ih => cases hb with
    | @obj bs hsorted hbs =>
      simp only [strictEq, Bool.and_eq_true, beq_iff_eq, strictEqMembers_iff] at h ⊢
      obtain ⟨hlen, hequal⟩ := h
      refine ⟨hlen.symm, fun n hn => ?_⟩
      have hnames : ∀ m ∈ as, ∃ b, Members.get? m.1 bs = some b :=
        fun m hm => (hequal m hm).imp fun b hb => hb.1
      obtain ⟨a, ha⟩ := Members.exists_get?_of_length_eq has hlen hnames hn
      -- the member of that name on the left has this one as its equal
      obtain ⟨b, hb, hab⟩ := hequal _ ha
      obtain rfl : b = n.2 := Option.some.inj (hb.symm.trans (hsorted.get?_of_mem hn))
      exact ⟨a, has.get?_of_mem ha, ih _ ha (hbs n hn) hab⟩
    | _ => cases h

theorem strictEq_comm {a b : Value} (ha : a.Regular) (hb : b.Regular) :
    a.strictEq b = b.strictEq a :=
  Bool.eq_iff_iff.mpr ⟨strictEq_symm ha hb, strictEq_symm hb ha⟩

/-! ### Equality -/

variable {a b : Value}

/-- Where equality does not compare numbers or texts it is strict equality. -/
theorem looseEq_comm_of_strictEq (h : a.strictEq b = b.strictEq a) : a.looseEq b = b.looseEq a := by
  cases a with
  | null => cases b <;> rfl
  | bool p =>
    cases b with
    | null => rfl
    | _ => exact numberEq_comm _ _
  | num x =>
    cases b with
    | null => rfl
    | bool | str | list | obj => exact numberEq_comm _ _
    | num | closure | builtin => exact h
  | str s =>
    cases b with
    | null => rfl
    | bool | num => exact numberEq_comm _ _
    | list | obj => exact BEq.comm
    | str | closure | builtin => exact h
  | list | obj =>
    cases b with
    | null => rfl
    | bool | num => exact numberEq_comm _ _
    | str => exact BEq.comm
    | list | obj | closure | builtin => exact h
  | closure | builtin =>
    cases b with
    | null => rfl
    | bool => exact numberEq_comm _ _
    | num | str | list | obj | closure | builtin => exact h

theorem looseEq_of_strictEq (h : a.strictEq b = true) : a.looseEq b = true := by
  cases a with
  | null => cases b with
    | null => rfl
    | _ => cases h
  | bool p => cases b with
    | bool q =>
      obtain rfl : p = q := beq_iff_eq.mp h
      cases p <;> rfl
    | _ => cases h
  | num => cases b with
    | num => exact h
    | _ => cases h
  | str => cases b with
    | str => exact h
    | _ => cases h
  | list => cases b with
    | list => exact h
    | _ => cases h
  | obj => cases b with
    | obj => exact h
    | _ => cases h
  | closure => cases b with
    | closure => exact h
    | _ => cases h
  | builtin => cases b with
    | builtin => exact h
    | _ => cases h

/-! ### Order -/

theorem order_str (s t : String) : order (.str s) (.str t) = some (compare s t) := by
  simp only [order, beq_iff_eq]
  rfl

theorem order_swap (a b : Value) : b.order a = (a.order b).map Ordering.swap := by
  cases a with
  | str s => cases b with
    | str t => rw [order_str, order_str, Option.map_some, ← Std.OrientedCmp.eq_swap]
    | _ => exact numberOrder_swap _ _
  | _ => cases b <;> exact numberOrder_swap _ _

end Value

/-! ### The operators -/

namespace BinaryOp

/-- The operators on the left and on the right ask for the two directions of one order. -/
theorem lt_apply (a b : Value) : BinaryOp.lt.apply a b = BinaryOp.gt.apply b a := by
  simp only [apply, Value.order_swap a b]
  cases a.order b with
  | none => rfl
  | some o => cases o <;> rfl

theorem le_apply (a b : Value) : BinaryOp.le.apply a b = BinaryOp.ge.apply b a := by
  simp only [apply, Value.order_swap a b]
  cases a.order b with
  | none => rfl
  | some o => cases o <;> rfl

/-- **Equality and order are consistent.** Both kinds of equality are symmetric, the strict one is
the finer, and their negations are what `!` makes of them. `<` and `<=` are `>` and `>=` with the
operands changed, and no value is both below and above another. -/
theorem apply_comparison {a b : Value} (ha : a.Regular) (hb : b.Regular) :
    BinaryOp.eq.apply a b = BinaryOp.eq.apply b a ∧
      BinaryOp.strictEq.apply a b = BinaryOp.strictEq.apply b a ∧
      (BinaryOp.strictEq.apply a b = .bool true → BinaryOp.eq.apply a b = .bool true) ∧
      BinaryOp.ne.apply a b = UnaryOp.not.apply (BinaryOp.eq.apply a b) ∧
      BinaryOp.strictNe.apply a b = UnaryOp.not.apply (BinaryOp.strictEq.apply a b) ∧
      BinaryOp.lt.apply a b = BinaryOp.gt.apply b a ∧
      BinaryOp.le.apply a b = BinaryOp.ge.apply b a ∧
      ¬(BinaryOp.lt.apply a b = .bool true ∧ BinaryOp.gt.apply a b = .bool true) := by
  have hstrict := Value.strictEq_comm ha hb
  refine ⟨congrArg Value.bool (Value.looseEq_comm_of_strictEq hstrict), congrArg Value.bool hstrict,
    ?finer, rfl, rfl, lt_apply a b, le_apply a b, ?asymmetric⟩
  case finer =>
    intro h
    exact congrArg Value.bool (Value.looseEq_of_strictEq (Value.bool.inj h))
  case asymmetric =>
    rintro ⟨hlt, hgt⟩
    have hlt' : a.order b = some .lt := beq_iff_eq.mp (Value.bool.inj hlt)
    have hgt' : a.order b = some .gt := beq_iff_eq.mp (Value.bool.inj hgt)
    rw [hlt'] at hgt'
    cases hgt'

/-- `{f: x => x, items: [1, {a: null, b: y}]}` -/
def nested (y : Expr) : Expr :=
  .obj [("f", .lambda ["x"] none (.ident "x")),
    ("items", .list [.num 1.0, .obj [("a", .null), ("b", y)]])]

/-- With a string and a number at the same place two such objects differ, and each is equal to
itself: it has the same function. -/
theorem nested_comparison :
    ∃ a b, (nested (.str "2")).eval [] = .ok a ∧ (nested (.num 2.0)).eval [] = .ok b ∧
      a.Regular ∧ b.Regular ∧ BinaryOp.eq.apply a b = .bool false ∧
      BinaryOp.eq.apply b a = .bool false ∧ BinaryOp.eq.apply b b = .bool true := by
  have hempty : Scope.Regular [] := List.forall_mem_nil _
  obtain ⟨a, ha⟩ : ∃ a, (nested (.str "2")).eval [] = .ok a := ⟨_, rfl⟩
  obtain ⟨b, hb⟩ : ∃ b, (nested (.num 2.0)).eval [] = .ok b := ⟨_, rfl⟩
  have hra : a.Regular := Expr.evalIn_regular hempty maxCalls [0] _ a ha
  have hrb : b.Regular := Expr.evalIn_regular hempty maxCalls [0] _ b hb
  have hab : BinaryOp.eq.apply a b = .bool false := by
    cases ha
    cases hb
    rfl
  have hbb : BinaryOp.strictEq.apply b b = .bool true := by
    cases hb
    rfl
  exact ⟨a, b, ha, hb, hra, hrb, hab, (apply_comparison hra hrb).1 ▸ hab,
    (apply_comparison hrb hrb).2.2.1 hbb⟩

end BinaryOp

end CommandChain
