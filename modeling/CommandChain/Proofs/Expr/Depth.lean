import CommandChain.Expr.Eval
import Mathlib.Data.List.Chain
import Mathlib.Data.Prod.Lex
import Mathlib.Logic.Relation

/-!
# Depth of calls

The evaluator as a machine with a counter of the calls it is in. A piece of work, the value of an
expression or the result of a call, is a script: it reads and writes the counter and has other
pieces done. `Evaluator.step` does one thing of the script at hand; a piece that has another one
done waits for its result.

The counter is not part of `evalWith`, which is told how much room it has. Here it is shown that the
machine computes the same results, and what it does with its counter on the way: `Script.Settled`
says it of the rest of one script, `Evaluator.Sound` of the whole machine, and every step keeps
it. -/

namespace CommandChain

/-! ### Scripts -/

/-- A piece of work: the value of an expression, or the result of a call. -/
inductive Job where
  | eval (here : Address) (scope : Scope) (e : Expr)
  | call (here : Address) (f : Value) (args : List Value)

/-- What a piece of work still does: end with a result, read the counter, write it, or have another
piece done and go on with its result. -/
inductive Script where
  | done (r : Except EvalError Value)
  | read (k : Nat → Script)
  | write (d : Nat) (k : Script)
  | ask (j : Job) (k : Except EvalError Value → Script)

namespace Script

/-- Go on with the value of a piece of work, or end with its error. -/
def need (j : Job) (k : Value → Script) : Script :=
  .ask j fun
    | .ok v => k v
    | .error e => .done (.error e)

/-- Go on with the values of expressions from left to right, the first of them being part number
`i`. -/
def needItems (here : Address) (scope : Scope) (i : Nat) :
    List Expr → (List Value → Script) → Script
  | [], k => k []
  | e :: es, k =>
    need (.eval (i :: here) scope e) fun v => needItems here scope (i + 1) es fun vs => k (v :: vs)

/-- Go on with the members of an object after fields evaluated from left to right. -/
def needFields (here : Address) (scope : Scope) (i : Nat) (ms : Members Value) :
    List (String × Expr) → (Members Value → Script) → Script
  | [], k => k ms
  | (name, e) :: fs, k =>
    need (.eval (i :: here) scope e) fun v =>
      needFields here scope (i + 1) (Members.insert name v ms) fs k

/-- Evaluate the body of a function one call deeper, and come back. -/
def deeper (body : Job) : Script :=
  .read fun d => .write (d + 1) <| .ask body fun r => .read fun d => .write (d - 1) <| .done r

/-- The script of an expression. -/
def ofExpr (here : Address) (scope : Scope) : Expr → Script
  | .null => .done (.ok .null)
  | .bool b => .done (.ok (.bool b))
  | .num x => .done (.ok (.num x))
  | .str s => .done (.ok (.str s))
  | .list items => needItems here scope 0 items fun vs => .done (.ok (.list vs))
  | .obj fields => needFields here scope 0 [] fields fun ms => .done (.ok (.obj ms))
  | .ident name => .done (Value.ofName scope name)
  | .member object name => need (.eval (0 :: here) scope object) fun v => .done (v.property name)
  | .index object key =>
    need (.eval (0 :: here) scope object) fun v =>
      need (.eval (1 :: here) scope key) fun k => .done (v.item k)
  | .call callee args =>
    need (.eval (0 :: here) scope callee) fun f =>
      needItems here scope 2 args fun vs => .ask (.call (1 :: here) f vs) .done
  | .unary op e => need (.eval (0 :: here) scope e) fun v => .done (.ok (op.apply v))
  | .binary op l r =>
    need (.eval (0 :: here) scope l) fun a =>
      if op.decided a then .done (.ok a)
      else need (.eval (1 :: here) scope r) fun b => .done (.ok (op.apply a b))
  | .ternary c a b =>
    need (.eval (0 :: here) scope c) fun v =>
      if v.isTruthy then .ask (.eval (1 :: here) scope a) .done
      else .ask (.eval (2 :: here) scope b) .done
  | .lambda params rest body => .done (.ok (.closure here params rest body scope))

/-- The script of a call: a function of the language is refused if the counter is at its bound. -/
def ofCall (here : Address) (f : Value) (args : List Value) : Script :=
  match f with
  | .closure _ params rest body captured =>
    .read fun d =>
      if maxCalls ≤ d then .done (.error .callDepth)
      else deeper (.eval here (Scope.bind params rest args captured) body)
  | .builtin b => .done (b.apply args)
  | v => .done (.error (.notFunction v.typeName))

end Script

namespace Job

/-- The script of a piece of work. -/
def script : Job → Script
  | .eval here scope e => .ofExpr here scope e
  | .call here f args => .ofCall here f args

/-- The result of a piece of work with room for so many calls. -/
def answer (room : Nat) : Job → Except EvalError Value
  | .eval here scope e => e.evalIn room here scope
  | .call here f args => f.call room here args

end Job

/-- The result of a script when the counter stands at `c` and all that it asks for is answered. -/
def Script.outcome : Script → Nat → Except EvalError Value
  | .done r, _ => r
  | .read k, c => (k c).outcome c
  | .write d k, _ => k.outcome d
  | .ask j k, c => (k (j.answer (maxCalls - c))).outcome c

/-! ### Size and rank -/

namespace Expr

mutual

/-- The number of expressions in an expression, itself included. -/
def size : Expr → Nat
  | .null | .bool _ | .num _ | .str _ | .ident _ => 1
  | .list items => sizeItems items + 1
  | .obj fields => sizeFields fields + 1
  | .member object _ => object.size + 1
  | .index object key => object.size + key.size + 1
  | .call callee args => callee.size + sizeItems args + 1
  | .unary _ e => e.size + 1
  | .binary _ l r => l.size + r.size + 1
  | .ternary c a b => c.size + a.size + b.size + 1
  | .lambda _ _ body => body.size + 1

/-- The number of expressions in some expressions. -/
def sizeItems : List Expr → Nat
  | [] => 0
  | e :: es => e.size + sizeItems es

/-- The number of expressions in some fields. -/
def sizeFields : List (String × Expr) → Nat
  | [] => 0
  | (_, e) :: fs => e.size + sizeFields fs

end

end Expr

/-- The size of what a piece of work has to evaluate; a call has no expression of its own. -/
def Job.size : Job → Nat
  | .eval _ _ e => e.size
  | .call .. => 0

@[simp] theorem Job.size_eval (here : Address) (scope : Scope) (e : Expr) :
    (eval here scope e).size = e.size := rfl

@[simp] theorem Job.size_call (here : Address) (f : Value) (args : List Value) :
    (call here f args).size = 0 := rfl

/-- A piece of work that has begun, and the counter at that time. -/
structure Begun where
  job : Job
  entry : Nat

/-- The room for calls that is left, and then the size of the work. -/
def Begun.rank (b : Begun) : Nat ×ₗ Nat := toLex (maxCalls - b.entry, b.job.size)

/-! ### What a script does with the counter -/

/-- From the counter `c` on, a script keeps within the bound, asks only for work of a lower rank
than `b`, and ends with the counter as it was when `b` began. -/
def Script.Settled (b : Begun) : Script → Nat → Prop
  | .done _, c => c = b.entry
  | .read k, c => (k c).Settled b c
  | .write d k, _ => d ≤ maxCalls ∧ k.Settled b d
  | .ask j k, c => (⟨j, c⟩ : Begun).rank < b.rank ∧ ∀ r, (k r).Settled b c

namespace Begun

variable {b : Begun} {j : Job} {c : Nat}

theorem rank_lt_of_size (h : j.size < b.job.size) : (⟨j, b.entry⟩ : Begun).rank < b.rank :=
  Prod.Lex.right _ h

theorem rank_lt_of_entry (he : b.entry < c) (hc : c ≤ maxCalls) : (⟨j, c⟩ : Begun).rank < b.rank :=
  Prod.Lex.left _ _ (by show maxCalls - c < maxCalls - b.entry; omega)

end Begun

namespace Script

variable {b : Begun} {j : Job}

theorem settled_need {k : Value → Script} (h : j.size < b.job.size)
    (hk : ∀ v, (k v).Settled b b.entry) : (need j k).Settled b b.entry := by
  refine ⟨Begun.rank_lt_of_size h, fun r => ?_⟩
  cases r with
  | ok v => exact hk v
  | error e => exact rfl

theorem settled_ask_done (h : j.size < b.job.size) : (Script.ask j .done).Settled b b.entry :=
  ⟨Begun.rank_lt_of_size h, fun _ => rfl⟩

variable {here : Address} {scope : Scope}

theorem settled_needItems {es : List Expr} {i : Nat} {k : List Value → Script}
    (h : Expr.sizeItems es < b.job.size) (hk : ∀ vs, (k vs).Settled b b.entry) :
    (needItems here scope i es k).Settled b b.entry := by
  induction es generalizing i k with
  | nil => exact hk []
  | cons e es ih =>
    rw [Expr.sizeItems] at h
    exact settled_need (by rw [Job.size_eval]; omega) fun v =>
      ih (by omega) fun vs => hk (v :: vs)

theorem settled_needFields {fs : List (String × Expr)} {i : Nat} {ms : Members Value}
    {k : Members Value → Script} (h : Expr.sizeFields fs < b.job.size)
    (hk : ∀ ms, (k ms).Settled b b.entry) :
    (needFields here scope i ms fs k).Settled b b.entry := by
  induction fs generalizing i ms with
  | nil => exact hk ms
  | cons f fs ih =>
    rw [Expr.sizeFields] at h
    exact settled_need (by rw [Job.size_eval]; omega) fun v => ih (by omega)

/-- The script of an expression leaves the counter alone and asks for its parts only, or for the
call it writes. -/
theorem settled_ofExpr (here : Address) (scope : Scope) (e : Expr) (c : Nat) :
    (ofExpr here scope e).Settled ⟨.eval here scope e, c⟩ c := by
  cases e with
  | null | bool | num | str | ident | lambda => exact rfl
  | list items =>
    exact settled_needItems (by simp [Expr.size]) fun _ => rfl
  | obj fields =>
    exact settled_needFields (by simp [Expr.size]) fun _ => rfl
  | member object name | unary op e =>
    exact settled_need (by simp [Expr.size]) fun _ => rfl
  | index object key =>
    refine settled_need (by simp only [Job.size_eval, Expr.size]; omega) fun v => ?_
    exact settled_need (by simp only [Job.size_eval, Expr.size]; omega) fun _ => rfl
  | call callee args =>
    refine settled_need (by simp only [Job.size_eval, Expr.size]; omega) fun f => ?_
    refine settled_needItems (by simp only [Job.size_eval, Expr.size]; omega) fun vs => ?_
    exact settled_ask_done (by simp [Expr.size])
  | binary op l r =>
    refine settled_need (by simp only [Job.size_eval, Expr.size]; omega) fun a => ?_
    split
    · exact rfl
    · exact settled_need (by simp only [Job.size_eval, Expr.size]; omega) fun _ => rfl
  | ternary q a b =>
    refine settled_need (by simp only [Job.size_eval, Expr.size]; omega) fun v => ?_
    split
    · exact settled_ask_done (by simp only [Job.size_eval, Expr.size]; omega)
    · exact settled_ask_done (by simp only [Job.size_eval, Expr.size]; omega)

/-- The script of a call goes at most one call deeper, and only below the bound. -/
theorem settled_ofCall (here : Address) (f : Value) (args : List Value) (c : Nat) :
    (ofCall here f args).Settled ⟨.call here f args, c⟩ c := by
  cases f with
  | closure origin params rest body captured =>
    show Script.Settled _ (if maxCalls ≤ c then _ else _) c
    split
    · exact rfl
    · have hc : c + 1 ≤ maxCalls := by omega
      exact ⟨hc, Begun.rank_lt_of_entry (Nat.lt_succ_self c) hc, fun _ =>
        ⟨by omega, Nat.add_sub_cancel c 1⟩⟩
  | null | bool | num | str | list | obj | builtin => exact rfl

end Script

theorem Job.settled (j : Job) (c : Nat) : j.script.Settled ⟨j, c⟩ c := by
  cases j with
  | eval here scope e => exact Script.settled_ofExpr here scope e c
  | call here f args => exact Script.settled_ofCall here f args c

/-! ### What a script computes -/

namespace Script

variable {here : Address} {scope : Scope} {c : Nat}

theorem outcome_need (j : Job) (k : Value → Script) :
    (need j k).outcome c = (j.answer (maxCalls - c) >>= fun v => (k v).outcome c) := by
  show Script.outcome
    (match j.answer (maxCalls - c) with
      | .ok v => k v
      | .error e => done (.error e)) c = _
  cases j.answer (maxCalls - c) with
  | ok v => rfl
  | error e => rfl

theorem outcome_needItems (es : List Expr) (i : Nat) (k : List Value → Script) :
    (needItems here scope i es k).outcome c =
      (Expr.evalItems (Value.call (maxCalls - c)) here i scope es >>= fun vs =>
        (k vs).outcome c) := by
  induction es generalizing i k with
  | nil => rfl
  | cons e es ih =>
    simp only [needItems, outcome_need, ih, Expr.evalItems, bind_assoc, pure_bind]
    rfl

theorem outcome_needFields (fs : List (String × Expr)) (i : Nat) (ms : Members Value)
    (k : Members Value → Script) :
    (needFields here scope i ms fs k).outcome c =
      (Expr.evalFields (Value.call (maxCalls - c)) here i scope ms fs >>=
        fun ms => (k ms).outcome c) := by
  induction fs generalizing i ms with
  | nil => rfl
  | cons f fs ih =>
    simp only [needFields, outcome_need, ih, Expr.evalFields, bind_assoc]
    rfl

theorem outcome_ofExpr (e : Expr) :
    (ofExpr here scope e).outcome c = e.evalIn (maxCalls - c) here scope := by
  unfold Expr.evalIn
  cases e with
  | null | bool | num | str | ident | lambda => rfl
  | list items => simp only [ofExpr, outcome_needItems, Expr.evalWith]; rfl
  | obj fields => simp only [ofExpr, outcome_needFields, Expr.evalWith]; rfl
  | member object name | unary op e | index object key =>
    simp only [ofExpr, outcome_need, Expr.evalWith]; rfl
  | call callee args =>
    simp only [ofExpr, outcome_need, outcome_needItems, Expr.evalWith]; rfl
  | binary op l r =>
    simp only [ofExpr, outcome_need, Expr.evalWith]
    refine bind_congr fun a => ?_
    split
    · rfl
    · rw [outcome_need]; rfl
  | ternary q a b =>
    simp only [ofExpr, outcome_need, Expr.evalWith]
    refine bind_congr fun v => ?_
    split <;> rfl

theorem outcome_ofCall (f : Value) (args : List Value) :
    (ofCall here f args).outcome c = f.call (maxCalls - c) here args := by
  cases f with
  | closure origin params rest body captured =>
    show Script.outcome (if maxCalls ≤ c then _ else _) c = _
    split
    · next h => rw [Nat.sub_eq_zero_of_le h]; rfl
    · next h =>
      obtain ⟨room, hroom⟩ : ∃ room, maxCalls - c = room + 1 := ⟨maxCalls - c - 1, by omega⟩
      have hdeeper : maxCalls - (c + 1) = room := by omega
      simp only [deeper, outcome, hroom, hdeeper, Value.call]
      rfl
  | null | bool | num | str | list | obj | builtin => simp only [ofCall, outcome, Value.call]

end Script

/-- A script computes what the evaluation with the room that is left computes. -/
theorem Job.outcome_script (j : Job) (c : Nat) : j.script.outcome c = j.answer (maxCalls - c) := by
  cases j with
  | eval here scope e => exact Script.outcome_ofExpr e
  | call here f args => exact Script.outcome_ofCall f args

/-! ### The machine -/

/-- A piece of work that waits for the result of another one. -/
structure Waiting extends Begun where
  resume : Except EvalError Value → Script

/-- The evaluator at work: its counter, the piece of work at hand with what is left of its script,
and the pieces that wait, the innermost first. -/
structure Evaluator where
  depth : Nat
  begun : Begun
  script : Script
  waiting : List Waiting

namespace Evaluator

/-- The evaluator before some work, its counter at zero. -/
def start (j : Job) : Evaluator := ⟨0, ⟨j, 0⟩, j.script, []⟩

/-- Do one thing of the script at hand. The evaluator stops when that script is at its end and
nothing waits for its result. -/
def step (m : Evaluator) : Option Evaluator :=
  match m.script with
  | .done r =>
    match m.waiting with
    | [] => none
    | w :: ws => some { m with begun := w.toBegun, script := w.resume r, waiting := ws }
  | .read k => some { m with script := k m.depth }
  | .write d k => some { m with depth := d, script := k }
  | .ask j k =>
    some { m with begun := ⟨j, m.depth⟩, script := j.script, waiting := ⟨m.begun, k⟩ :: m.waiting }

/-- The evaluator gets from one state to another. -/
abbrev Reaches : Evaluator → Evaluator → Prop :=
  Relation.ReflTransGen fun m m' => m.step = some m'

/-- Each of the pieces that wait has a higher rank than the one it waits for, and goes on as it
should when that one has left the counter as it was. -/
def Waits : Begun → List Waiting → Prop
  | _, [] => True
  | b, w :: ws =>
    b.rank < w.rank ∧ (∀ r, (w.resume r).Settled w.toBegun b.entry) ∧ Waits w.toBegun ws

/-- The counter is within its bound, and every script that has begun goes on as it should. -/
structure Sound (m : Evaluator) : Prop where
  bound : m.depth ≤ maxCalls
  settled : m.script.Settled m.begun m.depth
  waits : Waits m.begun m.waiting

theorem sound_start (j : Job) : (start j).Sound := ⟨Nat.zero_le _, j.settled 0, trivial⟩

/-- Every step keeps the evaluator sound. -/
theorem Sound.step {m m' : Evaluator} (h : m.Sound) (hs : m.step = some m') : m'.Sound := by
  obtain ⟨depth, begun, script, waiting⟩ := m
  obtain ⟨hb, hset, hw⟩ := h
  cases script with
  | done r =>
    cases waiting with
    | nil => cases hs
    | cons w ws =>
      cases hs
      obtain ⟨-, hr, hws⟩ := hw
      obtain rfl : depth = begun.entry := hset
      exact ⟨hb, hr r, hws⟩
  | read k => cases hs; exact ⟨hb, hset, hw⟩
  | write d k => cases hs; exact ⟨hset.1, hset.2, hw⟩
  | ask j k => cases hs; exact ⟨hb, j.settled depth, hset.1, hset.2, hw⟩

theorem Sound.reaches {m m' : Evaluator} (h : m.Sound) (hr : m.Reaches m') : m'.Sound := by
  induction hr with
  | refl => exact h
  | tail _ hs ih => exact ih.step hs

/-- A script that keeps to its rank is at its end after some steps, and what waits still waits: by
induction on the rank, and inside it on the script. -/
theorem reaches_done {b : Begun} {s : Script} {c : Nat} (ws : List Waiting) (hs : s.Settled b c) :
    Reaches ⟨c, b, s, ws⟩ ⟨b.entry, b, .done (s.outcome c), ws⟩ := by
  induction hrank : b.rank using WellFoundedLT.induction generalizing b s c ws with
  | ind x ihx =>
    subst hrank
    induction s generalizing c with
    | done r => obtain rfl : c = b.entry := hs; exact .refl
    | read k ih => exact .head rfl (ih c hs)
    | write d k ih => exact .head rfl (ih hs.2)
    | ask j k ih =>
      have hj : Reaches ⟨c, ⟨j, c⟩, j.script, ⟨b, k⟩ :: ws⟩
          ⟨c, ⟨j, c⟩, .done (j.answer (maxCalls - c)), ⟨b, k⟩ :: ws⟩ := by
        have h := ihx _ hs.1 (⟨b, k⟩ :: ws) (j.settled c) rfl
        rwa [j.outcome_script] at h
      exact .head rfl (hj.trans (.head rfl (ih _ (hs.2 _))))

/-- The ranks of the pieces that have begun grow from the innermost outwards. -/
theorem Waits.isChain {b : Begun} {ws : List Waiting} (h : Waits b ws) :
    (b :: ws.map Waiting.toBegun).IsChain (·.rank < ·.rank) := by
  induction ws generalizing b with
  | nil => exact .singleton b
  | cons w ws ih => exact .cons_cons h.1 (ih h.2.2)

/-- Every evaluation and every call ends, with the result that `evalIn` and `Value.call` give it for
64 calls inside each other, and with the counter back at zero. All the way the counter is at most
64, a piece of work begun inside another one has a lower rank, and each piece that has begun ends
and then leaves the counter as it was when it began. -/
theorem ends_within_depth (j : Job) :
    (start j).Reaches ⟨0, ⟨j, 0⟩, .done (j.answer maxCalls), []⟩ ∧
    step ⟨0, ⟨j, 0⟩, .done (j.answer maxCalls), []⟩ = none ∧
    ∀ m, (start j).Reaches m →
      m.depth ≤ maxCalls ∧
      (m.begun :: m.waiting.map Waiting.toBegun).IsChain (·.rank < ·.rank) ∧
      (∃ r, m.Reaches ⟨m.begun.entry, m.begun, .done r, m.waiting⟩) ∧
      ∀ r, m.script = .done r → m.depth = m.begun.entry := by
  refine ⟨?_, rfl, fun m hm => ?_⟩
  · have h := reaches_done [] (j.settled 0)
    rwa [j.outcome_script] at h
  · obtain ⟨hbound, hset, hwaits⟩ := (sound_start j).reaches hm
    refine ⟨hbound, hwaits.isChain, ⟨_, reaches_done m.waiting hset⟩, fun r hr => ?_⟩
    rw [hr] at hset
    exact hset

/-- A function that applies what it gets to itself, as `f => f(f)` writes it. -/
def applySelf : Expr := .lambda ["f"] none (.call (.ident "f") [.ident "f"])

theorem call_applySelf (room : Nat) (here origin origin' : Address) :
    (Value.closure origin ["f"] none (.call (.ident "f") [.ident "f"]) []).call room here
      [.closure origin' ["f"] none (.call (.ident "f") [.ident "f"]) []] = .error .callDepth := by
  induction room generalizing here origin with
  | zero => rfl
  | succ room ih => exact ih (1 :: here) origin'

/-- `(f => f(f))(f => f(f))` is stopped. -/
theorem applySelf_stops :
    (start (.eval [0] [] (.call applySelf [applySelf]))).Reaches
      ⟨0, ⟨.eval [0] [] (.call applySelf [applySelf]), 0⟩, .done (.error .callDepth), []⟩ := by
  have hanswer (room : Nat) : (Job.eval [0] [] (.call applySelf [applySelf])).answer room =
      .error .callDepth := call_applySelf room [1, 0] [0, 0] [2, 0]
  rw [← hanswer maxCalls]
  exact (ends_within_depth _).1

end Evaluator

end CommandChain
