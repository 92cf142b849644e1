import CommandChain.Chain.Node
import CommandChain.Condition
import CommandChain.Step.Answer
import CommandChain.Step.Kind

/-!
# Tasks

A task is what is left to do of a node that is being run. It changes in atomic steps: a guard or a
loop condition is checked, a leaf reads its parameters, or a leaf ends with the answer to its
command. Where nodes run side by side the steps of each may come in any order, and a route says
whose step comes next. `Task.step` makes one step; the first leaf that fails ends the whole run. -/

namespace CommandChain

/-- What is left to do of a node. -/
inductive Task where
  | done
  /-- The guard of a node is to be checked. -/
  | guard (n : Node)
  /-- A leaf is to read its parameters. -/
  | leaf (info : NodeInfo) (command : String)
  /-- A leaf waits for the answer to its command. -/
  | awaiting (info : NodeInfo) (command : String) (params : List Json)
  /-- The body of a node runs, after which its loop condition is checked. -/
  | loop (n : Node) (body : Task)
  /-- The first of some nodes runs, the others follow. -/
  | series (first : Task) (rest : List Node)
  | parallel (tasks : List Task)
deriving Repr, Inhabited

/-- The way to an active part of a task: its number among its siblings, wherever nodes run side by
side. -/
abbrev Route := List Nat

/-- What a step makes known. -/
inductive Event where
  | checked (condition : String) (result : Except Expr.Error Bool)
  | started (command : String) (params : List Json)
  /-- A leaf ended with an answer, which left the store as it is here. -/
  | ended (command : String) (params : List Json) (answer : Answer) (store : Store)

/-- What a step leads to. -/
structure Moved where
  task : Except RunError Task
  store : Store
  events : List Event

namespace Task

/-- Nothing is left to do. -/
def isDone : Task → Bool
  | .done => true
  | _ => false

/-- Go on with the next of some nodes if the first task is done. -/
def andThen (first : Task) (rest : List Node) : Task :=
  match first, rest with
  | .done, [] => .done
  | .done, n :: ns => .series (.guard n) ns
  | t, ns => .series t ns

/-- Tasks side by side are done when all of them are. -/
def sideBySide (ts : List Task) : Task := if ts.all isDone then .done else .parallel ts

/-- The body of a node, before its first step. -/
def ofBody : Node → Task
  | .leaf info command => .leaf info command
  | .group info children =>
    match info.mode with
    | .series => andThen .done children
    | .parallel => sideBySide (children.map .guard)

/-- The body of a node if a condition holds, and nothing otherwise. -/
def onCondition (condition : String) (n : Node) (s : Store) : Moved :=
  let result := Condition.check condition s
  { task := .ok (if Condition.holds condition s then .loop n (ofBody n) else .done)
    store := s
    events := [.checked condition result] }

/-- A leaf ends with an answer. Its value is stored, even that of a failure; a success ends the run
all the same if the error flag is up then. -/
def endLeaf (info : NodeInfo) (command : String) (params : List Json) (answer : Answer)
    (s : Store) : Moved :=
  match answer.result with
  | .error f =>
    let s :=
      match f.output with
      | some v => s.set info.out v
      | none => s
    { task := .error f.error, store := s, events := [.ended command params answer s] }
  | .ok v =>
    let s := s.set info.out v
    { task :=
        if s.errorRaised then .error (.raised (s.raisedMessage?.getD defaultMessage)) else .ok .done
      store := s
      events := [.ended command params answer s] }

end Task

/-- The same step as a part of a larger task. -/
def Moved.inside (f : Task → Task) (m : Moved) : Moved := { m with task := m.task.map f }

/-- One atomic step of the part at the end of a route; nothing if there is no active part. The
answer is used if that part waits for one. -/
def Task.step (answer : Answer) (s : Store) : Task → Route → Option Moved
  | .done, _ => none
  | .guard n, _ => some (onCondition n.info.guard n s)
  | .leaf info command, _ =>
    let params := Step.params info.ins s
    some { task := .ok (.awaiting info command params), store := s,
           events := [.started command params] }
  | .awaiting info command params, _ => some (endLeaf info command params answer s)
  | .loop n .done, _ => some (onCondition n.info.loop n s)
  | .loop n body, a => (body.step answer s a).map (·.inside (.loop n))
  | .series first rest, a => (first.step answer s a).map (·.inside (andThen · rest))
  | .parallel ts, i :: a =>
    (stepAt answer s a i ts).map fun (m : Except RunError (List Task) × Store × List Event) =>
      { task := m.1.map sideBySide, store := m.2.1, events := m.2.2 }
  | .parallel _, [] => none
where
  /-- One atomic step of one of several tasks. -/
  stepAt (answer : Answer) (s : Store) (a : Route) :
      Nat → List Task → Option (Except RunError (List Task) × Store × List Event)
    | _, [] => none
    | 0, t :: ts =>
      (t.step answer s a).map fun m => (m.task.map (· :: ts), m.store, m.events)
    | i + 1, t :: ts =>
      (stepAt answer s a i ts).map fun m => (m.1.map (t :: ·), m.2)

/-! ### What can be done -/

/-- The route to the leftmost part that waits for nothing. -/
def Task.ready? : Task → Option Route
  | .done | .awaiting .. => none
  | .guard _ | .leaf .. => some []
  | .loop _ .done => some []
  | .loop _ body => body.ready?
  | .series first _ => first.ready?
  | .parallel ts => readyIn 0 ts
where
  /-- The first of several tasks that waits for nothing. -/
  readyIn (i : Nat) : List Task → Option Route
    | [] => none
    | t :: ts =>
      match t.ready? with
      | some a => some (i :: a)
      | none => readyIn (i + 1) ts

end CommandChain
