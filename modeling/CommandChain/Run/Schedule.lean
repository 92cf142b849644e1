import CommandChain.Run.Task
import CommandChain.Step.Dispatch

/-!
# Running a task

A run makes one step after another. The leftmost part of the task that waits for nothing comes
first; when all parts wait, the one whose program ends first goes on. An expression or a registered
function answers at once, so its leaf does not wait.

A loop may go on for ever, so `steps` bounds the number of steps. -/

namespace CommandChain

/-- An answer on its way to a leaf that waits for it. -/
structure Pending where
  route : Route
  /-- The time of its arrival, in nanoseconds from the beginning of the run. -/
  due : Nat
  answer : Answer

/-- A run in the middle: what is left to do, the store and the files as they are, the time, the
answers that are on their way, and what was made known so far, the last first. -/
structure Running where
  task : Task
  store : Store
  files : Files
  now : Nat := 0
  pending : List Pending := []
  events : List Event := []

namespace Running

/-- The answer that arrives first; of several, the one that was asked for first. -/
def firstPending? : List Pending → Option Pending
  | [] => none
  | p :: ps =>
    match firstPending? ps with
    | some q => some (if q.due < p.due then q else p)
    | none => some p

/-- A step was made: the run goes on or fails. -/
def moved (r : Running) (m : Moved) : Except (RunError × Running) Running :=
  let r := { r with store := m.store, events := m.events.reverse ++ r.events }
  match m.task with
  | .ok t => .ok { r with task := t }
  | .error e => .error (e, r)

/-- The leaf at the end of a route gets its answer. -/
def deliver (r : Running) (route : Route) (answer : Answer) : Except (RunError × Running) Running :=
  match r.task.step answer r.store route with
  | some m => r.moved m
  | none => .ok r

/-- A leaf that was started asks for its answer. -/
def ask (w : Workshop) (r : Running) (route : Route) (command : String) (params : List Json) :
    Except (RunError × Running) Running :=
  let reply := w.dispatch r.files command params
  let r := { r with files := reply.files }
  match reply.duration with
  | none => r.deliver route reply.answer
  | some d => .ok { r with pending := r.pending ++ [⟨route, r.now + d, reply.answer⟩] }

/-- The part at the end of a route makes a step that needs no answer. -/
def goOn (w : Workshop) (r : Running) (route : Route) : Except (RunError × Running) Running :=
  match r.task.step (.failed "") r.store route with
  | none => .ok r
  | some m =>
    match r.moved m, m.events with
    | .ok r, [.started command params] => r.ask w route command params
    | next, _ => next

/-- The answer that arrives first is delivered; nothing if none is on its way. -/
def wait (r : Running) : Option (Except (RunError × Running) Running) :=
  (firstPending? r.pending).map fun p =>
    let pending := r.pending.filter fun q => q.route != p.route
    deliver { r with now := p.due, pending } p.route p.answer

/-- Run to the end, in at most `steps` steps. -/
def run (w : Workshop) : Nat → Running → Option (Except (RunError × Running) Running)
  | 0, _ => none
  | steps + 1, r =>
    match r.task.ready? with
    | some route =>
      match r.goOn w route with
      | .ok r => run w steps r
      | .error e => some (.error e)
    | none =>
      match r.wait with
      | some (.ok r) => run w steps r
      | some (.error e) => some (.error e)
      | none => some (.ok r)

end Running

end CommandChain
