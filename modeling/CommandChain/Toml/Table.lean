import CommandChain.Members
import CommandChain.Toml.Scalar

/-!
# Tables under construction

A document fills its tables piece by piece. A table is named by a header, written by dotted keys, or
only implied by the header of a table inside it, and each table may be named or written once. Tables
in a list are opened one after the other; only the last of them is still filled. -/

namespace CommandChain.Toml

/-- How a table has come about. -/
inductive Origin where
  | implied
  | dotted
  | named
deriving Repr, DecidableEq

/-- What stands under a key. -/
inductive Entry where
  | value (v : Toml)
  | table (origin : Origin) (entries : List (String × Entry))
  /-- A list of tables: the last one and the earlier ones. -/
  | tables (last : List (String × Entry)) (earlier : List (List (String × Entry)))

/-- The entries of a table. -/
abbrev Entries := Members Entry

namespace Entries

/-- Change what stands at the end of a path of headers. Tables that are missing on the way are
implied. -/
def change? (f : Option Entry → Option Entry) : List String → Entries → Option Entries
  | [], _ => none
  | [key], es => (f (Members.get? key es)).map fun e => Members.insert key e es
  | key :: path, es =>
    let e :=
      match Members.get? key es with
      | none => (change? f path []).map (Entry.table .implied)
      | some (.value _) => none
      | some (.table origin inner) => (change? f path inner).map (Entry.table origin)
      | some (.tables last earlier) => (change? f path last).map (Entry.tables · earlier)
    e.map fun e => Members.insert key e es

/-- Put a value under a dotted key that was not used before. The tables on the way are made, or were
made by such keys; the last of them may be filled directly if it is `isOpen`. -/
def assign? (v : Toml) (isOpen : Bool) : List String → Entries → Option Entries
  | [], _ => none
  | [key], es =>
    if isOpen && !Members.contains key es then some (Members.insert key (.value v) es) else none
  | key :: path, es =>
    let e :=
      match Members.get? key es with
      | none => (assign? v true path []).map (Entry.table .dotted)
      | some (.value _) => none
      | some (.table .implied inner) => (assign? v false path inner).map (Entry.table .implied)
      | some (.table .dotted inner) => (assign? v true path inner).map (Entry.table .dotted)
      | some (.table .named _) => none
      | some (.tables last earlier) => (assign? v false path last).map (Entry.tables · earlier)
    e.map fun e => Members.insert key e es

/-- Name a table by its header. -/
def openTable? : List String → Entries → Option Entries :=
  change? fun e =>
    match e with
    | none => some (.table .named [])
    | some (.table .implied inner) => some (.table .named inner)
    | _ => none

/-- Open one more table in a list. -/
def openItem? : List String → Entries → Option Entries :=
  change? fun e =>
    match e with
    | none => some (.tables [] [])
    | some (.tables last earlier) => some (.tables [] (earlier ++ [last]))
    | _ => none

/-- Put a value under a dotted key into the table of a header. -/
def assignIn? (header key : List String) (v : Toml) (es : Entries) : Option Entries :=
  if header.isEmpty then assign? v true key es
  else
    change? (fun e =>
      match e with
      | some (.table origin inner) => (assign? v true key inner).map (Entry.table origin)
      | some (.tables last earlier) => (assign? v true key last).map (Entry.tables · earlier)
      | _ => none) header es

end Entries

/-! ### The finished value -/

mutual

/-- The value of an entry. -/
def Entry.finish : Entry → Toml
  | .value v => v
  | .table _ es => .table (Entry.finishMembers es)
  | .tables last earlier =>
    .array (Entry.finishItems earlier ++ [.table (Entry.finishMembers last)])

/-- The members of a table. -/
def Entry.finishMembers : List (String × Entry) → List (String × Toml)
  | [] => []
  | (key, e) :: es => (key, e.finish) :: Entry.finishMembers es

/-- The tables of a list. -/
def Entry.finishItems : List (List (String × Entry)) → List Toml
  | [] => []
  | es :: more => .table (Entry.finishMembers es) :: Entry.finishItems more

end

/-- The table that some assignments fill. -/
def ofAssignments? (fields : List (List String × Toml)) : Option Toml :=
  (fields.foldlM (fun es f => Entries.assign? f.2 true f.1 es) []).map fun es =>
    .table (Entry.finishMembers es)

end CommandChain.Toml
