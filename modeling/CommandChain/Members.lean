/-!
# Members of an object

An object holds its members in the order of their names, each name once. `insert` keeps that order
and replaces a member of the same name; `Sorted` says that the order holds. -/

namespace CommandChain

universe u v

/-- Named members. -/
abbrev Members (α : Type u) := List (String × α)

namespace Members

variable {α : Type u} {β : Type v}

/-- The member of a name. -/
def get? (key : String) : Members α → Option α
  | [] => none
  | (k, a) :: rest => if k = key then some a else get? key rest

/-- There is a member of the name. -/
def contains (key : String) (m : Members α) : Bool := (get? key m).isSome

/-- Add a member, in place of one with the same name. -/
def insert (key : String) (a : α) : Members α → Members α
  | [] => [(key, a)]
  | (k, b) :: rest =>
    if key < k then (key, a) :: (k, b) :: rest
    else if key = k then (key, a) :: rest
    else (k, b) :: insert key a rest

/-- The members in order, the last of each name. -/
def ofList (ms : List (String × α)) : Members α :=
  ms.foldl (fun acc m => insert m.1 m.2 acc) []

/-- Overlay: the members of `upper` win. -/
def overlay (m upper : Members α) : Members α := upper.foldl (fun acc p => insert p.1 p.2 acc) m

/-- The names stand in order, each once. -/
def Sorted (m : Members α) : Prop := m.Pairwise fun a b => a.1 < b.1

end Members

end CommandChain
