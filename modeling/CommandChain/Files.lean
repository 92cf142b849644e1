import CommandChain.Text.Split
import CommandChain.Text.Utf8

/-!
# Files

A tree of files and directories, as far as a run can see it. A path in the tree is the list of the
names that lead from the root to a place. A written path is walked name by name: an empty name and
`.` stay, `..` goes up, and every name but the last has to lead to a directory. -/

namespace CommandChain

/-- Why a path leads nowhere or not to what is wanted. -/
inductive FileFault where
  | missing
  | notADirectory
  | aDirectory
  | forbidden
  | notAProgram
deriving Repr, DecidableEq

/-- The wording of a fault, and its number. -/
def FileFault.message : FileFault → String
  | .missing => "No such file or directory (os error 2)"
  | .notADirectory => "Not a directory (os error 20)"
  | .aDirectory => "Is a directory (os error 21)"
  | .forbidden => "Permission denied (os error 13)"
  | .notAProgram => "Exec format error (os error 8)"

/-- What stands at a place of the tree. -/
inductive FileEntry where
  | file (content : List UInt8) (isExecutable : Bool)
  | directory
deriving Repr, DecidableEq

/-- The names that lead from the root to a place. -/
abbrev Path := List String

/-- The path as it is written, from the root. -/
def Path.text (p : Path) : String := "/" ++ String.intercalate "/" p

/-- The tree, without its root. -/
structure Files where
  entries : List (Path × FileEntry)
deriving Inhabited

namespace Files

/-- A tree of a few directories only. -/
def base : Files :=
  ⟨[["tmp"], ["dev"], ["etc"], ["home"], ["root"], ["usr"], ["var"]].map fun p =>
    (p, .directory)⟩

/-- The place that takes what is written to it and is always empty. -/
def null : Path := ["dev", "null"]

/-- What stands at a place. -/
def find? (fs : Files) : Path → Option FileEntry
  | [] => some .directory
  | p => if p = null then some (.file [] false) else fs.entries.lookup p

/-- There is a directory at a place. -/
def isDirectory (fs : Files) (p : Path) : Bool := fs.find? p == some .directory

/-- Put a file or directory at a place. -/
def put (fs : Files) (p : Path) (e : FileEntry) : Files :=
  if p = null then fs else ⟨(p, e) :: fs.entries.filter (·.1 != p)⟩

/-- Put a file at a place, and directories where its path needs them. -/
def putDeep (fs : Files) (p : Path) (e : FileEntry) : Files :=
  ((List.range p.length).foldl (fun fs n =>
    if fs.isDirectory (p.take n) then fs else fs.put (p.take n) .directory) fs).put p e

/-! ### Written paths -/

/-- Walk the names of a path from a place. The last name need not lead anywhere. -/
def walk (fs : Files) (place : Path) : List String → Except FileFault Path
  | [] => .ok place
  | name :: names =>
    match fs.find? place with
    | none => .error .missing
    | some (.file ..) => .error .notADirectory
    | some .directory =>
      if name == "" || name == "." then fs.walk place names
      else if name == ".." then fs.walk place.dropLast names
      else fs.walk (place ++ [name]) names

/-- A written path begins at the root. -/
def isAbsolute (t : String) : Bool := t.toList.head? == some '/'

/-- The place that a written path names, for one who stands in the directory `here`. -/
def locate (fs : Files) (here t : String) : Except FileFault Path := do
  if t.isEmpty then throw .missing
  let start ← if isAbsolute t then pure [] else fs.walk [] (Text.fieldsText '/' here)
  fs.walk start (Text.fieldsText '/' t)

/-- What a written path names. -/
def open? (fs : Files) (here t : String) : Except FileFault (Path × FileEntry) := do
  let p ← fs.locate here t
  match fs.find? p with
  | some e => return (p, e)
  | none => throw .missing

/-- The file that a written path names, if it names one. -/
def file? (fs : Files) (here t : String) : Option (Path × List UInt8) :=
  match fs.open? here t with
  | .ok (p, .file content _) => some (p, content)
  | _ => none

/-- The content of a file. -/
def read (fs : Files) (here t : String) : Except FileFault (List UInt8) := do
  match ← fs.open? here t with
  | (_, .file content _) => return content
  | (_, .directory) => throw .aDirectory

/-- The directory that a written path names. -/
def directory (fs : Files) (here t : String) : Except FileFault Path := do
  match ← fs.open? here t with
  | (p, .directory) => return p
  | (_, .file ..) => throw .notADirectory

/-- A written path below a written directory. -/
def join (dir name : String) : String :=
  if isAbsolute name || dir.isEmpty then name
  else if dir.toList.getLast? == some '/' then dir ++ name
  else dir ++ "/" ++ name

end Files

end CommandChain
