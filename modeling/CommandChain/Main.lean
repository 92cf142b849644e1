import CommandChain.CommandLine.Program

/-!
# The executable

Hands the arguments, the environment and the files that they may be about to the program, and prints
what comes of it. -/

namespace CommandChain.Main

/-- The names in the environment that are read. -/
def names : List String :=
  [Settings.fileVariable, "CHIMERA__RUNNER__SHELL", "CHIMERA__RUNNER__SHELL_FLAG",
    "CHIMERA__RUNNER__VERBOSE", "CHIMERA__CAPABILITIES__PLUGIN_PATHS",
    "CHIMERA__CAPABILITIES__DISCOVER_RELATIVE", "CHIMERA__LOGGING__FILTER"]

/-- The environment as far as it is read. -/
def readEnvironment : IO Environment :=
  names.foldlM (fun env name => do
    match ← IO.getEnv name with
    | some value => return Members.insert name value env
    | none => return env) []

/-- The place that a written path names where no name leads elsewhere. -/
def placeOf (written : String) : Path :=
  (Text.fieldsText '/' written).foldl (fun place name =>
    if name.isEmpty || name == "." then place
    else if name == ".." then place.dropLast
    else place ++ [name]) []

/-- Add the file of a written path, if there is one. -/
def addPath (home : String) (files : Files) (path : String) : IO Files := do
  let written := Files.join home path
  try
    return files.putDeep (placeOf written) (.file (← IO.FS.readBinFile written).toList false)
  catch _ =>
    return files

/-- The paths of the environment files of a directory and those above it. -/
def envFiles (home : String) : List String :=
  let place := placeOf home
  (List.range (place.length + 1)).map fun n => Path.text (place.take n ++ [".env"])

/-- The paths of the files with settings. -/
def settingsFiles (env : Environment) (arguments : List String) : List String :=
  let named :=
    match CommandLine.parse arguments with
    | .ok i => i.config
    | .error _ => none
  let paths := Settings.defaultFile ::
    (named.toList ++ (Members.get? Settings.fileVariable env).toList)
  paths ++ paths.map Settings.withEnding

/-- The paths that arguments may name: each of them, and every two of them joined. -/
def namedPaths : List String → List String
  | [] => []
  | [a] => [a]
  | a :: b :: as => a :: (a ++ b) :: namedPaths (b :: as)

/-- The files that the arguments and the settings may name. -/
def readFiles (home : String) (env : Environment) (arguments : List String) : IO Files :=
  (envFiles home ++ settingsFiles env arguments ++ namedPaths arguments).foldlM (addPath home)
    (Files.base.putDeep (placeOf home) .directory)

end CommandChain.Main

/-- Run the program. -/
def main (arguments : List String) : IO UInt32 := do
  let home := (← IO.currentDir).toString
  let env ← CommandChain.Main.readEnvironment
  let files ← CommandChain.Main.readFiles home env arguments
  let e := CommandChain.CommandLine.execute files env home arguments
  IO.print e.stdout
  IO.eprint e.stderr
  return UInt32.ofNat e.code
