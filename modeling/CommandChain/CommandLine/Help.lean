import CommandChain.CommandLine.Arguments

/-!
# Help

What the program says about itself, about one of its commands, and about arguments that it cannot
use. -/

namespace CommandChain.CommandLine

/-- The usage of the program or of a command. -/
def Topic.usage : Topic → String
  | .program => "Usage: chimera [OPTIONS] <COMMAND>"
  | .run => "Usage: chimera run [OPTIONS] <CHAIN> [ARGS]..."
  | .normalize => "Usage: chimera normalize [OPTIONS] <CHAIN>"
  | .help => "Usage: chimera help [COMMAND]..."

/-- The lines of a help text above and below the usage. -/
def Topic.lines : Topic → List String × List String
  | .program =>
    (["Chimera - run declarative command chains"],
      ["Commands:",
        "  run        Run a chain file or an inline chain definition",
        "  normalize  Print the normalized form of a chain as JSON",
        "  help       Print this message or the help of the given subcommand(s)",
        "",
        "Options:",
        "      --config <CONFIG>  Path to config file (overrides default search)",
        "  -h, --help             Print help"])
  | .run =>
    (["Run a chain file or an inline chain definition"],
      ["Arguments:",
        "  <CHAIN>    Chain file, directory ending in '/' followed by a file name, " ++
          "or inline definition",
        "  [ARGS]...  Positional arguments bound to the chain's ins",
        "",
        "Options:",
        "      --config <CONFIG>  Path to config file (overrides default search)",
        "      --var <KEY=VALUE>  Preset variable (repeatable), e.g. --var name=world",
        "  -v, --verbose          Log every step at info level",
        "  -h, --help             Print help"])
  | .normalize =>
    (["Print the normalized form of a chain as JSON"],
      ["Arguments:",
        "  <CHAIN>  Chain file or inline chain definition",
        "",
        "Options:",
        "      --config <CONFIG>  Path to config file (overrides default search)",
        "  -h, --help             Print help"])
  | .help =>
    (["Print this message or the help of the given subcommand(s)"],
      ["Arguments:", "  [COMMAND]...  Print help for the subcommand(s)"])

/-- A help text. -/
def Topic.text (t : Topic) : String :=
  String.intercalate "\n" (t.lines.1 ++ ["", t.usage, ""] ++ t.lines.2) ++ "\n"

/-- The complaint about a misuse. -/
def Misuse.text (m : Misuse) : String :=
  String.intercalate "\n"
    ["error: " ++ m.message, "", Topic.program.usage, "",
      "For more information, try '--help'."] ++ "\n"

end CommandChain.CommandLine
