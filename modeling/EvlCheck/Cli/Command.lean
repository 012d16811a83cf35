/-
The command line: what the arguments ask for. The first argument is the file to analyse, or a call
for help; the others are options.
-/
namespace EvlCheck.Cli

/-- What is asked for beside the findings. -/
structure Options where
  /-- The output is one JSON value. -/
  json : Bool := false
  /-- Fixes are listed. -/
  actions : Bool := false
  /-- The parse tree is shown. -/
  tree : Bool := false
  deriving Repr, DecidableEq

inductive Command where
  | usage
  | help
  /-- Analyse a file; `unknown` are the arguments that are no options. -/
  | check (path : String) (options : Options) (unknown : List String)
  deriving Repr, DecidableEq

/-- The options among arguments, and the arguments that are none. -/
def readOptions (args : List String) : Options × List String :=
  go args {} []
where
  /-- Goes on with the options and the other arguments so far, the latter reversed. -/
  go : List String → Options → List String → Options × List String
    | [], options, unknown => (options, unknown.reverse)
    | arg :: rest, options, unknown =>
      match arg with
      | "--json" => go rest { options with json := true } unknown
      | "--actions" => go rest { options with actions := true } unknown
      | "--tree" => go rest { options with tree := true } unknown
      | other => go rest options (other :: unknown)

def Command.ofArgs : List String → Command
  | [] => .usage
  | "--help" :: _ => .help
  | path :: rest =>
    let (options, unknown) := readOptions rest
    .check path options unknown

end EvlCheck.Cli
