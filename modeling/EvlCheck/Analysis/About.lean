/-
What the analyzer tells about itself: its stages, its language, and the limits and the configuration
it was built with.
-/
import EvlCheck.Analysis.Source
import EvlCheck.Limits.Build

namespace EvlCheck.About

variable [Build]

def version : String := "0.1.0"

/-- Where the limits come from. -/
def configSource : String := s!"Generated from {Build.configFolder}/{Build.profile}.toml"

/-- The name under which editors know the language. -/
def languageId : String := "evl"

def stages : List String := ["lex", "parse", "validate"]

/-- The lines of the self-description. -/
def lines : List String :=
  [ "EVAL Analysis Pipeline:",
    "- Stages: " ++ " -> ".intercalate stages,
    s!"- Language: {languageId} (.{Source.sourceExtension})",
    s!"- Max Source Size: {Limit.sourceBytes / 1024} KB",
    s!"- Max Parse Depth: {Limit.parseDepth}",
    s!"- Max Semantic Diagnostics: {Limit.semanticDiagnostics}",
    s!"- Max Code Actions: {Limit.actions}",
    s!"- Configuration: {configSource}" ]

def text : String := "\n".intercalate lines

end EvlCheck.About
