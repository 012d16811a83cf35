/-
How bad a finding is.
-/
namespace EvlCheck

/-- Errors make a program wrong; warnings do not. -/
inductive Severity where
  | error
  | warning
  deriving Repr, DecidableEq, Inhabited

def Severity.text : Severity → String
  | .error => "error"
  | .warning => "warning"

end EvlCheck
