import Syllogism.Rule

/-! The ways in which proving can go wrong, and their wording. -/
namespace Syllogism

inductive Error
  | malformedRule (rule : String) (fault : RuleFault)
  | duplicateRule (rule : String)
  | unknownVariable (name : Variable)
  | unknownRule (rule : String)
  | roundLimitExceeded (rounds : Nat)
  | invalidProof (report : String)
  deriving DecidableEq

def Error.message : Error → String
  | malformedRule r f => "Malformed rule '" ++ r ++ "': " ++ f.message
  | duplicateRule r => "Duplicate rule: " ++ r
  | unknownVariable v => "Unknown variable: " ++ v
  | unknownRule r => "Unknown rule: " ++ r
  | roundLimitExceeded n => "Round limit exceeded after " ++ toString n ++ " rounds"
  | invalidProof report => "Proof invalid: " ++ report

end Syllogism
