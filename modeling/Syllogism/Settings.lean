import Syllogism.Policy

/-! Settings of the prover. -/
namespace Syllogism

structure PolicyChoice where
  partialFunction : Relation := .subsumes
  anti : Relation := .complement
  deriving DecidableEq

structure Settings where
  /-- The number of rounds after which a query is given up. -/
  maxRounds : Option Nat := none
  /-- Whether a round ends as soon as the target is derived. -/
  stopOnTarget : Bool := true
  logLevel : String := "info"
  policies : PolicyChoice := {}
  deriving DecidableEq

inductive SettingsFault
  | noRounds
  | unknownLevel (level : String)
  | unreadable
  deriving DecidableEq

namespace Settings

def logLevels : List String := ["trace", "debug", "info", "warn", "error"]

def validate (s : Settings) : Except SettingsFault Unit :=
  if s.maxRounds = some 0 then .error .noRounds
  else if logLevels.contains s.logLevel then .ok ()
  else .error (.unknownLevel s.logLevel)

def policyTable (s : Settings) : PolicyTable :=
  .ofRelations s.policies.partialFunction s.policies.anti

/-- Whether a query that has run `rounds` rounds may not run another one. -/
def limitReached (s : Settings) (rounds : Nat) : Bool :=
  match s.maxRounds with
  | some limit => limit ≤ rounds
  | none => false

end Settings

def SettingsFault.message : SettingsFault → String
  | noRounds => "Configuration error: max_rounds must be at least 1"
  | unknownLevel level =>
    "Configuration error: invalid log_level '" ++ level ++ "', expected one of [" ++
      String.intercalate ", " (Settings.logLevels.map fun l => "\"" ++ l ++ "\"") ++ "]"
  | unreadable => "Configuration error: not a configuration"

end Syllogism
