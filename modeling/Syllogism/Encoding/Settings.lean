import Syllogism.Json.Reader
import Syllogism.Settings

/-! Settings as JSON. Every field may be left out. -/
namespace Syllogism

open Json

namespace Relation

def variants : List (String × Relation) := all.map fun r => (r.key, r)

def toJson (r : Relation) : Value := .text r.key

def read (v : Node) : Read Relation := v.asVariant variants

end Relation

structure PolicyChoiceParts where
  partialFunction : Option Relation := none
  anti : Option Relation := none

namespace PolicyChoice

def toJson (c : PolicyChoice) : Value :=
  .object [("partial_function", c.partialFunction.toJson), ("anti", c.anti.toJson)]

def ofParts (r : PolicyChoiceParts) : PolicyChoice :=
  { partialFunction := r.partialFunction.getD .subsumes, anti := r.anti.getD .complement }

def shape : Shape Node PolicyChoiceParts PolicyChoice where
  title := "struct PolicyConfig"
  blank := {}
  fields :=
    [⟨"partial_function", (·.partialFunction.isSome),
       fun r v => (Relation.read v).map fun x => { r with partialFunction := x }⟩,
     ⟨"anti", (·.anti.isSome), fun r v => (Relation.read v).map fun x => { r with anti := x }⟩]
  finish r := .ok (ofParts r)

def read (v : Node) : Read PolicyChoice := shape.read v

end PolicyChoice

structure SettingsParts where
  maxRounds : Option (Option Nat) := none
  stopOnTarget : Option Bool := none
  logLevel : Option String := none
  policies : Option PolicyChoice := none

namespace Settings

def toJson (s : Settings) : Value :=
  .object
    [("max_rounds", match s.maxRounds with | some n => .natural n | none => .null),
     ("stop_on_target", .truth s.stopOnTarget), ("log_level", .text s.logLevel),
     ("policies", s.policies.toJson)]

def ofParts (r : SettingsParts) : Settings :=
  { maxRounds := r.maxRounds.getD none
    stopOnTarget := r.stopOnTarget.getD true
    logLevel := r.logLevel.getD "info"
    policies := r.policies.getD {} }

def shape : Shape Node SettingsParts Settings where
  title := "struct EngineConfig"
  blank := {}
  fields :=
    [⟨"max_rounds", (·.maxRounds.isSome),
       fun r v => (v.asOption Node.asNatural).map fun n => { r with maxRounds := some n }⟩,
     ⟨"stop_on_target", (·.stopOnTarget.isSome),
       fun r v => v.asBool.map fun b => { r with stopOnTarget := b }⟩,
     ⟨"log_level", (·.logLevel.isSome), fun r v => v.asText.map fun s => { r with logLevel := s }⟩,
     ⟨"policies", (·.policies.isSome),
       fun r v => (PolicyChoice.read v).map fun c => { r with policies := c }⟩]
  finish r := .ok (ofParts r)

/-- Reads settings, acceptable or not. -/
def read (v : Node) : Read Settings := shape.read v

end Settings

end Syllogism
