import Syllogism.Catalogue
import Syllogism.Encoding.Fact

/-! Rules and catalogues as JSON. An empty description is left out. -/
namespace Syllogism

open Json

namespace Policy

def toJson (p : Policy) : Value := .text p.key

def read (v : Node) : Read Policy := v.asVariant (all.map fun p => (p.key, p))

end Policy

/-- The member for a description, if there is anything to say. -/
def describe (text : String) : List (String × Value) :=
  if text = "" then [] else [("description", .text text)]

structure RuleParts where
  name : Option String := none
  description : Option String := none
  policy : Option Policy := none
  premises : Option (List Pattern) := none
  conclusion : Option Pattern := none

namespace Rule

def toJson (r : Rule) : Value :=
  .object ([("name", .text r.name)] ++ describe r.description ++
    [("policy", r.policy.toJson), ("premises", .list (r.premises.map Pattern.toJson)),
     ("conclusion", r.conclusion.toJson)])

def shape : Shape Node RuleParts Rule where
  title := "struct Rule"
  blank := {}
  fields :=
    [⟨"name", (·.name.isSome), fun r v => v.asText.map fun s => { r with name := s }⟩,
     ⟨"description", (·.description.isSome),
       fun r v => v.asText.map fun s => { r with description := s }⟩,
     ⟨"policy", (·.policy.isSome), fun r v => (Policy.read v).map fun p => { r with policy := p }⟩,
     ⟨"premises", (·.premises.isSome),
       fun r v => (v.asList Pattern.read).map fun ps => { r with premises := ps }⟩,
     ⟨"conclusion", (·.conclusion.isSome),
       fun r v => (Pattern.read v).map fun p => { r with conclusion := p }⟩]
  finish r := do
    let name ← demand 0 "name" r.name
    let conclusion ← demand 4 "conclusion" r.conclusion
    return ⟨name, r.description.getD "", r.policy.getD .strict, r.premises.getD [], conclusion⟩

/-- Reads a rule, well formed or not. -/
def read (v : Node) : Read Rule := shape.read v

end Rule

structure CatalogueParts where
  name : Option String := none
  description : Option String := none
  rules : Option (List Rule) := none

namespace Catalogue

def toJson (c : Catalogue) : Value :=
  .object ([("name", .text c.name)] ++ describe c.description ++
    [("rules", .list (c.rules.map Rule.toJson))])

def shape : Shape Node CatalogueParts (String × String × List Rule) where
  title := "struct RawRuleSet"
  blank := {}
  fields :=
    [⟨"name", (·.name.isSome), fun r v => v.asText.map fun s => { r with name := s }⟩,
     ⟨"description", (·.description.isSome),
       fun r v => v.asText.map fun s => { r with description := s }⟩,
     ⟨"rules", (·.rules.isSome),
       fun r v => (v.asList Rule.read).map fun rs => { r with rules := rs }⟩]
  finish r := do
    let name ← demand 0 "name" r.name
    return (name, r.description.getD "", r.rules.getD [])

/-- Reads a catalogue. Its rules are checked when all of it has been read. -/
def read (v : Node) : Read Catalogue := do
  let (name, description, rules) ← shape.read v
  match ofRules name rules with
  | .ok c => .ok { c with description }
  | .error e => failData (.refused e.message)

end Catalogue

end Syllogism
