import Syllogism.Json.Tagged
import Syllogism.Statement

/-! Facts and patterns as JSON: lists of a quantifier and two names. -/
namespace Syllogism

open Json

namespace Quantifier

def variants : List (String × Quantifier) := [("all", universal), ("some", particular)]

def toJson (q : Quantifier) : Value := .text q.word

def read (v : Node) : Read Quantifier := v.asVariant variants

end Quantifier

structure StatementParts where
  quantifier : Option Quantifier := none
  subject : Option String := none
  object : Option String := none

namespace StatementParts

/-- The three parts in order, read by the given readers. -/
def fields {ι : Type} (quantifier : ι → Read Quantifier) (name : ι → Read String) :
    List (Field ι StatementParts) :=
  [⟨"0", (·.quantifier.isSome), fun r v => (quantifier v).map fun q => { r with quantifier := q }⟩,
   ⟨"1", (·.subject.isSome), fun r v => (name v).map fun s => { r with subject := s }⟩,
   ⟨"2", (·.object.isSome), fun r v => (name v).map fun s => { r with object := s }⟩]

def finish {α : Type} (make : Quantifier → String → String → α) (r : StatementParts) :
    Except (Nat × String) α := do
  return make (← demand 0 "0" r.quantifier) (← demand 1 "1" r.subject) (← demand 2 "2" r.object)

end StatementParts

namespace Fact

def toJson (f : Fact) : Value := .list [f.quantifier.toJson, .text f.subject, .text f.object]

def shape {ι : Type} (quantifier : ι → Read Quantifier) (name : ι → Read String) :
    Shape ι StatementParts Fact :=
  ⟨"tuple struct FactRepr", {}, StatementParts.fields quantifier name, StatementParts.finish .mk⟩

def read (v : Node) : Read Fact := (shape Quantifier.read Node.asText).readList v

def ofPlain (v : Value) : Read Fact :=
  (shape (Value.asVariant Quantifier.variants) Value.asText).readPlainList v

end Fact

namespace Pattern

def toJson (p : Pattern) : Value := .list [p.quantifier.toJson, .text p.subject, .text p.object]

def shape : Shape Node StatementParts Pattern :=
  ⟨"tuple struct PatternRepr", {}, StatementParts.fields Quantifier.read Node.asText,
    StatementParts.finish .mk⟩

def read (v : Node) : Read Pattern := shape.readList v

end Pattern

end Syllogism
