import Syllogism.Encoding.Fact
import Syllogism.Instant.Text
import Syllogism.Proof

/-! Origins, inferences and proofs as JSON. -/
namespace Syllogism

open Json

/-- The three kinds of origin, which are also those of justification. -/
inductive OriginKind
  | given
  | axiomatic
  | inferred
  deriving DecidableEq

namespace OriginKind

def variants : List (String × OriginKind) :=
  [("given", given), ("axiom", axiomatic), ("rule", inferred)]

end OriginKind

structure ApplicationParts (α : Type) where
  rule : Option String := none
  premises : Option (List α) := none

namespace ApplicationParts

variable {α : Type}

def ruleField : Field Value (ApplicationParts α) :=
  ⟨"rule", (·.rule.isSome), fun r v => v.asText.map fun s => { r with rule := s }⟩

def premisesField (premise : Value → Read α) : Field Value (ApplicationParts α) :=
  ⟨"premises", (·.premises.isSome),
    fun r v => (v.asList premise).map fun ps => { r with premises := ps }⟩

def axiomShape (title : String) : Shape Value (ApplicationParts Unit) String :=
  ⟨title, {}, [ruleField], fun r => demand 0 "rule" r.rule⟩

def inferenceShape (title : String) (premise : Value → Read α) :
    Shape Value (ApplicationParts α) (String × List α) :=
  ⟨title, {}, [ruleField, premisesField premise], fun r => do
    return (← demand 0 "rule" r.rule, ← demand 1 "premises" r.premises)⟩

end ApplicationParts

/-- A given fact has nothing besides its tag; whatever else an object holds is passed over. -/
def readNothing (v : Value) : Read Unit :=
  match v with
  | .list items => Value.noMore 0 items
  | _ => .ok ()

namespace Origin

def toJson : Origin → Value
  | given => .object [("kind", .text "given")]
  | axiomatic rule => .object [("kind", .text "axiom"), ("rule", .text rule)]
  | inferred rule premises =>
    .object [("kind", .text "rule"), ("rule", .text rule),
      ("premises", .list (premises.map Fact.toJson))]

/-- Reads an origin inside which `room` containers may be nested. -/
def readIn (room : Nat) (v : Node) : Read Origin := do
  let (kind, content) ← v.asTagged "internally tagged enum Derivation" OriginKind.variants room
  match kind with
  | .given => (readNothing content).map fun _ => .given
  | .axiomatic =>
    ((ApplicationParts.axiomShape "struct variant Derivation::Axiom").readPlain content).map
      .axiomatic
  | .inferred =>
    ((ApplicationParts.inferenceShape "struct variant Derivation::Rule" Fact.ofPlain).readPlain
      content).map fun (rule, premises) => .inferred rule premises

def read (v : Node) : Read Origin := readIn maxDepth v

end Origin

namespace Justification

def toJson : Justification → Value
  | given => .object [("kind", .text "given")]
  | axiomatic rule => .object [("kind", .text "axiom"), ("rule", .text rule)]
  | inferred rule premises =>
    .object [("kind", .text "rule"), ("rule", .text rule),
      ("premises", .list (premises.map Value.natural))]

def readIn (room : Nat) (v : Node) : Read Justification := do
  let (kind, content) ← v.asTagged "internally tagged enum Justification" OriginKind.variants room
  match kind with
  | .given => (readNothing content).map fun _ => .given
  | .axiomatic =>
    ((ApplicationParts.axiomShape "struct variant Justification::Axiom").readPlain content).map
      .axiomatic
  | .inferred =>
    ((ApplicationParts.inferenceShape "struct variant Justification::Rule"
      Value.asNatural).readPlain content).map fun (rule, premises) => .inferred rule premises

def read (v : Node) : Read Justification := readIn maxDepth v

end Justification

structure InferenceParts where
  fact : Option Fact := none
  rule : Option String := none
  premises : Option (List Fact) := none

namespace Inference

def toJson (i : Inference) : Value :=
  .object [("fact", i.fact.toJson), ("rule", .text i.rule),
    ("premises", .list (i.premises.map Fact.toJson))]

def shape : Shape Node InferenceParts Inference where
  title := "struct DerivationRecord"
  blank := {}
  fields :=
    [⟨"fact", (·.fact.isSome), fun r v => (Fact.read v).map fun f => { r with fact := f }⟩,
     ⟨"rule", (·.rule.isSome), fun r v => v.asText.map fun s => { r with rule := s }⟩,
     ⟨"premises", (·.premises.isSome),
       fun r v => (v.asList Fact.read).map fun fs => { r with premises := fs }⟩]
  finish r := do
    return ⟨← demand 0 "fact" r.fact, ← demand 1 "rule" r.rule, ← demand 2 "premises" r.premises⟩

def read (v : Node) : Read Inference := shape.read v

end Inference

structure LineParts where
  number : Option Nat := none
  fact : Option Fact := none
  justification : Option Justification := none

namespace Line

def toJson (l : Line) : Value :=
  .object [("number", .natural l.number), ("fact", l.fact.toJson),
    ("justification", l.justification.toJson)]

/-- A line inside which `room` containers may be nested. -/
def shape (room : Nat) : Shape Node LineParts Line where
  title := "struct ProofStep"
  blank := {}
  fields :=
    [⟨"number", (·.number.isSome), fun r v => v.asNatural.map fun n => { r with number := n }⟩,
     ⟨"fact", (·.fact.isSome), fun r v => (Fact.read v).map fun f => { r with fact := f }⟩,
     ⟨"justification", (·.justification.isSome),
       fun r v => (Justification.readIn (room - 1) v).map fun j => { r with justification := j }⟩]
  finish r := do
    return ⟨← demand 0 "number" r.number, ← demand 1 "fact" r.fact,
      ← demand 2 "justification" r.justification⟩

def readIn (room : Nat) (v : Node) : Read Line := (shape room).read v

def read (v : Node) : Read Line := readIn maxDepth v

end Line

namespace Instant

def toJson (t : Instant) : Value := .text t.render

def read (v : Node) : Read Instant :=
  match v with
  | .text t => do
    match ofString (← Text.read t) with
    | .ok t => .ok t
    | .error e => failData (.refused e.message)
  | v => v.unexpected "an RFC 3339 formatted date and time string"

end Instant

structure ProofParts where
  target : Option Fact := none
  steps : Option (List Line) := none
  rounds : Option Nat := none
  generatedAt : Option Instant := none

namespace Proof

def toJson (p : Proof) : Value :=
  .object [("target", p.target.toJson), ("steps", .list (p.steps.map Line.toJson)),
    ("rounds", .natural p.rounds), ("generated_at", p.generatedAt.toJson)]

def shape : Shape Node ProofParts Proof where
  title := "struct Proof"
  blank := {}
  fields :=
    [⟨"target", (·.target.isSome), fun r v => (Fact.read v).map fun f => { r with target := f }⟩,
     ⟨"steps", (·.steps.isSome),
       fun r v => (v.asList (Line.readIn (maxDepth - 2))).map fun ls => { r with steps := ls }⟩,
     ⟨"rounds", (·.rounds.isSome), fun r v => v.asNatural.map fun n => { r with rounds := n }⟩,
     ⟨"generated_at", (·.generatedAt.isSome),
       fun r v => (Instant.read v).map fun t => { r with generatedAt := t }⟩]
  finish r := do
    return ⟨← demand 0 "target" r.target, ← demand 1 "steps" r.steps, ← demand 2 "rounds" r.rounds,
      ← demand 3 "generated_at" r.generatedAt⟩

def read (v : Node) : Read Proof := shape.read v

def renderJson (p : Proof) : String := p.toJson.renderPretty

end Proof

end Syllogism
