import Syllogism.Encoding.Rule
import Syllogism.Engine
import Syllogism.Labels

/-! Problems: the universe with its labels, the given facts, the statement to be proved and, if the
standard rules will not do, a catalogue; and their form as JSON. -/
namespace Syllogism

open Json

structure Problem where
  /-- Variables with their labels, in the order of the universe. -/
  labels : Labels
  facts : List Fact := []
  target : Fact
  rules : Option Catalogue := none
  deriving DecidableEq

namespace Problem

/-- The database of the given facts. The target must lie in its universe as well. -/
def database (p : Problem) : Except Error Database := do
  let db ← Database.create (p.labels.entries.map (·.1)) p.facts
  db.check p.target
  return db

def catalogue (p : Problem) : Catalogue := p.rules.getD .syllogistic

end Problem

namespace Labels

def toJson (l : Labels) : Value := .object (l.entries.map fun e => (e.1, .text e.2))

/-- Reads labels. A variable that comes twice keeps its first place and its last label. -/
def read (v : Node) : Read Labels := v.asPairs.map ofList

end Labels

def Database.toJson (db : Database) : Value :=
  .object [("universe", .list (db.vars.map .text)), ("facts", .list (db.facts.map Fact.toJson))]

structure ProblemParts where
  labels : Option Labels := none
  facts : Option (List Fact) := none
  target : Option Fact := none
  rules : Option (Option Catalogue) := none

namespace Problem

def toJson (p : Problem) : Value :=
  .object ([("universe", p.labels.toJson), ("facts", .list (p.facts.map Fact.toJson)),
    ("target", p.target.toJson)] ++
    match p.rules with
    | some c => [("rules", c.toJson)]
    | none => [])

def shape : Shape Node ProblemParts Problem where
  title := "struct QueryFile"
  blank := {}
  fields :=
    [⟨"universe", (·.labels.isSome),
       fun r v => (Labels.read v).map fun l => { r with labels := l }⟩,
     ⟨"facts", (·.facts.isSome),
       fun r v => (v.asList Fact.read).map fun fs => { r with facts := fs }⟩,
     ⟨"target", (·.target.isSome), fun r v => (Fact.read v).map fun f => { r with target := f }⟩,
     ⟨"rules", (·.rules.isSome),
       fun r v => (v.asOption Catalogue.read).map fun c => { r with rules := some c }⟩]
  finish r := do
    let labels ← demand 0 "universe" r.labels
    let target ← demand 2 "target" r.target
    return ⟨labels, r.facts.getD [], target, r.rules.getD none⟩

def read (v : Node) : Read Problem := shape.read v

def ofString (s : String) : Read Problem := readString read s

end Problem

end Syllogism
