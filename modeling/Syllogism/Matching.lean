import Syllogism.Bindings
import Syllogism.Database

/-! Rule application. An inference rule is matched against the database by a backtracking search
that fills one premise after another; an axiom is instantiated over the whole universe. -/
namespace Syllogism

namespace Rule

/-- The facts that can fill at least one premise, in database order. -/
def candidates (r : Rule) (db : Database) (table : PolicyTable) : List Fact :=
  db.facts.filter fun f =>
    r.premises.any fun p => table.admits r.policy p.quantifier f.quantifier

/-- Matches premises and facts pairwise from left to right. -/
def matchAll (r : Rule) (table : PolicyTable) :
    List Pattern → List Fact → Bindings → Option Bindings
  | [], [], b => some b
  | p :: ps, f :: fs, b =>
    if table.admits r.policy p.quantifier f.quantifier then
      match p.unify f b with
      | (true, b) => r.matchAll table ps fs b
      | (false, _) => none
    else none
  | _, _, _ => none

/-- The conclusion that an inference rule draws from exactly these premises, in this order. -/
def derive (r : Rule) (table : PolicyTable) (premises : List Fact) : Option Fact :=
  if r.isAxiom then none
  else (r.matchAll table r.premises premises .empty).bind r.conclusion.instantiate

/-- Whether `f` is an instance of an axiom. -/
def yieldsAxiom (r : Rule) (f : Fact) : Bool :=
  r.isAxiom && r.conclusion.quantifier = f.quantifier && (r.conclusion.unify f .empty).1

end Rule

/-- The state of a search: the bindings made so far, the facts chosen for the premises filled so
far, and what has been recorded and derived on the way. -/
structure Search where
  bindings : Bindings := {}
  chosen : List Fact := []
  provenance : Provenance
  derived : List Fact := []

namespace Search

def conclude (r : Rule) (s : Search) : Search :=
  if r.premisePlaceholders.all s.bindings.isBound then
    match r.conclusion.instantiate s.bindings with
    | some child =>
      if s.provenance.contains child then s
      else
        { s with
          provenance := (s.provenance.record child (.inferred r.name s.chosen)).2
          derived := s.derived ++ [child] }
    | none => s
  else s

/-- Tries every candidate for the first open premise and goes on with the others. Whatever a
candidate has bound is undone before the next one is tried. -/
def extend (r : Rule) (table : PolicyTable) (candidates : List Fact) :
    List Pattern → Search → Search
  | [], s => s.conclude r
  | p :: ps, s => candidates.foldl (fun s f =>
      if table.admits r.policy p.quantifier f.quantifier then
        let mark := s.bindings.length
        match p.unify f s.bindings with
        | (true, b) =>
          let t := extend r table candidates ps { s with bindings := b, chosen := s.chosen ++ [f] }
          { t with bindings := t.bindings.truncate mark, chosen := t.chosen.dropLast }
        | (false, b) => { s with bindings := b.truncate mark }
      else s) s

end Search

structure Enumeration where
  bindings : Bindings := {}
  provenance : Provenance
  derived : List Fact := []

namespace Enumeration

def conclude (r : Rule) (s : Enumeration) : Enumeration :=
  match r.conclusion.instantiate s.bindings with
  | some child =>
    match s.provenance.record child (.axiomatic r.name) with
    | (true, p) => { s with provenance := p, derived := s.derived ++ [child] }
    | (false, p) => { s with provenance := p }
  | none => s

/-- Lets each placeholder run through the universe, the first one slowest. -/
def extend (r : Rule) (vars : List Variable) : List Placeholder → Enumeration → Enumeration
  | [], s => s.conclude r
  | p :: ps, s => vars.foldl (fun s v =>
      let mark := s.bindings.length
      let t := extend r vars ps { s with bindings := (s.bindings.bind p v).2 }
      { t with bindings := t.bindings.truncate mark }) s

end Enumeration

structure Batch where
  provenance : Provenance
  facts : List Fact

namespace Rule

/-- Applies the rule to a database. Each fact that is derived for the first time is recorded and
listed; the database itself is left to the caller. -/
def apply (r : Rule) (db : Database) (p : Provenance) (table : PolicyTable) : Batch :=
  if r.isAxiom then
    let s := Enumeration.extend r db.vars r.conclusion.placeholders.eraseDups
      { provenance := p }
    ⟨s.provenance, s.derived⟩
  else
    let s := Search.extend r table (r.candidates db table) r.premises { provenance := p }
    ⟨s.provenance, s.derived⟩

def exhaustWithin (r : Rule) (table : PolicyTable) :
    Nat → Database → Provenance → List (List Fact) × Database × Provenance
  | 0, db, p => ([], db, p)
  | n + 1, db, p =>
    let b := r.apply db p table
    if b.facts.isEmpty then ([], db, b.provenance)
    else
      let (batches, db, p) := r.exhaustWithin table n (db.merge b.facts).2 b.provenance
      (b.facts :: batches, db, p)

/-- Applies the rule and merges what it derives, again and again until nothing comes. The list
holds the facts of each turn. Every turn but the last records a fact over the universe, so there
are at most as many as the universe has room for. -/
def exhaust (r : Rule) (table : PolicyTable) (db : Database) (p : Provenance) :
    List (List Fact) × Database × Provenance :=
  r.exhaustWithin table (db.capacity + 1) db p

end Rule

end Syllogism
