import Syllogism.Catalogue
import Syllogism.Matching
import Syllogism.Proof

/-! Verification: a proof is checked line by line against a catalogue, and everything that is wrong
with it is reported. -/
namespace Syllogism

inductive LineFault
  | notGiven (fact : Fact)
  | unknownRule (rule : String)
  | notAnInstance (fact : Fact) (rule : String)
  | outsideUniverse (error : Error)
  | citesAhead (number : Nat)
  | doesNotFollow (fact : Fact) (premises : List Nat) (rule : String)
  deriving DecidableEq

def LineFault.message : LineFault → String
  | notGiven f => f.sentence ++ " is not a given fact"
  | unknownRule r => "unknown rule '" ++ r ++ "'"
  | notAnInstance f r => f.sentence ++ " is not an instance of " ++ r
  | outsideUniverse e => e.message
  | citesAhead n => "cites line " ++ toString n ++ " which does not precede it"
  | doesNotFollow f ns r => f.sentence ++ " does not follow from " ++ showNumbers ns ++ " by " ++ r

inductive ProofFault
  | outOfSequence (number expected : Nat)
  | invalidLine (number : Nat) (fault : LineFault)
  | noSteps
  | wrongConclusion (stated target : Fact)
  deriving DecidableEq

def ProofFault.message : ProofFault → String
  | outOfSequence n e =>
    "Step " ++ toString n ++ " is out of sequence (expected " ++ toString e ++ ")"
  | invalidLine n fault => "Invalid step " ++ toString n ++ ": " ++ fault.message
  | noSteps => "Proof has no steps"
  | wrongConclusion f t => "Last step states " ++ f.sentence ++ " but the target is " ++ t.sentence

/-- What has come of checking a proof: whether it has passed so far, and all that is wrong with
it. -/
structure Report where
  isValid : Bool := true
  faults : List ProofFault := []
  deriving DecidableEq

namespace Report

def add (r : Report) (fault : ProofFault) : Report := ⟨false, r.faults ++ [fault]⟩

def result (r : Report) : Except Error Unit :=
  if r.isValid then .ok ()
  else .error (.invalidProof (String.intercalate "; " (r.faults.map ProofFault.message)))

end Report

/-- What proofs are checked against. Without givens any fact may be assumed. -/
structure Verifier where
  rules : Catalogue
  policies : PolicyTable := .standard
  givens : Option Database := none

namespace Verifier

/-- The facts on the cited lines, or the first number that does not belong to an earlier line. -/
def citedFacts (earlier : List Line) : List Nat → Except LineFault (List Fact)
  | [] => .ok []
  | 0 :: _ => .error (.citesAhead 0)
  | (n + 1) :: ns =>
    match earlier[n]? with
    | none => .error (.citesAhead (n + 1))
    | some line =>
      match citedFacts earlier ns with
      | .error e => .error e
      | .ok fs => .ok (line.fact :: fs)

def checkGiven (v : Verifier) (f : Fact) : Except LineFault Unit :=
  match v.givens with
  | some db => if db.contains f then .ok () else .error (.notGiven f)
  | none => .ok ()

def checkAxiom (v : Verifier) (f : Fact) (name : String) : Except LineFault Unit :=
  match v.rules.get? name with
  | none => .error (.unknownRule name)
  | some r =>
    if r.yieldsAxiom f then
      match v.givens with
      | some db =>
        match db.check f with
        | .error e => .error (.outsideUniverse e)
        | .ok () => .ok ()
      | none => .ok ()
    else .error (.notAnInstance f r.name)

def checkInference (v : Verifier) (earlier : List Line) (f : Fact) (name : String)
    (premises : List Nat) : Except LineFault Unit :=
  match v.rules.get? name with
  | none => .error (.unknownRule name)
  | some r =>
    match citedFacts earlier premises with
    | .error e => .error e
    | .ok facts =>
      if r.derive v.policies facts = some f then .ok ()
      else .error (.doesNotFollow f premises r.name)

def checkLine (v : Verifier) (earlier : List Line) (l : Line) : Except LineFault Unit :=
  match l.justification with
  | .given => v.checkGiven l.fact
  | .axiomatic rule => v.checkAxiom l.fact rule
  | .inferred rule premises => v.checkInference earlier l.fact rule premises

/-- Reports on the next line. Under a wrong number it is not looked into. -/
def reportLine (v : Verifier) (earlier : List Line) (l : Line) (r : Report) : Report :=
  if l.number = earlier.length + 1 then
    match v.checkLine earlier l with
    | .ok () => r
    | .error fault => r.add (.invalidLine l.number fault)
  else r.add (.outOfSequence l.number (earlier.length + 1))

def reportLines (v : Verifier) (earlier : List Line) : List Line → Report → Report
  | [], r => r
  | l :: ls, r => v.reportLines (earlier ++ [l]) ls (v.reportLine earlier l r)

def reportConclusion (p : Proof) (r : Report) : Report :=
  match p.conclusion with
  | none => r.add .noSteps
  | some f => if f = p.target then r else r.add (.wrongConclusion f p.target)

/-- Checks the lines in order and then that the last one states the target. -/
def verify (v : Verifier) (p : Proof) : Report :=
  reportConclusion p (v.reportLines [] p.steps {})

def faults (v : Verifier) (p : Proof) : List ProofFault := (v.verify p).faults

def accepts (v : Verifier) (p : Proof) : Bool := (v.verify p).isValid

end Verifier

end Syllogism
