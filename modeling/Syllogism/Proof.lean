import Syllogism.Instant
import Syllogism.Labels
import Syllogism.Provenance

/-! Proofs: numbered lines, each with its justification, read back out of a provenance. -/
namespace Syllogism

namespace Provenance

/-- The number of nodes of the derivation tree of a fact, cut off below the given depth. -/
def treeSize (p : Provenance) : Nat → Fact → Nat
  | 0, _ => 1
  | d + 1, f =>
    match p.get? f with
    | some (.inferred _ premises) => premises.foldr (p.treeSize d · + ·) 0 + 1
    | _ => 1

/-- Visits the facts on the stack, putting the premises of each inference on top. -/
def traceLoop (p : Provenance) : Nat → List Fact → List Inference
  | 0, _ => []
  | _ + 1, [] => []
  | n + 1, f :: stack =>
    match p.get? f with
    | some (.inferred rule premises) => ⟨f, rule, premises⟩ :: p.traceLoop n (premises ++ stack)
    | _ => p.traceLoop n stack

/-- The inferences of the derivation tree of `f`, the root first and the premises in order. A fact
that is used twice is listed twice. One visit is made for each node of the tree, and no branch is
longer than the number of entries. -/
def trace (p : Provenance) (f : Fact) : List Inference :=
  p.traceLoop (p.treeSize p.length f) [f]

end Provenance

inductive Justification
  | given
  | axiomatic (rule : String)
  | inferred (rule : String) (premises : List Nat)
  deriving DecidableEq

def Justification.ofLeaf : Origin → Justification
  | .axiomatic rule => .axiomatic rule
  | _ => .given

structure Line where
  number : Nat
  fact : Fact
  justification : Justification
  deriving DecidableEq

/-- A proof of `target` with the number of rounds that the search for it took. -/
structure Proof where
  target : Fact
  steps : List Line
  rounds : Nat
  generatedAt : Instant
  deriving DecidableEq

/-- Lines written so far and, for each derived fact, the latest line that states it. -/
structure Draft where
  lines : List Line := []
  derivedAt : List (Fact × Nat) := []

namespace Draft

def write (d : Draft) (f : Fact) (j : Justification) : Draft :=
  { d with lines := d.lines ++ [⟨d.lines.length + 1, f, j⟩] }

/-- Makes sure that each premise has a line and gives the numbers of those lines. Given facts and
axioms are written again each time; a derived fact is cited where it was derived. -/
def cite (p : Provenance) (d : Draft) : List Fact → Option (List Nat × Draft)
  | [] => some ([], d)
  | f :: fs =>
    match (p.get? f).filter (·.isLeaf) with
    | some origin =>
      let d := d.write f (.ofLeaf origin)
      (d.cite p fs).map fun (ns, e) => (d.lines.length :: ns, e)
    | none =>
      match d.derivedAt.lookup f with
      | some n => (d.cite p fs).map fun (ns, e) => (n :: ns, e)
      | none => none

/-- Writes the premises of an inference that need a line, then its conclusion. -/
def infer (p : Provenance) (d : Draft) (i : Inference) : Option Draft :=
  (d.cite p i.premises).map fun (ns, d) =>
    let d := d.write i.fact (.inferred i.rule ns)
    { d with derivedAt := (i.fact, d.lines.length) :: d.derivedAt }

def inferAll (p : Provenance) (d : Draft) : List Inference → Option Draft
  | [] => some d
  | i :: is => (d.infer p i).bind (·.inferAll p is)

end Draft

namespace Proof

/-- The lines that prove `target`: every premise stands before the line that uses it. -/
def linesOf (p : Provenance) (target : Fact) : Option (List Line) :=
  match p.get? target with
  | none => none
  | some (.inferred _ _) =>
    ((({} : Draft).inferAll p (p.trace target).reverse).map (·.lines))
  | some origin => some [⟨1, target, .ofLeaf origin⟩]

def ofProvenance (p : Provenance) (target : Fact) (rounds : Nat) (now : Instant) : Option Proof :=
  (linesOf p target).map fun lines => ⟨target, lines, rounds, now⟩

def length (p : Proof) : Nat := p.steps.length

def isEmpty (p : Proof) : Bool := p.steps.isEmpty

def conclusion (p : Proof) : Option Fact := p.steps.getLast?.map (·.fact)

end Proof

def showNumbers (ns : List Nat) : String :=
  "[" ++ String.intercalate ", " (ns.map toString) ++ "]"

/-- A line in words. Axioms read like given facts. -/
def Line.render (l : Line) (labels : Labels) : String :=
  toString l.number ++ " " ++ labels.sentence l.fact ++
    match l.justification with
    | .inferred rule premises =>
      " uses " ++ rule ++ " from applications of " ++ showNumbers premises
    | _ => " -- given"

namespace Proof

def render (p : Proof) (labels : Labels) : List String := p.steps.map (·.render labels)

/-- The names of the rules that the proof uses, sorted, each once. -/
def rulesUsed (p : Proof) : List String :=
  let names := p.steps.filterMap fun l =>
    match l.justification with
    | .given => none
    | .axiomatic rule => some rule
    | .inferred rule _ => some rule
  names.eraseDups.mergeSort fun a b => (compare a b).isLE

end Proof

end Syllogism
