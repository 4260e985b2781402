import Syllogism.Statement

/-! Matching policies: when a fact's quantifier may fill a premise that asks for another one. -/
namespace Syllogism

/-- How a rule compares the quantifier of a premise with that of a candidate fact. -/
inductive Policy
  | strict
  | partialFunction
  | anti
  deriving DecidableEq

namespace Policy

def shortName : Policy → String
  | strict => "strict"
  | partialFunction => "pf"
  | anti => "anti"

/-- The name under which rule files select the policy. -/
def key : Policy → String
  | strict => "strict"
  | partialFunction => "partial_function"
  | anti => "anti"

def all : List Policy := [strict, partialFunction, anti]

theorem mem_all (p : Policy) : p ∈ all := by cases p <;> simp [all]

end Policy

inductive Relation
  | equal
  | subsumes
  | complement
  deriving DecidableEq

namespace Relation

def key : Relation → String
  | equal => "equal"
  | subsumes => "subsumes"
  | complement => "complement"

def all : List Relation := [equal, subsumes, complement]

theorem mem_all (r : Relation) : r ∈ all := by cases r <;> simp [all]

/-- Whether a premise with quantifier `pattern` takes a fact with quantifier `candidate`.
A universal fact is taken by `subsumes` also where a particular one is asked for. -/
def holds : Relation → Quantifier → Quantifier → Bool
  | equal, pattern, candidate => pattern = candidate
  | subsumes, pattern, candidate =>
    pattern = candidate || (pattern = .particular && candidate = .universal)
  | complement, pattern, candidate => candidate = pattern.complement

end Relation

/-- The predicates behind the two policies that can be chosen freely. -/
structure PolicyTable where
  partialFunction : Quantifier → Quantifier → Bool
  anti : Quantifier → Quantifier → Bool

namespace PolicyTable

def ofRelations (partialFunction anti : Relation) : PolicyTable :=
  ⟨partialFunction.holds, anti.holds⟩

def standard : PolicyTable := ofRelations .subsumes .complement

def admits (t : PolicyTable) : Policy → Quantifier → Quantifier → Bool
  | .strict, pattern, candidate => pattern = candidate
  | .partialFunction, pattern, candidate => t.partialFunction pattern candidate
  | .anti, pattern, candidate => t.anti pattern candidate

@[simp] theorem admits_strict (t : PolicyTable) (p c : Quantifier) :
    t.admits .strict p c = true ↔ p = c := by simp [admits]

/-- The verdicts on the four pairs of quantifiers, universal before particular, pattern first. -/
def row (t : PolicyTable) (p : Policy) : List Bool :=
  [.universal, .particular].flatMap fun pattern =>
    [.universal, .particular].map fun candidate => t.admits p pattern candidate

end PolicyTable

end Syllogism
