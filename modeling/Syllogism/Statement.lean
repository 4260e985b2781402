/-! Categorical statements: a quantifier over two variables, as in "all x are y". -/
namespace Syllogism

inductive Quantifier
  | universal
  | particular
  deriving DecidableEq

namespace Quantifier

def word : Quantifier → String
  | universal => "all"
  | particular => "some"

def ofWord? (w : String) : Option Quantifier :=
  if w = "all" then some universal else if w = "some" then some particular else none

@[simp] theorem ofWord?_word (q : Quantifier) : ofWord? q.word = some q := by
  cases q <;> simp [ofWord?, word]

def complement : Quantifier → Quantifier
  | universal => particular
  | particular => universal

@[simp] theorem complement_complement (q : Quantifier) : q.complement.complement = q := by
  cases q <;> rfl

/-- Universal statements sort before particular ones. -/
def rank : Quantifier → Nat
  | universal => 0
  | particular => 1

end Quantifier

/-- A noun of the universe of discourse. -/
abbrev Variable := String

structure Fact where
  quantifier : Quantifier
  subject : Variable
  object : Variable
  deriving DecidableEq

namespace Fact

def universal (subject object : Variable) : Fact := ⟨.universal, subject, object⟩

def particular (subject object : Variable) : Fact := ⟨.particular, subject, object⟩

def vars (f : Fact) : List Variable := [f.subject, f.object]

theorem mem_vars {f : Fact} {v : Variable} : v ∈ f.vars ↔ v = f.subject ∨ v = f.object := by
  simp [vars]

def sentence (f : Fact) : String :=
  f.quantifier.word ++ " " ++ f.subject ++ " are " ++ f.object

/-- Facts are ordered by quantifier, then subject, then object, names by code point. -/
instance : Ord Fact where
  compare a b :=
    (compare a.quantifier.rank b.quantifier.rank).then
      ((compare a.subject b.subject).then (compare a.object b.object))

def sort (facts : List Fact) : List Fact :=
  facts.mergeSort fun a b => (compare a b).isLE

end Fact

/-- The name that stands for a variable inside a rule. -/
abbrev Placeholder := String

structure Pattern where
  quantifier : Quantifier
  subject : Placeholder
  object : Placeholder
  deriving DecidableEq

namespace Pattern

def placeholders (p : Pattern) : List Placeholder := [p.subject, p.object]

theorem mem_placeholders {p : Pattern} {x : Placeholder} :
    x ∈ p.placeholders ↔ x = p.subject ∨ x = p.object := by
  simp [placeholders]

def sentence (p : Pattern) : String :=
  p.quantifier.word ++ " " ++ p.subject ++ " are " ++ p.object

end Pattern

end Syllogism
