import Syllogism.Error

/-! Rule catalogues: well-formed rules under distinct names, in the order in which they apply. -/
namespace Syllogism

structure Catalogue where
  name : String
  description : String := ""
  rules : List Rule := []
  deriving DecidableEq

namespace Catalogue

def length (c : Catalogue) : Nat := c.rules.length

def isEmpty (c : Catalogue) : Bool := c.rules.isEmpty

def get? (c : Catalogue) (name : String) : Option Rule := c.rules.find? (·.name = name)

def require (c : Catalogue) (name : String) : Except Error Rule :=
  match c.get? name with
  | some r => .ok r
  | none => .error (.unknownRule name)

/-- Puts a rule at the end. A malformed rule is refused first, then one whose name is taken. The
catalogue that is left behind comes along in any case. -/
def add (c : Catalogue) (r : Rule) : Except Error Unit × Catalogue :=
  match r.validate with
  | .error fault => (.error (.malformedRule r.name fault), c)
  | .ok () =>
    match c.get? r.name with
    | some _ => (.error (.duplicateRule r.name), c)
    | none => (.ok (), { c with rules := c.rules ++ [r] })

theorem add_eq_ok_iff (c d : Catalogue) (r : Rule) :
    c.add r = (.ok (), d) ↔
      r.validate = .ok () ∧ c.get? r.name = none ∧ d = { c with rules := c.rules ++ [r] } := by
  unfold add
  cases r.validate with
  | error fault => simp
  | ok u => cases c.get? r.name <;> simp [eq_comm]

/-- Adds rules one after another and stops at the first that is refused. -/
def addAll (c : Catalogue) : List Rule → Except Error Catalogue
  | [] => .ok c
  | r :: rs =>
    match c.add r with
    | (.error e, _) => .error e
    | (.ok (), c) => c.addAll rs

def ofRules (name : String) (rules : List Rule) : Except Error Catalogue :=
  ({ name } : Catalogue).addAll rules

end Catalogue

end Syllogism
