import Syllogism.Policy
import Syllogism.Text.Blank

/-! Inference rules: a name, premises to be matched and a conclusion, with the conditions under
which a rule is well formed. A rule without premises is an axiom scheme over the universe. -/
namespace Syllogism

structure Rule where
  name : String
  description : String := ""
  policy : Policy := .strict
  premises : List Pattern := []
  conclusion : Pattern
  deriving DecidableEq

inductive RuleKind
  | axiomatic
  | inference
  deriving DecidableEq

def RuleKind.shortName : RuleKind → String
  | axiomatic => "ax"
  | inference => "inf"

inductive RuleFault
  | nameEmpty
  | placeholderEmpty
  | axiomPolicy (policy : Policy)
  | neverBound (placeholder : Placeholder)
  | conclusionMissing
  | axiomWithPremises
  | inferenceWithoutPremises
  deriving DecidableEq

def RuleFault.message : RuleFault → String
  | nameEmpty => "rule name is empty"
  | placeholderEmpty => "empty placeholder"
  | axiomPolicy p => "axiom rules cannot use the " ++ p.shortName ++ " policy"
  | neverBound p => "conclusion placeholder '" ++ p ++ "' is never bound by a premise"
  | conclusionMissing => "missing conclusion"
  | axiomWithPremises => "axiom rules take no premises"
  | inferenceWithoutPremises => "inference rule without premises"

namespace Rule

/-- The kind follows from the premises alone. -/
def kind (r : Rule) : RuleKind := if r.premises.isEmpty then .axiomatic else .inference

def isAxiom (r : Rule) : Bool := r.premises.isEmpty

theorem isAxiom_iff (r : Rule) : r.isAxiom = true ↔ r.premises = [] := by
  simp [isAxiom]

theorem kind_eq_axiomatic_iff (r : Rule) : r.kind = .axiomatic ↔ r.isAxiom = true := by
  unfold kind isAxiom; cases r.premises.isEmpty <;> simp

/-- The name with the kind in front of it, such as `inf:barbara`. -/
def qualifiedName (r : Rule) : String := r.kind.shortName ++ ":" ++ r.name

/-- The placeholders of the premises in order of occurrence, repetitions included. -/
def premisePlaceholders (r : Rule) : List Placeholder := r.premises.flatMap Pattern.placeholders

/-- The quantifiers that occur in the premises, universal first, each once. -/
def premiseQuantifiers (r : Rule) : List Quantifier :=
  [.universal, .particular].filter fun q => r.premises.any (·.quantifier = q)

def premiseVariables (r : Rule) : List Placeholder :=
  r.premisePlaceholders.eraseDups.mergeSort fun a b => (compare a b).isLE

/-- The rule on one line: its name, the premises, an arrow and the conclusion. -/
def display (r : Rule) : String :=
  let premises := if r.premises.isEmpty then "" else
    " " ++ String.intercalate ", " (r.premises.map Pattern.sentence)
  r.name ++ ":" ++ premises ++ " => " ++ r.conclusion.sentence

/-- Every placeholder has a name, an axiom is strict, and the premises of an inference bind
whatever its conclusion mentions. The first condition that fails is reported. -/
def validate (r : Rule) : Except RuleFault Unit :=
  if Text.allBlank r.name then .error .nameEmpty
  else if (r.premisePlaceholders ++ r.conclusion.placeholders).any (· = "") then
    .error .placeholderEmpty
  else if r.isAxiom then
    if r.policy = .strict then .ok () else .error (.axiomPolicy r.policy)
  else
    match r.conclusion.placeholders.find? fun p => !r.premisePlaceholders.contains p with
    | some p => .error (.neverBound p)
    | none => .ok ()

def isValid (r : Rule) : Bool := r.validate.isOk

/-- What makes a rule well formed, said without regard to order. -/
theorem validate_eq_ok_iff {r : Rule} :
    r.validate = .ok () ↔
      Text.allBlank r.name = false ∧
      (∀ x ∈ r.premisePlaceholders ++ r.conclusion.placeholders, x ≠ "") ∧
      (r.isAxiom = true → r.policy = .strict) ∧
      (r.isAxiom = false → ∀ x ∈ r.conclusion.placeholders, x ∈ r.premisePlaceholders) := by
  have hempty : (∀ x ∈ r.premisePlaceholders ++ r.conclusion.placeholders, x ≠ "") ↔
      (r.premisePlaceholders ++ r.conclusion.placeholders).any (· = "") = false := by
    simp only [List.any_eq_false, decide_eq_true_eq, ne_eq]
  have hbound : (∀ x ∈ r.conclusion.placeholders, x ∈ r.premisePlaceholders) ↔
      (r.conclusion.placeholders.find? fun p => !r.premisePlaceholders.contains p) = none := by
    simp [List.find?_eq_none]
  rw [hempty, hbound, validate]
  split
  · next hname => simp [hname]
  split
  · next hany => simp [hany]
  split
  · next hi => split <;> simp_all
  · next hi => split <;> simp_all

theorem mem_premisePlaceholders_of_validate {r : Rule} (h : r.validate = .ok ())
    (hi : r.isAxiom = false) {p : Placeholder} (hp : p ∈ r.conclusion.placeholders) :
    p ∈ r.premisePlaceholders := (validate_eq_ok_iff.1 h).2.2.2 hi p hp

end Rule

/-- A rule in the making, declared as one of the two kinds. -/
structure RuleDraft where
  kind : RuleKind
  name : String
  description : String := ""
  policy : Policy := .strict
  premises : List Pattern := []
  conclusion : Option Pattern := none

/-- Completes the draft if its parts agree with the declared kind and the rule is well formed. -/
def RuleDraft.build (d : RuleDraft) : Except RuleFault Rule :=
  match d.conclusion, d.kind, d.premises.isEmpty with
  | none, _, _ => .error .conclusionMissing
  | some _, .axiomatic, false => .error .axiomWithPremises
  | some _, .inference, true => .error .inferenceWithoutPremises
  | some c, _, _ =>
    let r : Rule := ⟨d.name, d.description, d.policy, d.premises, c⟩
    r.validate.map fun _ => r

end Syllogism
