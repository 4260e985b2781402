import Syllogism.Statement

/-! Bindings of placeholders to variables, kept in the order in which they were made, so that a
search can go back to an earlier state by cutting the list. -/
namespace Syllogism

/-- What the placeholders of one rule stand for, oldest binding first. -/
structure Bindings where
  entries : List (Placeholder × Variable) := []
  deriving DecidableEq

namespace Bindings

def empty : Bindings := {}

def length (b : Bindings) : Nat := b.entries.length

def isEmpty (b : Bindings) : Bool := b.entries.isEmpty

def get? (b : Bindings) (p : Placeholder) : Option Variable := b.entries.lookup p

def isBound (b : Bindings) (p : Placeholder) : Bool := (b.get? p).isSome

/-- Binds `p` to `v` if it is free; otherwise only tells whether it already stands for `v`. -/
def bind (b : Bindings) (p : Placeholder) (v : Variable) : Bool × Bindings :=
  match b.get? p with
  | some w => (w = v, b)
  | none => (true, ⟨b.entries ++ [(p, v)]⟩)

theorem bind_of_bound {b : Bindings} {p : Placeholder} {w : Variable} (h : b.get? p = some w)
    (v : Variable) : b.bind p v = (decide (w = v), b) := by simp [bind, h]

theorem bind_of_free {b : Bindings} {p : Placeholder} (h : b.get? p = none) (v : Variable) :
    b.bind p v = (true, ⟨b.entries ++ [(p, v)]⟩) := by simp [bind, h]

theorem entries_bind (b : Bindings) (p : Placeholder) (v : Variable) :
    (b.bind p v).2.entries = b.entries ∨ (b.bind p v).2.entries = b.entries ++ [(p, v)] := by
  cases h : b.get? p with
  | none => exact .inr (by rw [bind_of_free h])
  | some w => exact .inl (by rw [bind_of_bound h])

theorem get?_bind {b : Bindings} {p : Placeholder} {v : Variable} (h : (b.bind p v).1 = true) :
    (b.bind p v).2.get? p = some v := by
  cases hp : b.get? p with
  | none =>
    have hl : b.entries.lookup p = none := hp
    rw [bind_of_free hp]
    simp [get?, List.lookup_append, hl]
  | some w =>
    rw [bind_of_bound hp] at h ⊢
    have hw : w = v := by simpa using h
    rw [hp, hw]

def truncate (b : Bindings) (n : Nat) : Bindings := ⟨b.entries.take n⟩

@[simp] theorem truncate_length (b : Bindings) : b.truncate b.length = b := by
  simp [truncate, length]

theorem truncate_of_append {b c : Bindings} {rest : List (Placeholder × Variable)}
    (h : c.entries = b.entries ++ rest) : c.truncate b.length = b := by
  cases b; simp_all [truncate, length]

theorem truncate_bind (b : Bindings) (p : Placeholder) (v : Variable) :
    (b.bind p v).2.truncate b.length = b := by
  rcases entries_bind b p v with h | h
  · exact truncate_of_append (show _ = b.entries ++ [] by simpa using h)
  · exact truncate_of_append h

/-- Whether two lists of bindings say the same, in whatever order they were made. -/
def same (a b : Bindings) : Bool :=
  a.length = b.length && a.entries.all fun e => b.get? e.1 = some e.2

end Bindings

namespace Pattern

/-- Matches both variables of `f` with the placeholders, subject first. The quantifiers are not
compared. After a failure the binding of the subject may remain. -/
def unify (p : Pattern) (f : Fact) (b : Bindings) : Bool × Bindings :=
  match b.bind p.subject f.subject with
  | (true, b) => b.bind p.object f.object
  | (false, b) => (false, b)

def instantiate (p : Pattern) (b : Bindings) : Option Fact :=
  match b.get? p.subject, b.get? p.object with
  | some s, some o => some ⟨p.quantifier, s, o⟩
  | _, _ => none

theorem instantiate_eq_some_iff {p : Pattern} {b : Bindings} {f : Fact} :
    p.instantiate b = some f ↔
      f.quantifier = p.quantifier ∧ b.get? p.subject = some f.subject ∧
        b.get? p.object = some f.object := by
  unfold instantiate
  cases hs : b.get? p.subject <;> cases ho : b.get? p.object <;> cases f <;> grind

end Pattern

end Syllogism
