import Syllogism.Statement

/-! Provenance: how each known fact first became known, in the order of discovery. -/
namespace Syllogism

inductive Origin
  | given
  | axiomatic (rule : String)
  | inferred (rule : String) (premises : List Fact)
  deriving DecidableEq

namespace Origin

/-- Given facts and instances of axioms rest on no other fact. -/
def isLeaf : Origin → Bool
  | inferred _ _ => false
  | _ => true

def premises : Origin → List Fact
  | inferred _ ps => ps
  | _ => []

end Origin

structure Inference where
  fact : Fact
  rule : String
  premises : List Fact
  deriving DecidableEq

/-- The origin of each known fact, oldest first. -/
structure Provenance where
  entries : List (Fact × Origin) := []
  deriving DecidableEq

namespace Provenance

def empty : Provenance := {}

def length (p : Provenance) : Nat := p.entries.length

def isEmpty (p : Provenance) : Bool := p.entries.isEmpty

def facts (p : Provenance) : List Fact := p.entries.map (·.1)

def get? (p : Provenance) (f : Fact) : Option Origin := p.entries.lookup f

def contains (p : Provenance) (f : Fact) : Bool := (p.get? f).isSome

/-- Writes the origin of `f` unless it has one already, and tells whether it did. The first origin
stays. -/
def record (p : Provenance) (f : Fact) (o : Origin) : Bool × Provenance :=
  if p.contains f then (false, p) else (true, ⟨p.entries ++ [(f, o)]⟩)

/-- The facts that came from a rule with premises. -/
def derived (p : Provenance) : List (Fact × Origin) := p.entries.filter fun e => !e.2.isLeaf

def inferences (p : Provenance) : List Inference :=
  p.entries.filterMap fun
    | (f, .inferred rule premises) => some ⟨f, rule, premises⟩
    | _ => none

theorem contains_iff_mem_facts (p : Provenance) (f : Fact) : p.contains f = true ↔ f ∈ p.facts := by
  obtain ⟨entries⟩ := p
  simp only [contains, get?, facts]
  induction entries with
  | nil => simp
  | cons e es ih =>
    by_cases h : f = e.1
    · simp [h]
    · have hb : (f == e.1) = false := by simpa using h
      rw [List.lookup_cons, hb, List.map_cons, List.mem_cons, or_iff_right h]
      exact ih

theorem record_of_contains {p : Provenance} {f : Fact} (h : p.contains f = true) (o : Origin) :
    p.record f o = (false, p) := by simp [record, h]

theorem record_of_new {p : Provenance} {f : Fact} (h : p.contains f = false) (o : Origin) :
    p.record f o = (true, ⟨p.entries ++ [(f, o)]⟩) := by simp [record, h]

theorem facts_record_of_new {p : Provenance} {f : Fact} (h : p.contains f = false) (o : Origin) :
    (p.record f o).2.facts = p.facts ++ [f] := by simp [facts, record_of_new h]

theorem mem_facts_record {p : Provenance} {f g : Fact} {o : Origin} :
    g ∈ (p.record f o).2.facts ↔ g ∈ p.facts ∨ g = f := by
  cases h : p.contains f with
  | true =>
    have hf := (p.contains_iff_mem_facts f).1 h
    rw [record_of_contains h]
    constructor
    · exact .inl
    · rintro (hg | rfl)
      · exact hg
      · exact hf
  | false => simp [facts_record_of_new h]

theorem get?_record_of_known {p : Provenance} {f g : Fact} {o' : Origin} (h : p.get? g = some o')
    (o : Origin) : (p.record f o).2.get? g = some o' := by
  cases hf : p.contains f with
  | true => rwa [record_of_contains hf]
  | false =>
    have hl : p.entries.lookup g = some o' := h
    simp [get?, record_of_new hf, List.lookup_append, hl]

theorem get?_mono {p q : Provenance} (hp : p.entries <+: q.entries) {f : Fact} {o : Origin}
    (h : p.get? f = some o) : q.get? f = some o := by
  obtain ⟨rest, hrest⟩ := hp
  have hl : p.entries.lookup f = some o := h
  simp [get?, ← hrest, List.lookup_append, hl]

theorem get?_record_self {p : Provenance} {f : Fact} (h : p.contains f = false) (o : Origin) :
    (p.record f o).2.get? f = some o := by
  have hl : p.entries.lookup f = none := by simpa [contains, get?] using h
  simp [get?, record_of_new h, List.lookup_append, hl]

theorem nodup_facts_record {p : Provenance} (h : p.facts.Nodup) (f : Fact) (o : Origin) :
    (p.record f o).2.facts.Nodup := by
  cases hf : p.contains f with
  | true => rwa [record_of_contains hf]
  | false =>
    have hn : f ∉ p.facts := by
      intro hm
      rw [(p.contains_iff_mem_facts f).2 hm] at hf
      cases hf
    rw [facts_record_of_new hf]
    exact List.nodup_append.2 ⟨h, by simp, by
      intro a ha b hb
      rw [List.mem_singleton.1 hb]
      rintro rfl
      exact hn ha⟩

end Provenance

end Syllogism
