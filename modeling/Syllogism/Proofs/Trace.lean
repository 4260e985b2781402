import Mathlib.Algebra.GroupWithZero.Nat
import Mathlib.Data.Finset.Card
import Mathlib.Logic.Relation
import Syllogism.Proof

/-! The trace of a fact through an acyclic provenance: the walk with a stack lists the inferences of
the derivation tree, the root first and then the traces of the premises in order. -/
namespace Syllogism.Provenance

/-- The fact `g` is among the premises from which `f` was inferred. -/
def Uses (p : Provenance) (f g : Fact) : Prop :=
  ∃ rule premises, p.get? f = some (.inferred rule premises) ∧ g ∈ premises

/-- No fact rests on itself, over however many inferences. -/
def Acyclic (p : Provenance) : Prop := ∀ f, ¬ Relation.TransGen p.Uses f f

theorem Uses.mem_facts {p : Provenance} {f g : Fact} (h : p.Uses f g) : f ∈ p.facts := by
  obtain ⟨rule, premises, hf, -⟩ := h
  exact (p.contains_iff_mem_facts f).1 (by simp [contains, hf])

/-- Facts have a rank that falls from a conclusion to its premises: the number of recorded facts on
which they rest. -/
theorem Acyclic.exists_rank {p : Provenance} (h : p.Acyclic) :
    ∃ rank : Fact → Nat, (∀ f, rank f ≤ p.length) ∧ ∀ f g, p.Uses f g → rank g < rank f := by
  classical
  let below (f : Fact) : Finset Fact := p.facts.toFinset.filter (Relation.ReflTransGen p.Uses f)
  refine ⟨fun f => (below f).card, fun f => ?_, fun f g hfg => ?_⟩
  · calc (below f).card ≤ p.facts.toFinset.card := Finset.card_filter_le _ _
      _ ≤ p.facts.length := p.facts.toFinset_card_le
      _ = p.length := by simp [facts, length]
  · refine Finset.card_lt_card ⟨fun x hx => ?_, fun hsub => ?_⟩
    · simp only [below, Finset.mem_filter] at hx ⊢
      exact ⟨hx.1, .head hfg hx.2⟩
    · -- `f` rests on itself in no step, but not on a premise that rests on `f`
      have hf : f ∈ below f := by simp [below, hfg.mem_facts, Relation.ReflTransGen.refl]
      have hg : Relation.ReflTransGen p.Uses g f := by simpa [below, hfg.mem_facts] using hsub hf
      exact h f (.head' hfg hg)

theorem acyclic_of_rank {p : Provenance} (rank : Fact → Nat)
    (h : ∀ f g, p.Uses f g → rank g < rank f) : p.Acyclic := by
  have hlt : ∀ {f g : Fact}, Relation.TransGen p.Uses f g → rank g < rank f := by
    intro f g hfg
    induction hfg with
    | single huse => exact h _ _ huse
    | tail _ huse ih => exact (h _ _ huse).trans ih
  intro f hf
  exact Nat.lt_irrefl _ (hlt hf)

theorem Acyclic.wellFounded {p : Provenance} (h : p.Acyclic) :
    WellFounded fun g f => p.Uses f g := by
  obtain ⟨rank, -, hrank⟩ := h.exists_rank
  exact Subrelation.wf (fun {g f} hfg => hrank f g hfg) (measure rank).wf

theorem treeSize_pos (p : Provenance) (d : Nat) (f : Fact) : 0 < p.treeSize d f := by
  cases d with
  | zero => simp [treeSize]
  | succ d => rw [treeSize]; split <;> omega

/-- Beyond the rank of a fact the depth makes no difference to its tree. -/
theorem treeSize_succ {p : Provenance} {rank : Fact → Nat}
    (hrank : ∀ f g, p.Uses f g → rank g < rank f) {d : Nat} {f : Fact} (h : rank f ≤ d) :
    p.treeSize (d + 1) f = p.treeSize d f := by
  induction d generalizing f with
  | zero =>
    simp only [treeSize]
    split
    · next rule premises hf =>
      have hnil : premises = [] := by
        refine List.eq_nil_iff_forall_not_mem.2 fun g hg => ?_
        have hlt := hrank f g ⟨rule, premises, hf, hg⟩
        omega
      simp [hnil]
    · rfl
  | succ d ih =>
    rw [treeSize, treeSize]
    split
    · next rule premises hf =>
      have hsame : ∀ g ∈ premises, p.treeSize (d + 1) g = p.treeSize d g := by
        intro g hg
        have hlt := hrank f g ⟨rule, premises, hf, hg⟩
        exact ih (by omega)
      exact congrArg (· + 1) (List.foldr_ext _ _ 0 fun g hg n => by rw [hsame g hg])
    · rfl

/-- The number of nodes of the trees of several facts. -/
def pending (p : Provenance) (stack : List Fact) : Nat :=
  (stack.map (p.treeSize p.length)).sum

theorem pending_cons (p : Provenance) (f : Fact) (stack : List Fact) :
    p.pending (f :: stack) = p.treeSize p.length f + p.pending stack := by simp [pending]

theorem pending_append (p : Provenance) (fs stack : List Fact) :
    p.pending (fs ++ stack) = p.pending fs + p.pending stack := by simp [pending]

theorem Acyclic.treeSize_of_inferred {p : Provenance} (h : p.Acyclic) {f : Fact} {rule : String}
    {premises : List Fact} (hf : p.get? f = some (.inferred rule premises)) :
    p.treeSize p.length f = p.pending premises + 1 := by
  obtain ⟨rank, hle, hlt⟩ := h.exists_rank
  rw [← treeSize_succ hlt (hle f), treeSize, hf, pending, List.sum_eq_foldr, List.foldr_map]

/-- With a step for each node of the pending trees, the walk lists their traces in order. -/
theorem Acyclic.traceLoop_eq {p : Provenance} (h : p.Acyclic) {n : Nat} {stack : List Fact}
    (hn : p.pending stack ≤ n) :
    p.traceLoop n stack = stack.flatMap p.trace := by
  induction n using Nat.strongRecOn generalizing stack with
  | ind n ih =>
    cases stack with
    | nil => cases n <;> simp [traceLoop]
    | cons f stack =>
      have hpos := p.treeSize_pos p.length f
      rw [pending_cons] at hn
      obtain ⟨n, rfl⟩ : ∃ m, n = m + 1 := ⟨n - 1, by omega⟩
      obtain ⟨k, hk⟩ : ∃ k, p.treeSize p.length f = k + 1 := ⟨p.treeSize p.length f - 1, by omega⟩
      rw [traceLoop, List.flatMap_cons, trace, hk, traceLoop]
      split
      · next rule premises hf =>
        have hsize := h.treeSize_of_inferred hf
        have hall : p.traceLoop n (premises ++ stack) = (premises ++ stack).flatMap p.trace :=
          ih n (by omega) (by rw [pending_append]; omega)
        have hone : p.traceLoop k (premises ++ []) = (premises ++ []).flatMap p.trace :=
          ih k (by omega) (by simp only [List.append_nil]; omega)
        rw [hall, hone]
        simp
      · rw [ih n (by omega) (by omega)]
        cases k <;> simp [traceLoop]

theorem Acyclic.trace_of_inferred {p : Provenance} (h : p.Acyclic) {f : Fact} {rule : String}
    {premises : List Fact} (hf : p.get? f = some (.inferred rule premises)) :
    p.trace f = ⟨f, rule, premises⟩ :: premises.flatMap p.trace := by
  have hsize := h.treeSize_of_inferred hf
  rw [trace, hsize, traceLoop, hf]
  simp only [List.append_nil]
  rw [h.traceLoop_eq (Nat.le_refl _)]

theorem trace_of_not_inferred {p : Provenance} {f : Fact}
    (hf : ∀ rule premises, p.get? f ≠ some (.inferred rule premises)) : p.trace f = [] := by
  unfold trace
  cases p.treeSize p.length f with
  | zero => rfl
  | succ n =>
    rw [traceLoop]
    split
    · next rule premises h => exact absurd h (hf rule premises)
    · cases n <;> simp [traceLoop]

end Syllogism.Provenance
