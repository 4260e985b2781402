import Syllogism.Proofs.Citation

/-! The walk that lists the inferences of a derivation tree, turn by turn. In an acyclic provenance
it comes to its end, after one turn for each node of the tree, and what it has listed then is the
tree in preorder. -/
namespace Syllogism

/-- A walk on its way: the facts that are still to be visited, the next one first, and the
inferences that have been listed. -/
structure Walk where
  stack : List Fact
  listed : List Inference := []

namespace Walk

variable {p : Provenance} {w : Walk}

def start (f : Fact) : Walk := { stack := [f] }

/-- Takes the fact on top off the stack. If it was inferred, the inference is listed and the
premises go on the stack, the first one on top. -/
def turn (p : Provenance) (w : Walk) : Walk :=
  match w.stack with
  | [] => w
  | f :: stack =>
    match p.get? f with
    | some (.inferred rule premises) => ⟨premises ++ stack, w.listed ++ [⟨f, rule, premises⟩]⟩
    | _ => ⟨stack, w.listed⟩

def turns (p : Provenance) : Nat → Walk → Walk
  | 0, w => w
  | n + 1, w => turns p n (w.turn p)

theorem turn_of_nil (h : w.stack = []) : w.turn p = w := by simp [turn, h]

theorem turn_cases {f : Fact} {stack : List Fact} (h : w.stack = f :: stack) :
    (∃ rule premises, p.get? f = some (.inferred rule premises) ∧
      w.turn p = ⟨premises ++ stack, w.listed ++ [⟨f, rule, premises⟩]⟩) ∨
    ((∀ rule premises, p.get? f ≠ some (.inferred rule premises)) ∧
      w.turn p = ⟨stack, w.listed⟩) := by
  unfold turn
  rw [h]
  dsimp only
  split
  · next rule premises hf => exact .inl ⟨rule, premises, hf, rfl⟩
  · next hf => exact .inr ⟨hf, rfl⟩

theorem listed_turns (p : Provenance) (n : Nat) (w : Walk) :
    (w.turns p n).listed = w.listed ++ p.traceLoop n w.stack := by
  induction n generalizing w with
  | zero => simp [turns, Provenance.traceLoop]
  | succ n ih =>
    rw [turns, ih]
    cases hs : w.stack with
    | nil => cases n <;> simp [turn_of_nil hs, hs, Provenance.traceLoop]
    | cons f stack =>
      rw [Provenance.traceLoop]
      rcases turn_cases (p := p) hs with ⟨rule, premises, hf, ht⟩ | ⟨hf, ht⟩
      · simp [ht, hf]
      · rw [ht]
        split
        · next rule premises h => exact absurd h (hf rule premises)
        · rfl

end Walk

namespace Provenance

theorem treeSize_of_not_inferred {p : Provenance} {f : Fact}
    (hf : ∀ rule premises, p.get? f ≠ some (.inferred rule premises)) (d : Nat) :
    p.treeSize d f = 1 := by
  cases d with
  | zero => rfl
  | succ d =>
    rw [treeSize]
    split
    · next rule premises h => exact absurd h (hf rule premises)
    · rfl

theorem pending_eq_zero_iff {p : Provenance} {stack : List Fact} :
    p.pending stack = 0 ↔ stack = [] := by
  cases stack with
  | nil => simp [pending]
  | cons f stack =>
    have hpos := p.treeSize_pos p.length f
    simp only [pending_cons, reduceCtorEq, iff_false]
    omega

namespace Acyclic

variable {p : Provenance} (h : p.Acyclic) {w : Walk}
include h

theorem pending_turn (hw : w.stack ≠ []) :
    p.pending (w.turn p).stack + 1 = p.pending w.stack := by
  obtain ⟨f, stack, hs⟩ := List.exists_cons_of_ne_nil hw
  rw [hs, pending_cons]
  rcases Walk.turn_cases (p := p) hs with ⟨rule, premises, hf, ht⟩ | ⟨hf, ht⟩
  · rw [ht, h.treeSize_of_inferred hf, pending_append]
    omega
  · rw [ht, treeSize_of_not_inferred hf, Nat.add_comm]

/-- What has been listed, together with the traces of what is pending, stays the same: the record of
an inference moves from the one to the other. -/
theorem listed_turn : (w.turn p).listed ++ (w.turn p).stack.flatMap p.trace =
    w.listed ++ w.stack.flatMap p.trace := by
  cases hs : w.stack with
  | nil => rw [Walk.turn_of_nil hs, hs]
  | cons f stack =>
    rcases Walk.turn_cases (p := p) hs with ⟨rule, premises, hf, ht⟩ | ⟨hf, ht⟩
    · rw [ht, List.flatMap_cons, h.trace_of_inferred hf]
      simp
    · rw [ht, List.flatMap_cons, trace_of_not_inferred hf, List.nil_append]

theorem pending_turns {n : Nat} (hn : n ≤ p.pending w.stack) :
    p.pending (w.turns p n).stack + n = p.pending w.stack := by
  induction n generalizing w with
  | zero => rfl
  | succ n ih =>
    have hw : w.stack ≠ [] := by
      intro hs
      rw [pending_eq_zero_iff.2 hs] at hn
      omega
    have hturn := h.pending_turn hw
    have hrest := ih (w := w.turn p) (by omega)
    rw [Walk.turns]
    omega

theorem listed_turns (n : Nat) : (w.turns p n).listed ++ (w.turns p n).stack.flatMap p.trace =
    w.listed ++ w.stack.flatMap p.trace := by
  induction n generalizing w with
  | zero => rfl
  | succ n ih => rw [Walk.turns, ih, h.listed_turn]

theorem turns_pending :
    w.turns p (p.pending w.stack) = ⟨[], w.listed ++ w.stack.flatMap p.trace⟩ := by
  have hcount := h.pending_turns (w := w) (Nat.le_refl _)
  have hzero : p.pending (w.turns p (p.pending w.stack)).stack = 0 := by omega
  have hstack := pending_eq_zero_iff.1 hzero
  have hlisted := h.listed_turns (w := w) (p.pending w.stack)
  rw [hstack, List.flatMap_nil, List.append_nil] at hlisted
  rw [← hlisted, ← hstack]

/-- The walk from a fact through an acyclic provenance takes one turn for each node of its
derivation tree; then the stack is empty, for the first time, and the trace has been listed. The
trace is the preorder: nothing for a fact that was not inferred, and otherwise its inference,
followed by the traces of the premises in order. -/
theorem trace_isPreorder (f : Fact) :
    (∀ n, ((Walk.start f).turns p n).listed = p.traceLoop n [f]) ∧
    (Walk.start f).turns p (p.treeSize p.length f) = ⟨[], p.trace f⟩ ∧
    (∀ n < p.treeSize p.length f, ((Walk.start f).turns p n).stack ≠ []) ∧
    p.trace f = match p.get? f with
      | some (.inferred rule premises) => ⟨f, rule, premises⟩ :: premises.flatMap p.trace
      | _ => [] := by
  have hpending : p.pending (Walk.start f).stack = p.treeSize p.length f := by
    simp [Walk.start, pending]
  refine ⟨fun n => ?_, ?_, fun n hn hs => ?_, ?_⟩
  · simpa [Walk.start] using Walk.listed_turns p n (Walk.start f)
  · have hend := h.turns_pending (w := Walk.start f)
    rw [hpending] at hend
    simpa [Walk.start] using hend
  · have hcount := h.pending_turns (w := Walk.start f) (n := n) (by omega)
    rw [pending_eq_zero_iff.2 hs] at hcount
    omega
  · split
    · next rule premises hf => exact h.trace_of_inferred hf
    · next hf => exact trace_of_not_inferred hf

end Acyclic

open Proof (lionEntries)

/-- The inference that is used twice is listed twice, once for each of its places among the
premises, and the walk has eight facts to visit. -/
theorem trace_isPreorder_lions :
    lionEntries.Acyclic ∧
    (Walk.start (.particular "lion" "pet")).turns lionEntries 8 =
      ⟨[], lionEntries.trace (.particular "lion" "pet")⟩ ∧
    ((Walk.start (.particular "lion" "pet")).turns lionEntries 7).stack ≠ [] ∧
    (lionEntries.trace (.particular "lion" "pet")).map (·.rule) =
      ["triple", "barbara", "barbara"] ∧
    lionEntries.trace (.universal "pet" "pet") = [] := by
  have h := Proof.acyclic_lionEntries
  obtain ⟨-, hend, hbefore, htrace⟩ := h.trace_isPreorder (.particular "lion" "pet")
  have hsize : lionEntries.treeSize lionEntries.length (.particular "lion" "pet") = 8 := by
    decide +kernel
  rw [hsize] at hend hbefore
  obtain ⟨-, -, -, hleaf⟩ := h.trace_isPreorder (.universal "pet" "pet")
  refine ⟨h, hend, hbefore 7 (by decide), ?_, hleaf⟩
  rw [htrace]
  decide +kernel

end Provenance

end Syllogism
