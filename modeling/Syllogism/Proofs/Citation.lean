import Syllogism.Proofs.Transcript

/-! The shape of a written proof. Out of an acyclic provenance there come as many lines as the
derivation tree of the target has nodes; whatever was derived is cited at a line that states it, and
a line that rests on no other is cited once, by the next line that rests on others. -/
namespace Syllogism

/-- A derivation in which nothing is shared: a fact above the derivations of its premises. -/
inductive Derivation
  | node (fact : Fact) (branches : List Derivation)

namespace Derivation

def root : Derivation → Fact
  | node f _ => f

mutual

def size : Derivation → Nat
  | node _ ts => sizes ts + 1

def sizes : List Derivation → Nat
  | [] => 0
  | t :: ts => size t + sizes ts

end

theorem sizes_eq_sum {cost : Fact → Nat} {ts : List Derivation}
    (h : ∀ t ∈ ts, cost t.root = t.size) : sizes ts = ((ts.map root).map cost).sum := by
  induction ts with
  | nil => rfl
  | cons t ts ih =>
    have ht := h t (by simp)
    have hts := ih fun x hx => h x (by simp [hx])
    simp [sizes, ht, hts]

/-- Every node is recorded, and the branches at it stand for the premises that are recorded with it,
in order. -/
inductive Unfolds (p : Provenance) : Derivation → Prop
  | node {f : Fact} {o : Origin} {ts : List Derivation} (ho : p.get? f = some o)
      (hroots : ts.map root = o.premises) (hts : ∀ t ∈ ts, Unfolds p t) : Unfolds p (.node f ts)

end Derivation

namespace Justification

def cites : Justification → List Nat
  | inferred _ ns => ns
  | _ => []

def isLeaf : Justification → Bool
  | inferred _ _ => false
  | _ => true

end Justification

namespace Line

def cites (l : Line) : List Nat := l.justification.cites

def isLeaf (l : Line) : Bool := l.justification.isLeaf

theorem cites_of_isLeaf {l : Line} (h : l.isLeaf = true) : l.cites = [] := by
  obtain ⟨number, fact, justification⟩ := l
  cases justification with
  | given => rfl
  | axiomatic rule => rfl
  | inferred rule ns => cases h

end Line

namespace Provenance

def isLeaf (p : Provenance) (f : Fact) : Bool := ((p.get? f).filter (·.isLeaf)).isSome

theorem isLeaf_of_get? {p : Provenance} {f : Fact} {o : Origin} (h : p.get? f = some o) :
    p.isLeaf f = o.isLeaf := by
  cases ho : o.isLeaf <;> simp [isLeaf, h, ho]

theorem trace_of_isLeaf {p : Provenance} {f : Fact} (h : p.isLeaf f = true) : p.trace f = [] := by
  refine trace_of_not_inferred fun rule premises ho => ?_
  rw [isLeaf_of_get? ho] at h
  cases h

/-- The lines that are written for an inference: its own and those of the premises that rest on no
other fact. -/
def linesFor (p : Provenance) (i : Inference) : Nat := i.premises.countP p.isLeaf + 1

/-- The lines that are written for a fact where it is used. -/
def cost (p : Provenance) (f : Fact) : Nat :=
  ((p.trace f).map p.linesFor).sum + if p.isLeaf f then 1 else 0

theorem sum_cost (p : Provenance) (fs : List Fact) :
    (fs.map p.cost).sum = ((fs.flatMap p.trace).map p.linesFor).sum + fs.countP p.isLeaf := by
  induction fs with
  | nil => rfl
  | cons f fs ih =>
    simp only [List.map_cons, List.sum_cons, ih, cost, List.flatMap_cons, List.map_append,
      List.sum_append, List.countP_cons]
    omega

/-- Each node of the derivation tree costs one line. -/
theorem Acyclic.cost_root {p : Provenance} (h : p.Acyclic) {t : Derivation} (ht : t.Unfolds p) :
    p.cost t.root = t.size := by
  induction ht with
  | @node f o ts ho hroots _ ih =>
    have hsizes := Derivation.sizes_eq_sum ih
    have hleaf := isLeaf_of_get? ho
    rw [Derivation.size, hsizes, hroots, sum_cost, Derivation.root, cost]
    cases o with
    | given => simp [trace_of_isLeaf hleaf, hleaf, Origin.premises, Origin.isLeaf]
    | axiomatic rule => simp [trace_of_isLeaf hleaf, hleaf, Origin.premises, Origin.isLeaf]
    | inferred rule premises =>
      simp only [h.trace_of_inferred ho, hleaf, Origin.premises, Origin.isLeaf, List.map_cons,
        List.sum_cons, linesFor, Bool.false_eq_true, if_false]
      omega

theorem Acyclic.exists_unfolds {p : Provenance} (h : p.Acyclic) {f : Fact} (hf : p.Grounded f) :
    ∃ t : Derivation, t.Unfolds p ∧ t.root = f := by
  induction f using h.wellFounded.induction with
  | _ f ih =>
    obtain ⟨o, ho⟩ := Option.isSome_iff_exists.1 (hf f .refl)
    have hpremise : ∀ g ∈ o.premises, ∃ t : Derivation, t.Unfolds p ∧ t.root = g := by
      intro g hg
      cases o with
      | given => cases hg
      | axiomatic rule => cases hg
      | inferred rule premises =>
        have huse : p.Uses f g := ⟨rule, premises, ho, hg⟩
        exact ih g huse (hf.premise huse)
    have : Nonempty Derivation := ⟨.node f []⟩
    choose! tree htree hroot using hpremise
    refine ⟨.node f (o.premises.map tree), .node ho ?_ ?_, rfl⟩
    · rw [List.map_map]
      exact (List.map_congr_left hroot).trans (List.map_id _)
    · simpa using htree

theorem Acyclic.mem_trace {p : Provenance} (h : p.Acyclic) {t f : Fact} {rule : String}
    {premises : List Fact} (htf : Relation.ReflTransGen p.Uses t f)
    (hf : p.get? f = some (.inferred rule premises)) : ⟨f, rule, premises⟩ ∈ p.trace t := by
  induction htf using Relation.ReflTransGen.head_induction_on with
  | refl => simp [h.trace_of_inferred hf]
  | @head t g htg _ ih =>
    obtain ⟨rule', premises', ht, hg⟩ := htg
    rw [h.trace_of_inferred ht]
    exact List.mem_cons_of_mem _ (List.mem_flatMap.2 ⟨g, hg, ih⟩)

theorem get?_of_mem_trace {p : Provenance} {t : Fact} {i : Inference} (hi : i ∈ p.trace t) :
    p.get? i.fact = some (.inferred i.rule i.premises) := by
  have hloop : ∀ (n : Nat) (stack : List Fact), i ∈ p.traceLoop n stack →
      p.get? i.fact = some (.inferred i.rule i.premises) := by
    intro n stack
    fun_induction p.traceLoop n stack with
    | case1 => simp
    | case2 => simp
    | case3 n f stack rule premises hf ih =>
      intro hm
      rcases List.mem_cons.1 hm with rfl | hm
      · exact hf
      · exact ih hm
    | case4 n f stack _ ih => exact ih
  exact hloop _ _ hi

end Provenance

namespace Draft

/-- What citing comes to: `leaves` are written behind the lines of `d`, the lines `olds` were
written for facts derived before, and these together are the lines that are cited. -/
structure Citation (p : Provenance) (d : Draft) (fs : List Fact) (ns : List Nat) (e : Draft)
    (leaves : List Line) (olds : List Nat) : Prop where
  lines : e.lines = d.lines ++ leaves
  derivedAt : e.derivedAt = d.derivedAt
  isLeaf : ∀ l ∈ leaves, l.isLeaf = true
  length : leaves.length = fs.countP p.isLeaf
  numbers : leaves.map (·.number) = List.range' (d.lines.length + 1) leaves.length
  cited : ns.Perm (leaves.map (·.number) ++ olds)
  derived : ∀ n ∈ olds, ∃ f, d.derivedAt.lookup f = some n
  citable : ∀ f ∈ fs, d.Citable p f

namespace Citation

variable {p : Provenance} {d e : Draft} {f : Fact} {fs : List Fact} {ns olds : List Nat}
  {leaves : List Line}

theorem mem_numbers (h : d.Citation p fs ns e leaves olds) (n : Nat) :
    n ∈ leaves.map (·.number) ↔ d.lines.length < n ∧ n ≤ d.lines.length + leaves.length := by
  rw [h.numbers, List.mem_range'_1]
  omega

theorem flatMap_cites (h : d.Citation p fs ns e leaves olds) (r : Line) :
    (d.lines ++ (leaves ++ [r])).flatMap Line.cites = d.lines.flatMap Line.cites ++ r.cites := by
  have hleaves : leaves.flatMap Line.cites = [] :=
    List.flatMap_eq_nil_iff.2 fun l hl => Line.cites_of_isLeaf (h.isLeaf l hl)
  simp [hleaves]

theorem cons_leaf {o : Origin} (ho : p.get? f = some o) (hleaf : o.isLeaf = true)
    (h : (d.write f (.ofLeaf o)).Citation p fs ns e leaves olds) :
    d.Citation p (f :: fs) ((d.lines.length + 1) :: ns) e
      (⟨d.lines.length + 1, f, .ofLeaf o⟩ :: leaves) olds := by
  have hl : (⟨d.lines.length + 1, f, .ofLeaf o⟩ : Line).isLeaf = true := by
    cases o with
    | given => rfl
    | axiomatic rule => rfl
    | inferred rule premises => cases hleaf
  refine ⟨?_, h.derivedAt, ?_, ?_, ?_, ?_, h.derived, ?_⟩
  · exact h.lines.trans (by simp)
  · exact List.forall_mem_cons.2 ⟨hl, h.isLeaf⟩
  · have hp : p.isLeaf f = true := (Provenance.isLeaf_of_get? ho).trans hleaf
    simp [h.length, hp]
  · simp [h.numbers, List.range'_succ]
  · simpa using h.cited
  · exact List.forall_mem_cons.2 ⟨.inl ⟨o, ho, hleaf⟩, h.citable⟩

theorem cons_derived {n : Nat} (hleaf : p.isLeaf f = false) (hn : d.derivedAt.lookup f = some n)
    (h : d.Citation p fs ns e leaves olds) :
    d.Citation p (f :: fs) (n :: ns) e leaves (n :: olds) := by
  refine ⟨h.lines, h.derivedAt, h.isLeaf, ?_, h.numbers, ?_, ?_, ?_⟩
  · simp [h.length, hleaf]
  · exact (h.cited.cons n).trans List.perm_middle.symm
  · exact List.forall_mem_cons.2 ⟨⟨f, hn⟩, h.derived⟩
  · exact List.forall_mem_cons.2 ⟨.inr (by simp [Has, hn]), h.citable⟩

end Citation

theorem exists_citation {p : Provenance} {d e : Draft} {fs : List Fact} {ns : List Nat}
    (h : d.cite p fs = some (ns, e)) : ∃ leaves olds, d.Citation p fs ns e leaves olds := by
  induction fs generalizing d ns with
  | nil =>
    obtain ⟨rfl, rfl⟩ : [] = ns ∧ d = e := by simpa [cite] using h
    exact ⟨[], [], by constructor <;> simp⟩
  | cons f fs ih =>
    rw [cite] at h
    cases hleaf : (p.get? f).filter (·.isLeaf) with
    | some o =>
      simp only [hleaf, Option.map_eq_some_iff] at h
      obtain ⟨⟨ms, e'⟩, hms, hns⟩ := h
      obtain ⟨rfl, rfl⟩ := Prod.mk.inj hns
      obtain ⟨leaves, olds, hc⟩ := ih hms
      obtain ⟨ho, hol⟩ := Option.filter_eq_some_iff.1 hleaf
      simpa using ⟨_, _, hc.cons_leaf ho hol⟩
    | none =>
      simp only [hleaf] at h
      cases hn : d.derivedAt.lookup f with
      | none => simp [hn] at h
      | some n =>
        simp only [hn, Option.map_eq_some_iff] at h
        obtain ⟨⟨ms, e'⟩, hms, hns⟩ := h
        obtain ⟨rfl, rfl⟩ := Prod.mk.inj hns
        obtain ⟨leaves, olds, hc⟩ := ih hms
        exact ⟨leaves, n :: olds, hc.cons_derived (by simp [Provenance.isLeaf, hleaf]) hn⟩

/-- Writing an inference puts the leaves among its premises and a line `r` of its own behind the
lines that there are. -/
theorem infer_eq_some {p : Provenance} {d e : Draft} {i : Inference} (h : d.infer p i = some e) :
    ∃ c leaves olds r, d.Citation p i.premises r.cites c leaves olds ∧ r.isLeaf = false ∧
      r.number = d.lines.length + leaves.length + 1 ∧ e.lines = d.lines ++ (leaves ++ [r]) ∧
      e.derivedAt = (i.fact, r.number) :: d.derivedAt := by
  obtain ⟨⟨ns, c⟩, hcite, rfl⟩ := Option.map_eq_some_iff.1 h
  obtain ⟨leaves, olds, hc⟩ := exists_citation hcite
  refine ⟨c, leaves, olds, ⟨c.lines.length + 1, i.fact, .inferred i.rule ns⟩, hc, rfl, ?_, ?_, ?_⟩
  · simp [hc.lines]
  · simp [hc.lines]
  · simp [hc.derivedAt]

end Draft

/-- The line rests on no other and is cited once, by the next line that rests on others. -/
def CitedNext (lines : List Line) (l : Line) : Prop :=
  (∃ before between after r, lines = before ++ l :: (between ++ r :: after) ∧
    (∀ k ∈ between, k.isLeaf = true) ∧ r.isLeaf = false ∧ l.number ∈ r.cites) ∧
  (lines.flatMap Line.cites).count l.number = 1

namespace Draft

/-- The lines are numbered in order and cite lines that were written before; derived facts stand on
lines that rest on others, and every leaf is cited by the next such line. -/
structure Settled (d : Draft) : Prop where
  numbers : d.lines.map (·.number) = List.range' 1 d.lines.length
  cites_le : ∀ n ∈ d.lines.flatMap Line.cites, n ≤ d.lines.length
  derived : ∀ f n, d.derivedAt.lookup f = some n → ∃ l ∈ d.lines, l.number = n ∧ l.isLeaf = false
  cited : ∀ l ∈ d.lines, l.isLeaf = true → CitedNext d.lines l

theorem settled_empty : ({} : Draft).Settled := by
  constructor <;> simp

namespace Settled

variable {d : Draft}

theorem number_le (h : d.Settled) {l : Line} (hl : l ∈ d.lines) : l.number ≤ d.lines.length := by
  have hm : l.number ∈ List.range' 1 d.lines.length := h.numbers ▸ List.mem_map_of_mem hl
  have hrange := List.mem_range'_1.1 hm
  omega

theorem eq_of_number (h : d.Settled) {k l : Line} (hk : k ∈ d.lines) (hl : l ∈ d.lines)
    (he : k.number = l.number) : k = l :=
  List.inj_on_of_nodup_map (h.numbers ▸ List.nodup_range') hk hl he

section Citation

variable {p : Provenance} {c : Draft} {fs : List Fact} {ns olds : List Nat} {leaves : List Line}

theorem exists_of_mem_olds (h : d.Settled) (hc : d.Citation p fs ns c leaves olds) {n : Nat}
    (hn : n ∈ olds) : ∃ l ∈ d.lines, l.number = n ∧ l.isLeaf = false := by
  obtain ⟨f, hf⟩ := hc.derived n hn
  exact h.derived f n hf

theorem not_mem_of_old (h : d.Settled) (hc : d.Citation p fs ns c leaves olds) {l : Line}
    (hl : l ∈ d.lines) (hleaf : l.isLeaf = true) : l.number ∉ ns := by
  intro hm
  rw [hc.cited.mem_iff, List.mem_append] at hm
  rcases hm with hm | hm
  · have hle := h.number_le hl
    have hlt := (hc.mem_numbers _).1 hm
    omega
  · obtain ⟨k, hk, hkl, hkf⟩ := h.exists_of_mem_olds hc hm
    rw [h.eq_of_number hk hl hkl, hleaf] at hkf
    cases hkf

theorem count_of_new (h : d.Settled) (hc : d.Citation p fs ns c leaves olds) {l : Line}
    (hl : l ∈ leaves) :
    l.number ∉ d.lines.flatMap Line.cites ∧ ns.count l.number = 1 := by
  have hmem : l.number ∈ leaves.map (·.number) := List.mem_map_of_mem hl
  have hlt := (hc.mem_numbers _).1 hmem
  have holds : l.number ∉ olds := by
    intro hm
    obtain ⟨k, hk, hkl, -⟩ := h.exists_of_mem_olds hc hm
    have hle := h.number_le hk
    omega
  have hnodup : (leaves.map (·.number)).Nodup := hc.numbers ▸ List.nodup_range'
  refine ⟨fun hm => ?_, ?_⟩
  · have hle := h.cites_le _ hm
    omega
  · rw [hc.cited.count_eq, List.count_append, List.count_eq_one_of_mem hnodup hmem,
      List.count_eq_zero_of_not_mem holds]

theorem citedNext_of_old {r : Line} (h : d.Settled) (hc : d.Citation p fs r.cites c leaves olds)
    {l : Line} (hl : l ∈ d.lines) (hleaf : l.isLeaf = true) :
    CitedNext (d.lines ++ (leaves ++ [r])) l := by
  obtain ⟨⟨before, between, after, k, hsplit, hbetween, hk, hlk⟩, hone⟩ := h.cited l hl hleaf
  refine ⟨⟨before, between, after ++ (leaves ++ [r]), k, ?_, hbetween, hk, hlk⟩, ?_⟩
  · simp [hsplit]
  · rw [hc.flatMap_cites, List.count_append, hone,
      List.count_eq_zero_of_not_mem (h.not_mem_of_old hc hl hleaf)]

theorem citedNext_of_new {r : Line} (h : d.Settled) (hc : d.Citation p fs r.cites c leaves olds)
    (hr : r.isLeaf = false) {l : Line} (hl : l ∈ leaves) :
    CitedNext (d.lines ++ (leaves ++ [r])) l := by
  obtain ⟨before, between, hsplit⟩ := List.append_of_mem hl
  obtain ⟨hbefore, hone⟩ := h.count_of_new hc hl
  refine ⟨⟨d.lines ++ before, between, [], r, ?_, ?_, hr, ?_⟩, ?_⟩
  · simp [hsplit]
  · intro k hk
    exact hc.isLeaf k (by simp [hsplit, hk])
  · exact List.count_pos_iff.1 (by omega)
  · rw [hc.flatMap_cites, List.count_append, hone, List.count_eq_zero_of_not_mem hbefore]

end Citation

theorem infer {p : Provenance} {e : Draft} {i : Inference} (h : d.Settled)
    (he : d.infer p i = some e) : e.Settled := by
  obtain ⟨c, leaves, olds, r, hc, hr, hnumber, hlines, hderived⟩ := infer_eq_some he
  refine ⟨?_, ?_, ?_, ?_⟩
  · have hsucc : r.number = 1 + (d.lines.length + leaves.length) := by omega
    rw [hlines, List.map_append, List.map_append, h.numbers, hc.numbers, List.map_singleton, hsucc,
      ← List.append_assoc, Nat.add_comm d.lines.length 1, List.range'_append_1,
      ← List.range'_1_concat]
    simp [Nat.add_assoc]
  · have hlength : e.lines.length = d.lines.length + leaves.length + 1 := by
      simp [hlines, Nat.add_assoc]
    intro n hn
    rw [hlines, hc.flatMap_cites, List.mem_append, hc.cited.mem_iff, List.mem_append,
      hc.mem_numbers] at hn
    rcases hn with hn | hn | hn
    · have hle := h.cites_le n hn
      omega
    · omega
    · obtain ⟨l, hl, rfl, -⟩ := h.exists_of_mem_olds hc hn
      have hle := h.number_le hl
      omega
  · intro f n hf
    by_cases hfi : f = i.fact
    · exact ⟨r, by simp [hlines], by simpa [hderived, hfi] using hf, hr⟩
    · have hb : (f == i.fact) = false := by simpa using hfi
      obtain ⟨l, hl, hn, hll⟩ := h.derived f n (by simpa [hderived, List.lookup_cons, hb] using hf)
      exact ⟨l, by simp [hlines, hl], hn, hll⟩
  · intro l hl hleaf
    simp only [hlines, List.mem_append, List.mem_singleton] at hl ⊢
    rcases hl with hl | hl | rfl
    · exact h.citedNext_of_old hc hl hleaf
    · exact h.citedNext_of_new hc hr hl
    · rw [hr] at hleaf
      cases hleaf

theorem inferAll {p : Provenance} {e : Draft} {is : List Inference} (h : d.Settled)
    (he : d.inferAll p is = some e) : e.Settled := by
  induction is generalizing d with
  | nil =>
    obtain rfl : d = e := by simpa [Draft.inferAll] using he
    exact h
  | cons i is ih =>
    obtain ⟨c, hc, hce⟩ := Option.bind_eq_some_iff.1 he
    exact ih (h.infer hc) hce

end Settled

theorem length_of_inferAll {p : Provenance} {d e : Draft} {is : List Inference}
    (he : d.inferAll p is = some e) :
    e.lines.length = d.lines.length + (is.map p.linesFor).sum := by
  induction is generalizing d with
  | nil =>
    obtain rfl : d = e := by simpa [inferAll] using he
    simp
  | cons i is ih =>
    obtain ⟨c, hc, hce⟩ := Option.bind_eq_some_iff.1 he
    obtain ⟨_, leaves, olds, r, hcite, -, -, hlines, -⟩ := infer_eq_some hc
    have hlength : c.lines.length = d.lines.length + p.linesFor i := by
      simp [hlines, hcite.length, Provenance.linesFor]
    rw [ih hce, hlength, List.map_cons, List.sum_cons, Nat.add_assoc]

/-- If inferences can be written, each of their premises can be cited at the start or is among their
conclusions. -/
theorem premises_of_inferAll {p : Provenance} {d e : Draft} {is : List Inference}
    (he : d.inferAll p is = some e) : ∀ i ∈ is, ∀ f ∈ i.premises,
      d.Citable p f ∨ ∃ j ∈ is, j.fact = f := by
  induction is generalizing d with
  | nil => simp
  | cons i is ih =>
    obtain ⟨c, hc, hce⟩ := Option.bind_eq_some_iff.1 he
    obtain ⟨_, leaves, olds, r, hcite, -, -, -, hderived⟩ := infer_eq_some hc
    intro j hj f hf
    rcases List.mem_cons.1 hj with rfl | hj
    · exact .inl (hcite.citable f hf)
    · rcases ih hce j hj f hf with (hleaf | hhas) | ⟨k, hk, hkf⟩
      · exact .inl (.inl hleaf)
      · by_cases hfi : f = i.fact
        · exact .inr ⟨i, by simp, hfi.symm⟩
        · have hb : (f == i.fact) = false := by simpa using hfi
          exact .inl (.inr (by simpa [Has, hderived, List.lookup_cons, hb] using hhas))
      · exact .inr ⟨k, by simp [hk], hkf⟩

end Draft

namespace Proof

theorem exists_inferAll {p : Provenance} {t : Fact} {lines : List Line}
    (ht : p.isLeaf t = false) (hl : linesOf p t = some lines) :
    ∃ d, ({} : Draft).inferAll p (p.trace t).reverse = some d ∧ d.lines = lines := by
  unfold linesOf at hl
  split at hl
  · cases hl
  · exact Option.map_eq_some_iff.1 hl
  · next o hni ho =>
    rw [Provenance.isLeaf_of_get? ho] at ht
    cases o with
    | given => cases ht
    | axiomatic rule => cases ht
    | inferred rule premises => exact absurd rfl (hni rule premises)

theorem length_linesOf_of_isLeaf {p : Provenance} {t : Fact} {lines : List Line}
    (ht : p.isLeaf t = true) (hl : linesOf p t = some lines) : lines.length = 1 := by
  obtain ⟨o, ho⟩ := Option.isSome_iff_exists.1 ht
  obtain ⟨ho, hleaf⟩ := Option.filter_eq_some_iff.1 ho
  cases o with
  | given =>
    obtain rfl : _ = lines := by simpa [linesOf, ho] using hl
    rfl
  | axiomatic rule =>
    obtain rfl : _ = lines := by simpa [linesOf, ho] using hl
    rfl
  | inferred rule premises => cases hleaf

/-- Lines come only out of a provenance that records whatever the target rests on. -/
theorem grounded_of_linesOf {p : Provenance} (h : p.Acyclic) {t : Fact} {lines : List Line}
    (hl : linesOf p t = some lines) : p.Grounded t := by
  intro g hg
  -- `g` is the target or a premise of an inference that was written
  rcases Relation.ReflTransGen.cases_tail hg with rfl | ⟨f, htf, rule, premises, hf, hgf⟩
  · cases hc : p.contains g with
    | true => rfl
    | false => simp [linesOf_of_unknown hc] at hl
  · have hi := h.mem_trace htf hf
    cases ht : p.isLeaf t with
    | true =>
      simp [Provenance.trace_of_isLeaf ht] at hi
    | false =>
      obtain ⟨d, hd, -⟩ := exists_inferAll ht hl
      have hpremise := Draft.premises_of_inferAll hd _ (List.mem_reverse.2 hi) g hgf
      rcases hpremise with (⟨o, ho, -⟩ | hhas) | ⟨j, hj, rfl⟩
      · simp [Provenance.contains, ho]
      · simp [Draft.Has] at hhas
      · simp [Provenance.contains, Provenance.get?_of_mem_trace (List.mem_reverse.1 hj)]

theorem length_linesOf {p : Provenance} (h : p.Acyclic) {t : Derivation} (ht : t.Unfolds p)
    {lines : List Line} (hl : linesOf p t.root = some lines) : lines.length = t.size := by
  rw [← h.cost_root ht, Provenance.cost]
  cases hleaf : p.isLeaf t.root with
  | true =>
    simp [length_linesOf_of_isLeaf hleaf hl, Provenance.trace_of_isLeaf hleaf]
  | false =>
    obtain ⟨d, hd, rfl⟩ := exists_inferAll hleaf hl
    simp [Draft.length_of_inferAll hd, List.sum_reverse]

theorem follows_of_follow {p : Provenance} {earlier lines : List Line} (h : Follow p earlier lines)
    {i : Nat} {l : Line} (hl : lines[i]? = some l) : l.Follows p (earlier ++ lines.take i) := by
  induction lines generalizing earlier i with
  | nil => simp at hl
  | cons k ls ih =>
    cases i with
    | zero =>
      obtain rfl : k = l := by simpa using hl
      simpa using h.1
    | succ i => simpa using ih h.2 (by simpa using hl)

/-- A proof is found exactly if the target and all that it rests on are recorded. It ends in the
target; each line has the next number, restates the entry of its fact and cites earlier lines for
the premises in order; there is a line for each node of the derivation tree; and where the target
rests on others, every leaf is cited once, by the next line that rests on others. -/
theorem ofProvenance_transcribes_derivation {p : Provenance} (h : p.Acyclic) (t : Fact)
    (rounds : Nat) (now : Instant) :
    ((ofProvenance p t rounds now).isSome = true ↔ p.Grounded t) ∧
    ∀ q, ofProvenance p t rounds now = some q →
      q.target = t ∧ q.rounds = rounds ∧ q.generatedAt = now ∧ q.conclusion = some t ∧
      (∀ (i : Nat) (l : Line), q.steps[i]? = some l → l.Follows p (q.steps.take i)) ∧
      (∃ tree : Derivation, tree.Unfolds p ∧ tree.root = t) ∧
      (∀ tree : Derivation, tree.Unfolds p → tree.root = t → q.steps.length = tree.size) ∧
      (p.isLeaf t = false → ∀ l ∈ q.steps, l.isLeaf = true → CitedNext q.steps l) := by
  refine ⟨⟨fun hq => ?_, fun ht => ?_⟩, fun q hq => ?_⟩
  · obtain ⟨q, hq⟩ := Option.isSome_iff_exists.1 hq
    obtain ⟨lines, hl, -⟩ := Option.map_eq_some_iff.1 hq
    exact grounded_of_linesOf h hl
  · obtain ⟨lines, hl, -⟩ := exists_linesOf h ht
    simp [ofProvenance, hl]
  · obtain ⟨lines, hl, rfl⟩ := Option.map_eq_some_iff.1 hq
    have ht := grounded_of_linesOf h hl
    obtain ⟨lines', hl', hfollow, hlast⟩ := exists_linesOf h ht
    obtain rfl : lines' = lines := Option.some.inj (hl'.symm.trans hl)
    refine ⟨rfl, rfl, rfl, hlast, fun i l hi => ?_, h.exists_unfolds ht, ?_, fun hleaf => ?_⟩
    · simpa using follows_of_follow hfollow hi
    · rintro tree htree rfl
      exact length_linesOf h htree hl
    · obtain ⟨d, hd, rfl⟩ := exists_inferAll hleaf hl
      exact (Draft.settled_empty.inferAll hd).cited

/-- Lions are cats and cats are pets; what follows is used twice, next to a given fact that has been
used before. That lions are tame rests on something unknown. -/
def lionEntries : Provenance :=
  ⟨[(.universal "lion" "cat", .given), (.universal "cat" "pet", .given),
    (.universal "lion" "pet", .inferred "barbara" [.universal "lion" "cat",
      .universal "cat" "pet"]),
    (.universal "pet" "pet", .axiomatic "reflexive"),
    (.particular "lion" "pet", .inferred "triple" [.universal "lion" "pet",
      .universal "lion" "cat", .universal "lion" "pet"]),
    (.universal "lion" "tame", .inferred "barbara" [.universal "lion" "pet",
      .universal "pet" "tame"])]⟩

theorem acyclic_lionEntries : lionEntries.Acyclic := by
  let rank : Fact → Nat := (Fact.universal "pet" "tame" :: lionEntries.facts).idxOf
  have hfalls : ∀ e ∈ lionEntries.entries, ∀ g ∈ e.2.premises, rank g < rank e.1 := by
    decide +kernel
  refine Provenance.acyclic_of_rank rank fun f g ⟨rule, premises, hf, hg⟩ => ?_
  obtain ⟨before, after, heq, -⟩ := List.lookup_eq_some_iff.1 hf
  exact hfalls (f, .inferred rule premises) (by simp [heq]) g hg

/-- The shared derivation is written twice and cited at its last line, the given facts each time
where they are used; nothing is written where a premise is unknown. -/
theorem ofProvenance_transcribes_derivation_lions :
    (∃ q, ofProvenance lionEntries (.particular "lion" "pet") 2 ⟨2026, 1, 1, 0, 0, 0, 0⟩ = some q ∧
      q.steps.map Line.cites = [[], [], [1, 2], [], [], [4, 5], [], [6, 7, 6]] ∧
      (∀ tree : Derivation, tree.Unfolds lionEntries → tree.root = .particular "lion" "pet" →
        tree.size = 8) ∧
      ∀ l ∈ q.steps, l.isLeaf = true → CitedNext q.steps l) ∧
    ¬ lionEntries.Grounded (.universal "lion" "tame") := by
  obtain ⟨-, hshape⟩ := ofProvenance_transcribes_derivation acyclic_lionEntries
    (.particular "lion" "pet") 2 ⟨2026, 1, 1, 0, 0, 0, 0⟩
  obtain ⟨hsome, -⟩ := ofProvenance_transcribes_derivation acyclic_lionEntries
    (.universal "lion" "tame") 2 ⟨2026, 1, 1, 0, 0, 0, 0⟩
  refine ⟨⟨_, rfl, by decide +kernel, ?_, ?_⟩, ?_⟩
  · intro tree htree hroot
    obtain ⟨-, -, -, -, -, -, hsize, -⟩ := hshape _ rfl
    exact (hsize tree htree hroot).symm.trans (by decide +kernel)
  · obtain ⟨-, -, -, -, -, -, -, hcited⟩ := hshape _ rfl
    exact hcited (by decide +kernel)
  · rw [← hsome]
    decide +kernel

end Proof

end Syllogism
