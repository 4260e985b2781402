import Mathlib.Data.List.Forall2
import Syllogism.Proofs.Trace

/-! Writing a proof down. The lines that are read out of an acyclic provenance restate its entries,
and each line cites lines before it that state its premises. -/
namespace Syllogism

def States (lines : List Line) (n : Nat) (f : Fact) : Prop :=
  ∃ m l, n = m + 1 ∧ lines[m]? = some l ∧ l.fact = f

theorem States.mono {lines more : List Line} {n : Nat} {f : Fact} (h : States lines n f)
    (hp : lines <+: more) : States more n f := by
  obtain ⟨m, l, hn, hl, hf⟩ := h
  obtain ⟨rest, rfl⟩ := hp
  have hlt : m < lines.length := (List.getElem?_eq_some_iff.1 hl).1
  exact ⟨m, l, hn, by rw [List.getElem?_append_left hlt, hl], hf⟩

theorem states_append_singleton (lines : List Line) (l : Line) :
    States (lines ++ [l]) (lines.length + 1) l.fact :=
  ⟨lines.length, l, rfl, by simp, rfl⟩

theorem exists_line_of_states {lines : List Line} {ns : List Nat} {fs : List Fact}
    (h : List.Forall₂ (States lines) ns fs) : ∀ f ∈ fs, ∃ l ∈ lines, l.fact = f := by
  induction h with
  | nil => simp
  | cons hst _ ih =>
    obtain ⟨m, l, -, hl, hf⟩ := hst
    exact List.forall_mem_cons.2 ⟨⟨l, List.mem_of_getElem? hl, hf⟩, ih⟩

/-- The line has the next number and restates the entry of its fact; the lines that it cites state
the premises in order. -/
def Line.Follows (p : Provenance) (earlier : List Line) (l : Line) : Prop :=
  l.number = earlier.length + 1 ∧
    match l.justification with
    | .given => p.get? l.fact = some .given
    | .axiomatic rule => p.get? l.fact = some (.axiomatic rule)
    | .inferred rule ns =>
      ∃ fs, p.get? l.fact = some (.inferred rule fs) ∧ List.Forall₂ (States earlier) ns fs

def Follow (p : Provenance) : List Line → List Line → Prop
  | _, [] => True
  | earlier, l :: ls => l.Follows p earlier ∧ Follow p (earlier ++ [l]) ls

theorem follow_append_singleton {p : Provenance} {earlier ls : List Line} {l : Line} :
    Follow p earlier (ls ++ [l]) ↔ Follow p earlier ls ∧ l.Follows p (earlier ++ ls) := by
  induction ls generalizing earlier with
  | nil => simp [Follow]
  | cons k ls ih => simp [Follow, ih, and_assoc]

namespace Draft

@[simp] theorem lines_write (d : Draft) (f : Fact) (j : Justification) :
    (d.write f j).lines = d.lines ++ [⟨d.lines.length + 1, f, j⟩] := rfl

@[simp] theorem derivedAt_write (d : Draft) (f : Fact) (j : Justification) :
    (d.write f j).derivedAt = d.derivedAt := rfl

def Has (d : Draft) (f : Fact) : Prop := (d.derivedAt.lookup f).isSome = true

/-- A line that uses the fact could be written next. -/
def Citable (p : Provenance) (d : Draft) (f : Fact) : Prop :=
  (∃ o, p.get? f = some o ∧ o.isLeaf = true) ∨ d.Has f

theorem Citable.mono {p : Provenance} {d e : Draft} (h : ∀ g, d.Has g → e.Has g) {f : Fact}
    (hf : d.Citable p f) : e.Citable p f := hf.imp_right (h f)

/-- The lines follow from the provenance, and derived facts are found where they are stated. -/
structure Sound (p : Provenance) (d : Draft) : Prop where
  follow : Follow p [] d.lines
  states : ∀ f n, d.derivedAt.lookup f = some n → States d.lines n f

theorem sound_empty (p : Provenance) : ({} : Draft).Sound p :=
  ⟨trivial, fun f n h => by simp at h⟩

theorem Sound.write {p : Provenance} {d : Draft} (h : d.Sound p) {f : Fact} {j : Justification}
    (hl : (⟨d.lines.length + 1, f, j⟩ : Line).Follows p d.lines) : (d.write f j).Sound p := by
  refine ⟨?_, fun g n hg => (h.states g n hg).mono (List.prefix_append _ _)⟩
  exact follow_append_singleton.2 ⟨h.follow, by simpa using hl⟩

theorem Sound.cite {p : Provenance} {d : Draft} (h : d.Sound p) {fs : List Fact}
    (hfs : ∀ f ∈ fs, d.Citable p f) :
    ∃ ns e, d.cite p fs = some (ns, e) ∧ e.Sound p ∧ e.derivedAt = d.derivedAt ∧
      d.lines <+: e.lines ∧ List.Forall₂ (States e.lines) ns fs := by
  induction fs generalizing d with
  | nil => exact ⟨[], d, rfl, h, rfl, List.prefix_rfl, .nil⟩
  | cons f fs ih =>
    have hrest : ∀ g ∈ fs, d.Citable p g := fun g hg => hfs g (by simp [hg])
    rw [Draft.cite]
    cases hleaf : (p.get? f).filter (·.isLeaf) with
    | some o =>
      -- a leaf gets a line of its own each time it is cited
      obtain ⟨ho, hol⟩ := Option.filter_eq_some_iff.1 hleaf
      have hw : (d.write f (.ofLeaf o)).Sound p := by
        refine h.write ⟨rfl, ?_⟩
        cases o with
        | given => exact ho
        | axiomatic rule => exact ho
        | inferred rule premises => simp [Origin.isLeaf] at hol
      obtain ⟨ns, e, he, hs, hd, hp, hst⟩ := ih hw hrest
      refine ⟨(d.write f (.ofLeaf o)).lines.length :: ns, e, by simp [he], hs, hd,
        (List.prefix_append _ _).trans hp, .cons ?_ hst⟩
      have hlast := states_append_singleton d.lines ⟨d.lines.length + 1, f, .ofLeaf o⟩
      simpa using hlast.mono hp
    | none =>
      have hhas : d.Has f := by
        rcases hfs f (by simp) with ⟨o, ho, hol⟩ | hhas
        · simp [ho, hol] at hleaf
        · exact hhas
      obtain ⟨n, hn⟩ := Option.isSome_iff_exists.1 hhas
      obtain ⟨ns, e, he, hs, hd, hp, hst⟩ := ih h hrest
      refine ⟨n :: ns, e, by simp [hn, he], hs, hd, hp, ?_⟩
      exact .cons ((h.states f n hn).mono hp) hst

theorem Sound.infer {p : Provenance} {d : Draft} (h : d.Sound p) {i : Inference}
    (hi : p.get? i.fact = some (.inferred i.rule i.premises))
    (hfs : ∀ f ∈ i.premises, d.Citable p f) :
    ∃ e, d.infer p i = some e ∧ e.Sound p ∧ (∀ g, d.Has g → e.Has g) ∧ e.Has i.fact ∧
      e.lines.getLast?.map (·.fact) = some i.fact := by
  obtain ⟨ns, c, hc, hs, hd, -, hst⟩ := h.cite hfs
  have hw : (c.write i.fact (.inferred i.rule ns)).Sound p :=
    hs.write ⟨rfl, i.premises, hi, hst⟩
  have he : d.infer p i = some ⟨(c.write i.fact (.inferred i.rule ns)).lines,
      (i.fact, c.lines.length + 1) :: d.derivedAt⟩ := by
    simp [Draft.infer, hc, hd]
  refine ⟨_, he, ⟨hw.follow, fun g n hg => ?_⟩, fun g hg => ?_, by simp [Has], by simp⟩
  · by_cases hgi : g = i.fact
    · have hn : c.lines.length + 1 = n := by simpa [hgi] using hg
      rw [← hn, hgi]
      exact states_append_singleton c.lines _
    · have hb : (g == i.fact) = false := by simpa using hgi
      refine hw.states g n ?_
      simpa [List.lookup_cons, hb, hd] using hg
  · by_cases hgi : g = i.fact
    · simp [Has, hgi]
    · have hb : (g == i.fact) = false := by simpa using hgi
      simpa [Has, List.lookup_cons, hb] using hg

theorem inferAll_append (p : Provenance) (d : Draft) (xs ys : List Inference) :
    d.inferAll p (xs ++ ys) = (d.inferAll p xs).bind (·.inferAll p ys) := by
  induction xs generalizing d with
  | nil => rfl
  | cons x xs ih =>
    simp only [List.cons_append, inferAll]
    cases d.infer p x with
    | none => rfl
    | some e => exact ih e

/-- The inferences can be written behind the lines of `d`, and then the facts can be cited. -/
def Writes (p : Provenance) (d : Draft) (is : List Inference) (fs : List Fact) : Prop :=
  ∃ e, d.inferAll p is = some e ∧ e.Sound p ∧ (∀ g, d.Has g → e.Has g) ∧ ∀ f ∈ fs, e.Citable p f

/-- The traces of several facts are written one after another, that of the last fact first. -/
theorem writes_traces {p : Provenance} {fs : List Fact}
    (hfs : ∀ f ∈ fs, ∀ d : Draft, d.Sound p → d.Writes p (p.trace f).reverse [f]) {d : Draft}
    (hd : d.Sound p) : d.Writes p (fs.flatMap p.trace).reverse fs := by
  induction fs with
  | nil => exact ⟨d, rfl, hd, fun _ hg => hg, by simp⟩
  | cons f fs ih =>
    obtain ⟨c, hc, hcs, hdc, hcite⟩ := ih fun g hg => hfs g (by simp [hg])
    obtain ⟨e, he, hes, hce, hf⟩ := hfs f (by simp) c hcs
    refine ⟨e, ?_, hes, fun g hg => hce g (hdc g hg), ?_⟩
    · rw [List.flatMap_cons, List.reverse_append, inferAll_append, hc]
      exact he
    · exact List.forall_mem_cons.2 ⟨hf f (by simp), fun g hg => (hcite g hg).mono hce⟩

end Draft

/-- The fact and all that it rests on are recorded. -/
def Provenance.Grounded (p : Provenance) (f : Fact) : Prop :=
  ∀ g, Relation.ReflTransGen p.Uses f g → p.contains g = true

theorem Provenance.Grounded.premise {p : Provenance} {f g : Fact} (h : p.Grounded f)
    (hg : p.Uses f g) : p.Grounded g := fun x hx => h x (.head hg hx)

/-- Once the premises of a fact have been written, the rest of its trace is its own line. -/
theorem Draft.inferAll_trace {p : Provenance} (h : p.Acyclic) {f : Fact} {rule : String}
    {premises : List Fact} (hf : p.get? f = some (.inferred rule premises)) {d : Draft}
    (hd : d.Writes p (premises.flatMap p.trace).reverse premises) :
    ∃ e, d.inferAll p (p.trace f).reverse = some e ∧ e.Sound p ∧ (∀ g, d.Has g → e.Has g) ∧
      e.Has f ∧ e.lines.getLast?.map (·.fact) = some f := by
  obtain ⟨c, hc, hcs, hdc, hcite⟩ := hd
  obtain ⟨e, he, hes, hce, hef, hlast⟩ := hcs.infer (i := ⟨f, rule, premises⟩) hf hcite
  refine ⟨e, ?_, hes, fun g hg => hce g (hdc g hg), hef, hlast⟩
  rw [h.trace_of_inferred hf, List.reverse_cons, inferAll_append, hc]
  simp [inferAll, he]

theorem Provenance.Acyclic.writes_trace {p : Provenance} (h : p.Acyclic) {f : Fact}
    (hf : p.Grounded f) {d : Draft} (hd : d.Sound p) : d.Writes p (p.trace f).reverse [f] := by
  -- what is written for the premises before stays sound
  induction f using h.wellFounded.induction generalizing d with
  | _ f ih =>
    obtain ⟨o, ho⟩ := Option.isSome_iff_exists.1 (hf f .refl)
    cases ho' : o.isLeaf with
    | true =>
      have hnil : p.trace f = [] := by
        refine trace_of_not_inferred fun rule premises hi => ?_
        rw [ho, Option.some.injEq] at hi
        simp [hi, Origin.isLeaf] at ho'
      have hcite : d.Citable p f := .inl ⟨o, ho, ho'⟩
      exact ⟨d, by simp [hnil, Draft.inferAll], hd, fun _ hg => hg, by simpa using hcite⟩
    | false =>
      cases o with
      | given => simp [Origin.isLeaf] at ho'
      | axiomatic rule => simp [Origin.isLeaf] at ho'
      | inferred rule premises =>
        have hps : d.Writes p (premises.flatMap p.trace).reverse premises := by
          refine Draft.writes_traces (fun g hg c hc => ?_) hd
          have huse : p.Uses f g := ⟨rule, premises, ho, hg⟩
          exact ih g huse (hf.premise huse) hc
        obtain ⟨e, he, hes, hde, hef, -⟩ := Draft.inferAll_trace h ho hps
        have hcite : e.Citable p f := .inr hef
        exact ⟨e, he, hes, hde, by simpa using hcite⟩

namespace Proof

theorem exists_linesOf {p : Provenance} (h : p.Acyclic) {t : Fact} (ht : p.Grounded t) :
    ∃ lines, linesOf p t = some lines ∧ Follow p [] lines ∧
      lines.getLast?.map (·.fact) = some t := by
  obtain ⟨o, ho⟩ := Option.isSome_iff_exists.1 (ht t .refl)
  cases o with
  | given => exact ⟨[⟨1, t, .given⟩], by simp [linesOf, ho, Justification.ofLeaf],
      ⟨⟨rfl, ho⟩, trivial⟩, rfl⟩
  | axiomatic rule => exact ⟨[⟨1, t, .axiomatic rule⟩], by simp [linesOf, ho, Justification.ofLeaf],
      ⟨⟨rfl, ho⟩, trivial⟩, rfl⟩
  | inferred rule premises =>
    have hps : ({} : Draft).Writes p (premises.flatMap p.trace).reverse premises := by
      refine Draft.writes_traces (fun g hg c hc => ?_) (Draft.sound_empty p)
      exact h.writes_trace (ht.premise ⟨rule, premises, ho, hg⟩) hc
    obtain ⟨e, he, hes, -, -, hlast⟩ := Draft.inferAll_trace h ho hps
    exact ⟨e.lines, by simp [linesOf, ho, he], hes.follow, hlast⟩

theorem linesOf_of_unknown {p : Provenance} {t : Fact} (h : p.contains t = false) :
    linesOf p t = none := by
  have hn : p.get? t = none := by simpa [Provenance.contains] using h
  simp [linesOf, hn]

end Proof

end Syllogism
