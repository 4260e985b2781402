import Syllogism.Proofs.Unification

/-! What one application of a rule does, said without search: the rule has a list of consequences,
one for each tuple of facts from which it derives something, and an application records those whose
fact is new, one after another. -/
namespace Syllogism

/-- All lists of the given length over `xs`, in lexicographic order of the places in `xs`. -/
def tuples {α : Type} (xs : List α) : Nat → List (List α)
  | 0 => [[]]
  | n + 1 => xs.flatMap fun x => (tuples xs n).map (x :: ·)

theorem mem_tuples {α : Type} {xs ys : List α} {n : Nat} :
    ys ∈ tuples xs n ↔ ys.length = n ∧ ∀ y ∈ ys, y ∈ xs := by
  induction n generalizing ys with
  | zero =>
    simp only [tuples, List.mem_singleton, List.length_eq_zero_iff]
    constructor
    · rintro rfl
      simp
    · exact And.left
  | succ n ih =>
    cases ys with
    | nil => simp [tuples]
    | cons y ys =>
      simp only [tuples, List.mem_flatMap, List.mem_map, List.cons.injEq, List.length_cons,
        List.mem_cons, forall_eq_or_imp, Nat.add_right_cancel_iff]
      constructor
      · rintro ⟨x, hx, zs, hzs, rfl, rfl⟩
        exact ⟨(ih.1 hzs).1, hx, (ih.1 hzs).2⟩
      · rintro ⟨hl, hy, hys⟩
        exact ⟨y, hy, ys, ih.2 ⟨hl, hys⟩, rfl, rfl⟩

theorem filterMap_tuples_succ {α β : Type} (xs : List α) (n : Nat) (g : List α → Option β) :
    (tuples xs (n + 1)).filterMap g =
      xs.flatMap fun x => (tuples xs n).filterMap fun ys => g (x :: ys) := by
  simp [tuples, List.filterMap_flatMap, List.filterMap_map]

theorem tuples_one {α : Type} (xs : List α) : tuples xs 1 = xs.map ([·]) := by
  simp [tuples, List.map_eq_flatMap]

theorem tuples_two {α : Type} (xs : List α) :
    tuples xs 2 = xs.flatMap fun x => xs.map fun y => [x, y] := by
  rw [tuples, tuples_one]
  simp [Function.comp_def]

theorem flatMap_filter_of_nil {α β : Type} {xs : List α} {c : α → Bool} {g : α → List β}
    (h : ∀ x ∈ xs, c x = false → g x = []) : (xs.filter c).flatMap g = xs.flatMap g := by
  induction xs with
  | nil => rfl
  | cons x xs ih =>
    have hxs := ih fun y hy => h y (by simp [hy])
    cases hc : c x with
    | true => simp [hc, hxs]
    | false => simp [hc, hxs, h x (by simp) hc]

namespace Batch

def record (b : Batch) (e : Fact × Origin) : Batch :=
  if b.provenance.contains e.1 then b
  else ⟨(b.provenance.record e.1 e.2).2, b.facts ++ [e.1]⟩

end Batch

namespace Rule

/-- The facts that an axiom has over a universe, the subject running slowest. -/
def instances (r : Rule) (vars : List Variable) : List Fact :=
  if r.conclusion.subject = r.conclusion.object then
    vars.map fun v => ⟨r.conclusion.quantifier, v, v⟩
  else vars.flatMap fun s => vars.map fun o => ⟨r.conclusion.quantifier, s, o⟩

/-- Whatever the rule gives over the database, with its origin, in the order of the search. -/
def consequences (r : Rule) (db : Database) (table : PolicyTable) : List (Fact × Origin) :=
  if r.isAxiom then (r.instances db.vars).map (·, .axiomatic r.name)
  else (tuples db.facts r.premises.length).filterMap fun fs =>
    (r.derive table fs).map (·, .inferred r.name fs)

theorem mem_instances {r : Rule} {vars : List Variable} {f : Fact} :
    f ∈ r.instances vars ↔
      ∃ σ, (∀ x ∈ r.conclusion.placeholders, σ x ∈ vars) ∧ f = r.conclusion.subst σ := by
  simp only [Pattern.placeholders, List.forall_mem_cons, List.not_mem_nil, false_imp_iff,
    implies_true, and_true]
  by_cases h : r.conclusion.subject = r.conclusion.object
  · simp only [instances, if_pos h, List.mem_map]
    constructor
    · rintro ⟨v, hv, rfl⟩
      exact ⟨fun _ => v, ⟨hv, hv⟩, rfl⟩
    · rintro ⟨σ, ⟨hs, -⟩, rfl⟩
      exact ⟨σ r.conclusion.subject, hs, by simp [Pattern.subst, h]⟩
  · simp only [instances, if_neg h, List.mem_flatMap, List.mem_map]
    constructor
    · rintro ⟨v, hv, w, hw, rfl⟩
      refine ⟨fun x => if x = r.conclusion.subject then v else w, ?_⟩
      simp [Pattern.subst, Ne.symm h, hv, hw]
    · rintro ⟨σ, ⟨hs, ho⟩, rfl⟩
      exact ⟨_, hs, _, ho, rfl⟩

theorem mem_consequences_of_isAxiom {r : Rule} (h : r.isAxiom = true) {db : Database}
    {table : PolicyTable} {e : Fact × Origin} :
    e ∈ r.consequences db table ↔ e.1 ∈ r.instances db.vars ∧ e.2 = .axiomatic r.name := by
  obtain ⟨f, o⟩ := e
  simp [consequences, h, eq_comm]

theorem mem_consequences_of_inference {r : Rule} (h : r.isAxiom = false) {db : Database}
    {table : PolicyTable} {e : Fact × Origin} :
    e ∈ r.consequences db table ↔ ∃ fs, (∀ g ∈ fs, g ∈ db.facts) ∧
      r.derive table fs = some e.1 ∧ e.2 = .inferred r.name fs := by
  obtain ⟨f, o⟩ := e
  simp only [consequences, h, Bool.false_eq_true, if_false, List.mem_filterMap, mem_tuples,
    Option.map_eq_some_iff, Prod.mk.injEq]
  constructor
  · rintro ⟨fs, ⟨-, hfs⟩, _, hd, rfl, rfl⟩
    exact ⟨fs, hfs, hd, rfl⟩
  · rintro ⟨fs, hfs, hd, rfl⟩
    obtain ⟨-, b, hb, -⟩ := derive_eq_some_iff.1 hd
    exact ⟨fs, ⟨length_eq_of_matchAll hb, hfs⟩, f, hd, rfl, rfl⟩

end Rule

namespace Search

def batch (s : Search) : Batch := ⟨s.provenance, s.derived⟩

def withBatch (s : Search) (b : Batch) : Search :=
  { s with provenance := b.provenance, derived := b.facts }

@[simp] theorem withBatch_batch (s : Search) : s.withBatch s.batch = s := rfl

def conclusion? (r : Rule) (b : Bindings) : Option Fact :=
  if r.premisePlaceholders.all b.isBound then r.conclusion.instantiate b else none

/-- What the open premises `ps` lead to once `b` is bound and `chosen` are taken. -/
def completions (r : Rule) (table : PolicyTable) (candidates : List Fact) (ps : List Pattern)
    (chosen : List Fact) (b : Bindings) : List (Fact × Origin) :=
  (tuples candidates ps.length).filterMap fun fs =>
    ((r.matchAll table ps fs b).bind (conclusion? r)).map (·, .inferred r.name (chosen ++ fs))

theorem conclude_eq (r : Rule) (s : Search) :
    s.conclude r = s.withBatch (((conclusion? r s.bindings).map
      (·, Origin.inferred r.name s.chosen)).toList.foldl Batch.record s.batch) := by
  unfold conclude conclusion?
  split
  · cases r.conclusion.instantiate s.bindings with
    | none => simp
    | some child =>
      by_cases h : s.provenance.contains child = true <;>
        simp [Batch.record, batch, withBatch, h]
  · simp

theorem completions_cons (r : Rule) (table : PolicyTable) (candidates : List Fact) (p : Pattern)
    (ps : List Pattern) (chosen : List Fact) (b : Bindings) :
    completions r table candidates (p :: ps) chosen b = candidates.flatMap fun f =>
      if table.admits r.policy p.quantifier f.quantifier then
        match p.unify f b with
        | (true, c) => completions r table candidates ps (chosen ++ [f]) c
        | (false, _) => []
      else [] := by
  rw [completions, List.length_cons, filterMap_tuples_succ]
  congr 1
  funext f
  by_cases ha : table.admits r.policy p.quantifier f.quantifier = true
  · rcases hu : p.unify f b with ⟨ok, c⟩
    cases ok <;> simp [Rule.matchAll, ha, hu, completions]
  · simp [Rule.matchAll, ha]

/-- The search records what the open premises lead to and gives bindings and choices back. -/
theorem extend_eq (r : Rule) (table : PolicyTable) (candidates : List Fact) (ps : List Pattern)
    (s : Search) : s.extend r table candidates ps =
      s.withBatch ((completions r table candidates ps s.chosen s.bindings).foldl
        Batch.record s.batch) := by
  induction ps generalizing s with
  | nil =>
    rw [extend, conclude_eq]
    cases h : conclusion? r s.bindings <;> simp [completions, tuples, Rule.matchAll, h]
  | cons p ps ih =>
    rw [extend, completions_cons, List.foldl_flatMap]
    -- trying a candidate changes nothing but the batch
    change List.foldl _ (s.withBatch s.batch) _ = _
    refine List.foldl_hom s.withBatch fun b f => ?_
    by_cases ha : table.admits r.policy p.quantifier f.quantifier = true
    · have hcut := p.truncate_unify f s.bindings
      rcases hu : p.unify f s.bindings with ⟨ok, c⟩
      rw [hu] at hcut
      cases ok <;> simp [ha, hu, ih, hcut, withBatch, batch]
    · simp [ha]

theorem completions_candidates (r : Rule) (db : Database) (table : PolicyTable) {ps : List Pattern}
    (hps : ∀ p ∈ ps, p ∈ r.premises) (chosen : List Fact) (b : Bindings) :
    completions r table (r.candidates db table) ps chosen b =
      completions r table db.facts ps chosen b := by
  induction ps generalizing chosen b with
  | nil => rfl
  | cons p ps ih =>
    have hih := ih fun q hq => hps q (by simp [hq])
    simp only [completions_cons, hih]
    refine flatMap_filter_of_nil fun f _ hf => if_neg fun ha => ?_
    have hany := List.any_eq_false.1 hf p (hps p (by simp))
    exact hany ha

/-- With nothing bound and nothing chosen the search finds what `derive` gives on the tuples. -/
theorem completions_premises {r : Rule} (hi : r.isAxiom = false) (db : Database)
    (table : PolicyTable) :
    completions r table db.facts r.premises [] .empty = r.consequences db table := by
  rw [completions, Rule.consequences, hi]
  refine List.filterMap_congr fun fs _ => ?_
  simp only [Rule.derive, hi, List.nil_append, Bool.false_eq_true, if_false]
  cases hm : r.matchAll table r.premises fs .empty with
  | none => rfl
  | some b =>
    have hall : r.premisePlaceholders.all b.isBound = true :=
      List.all_eq_true.2 fun x hx => (Rule.isBound_of_matchAll hm x).2 (.inr hx)
    simp [conclusion?, hall]

end Search

namespace Enumeration

def batch (s : Enumeration) : Batch := ⟨s.provenance, s.derived⟩

def withBatch (s : Enumeration) (b : Batch) : Enumeration :=
  { s with provenance := b.provenance, derived := b.facts }

def bindAll (b : Bindings) : List Placeholder → List Variable → Bindings
  | x :: xs, v :: vs => bindAll (b.bind x v).2 xs vs
  | _, _ => b

/-- The instances of the conclusion when the open placeholders `xs` run through the universe. -/
def completions (r : Rule) (vars : List Variable) (xs : List Placeholder) (b : Bindings) :
    List (Fact × Origin) :=
  (tuples vars xs.length).filterMap fun vs =>
    (r.conclusion.instantiate (bindAll b xs vs)).map (·, .axiomatic r.name)

theorem conclude_eq (r : Rule) (s : Enumeration) :
    s.conclude r = s.withBatch (((r.conclusion.instantiate s.bindings).map
      (·, Origin.axiomatic r.name)).toList.foldl Batch.record s.batch) := by
  unfold conclude
  cases r.conclusion.instantiate s.bindings with
  | none => rfl
  | some child =>
    cases h : s.provenance.contains child with
    | true => simp [Batch.record, batch, withBatch, Provenance.record_of_contains h, h]
    | false => simp [Batch.record, batch, withBatch, Provenance.record_of_new h, h]

theorem extend_eq (r : Rule) (vars : List Variable) (xs : List Placeholder) (s : Enumeration) :
    s.extend r vars xs =
      s.withBatch ((completions r vars xs s.bindings).foldl Batch.record s.batch) := by
  induction xs generalizing s with
  | nil =>
    rw [extend, conclude_eq]
    cases h : r.conclusion.instantiate s.bindings <;> simp [completions, tuples, bindAll, h]
  | cons x xs ih =>
    rw [extend, completions, List.length_cons, filterMap_tuples_succ, List.foldl_flatMap]
    change List.foldl _ (s.withBatch s.batch) _ = _
    refine List.foldl_hom s.withBatch fun b v => ?_
    have hcut := s.bindings.truncate_bind x v
    simp [ih, hcut, withBatch, batch, completions, bindAll]

theorem completions_placeholders (r : Rule) (vars : List Variable) :
    completions r vars r.conclusion.placeholders.eraseDups .empty =
      (r.instances vars).map (·, .axiomatic r.name) := by
  have hfree : ∀ (x : Placeholder) v, Bindings.empty.bind x v = (true, ⟨[(x, v)]⟩) := fun x v =>
    Bindings.bind_of_free rfl v
  by_cases h : r.conclusion.subject = r.conclusion.object
  · have hd : r.conclusion.placeholders.eraseDups = [r.conclusion.object] := by
      simp [Pattern.placeholders, List.eraseDups_cons, h]
    have hone : ∀ v, r.conclusion.instantiate (bindAll .empty [r.conclusion.object] [v]) =
        some ⟨r.conclusion.quantifier, v, v⟩ := by
      intro v
      simp [bindAll, hfree, Pattern.instantiate, Bindings.get?, h]
    simp [completions, hd, tuples_one, hone, Rule.instances, h, Function.comp_def]
  · have hne : (r.conclusion.object == r.conclusion.subject) = false := by simpa using Ne.symm h
    have hd : r.conclusion.placeholders.eraseDups =
        [r.conclusion.subject, r.conclusion.object] := by
      simp [Pattern.placeholders, List.eraseDups_cons, hne]
    have htwo : ∀ v w, r.conclusion.instantiate
        (bindAll .empty [r.conclusion.subject, r.conclusion.object] [v, w]) =
        some ⟨r.conclusion.quantifier, v, w⟩ := by
      intro v w
      have hget : (⟨[(r.conclusion.subject, v)]⟩ : Bindings).get? r.conclusion.object = none := by
        simp [Bindings.get?, List.lookup_cons, hne]
      simp [bindAll, hfree, Bindings.bind_of_free hget, Pattern.instantiate, Bindings.get?,
        List.lookup_cons, hne]
    simp [completions, hd, tuples_two, htwo, Rule.instances, h, List.filterMap_flatMap,
      List.map_flatMap, Function.comp_def]

end Enumeration

namespace Provenance

/-- The entries among `es` whose fact is new when they are recorded in order. -/
def fresh (p : Provenance) : List (Fact × Origin) → List (Fact × Origin)
  | [] => []
  | e :: es => if p.contains e.1 then p.fresh es else e :: (p.record e.1 e.2).2.fresh es

theorem fresh_eq_nil_iff {p : Provenance} {es : List (Fact × Origin)} :
    p.fresh es = [] ↔ ∀ e ∈ es, e.1 ∈ p.facts := by
  fun_induction fresh p es with
  | case1 => simp
  | case2 p x es hx ih => simp [ih, (p.contains_iff_mem_facts x.1).1 hx]
  | case3 p x es hx _ =>
    have hn : x.1 ∉ p.facts := fun hm => hx ((p.contains_iff_mem_facts x.1).2 hm)
    simp [hn]

end Provenance

theorem Batch.foldl_record (b : Batch) (es : List (Fact × Origin)) :
    es.foldl Batch.record b = ⟨⟨b.provenance.entries ++ b.provenance.fresh es⟩,
      b.facts ++ (b.provenance.fresh es).map (·.1)⟩ := by
  induction es generalizing b with
  | nil => simp [Provenance.fresh]
  | cons e es ih =>
    rw [List.foldl_cons, ih]
    by_cases h : b.provenance.contains e.1 = true
    · simp [Batch.record, Provenance.fresh, h]
    · have hn : b.provenance.contains e.1 = false := by simpa using h
      simp [Batch.record, Provenance.fresh, hn, Provenance.record_of_new hn]

namespace Rule

theorem apply_eq (r : Rule) (db : Database) (p : Provenance) (table : PolicyTable) :
    r.apply db p table = (r.consequences db table).foldl Batch.record ⟨p, []⟩ := by
  unfold apply
  cases hi : r.isAxiom with
  | true =>
    have hc := Enumeration.completions_placeholders r db.vars
    rw [Bindings.empty] at hc
    simp [Enumeration.extend_eq, Enumeration.withBatch, Enumeration.batch, hc, consequences, hi]
  | false =>
    have hc := Search.completions_candidates r db table (fun _ hp => hp) [] .empty
    rw [Search.completions_premises hi, Bindings.empty] at hc
    simp [Search.extend_eq, Search.withBatch, Search.batch, hc]

/-- An application appends the fresh consequences to the provenance and returns their facts. -/
theorem apply_eq_fresh (r : Rule) (db : Database) (p : Provenance) (table : PolicyTable) :
    r.apply db p table = ⟨⟨p.entries ++ p.fresh (r.consequences db table)⟩,
      (p.fresh (r.consequences db table)).map (·.1)⟩ := by
  rw [apply_eq, Batch.foldl_record, List.nil_append]

end Rule

end Syllogism
