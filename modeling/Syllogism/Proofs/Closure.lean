import Mathlib.Order.Bounds.Defs
import Syllogism.Proofs.Answers

/-! Closure under the rules. An engine without a limit on rounds derives the least set of facts that
contains the database and that no rule leads out of, and it proves exactly the members of that
set. -/
namespace Syllogism

/-- The set holds the facts of the database and all that the rules make of its members. -/
structure Closed (rules : List Rule) (table : PolicyTable) (db : Database) (S : Set Fact) :
    Prop where
  given : ∀ f ∈ db.facts, f ∈ S
  axiomatic : ∀ r ∈ rules, r.isAxiom = true → ∀ σ : Placeholder → Variable,
    (∀ x ∈ r.conclusion.placeholders, σ x ∈ db.vars) → r.conclusion.subst σ ∈ S
  inferred : ∀ r ∈ rules, ∀ fs : List Fact, (∀ g ∈ fs, g ∈ S) →
    ∀ f, r.derive table fs = some f → f ∈ S

/-- The facts that have a derivation from the database. -/
inductive Derivable (rules : List Rule) (table : PolicyTable) (db : Database) : Fact → Prop
  | given {f : Fact} (hf : f ∈ db.facts) : Derivable rules table db f
  | axiomatic {r : Rule} (hr : r ∈ rules) (hi : r.isAxiom = true) {σ : Placeholder → Variable}
      (hσ : ∀ x ∈ r.conclusion.placeholders, σ x ∈ db.vars) :
      Derivable rules table db (r.conclusion.subst σ)
  | inferred {r : Rule} (hr : r ∈ rules) {fs : List Fact}
      (hfs : ∀ g ∈ fs, Derivable rules table db g) {f : Fact} (hd : r.derive table fs = some f) :
      Derivable rules table db f

section

variable {rules : List Rule} {table : PolicyTable} {db seed : Database}

theorem closed_derivable : Closed rules table db {f | Derivable rules table db f} where
  given _ hf := .given hf
  axiomatic _ hr hi _ hσ := .axiomatic hr hi hσ
  inferred _ hr _ hfs _ hd := .inferred hr hfs hd

theorem Closed.mem_of_derivable {S : Set Fact} (h : Closed rules table db S) {f : Fact}
    (hf : Derivable rules table db f) : f ∈ S := by
  induction hf with
  | given hf => exact h.given _ hf
  | axiomatic hr hi hσ => exact h.axiomatic _ hr hi _ hσ
  | inferred hr _ hd ih => exact h.inferred _ hr _ ih _ hd

theorem isLeast_derivable :
    IsLeast {S | Closed rules table db S} {f | Derivable rules table db f} :=
  ⟨closed_derivable, fun _ hS _ hf => hS.mem_of_derivable hf⟩

theorem Derivable.check (hdb : db.WellFormed) {f : Fact} (h : Derivable rules table db f) :
    db.check f = .ok () := by
  rw [Database.check_eq_ok_iff_vars]
  induction h with
  | @given f hf => exact (db.check_eq_ok_iff_vars f).1 (hdb.check f hf)
  | axiomatic _ _ hσ => exact Pattern.forall_vars_subst.2 hσ
  | inferred _ _ hd ih =>
    intro v hv
    obtain ⟨g, hg, hvg⟩ := Rule.mem_vars_of_derive hd hv
    exact ih g hg v hvg

theorem derivable_of_supports {known : List Fact} {f : Fact} {o : Origin}
    (h : o.Supports rules table db.vars known f)
    (hknown : ∀ g ∈ known, Derivable rules table db g) : Derivable rules table db f := by
  cases o with
  | given => exact h.elim
  | axiomatic name =>
    obtain ⟨r, hr, -, hi, hf⟩ := h
    obtain ⟨σ, hσ, rfl⟩ := Rule.mem_instances.1 hf
    exact .axiomatic hr hi hσ
  | inferred name fs =>
    obtain ⟨r, hr, -, hd, hfs⟩ := h
    exact .inferred hr (fun g hg => hknown g (hfs g hg)) hd

theorem Grown.derivable {p : Provenance} (h : Grown rules table seed db p) :
    ∀ f ∈ db.facts, Derivable rules table seed f :=
  h.forall_mem (fun _ _ _ => derivable_of_supports) fun _ hf => .given hf

/-- A database from which every rule draws only what it holds is closed. -/
theorem Grown.closed {p : Provenance} (h : Grown rules table seed db p)
    (hclosed : ∀ r ∈ rules, ∀ x ∈ r.consequences db table, x.1 ∈ db.facts) :
    Closed rules table seed {f | f ∈ db.facts} where
  given f hf := h.prefix_facts.subset hf
  axiomatic r hr hi σ hσ := by
    refine hclosed r hr (_, .axiomatic r.name) ((Rule.mem_consequences_of_isAxiom hi).2 ⟨?_, rfl⟩)
    rw [h.vars]
    exact Rule.mem_instances.2 ⟨σ, hσ, rfl⟩
  inferred r hr fs hfs f hd := by
    have hi : r.isAxiom = false := (Rule.derive_eq_some_iff.1 hd).1
    exact hclosed r hr (f, .inferred r.name fs)
      ((Rule.mem_consequences_of_inference hi).2 ⟨fs, hfs, hd, rfl⟩)

end

theorem Query.mem_facts_iff_derivable {e : Engine} {seed : Database} {q : Query}
    (h : q.Coherent e seed) (hq : q.status = .saturated) (f : Fact) :
    f ∈ q.database.facts ↔ Derivable e.rules.rules e.policies seed f := by
  constructor
  · exact h.grown.derivable f
  · exact (h.grown.closed (h.closed hq)).mem_of_derivable

namespace Engine

variable {e : Engine} {db : Database}

theorem proved_of_derivable (hdb : db.WellFormed) (hl : e.settings.maxRounds = none) {t : Fact}
    (h : Derivable e.rules.rules e.policies db t) (now : Instant) :
    ∃ p, (e.prove db t now).1 = .ok (.proved p) := by
  have hcoh := coherent_search (e := e) hdb (some t)
  obtain ⟨hres, hstatus⟩ := result_search hdb hl (some t)
  have hsucc : (e.search db (some t)).query.status = .success := by
    rcases hstatus with hsucc | hsat
    · exact hsucc
    · have hmem := (Query.mem_facts_iff_derivable hcoh hsat t).2 h
      exact (hcoh.success_iff (target_search _)).2 hmem
  obtain ⟨lines, -, hout⟩ := Query.outcome_of_success hcoh hdb (target_search _) hsucc now
  rw [prove_of_check e (h.check hdb), hres]
  exact ⟨_, congrArg Except.ok hout⟩

theorem derivable_of_proved (hdb : db.WellFormed) {t : Fact} {now : Instant} {p : Proof}
    (h : (e.prove db t now).1 = .ok (.proved p)) : Derivable e.rules.rules e.policies db t :=
  (coherent_search hdb (some t)).grown.derivable t (lines_of_proved hdb h).1

theorem unprovable_of_not_derivable (hdb : db.WellFormed) (hl : e.settings.maxRounds = none)
    {t : Fact} (ht : db.check t = .ok ()) (h : ¬ Derivable e.rules.rules e.policies db t)
    (now : Instant) : ∃ rounds facts, (e.prove db t now).1 = .ok (.unprovable rounds facts) := by
  have hcoh := coherent_search (e := e) hdb (some t)
  have hfail : (e.search db (some t)).query.status ≠ .success := by
    intro hsucc
    exact h (hcoh.grown.derivable t ((hcoh.success_iff (target_search _)).1 hsucc))
  rw [prove_of_check e ht, (result_search hdb hl (some t)).1]
  exact ⟨_, _, congrArg Except.ok (Query.outcome_of_not_success hfail now)⟩

theorem exists_saturate (hdb : db.WellFormed) (hl : e.settings.maxRounds = none) :
    ∃ s, (e.saturate db).1 = .ok s ∧
      ∀ f, f ∈ s.database.facts ↔ Derivable e.rules.rules e.policies db f := by
  have hcoh := coherent_search (e := e) hdb none
  obtain ⟨hres, hstatus⟩ := result_search (e := e) hdb hl none
  have hsat : (e.search db none).query.status = .saturated := by
    refine hstatus.resolve_left fun hsucc => ?_
    have hreach := hcoh.success.1 hsucc
    simp [Provenance.reaches] at hreach
  exact ⟨_, saturate_eq_ok_iff.2 ⟨⟨_, hres⟩, rfl⟩, Query.mem_facts_iff_derivable hcoh hsat⟩

/-- Saturation computes the least set that is closed under the rules. Of the targets over the
universe, those in the set are proved and the others are unprovable. -/
theorem saturate_isLeast_closed (hdb : db.WellFormed) (hl : e.settings.maxRounds = none) :
    ∃ s, (e.saturate db).1 = .ok s ∧
      IsLeast {S | Closed e.rules.rules e.policies db S} {f | f ∈ s.database.facts} ∧
      ∀ t now, db.check t = .ok () →
        (t ∈ s.database.facts → ∃ p, (e.prove db t now).1 = .ok (.proved p)) ∧
        (t ∉ s.database.facts →
          ∃ rounds facts, (e.prove db t now).1 = .ok (.unprovable rounds facts)) := by
  obtain ⟨s, hs, hmem⟩ := exists_saturate (e := e) hdb hl
  have hset : {f | f ∈ s.database.facts} = {f | Derivable e.rules.rules e.policies db f} :=
    Set.ext hmem
  refine ⟨s, hs, hset ▸ isLeast_derivable, fun t now ht => ⟨fun hin => ?_, fun hout => ?_⟩⟩
  · exact proved_of_derivable hdb hl ((hmem t).1 hin) now
  · exact unprovable_of_not_derivable hdb hl ht (fun h => hout ((hmem t).2 h)) now

/-- Tame things that are cats are pets, but nothing makes every pet a cat. -/
theorem saturate_isLeast_closed_pets :
    ∃ s, (({ rules := .syllogistic } : Engine).saturate .pets).1 = .ok s ∧
      IsLeast {S | Closed Catalogue.syllogistic.rules .standard .pets S}
        {f | f ∈ s.database.facts} ∧
      ∀ now : Instant,
        (∃ p, (({ rules := .syllogistic } : Engine).prove .pets
          (.particular "pet" "tame") now).1 = .ok (.proved p)) ∧
        ∃ rounds facts, (({ rules := .syllogistic } : Engine).prove .pets
          (.universal "pet" "cat") now).1 = .ok (.unprovable rounds facts) := by
  obtain ⟨s, hs, hleast, hanswer⟩ :=
    saturate_isLeast_closed (e := { rules := .syllogistic }) Database.wellFormed_pets rfl
  have hmem : (({ rules := .syllogistic } : Engine).saturate .pets).1.toOption.map (fun s =>
      (s.database.contains (.particular "pet" "tame"),
        s.database.contains (.universal "pet" "cat"))) = some (true, false) := by decide +kernel
  rw [hs] at hmem
  obtain ⟨hin, hout⟩ := Prod.mk.inj (Option.some.inj hmem)
  refine ⟨s, hs, hleast, fun now => ⟨(hanswer _ now rfl).1 ?_, (hanswer _ now rfl).2 ?_⟩⟩
  · exact (s.database.contains_iff _).1 hin
  · simpa [Database.contains] using hout

end Engine

end Syllogism
