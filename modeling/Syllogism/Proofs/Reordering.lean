import Mathlib.Data.List.Perm.Basic
import Syllogism.Proofs.Agreement
import Syllogism.Proofs.Closure

/-! Order. Rules, the premises of a rule, variables and given facts are listed in some order, and
the search keeps to it. What is derivable does not depend on the order, so neither do the facts of
a saturation and the verdict on a target. -/
namespace Syllogism

namespace Rule

/-- The same rule with its premises in any order. -/
structure Reordered (r s : Rule) : Prop where
  name : s.name = r.name
  description : s.description = r.description
  policy : s.policy = r.policy
  conclusion : s.conclusion = r.conclusion
  premises : s.premises.Perm r.premises

namespace Reordered

variable {r s : Rule}

theorem refl (r : Rule) : r.Reordered r := ⟨rfl, rfl, rfl, rfl, .refl _⟩

theorem symm (h : r.Reordered s) : s.Reordered r :=
  ⟨h.name.symm, h.description.symm, h.policy.symm, h.conclusion.symm, h.premises.symm⟩

theorem isAxiom_eq (h : r.Reordered s) : s.isAxiom = r.isAxiom := h.premises.isEmpty_eq

theorem validate (h : r.Reordered s) (hr : r.validate = .ok ()) : s.validate = .ok () := by
  have hplaces : ∀ x, x ∈ s.premisePlaceholders ↔ x ∈ r.premisePlaceholders := fun x =>
    (h.premises.flatMap_right Pattern.placeholders).mem_iff
  obtain ⟨hname, hempty, hstrict, hbound⟩ := validate_eq_ok_iff.1 hr
  refine validate_eq_ok_iff.2 ⟨h.name ▸ hname, fun x hx => hempty x ?_, ?_, ?_⟩
  · rw [List.mem_append] at hx ⊢
    rwa [← hplaces, ← h.conclusion]
  · rwa [h.isAxiom_eq, h.policy]
  · intro hi x hx
    rw [hplaces]
    exact hbound (h.isAxiom_eq ▸ hi) x (h.conclusion ▸ hx)

theorem exists_derive (h : r.Reordered s) (hs : s.validate = .ok ()) {table : PolicyTable}
    {fs : List Fact} {f : Fact} (hd : r.derive table fs = some f) :
    ∃ gs : List Fact, gs.Perm fs ∧ s.derive table gs = some f := by
  have hi : s.isAxiom = false := h.isAxiom_eq.trans (derive_eq_some_iff.1 hd).1
  obtain ⟨σ, htakes, rfl⟩ := exists_subst_of_derive hd
  obtain ⟨gs, hgs, hperm⟩ := List.perm_comp_forall₂ h.premises htakes
  have hsame : List.Forall₂ (s.Takes table σ) s.premises gs := by
    refine hgs.imp fun p g hpg => ?_
    rwa [Takes, h.policy]
  exact ⟨gs, hperm, by rw [derive_of_subst hs hi hsame, h.conclusion]⟩

end Reordered

end Rule

/-- The same rules in any order, each with its premises in any order. -/
def Catalogue.Reordered (c d : Catalogue) : Prop :=
  ∃ rs : List Rule, rs.Perm c.rules ∧ List.Forall₂ Rule.Reordered rs d.rules

namespace Catalogue.Reordered

variable {c d : Catalogue}

theorem symm (h : c.Reordered d) : d.Reordered c := by
  obtain ⟨rs, hperm, hrs⟩ := h
  obtain ⟨ss, hss, hback⟩ := List.perm_comp_forall₂ hperm.symm hrs
  exact ⟨ss, hback, List.Forall₂.flip (hss.imp fun _ _ hrs => hrs.symm)⟩

theorem exists_mem (h : c.Reordered d) {r : Rule} (hr : r ∈ c.rules) :
    ∃ s ∈ d.rules, r.Reordered s := by
  obtain ⟨rs, hperm, hrs⟩ := h
  exact exists_mem_of_forall₂ hrs (hperm.mem_iff.2 hr)

theorem wellFormed (h : c.Reordered d) (hc : c.WellFormed) : d.WellFormed := by
  constructor
  · intro s hs
    obtain ⟨r, hr, hsr⟩ := h.symm.exists_mem hs
    exact hsr.symm.validate (hc.valid r hr)
  · obtain ⟨rs, hperm, hrs⟩ := h
    have hnames : List.Forall₂ (· = ·) (d.rules.map (·.name)) (rs.map (·.name)) := by
      rw [List.forall₂_map_left_iff, List.forall₂_map_right_iff]
      exact List.Forall₂.flip (hrs.imp fun _ _ hr => hr.name)
    rw [List.forall₂_eq_eq_eq] at hnames
    rw [hnames]
    exact ((hperm.map (·.name)).nodup_iff).2 hc.distinct

end Catalogue.Reordered

structure Database.Reordered (db d : Database) : Prop where
  vars : ∀ v, v ∈ d.vars ↔ v ∈ db.vars
  facts : ∀ f, f ∈ d.facts ↔ f ∈ db.facts

namespace Database.Reordered

variable {db d : Database}

theorem symm (h : db.Reordered d) : d.Reordered db :=
  ⟨fun v => (h.vars v).symm, fun f => (h.facts f).symm⟩

theorem check_eq (h : db.Reordered d) (f : Fact) : d.check f = db.check f := by
  have hcontains : ∀ v, d.vars.contains v = db.vars.contains v := fun v => by
    rw [Bool.eq_iff_iff, List.contains_iff_mem, List.contains_iff_mem, h.vars]
  simp only [check, hcontains]

/-- Lists with the same members make the same database but for the order. -/
theorem of_create {vars ws : List Variable} {facts gs : List Fact}
    (hdb : create vars facts = .ok db) (hvars : ∀ v, v ∈ ws ↔ v ∈ vars)
    (hfacts : ∀ f, f ∈ gs ↔ f ∈ facts) : ∃ d, create ws gs = .ok d ∧ db.Reordered d := by
  obtain ⟨hover, rfl⟩ := create_eq_ok_iff.1 hdb
  refine ⟨_, create_eq_ok_iff.2 ⟨fun f hf => ?_, rfl⟩, fun v => ?_, fun f => ?_⟩
  · rw [hvars, hvars]
    exact hover f ((hfacts f).1 hf)
  · simp [ofUniverse, List.mem_eraseDups, hvars]
  · simp [mem_facts_pushAll, ofUniverse, hfacts]

end Database.Reordered

section

variable {c d : Catalogue} {table : PolicyTable} {db db' : Database}

theorem Derivable.reordered (hrules : c.Reordered d) (hd : d.WellFormed) (hdb : db.Reordered db')
    {f : Fact} (h : Derivable c.rules table db f) : Derivable d.rules table db' f := by
  induction h with
  | given hf => exact .given ((hdb.facts _).2 hf)
  | axiomatic hr hi hσ =>
    obtain ⟨s, hs, hrs⟩ := hrules.exists_mem hr
    rw [← hrs.conclusion] at hσ ⊢
    exact .axiomatic hs (hrs.isAxiom_eq.trans hi) fun x hx => (hdb.vars _).2 (hσ x hx)
  | inferred hr _ hderive ih =>
    obtain ⟨s, hs, hrs⟩ := hrules.exists_mem hr
    obtain ⟨gs, hperm, hgs⟩ := hrs.exists_derive (hd.valid s hs) hderive
    exact .inferred hs (fun g hg => ih g (hperm.mem_iff.1 hg)) hgs

theorem derivable_reordered_iff (hrules : c.Reordered d) (hc : c.WellFormed)
    (hdb : db.Reordered db') (f : Fact) :
    Derivable d.rules table db' f ↔ Derivable c.rules table db f := by
  constructor
  · exact Derivable.reordered hrules.symm hc hdb.symm
  · exact Derivable.reordered hrules (hrules.wellFormed hc) hdb

end

/-- What an answer says, however it was found. -/
inductive Verdict
  | proved
  | unprovable (facts : Nat)
  deriving DecidableEq

def Outcome.verdict : Outcome → Verdict
  | .proved _ => .proved
  | .unprovable _ facts => .unprovable facts

namespace Engine

variable {e : Engine} {db : Database} {s : Saturation}

theorem nodup_saturate (hdb : db.WellFormed) (hs : (e.saturate db).1 = .ok s) :
    s.database.facts.Nodup := by
  obtain ⟨-, rfl⟩ := saturate_eq_ok_iff.1 hs
  exact (coherent_search hdb none).grown.nodup_facts hdb

theorem verdict_prove (hdb : db.WellFormed) (hl : e.settings.maxRounds = none)
    (hs : (e.saturate db).1 = .ok s) (t : Fact) (now : Instant) :
    (e.prove db t now).1.map Outcome.verdict = (db.check t).map fun _ =>
      if t ∈ s.database.facts then .proved else .unprovable s.database.size := by
  obtain ⟨-, rfl⟩ := saturate_eq_ok_iff.1 hs
  have hgrown := (coherent_search (e := e) hdb none).grown
  cases ht : db.check t with
  | error err =>
    rw [prove_of_not_check e ht]
    rfl
  | ok u =>
    by_cases h : (e.search db (some t)).query.status = .success
    · obtain ⟨lines, hlines, hprove⟩ := prove_of_success hdb hl ht h now
      have hmem : t ∈ (e.search db none).query.database.facts := by
        by_contra hn
        rw [hgrown.linesOf_eq_none hn] at hlines
        cases hlines
      rw [hprove]
      simp [Except.map, Outcome.verdict, hmem]
    · obtain ⟨hlines, hprove⟩ := prove_of_not_success hdb hl ht h now
      have hmem : t ∉ (e.search db none).query.database.facts := by
        intro hin
        obtain ⟨lines, hsome, -⟩ := hgrown.exists_linesOf hdb hin
        rw [hlines] at hsome
        cases hsome
      rw [hprove]
      simp [Except.map, Outcome.verdict, hmem]

/-- Let the rules of an accepted catalogue and the premises of each be listed in another order, and
the variables and the given facts in another order and any number of times. The catalogue and the
facts are still accepted, and without a limit on rounds saturation finds the same facts and the
verdict on every target is the same. -/
theorem verdict_independent_of_order (hl : e.settings.maxRounds = none)
    (hc : e.rules.WellFormed) {d : Catalogue} (hd : e.rules.Reordered d)
    {vars ws : List Variable} {facts gs : List Fact} (hdb : Database.create vars facts = .ok db)
    (hvars : ∀ v, v ∈ ws ↔ v ∈ vars) (hfacts : ∀ f, f ∈ gs ↔ f ∈ facts) :
    d.WellFormed ∧ ∃ db', Database.create ws gs = .ok db' ∧
      ∃ s s', (e.saturate db).1 = .ok s ∧ ({ e with rules := d }.saturate db').1 = .ok s' ∧
        s'.database.facts.Perm s.database.facts ∧
        ∀ t now later, ({ e with rules := d }.prove db' t later).1.map Outcome.verdict =
          (e.prove db t now).1.map Outcome.verdict := by
  obtain ⟨db', hdb', hre⟩ := Database.Reordered.of_create hdb hvars hfacts
  have hwf := Database.wellFormed_of_create hdb
  have hwf' := Database.wellFormed_of_create hdb'
  obtain ⟨s, hs, hmem⟩ := exists_saturate (e := e) hwf hl
  obtain ⟨s', hs', hmem'⟩ := exists_saturate (e := { e with rules := d }) hwf' hl
  have hsame : ∀ f, f ∈ s'.database.facts ↔ f ∈ s.database.facts := fun f => by
    rw [hmem, hmem']
    exact derivable_reordered_iff hd hc hre f
  have hperm : s'.database.facts.Perm s.database.facts :=
    (List.perm_ext_iff_of_nodup (nodup_saturate hwf' hs') (nodup_saturate hwf hs)).2 hsame
  refine ⟨hd.wellFormed hc, db', hdb', s, s', hs, hs', hperm, fun t now later => ?_⟩
  have hsize : s'.database.size = s.database.size := hperm.length_eq
  rw [verdict_prove (e := { e with rules := d }) hwf' hl hs', verdict_prove hwf hl hs,
    hre.check_eq]
  simp only [hsame, hsize]

/-- The syllogistic rules backwards, with the premises of darii exchanged, over a universe and facts
that are listed backwards and in part twice: still nothing makes all pets cats, and thirteen facts
are all there is. -/
theorem verdict_independent_of_order_pets :
    let e : Engine := { rules := .syllogistic }
    let darii : Rule := { Rule.darii with premises := Rule.darii.premises.reverse }
    let d : Catalogue := { name := "backwards", rules :=
      [darii, .someSubject, .conversion, .barbara, .reflexivity] }
    d.WellFormed ∧ ∃ db', Database.create ["tame", "pet", "cat", "tame"] [.particular "tame" "cat",
        .universal "cat" "pet", .particular "tame" "cat"] = .ok db' ∧
      ∃ s s', (e.saturate .pets).1 = .ok s ∧ ({ e with rules := d }.saturate db').1 = .ok s' ∧
        s'.database.facts.Perm s.database.facts ∧
        ({ e with rules := d }.prove db' (.universal "pet" "cat")
          ⟨2026, 1, 1, 0, 0, 0, 0⟩).1.map Outcome.verdict = .ok (.unprovable 13) := by
  intro e darii d
  have hd : e.rules.Reordered d := by
    refine ⟨Catalogue.syllogistic.rules.reverse, List.reverse_perm _, ?_⟩
    refine .cons ⟨rfl, rfl, rfl, rfl, List.reverse_perm _⟩ ?_
    exact .cons (.refl _) (.cons (.refl _) (.cons (.refl _) (.cons (.refl _) .nil)))
  have hvars : ∀ v, v ∈ ["tame", "pet", "cat", "tame"] ↔ v ∈ Database.pets.vars := by
    intro v
    simp only [Database.pets, List.mem_cons, List.not_mem_nil]
    tauto
  have hfacts : ∀ f, f ∈ [Fact.particular "tame" "cat", .universal "cat" "pet",
      .particular "tame" "cat"] ↔ f ∈ Database.pets.facts := by
    intro f
    simp only [Database.pets, List.mem_cons, List.not_mem_nil]
    tauto
  have hanswer : (e.prove .pets (.universal "pet" "cat") ⟨2026, 1, 1, 0, 0, 0, 0⟩).1.map
      Outcome.verdict = .ok (.unprovable 13) := by decide +kernel
  obtain ⟨hwf, db', hdb', s, s', hs, hs', hperm, hverdict⟩ := verdict_independent_of_order
    (e := e) rfl Catalogue.wellFormed_syllogistic hd
    ((Database.wellFormed_iff_create .pets).1 Database.wellFormed_pets) hvars hfacts
  refine ⟨hwf, db', hdb', s, s', hs, hs', hperm, ?_⟩
  rw [hverdict _ ⟨2026, 1, 1, 0, 0, 0, 0⟩, hanswer]

end Engine

end Syllogism
