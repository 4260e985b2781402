import Syllogism.Proofs.Substitution

/-! Saturation as a closure operator. It keeps the facts that there are; done again, it takes one
round to see that there is nothing to add; and it yields no less when it is given more: more rules,
more admitted quantifiers, more variables or more facts. -/
namespace Syllogism

section

variable {rules : List Rule} {table : PolicyTable} {seed db : Database}

theorem Derivable.trans (hvars : db.vars = seed.vars)
    (hfacts : ∀ f ∈ db.facts, Derivable rules table seed f) {f : Fact}
    (hf : Derivable rules table db f) : Derivable rules table seed f := by
  induction hf with
  | given hf => exact hfacts _ hf
  | axiomatic hr hi hσ =>
    rw [hvars] at hσ
    exact .axiomatic hr hi hσ
  | inferred hr _ hd ih => exact .inferred hr ih hd

namespace Grown

variable {p : Provenance}

theorem eq_seed (h : Grown rules table seed db p) (hs : seed.WellFormed)
    (hold : ∀ f ∈ db.facts, f ∈ seed.facts) : db = seed ∧ p = seed.seed := by
  obtain ⟨es, hes, hsup⟩ := h.entries
  have hfacts : db.facts = seed.facts ++ es.map (·.1) := by
    rw [h.facts, Provenance.facts_of_entries hes]
  have hnil : es = [] := by
    cases es with
    | nil => rfl
    | cons e es =>
      have hmem : e.1 ∈ db.facts := by simp [hfacts]
      exact absurd (hold e.1 hmem) hsup.1
  subst hnil
  constructor
  · have hsame : db.facts = seed.facts := by simpa using hfacts
    exact congrArg₂ Database.mk h.vars hsame
  · have hentries : p.entries = seed.seed.entries := by
      rw [hes, Database.entries_seed hs.nodup_facts, List.append_nil]
    exact congrArg Provenance.mk hentries

end Grown

end

theorem Database.inferences_seed {db : Database} (h : db.facts.Nodup) :
    db.seed.inferences = [] := by
  rw [Provenance.inferences, entries_seed h, List.filterMap_eq_nil_iff]
  intro x hx
  obtain ⟨f, -, rfl⟩ := List.mem_map.1 hx
  rfl

namespace Engine

variable {e : Engine} {db : Database}

theorem grown_saturate (hdb : db.WellFormed) {s : Saturation} (hs : (e.saturate db).1 = .ok s) :
    Grown e.rules.rules e.policies db s.database s.provenance := by
  obtain ⟨-, rfl⟩ := saturate_eq_ok_iff.1 hs
  exact (coherent_search hdb none).grown

/-- A database that holds all that follows from it is left as it is, after one round. -/
theorem saturate_of_forall_derivable (hdb : db.WellFormed) (hl : e.settings.maxRounds = none)
    (hall : ∀ f, Derivable e.rules.rules e.policies db f → f ∈ db.facts) :
    (e.saturate db).1 = .ok ⟨db, db.seed, 1⟩ := by
  have hstart := Query.coherent_start (e := e) hdb none
  obtain ⟨n, hn, hrun, -⟩ := (Query.unhindered_of_no_limit hl _).run hdb hstart
  obtain ⟨hdatabase, hprovenance⟩ : ((Query.start db none).after e n).database = db ∧
      ((Query.start db none).after e n).provenance = db.seed := by
    have hgrown := (Query.coherent_after hdb hstart n).grown
    exact hgrown.eq_seed hdb fun f hf => hall f (hgrown.derivable f hf)
  -- a round that is not the last adds a fact, so there is one round, and there is a first round
  have hone : n = 1 := by
    have hle := hn.size_le hdb hstart
    have hrunning : ((Query.start db none).after e 0).status = .running := rfl
    have hlt := hn.lt_of_running hrunning
    rw [hdatabase] at hle
    change db.size + n ≤ db.size + 1 at hle
    omega
  have hrounds : ((Query.start db none).after e n).rounds = 1 := by
    rw [hn.rounds_eq, hone]
    rfl
  have hsearch : (e.search db none).query = (Query.start db none).after e n := hrun
  refine saturate_eq_ok_iff.2 ⟨⟨_, (result_search hdb hl none).1⟩, ?_⟩
  rw [hsearch, hdatabase, hprovenance, hrounds]

/-- Saturation keeps what there is, does nothing the second time but look once, and is monotone in
rules, policies, universe and facts. -/
theorem saturate_closure_operator (hc : e.rules.WellFormed) (hl : e.settings.maxRounds = none)
    (hdb : db.WellFormed) :
    ∃ s, (e.saturate db).1 = .ok s ∧ db.facts <+: s.database.facts ∧
      (∃ again, (e.saturate s.database).1 = .ok again ∧ again.rounds = 1 ∧
        again.database = s.database ∧ again.provable = []) ∧
      ∀ (e' : Engine) (d : Database), e'.settings.maxRounds = none → d.WellFormed →
        (∀ r ∈ e.rules.rules, r ∈ e'.rules.rules) → e.policies.Within e'.policies →
        (∀ v ∈ db.vars, v ∈ d.vars) → (∀ f ∈ db.facts, f ∈ d.facts) →
        ∃ s', (e'.saturate d).1 = .ok s' ∧ ∀ f ∈ s.database.facts, f ∈ s'.database.facts := by
  obtain ⟨s, hs, hmem⟩ := exists_saturate (e := e) hdb hl
  have hgrown := grown_saturate hdb hs
  have hwf := hgrown.wellFormed hdb
  refine ⟨s, hs, hgrown.prefix_facts, ?_, ?_⟩
  · have hagain := saturate_of_forall_derivable hwf hl fun f hf =>
      (hmem f).2 (hf.trans hgrown.vars hgrown.derivable)
    exact ⟨_, hagain, rfl, rfl, Database.inferences_seed hwf.nodup_facts⟩
  · intro e' d hl' hd hrules hpolicies hvars hfacts
    obtain ⟨s', hs', hmem'⟩ := exists_saturate (e := e') hd hl'
    have hid : db.MapsInto id d := ⟨hvars, hfacts⟩
    refine ⟨s', hs', fun f hf => (hmem' f).2 ?_⟩
    exact ((hmem f).1 hf).rename hc.valid hrules hpolicies hid

/-- With barbara alone, and no policy that admits anything but the quantifier itself, tabbies are
pets as they are cats. They stay pets for the syllogistic over a larger database. -/
theorem saturate_closure_operator_pets :
    let e : Engine := { rules := .barbaraOnly, policies := ⟨fun _ _ => false, fun _ _ => false⟩ }
    let db : Database :=
      ⟨["tabby", "cat", "pet"], [.universal "tabby" "cat", .universal "cat" "pet"]⟩
    let d : Database := ⟨["tame", "pet", "cat", "tabby"],
      [.particular "tame" "tabby", .universal "cat" "pet", .universal "tabby" "cat"]⟩
    ∃ s again s', (e.saturate db).1 = .ok s ∧ (e.saturate s.database).1 = .ok again ∧
      again.rounds = 1 ∧ again.database = s.database ∧ again.provable = [] ∧
      (({ rules := .syllogistic } : Engine).saturate d).1 = .ok s' ∧
      Fact.universal "tabby" "pet" ∈ s.database.facts ∧
      Fact.universal "tabby" "pet" ∈ s'.database.facts := by
  intro e db d
  have hc : Catalogue.barbaraOnly.WellFormed := (Catalogue.wellFormed_iff_addAll _).2 rfl
  have hdb : db.WellFormed := (Database.wellFormed_iff_create _).2 rfl
  have hd : d.WellFormed := (Database.wellFormed_iff_create _).2 rfl
  obtain ⟨s, hs, -, ⟨again, hagain, hrounds, hsame, hnone⟩, hmono⟩ :=
    saturate_closure_operator (e := e) hc rfl hdb
  obtain ⟨s', hs', hsub⟩ := hmono { rules := .syllogistic } d rfl hd (by decide)
    ⟨by simp [e], by simp [e]⟩ (by decide) (by decide)
  have hpet : (e.saturate db).1.toOption.map (fun s =>
      s.database.contains (.universal "tabby" "pet")) = some true := by decide +kernel
  rw [hs] at hpet
  have hin : Fact.universal "tabby" "pet" ∈ s.database.facts :=
    (s.database.contains_iff _).1 (Option.some.inj hpet)
  exact ⟨s, again, s', hs, hagain, hrounds, hsame, hnone, hs', hin, hsub _ hin⟩

end Engine

end Syllogism
