import Syllogism.Proofs.Closure

/-! Verification of proofs. The verifier passes every proof that an engine produces, and of an
arbitrary proof that it passes each line is derivable, so an engine proves it. -/
namespace Syllogism

namespace Verifier

theorem citedFacts_eq_ok_iff {earlier : List Line} {ns : List Nat} {fs : List Fact} :
    citedFacts earlier ns = .ok fs ↔ List.Forall₂ (States earlier) ns fs := by
  induction ns generalizing fs with
  | nil => cases fs <;> simp [citedFacts]
  | cons n ns ih =>
    cases n with
    | zero =>
      constructor
      · intro h
        cases h
      · rintro (_ | ⟨⟨m, l, hm, -⟩, -⟩)
        omega
    | succ n =>
      rw [citedFacts]
      constructor
      · intro h
        split at h
        · cases h
        · next l hl =>
          split at h
          · cases h
          · next gs hgs =>
            obtain rfl := Except.ok.inj h
            exact .cons ⟨n, l, rfl, hl, rfl⟩ (ih.1 hgs)
      · rintro (_ | ⟨⟨m, l, hm, hl, rfl⟩, hrest⟩)
        obtain rfl : n = m := by omega
        simp [hl, ih.2 hrest]

/-- What is asked of a line: a given fact is in the database, an axiom is an instance over the
universe, and an inference is what the rule derives from the lines that it cites. -/
def Justifies (v : Verifier) (earlier : List Line) (l : Line) : Prop :=
  match l.justification with
  | .given => ∀ db ∈ v.givens, l.fact ∈ db.facts
  | .axiomatic rule =>
    ∃ r, v.rules.get? rule = some r ∧ r.yieldsAxiom l.fact = true ∧
      ∀ db ∈ v.givens, db.check l.fact = .ok ()
  | .inferred rule ns =>
    ∃ r fs, v.rules.get? rule = some r ∧ List.Forall₂ (States earlier) ns fs ∧
      r.derive v.policies fs = some l.fact

theorem checkGiven_eq_ok_iff {v : Verifier} {f : Fact} :
    v.checkGiven f = .ok () ↔ ∀ db ∈ v.givens, f ∈ db.facts := by
  unfold checkGiven
  cases v.givens with
  | none => simp
  | some db => simp [Database.contains]

theorem checkAxiom_eq_ok_iff {v : Verifier} {f : Fact} {rule : String} :
    v.checkAxiom f rule = .ok () ↔ ∃ r, v.rules.get? rule = some r ∧ r.yieldsAxiom f = true ∧
      ∀ db ∈ v.givens, db.check f = .ok () := by
  unfold checkAxiom
  cases v.rules.get? rule with
  | none => simp
  | some r =>
    cases hy : r.yieldsAxiom f with
    | false => simp [hy]
    | true =>
      cases v.givens with
      | none => simp [hy]
      | some db => cases hc : db.check f <;> simp [hy, hc]

theorem checkInference_eq_ok_iff {v : Verifier} {earlier : List Line} {f : Fact} {rule : String}
    {ns : List Nat} : v.checkInference earlier f rule ns = .ok () ↔
      ∃ r fs, v.rules.get? rule = some r ∧ List.Forall₂ (States earlier) ns fs ∧
        r.derive v.policies fs = some f := by
  unfold checkInference
  cases v.rules.get? rule with
  | none => simp
  | some r =>
    simp only [← citedFacts_eq_ok_iff]
    cases citedFacts earlier ns <;> simp

theorem checkLine_eq_ok_iff {v : Verifier} {earlier : List Line} {l : Line} :
    v.checkLine earlier l = .ok () ↔ v.Justifies earlier l := by
  unfold checkLine Justifies
  cases l.justification with
  | given => exact checkGiven_eq_ok_iff
  | axiomatic rule => exact checkAxiom_eq_ok_iff
  | inferred rule ns => exact checkInference_eq_ok_iff

/-- The lines are numbered on from those before them, and each has what is asked of it. -/
def AllJustified (v : Verifier) : List Line → List Line → Prop
  | _, [] => True
  | earlier, l :: ls =>
    l.number = earlier.length + 1 ∧ v.Justifies earlier l ∧ v.AllJustified (earlier ++ [l]) ls

theorem faults_reportLine_eq_nil_iff {v : Verifier} {earlier : List Line} {l : Line} {r : Report} :
    (v.reportLine earlier l r).faults = [] ↔
      r.faults = [] ∧ l.number = earlier.length + 1 ∧ v.Justifies earlier l := by
  rw [reportLine, ← checkLine_eq_ok_iff]
  by_cases hn : l.number = earlier.length + 1
  · cases v.checkLine earlier l <;> simp [hn, Report.add]
  · simp [hn, Report.add]

theorem faults_reportLines_eq_nil_iff {v : Verifier} {earlier ls : List Line} {r : Report} :
    (v.reportLines earlier ls r).faults = [] ↔ r.faults = [] ∧ v.AllJustified earlier ls := by
  induction ls generalizing earlier r with
  | nil => simp [reportLines, AllJustified]
  | cons l ls ih =>
    rw [reportLines, ih, faults_reportLine_eq_nil_iff, AllJustified, and_assoc, and_assoc]

theorem faults_reportConclusion_eq_nil_iff {p : Proof} {r : Report} :
    (reportConclusion p r).faults = [] ↔ r.faults = [] ∧ p.conclusion = some p.target := by
  unfold reportConclusion
  cases p.conclusion with
  | none => simp [Report.add]
  | some f => by_cases hf : f = p.target <;> simp [hf, Report.add]

/-- A proof is faultless if its lines are and the last one states the target. -/
theorem faults_eq_nil_iff {v : Verifier} {p : Proof} :
    v.faults p = [] ↔ v.AllJustified [] p.steps ∧ p.conclusion = some p.target := by
  rw [faults, verify, faults_reportConclusion_eq_nil_iff, faults_reportLines_eq_nil_iff]
  simp

end Verifier

/-- The flag is up as long as there are no faults. -/
def Report.WellFormed (r : Report) : Prop := r.isValid = true ↔ r.faults = []

theorem Report.wellFormed_add (r : Report) (fault : ProofFault) : (r.add fault).WellFormed := by
  simp [WellFormed, add]

namespace Report.WellFormed

variable {r : Report}

theorem reportLine (h : r.WellFormed) (v : Verifier) (earlier : List Line) (l : Line) :
    (v.reportLine earlier l r).WellFormed := by
  unfold Verifier.reportLine
  split
  · split
    · exact h
    · exact r.wellFormed_add _
  · exact r.wellFormed_add _

theorem reportLines (h : r.WellFormed) (v : Verifier) (earlier ls : List Line) :
    (v.reportLines earlier ls r).WellFormed := by
  induction ls generalizing earlier r with
  | nil => exact h
  | cons l ls ih => exact ih (h.reportLine v earlier l) _

theorem reportConclusion (h : r.WellFormed) (p : Proof) :
    (Verifier.reportConclusion p r).WellFormed := by
  unfold Verifier.reportConclusion
  split
  · exact r.wellFormed_add _
  · split
    · exact h
    · exact r.wellFormed_add _

end Report.WellFormed

namespace Verifier

theorem wellFormed_verify (v : Verifier) (p : Proof) : (v.verify p).WellFormed := by
  have hinit : ({} : Report).WellFormed := by simp [Report.WellFormed]
  exact (hinit.reportLines v [] p.steps).reportConclusion p

theorem accepts_iff {v : Verifier} {p : Proof} : v.accepts p = true ↔ v.faults p = [] :=
  v.wellFormed_verify p

end Verifier

section

variable {c : Catalogue} {table : PolicyTable} {seed db : Database} {p : Provenance}

theorem Grown.justifies (h : Grown c.rules table seed db p) (hc : c.WellFormed)
    {earlier : List Line} {l : Line} (hl : l.Follows p earlier) :
    (⟨c, table, some seed⟩ : Verifier).Justifies earlier l := by
  obtain ⟨number, f, j⟩ := l
  obtain ⟨-, hj⟩ := hl
  cases j with
  | given =>
    rcases h.supports_of_get? hj with ⟨-, hmem⟩ | ⟨known, rest, -, hfalse⟩
    · simpa [Verifier.Justifies] using hmem
    · exact hfalse.elim
  | axiomatic rule =>
    rcases h.supports_of_get? hj with ⟨ho, -⟩ | ⟨known, rest, -, r, hr, rfl, hi, hmem⟩
    · cases ho
    · obtain ⟨σ, hσ, rfl⟩ := Rule.mem_instances.1 hmem
      refine ⟨r, hc.get?_eq_some hr, Rule.yieldsAxiom_iff.2 ⟨hi, σ, rfl⟩, ?_⟩
      simpa [seed.check_eq_ok_iff_vars] using Pattern.forall_vars_subst.2 hσ
  | inferred rule ns =>
    obtain ⟨fs, hget, hst⟩ := hj
    rcases h.supports_of_get? hget with ⟨ho, -⟩ | ⟨known, rest, -, r, hr, rfl, hd, -⟩
    · cases ho
    · exact ⟨r, fs, hc.get?_eq_some hr, hst, hd⟩

theorem Grown.allJustified (h : Grown c.rules table seed db p) (hc : c.WellFormed)
    {earlier ls : List Line} (hls : Follow p earlier ls) :
    (⟨c, table, some seed⟩ : Verifier).AllJustified earlier ls := by
  induction ls generalizing earlier with
  | nil => trivial
  | cons l ls ih =>
    obtain ⟨hl, hrest⟩ := hls
    exact ⟨hl.1, h.justifies hc hl, ih hrest⟩

theorem Grown.passes_of_linesOf (h : Grown c.rules table seed db p) (hc : c.WellFormed)
    (hs : seed.WellFormed) {f : Fact} (hf : f ∈ db.facts) {lines : List Line}
    (hl : Proof.linesOf p f = some lines) (rounds : Nat) (now : Instant) :
    (⟨c, table, some seed⟩ : Verifier).faults ⟨f, lines, rounds, now⟩ = [] ∧
      (⟨c, table, some seed⟩ : Verifier).accepts ⟨f, lines, rounds, now⟩ = true := by
  obtain ⟨lines', hl', hfollow, hlast⟩ := h.exists_linesOf hs hf
  obtain rfl := Option.some.inj (hl.symm.trans hl')
  rw [Verifier.accepts_iff, and_self, Verifier.faults_eq_nil_iff]
  exact ⟨h.allJustified hc hfollow, hlast⟩

end

/-- Every proof that an engine produces is accepted without a fault, whether it comes of a query or
is read out of a saturation; and a saturation holds proofs of its facts and of nothing else. -/
theorem Engine.faults_of_produced {e : Engine} (hc : e.rules.WellFormed) {db : Database}
    (hdb : db.WellFormed) (f : Fact) (now : Instant) :
    (∀ p, (e.prove db f now).1 = .ok (.proved p) →
      (⟨e.rules, e.policies, some db⟩ : Verifier).faults p = [] ∧
        (⟨e.rules, e.policies, some db⟩ : Verifier).accepts p = true) ∧
    ∀ s, (e.saturate db).1 = .ok s →
      (∀ p, s.proofOf f now = some p →
        (⟨e.rules, e.policies, some db⟩ : Verifier).faults p = [] ∧
          (⟨e.rules, e.policies, some db⟩ : Verifier).accepts p = true) ∧
      ((s.proofOf f now).isSome = true ↔ f ∈ s.database.facts) := by
  constructor
  · intro p hp
    obtain ⟨hmem, lines, hl, rfl⟩ := lines_of_proved hdb hp
    exact (coherent_search hdb (some f)).grown.passes_of_linesOf hc hdb hmem hl _ now
  · intro s hs
    obtain ⟨-, rfl⟩ := saturate_eq_ok_iff.1 hs
    have hgrown := (coherent_search (e := e) hdb none).grown
    by_cases hmem : f ∈ (e.search db none).query.database.facts
    · obtain ⟨lines, hl, -⟩ := hgrown.exists_linesOf hdb hmem
      refine ⟨fun p hp => ?_, by simp [Saturation.proofOf, Proof.ofProvenance, hl, hmem]⟩
      simp only [Saturation.proofOf, Proof.ofProvenance, hl, Option.map_some,
        Option.some.injEq] at hp
      exact hp ▸ hgrown.passes_of_linesOf hc hdb hmem hl _ now
    · have hnone := hgrown.linesOf_eq_none hmem
      simp [Saturation.proofOf, Proof.ofProvenance, hnone, hmem]

theorem Engine.faults_of_produced_pets :
    (∃ p, (({ rules := .syllogistic } : Engine).prove .pets (.particular "pet" "tame")
      ⟨2026, 1, 1, 0, 0, 0, 0⟩).1 = .ok (.proved p) ∧
        (⟨.syllogistic, .standard, some .pets⟩ : Verifier).faults p = [] ∧
        (⟨.syllogistic, .standard, some .pets⟩ : Verifier).accepts p = true) ∧
    ∃ s, (({ rules := .syllogistic } : Engine).saturate .pets).1 = .ok s ∧
      ∃ p, s.proofOf (.particular "pet" "tame") ⟨2026, 1, 1, 0, 0, 0, 0⟩ = some p ∧
        (⟨.syllogistic, .standard, some .pets⟩ : Verifier).faults p = [] ∧
        (⟨.syllogistic, .standard, some .pets⟩ : Verifier).accepts p = true := by
  obtain ⟨hprove, hsaturate⟩ := faults_of_produced (e := { rules := .syllogistic })
    Catalogue.wellFormed_syllogistic Database.wellFormed_pets (.particular "pet" "tame")
    ⟨2026, 1, 1, 0, 0, 0, 0⟩
  obtain ⟨s, hs, hmem⟩ := exists_saturate (e := { rules := .syllogistic })
    Database.wellFormed_pets rfl
  obtain ⟨p, hp⟩ : ∃ p, (({ rules := .syllogistic } : Engine).prove .pets
    (.particular "pet" "tame") ⟨2026, 1, 1, 0, 0, 0, 0⟩).1 = .ok (.proved p) := ⟨_, rfl⟩
  obtain ⟨haccepted, hsome⟩ := hsaturate s hs
  have hin := (hmem _).2 (derivable_of_proved Database.wellFormed_pets hp)
  obtain ⟨q, hq⟩ := Option.isSome_iff_exists.1 (hsome.2 hin)
  exact ⟨⟨p, hp, hprove p hp⟩, s, hs, q, hq, haccepted q hq⟩

section

variable {c : Catalogue} {table : PolicyTable} {db : Database}

theorem derivable_of_justifies {earlier : List Line} {l : Line}
    (h : (⟨c, table, some db⟩ : Verifier).Justifies earlier l)
    (hearlier : ∀ k ∈ earlier, Derivable c.rules table db k.fact) :
    Derivable c.rules table db l.fact := by
  obtain ⟨number, f, j⟩ := l
  cases j with
  | given => exact .given (h db rfl)
  | axiomatic rule =>
    obtain ⟨r, hr, hy, hcheck⟩ := h
    obtain ⟨hi, σ, rfl⟩ := Rule.yieldsAxiom_iff.1 hy
    have hvars := (db.check_eq_ok_iff_vars _).1 (hcheck db rfl)
    exact .axiomatic (Catalogue.mem_rules_of_get? hr) hi (Pattern.forall_vars_subst.1 hvars)
  | inferred rule ns =>
    obtain ⟨r, fs, hr, hst, hd⟩ := h
    refine .inferred (Catalogue.mem_rules_of_get? hr) (fun g hg => ?_) hd
    obtain ⟨k, hk, rfl⟩ := exists_line_of_states hst g hg
    exact hearlier k hk

theorem derivable_of_allJustified {earlier ls : List Line}
    (h : (⟨c, table, some db⟩ : Verifier).AllJustified earlier ls)
    (hearlier : ∀ k ∈ earlier, Derivable c.rules table db k.fact) :
    ∀ l ∈ ls, Derivable c.rules table db l.fact := by
  induction ls generalizing earlier with
  | nil => simp
  | cons l ls ih =>
    obtain ⟨-, hj, hrest⟩ := h
    -- a line can cite none but earlier lines, and those are derivable by now
    have hl := derivable_of_justifies hj hearlier
    refine List.forall_mem_cons.2 ⟨hl, ih hrest ?_⟩
    exact List.forall_mem_append.2 ⟨hearlier, List.forall_mem_singleton.2 hl⟩

theorem derivable_of_accepts {p : Proof}
    (h : (⟨c, table, some db⟩ : Verifier).accepts p = true) :
    ∀ f ∈ p.target :: p.steps.map (·.fact), Derivable c.rules table db f := by
  obtain ⟨hlines, hlast⟩ := Verifier.faults_eq_nil_iff.1 (Verifier.accepts_iff.1 h)
  have hall := derivable_of_allJustified hlines (by simp)
  obtain ⟨l, hl, htarget⟩ := Option.map_eq_some_iff.1 hlast
  refine List.forall_mem_cons.2 ⟨htarget ▸ hall l (List.mem_of_getLast? hl), fun f hf => ?_⟩
  obtain ⟨k, hk, rfl⟩ := List.mem_map.1 hf
  exact hall k hk

/-- The database has the variables of the proof for its universe and holds what the proof takes as
given. -/
structure Proof.Assumes (p : Proof) (db : Database) : Prop where
  vars : ∀ v, v ∈ db.vars ↔ ∃ l ∈ p.steps, v ∈ l.fact.vars
  facts : ∀ f, f ∈ db.facts ↔ ∃ l ∈ p.steps, l.justification = .given ∧ l.fact = f

/-- Such a database, with everything in the order of the lines. -/
def Proof.assumed (p : Proof) : Database :=
  (Database.ofUniverse (p.steps.flatMap (·.fact.vars))).pushAll
    ((p.steps.filter (·.justification = .given)).map (·.fact))

theorem Proof.mem_vars_assumed {p : Proof} {v : Variable} :
    v ∈ p.assumed.vars ↔ ∃ l ∈ p.steps, v ∈ l.fact.vars := by
  simp [assumed, Database.ofUniverse, List.mem_eraseDups]

theorem Proof.mem_facts_assumed {p : Proof} {f : Fact} :
    f ∈ p.assumed.facts ↔ ∃ l ∈ p.steps, l.justification = .given ∧ l.fact = f := by
  simp [assumed, Database.mem_facts_pushAll, Database.ofUniverse, and_assoc]

theorem Proof.assumes_assumed (p : Proof) : p.Assumes p.assumed :=
  ⟨fun _ => mem_vars_assumed, fun _ => mem_facts_assumed⟩

theorem Proof.wellFormed_assumed (p : Proof) : p.assumed.WellFormed := by
  refine Database.wellFormed_of_create (Database.create_eq_ok_iff.2 ⟨fun f hf => ?_, rfl⟩)
  obtain ⟨l, hl, rfl⟩ := List.mem_map.1 hf
  have hvars : ∀ v ∈ l.fact.vars, v ∈ p.steps.flatMap (·.fact.vars) := fun v hv =>
    List.mem_flatMap.2 ⟨l, List.mem_of_mem_filter hl, hv⟩
  exact ⟨hvars _ (by simp [Fact.vars]), hvars _ (by simp [Fact.vars])⟩

theorem Verifier.Justifies.withGivens {earlier : List Line} {l : Line}
    (h : (⟨c, table, none⟩ : Verifier).Justifies earlier l)
    (hgiven : l.justification = .given → l.fact ∈ db.facts) (hcheck : db.check l.fact = .ok ()) :
    (⟨c, table, some db⟩ : Verifier).Justifies earlier l := by
  obtain ⟨number, f, j⟩ := l
  cases j with
  | given => simpa [Verifier.Justifies] using hgiven rfl
  | axiomatic rule =>
    obtain ⟨r, hr, hy, -⟩ := h
    exact ⟨r, hr, hy, by simpa using hcheck⟩
  | inferred rule ns => exact h

theorem Verifier.AllJustified.withGivens {earlier ls : List Line}
    (h : (⟨c, table, none⟩ : Verifier).AllJustified earlier ls)
    (hgiven : ∀ l ∈ ls, l.justification = .given → l.fact ∈ db.facts)
    (hcheck : ∀ l ∈ ls, db.check l.fact = .ok ()) :
    (⟨c, table, some db⟩ : Verifier).AllJustified earlier ls := by
  induction ls generalizing earlier with
  | nil => trivial
  | cons l ls ih =>
    obtain ⟨hn, hj, hrest⟩ := h
    refine ⟨hn, ?_, ?_⟩
    · exact hj.withGivens (hgiven l (by simp)) (hcheck l (by simp))
    · exact ih hrest (fun k hk => hgiven k (by simp [hk])) fun k hk => hcheck k (by simp [hk])

theorem Proof.Assumes.accepts {p : Proof} (hp : p.Assumes db)
    (h : (⟨c, table, none⟩ : Verifier).accepts p = true) :
    (⟨c, table, some db⟩ : Verifier).accepts p = true := by
  obtain ⟨hlines, hlast⟩ := Verifier.faults_eq_nil_iff.1 (Verifier.accepts_iff.1 h)
  refine Verifier.accepts_iff.2 (Verifier.faults_eq_nil_iff.2 ⟨?_, hlast⟩)
  refine hlines.withGivens (fun l hl hg => ?_) fun l hl => ?_
  · exact (hp.facts _).2 ⟨l, hl, hg, rfl⟩
  · exact (db.check_eq_ok_iff_vars _).2 fun v hv => (hp.vars v).2 ⟨l, hl, hv⟩

end

/-- Whatever proof is accepted, its target and the facts on its lines are over the universe, and an
engine without a limit on rounds proves them: from the givens, or without givens from what the proof
itself assumes. -/
theorem Engine.proved_of_accepts {e : Engine} (hl : e.settings.maxRounds = none) (p : Proof)
    (now : Instant) :
    (∀ db : Database, db.WellFormed →
      (⟨e.rules, e.policies, some db⟩ : Verifier).accepts p = true →
        ∀ f ∈ p.target :: p.steps.map (·.fact),
          db.check f = .ok () ∧ ∃ q, (e.prove db f now).1 = .ok (.proved q)) ∧
    ((⟨e.rules, e.policies, none⟩ : Verifier).accepts p = true →
      (∃ db : Database, db.WellFormed ∧ p.Assumes db) ∧
      ∀ db : Database, db.WellFormed → p.Assumes db →
        ∀ f ∈ p.target :: p.steps.map (·.fact),
          db.check f = .ok () ∧ ∃ q, (e.prove db f now).1 = .ok (.proved q)) := by
  refine ⟨fun db hdb hacc f hf => ?_, fun hacc => ⟨?_, fun db hdb hp f hf => ?_⟩⟩
  · have hd := derivable_of_accepts hacc f hf
    exact ⟨hd.check hdb, proved_of_derivable hdb hl hd now⟩
  · exact ⟨p.assumed, p.wellFormed_assumed, p.assumes_assumed⟩
  · have hd := derivable_of_accepts (hp.accepts hacc) f hf
    exact ⟨hd.check hdb, proved_of_derivable hdb hl hd now⟩

def Proof.tamePets : Proof where
  target := .particular "tame" "pet"
  steps := [⟨1, .particular "tame" "cat", .given⟩, ⟨2, .universal "pet" "pet", .axiomatic "axiom"⟩,
    ⟨3, .universal "cat" "pet", .given⟩, ⟨4, .particular "tame" "pet", .inferred "darii" [3, 1]⟩]
  rounds := 0
  generatedAt := ⟨2026, 1, 1, 0, 0, 0, 0⟩

theorem Engine.proved_of_accepts_tamePets :
    (∃ q, (({ rules := .syllogistic } : Engine).prove .pets (.particular "tame" "pet")
      ⟨2026, 1, 1, 0, 0, 0, 0⟩).1 = .ok (.proved q)) ∧
    ∃ db : Database, db.WellFormed ∧ Proof.tamePets.Assumes db ∧
      ∃ q, (({ rules := .syllogistic } : Engine).prove db (.particular "tame" "pet")
        ⟨2026, 1, 1, 0, 0, 0, 0⟩).1 = .ok (.proved q) := by
  obtain ⟨hgivens, hassumed⟩ := proved_of_accepts (e := { rules := .syllogistic }) rfl
    Proof.tamePets ⟨2026, 1, 1, 0, 0, 0, 0⟩
  have htarget : Fact.particular "tame" "pet" ∈
      Proof.tamePets.target :: Proof.tamePets.steps.map (·.fact) := by simp [Proof.tamePets]
  obtain ⟨⟨db, hdb, hp⟩, hproved⟩ := hassumed rfl
  exact ⟨(hgivens .pets Database.wellFormed_pets rfl _ htarget).2, db, hdb, hp,
    (hproved db hdb hp _ htarget).2⟩

end Syllogism
