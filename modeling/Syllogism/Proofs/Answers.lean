import Syllogism.Proofs.Rounds
import Syllogism.Proofs.Transcript

/-! The answers of an engine. A provenance that has grown is acyclic and leaves nothing out, so a
query that succeeds holds a proof; the answer of an engine can be read off its last state. -/
namespace Syllogism

namespace Grown

variable {rules : List Rule} {table : PolicyTable} {seed db : Database} {p : Provenance}

/-- A recorded fact was given, or it is supported by the facts that stand before it. -/
theorem supports_of_get? (h : Grown rules table seed db p) {f : Fact} {o : Origin}
    (hf : p.get? f = some o) :
    (o = .given ∧ f ∈ seed.facts) ∨
      ∃ known rest, db.facts = known ++ f :: rest ∧ o.Supports rules table seed.vars known f := by
  obtain ⟨es, hes, hsup⟩ := h.entries
  have hlookup : ((seed.facts.map (·, Origin.given)).lookup f).or (es.lookup f) = some o := by
    rw [← List.lookup_append, ← hes]
    exact hf
  rcases Option.or_eq_some_iff.1 hlookup with hgiven | ⟨-, hnew⟩
  · obtain ⟨before, after, heq, -⟩ := List.lookup_eq_some_iff.1 hgiven
    have hmem : (f, o) ∈ seed.facts.map (·, Origin.given) := by simp [heq]
    obtain ⟨g, hg, hgo⟩ := List.mem_map.1 hmem
    obtain ⟨rfl, rfl⟩ := Prod.mk.inj hgo
    exact .inl ⟨rfl, hg⟩
  · obtain ⟨before, after, heq, -⟩ := List.lookup_eq_some_iff.1 hnew
    rw [heq, supported_append] at hsup
    refine .inr ⟨seed.facts ++ before.map (·.1), after.map (·.1), ?_, hsup.2.2.1⟩
    rw [h.facts, Provenance.facts_of_entries hes, heq]
    simp

theorem idxOf_lt_of_uses (h : Grown rules table seed db p) (hs : seed.WellFormed) {f g : Fact}
    (hfg : p.Uses f g) : db.facts.idxOf g < db.facts.idxOf f := by
  obtain ⟨rule, premises, hf, hg⟩ := hfg
  rcases h.supports_of_get? hf with ⟨ho, -⟩ | ⟨known, rest, heq, r, -, -, -, hknown⟩
  · cases ho
  · have hnodup := h.nodup_facts hs
    rw [heq] at hnodup ⊢
    have hnew : f ∉ known := fun hm => (List.nodup_append.1 hnodup).2.2 f hm f (by simp) rfl
    have hold : g ∈ known := hknown g hg
    rw [List.idxOf_append_of_mem hold, List.idxOf_append_of_notMem hnew]
    have hlt := List.idxOf_lt_length_of_mem hold
    omega

theorem acyclic (h : Grown rules table seed db p) (hs : seed.WellFormed) : p.Acyclic :=
  Provenance.acyclic_of_rank db.facts.idxOf fun _ _ hfg => h.idxOf_lt_of_uses hs hfg

theorem mem_facts_of_uses (h : Grown rules table seed db p) {f g : Fact} (hfg : p.Uses f g) :
    g ∈ db.facts := by
  obtain ⟨rule, premises, hf, hg⟩ := hfg
  rcases h.supports_of_get? hf with ⟨ho, -⟩ | ⟨known, rest, heq, r, -, -, -, hknown⟩
  · cases ho
  · rw [heq]
    exact List.mem_append_left _ (hknown g hg)

theorem grounded (h : Grown rules table seed db p) {f : Fact} (hf : f ∈ db.facts) :
    p.Grounded f := by
  intro g hfg
  refine (h.contains_iff g).2 ?_
  rcases Relation.ReflTransGen.cases_tail hfg with rfl | ⟨k, -, huse⟩
  · exact hf
  · exact h.mem_facts_of_uses huse

theorem exists_linesOf (h : Grown rules table seed db p) (hs : seed.WellFormed) {f : Fact}
    (hf : f ∈ db.facts) : ∃ lines, Proof.linesOf p f = some lines ∧ Follow p [] lines ∧
      lines.getLast?.map (·.fact) = some f :=
  Proof.exists_linesOf (h.acyclic hs) (h.grounded hf)

theorem linesOf_eq_none (h : Grown rules table seed db p) {f : Fact} (hf : f ∉ db.facts) :
    Proof.linesOf p f = none := by
  refine Proof.linesOf_of_unknown ?_
  rw [← Bool.not_eq_true, h.contains_iff]
  exact hf

end Grown

theorem Provenance.reaches_iff {p : Provenance} {target : Option Fact} :
    p.reaches target = true ↔ ∃ t, target = some t ∧ p.contains t = true := by
  cases target <;> simp [reaches]

namespace Query

variable {e : Engine} {seed : Database} {q : Query}

theorem Coherent.success_iff (h : q.Coherent e seed) {t : Fact} (ht : q.target = some t) :
    q.status = .success ↔ t ∈ q.database.facts := by
  rw [h.success, ht, ← h.grown.contains_iff]
  rfl

theorem Coherent.target_mem (h : q.Coherent e seed) (hq : q.status = .success) :
    ∃ t, q.target = some t ∧ t ∈ q.database.facts := by
  obtain ⟨t, ht, -⟩ := Provenance.reaches_iff.1 (h.success.1 hq)
  exact ⟨t, ht, (h.success_iff ht).1 hq⟩

theorem outcome_of_success (h : q.Coherent e seed) (hs : seed.WellFormed) {t : Fact}
    (ht : q.target = some t) (hq : q.status = .success) (now : Instant) :
    ∃ lines, Proof.linesOf q.provenance t = some lines ∧
      q.outcome now = .proved ⟨t, lines, q.rounds, now⟩ := by
  obtain ⟨lines, hl, -⟩ := h.grown.exists_linesOf hs ((h.success_iff ht).1 hq)
  exact ⟨lines, hl, by simp [outcome, hq, ht, Proof.ofProvenance, hl]⟩

theorem outcome_of_not_success (hq : q.status ≠ .success) (now : Instant) :
    q.outcome now = .unprovable q.rounds q.database.size := by
  simp [outcome, hq]

end Query

namespace Engine

variable {e : Engine} {db : Database} {t : Fact} {now : Instant}

def search (e : Engine) (db : Database) (target : Option Fact) : Run :=
  (Query.start db target).run e

theorem coherent_search (hdb : db.WellFormed) (target : Option Fact) :
    (e.search db target).query.Coherent e db :=
  Query.coherent_run hdb (Query.coherent_start hdb target)

@[simp] theorem target_search (target : Option Fact) :
    (e.search db target).query.target = target := Query.target_run _

theorem prove_of_check (e : Engine) (ht : db.check t = .ok ()) :
    (e.prove db t now).1 =
      (e.search db (some t)).result.map fun _ => (e.search db (some t)).query.outcome now := by
  simp [prove, query, ht, Query.finish, search]

theorem prove_of_not_check (e : Engine) {err : Error} (ht : db.check t = .error err) :
    (e.prove db t now).1 = .error err := by
  simp [prove, query, ht]

/-- Behind a proof there is a run that has derived the target and holds the lines of the proof. -/
theorem lines_of_proved (hdb : db.WellFormed) {p : Proof}
    (h : (e.prove db t now).1 = .ok (.proved p)) :
    t ∈ (e.search db (some t)).query.database.facts ∧
      ∃ lines, Proof.linesOf (e.search db (some t)).query.provenance t = some lines ∧
        p = ⟨t, lines, (e.search db (some t)).query.rounds, now⟩ := by
  cases ht : db.check t with
  | error err =>
    rw [prove_of_not_check e ht] at h
    cases h
  | ok u =>
    rw [prove_of_check e ht] at h
    cases hres : (e.search db (some t)).result with
    | error err => simp [hres, Except.map] at h
    | ok status =>
      rw [hres] at h
      have hout : (e.search db (some t)).query.outcome now = .proved p := Except.ok.inj h
      have hcoh := coherent_search (e := e) hdb (some t)
      have hsucc : (e.search db (some t)).query.status = .success := by
        by_contra hne
        rw [Query.outcome_of_not_success hne] at hout
        cases hout
      obtain ⟨lines, hl, hproof⟩ := Query.outcome_of_success hcoh hdb (target_search _) hsucc now
      refine ⟨(hcoh.success_iff (target_search _)).1 hsucc, lines, hl, ?_⟩
      rw [hout] at hproof
      exact Outcome.proved.inj hproof

theorem prove_congr {e' : Engine} (h : e'.search db (some t) = e.search db (some t)) :
    e'.prove db t now = e.prove db t now := by
  have hrun : (Query.start db (some t)).run e' = (Query.start db (some t)).run e := h
  cases ht : db.check t with
  | error err => simp [prove, query, ht]
  | ok u => simp [prove, query, ht, Query.finish, hrun]

theorem saturate_eq_search (e : Engine) (db : Database) :
    e.saturate db = ((e.search db none).result.map fun _ =>
      ⟨(e.search db none).query.database, (e.search db none).query.provenance,
        (e.search db none).query.rounds⟩, (e.search db none).work) := rfl

theorem saturate_eq_ok_iff {s : Saturation} :
    (e.saturate db).1 = .ok s ↔ (∃ status, (e.search db none).result = .ok status) ∧
      s = ⟨(e.search db none).query.database, (e.search db none).query.provenance,
        (e.search db none).query.rounds⟩ := by
  rw [saturate_eq_search]
  cases (e.search db none).result <;> simp [Except.map, eq_comm]

theorem result_search (hdb : db.WellFormed) (hl : e.settings.maxRounds = none)
    (target : Option Fact) :
    (e.search db target).result = .ok (e.search db target).query.status ∧
      ((e.search db target).query.status = .success ∨
        (e.search db target).query.status = .saturated) := by
  obtain ⟨hrun, hexc⟩ : (e.search db target).query.status ≠ .running ∧
      (e.search db target).exceeded = false :=
    Query.run_stops hdb hl (Query.coherent_start hdb target)
  refine ⟨by simp [Run.result, hexc], ?_⟩
  cases hstatus : (e.search db target).query.status with
  | running => exact absurd hstatus hrun
  | success => exact .inl rfl
  | saturated => exact .inr rfl

end Engine

end Syllogism
