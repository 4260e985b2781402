import Syllogism.Proofs.Agreement
import Syllogism.Proofs.Exhaustion
import Syllogism.Proofs.Lifecycle

/-! Rounds and the height of derivations. Within a round each rule sees what the rules before it
have added, so a round may do the work of several levels, but it never does less than that of one.
A target is therefore proved in no more rounds than any of its derivation trees is high. -/
namespace Syllogism

/-- The fact has a derivation tree of the given height from the database. A given fact is a tree of
height 0 and an instance of an axiom one of height 1; a rule stands one above the highest of the
trees of its premises, each of which is listed with the height of its tree. -/
inductive HasHeight (rules : List Rule) (table : PolicyTable) (db : Database) : Nat → Fact → Prop
  | given {f : Fact} (hf : f ∈ db.facts) : HasHeight rules table db 0 f
  | axiomatic {r : Rule} (hr : r ∈ rules) (hi : r.isAxiom = true) {σ : Placeholder → Variable}
      (hσ : ∀ x ∈ r.conclusion.placeholders, σ x ∈ db.vars) :
      HasHeight rules table db 1 (r.conclusion.subst σ)
  | inferred {r : Rule} (hr : r ∈ rules) {premises : List (Fact × Nat)}
      (hpremises : ∀ p ∈ premises, HasHeight rules table db p.2 p.1) {f : Fact}
      (hd : r.derive table (premises.map (·.1)) = some f) {n : Nat}
      (hmax : ∀ p ∈ premises, p.2 ≤ n) (hn : ∃ p ∈ premises, p.2 = n) :
      HasHeight rules table db (n + 1) f

theorem Rule.consequences_mono {r : Rule} {table : PolicyTable} {db d : Database}
    (hvars : d.vars = db.vars) (hfacts : ∀ f ∈ db.facts, f ∈ d.facts) {x : Fact × Origin}
    (hx : x ∈ r.consequences db table) : x ∈ r.consequences d table := by
  cases hi : r.isAxiom with
  | true =>
    rw [mem_consequences_of_isAxiom hi] at hx ⊢
    rwa [hvars]
  | false =>
    rw [mem_consequences_of_inference hi] at hx ⊢
    obtain ⟨fs, hfs, hd, ho⟩ := hx
    exact ⟨fs, fun g hg => hfacts g (hfs g hg), hd, ho⟩

namespace Pass

variable {rules : List Rule} {table : PolicyTable} {seed : Database} {p : Pass}

theorem mem_facts_apply (h : p.database.facts = p.provenance.facts) {r : Rule} {f : Fact} :
    f ∈ (p.apply table r).database.facts ↔
      f ∈ p.database.facts ∨ ∃ x ∈ r.consequences p.database table, x.1 = f := by
  have hknown : p.provenance.contains f = false ↔ f ∉ p.database.facts := by
    rw [← Bool.not_eq_true, p.provenance.contains_iff_mem_facts, h]
  simp only [apply, Database.merge_snd, Rule.apply_eq_fresh, Database.mem_facts_pushAll,
    Provenance.facts_fresh, List.mem_eraseDups, List.mem_filter, List.mem_map, Bool.not_eq_true',
    hknown]
  tauto

theorem applyAll_cons_of_miss {eager : Bool} {target : Option Fact} {r : Rule} {rs : List Rule}
    (hmiss : (p.applyAll table eager target (r :: rs)).provenance.reaches target = false) :
    p.applyAll table eager target (r :: rs) =
      (p.apply table r).applyAll table eager target rs := by
  rw [applyAll] at hmiss ⊢
  split at hmiss
  · next hstop => simp [hmiss] at hstop
  · next hstop => simp [hstop]

theorem mem_facts_applyAll (hs : seed.WellFormed) {eager : Bool} {target : Option Fact}
    (h : Grown rules table seed p.database p.provenance) {rs : List Rule}
    (hrs : ∀ r ∈ rs, r ∈ rules)
    (hmiss : (p.applyAll table eager target rs).provenance.reaches target = false) {r : Rule}
    (hr : r ∈ rs) {x : Fact × Origin} (hx : x ∈ r.consequences p.database table) :
    x.1 ∈ (p.applyAll table eager target rs).database.facts := by
  induction rs generalizing p with
  | nil => cases hr
  | cons s rs ih =>
    have hstep : Grown rules table seed (p.apply table s).database (p.apply table s).provenance :=
      grown_apply hs h (hrs s (by simp))
    have hrest : ∀ t ∈ rs, t ∈ rules := fun t ht => hrs t (by simp [ht])
    have happly := applyAll_cons_of_miss hmiss
    rw [happly] at hmiss ⊢
    rcases List.mem_cons.1 hr with rfl | hr
    · -- the later rules keep what the first one has added
      have hadded : x.1 ∈ (p.apply table r).database.facts :=
        (mem_facts_apply h.facts).2 (.inr ⟨x, hx, rfl⟩)
      have hprefix : (p.apply table r).provenance.facts <+:
          ((p.apply table r).applyAll table eager target rs).provenance.facts :=
        (prefix_applyAll eager target _ rs).map Prod.fst
      rw [(grown_applyAll hs eager target hstep hrest).facts]
      exact hprefix.subset (hstep.facts ▸ hadded)
    · refine ih hstep hrest hmiss hr (Rule.consequences_mono ?_ ?_ hx)
      · rw [hstep.vars, h.vars]
      · exact fun f hf => (mem_facts_apply h.facts).2 (.inl hf)

end Pass

theorem Status.eq_saturated {s : Status} (hrun : s ≠ .running) (hmiss : s ≠ .success) :
    s = .saturated := by
  cases s with
  | running => exact absurd rfl hrun
  | success => exact absurd rfl hmiss
  | saturated => rfl

namespace Query

variable {e : Engine} {seed db : Database} {q : Query}

theorem mem_facts_round (hs : seed.WellFormed) (h : q.Coherent e seed)
    (hmiss : (q.round e).1.status ≠ .success) {r : Rule} (hr : r ∈ e.rules.rules)
    {x : Fact × Origin} (hx : x ∈ r.consequences q.database e.policies) :
    x.1 ∈ (q.round e).1.database.facts := by
  by_cases hrun : q.status = .running
  · rw [round_of_running hrun] at hmiss ⊢
    have hreach : (q.pass e).provenance.reaches q.target = false :=
      Bool.eq_false_iff.2 fun hreach => hmiss (statusAfter_eq_success_iff.2 hreach)
    exact Pass.mem_facts_applyAll hs h.grown (fun _ hm => hm) hreach hr hx
  · rw [round_of_stopped hrun] at hmiss ⊢
    exact h.closed (Status.eq_saturated hrun hmiss) r hr x hx

theorem success_of_success_after {m n : Nat} (h : (q.after e m).status = .success) (hmn : m ≤ n) :
    (q.after e n).status = .success := by
  rw [after_eq_of_stopped (by simp [h]) hmn, h]

theorem mem_facts_after_succ (hs : seed.WellFormed) (h : q.Coherent e seed) {n : Nat}
    (hmiss : (q.after e (n + 1)).status ≠ .success) {r : Rule} (hr : r ∈ e.rules.rules)
    {x : Fact × Origin} (hx : x ∈ r.consequences (q.after e n).database e.policies) :
    x.1 ∈ (q.after e (n + 1)).database.facts := by
  rw [after_succ'] at hmiss ⊢
  exact mem_facts_round hs (coherent_after hs h n) hmiss hr hx

/-- As long as the target is not found, `m` rounds cover all derivation trees up to height `m`. -/
theorem mem_facts_after_of_height {rules : List Rule} (hdb : db.WellFormed)
    (hrules : ∀ r ∈ rules, r ∈ e.rules.rules) (target : Option Fact) {n : Nat} {f : Fact}
    (h : HasHeight rules e.policies db n f) {m : Nat} (hnm : n ≤ m)
    (hmiss : ((start db target).after e m).status ≠ .success) :
    f ∈ ((start db target).after e m).database.facts := by
  have hstart := coherent_start (e := e) hdb target
  induction h generalizing m with
  | given hf => exact (coherent_after hdb hstart m).grown.prefix_facts.subset hf
  | @axiomatic r hr hi σ hσ =>
    obtain ⟨k, rfl⟩ := Nat.exists_eq_add_of_le' hnm
    refine mem_facts_after_succ hdb hstart hmiss (hrules r hr) (x := (_, .axiomatic r.name)) ?_
    refine (Rule.mem_consequences_of_isAxiom hi).2 ⟨Rule.mem_instances.2 ⟨σ, ?_, rfl⟩, rfl⟩
    rwa [(coherent_after hdb hstart k).grown.vars]
  | @inferred r hr premises _ f hd n hmax _ ih =>
    obtain ⟨k, rfl⟩ := Nat.exists_eq_add_of_le' hnm
    -- the round before the last has covered the premises, the last one adds the conclusion
    have hpremises : ∀ g ∈ premises.map (·.1),
        g ∈ ((start db target).after e (k + n)).database.facts := by
      intro g hg
      obtain ⟨p, hp, rfl⟩ := List.mem_map.1 hg
      refine ih p hp ((hmax p hp).trans (Nat.le_add_left n k)) fun hsucc => hmiss ?_
      exact success_of_success_after hsucc (Nat.le_succ _)
    have hi : r.isAxiom = false := (Rule.derive_eq_some_iff.1 hd).1
    exact mem_facts_after_succ hdb hstart hmiss (hrules r hr)
      ((Rule.mem_consequences_of_inference hi (e := (f, .inferred r.name _))).2
        ⟨_, hpremises, hd, rfl⟩)

theorem success_after_height {rules : List Rule} (hdb : db.WellFormed)
    (hrules : ∀ r ∈ rules, r ∈ e.rules.rules) {n : Nat} {t : Fact}
    (h : HasHeight rules e.policies db n t) :
    ((start db (some t)).after e n).status = .success := by
  by_contra hmiss
  have hmem := mem_facts_after_of_height hdb hrules (some t) h (Nat.le_refl n) hmiss
  have hcoh := coherent_after (e := e) hdb (coherent_start hdb (some t)) n
  exact hmiss ((hcoh.success_iff (target_after _ n)).2 hmem)

theorem check_of_success_after (hdb : db.WellFormed) {t : Fact} {n : Nat}
    (hsucc : ((start db (some t)).after e n).status = .success) : db.check t = .ok () := by
  have hcoh := coherent_after (e := e) hdb (coherent_start hdb (some t)) n
  rw [← Database.check_congr hcoh.grown.vars]
  exact (hcoh.grown.wellFormed hdb).check t ((hcoh.success_iff (target_after _ n)).1 hsucc)

end Query

namespace Engine

variable {e : Engine} {db : Database}

/-- A target that a query finds in the rounds that the limit allows is proved in these rounds. -/
theorem proved_of_success_after (hdb : db.WellFormed) {t : Fact} {n : Nat}
    (hsucc : ((Query.start db (some t)).after e n).status = .success)
    (hl : ∀ limit ∈ e.settings.maxRounds, n ≤ limit) (now : Instant) :
    ∃ p, (e.prove db t now).1 = .ok (.proved p) ∧ p.rounds ≤ n := by
  have hcheck := Query.check_of_success_after hdb hsucc
  have hstop : ((Query.start db (some t)).after e n).status ≠ .running := by simp [hsucc]
  obtain ⟨k, hk, hrun, hexc⟩ := (Query.unhindered_of_stopped hstop hl).run hdb
    (Query.coherent_start hdb (some t))
  have hend : (e.search db (some t)).query = (Query.start db (some t)).after e k := hrun
  have hstatus : (e.search db (some t)).query.status = .success := by
    rw [hend, ← hk.after_eq hstop, hsucc]
  have hres : (e.search db (some t)).result = .ok .success := by
    rw [← hstatus]
    simp [Run.result, search, hexc]
  obtain ⟨lines, -, hout⟩ := Query.outcome_of_success (coherent_search hdb (some t)) hdb
    (target_search _) hstatus now
  refine ⟨⟨t, lines, k, now⟩, ?_, hk.le_of_stopped hstop⟩
  rw [prove_of_check e hcheck, hres, hout, hend, hk.rounds_start]
  rfl

/-- Let a target have a derivation tree by rules that the engine has in any order. Without a limit
on rounds, or with one that is not below the height of the tree, the target is proved, and in no
more rounds than the tree is high, whether rounds end at the target or not. -/
theorem proved_within_height {rules : List Rule} (hrules : ∀ r ∈ rules, r ∈ e.rules.rules)
    (hdb : db.WellFormed) {n : Nat} {t : Fact} (h : HasHeight rules e.policies db n t)
    (hl : ∀ limit ∈ e.settings.maxRounds, n ≤ limit) (now : Instant) :
    ∃ p, (e.prove db t now).1 = .ok (.proved p) ∧ p.rounds ≤ n := by
  have hsucc := Query.success_after_height hdb hrules h
  exact proved_of_success_after hdb hsucc hl now

/-- Some tame things are cats, so some cats are tame, there are cats, and some cats are pets: a tree
of height three. The rules in their order find it in one round, for each sees what the one before it
has added. Backwards they need all three, and two are too few. -/
theorem proved_within_height_pets :
    let backwards : Catalogue :=
      { name := "backwards", rules := Catalogue.syllogistic.rules.reverse }
    HasHeight Catalogue.syllogistic.rules .standard .pets 3 (.particular "cat" "pet") ∧
    (∃ p, (({ rules := .syllogistic, settings := { maxRounds := some 3 } } : Engine).prove .pets
      (.particular "cat" "pet") ⟨2026, 1, 1, 0, 0, 0, 0⟩).1 = .ok (.proved p) ∧ p.rounds ≤ 3) ∧
    (∃ p, (({ rules := backwards, settings := { maxRounds := some 3, stopOnTarget := false } } :
      Engine).prove .pets (.particular "cat" "pet") ⟨2026, 1, 1, 0, 0, 0, 0⟩).1 =
        .ok (.proved p) ∧ p.rounds ≤ 3) ∧
    (({ rules := .syllogistic, settings := { maxRounds := some 1 } } : Engine).prove .pets
      (.particular "cat" "pet") ⟨2026, 1, 1, 0, 0, 0, 0⟩).1.isOk = true ∧
    (({ rules := backwards, settings := { maxRounds := some 2 } } : Engine).prove .pets
      (.particular "cat" "pet") ⟨2026, 1, 1, 0, 0, 0, 0⟩).1 = .error (.roundLimitExceeded 2) := by
  intro backwards
  have hall : HasHeight Catalogue.syllogistic.rules .standard .pets 0 (.universal "cat" "pet") :=
    .given (by decide)
  have htame : ∀ p ∈ [(Fact.particular "tame" "cat", 0)],
      HasHeight Catalogue.syllogistic.rules .standard .pets p.2 p.1 :=
    List.forall_mem_singleton.2 (.given (by decide))
  have hcat : ∀ p ∈ [(Fact.particular "cat" "tame", 1)],
      HasHeight Catalogue.syllogistic.rules .standard .pets p.2 p.1 :=
    List.forall_mem_singleton.2
      (.inferred (r := .conversion) (by decide) htame rfl (by decide) (by decide))
  have hpremises : ∀ p ∈ [(Fact.universal "cat" "pet", 0), (Fact.particular "cat" "cat", 2)],
      HasHeight Catalogue.syllogistic.rules .standard .pets p.2 p.1 :=
    List.forall_mem_cons.2 ⟨hall, List.forall_mem_singleton.2
      (.inferred (r := .someSubject) (by decide) hcat rfl (by decide) (by decide))⟩
  have hpets : HasHeight Catalogue.syllogistic.rules .standard .pets 3 (.particular "cat" "pet") :=
    .inferred (r := .darii) (by decide) hpremises rfl (by decide) (by decide)
  refine ⟨hpets, ?_, ?_, by decide +kernel, by decide +kernel⟩
  · exact proved_within_height (fun _ hr => hr) Database.wellFormed_pets hpets (by simp) _
  · exact proved_within_height (fun _ hr => List.mem_reverse.2 hr) Database.wellFormed_pets hpets
      (by simp) _

end Engine

end Syllogism
