import Syllogism.Proofs.Answers

/-! Two searches over one database. A query with a target keeps abreast of the one without until the
target turns up, and whatever the other derives from then on changes no line of the proof. So an
engine proves what its saturation holds a proof of, with the same lines and in fewer rounds. -/
namespace Syllogism

namespace Provenance

variable {p q : Provenance}

theorem Uses.mono (hp : p.entries <+: q.entries) {f g : Fact} (h : p.Uses f g) :
    q.Uses f g := by
  obtain ⟨rule, premises, hf, hg⟩ := h
  exact ⟨rule, premises, get?_mono hp hf, hg⟩

theorem Acyclic.anti (h : q.Acyclic) (hp : p.entries <+: q.entries) : p.Acyclic := by
  intro f hf
  exact h f (Relation.TransGen.mono (fun _ _ hfg => hfg.mono hp) f f hf)

theorem Acyclic.trace_eq (h : q.Acyclic) (hp : p.entries <+: q.entries) {f : Fact}
    (hf : p.Grounded f) : q.trace f = p.trace f := by
  have hpa : p.Acyclic := h.anti hp
  induction f using hpa.wellFounded.induction with
  | _ f ih =>
    obtain ⟨o, ho⟩ := Option.isSome_iff_exists.1 (hf f .refl)
    have hqo : q.get? f = some o := get?_mono hp ho
    cases o with
    | given => rw [trace_of_not_inferred (by simp [hqo]), trace_of_not_inferred (by simp [ho])]
    | axiomatic rule =>
      rw [trace_of_not_inferred (by simp [hqo]), trace_of_not_inferred (by simp [ho])]
    | inferred rule premises =>
      have hsame : ∀ g ∈ premises, q.trace g = p.trace g := by
        intro g hg
        have huse : p.Uses f g := ⟨rule, premises, ho, hg⟩
        exact ih g huse (hf.premise huse)
      rw [h.trace_of_inferred hqo, hpa.trace_of_inferred ho, List.flatMap_congr hsame]

theorem Acyclic.contains_of_mem_trace (h : p.Acyclic) {f : Fact} (hf : p.Grounded f)
    {i : Inference} (hi : i ∈ p.trace f) : ∀ g ∈ i.premises, p.contains g = true := by
  induction f using h.wellFounded.induction with
  | _ f ih =>
    by_cases hinf : ∃ rule premises, p.get? f = some (.inferred rule premises)
    · obtain ⟨rule, premises, ho⟩ := hinf
      have hground : ∀ g ∈ premises, p.Grounded g := fun g hg => hf.premise ⟨rule, premises, ho, hg⟩
      rw [h.trace_of_inferred ho] at hi
      rcases List.mem_cons.1 hi with rfl | hi
      · exact fun g hg => hground g hg g .refl
      · obtain ⟨g, hg, hig⟩ := List.mem_flatMap.1 hi
        exact ih g ⟨rule, premises, ho, hg⟩ (hground g hg) hig
    · have hnil := trace_of_not_inferred fun rule premises ho => hinf ⟨rule, premises, ho⟩
      simp [hnil] at hi

end Provenance

namespace Draft

variable {p q : Provenance}

theorem cite_congr {fs : List Fact} (h : ∀ f ∈ fs, q.get? f = p.get? f) (d : Draft) :
    d.cite q fs = d.cite p fs := by
  induction fs generalizing d with
  | nil => rfl
  | cons f fs ih =>
    have hrest := ih fun g hg => h g (by simp [hg])
    rw [cite, cite, h f (by simp)]
    simp only [hrest]

theorem inferAll_congr {is : List Inference} (h : ∀ i ∈ is, ∀ f ∈ i.premises, q.get? f = p.get? f)
    (d : Draft) : d.inferAll q is = d.inferAll p is := by
  induction is generalizing d with
  | nil => rfl
  | cons i is ih =>
    have hrest := ih fun j hj => h j (by simp [hj])
    have hfirst : d.infer q i = d.infer p i := by
      rw [infer, infer, cite_congr (h i (by simp))]
    simp only [inferAll, hfirst, hrest]

end Draft

/-- Entries behind those that a fact rests on change no line of its proof. -/
theorem Proof.linesOf_eq {p q : Provenance} (hp : p.entries <+: q.entries) (h : q.Acyclic)
    {t : Fact} (ht : p.Grounded t) : linesOf q t = linesOf p t := by
  obtain ⟨o, ho⟩ := Option.isSome_iff_exists.1 (ht t .refl)
  have hqo : q.get? t = some o := Provenance.get?_mono hp ho
  have hlines : ({} : Draft).inferAll q (q.trace t).reverse =
      ({} : Draft).inferAll p (p.trace t).reverse := by
    rw [h.trace_eq hp ht]
    refine Draft.inferAll_congr (fun i hi f hf => ?_) {}
    have hknown := (h.anti hp).contains_of_mem_trace ht (List.mem_reverse.1 hi) f hf
    obtain ⟨o, ho⟩ := Option.isSome_iff_exists.1 hknown
    rw [ho, Provenance.get?_mono hp ho]
  rw [linesOf, linesOf, hqo, ho, hlines]

@[simp] theorem Provenance.reaches_none (p : Provenance) : p.reaches none = false := rfl

namespace Pass

variable {table : PolicyTable} {eager : Bool} {target : Option Fact}

theorem applyAll_eq_foldl {p : Pass} {rs : List Rule}
    (h : (p.applyAll table eager target rs).provenance.reaches target = false) :
    p.applyAll table eager target rs = rs.foldl (apply table) p := by
  induction rs generalizing p with
  | nil => rfl
  | cons r rs ih =>
    rw [applyAll] at h ⊢
    split at h
    · next hstop => simp [h] at hstop
    · next hstop =>
      simp only [hstop]
      exact ih h

theorem applyAll_prefix_foldl (p : Pass) (rs : List Rule) :
    (p.applyAll table eager target rs).provenance.entries <+:
      (rs.foldl (apply table) p).provenance.entries := by
  induction rs generalizing p with
  | nil => exact List.prefix_rfl
  | cons r rs ih =>
    rw [applyAll]
    split
    · have hall : (p.apply table r).provenance.entries <+:
          ((p.apply table r).applyAll table false none rs).provenance.entries :=
        prefix_applyAll false none _ rs
      rwa [applyAll_eq_foldl rfl] at hall
    · exact ih _

end Pass

namespace Query

variable {e : Engine} {q s : Query}

/-- The queries know the same after the same number of rounds, whatever their targets are. -/
structure Abreast (q s : Query) : Prop where
  database : s.database = q.database
  provenance : s.provenance = q.provenance
  rounds : s.rounds = q.rounds

theorem Abreast.start_eq (h : Abreast q s) : Pass.start s = Pass.start q := by
  rw [Pass.start, Pass.start, h.database, h.provenance]

theorem pass_of_no_target (h : q.target = none) :
    q.pass e = e.rules.rules.foldl (Pass.apply e.policies) (.start q) := by
  refine Pass.applyAll_eq_foldl ?_
  simp [h]

theorem Abreast.prefix_pass (h : Abreast q s) (hs : s.target = none) :
    (q.pass e).provenance.entries <+: (s.pass e).provenance.entries := by
  rw [pass_of_no_target hs, h.start_eq]
  exact Pass.applyAll_prefix_foldl _ _

theorem Abreast.round (h : Abreast q s) (hs : s.target = none) (hstatus : s.status = q.status)
    (hmiss : (q.round e).1.status ≠ .success) :
    Abreast (q.round e).1 (s.round e).1 ∧ (s.round e).1.status = (q.round e).1.status := by
  by_cases hr : q.status = .running
  · have hrs : s.status = .running := hstatus.trans hr
    rw [round_of_running hr] at hmiss ⊢
    rw [round_of_running hrs]
    have hreach : (q.pass e).provenance.reaches q.target = false :=
      Bool.eq_false_iff.2 fun hreach => hmiss (statusAfter_eq_success_iff.2 hreach)
    have hpass : s.pass e = q.pass e := by
      rw [pass_of_no_target hs, h.start_eq]
      exact (Pass.applyAll_eq_foldl hreach).symm
    refine ⟨⟨by rw [hpass], by rw [hpass], by rw [h.rounds]⟩, ?_⟩
    simp [statusAfter, hpass, hreach, hs, h.database]
  · have hrs : s.status ≠ .running := fun hrs => hr (hstatus.symm.trans hrs)
    rw [round_of_stopped hr, round_of_stopped hrs]
    exact ⟨h, hstatus⟩

variable {db : Database} {t : Fact}

theorem target_after (q : Query) (n : Nat) : (q.after e n).target = q.target :=
  Function.Iterate.rec (fun r : Query => r.target = q.target) rfl
    (fun r hr => by simpa using hr) n

theorem abreast_after {n : Nat} (h : ((start db (some t)).after e n).status ≠ .success) :
    Abreast ((start db (some t)).after e n) ((start db none).after e n) ∧
      ((start db none).after e n).status = ((start db (some t)).after e n).status := by
  induction n with
  | zero =>
    refine ⟨⟨rfl, rfl, rfl⟩, ?_⟩
    cases hreach : db.seed.reaches (some t) with
    | true => simp [start, hreach] at h
    | false => simp [start, hreach]
  | succ n ih =>
    have hn : ((start db (some t)).after e n).status ≠ .success := by
      intro hsucc
      have hstop : ((start db (some t)).after e n).status ≠ .running := by simp [hsucc]
      exact h (by rw [after_eq_of_stopped hstop n.le_succ, hsucc])
    obtain ⟨hab, hstatus⟩ := ih hn
    rw [after_succ'] at h
    rw [after_succ', after_succ']
    exact hab.round (target_after _ n) hstatus h

/-- A pass in which the target turns up adds an entry, for a query that runs does not know it. -/
theorem length_lt_pass {seed : Database} (h : q.Coherent e seed) (hr : q.status = .running)
    (hreach : (q.pass e).provenance.reaches q.target = true) :
    q.provenance.entries.length < (q.pass e).provenance.entries.length := by
  have hpre := prefix_pass e q
  refine Nat.lt_of_le_of_ne hpre.length_le fun hlen => ?_
  have hsame : q.provenance = (q.pass e).provenance :=
    congrArg Provenance.mk (hpre.eq_of_length hlen)
  have hsucc : q.status = .success := h.success.2 (by rwa [hsame])
  rw [hr] at hsucc
  cases hsucc

/-- When the target turns up, the other query learns of it in the same round and runs on. -/
theorem prefix_of_success (hdb : db.WellFormed) {n : Nat} (h : (start db (some t)).StopsAt e n)
    (hsucc : ((start db (some t)).after e n).status = .success) :
    ((start db (some t)).after e n).provenance.entries <+:
        ((start db none).after e n).provenance.entries ∧
      ((start db none).after e n).status = .running := by
  cases n with
  | zero => exact ⟨List.prefix_rfl, rfl⟩
  | succ n =>
    have hr : ((start db (some t)).after e n).status = .running := h.running n n.lt_succ_self
    obtain ⟨hab, hstatus⟩ := abreast_after (e := e) (by rw [hr]; decide)
    have hrs : ((start db none).after e n).status = .running := hstatus.trans hr
    have htarget : ((start db none).after e n).target = none := target_after _ n
    have hcoh := coherent_after (e := e) hdb (coherent_start hdb (some t)) n
    have hcohs := coherent_after (e := e) hdb (coherent_start hdb none) n
    rw [after_succ', round_of_running hr] at hsucc ⊢
    rw [after_succ', round_of_running hrs]
    have hpre := hab.prefix_pass (e := e) htarget
    have hlt := length_lt_pass hcoh hr (statusAfter_eq_success_iff.1 hsucc)
    refine ⟨hpre, statusAfter_eq_running_iff.2 ⟨by simp [htarget], ?_⟩⟩
    rw [(grown_pass hdb hcohs).size_eq, hcohs.grown.size_eq, hab.provenance]
    exact (hlt.trans_le hpre.length_le).ne'

end Query

namespace Engine

variable {e : Engine} {db : Database} {t : Fact}

theorem exists_search_eq_after (hdb : db.WellFormed) (hl : e.settings.maxRounds = none)
    (target : Option Fact) :
    ∃ n, (Query.start db target).StopsAt e n ∧
      (e.search db target).query = (Query.start db target).after e n := by
  obtain ⟨n, hn, hrun, -⟩ := (Query.unhindered_of_no_limit hl _).run hdb
    (Query.coherent_start hdb target)
  exact ⟨n, hn, hrun⟩

/-- A search that meets its target has a part of what the search without target finds, and it has
taken fewer rounds. -/
theorem search_of_success (hdb : db.WellFormed) (hl : e.settings.maxRounds = none)
    (h : (e.search db (some t)).query.status = .success) :
    (e.search db (some t)).query.provenance.entries <+:
        (e.search db none).query.provenance.entries ∧
      (e.search db (some t)).query.rounds < (e.search db none).query.rounds := by
  obtain ⟨m, hm, hsome⟩ := exists_search_eq_after hdb hl (some t)
  obtain ⟨n, hn, hnone⟩ := exists_search_eq_after hdb hl none
  rw [hsome] at h
  obtain ⟨hpre, hrunning⟩ := Query.prefix_of_success hdb hm h
  have hlt : m < n := hn.lt_of_running hrunning
  rw [hsome, hnone, hm.rounds_eq, hn.rounds_eq]
  refine ⟨hpre.trans (Query.prefix_after _ hlt.le), ?_⟩
  exact Nat.add_lt_add_left hlt 0

theorem search_of_not_success (hdb : db.WellFormed) (hl : e.settings.maxRounds = none)
    (h : (e.search db (some t)).query.status ≠ .success) :
    (e.search db (some t)).query.Abreast (e.search db none).query := by
  obtain ⟨m, hm, hsome⟩ := exists_search_eq_after hdb hl (some t)
  obtain ⟨n, hn, hnone⟩ := exists_search_eq_after hdb hl none
  rw [hsome] at h
  obtain ⟨hab, hstatus⟩ := Query.abreast_after h
  have hstop : ((Query.start db none).after e m).status ≠ .running := hstatus ▸ hm.stopped
  rw [hsome, hnone, ← hn.after_eq hstop]
  exact hab

theorem prove_of_success (hdb : db.WellFormed) (hl : e.settings.maxRounds = none)
    (ht : db.check t = .ok ()) (h : (e.search db (some t)).query.status = .success)
    (now : Instant) :
    ∃ lines, Proof.linesOf (e.search db none).query.provenance t = some lines ∧
      (e.prove db t now).1 =
        .ok (.proved ⟨t, lines, (e.search db (some t)).query.rounds, now⟩) := by
  have hcoh := coherent_search (e := e) hdb (some t)
  have hground := hcoh.grown.grounded ((hcoh.success_iff (target_search _)).1 h)
  have hacyclic := (coherent_search (e := e) hdb none).grown.acyclic hdb
  obtain ⟨lines, hlines, hout⟩ := Query.outcome_of_success hcoh hdb (target_search _) h now
  refine ⟨lines, ?_, ?_⟩
  · rw [Proof.linesOf_eq (search_of_success hdb hl h).1 hacyclic hground, hlines]
  · rw [prove_of_check e ht, (result_search hdb hl (some t)).1, hout]
    rfl

theorem prove_of_not_success (hdb : db.WellFormed) (hl : e.settings.maxRounds = none)
    (ht : db.check t = .ok ()) (h : (e.search db (some t)).query.status ≠ .success)
    (now : Instant) :
    Proof.linesOf (e.search db none).query.provenance t = none ∧
      (e.prove db t now).1 = .ok (.unprovable (e.search db none).query.rounds
        (e.search db none).query.database.size) := by
  have hcoh := coherent_search (e := e) hdb (some t)
  have hab := search_of_not_success hdb hl h
  rw [hab.provenance, hab.rounds, hab.database]
  constructor
  · exact hcoh.grown.linesOf_eq_none fun hmem => h ((hcoh.success_iff (target_search _)).2 hmem)
  · rw [prove_of_check e ht, (result_search hdb hl (some t)).1, Query.outcome_of_not_success h]
    rfl

/-- Without a limit on rounds an engine proves a target over the universe exactly if its saturation
holds a proof of it. The two proofs have the same lines, and the search for the target has taken
fewer rounds than saturation. If there is no proof, the answer gives the rounds and the size of the
saturation. -/
theorem prove_agrees_with_saturate (hdb : db.WellFormed) (hl : e.settings.maxRounds = none)
    (ht : db.check t = .ok ()) (now later : Instant) :
    ∃ s, (e.saturate db).1 = .ok s ∧
      ((∃ p, (e.prove db t now).1 = .ok (.proved p)) ↔ ∃ q, s.proofOf t later = some q) ∧
      (∀ p q, (e.prove db t now).1 = .ok (.proved p) → s.proofOf t later = some q →
        p.steps = q.steps ∧ p.rounds < q.rounds) ∧
      ((¬ ∃ p, (e.prove db t now).1 = .ok (.proved p)) →
        (e.prove db t now).1 = .ok (.unprovable s.rounds s.database.size)) := by
  refine ⟨_, saturate_eq_ok_iff.2 ⟨⟨_, (result_search hdb hl none).1⟩, rfl⟩, ?_⟩
  by_cases h : (e.search db (some t)).query.status = .success
  · obtain ⟨lines, hlines, hprove⟩ := prove_of_success hdb hl ht h now
    have hlt := (search_of_success hdb hl h).2
    rw [hprove]
    simp [Saturation.proofOf, Proof.ofProvenance, hlines, hlt]
  · obtain ⟨hlines, hprove⟩ := prove_of_not_success hdb hl ht h now
    rw [hprove]
    simp [Saturation.proofOf, Proof.ofProvenance, hlines]

/-- Some pets are tame by the same lines either way; neither way are all pets cats. -/
theorem prove_agrees_with_saturate_pets :
    ∃ s, (({ rules := .syllogistic } : Engine).saturate .pets).1 = .ok s ∧
      (∃ p q, (({ rules := .syllogistic } : Engine).prove .pets (.particular "pet" "tame")
          ⟨2026, 1, 1, 0, 0, 0, 0⟩).1 = .ok (.proved p) ∧
        s.proofOf (.particular "pet" "tame") ⟨2026, 1, 1, 0, 0, 0, 0⟩ = some q ∧
        p.steps = q.steps ∧ p.rounds < q.rounds) ∧
      (({ rules := .syllogistic } : Engine).prove .pets (.universal "pet" "cat")
        ⟨2026, 1, 1, 0, 0, 0, 0⟩).1 = .ok (.unprovable s.rounds s.database.size) := by
  obtain ⟨s, hs, hiff, hsteps, -⟩ := prove_agrees_with_saturate (e := { rules := .syllogistic })
    Database.wellFormed_pets rfl (t := .particular "pet" "tame") rfl ⟨2026, 1, 1, 0, 0, 0, 0⟩
    ⟨2026, 1, 1, 0, 0, 0, 0⟩
  obtain ⟨s', hs', -, -, hmiss⟩ := prove_agrees_with_saturate (e := { rules := .syllogistic })
    Database.wellFormed_pets rfl (t := .universal "pet" "cat") rfl ⟨2026, 1, 1, 0, 0, 0, 0⟩
    ⟨2026, 1, 1, 0, 0, 0, 0⟩
  obtain rfl : s = s' := Except.ok.inj (hs.symm.trans hs')
  obtain ⟨p, hp⟩ : ∃ p, (({ rules := .syllogistic } : Engine).prove .pets
    (.particular "pet" "tame") ⟨2026, 1, 1, 0, 0, 0, 0⟩).1 = .ok (.proved p) := ⟨_, rfl⟩
  obtain ⟨q, hq⟩ := hiff.1 ⟨p, hp⟩
  have hno : (({ rules := .syllogistic } : Engine).prove .pets (.universal "pet" "cat")
    ⟨2026, 1, 1, 0, 0, 0, 0⟩).1 = .ok (.unprovable 3 13) := by decide +kernel
  exact ⟨s, hs, ⟨p, q, hp, hq, hsteps p q hp hq⟩, hmiss (by simp [hno])⟩

end Engine

end Syllogism
