import Syllogism.Proofs.Agreement

/-! Eager and lazy search. A round may end as soon as the target is derived or apply all rules
first. The choice decides how much is derived in the last round. It changes neither the answer nor
the number of rounds, and what the eager search knows is a front part of what the lazy one knows. -/
namespace Syllogism

def Engine.stopping (e : Engine) (eager : Bool) : Engine :=
  { e with settings := { e.settings with stopOnTarget := eager } }

def Outcome.dated (now : Instant) : Outcome → Outcome
  | .proved p => .proved { p with generatedAt := now }
  | .unprovable rounds facts => .unprovable rounds facts

theorem Provenance.reaches_mono {p q : Provenance} (hp : p.entries <+: q.entries)
    {target : Option Fact} (h : p.reaches target = true) : q.reaches target = true := by
  obtain ⟨t, rfl, ht⟩ := reaches_iff.1 h
  obtain ⟨o, ho⟩ := Option.isSome_iff_exists.1 ht
  exact reaches_iff.2 ⟨t, rfl, Option.isSome_iff_exists.2 ⟨o, get?_mono hp ho⟩⟩

theorem Pass.applyAll_lazy (table : PolicyTable) (target : Option Fact) (p : Pass)
    (rs : List Rule) : p.applyAll table false target rs = rs.foldl (apply table) p := by
  induction rs generalizing p with
  | nil => rfl
  | cons r rs ih =>
    rw [applyAll, Bool.false_and, List.foldl_cons]
    exact ih _

namespace Query

variable {e : Engine} {db seed : Database} {q s : Query}

/-- The query `s` has all that `q` has, in the same order. It may have more if the target is known;
until then the two are abreast. -/
structure Trails (q s : Query) : Prop where
  target : s.target = q.target
  status : s.status = q.status
  rounds : s.rounds = q.rounds
  provenance : q.provenance.entries <+: s.provenance.entries
  abreast : q.status ≠ .success → q.Abreast s

theorem Trails.refl (q : Query) : q.Trails q :=
  ⟨rfl, rfl, rfl, List.prefix_rfl, fun _ => ⟨rfl, rfl, rfl⟩⟩

theorem Abreast.pass_lazy (h : q.Abreast s) :
    s.pass (e.stopping false) =
      e.rules.rules.foldl (Pass.apply e.policies) (.start q) := by
  rw [← h.start_eq]
  exact Pass.applyAll_lazy _ _ _ _

theorem Abreast.prefix_pass_lazy (h : q.Abreast s) :
    (q.pass (e.stopping true)).provenance.entries <+:
      (s.pass (e.stopping false)).provenance.entries := by
  rw [h.pass_lazy]
  exact Pass.applyAll_prefix_foldl _ _

theorem Abreast.pass_lazy_eq (h : q.Abreast s)
    (hmiss : (q.pass (e.stopping true)).provenance.reaches q.target = false) :
    s.pass (e.stopping false) = q.pass (e.stopping true) := by
  rw [h.pass_lazy]
  exact (Pass.applyAll_eq_foldl hmiss).symm

theorem Trails.round (h : q.Trails s) :
    (q.round (e.stopping true)).1.Trails (s.round (e.stopping false)).1 := by
  by_cases hr : q.status = .running
  · have hrs : s.status = .running := h.status.trans hr
    have hab : q.Abreast s := h.abreast (by simp [hr])
    have hpre := hab.prefix_pass_lazy (e := e)
    rw [round_of_running hr, round_of_running hrs]
    cases hreach : (q.pass (e.stopping true)).provenance.reaches q.target with
    | true =>
      have hsucc : statusAfter q.database.size q.target (q.pass (e.stopping true)) = .success :=
        statusAfter_eq_success_iff.2 hreach
      have hsuccs : statusAfter s.database.size s.target (s.pass (e.stopping false)) = .success :=
        statusAfter_eq_success_iff.2 (h.target ▸ Provenance.reaches_mono hpre hreach)
      exact ⟨h.target, hsuccs.trans hsucc.symm, by simp [h.rounds], hpre,
        fun hne => absurd hsucc hne⟩
    | false =>
      have hpass := hab.pass_lazy_eq hreach
      refine ⟨h.target, ?_, by simp [h.rounds], hpre, fun _ => ?_⟩
      · simp [hpass, h.target, hab.database]
      · exact ⟨by rw [hpass], by rw [hpass], by simp [h.rounds]⟩
  · have hrs : s.status ≠ .running := fun hrs => hr (h.status.symm.trans hrs)
    rw [round_of_stopped hr, round_of_stopped hrs]
    exact h

theorem Trails.after (h : q.Trails s) (n : Nat) :
    (q.after (e.stopping true) n).Trails (s.after (e.stopping false) n) := by
  induction n with
  | zero => exact h
  | succ n ih =>
    rw [after_succ', after_succ']
    exact ih.round

/-- The limit on rounds stops both runs or none: it looks at the number of rounds only. -/
theorem Trails.runWithin (h : q.Trails s) (n : Nat) :
    (q.runWithin (e.stopping true) n).query.Trails (s.runWithin (e.stopping false) n).query ∧
      (s.runWithin (e.stopping false) n).exceeded =
        (q.runWithin (e.stopping true) n).exceeded := by
  induction n generalizing q s with
  | zero => exact ⟨h, rfl⟩
  | succ n ih =>
    by_cases hr : q.status = .running
    · have hrs : s.status = .running := h.status.trans hr
      have hsame : (e.stopping false).settings.limitReached s.rounds =
          (e.stopping true).settings.limitReached q.rounds := by
        rw [h.rounds]
        rfl
      cases hl : (e.stopping true).settings.limitReached q.rounds with
      | true =>
        rw [runWithin_of_limit hr hl, runWithin_of_limit hrs (hsame.trans hl)]
        exact ⟨h, rfl⟩
      | false =>
        rw [runWithin_of_room hr hl, runWithin_of_room hrs (hsame.trans hl)]
        exact ih h.round
    · have hrs : s.status ≠ .running := fun hrs => hr (h.status.symm.trans hrs)
      rw [runWithin_of_stopped hr, runWithin_of_stopped hrs]
      exact ⟨h, rfl⟩

/-- What the lazy query has learned since changes no line of the proof. -/
theorem Trails.outcome {e' : Engine} (h : q.Trails s) (hdb : seed.WellFormed)
    (hq : q.Coherent e seed) (hs : s.Coherent e' seed) (now later : Instant) :
    s.outcome later = (q.outcome now).dated later := by
  by_cases hsucc : q.status = .success
  · obtain ⟨t, ht, hmem⟩ := hq.target_mem hsucc
    obtain ⟨lines, hlines, hout⟩ := outcome_of_success hq hdb ht hsucc now
    obtain ⟨lines', hlines', hout'⟩ := outcome_of_success hs hdb (h.target.trans ht)
      (h.status.trans hsucc) later
    have hsame := Proof.linesOf_eq h.provenance (hs.grown.acyclic hdb) (hq.grown.grounded hmem)
    obtain rfl : lines' = lines := Option.some.inj (by rw [← hlines', hsame, hlines])
    rw [hout, hout', h.rounds]
    rfl
  · have hab : q.Abreast s := h.abreast hsucc
    rw [outcome_of_not_success hsucc, outcome_of_not_success (h.status ▸ hsucc), hab.rounds,
      hab.database]
    rfl

end Query

namespace Engine

variable {db : Database}

theorem trails_search (e : Engine) (db : Database) (target : Option Fact) :
    ((e.stopping true).search db target).query.Trails
        ((e.stopping false).search db target).query ∧
      ((e.stopping false).search db target).result =
        ((e.stopping true).search db target).result := by
  obtain ⟨htrails, hexc⟩ : ((e.stopping true).search db target).query.Trails
        ((e.stopping false).search db target).query ∧
      ((e.stopping false).search db target).exceeded =
        ((e.stopping true).search db target).exceeded :=
    (Query.Trails.refl (.start db target)).runWithin (db.capacity + 1)
  refine ⟨htrails, ?_⟩
  rw [Run.result, Run.result, hexc, htrails.rounds, htrails.status]

/-- Whether rounds end at the target or not, the answer is the same but for its date: a proof with
the same lines after the same rounds, a failure after the same rounds with the same number of facts,
or the same error. After any number of rounds the facts and the provenance of the eager query are a
front part of those of the lazy one. -/
theorem prove_lazy_eq_prove_eager (hdb : db.WellFormed) (e : Engine) (t : Fact)
    (now later : Instant) :
    ((e.stopping false).prove db t later).1 =
        ((e.stopping true).prove db t now).1.map (·.dated later) ∧
      ∀ n, ((Query.start db (some t)).after (e.stopping true) n).database.facts <+:
            ((Query.start db (some t)).after (e.stopping false) n).database.facts ∧
          ((Query.start db (some t)).after (e.stopping true) n).provenance.entries <+:
            ((Query.start db (some t)).after (e.stopping false) n).provenance.entries := by
  constructor
  · cases ht : db.check t with
    | error err =>
      rw [prove_of_not_check _ ht, prove_of_not_check _ ht]
      rfl
    | ok u =>
      obtain ⟨htrails, hres⟩ := trails_search e db (some t)
      have hout := htrails.outcome hdb (coherent_search hdb _) (coherent_search hdb _) now later
      rw [prove_of_check _ ht, prove_of_check _ ht, hres, hout]
      cases ((e.stopping true).search db (some t)).result <;> rfl
  · intro n
    have hpre := ((Query.Trails.refl (.start db (some t))).after (e := e) n).provenance
    have heager := Query.coherent_after (e := e.stopping true) hdb
      (Query.coherent_start hdb (some t)) n
    have hlazy := Query.coherent_after (e := e.stopping false) hdb
      (Query.coherent_start hdb (some t)) n
    refine ⟨?_, hpre⟩
    rw [heager.grown.facts, hlazy.grown.facts]
    exact hpre.map Prod.fst

/-- That some cats are tame takes the third rule of the first round. The eager query stops there
with six facts, the lazy one goes on to ten, and both prove it by the same lines. -/
theorem prove_lazy_eq_prove_eager_pets :
    let e : Engine := { rules := .syllogistic }
    let eager := (Query.start .pets (some (.particular "cat" "tame"))).after (e.stopping true) 1
    let lazy := (Query.start .pets (some (.particular "cat" "tame"))).after (e.stopping false) 1
    let lines : List Line := [⟨1, .particular "tame" "cat", .given⟩,
      ⟨2, .particular "cat" "tame", .inferred "conversion" [1]⟩]
    eager.database.size = 6 ∧ lazy.database.size = 10 ∧
      eager.database.facts <+: lazy.database.facts ∧
      ((e.stopping true).prove .pets (.particular "cat" "tame") ⟨2026, 1, 1, 0, 0, 0, 0⟩).1 =
        .ok (.proved ⟨.particular "cat" "tame", lines, 1, ⟨2026, 1, 1, 0, 0, 0, 0⟩⟩) ∧
      ((e.stopping false).prove .pets (.particular "cat" "tame") ⟨2026, 1, 2, 0, 0, 0, 0⟩).1 =
        .ok (.proved ⟨.particular "cat" "tame", lines, 1, ⟨2026, 1, 2, 0, 0, 0, 0⟩⟩) := by
  intro e eager lazy lines
  obtain ⟨hanswer, hfront⟩ := prove_lazy_eq_prove_eager Database.wellFormed_pets e
    (.particular "cat" "tame") ⟨2026, 1, 1, 0, 0, 0, 0⟩ ⟨2026, 1, 2, 0, 0, 0, 0⟩
  have heager : ((e.stopping true).prove .pets (.particular "cat" "tame")
      ⟨2026, 1, 1, 0, 0, 0, 0⟩).1 =
        .ok (.proved ⟨.particular "cat" "tame", lines, 1, ⟨2026, 1, 1, 0, 0, 0, 0⟩⟩) := by
    decide +kernel
  refine ⟨by decide +kernel, by decide +kernel, (hfront 1).1, heager, ?_⟩
  rw [hanswer, heager]
  rfl

end Engine

end Syllogism
