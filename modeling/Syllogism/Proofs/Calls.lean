import Syllogism.Proofs.Answers
import Syllogism.Session

/-! Calls on an open query. Rounds and runs may be asked for in any order, however often. At any
time the status says what the query knows. Once the query has stopped, calls change nothing and
cost nothing, and the answer at the end is the one that the status announces. -/
namespace Syllogism

inductive Call
  | round
  | run

namespace Session

def call (s : Session) (id : String) (q : Query) : Call → Query × Session
  | .round => s.round id q
  | .run => ((s.run id q).1.query, (s.run id q).2)

def calls (s : Session) (id : String) (q : Query) : List Call → Query × Session
  | [] => (q, s)
  | c :: cs => (s.call id q c).2.calls id (s.call id q c).1 cs

variable {id : String} {q : Query}

theorem engine_call (s : Session) (c : Call) : (s.call id q c).2.engine = s.engine := by
  cases c <;> rfl

theorem calls_induction {P : Query → Prop} {s : Session}
    (hP : ∀ q, P q → P (q.round s.engine).1) (h : P q) (cs : List Call) :
    P (s.calls id q cs).1 := by
  induction cs generalizing s q with
  | nil => exact h
  | cons c cs ih =>
    have hnext : P (s.call id q c).1 := by
      cases c with
      | round => exact hP q h
      | run => exact Query.runWithin_induction hP h _
    exact ih (by rwa [engine_call]) hnext

theorem call_of_stopped (h : q.status ≠ .running) (s : Session) (c : Call) :
    (s.call id q c).1 = q ∧ (s.call id q c).2.stats = s.stats := by
  cases c with
  | round =>
    have hround := Query.round_of_stopped h s.engine
    rw [call, round, hround]
    exact ⟨rfl, rfl⟩
  | run =>
    have hrun : q.run s.engine = ⟨q, 0, false⟩ := Query.runWithin_of_stopped h s.engine _
    rw [call, run, hrun]
    exact ⟨rfl, rfl⟩

theorem calls_of_stopped (h : q.status ≠ .running) (s : Session) (cs : List Call) :
    (s.calls id q cs).1 = q ∧ (s.calls id q cs).2.stats = s.stats := by
  induction cs generalizing s with
  | nil => exact ⟨rfl, rfl⟩
  | cons c cs ih =>
    obtain ⟨hq, hstats⟩ : (s.call id q c).1 = q ∧ (s.call id q c).2.stats = s.stats :=
      call_of_stopped h s c
    rw [calls, hq, ← hstats]
    exact ih _

end Session

namespace Query

variable {e : Engine} {seed : Database} {q : Query}

/-- What the status says about a query. Success means that the target is known and has a proof.
Saturation means that it is not known and that no rule adds anything to what is. -/
structure Truthful (e : Engine) (q : Query) : Prop where
  success : q.status = .success ↔ ∃ t, q.target = some t ∧ q.provenance.contains t = true
  proof : q.status = .success → ∀ t, q.target = some t → ∀ now,
    ∃ p, Proof.ofProvenance q.provenance t q.rounds now = some p
  missed : q.status = .saturated → ∀ t, q.target = some t → q.provenance.contains t = false
  closed : q.status = .saturated → ∀ r ∈ e.rules.rules,
    r.apply q.database q.provenance e.policies = ⟨q.provenance, []⟩

theorem Coherent.apply_eq (h : q.Coherent e seed) {r : Rule}
    (hr : ∀ x ∈ r.consequences q.database e.policies, x.1 ∈ q.database.facts) :
    r.apply q.database q.provenance e.policies = ⟨q.provenance, []⟩ := by
  have hfresh : q.provenance.fresh (r.consequences q.database e.policies) = [] := by
    refine Provenance.fresh_eq_nil_iff.2 fun x hx => ?_
    rw [← h.grown.facts]
    exact hr x hx
  simp [Rule.apply_eq_fresh, hfresh]

theorem Coherent.truthful (h : q.Coherent e seed) (hs : seed.WellFormed) : q.Truthful e where
  success := h.success.trans Provenance.reaches_iff
  proof hq t ht now := by
    obtain ⟨lines, hlines, -⟩ := outcome_of_success h hs ht hq now
    exact ⟨_, by rw [Proof.ofProvenance, hlines]; rfl⟩
  missed hq t ht := by
    refine Bool.eq_false_iff.2 fun hknown => ?_
    have hsucc := h.success.2 (Provenance.reaches_iff.2 ⟨t, ht, hknown⟩)
    rw [hq] at hsucc
    cases hsucc
  closed hq r hr := h.apply_eq (h.closed hq r hr)

/-- A run gives an error exactly if it leaves the query running. -/
theorem result_run (hs : seed.WellFormed) (h : q.Coherent e seed) :
    (q.run e).result = if (q.run e).query.status = .running
      then .error (.roundLimitExceeded (q.run e).query.rounds)
      else .ok (q.run e).query.status := by
  rcases runWithin_cases (e := e) q (q.database.capacity + 1) with
    ⟨hexc, hr, -⟩ | ⟨hexc, hafter⟩
  · have hrun : (q.run e).query.status = .running := hr
    have hend : (q.run e).exceeded = true := hexc
    simp [Run.result, hend, hrun]
  · have hstop : (q.after e (q.database.capacity + 1)).status ≠ .running :=
      stopped_after hs h (by rw [h.grown.capacity_eq]; omega)
    have hrun : (q.run e).query.status ≠ .running := by
      rw [run, hafter]
      exact hstop
    have hend : (q.run e).exceeded = false := hexc
    simp [Run.result, hend, hrun]

/-- What comes of finishing a query, by the status to which a run has brought it. -/
structure Ends (e : Engine) (q : Query) (now : Instant) : Prop where
  limited : (q.run e).query.status = .running →
    (q.finish e now).1 = .error (.roundLimitExceeded (q.run e).query.rounds)
  proved : (q.run e).query.status = .success → ∃ t lines, q.target = some t ∧
    (q.finish e now).1 = .ok (.proved ⟨t, lines, (q.run e).query.rounds, now⟩)
  unprovable : (q.run e).query.status = .saturated →
    (q.finish e now).1 =
      .ok (.unprovable (q.run e).query.rounds (q.run e).query.database.size)

theorem Coherent.ends (h : q.Coherent e seed) (hs : seed.WellFormed) (now : Instant) :
    q.Ends e now := by
  have hcoh := coherent_run hs h
  have hfinish : (q.finish e now).1 = (q.run e).result.map fun _ => (q.run e).query.outcome now :=
    rfl
  rw [result_run hs h] at hfinish
  refine ⟨fun hr => ?_, fun hr => ?_, fun hr => ?_⟩
  · simpa [hr, Except.map] using hfinish
  · obtain ⟨t, ht, -⟩ := hcoh.target_mem hr
    obtain ⟨lines, -, hout⟩ := outcome_of_success hcoh hs ht hr now
    refine ⟨t, lines, (target_run q).symm.trans ht, ?_⟩
    simpa [hr, Except.map, hout] using hfinish
  · have hout := outcome_of_not_success (q := (q.run e).query) (by simp [hr]) now
    simpa [hr, Except.map, hout] using hfinish

end Query

namespace Session

variable {db : Database}

/-- Whatever rounds and runs are called on a query, with or without a target, its status says what
is the case. If the query has stopped, no further call changes it or the tally of the engine; and
finishing it gives a proof if it ends in success, the lack of one if it ends in saturation, and an
error only if the limit on rounds has kept it from either. -/
theorem status_holds_after_calls (hdb : db.WellFormed) (s : Session) (id : String)
    (target : Option Fact) (cs : List Call) :
    let q := (s.calls id (.start db target) cs).1
    let s' := (s.calls id (.start db target) cs).2
    q.target = target ∧ q.Truthful s.engine ∧
      (q.status ≠ .running → ∀ more,
        (s'.calls id q more).1 = q ∧ (s'.calls id q more).2.stats = s'.stats) ∧
      ∀ now, q.Ends s.engine now := by
  intro q s'
  have hcoh : q.Coherent s.engine db :=
    calls_induction (fun _ => Query.coherent_round hdb) (Query.coherent_start hdb target) cs
  have htarget : q.target = target :=
    calls_induction (P := fun r => r.target = target)
      (fun r hr => (Query.target_round r).trans hr) rfl cs
  exact ⟨htarget, hcoh.truthful hdb, fun hstop more => calls_of_stopped hstop s' more,
    fun now => hcoh.ends hdb now⟩

/-- A round and a run bring two queries to their ends. One has found that some pets are tame. The
other has saturated without a reason for all pets to be cats: no rule adds anything, more calls
leave it and the tally alone, and it is finished with what it has. -/
theorem status_holds_after_calls_pets :
    let s : Session := { engine := { rules := .syllogistic } }
    (∃ q s', s.calls "a" (.start .pets (some (.particular "pet" "tame"))) [.round, .run] = (q, s') ∧
      q.status = .success ∧ ∃ p, Proof.ofProvenance q.provenance (.particular "pet" "tame") q.rounds
        ⟨2026, 1, 1, 0, 0, 0, 0⟩ = some p) ∧
    ∃ q s', s.calls "b" (.start .pets (some (.universal "pet" "cat"))) [.round, .run] = (q, s') ∧
      q.status = .saturated ∧
      Rule.darii.apply q.database q.provenance .standard = ⟨q.provenance, []⟩ ∧
      (q.finish s.engine ⟨2026, 1, 1, 0, 0, 0, 0⟩).1 = .ok (.unprovable 3 13) ∧
      s'.stats = ⟨0, 3, 15, 11⟩ ∧
      ∀ more, (s'.calls "b" q more).1 = q ∧ (s'.calls "b" q more).2.stats = s'.stats := by
  intro s
  constructor
  · obtain ⟨htarget, htruth, -, -⟩ := status_holds_after_calls Database.wellFormed_pets s "a"
      (some (.particular "pet" "tame")) [.round, .run]
    refine ⟨_, _, (Prod.eta _).symm, ?_, ?_⟩
    · decide +kernel
    · exact htruth.proof (by decide +kernel) _ htarget _
  · obtain ⟨-, htruth, hstop, -⟩ := status_holds_after_calls Database.wellFormed_pets s "b"
      (some (.universal "pet" "cat")) [.round, .run]
    refine ⟨_, _, (Prod.eta _).symm, ?_, ?_, ?_, ?_, ?_⟩
    · decide +kernel
    · exact htruth.closed (by decide +kernel) .darii (by decide)
    · decide +kernel
    · decide +kernel
    · exact hstop (by decide +kernel)

end Session

end Syllogism
