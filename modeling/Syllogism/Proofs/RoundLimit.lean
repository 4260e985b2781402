import Syllogism.Proofs.Lifecycle

/-! The limit on rounds. A search with a limit is the search without one, cut off where the limit is
reached. One that needs no more rounds than the limit allows gives the same answer; any other fails
with its query left as the allowed rounds have made it, and fails again if it is run again. -/
namespace Syllogism

def Engine.withLimit (e : Engine) (limit : Option Nat) : Engine :=
  { e with settings := { e.settings with maxRounds := limit } }

namespace Query

variable {e : Engine} {q : Query} {limit : Nat}

theorem runWithin_withLimit_congr {l m : Option Nat} (hl : q.Unhindered (e.withLimit l))
    (hm : q.Unhindered (e.withLimit m)) (n : Nat) :
    q.runWithin (e.withLimit l) n = q.runWithin (e.withLimit m) n := by
  induction n generalizing q with
  | zero => rfl
  | succ n ih =>
    by_cases hr : q.status = .running
    · -- rounds do not look at the limit, so both runs make the same one
      have hround : q.round (e.withLimit l) = q.round (e.withLimit m) := rfl
      have hrest := ih hl.round hm.round
      rw [runWithin_of_room hr (hl 0 hr), runWithin_of_room hr (hm 0 hr), hrest, hround]
    · rw [runWithin_of_stopped hr, runWithin_of_stopped hr]

theorem runWithin_of_cut {k n : Nat} (hk : k < n) (hlimit : q.rounds + k = limit)
    (h : (q.after e k).status = .running) :
    (q.runWithin (e.withLimit (some limit)) n).query = q.after e k ∧
      (q.runWithin (e.withLimit (some limit)) n).exceeded = true := by
  induction k generalizing q n with
  | zero =>
    obtain ⟨n, rfl⟩ := Nat.exists_eq_succ_of_ne_zero hk.ne'
    have hr : q.status = .running := h
    have hreached : (e.withLimit (some limit)).settings.limitReached q.rounds = true :=
      decide_eq_true hlimit.ge
    rw [runWithin_of_limit hr hreached]
    exact ⟨rfl, rfl⟩
  | succ k ih =>
    obtain ⟨n, rfl⟩ := Nat.exists_eq_succ_of_ne_zero (Nat.ne_zero_of_lt hk)
    have hr : q.status = .running := running_of_running_after h (Nat.zero_le _)
    have hroom : (e.withLimit (some limit)).settings.limitReached q.rounds = false :=
      decide_eq_false (by omega)
    have hrounds := rounds_round_of_running hr e
    rw [runWithin_of_room hr hroom]
    exact ih (q := (q.round e).1) (by omega) (by omega) h

/-- A run that the limit has ended gets no further when it is taken up again. -/
theorem run_of_exceeded (h : (q.run e).exceeded = true) :
    (q.run e).query.run e = ⟨(q.run e).query, 0, true⟩ := by
  rcases runWithin_cases (e := e) q (q.database.capacity + 1) with ⟨-, hr, hl⟩ | ⟨hno, -⟩
  · exact runWithin_of_limit hr hl _
  · rw [run, hno] at h
    cases h

end Query

namespace Engine

variable {e : Engine} {db : Database} {target : Option Fact} {limit : Nat}

/-- The number of rounds that a search makes if nothing limits it. -/
def roundsFor (e : Engine) (db : Database) (target : Option Fact) : Nat :=
  ((e.withLimit none).search db target).query.rounds

theorem stopsAt_roundsFor (hdb : db.WellFormed) (e : Engine) (target : Option Fact) :
    (Query.start db target).StopsAt e (e.roundsFor db target) := by
  have hcoh := Query.coherent_start (e := e.withLimit none) hdb target
  obtain ⟨n, hn, hrun, -⟩ := (Query.unhindered_of_no_limit rfl _).run hdb hcoh
  have hrounds : e.roundsFor db target = n := by
    rw [roundsFor, search, hrun, hn.rounds_start]
  rw [hrounds]
  exact ⟨hn.running, hn.stopped⟩

theorem running_before_roundsFor (hdb : db.WellFormed) {n : Nat} (h : n < e.roundsFor db target) :
    ((Query.start db target).after e n).status = .running ∧
      ((Query.start db target).after e n).rounds = n := by
  have hr := (stopsAt_roundsFor hdb e target).running n h
  refine ⟨hr, ?_⟩
  rw [Query.rounds_after_of_running hr]
  exact Nat.zero_add n

theorem search_withLimit_of_le (hdb : db.WellFormed) (h : e.roundsFor db target ≤ limit) :
    (e.withLimit (some limit)).search db target = (e.withLimit none).search db target := by
  have hfree : (Query.start db target).Unhindered (e.withLimit none) :=
    Query.unhindered_of_no_limit rfl _
  have hlimit : (Query.start db target).Unhindered (e.withLimit (some limit)) := by
    have hstop : ((Query.start db target).after (e.withLimit (some limit))
        (e.roundsFor db target)).status ≠ .running := (stopsAt_roundsFor hdb e target).stopped
    refine Query.unhindered_of_stopped hstop fun m hm => ?_
    obtain rfl : limit = m := Option.some.inj hm
    exact h
  exact Query.runWithin_withLimit_congr hlimit hfree _

theorem search_withLimit_of_lt (hdb : db.WellFormed) (h : limit < e.roundsFor db target) :
    ((e.withLimit (some limit)).search db target).query = (Query.start db target).after e limit ∧
      ((e.withLimit (some limit)).search db target).query.rounds = limit ∧
      ((e.withLimit (some limit)).search db target).exceeded = true := by
  have hcoh := Query.coherent_start (e := e) hdb target
  obtain ⟨hr, hrounds⟩ := running_before_roundsFor hdb h
  have hroom : limit < db.capacity + 1 := by
    have hsize : db.size + limit ≤ ((Query.start db target).after e limit).database.size :=
      Query.size_after_of_running hdb hcoh hr
    have hle := (Query.coherent_after hdb hcoh limit).grown.size_le_capacity hdb
    omega
  obtain ⟨hquery, hexc⟩ := Query.runWithin_of_cut hroom (Nat.zero_add limit) hr
  exact ⟨hquery, (congrArg Query.rounds hquery).trans hrounds, hexc⟩

theorem result_withLimit_of_lt (hdb : db.WellFormed) (h : limit < e.roundsFor db target) :
    ((e.withLimit (some limit)).search db target).result = .error (.roundLimitExceeded limit) := by
  obtain ⟨-, hrounds, hexc⟩ := search_withLimit_of_lt hdb h
  rw [Run.result, hexc, hrounds]
  rfl

/-- The limit on rounds only cuts a search short. If the search without a limit makes no more rounds
than the limit allows, the limited one gives the same answer at the same cost; otherwise it fails,
and the error names the limit. Then its query is as the allowed rounds have left it, and running it
again fails in the same way without changing anything. -/
theorem limit_truncates_search (hdb : db.WellFormed) (e : Engine) (limit : Nat) :
    (∀ t now, e.roundsFor db (some t) ≤ limit →
        (e.withLimit (some limit)).prove db t now = (e.withLimit none).prove db t now) ∧
      (∀ t now, db.check t = .ok () → limit < e.roundsFor db (some t) →
        ((e.withLimit (some limit)).prove db t now).1 = .error (.roundLimitExceeded limit)) ∧
      (e.roundsFor db none ≤ limit →
        (e.withLimit (some limit)).saturate db = (e.withLimit none).saturate db) ∧
      (limit < e.roundsFor db none →
        ((e.withLimit (some limit)).saturate db).1 = .error (.roundLimitExceeded limit)) ∧
      ∀ target, limit < e.roundsFor db target →
        let r := (Query.start db target).run (e.withLimit (some limit))
        let again := r.query.run (e.withLimit (some limit))
        r.result = .error (.roundLimitExceeded limit) ∧
          r.query = (Query.start db target).after (e.withLimit (some limit)) limit ∧
          again.result = .error (.roundLimitExceeded limit) ∧ again.query = r.query ∧
          again.work = 0 := by
  refine ⟨fun t now h => ?_, fun t now ht h => ?_, fun h => ?_, fun h => ?_, fun target h => ?_⟩
  · exact prove_congr (search_withLimit_of_le hdb h)
  · rw [prove_of_check _ ht, result_withLimit_of_lt hdb h]
    rfl
  · rw [saturate_eq_search, saturate_eq_search, search_withLimit_of_le hdb h]
  · rw [saturate_eq_search, result_withLimit_of_lt hdb h]
    rfl
  · intro r again
    obtain ⟨hquery, hrounds, hexc⟩ := search_withLimit_of_lt hdb h
    have hagain : again = ⟨r.query, 0, true⟩ := Query.run_of_exceeded hexc
    have hcount : r.query.rounds = limit := hrounds
    refine ⟨result_withLimit_of_lt hdb h, hquery, ?_, by rw [hagain], by rw [hagain]⟩
    rw [hagain, ← hcount]
    rfl

/-- Saturation takes three rounds, the last of which adds nothing, and two rounds are enough to find
that some pets are tame. So a limit of two leaves the one without its end and not the other. -/
theorem limit_truncates_search_pets :
    let e : Engine := { rules := .syllogistic }
    e.roundsFor .pets none = 3 ∧ e.roundsFor .pets (some (.particular "pet" "tame")) = 2 ∧
      (e.withLimit (some 3)).saturate .pets = (e.withLimit none).saturate .pets ∧
      ((e.withLimit (some 2)).saturate .pets).1 = .error (.roundLimitExceeded 2) ∧
      (e.withLimit (some 2)).prove .pets (.particular "pet" "tame") ⟨2026, 1, 1, 0, 0, 0, 0⟩ =
        (e.withLimit none).prove .pets (.particular "pet" "tame") ⟨2026, 1, 1, 0, 0, 0, 0⟩ ∧
      ((e.withLimit (some 1)).prove .pets (.particular "pet" "tame")
        ⟨2026, 1, 1, 0, 0, 0, 0⟩).1 = .error (.roundLimitExceeded 1) ∧
      ((Query.start .pets none).run (e.withLimit (some 2))).query =
        (Query.start .pets none).after (e.withLimit (some 2)) 2 := by
  intro e
  have hall : e.roundsFor .pets none = 3 := by decide +kernel
  have htame : e.roundsFor .pets (some (.particular "pet" "tame")) = 2 := by decide +kernel
  obtain ⟨-, hfail, -, -, -⟩ := limit_truncates_search Database.wellFormed_pets e 1
  obtain ⟨hprove, -, -, hcut, hleft⟩ := limit_truncates_search Database.wellFormed_pets e 2
  obtain ⟨-, -, hsaturate, -, -⟩ := limit_truncates_search Database.wellFormed_pets e 3
  exact ⟨hall, htame, hsaturate hall.le, hcut (by omega), hprove _ _ htame.le,
    hfail _ _ rfl (by omega), (hleft none (by omega)).2.1⟩

end Engine

end Syllogism
