import Mathlib.Data.Nat.Find
import Mathlib.Logic.Function.Iterate
import Syllogism.Proofs.Growth

/-! Rounds and runs of a query. Between rounds the status says what database and provenance are
like. Every round but the last adds a fact, so a query stops after finitely many rounds, and a run
that the limit does not hold up goes on until then. -/
namespace Syllogism

/-- What holds of a query between rounds. -/
structure Query.Coherent (e : Engine) (seed : Database) (q : Query) : Prop where
  grown : Grown e.rules.rules e.policies seed q.database q.provenance
  success : q.status = .success ↔ q.provenance.reaches q.target = true
  closed : q.status = .saturated → ∀ r ∈ e.rules.rules,
    ∀ x ∈ r.consequences q.database e.policies, x.1 ∈ q.database.facts

namespace Query

variable {e : Engine} {seed : Database}

theorem coherent_start (hs : seed.WellFormed) (target : Option Fact) :
    (start seed target).Coherent e seed := by
  refine ⟨Grown.start hs, ?_, ?_⟩
  · cases h : seed.seed.reaches target <;> simp [start, h]
  · cases h : seed.seed.reaches target <;> simp [start, h]

@[simp] theorem target_round (q : Query) : (q.round e).1.target = q.target := by
  unfold round
  split <;> rfl

theorem round_of_running {q : Query} (h : q.status = .running) (e : Engine) :
    (q.round e).1 =
      { q with
        database := (q.pass e).database
        provenance := (q.pass e).provenance
        status := statusAfter q.database.size q.target (q.pass e)
        rounds := q.rounds + 1 } := by
  simp [round, h]

theorem work_of_running {q : Query} (h : q.status = .running) (e : Engine) :
    (q.round e).2 =
      { rounds := 1
        ruleApplications := (q.pass e).applications
        factsDerived := (q.pass e).derived } := by
  simp [round, h]

theorem grown_pass (hs : seed.WellFormed) {q : Query} (h : q.Coherent e seed) :
    Grown e.rules.rules e.policies seed (q.pass e).database (q.pass e).provenance :=
  Pass.grown_applyAll hs _ _ h.grown fun _ hr => hr

theorem prefix_pass (e : Engine) (q : Query) :
    q.provenance.entries <+: (q.pass e).provenance.entries :=
  Pass.prefix_applyAll e.settings.stopOnTarget q.target (.start q) e.rules.rules

theorem statusAfter_eq_success_iff {before : Nat} {target : Option Fact} {p : Pass} :
    statusAfter before target p = .success ↔ p.provenance.reaches target = true := by
  unfold statusAfter
  split
  · next h => simp [h]
  · next h => split <;> simp [h]

theorem statusAfter_eq_saturated_iff {before : Nat} {target : Option Fact} {p : Pass} :
    statusAfter before target p = .saturated ↔
      p.provenance.reaches target = false ∧ p.database.size = before := by
  unfold statusAfter
  split
  · next h => simp [h]
  · next h => split <;> simp_all

theorem statusAfter_eq_running_iff {before : Nat} {target : Option Fact} {p : Pass} :
    statusAfter before target p = .running ↔
      p.provenance.reaches target = false ∧ p.database.size ≠ before := by
  unfold statusAfter
  split
  · next h => simp [h]
  · next h => split <;> simp_all

theorem coherent_round (hs : seed.WellFormed) {q : Query} (h : q.Coherent e seed) :
    (q.round e).1.Coherent e seed := by
  by_cases hr : q.status = .running
  · rw [round_of_running hr]
    refine ⟨grown_pass hs h, statusAfter_eq_success_iff, fun hsat => ?_⟩
    obtain ⟨ht, hsize⟩ := statusAfter_eq_saturated_iff.1 hsat
    obtain ⟨hsame, hknown⟩ := Pass.quiet_applyAll hs h.grown (fun _ hm => hm) hsize ht
    have hdb : (q.pass e).database = q.database := hsame
    simpa [hdb, Pass.start] using hknown
  · rw [round_of_stopped hr]
    exact h

theorem prefix_round (e : Engine) (q : Query) :
    q.provenance.entries <+: (q.round e).1.provenance.entries := by
  by_cases hr : q.status = .running
  · rw [round_of_running hr]
    exact prefix_pass e q
  · simp [round_of_stopped hr]

theorem size_le_round (hs : seed.WellFormed) {q : Query} (h : q.Coherent e seed) :
    q.database.size ≤ (q.round e).1.database.size := by
  rw [h.grown.size_eq, (coherent_round hs h).grown.size_eq]
  exact (prefix_round e q).length_le

theorem size_lt_round (hs : seed.WellFormed) {q : Query} (h : q.Coherent e seed)
    (hr : q.status = .running) (hn : (q.round e).1.status = .running) :
    q.database.size < (q.round e).1.database.size := by
  have hle := size_le_round hs h
  rw [round_of_running hr] at hn hle ⊢
  have hne := (statusAfter_eq_running_iff.1 hn).2
  exact Nat.lt_of_le_of_ne hle (Ne.symm hne)

def after (e : Engine) (q : Query) (n : Nat) : Query := (fun q => (q.round e).1)^[n] q

@[simp] theorem after_zero (q : Query) : q.after e 0 = q := rfl

theorem after_succ (q : Query) (n : Nat) : q.after e (n + 1) = (q.round e).1.after e n := rfl

theorem after_succ' (q : Query) (n : Nat) : q.after e (n + 1) = ((q.after e n).round e).1 :=
  Function.iterate_succ_apply' _ n q

theorem after_add (q : Query) (m n : Nat) : q.after e (m + n) = (q.after e m).after e n := by
  rw [Nat.add_comm]
  exact Function.iterate_add_apply _ n m q

theorem after_of_stopped {q : Query} (h : q.status ≠ .running) (n : Nat) : q.after e n = q := by
  have hfix : (q.round e).1 = q := by rw [round_of_stopped h]
  exact Function.iterate_fixed hfix n

theorem after_eq_of_stopped {q : Query} {m n : Nat} (h : (q.after e m).status ≠ .running)
    (hmn : m ≤ n) : q.after e n = q.after e m := by
  obtain ⟨k, rfl⟩ := Nat.exists_eq_add_of_le hmn
  rw [after_add, after_of_stopped h]

theorem running_of_running_after {q : Query} {m n : Nat} (h : (q.after e n).status = .running)
    (hmn : m ≤ n) : (q.after e m).status = .running := by
  by_contra hm
  rw [after_eq_of_stopped hm hmn] at h
  exact hm h

theorem coherent_after (hs : seed.WellFormed) {q : Query} (h : q.Coherent e seed) (n : Nat) :
    (q.after e n).Coherent e seed :=
  Function.Iterate.rec (Query.Coherent e seed) h (fun _ => coherent_round hs) n

theorem prefix_after (q : Query) {m n : Nat} (hmn : m ≤ n) :
    (q.after e m).provenance.entries <+: (q.after e n).provenance.entries := by
  induction n, hmn using Nat.le_induction with
  | base => exact List.prefix_rfl
  | succ n _ ih =>
    rw [after_succ']
    exact ih.trans (prefix_round e _)

theorem size_after_of_running (hs : seed.WellFormed) {q : Query} (h : q.Coherent e seed) {n : Nat}
    (hr : (q.after e n).status = .running) :
    q.database.size + n ≤ (q.after e n).database.size := by
  induction n with
  | zero => simp
  | succ n ih =>
    have hn := running_of_running_after hr n.le_succ
    have hle := ih hn
    rw [after_succ'] at hr ⊢
    have hlt := size_lt_round hs (coherent_after hs h n) hn hr
    omega

theorem rounds_after {q : Query} {n : Nat} (h : ∀ m < n, (q.after e m).status = .running) :
    (q.after e n).rounds = q.rounds + n := by
  induction n with
  | zero => rfl
  | succ n ih =>
    have hn := ih fun m hm => h m (by omega)
    rw [after_succ', rounds_round_of_running (h n (by omega)), hn, Nat.add_assoc]

theorem rounds_after_of_running {q : Query} {n : Nat} (h : (q.after e n).status = .running) :
    (q.after e n).rounds = q.rounds + n :=
  rounds_after fun _ hm => running_of_running_after h (by omega)

/-- The query makes `n` rounds and then stands still. -/
structure StopsAt (e : Engine) (q : Query) (n : Nat) : Prop where
  running : ∀ m < n, (q.after e m).status = .running
  stopped : (q.after e n).status ≠ .running

theorem exists_stopsAt {q : Query} {n : Nat} (h : (q.after e n).status ≠ .running) :
    ∃ m ≤ n, q.StopsAt e m := by
  have hex : ∃ m, (q.after e m).status ≠ .running := ⟨n, h⟩
  refine ⟨Nat.find hex, Nat.find_min' hex h, fun m hm => ?_, Nat.find_spec hex⟩
  exact not_not.1 (Nat.find_min hex hm)

namespace StopsAt

variable {q : Query} {n : Nat}

theorem rounds_eq (h : q.StopsAt e n) : (q.after e n).rounds = q.rounds + n :=
  rounds_after h.running

theorem after_eq (h : q.StopsAt e n) {m : Nat} (hm : (q.after e m).status ≠ .running) :
    q.after e m = q.after e n := by
  rcases Nat.lt_or_ge m n with hlt | hle
  · exact absurd (h.running m hlt) hm
  · exact after_eq_of_stopped h.stopped hle

theorem lt_of_running (h : q.StopsAt e n) {m : Nat} (hm : (q.after e m).status = .running) :
    m < n := by
  by_contra hle
  rw [after_eq_of_stopped h.stopped (Nat.le_of_not_lt hle)] at hm
  exact h.stopped hm

theorem le_of_stopped (h : q.StopsAt e n) {m : Nat} (hm : (q.after e m).status ≠ .running) :
    n ≤ m := by
  by_contra hlt
  exact hm (h.running m (Nat.lt_of_not_le hlt))

theorem rounds_start {target : Option Fact} (h : (start seed target).StopsAt e n) :
    ((start seed target).after e n).rounds = n := by
  rw [h.rounds_eq]
  exact Nat.zero_add n

/-- All rounds but the last have added a fact. -/
theorem size_le (hs : seed.WellFormed) (hq : q.Coherent e seed) (h : q.StopsAt e n) :
    q.database.size + n ≤ (q.after e n).database.size + 1 := by
  cases n with
  | zero => simp
  | succ n =>
    have hbefore := size_after_of_running hs hq (h.running n n.lt_succ_self)
    have hlast := size_le_round hs (coherent_after hs hq n)
    rw [after_succ']
    omega

end StopsAt

/-- More rounds than there is room for new facts bring a query to its end. -/
theorem stopped_after (hs : seed.WellFormed) {q : Query} (h : q.Coherent e seed) {n : Nat}
    (hn : seed.capacity < q.database.size + n) : (q.after e n).status ≠ .running := by
  intro hr
  have hsize := size_after_of_running hs h hr
  have hroom := (coherent_after hs h n).grown.size_le_capacity hs
  omega

theorem runWithin_of_stopped {q : Query} (h : q.status ≠ .running) (e : Engine) (n : Nat) :
    q.runWithin e n = ⟨q, 0, false⟩ := by
  cases n <;> simp [runWithin, h]

theorem runWithin_of_limit {q : Query} (h : q.status = .running)
    (hl : e.settings.limitReached q.rounds = true) (n : Nat) :
    q.runWithin e (n + 1) = ⟨q, 0, true⟩ := by
  simp [runWithin, h, hl]

theorem runWithin_of_room {q : Query} (h : q.status = .running)
    (hl : e.settings.limitReached q.rounds = false) (n : Nat) :
    q.runWithin e (n + 1) =
      let r := (q.round e).1.runWithin e n
      ⟨r.query, (q.round e).2 + r.work, r.exceeded⟩ := by
  simp [runWithin, h, hl]

theorem runWithin_induction {P : Query → Prop} (hP : ∀ q, P q → P (q.round e).1) {q : Query}
    (h : P q) (n : Nat) : P (q.runWithin e n).query := by
  induction n generalizing q with
  | zero => exact h
  | succ n ih =>
    rw [runWithin]
    split
    · split
      · exact h
      · exact ih (hP q h)
    · exact h

/-- A run ends at the limit, with the query still running, or it makes its rounds. -/
theorem runWithin_cases (q : Query) (n : Nat) :
    ((q.runWithin e n).exceeded = true ∧ (q.runWithin e n).query.status = .running ∧
        e.settings.limitReached (q.runWithin e n).query.rounds = true) ∨
      ((q.runWithin e n).exceeded = false ∧ (q.runWithin e n).query = q.after e n) := by
  induction n generalizing q with
  | zero => exact .inr ⟨rfl, rfl⟩
  | succ n ih =>
    by_cases hr : q.status = .running
    · cases hl : e.settings.limitReached q.rounds with
      | true =>
        rw [runWithin_of_limit hr hl]
        exact .inl ⟨rfl, hr, hl⟩
      | false =>
        rw [runWithin_of_room hr hl, after_succ]
        exact ih _
    · rw [runWithin_of_stopped hr, after_of_stopped hr]
      exact .inr ⟨rfl, rfl⟩

theorem coherent_run (hs : seed.WellFormed) {q : Query} (h : q.Coherent e seed) :
    (q.run e).query.Coherent e seed :=
  runWithin_induction (fun _ => coherent_round hs) h _

theorem target_run (q : Query) : (q.run e).query.target = q.target :=
  runWithin_induction (P := fun r => r.target = q.target) (fun r h => by simpa using h) rfl _

/-- The limit on rounds lets the query run as long as it wants to. -/
def Unhindered (e : Engine) (q : Query) : Prop :=
  ∀ n, (q.after e n).status = .running → e.settings.limitReached (q.after e n).rounds = false

theorem unhindered_of_no_limit (hl : e.settings.maxRounds = none) (q : Query) :
    q.Unhindered e := by
  intro n _
  simp [Settings.limitReached, hl]

theorem Unhindered.round {q : Query} (h : q.Unhindered e) : (q.round e).1.Unhindered e := by
  intro n hn
  rw [← after_succ] at hn ⊢
  exact h (n + 1) hn

theorem Unhindered.runWithin {q : Query} (h : q.Unhindered e) (n : Nat) :
    (q.runWithin e n).query = q.after e n ∧ (q.runWithin e n).exceeded = false := by
  induction n generalizing q with
  | zero => exact ⟨rfl, rfl⟩
  | succ n ih =>
    by_cases hr : q.status = .running
    · rw [runWithin_of_room hr (h 0 hr), after_succ]
      exact ih h.round
    · rw [runWithin_of_stopped hr, after_of_stopped hr]
      exact ⟨rfl, rfl⟩

/-- Without hindrance a run ends where the query stops: its count is larger than the number of facts
that the universe has room for. -/
theorem Unhindered.run (hs : seed.WellFormed) {q : Query} (hq : q.Coherent e seed)
    (h : q.Unhindered e) :
    ∃ n, q.StopsAt e n ∧ (q.run e).query = q.after e n ∧ (q.run e).exceeded = false := by
  obtain ⟨hrun, hexc⟩ := h.runWithin (q.database.capacity + 1)
  have hstop : (q.after e (q.database.capacity + 1)).status ≠ .running :=
    stopped_after hs hq (by rw [hq.grown.capacity_eq]; omega)
  obtain ⟨n, -, hn⟩ := exists_stopsAt hstop
  exact ⟨n, hn, hrun.trans (hn.after_eq hstop), hexc⟩

theorem run_stops (hs : seed.WellFormed) (hl : e.settings.maxRounds = none) {q : Query}
    (h : q.Coherent e seed) :
    (q.run e).query.status ≠ .running ∧ (q.run e).exceeded = false := by
  obtain ⟨n, hn, hrun, hexc⟩ := (unhindered_of_no_limit hl q).run hs h
  exact ⟨hrun ▸ hn.stopped, hexc⟩

end Query

end Syllogism
