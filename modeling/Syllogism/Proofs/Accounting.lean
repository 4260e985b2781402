import Syllogism.Proofs.Answers
import Syllogism.Session

/-! Accounts of work. Beside a session, whose tally is charged for the work that is reported to it,
a ledger is kept that looks at the queries only: how many were opened, and where each stretch of
rounds found a query and left it. Whatever is asked of a session, in any order, the tally is the sum
of the ledger. -/
namespace Syllogism

namespace Database

theorem size_le_push (db : Database) (f : Fact) : db.size ≤ (db.push f).size := by
  cases h : db.contains f <;> simp [push, size, h]

theorem size_le_pushAll (db : Database) (fs : List Fact) : db.size ≤ (db.pushAll fs).size := by
  induction fs generalizing db with
  | nil => exact Nat.le_refl _
  | cons f fs ih => exact (db.size_le_push f).trans (ih _)

theorem size_add_merge (db : Database) (fs : List Fact) :
    db.size + (db.merge fs).1 = (db.merge fs).2.size :=
  Nat.add_sub_cancel' (db.size_le_pushAll fs)

end Database

namespace Pass

variable {table : PolicyTable} {target : Option Fact}

theorem size_add_derived_apply (table : PolicyTable) (p : Pass) (r : Rule) :
    p.database.size + (p.apply table r).derived = (p.apply table r).database.size + p.derived := by
  have hmerge := p.database.size_add_merge (r.apply p.database p.provenance table).facts
  simp only [apply]
  omega

/-- What the rules are found to add, one after another, is what they add between them. -/
theorem size_add_derived_applyAll (eager : Bool) (p : Pass) (rs : List Rule) :
    p.database.size + (p.applyAll table eager target rs).derived =
      (p.applyAll table eager target rs).database.size + p.derived := by
  induction rs generalizing p with
  | nil => rfl
  | cons r rs ih =>
    have hstep := p.size_add_derived_apply table r
    have hrest := ih (p.apply table r)
    rw [applyAll]
    split <;> omega

theorem applications_applyAll_le (eager : Bool) (p : Pass) (rs : List Rule) :
    (p.applyAll table eager target rs).applications ≤ p.applications + rs.length := by
  induction rs generalizing p with
  | nil => exact Nat.le_refl _
  | cons r rs ih =>
    have hstep : (p.apply table r).applications = p.applications + 1 := rfl
    have hrest := ih (p.apply table r)
    rw [applyAll, List.length_cons]
    split <;> omega

theorem applications_applyAll_lazy (p : Pass) (rs : List Rule) :
    (p.applyAll table false target rs).applications = p.applications + rs.length := by
  induction rs generalizing p with
  | nil => rfl
  | cons r rs ih =>
    have hstep : (p.apply table r).applications = p.applications + 1 := rfl
    have hrest := ih (p.apply table r)
    simp only [applyAll, Bool.false_and, Bool.false_eq_true, if_false, List.length_cons]
    omega

end Pass

namespace Stats

theorem add_zero (a : Stats) : a + 0 = a := rfl

theorem add_assoc (a b c : Stats) : a + b + c = a + (b + c) := by
  change Stats.mk _ _ _ _ = Stats.mk _ _ _ _
  simp [Nat.add_assoc]

/-- The work is what rounds of an engine with `rules` rules do to lead a query from `q` to `q'`. -/
structure Covers (rules : Nat) (eager : Bool) (work : Stats) (q q' : Query) : Prop where
  queries : work.queries = 0
  rounds : q.rounds + work.rounds = q'.rounds
  facts : q.database.size + work.factsDerived = q'.database.size
  applications_le : work.ruleApplications ≤ work.rounds * rules
  applications_eq : eager = false → work.ruleApplications = work.rounds * rules

namespace Covers

variable {rules : Nat} {eager : Bool} {v w : Stats} {q q' q'' : Query}

theorem refl (q : Query) : Covers rules eager 0 q q where
  queries := rfl
  rounds := rfl
  facts := rfl
  applications_le := Nat.zero_le _
  applications_eq _ := (Nat.zero_mul rules).symm

theorem trans (hv : Covers rules eager v q q') (hw : Covers rules eager w q' q'') :
    Covers rules eager (v + w) q q'' where
  queries := by simp [hv.queries, hw.queries]
  rounds := by rw [rounds_add, ← Nat.add_assoc, hv.rounds, hw.rounds]
  facts := by rw [factsDerived_add, ← Nat.add_assoc, hv.facts, hw.facts]
  applications_le := by
    rw [ruleApplications_add, rounds_add, Nat.add_mul]
    exact Nat.add_le_add hv.applications_le hw.applications_le
  applications_eq he := by
    rw [ruleApplications_add, rounds_add, Nat.add_mul, hv.applications_eq he,
      hw.applications_eq he]

end Covers

end Stats

namespace Query

variable {e : Engine}

theorem covers_round (q : Query) :
    (q.round e).2.Covers e.rules.length e.settings.stopOnTarget q (q.round e).1 := by
  by_cases hr : q.status = .running
  · rw [round_of_running hr, work_of_running hr]
    refine ⟨rfl, rfl, Pass.size_add_derived_applyAll _ (.start q) _, ?_, fun he => ?_⟩
    · have hle : (q.pass e).applications ≤ 0 + e.rules.length :=
        Pass.applications_applyAll_le _ (.start q) _
      simpa using hle
    · simp [pass, Pass.start, Catalogue.length, he, Pass.applications_applyAll_lazy]
  · rw [round_of_stopped hr]
    exact .refl q

theorem covers_runWithin (q : Query) (n : Nat) :
    (q.runWithin e n).work.Covers e.rules.length e.settings.stopOnTarget q
      (q.runWithin e n).query := by
  induction n generalizing q with
  | zero => exact .refl q
  | succ n ih =>
    by_cases hr : q.status = .running
    · cases hl : e.settings.limitReached q.rounds with
      | true =>
        rw [runWithin_of_limit hr hl]
        exact .refl q
      | false =>
        rw [runWithin_of_room hr hl]
        exact (covers_round q).trans (ih _)
    · rw [runWithin_of_stopped hr]
      exact .refl q

theorem covers_run (q : Query) :
    (q.run e).work.Covers e.rules.length e.settings.stopOnTarget q (q.run e).query :=
  covers_runWithin q _

end Query

inductive Request
  | query (id : String) (db : Database) (target : Fact)
  | round (id : String)
  | run (id : String)
  | finish (id : String) (now : Instant)
  | prove (db : Database) (target : Fact) (now : Instant)
  | saturate (db : Database)
  | clearStats

namespace Session

/-- The session on a copy of its engine that has policies of its own. -/
def withPolicies (s : Session) (policies : PolicyTable) : Session :=
  { s with engine := { s.engine with policies } }

/-- Serves a request that is made on a copy of the engine with these policies. Nothing comes of a
request about a query that is not open. -/
def serve (s : Session) (policies : PolicyTable) : Request → Session
  | .query id db target => ((s.withPolicies policies).openQuery id db target).2
  | .round id =>
    match s.get? id with
    | some q => ((s.withPolicies policies).round id q).2
    | none => s
  | .run id =>
    match s.get? id with
    | some q => ((s.withPolicies policies).run id q).2
    | none => s
  | .finish id now =>
    match s.get? id with
    | some q => ((s.withPolicies policies).finish id q now).2
    | none => s
  | .prove db target now => (s.prove policies db target now).2
  | .saturate db => (s.saturate policies db).2
  | .clearStats => s.clearStats

end Session

/-- The queries that were opened, and where rounds found queries and left them, latest first. -/
structure Ledger where
  opened : Nat := 0
  stretches : List (Query × Query) := []

namespace Ledger

/-- By how much a counter of the queries has gone up, over all stretches. -/
def increase (counter : Query → Nat) : List (Query × Query) → Nat
  | [] => 0
  | (q, q') :: rest => counter q' - counter q + increase counter rest

/-- The rounds that queries have made. -/
def rounds (l : Ledger) : Nat := increase (·.rounds) l.stretches

/-- The facts by which databases have grown. -/
def facts (l : Ledger) : Nat := increase (·.database.size) l.stretches

def openQuery (l : Ledger) : Ledger := { l with opened := l.opened + 1 }

def walk (l : Ledger) (q q' : Query) : Ledger := { l with stretches := (q, q') :: l.stretches }

/-- Enters a request before the session serves it. -/
def enter (l : Ledger) (s : Session) (policies : PolicyTable) : Request → Ledger
  | .query _ db target => if db.check target = .ok () then l.openQuery else l
  | .round id =>
    match s.get? id with
    | some q => l.walk q (q.round (s.withPolicies policies).engine).1
    | none => l
  | .run id | .finish id _ =>
    match s.get? id with
    | some q => l.walk q (q.run (s.withPolicies policies).engine).query
    | none => l
  | .prove db target _ =>
    if db.check target = .ok () then
      l.openQuery.walk (.start db (some target))
        ((s.withPolicies policies).engine.search db (some target)).query
    else l
  | .saturate db =>
    l.walk (.start db none) ((s.withPolicies policies).engine.search db none).query
  | .clearStats => {}

end Ledger

/-- A session and the ledger that is kept beside it. -/
structure Audit where
  session : Session
  ledger : Ledger := {}

namespace Audit

def step (a : Audit) (x : PolicyTable × Request) : Audit :=
  ⟨a.session.serve x.1 x.2, a.ledger.enter a.session x.1 x.2⟩

def ofRequests (e : Engine) (xs : List (PolicyTable × Request)) : Audit :=
  xs.foldl step { session := { engine := e } }

/-- The tally of the session is what the ledger adds up to. -/
structure Balanced (e : Engine) (a : Audit) : Prop where
  rules : a.session.engine.rules = e.rules
  settings : a.session.engine.settings = e.settings
  queries : a.session.stats.queries = a.ledger.opened
  rounds : a.session.stats.rounds = a.ledger.rounds
  facts : a.session.stats.factsDerived = a.ledger.facts
  applications_le : a.session.stats.ruleApplications ≤ a.session.stats.rounds * e.rules.length
  applications_eq : e.settings.stopOnTarget = false →
    a.session.stats.ruleApplications = a.session.stats.rounds * e.rules.length
  forward : ∀ x ∈ a.ledger.stretches,
    x.1.rounds ≤ x.2.rounds ∧ x.1.database.size ≤ x.2.database.size

namespace Balanced

variable {e : Engine} {a : Audit}

theorem cleared {s : Session} (hrules : s.engine.rules = e.rules)
    (hsettings : s.engine.settings = e.settings) (hstats : s.stats = {}) :
    Balanced e { session := s } where
  rules := hrules
  settings := hsettings
  queries := by rw [hstats]
  rounds := by rw [hstats]; rfl
  facts := by rw [hstats]; rfl
  applications_le := by simp [hstats]
  applications_eq _ := by simp [hstats]
  forward := by simp

theorem congr (h : a.Balanced e) {s : Session} (hrules : s.engine.rules = a.session.engine.rules)
    (hsettings : s.engine.settings = a.session.engine.settings)
    (hstats : s.stats = a.session.stats) : Balanced e ⟨s, a.ledger⟩ where
  rules := hrules.trans h.rules
  settings := hsettings.trans h.settings
  queries := hstats ▸ h.queries
  rounds := hstats ▸ h.rounds
  facts := hstats ▸ h.facts
  applications_le := hstats ▸ h.applications_le
  applications_eq := hstats ▸ h.applications_eq
  forward := h.forward

theorem openQuery (h : a.Balanced e) :
    Balanced e ⟨a.session.charge { queries := 1 }, a.ledger.openQuery⟩ where
  rules := h.rules
  settings := h.settings
  queries := by simp [Session.charge, Ledger.openQuery, h.queries]
  rounds := h.rounds
  facts := h.facts
  applications_le := h.applications_le
  applications_eq := h.applications_eq
  forward := h.forward

theorem walk (h : a.Balanced e) {work : Stats} {q q' : Query}
    (hw : work.Covers a.session.engine.rules.length a.session.engine.settings.stopOnTarget q q') :
    Balanced e ⟨a.session.charge work, a.ledger.walk q q'⟩ := by
  rw [h.rules, h.settings] at hw
  have hrounds := hw.rounds
  have hfacts := hw.facts
  refine ⟨h.rules, h.settings, ?_, ?_, ?_, ?_, fun he => ?_, ?_⟩
  · simp [Session.charge, Ledger.walk, h.queries, hw.queries]
  · have hold := h.rounds
    simp only [Session.charge, Ledger.walk, Ledger.rounds, Ledger.increase, Stats.rounds_add]
      at hold ⊢
    omega
  · have hold := h.facts
    simp only [Session.charge, Ledger.walk, Ledger.facts, Ledger.increase, Stats.factsDerived_add]
      at hold ⊢
    omega
  · simp only [Session.charge, Stats.ruleApplications_add, Stats.rounds_add, Nat.add_mul]
    exact Nat.add_le_add h.applications_le hw.applications_le
  · simp only [Session.charge, Stats.ruleApplications_add, Stats.rounds_add, Nat.add_mul]
    rw [h.applications_eq he, hw.applications_eq he]
  · refine List.forall_mem_cons.2 ⟨⟨?_, ?_⟩, h.forward⟩
    · exact hrounds ▸ Nat.le_add_right _ _
    · exact hfacts ▸ Nat.le_add_right _ _

theorem step (h : a.Balanced e) (x : PolicyTable × Request) : (a.step x).Balanced e := by
  obtain ⟨policies, request⟩ := x
  have hcopy : Balanced e ⟨a.session.withPolicies policies, a.ledger⟩ := h.congr rfl rfl rfl
  cases request with
  | query id db target =>
    cases ht : db.check target with
    | error err =>
      simp only [Audit.step, Session.serve, Session.openQuery, Engine.query, Ledger.enter, ht,
        reduceCtorEq, if_false]
      exact h.congr rfl rfl (Stats.add_zero _)
    | ok u =>
      simp only [Audit.step, Session.serve, Session.openQuery, Engine.query, Ledger.enter, ht,
        if_true]
      exact h.openQuery.congr rfl rfl rfl
  | round id =>
    cases hq : a.session.get? id with
    | none => simpa only [Audit.step, Session.serve, Ledger.enter, hq] using h
    | some q =>
      simp only [Audit.step, Session.serve, Ledger.enter, hq]
      exact (hcopy.walk (Query.covers_round q)).congr rfl rfl rfl
  | run id =>
    cases hq : a.session.get? id with
    | none => simpa only [Audit.step, Session.serve, Ledger.enter, hq] using h
    | some q =>
      simp only [Audit.step, Session.serve, Ledger.enter, hq]
      exact (hcopy.walk (Query.covers_run q)).congr rfl rfl rfl
  | finish id now =>
    cases hq : a.session.get? id with
    | none => simpa only [Audit.step, Session.serve, Ledger.enter, hq] using h
    | some q =>
      simp only [Audit.step, Session.serve, Ledger.enter, hq]
      exact (hcopy.walk (Query.covers_run q)).congr rfl rfl rfl
  | prove db target now =>
    cases ht : db.check target with
    | error err =>
      simp only [Audit.step, Session.serve, Session.prove, Engine.prove, Engine.query,
        Ledger.enter, ht, reduceCtorEq, if_false]
      exact h.congr rfl rfl (Stats.add_zero _)
    | ok u =>
      simp only [Audit.step, Session.serve, Session.prove, Engine.prove, Engine.query,
        Ledger.enter, ht, if_true]
      have hwalk := hcopy.openQuery.walk (Query.covers_run (.start db (some target)))
      exact hwalk.congr rfl rfl (Stats.add_assoc _ _ _).symm
  | saturate db => exact (hcopy.walk (Query.covers_run (.start db none))).congr rfl rfl rfl
  | clearStats => exact cleared h.rules h.settings rfl

end Balanced

theorem balanced_ofRequests (e : Engine) (xs : List (PolicyTable × Request)) :
    (ofRequests e xs).Balanced e := by
  have hfold : ∀ a : Audit, a.Balanced e → (xs.foldl step a).Balanced e := by
    induction xs with
    | nil => exact fun _ h => h
    | cons x xs ih => exact fun _ h => ih _ (h.step x)
  exact hfold _ (.cleared rfl rfl rfl)

/-- Whatever has been asked of a session and of copies of its engine, the tally gives the queries
that were opened, the rounds that they and the saturations have made and the facts that these have
added, all since it was last cleared. No rule was applied more than once a round; without eager
stopping each was. -/
theorem stats_account_for_work (e : Engine) (xs : List (PolicyTable × Request)) :
    let stats := (ofRequests e xs).session.stats
    let ledger := (ofRequests e xs).ledger
    stats.queries = ledger.opened ∧ stats.rounds = ledger.rounds ∧
      stats.factsDerived = ledger.facts ∧
      stats.ruleApplications ≤ stats.rounds * e.rules.length ∧
      (e.settings.stopOnTarget = false →
        stats.ruleApplications = stats.rounds * e.rules.length) ∧
      ∀ x ∈ ledger.stretches,
        x.1.rounds ≤ x.2.rounds ∧ x.1.database.size ≤ x.2.database.size := by
  intro stats ledger
  have h := balanced_ofRequests e xs
  exact ⟨h.queries, h.rounds, h.facts, h.applications_le, h.applications_eq, h.forward⟩

/-- After the tally was cleared: a proof, a target outside the universe, a run and a saturation that
the limit on rounds stops, a query that is not open, and one that is opened and finished. -/
theorem stats_account_for_work_pets :
    let e : Engine :=
      { rules := .syllogistic, settings := { stopOnTarget := false, maxRounds := some 2 } }
    let now : Instant := ⟨2026, 1, 1, 0, 0, 0, 0⟩
    let requests : List Request := [.query "cats" .pets (.universal "pet" "cat"), .round "cats",
      .clearStats, .prove .pets (.particular "pet" "tame") now,
      .prove .pets (.universal "pet" "dog") now, .run "cats", .saturate .pets, .round "tame",
      .query "tame" .pets (.particular "pet" "tame"), .finish "tame" now]
    let a := ofRequests e (requests.map (PolicyTable.standard, ·))
    a.session.stats = ⟨2, 7, 35, 36⟩ ∧ a.ledger.opened = 2 ∧ a.ledger.rounds = 7 ∧
      a.ledger.facts = 36 ∧ a.session.stats.ruleApplications = a.session.stats.rounds * 5 := by
  intro e now requests a
  obtain ⟨hqueries, hrounds, hfacts, -, happlications, -⟩ :=
    stats_account_for_work e (requests.map (PolicyTable.standard, ·))
  have hstats : a.session.stats = ⟨2, 7, 35, 36⟩ := by decide +kernel
  refine ⟨hstats, hqueries.symm.trans ?_, hrounds.symm.trans ?_, hfacts.symm.trans ?_,
    happlications rfl⟩
  · exact congrArg Stats.queries hstats
  · exact congrArg Stats.rounds hstats
  · exact congrArg Stats.factsDerived hstats

end Audit

end Syllogism
