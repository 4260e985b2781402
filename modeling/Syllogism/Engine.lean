import Syllogism.Catalogue.Standard
import Syllogism.Proof.Verifier
import Syllogism.Settings

/-! Forward chaining. An engine applies the rules of its catalogue in order, round after round,
until the target of a query is derived or a whole round adds nothing. -/
namespace Syllogism

structure Engine where
  rules : Catalogue
  settings : Settings := {}
  policies : PolicyTable := settings.policyTable

def Engine.configured (rules : Catalogue) (settings : Settings) : Except SettingsFault Engine :=
  settings.validate.map fun _ => { rules, settings }

structure Stats where
  queries : Nat := 0
  rounds : Nat := 0
  ruleApplications : Nat := 0
  factsDerived : Nat := 0
  deriving DecidableEq

namespace Stats

instance : Add Stats where
  add a b := ⟨a.queries + b.queries, a.rounds + b.rounds,
    a.ruleApplications + b.ruleApplications, a.factsDerived + b.factsDerived⟩

instance : Zero Stats where
  zero := {}

@[simp] theorem queries_add (a b : Stats) : (a + b).queries = a.queries + b.queries := rfl

@[simp] theorem rounds_add (a b : Stats) : (a + b).rounds = a.rounds + b.rounds := rfl

@[simp] theorem ruleApplications_add (a b : Stats) :
    (a + b).ruleApplications = a.ruleApplications + b.ruleApplications := rfl

@[simp] theorem factsDerived_add (a b : Stats) :
    (a + b).factsDerived = a.factsDerived + b.factsDerived := rfl

end Stats

inductive Status
  | running
  | success
  | saturated
  deriving DecidableEq

/-- One proof attempt. Without a target it derives whatever the catalogue can. -/
structure Query where
  database : Database
  provenance : Provenance
  target : Option Fact
  status : Status := .running
  rounds : Nat := 0
  deriving DecidableEq

def Provenance.reaches (p : Provenance) : Option Fact → Bool
  | some t => p.contains t
  | none => false

/-- The part of a round that has been run so far. -/
structure Pass where
  database : Database
  provenance : Provenance
  applications : Nat := 0
  derived : Nat := 0

namespace Pass

def start (q : Query) : Pass := { database := q.database, provenance := q.provenance }

/-- Applies one rule, merges what it derives and counts both. -/
def apply (policies : PolicyTable) (p : Pass) (r : Rule) : Pass :=
  let batch := r.apply p.database p.provenance policies
  let (new, database) := p.database.merge batch.facts
  ⟨database, batch.provenance, p.applications + 1, p.derived + new⟩

/-- Applies rules in order. With `eager` the target ends the pass as soon as it is derived. -/
def applyAll (policies : PolicyTable) (eager : Bool) (target : Option Fact) (p : Pass) :
    List Rule → Pass
  | [] => p
  | r :: rs =>
    let p := p.apply policies r
    if eager && p.provenance.reaches target then p else p.applyAll policies eager target rs

end Pass

namespace Query

/-- A query over a database whose facts are all given. -/
def start (db : Database) (target : Option Fact) : Query :=
  let p := db.seed
  { database := db, provenance := p, target,
    status := if p.reaches target then .success else .running }

def statusAfter (before : Nat) (target : Option Fact) (p : Pass) : Status :=
  if p.provenance.reaches target then .success
  else if p.database.size = before then .saturated
  else .running

def pass (e : Engine) (q : Query) : Pass :=
  (Pass.start q).applyAll e.policies e.settings.stopOnTarget q.target e.rules.rules

/-- Runs one round and reports the work. A finished query is left as it is. -/
def round (e : Engine) (q : Query) : Query × Stats :=
  if q.status = .running then
    let pass := q.pass e
    ({ q with
        database := pass.database
        provenance := pass.provenance
        status := statusAfter q.database.size q.target pass
        rounds := q.rounds + 1 },
      { rounds := 1
        ruleApplications := pass.applications
        factsDerived := pass.derived })
  else (q, 0)

theorem round_of_stopped {q : Query} (h : q.status ≠ .running) (e : Engine) :
    q.round e = (q, 0) := by simp [round, h]

theorem rounds_round_of_running {q : Query} (h : q.status = .running) (e : Engine) :
    (q.round e).1.rounds = q.rounds + 1 := by simp [round, h]

end Query

/-- What comes of running a query: where it stands, the work done and whether the limit on rounds
has stopped it. -/
structure Run where
  query : Query
  work : Stats
  exceeded : Bool

namespace Query

def runWithin (e : Engine) : Nat → Query → Run
  | 0, q => ⟨q, 0, false⟩
  | n + 1, q =>
    if q.status = .running then
      if e.settings.limitReached q.rounds then ⟨q, 0, true⟩
      else
        let (q, work) := q.round e
        let r := q.runWithin e n
        ⟨r.query, work + r.work, r.exceeded⟩
    else ⟨q, 0, false⟩

/-- Runs rounds until the query succeeds, saturates or meets the limit. Every round but the last
adds a fact, so there are at most one more than the universe has room for. -/
def run (e : Engine) (q : Query) : Run := q.runWithin e (q.database.capacity + 1)

end Query

/-- The status that a run has come to, or the error that the limit on rounds makes of it. -/
def Run.result (r : Run) : Except Error Status :=
  if r.exceeded then .error (.roundLimitExceeded r.query.rounds) else .ok r.query.status

inductive Outcome
  | proved (proof : Proof)
  | unprovable (rounds facts : Nat)
  deriving DecidableEq

namespace Query

def outcome (q : Query) (now : Instant) : Outcome :=
  let proof := if q.status = .success then
    q.target.bind fun t => Proof.ofProvenance q.provenance t q.rounds now else none
  match proof with
  | some p => .proved p
  | none => .unprovable q.rounds q.database.size

def finish (e : Engine) (q : Query) (now : Instant) : Except Error Outcome × Stats :=
  let r := q.run e
  (r.result.map fun _ => r.query.outcome now, r.work)

end Query

/-- A database to which the catalogue adds nothing more. -/
structure Saturation where
  database : Database
  provenance : Provenance
  rounds : Nat

namespace Saturation

/-- The facts that came from rules, in the order of discovery. -/
def provable (s : Saturation) : List Inference := s.provenance.inferences

def proofOf (s : Saturation) (f : Fact) (now : Instant) : Option Proof :=
  Proof.ofProvenance s.provenance f s.rounds now

end Saturation

namespace Engine

def query (_ : Engine) (db : Database) (target : Fact) : Except Error Query × Stats :=
  match db.check target with
  | .error e => (.error e, 0)
  | .ok () => (.ok (.start db (some target)), { queries := 1 })

def prove (e : Engine) (db : Database) (target : Fact) (now : Instant) :
    Except Error Outcome × Stats :=
  match e.query db target with
  | (.error err, work) => (.error err, work)
  | (.ok q, work) =>
    let (result, more) := q.finish e now
    (result, work + more)

def saturate (e : Engine) (db : Database) : Except Error Saturation × Stats :=
  let r := (Query.start db none).run e
  (r.result.map fun _ => ⟨r.query.database, r.query.provenance, r.query.rounds⟩, r.work)

end Engine

end Syllogism
