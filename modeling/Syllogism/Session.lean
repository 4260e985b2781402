import Syllogism.Engine

/-! Sessions: one engine, the queries that are open on it and a tally of all its work. -/
namespace Syllogism

structure Session where
  engine : Engine
  stats : Stats := {}
  queries : List (String × Query) := []

namespace Session

def get? (s : Session) (id : String) : Option Query := s.queries.lookup id

/-- Stores a query in place of whatever had its name. -/
def put (s : Session) (id : String) (q : Query) : Session :=
  { s with queries := (id, q) :: s.queries.filter (·.1 ≠ id) }

def charge (s : Session) (work : Stats) : Session := { s with stats := s.stats + work }

def clearStats (s : Session) : Session := { s with stats := {} }

def openQuery (s : Session) (id : String) (db : Database) (target : Fact) :
    Except Error Query × Session :=
  match s.engine.query db target with
  | (.error e, work) => (.error e, s.charge work)
  | (.ok q, work) => (.ok q, (s.charge work).put id q)

def round (s : Session) (id : String) (q : Query) : Query × Session :=
  let (q, work) := q.round s.engine
  (q, (s.charge work).put id q)

/-- Runs an open query as far as it goes; it stays open. -/
def run (s : Session) (id : String) (q : Query) : Run × Session :=
  let r := q.run s.engine
  (r, (s.charge r.work).put id r.query)

def finish (s : Session) (id : String) (q : Query) (now : Instant) :
    Except Error Outcome × Session :=
  let (result, work) := q.finish s.engine now
  (result, { s.charge work with queries := s.queries.filter (·.1 ≠ id) })

/-- Looks for a proof under policies that may differ from those of the session. -/
def prove (s : Session) (policies : PolicyTable) (db : Database) (target : Fact) (now : Instant) :
    Except Error Outcome × Session :=
  let (result, work) := { s.engine with policies }.prove db target now
  (result, s.charge work)

def saturate (s : Session) (policies : PolicyTable) (db : Database) :
    Except Error Saturation × Session :=
  let (result, work) := { s.engine with policies }.saturate db
  (result, s.charge work)

end Session

end Syllogism
