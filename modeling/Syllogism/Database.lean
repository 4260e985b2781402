import Syllogism.Error
import Syllogism.Provenance

/-! Fact databases: a fixed universe of variables and a growing list of distinct facts over it. -/
namespace Syllogism

/-- Facts stand in the order in which they were added, and rules meet them in that order. -/
structure Database where
  vars : List Variable
  facts : List Fact := []
  deriving DecidableEq

namespace Database

/-- A database without facts. Repeated variables keep their first place. -/
def ofUniverse (vars : List Variable) : Database := { vars := vars.eraseDups }

def size (db : Database) : Nat := db.facts.length

def isEmpty (db : Database) : Bool := db.facts.isEmpty

def contains (db : Database) (f : Fact) : Bool := db.facts.contains f

theorem contains_iff (db : Database) (f : Fact) : db.contains f = true ↔ f ∈ db.facts := by
  simp [contains]

/-- Reports the first variable of `f` that lies outside the universe. -/
def check (db : Database) (f : Fact) : Except Error Unit :=
  match f.vars.find? fun v => !db.vars.contains v with
  | some v => .error (.unknownVariable v)
  | none => .ok ()

theorem check_eq_ok_iff (db : Database) (f : Fact) :
    db.check f = .ok () ↔ f.subject ∈ db.vars ∧ f.object ∈ db.vars := by
  unfold check
  by_cases hs : f.subject ∈ db.vars <;> by_cases ho : f.object ∈ db.vars <;>
    simp [Fact.vars, List.find?, hs, ho]

def push (db : Database) (f : Fact) : Database :=
  if db.contains f then db else { db with facts := db.facts ++ [f] }

/-- Adds a fact over the universe and tells whether it is new. The database that is left behind
comes along, also when the fact is refused. -/
def insert (db : Database) (f : Fact) : Except Error Bool × Database :=
  match db.check f with
  | .error e => (.error e, db)
  | .ok () => (.ok (!db.contains f), db.push f)

/-- Inserts facts one after another and stops at the first that leaves the universe. -/
def insertAll (db : Database) : List Fact → Except Error Database
  | [] => .ok db
  | f :: fs =>
    match db.insert f with
    | (.error e, _) => .error e
    | (.ok _, db) => db.insertAll fs

def create (vars : List Variable) (facts : List Fact) : Except Error Database :=
  (ofUniverse vars).insertAll facts

def pushAll (db : Database) (fs : List Fact) : Database := fs.foldl push db

/-- Adds what rules derived and counts the facts that are new. Such facts are made of variables that
are known already. -/
def merge (db : Database) (batch : List Fact) : Nat × Database :=
  let merged := db.pushAll batch
  (merged.size - db.size, merged)

def seed (db : Database) : Provenance :=
  db.facts.foldl (fun p f => (p.record f .given).2) .empty

/-- The number of facts that the universe has room for. -/
def capacity (db : Database) : Nat := 2 * db.vars.length * db.vars.length

@[simp] theorem pushAll_nil (db : Database) : db.pushAll [] = db := rfl

@[simp] theorem pushAll_cons (db : Database) (f : Fact) (fs : List Fact) :
    db.pushAll (f :: fs) = (db.push f).pushAll fs := rfl

@[simp] theorem merge_snd (db : Database) (batch : List Fact) :
    (db.merge batch).2 = db.pushAll batch := rfl

theorem mem_facts_push {db : Database} {f g : Fact} :
    g ∈ (db.push f).facts ↔ g ∈ db.facts ∨ g = f := by
  unfold push
  cases h : db.contains f with
  | true =>
    have hf := (db.contains_iff f).1 h
    constructor
    · exact .inl
    · rintro (hg | rfl)
      · exact hg
      · exact hf
  | false => simp

theorem mem_facts_pushAll {db : Database} {fs : List Fact} {g : Fact} :
    g ∈ (db.pushAll fs).facts ↔ g ∈ db.facts ∨ g ∈ fs := by
  induction fs generalizing db with
  | nil => simp
  | cons f fs ih => rw [pushAll_cons, ih, mem_facts_push, List.mem_cons, or_assoc]

@[simp] theorem vars_push (db : Database) (f : Fact) : (db.push f).vars = db.vars := by
  unfold push; split <;> rfl

@[simp] theorem vars_pushAll (db : Database) (fs : List Fact) :
    (db.pushAll fs).vars = db.vars := by
  induction fs generalizing db with
  | nil => rfl
  | cons f fs ih => simp [ih]

end Database

end Syllogism
