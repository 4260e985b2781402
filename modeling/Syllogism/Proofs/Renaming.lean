import Syllogism.Proofs.Substitution

/-! Names of variables. Different variables that get different names are told apart as before, so a
search over a database with renamed variables goes the same way, round by round, and finds the same
facts renamed. -/
namespace Syllogism

variable {h : Variable → Variable}

theorem Fact.rename_injective (hh : Function.Injective h) : Function.Injective (Fact.rename h) := by
  rintro ⟨q, s, o⟩ ⟨q', s', o'⟩ heq
  simp only [rename, mk.injEq] at heq
  obtain ⟨rfl, hs, ho⟩ := heq
  rw [hh hs, hh ho]

theorem lookup_map_of_injective {α β γ δ : Type} [BEq α] [LawfulBEq α] [BEq β] [LawfulBEq β]
    {φ : α → β} (hφ : Function.Injective φ) (ψ : γ → δ) (a : α) (xs : List (α × γ)) :
    (xs.map fun x => (φ x.1, ψ x.2)).lookup (φ a) = (xs.lookup a).map ψ := by
  induction xs with
  | nil => rfl
  | cons x xs ih =>
    obtain ⟨b, c⟩ := x
    by_cases hab : a = b
    · simp [hab]
    · have hold : (a == b) = false := by simpa using hab
      have hnew : (φ a == φ b) = false := by simpa using fun heq => hab (hφ heq)
      simp [List.lookup_cons, hold, hnew, ih]

/-! ### Provenance -/

def Origin.rename (h : Variable → Variable) : Origin → Origin
  | .given => .given
  | .axiomatic rule => .axiomatic rule
  | .inferred rule premises => .inferred rule (premises.map (·.rename h))

def renameEntry (h : Variable → Variable) (x : Fact × Origin) : Fact × Origin :=
  (x.1.rename h, x.2.rename h)

namespace Provenance

def rename (h : Variable → Variable) (p : Provenance) : Provenance :=
  ⟨p.entries.map (renameEntry h)⟩

theorem get?_rename (hh : Function.Injective h) (p : Provenance) (f : Fact) :
    (p.rename h).get? (f.rename h) = (p.get? f).map (·.rename h) :=
  lookup_map_of_injective (Fact.rename_injective hh) (Origin.rename h) f p.entries

theorem contains_rename (hh : Function.Injective h) (p : Provenance) (f : Fact) :
    (p.rename h).contains (f.rename h) = p.contains f := by
  simp [contains, get?_rename hh]

theorem record_rename (hh : Function.Injective h) (p : Provenance) (f : Fact) (o : Origin) :
    ((p.rename h).record (f.rename h) (o.rename h)).2 = (p.record f o).2.rename h := by
  rw [record, record, contains_rename hh]
  split
  · rfl
  · simp [rename, renameEntry]

theorem fresh_rename (hh : Function.Injective h) (p : Provenance) (es : List (Fact × Origin)) :
    (p.rename h).fresh (es.map (renameEntry h)) = (p.fresh es).map (renameEntry h) := by
  fun_induction fresh p es with
  | case1 => rfl
  | case2 p e es hknown ih =>
    have hsame : (p.rename h).contains (renameEntry h e).1 = true := by
      rw [renameEntry, contains_rename hh, hknown]
    rw [List.map_cons, fresh, if_pos hsame, ih]
  | case3 p e es hnew ih =>
    have hsame : ¬ (p.rename h).contains (renameEntry h e).1 = true := by
      rw [renameEntry, contains_rename hh]
      exact hnew
    have hrecord : ((p.rename h).record (renameEntry h e).1 (renameEntry h e).2).2 =
        (p.record e.1 e.2).2.rename h := record_rename hh p e.1 e.2
    rw [List.map_cons, fresh, if_neg hsame, hrecord, ih, List.map_cons]

theorem reaches_rename (hh : Function.Injective h) (p : Provenance) (target : Option Fact) :
    (p.rename h).reaches (target.map (·.rename h)) = p.reaches target := by
  cases target with
  | none => rfl
  | some t => exact contains_rename hh p t

end Provenance

/-! ### Databases -/

def Error.rename (h : Variable → Variable) : Error → Error
  | .unknownVariable v => .unknownVariable (h v)
  | err => err

/-- The result with `g` applied to what was asked for, or with the variable in the error renamed. -/
def renameResult {α : Type} (h : Variable → Variable) (g : α → α) : Except Error α → Except Error α
  | .ok a => .ok (g a)
  | .error err => .error (err.rename h)

namespace Database

def rename (h : Variable → Variable) (db : Database) : Database :=
  ⟨db.vars.map h, db.facts.map (·.rename h)⟩

@[simp] theorem size_rename (db : Database) : (db.rename h).size = db.size :=
  List.length_map _

@[simp] theorem capacity_rename (db : Database) : (db.rename h).capacity = db.capacity := by
  simp [capacity, rename]

theorem push_rename (hh : Function.Injective h) (db : Database) (f : Fact) :
    (db.rename h).push (f.rename h) = (db.push f).rename h := by
  have hsame : (db.rename h).contains (f.rename h) = db.contains f := by
    rw [Bool.eq_iff_iff, contains_iff, contains_iff]
    exact List.mem_map_of_injective (Fact.rename_injective hh)
  rw [push, push, hsame]
  split
  · rfl
  · simp [rename]

theorem pushAll_rename (hh : Function.Injective h) (db : Database) (fs : List Fact) :
    (db.rename h).pushAll (fs.map (·.rename h)) = (db.pushAll fs).rename h := by
  induction fs generalizing db with
  | nil => rfl
  | cons f fs ih => rw [List.map_cons, pushAll_cons, pushAll_cons, push_rename hh, ih]

theorem merge_rename (hh : Function.Injective h) (db : Database) (fs : List Fact) :
    (db.rename h).merge (fs.map (·.rename h)) = ((db.merge fs).1, (db.merge fs).2.rename h) := by
  simp [merge, pushAll_rename hh]

theorem seed_rename (hh : Function.Injective h) (db : Database) :
    (db.rename h).seed = db.seed.rename h := by
  have hfold : ∀ (fs : List Fact) (p : Provenance),
      (fs.map (·.rename h)).foldl (fun p f => (p.record f .given).2) (p.rename h) =
        (fs.foldl (fun p f => (p.record f .given).2) p).rename h := by
    intro fs
    induction fs with
    | nil => exact fun _ => rfl
    | cons f fs ih =>
      intro p
      have hrecord : ((p.rename h).record (f.rename h) .given).2 = (p.record f .given).2.rename h :=
        Provenance.record_rename hh p f .given
      rw [List.map_cons, List.foldl_cons, hrecord, ih, List.foldl_cons]
  exact hfold db.facts .empty

theorem check_rename (hh : Function.Injective h) (db : Database) (f : Fact) :
    (db.rename h).check (f.rename h) = renameResult h id (db.check f) := by
  have hsame : (fun v => !(db.rename h).vars.contains (h v)) = fun v => !db.vars.contains v := by
    funext v
    simp [rename, List.mem_map_of_injective hh, List.contains_eq_mem]
  have hfind : (f.rename h).vars.find? (fun v => !(db.rename h).vars.contains v) =
      (f.vars.find? fun v => !db.vars.contains v).map h := by
    rw [Fact.vars_rename, List.find?_map, Function.comp_def, hsame]
  rw [check, check, hfind]
  cases f.vars.find? fun v => !db.vars.contains v with
  | none => rfl
  | some v => rfl

end Database

/-! ### Rules -/

theorem tuples_map {α β : Type} (g : α → β) (xs : List α) (n : Nat) :
    tuples (xs.map g) n = (tuples xs n).map (List.map g) := by
  induction n with
  | zero => rfl
  | succ n ih => simp [tuples, ih, List.flatMap_map, List.map_flatMap, Function.comp_def]

namespace Rule

variable {r : Rule} {table : PolicyTable}

/-- A well-formed rule derives the renamed fact from renamed premises, and nothing else. -/
theorem derive_map_rename (hv : r.validate = .ok ()) (hh : Function.Injective h) (fs : List Fact) :
    r.derive table (fs.map (·.rename h)) = (r.derive table fs).map (·.rename h) := by
  cases hd : r.derive table fs with
  | some f => exact derive_rename_of_derive hv (.refl table) hd
  | none =>
    -- whatever came of the renamed premises would come of the old ones, with the names put back
    obtain ⟨back, hback⟩ := hh.hasLeftInverse
    cases hd' : r.derive table (fs.map (·.rename h)) with
    | none => rfl
    | some f =>
      have hold := derive_rename_of_derive (h := back) hv (.refl table) hd'
      have hid : (fun f : Fact => (f.rename h).rename back) = id := by
        funext f
        exact congrArg₂ (Fact.mk f.quantifier) (hback _) (hback _)
      rw [List.map_map, Function.comp_def, hid, List.map_id, hd] at hold
      cases hold

theorem instances_map (r : Rule) (vars : List Variable) :
    r.instances (vars.map h) = (r.instances vars).map (·.rename h) := by
  unfold instances
  split
  · simp [Fact.rename, Function.comp_def]
  · simp [Fact.rename, List.flatMap_map, List.map_flatMap, Function.comp_def]

theorem consequences_database_rename (hv : r.validate = .ok ()) (hh : Function.Injective h)
    (db : Database) :
    r.consequences (db.rename h) table = (r.consequences db table).map (renameEntry h) := by
  cases hi : r.isAxiom with
  | true =>
    have hinstances : r.instances (db.rename h).vars = (r.instances db.vars).map (·.rename h) :=
      instances_map r db.vars
    simp [consequences, hi, hinstances, renameEntry, Origin.rename, Function.comp_def]
  | false =>
    have htuples : tuples (db.rename h).facts r.premises.length =
        (tuples db.facts r.premises.length).map (List.map (·.rename h)) := tuples_map _ _ _
    simp only [consequences, hi, Bool.false_eq_true, if_false, htuples, List.filterMap_map,
      List.map_filterMap]
    refine List.filterMap_congr fun fs _ => ?_
    simp [derive_map_rename hv hh, renameEntry, Origin.rename, Function.comp_def]

end Rule

/-! ### Passes, rounds and runs -/

namespace Pass

def rename (h : Variable → Variable) (p : Pass) : Pass :=
  ⟨p.database.rename h, p.provenance.rename h, p.applications, p.derived⟩

variable {table : PolicyTable}

theorem apply_rename {r : Rule} (hv : r.validate = .ok ()) (hh : Function.Injective h) (p : Pass) :
    (p.rename h).apply table r = (p.apply table r).rename h := by
  have hfresh : (p.provenance.rename h).fresh (r.consequences (p.database.rename h) table) =
      (p.provenance.fresh (r.consequences p.database table)).map (renameEntry h) := by
    rw [Rule.consequences_database_rename hv hh, Provenance.fresh_rename hh]
  have hmerge := Database.merge_rename hh p.database
    ((p.provenance.fresh (r.consequences p.database table)).map (·.1))
  have hfacts : ((p.provenance.fresh (r.consequences p.database table)).map (renameEntry h)).map
      (·.1) = ((p.provenance.fresh (r.consequences p.database table)).map (·.1)).map
        (·.rename h) := by
    simp [renameEntry, Function.comp_def]
  simp only [apply, rename, Rule.apply_eq_fresh, hfresh, hfacts, hmerge]
  simp [Provenance.rename]

theorem applyAll_rename {rules : List Rule} (hv : ∀ r ∈ rules, r.validate = .ok ())
    (hh : Function.Injective h) (eager : Bool) (target : Option Fact) (p : Pass) :
    (p.rename h).applyAll table eager (target.map (·.rename h)) rules =
      (p.applyAll table eager target rules).rename h := by
  induction rules generalizing p with
  | nil => rfl
  | cons r rules ih =>
    have hstep : (p.rename h).apply table r = (p.apply table r).rename h :=
      apply_rename (hv r (by simp)) hh p
    have hreach : ((p.apply table r).rename h).provenance.reaches (target.map (·.rename h)) =
        (p.apply table r).provenance.reaches target := Provenance.reaches_rename hh _ target
    rw [applyAll, applyAll, hstep, hreach]
    split
    · rfl
    · exact ih (fun s hs => hv s (by simp [hs])) _

end Pass

namespace Query

def rename (h : Variable → Variable) (q : Query) : Query :=
  { database := q.database.rename h
    provenance := q.provenance.rename h
    target := q.target.map (·.rename h)
    status := q.status
    rounds := q.rounds }

theorem start_rename (hh : Function.Injective h) (db : Database) (target : Option Fact) :
    start (db.rename h) (target.map (·.rename h)) = (start db target).rename h := by
  simp [start, rename, Database.seed_rename hh, Provenance.reaches_rename hh]

variable {e : Engine}

theorem pass_rename (hv : ∀ r ∈ e.rules.rules, r.validate = .ok ()) (hh : Function.Injective h)
    (q : Query) : (q.rename h).pass e = (q.pass e).rename h :=
  Pass.applyAll_rename hv hh _ q.target (.start q)

theorem statusAfter_rename (hh : Function.Injective h) (before : Nat) (target : Option Fact)
    (p : Pass) : statusAfter before (target.map (·.rename h)) (p.rename h) =
      statusAfter before target p := by
  have hreach : (p.rename h).provenance.reaches (target.map (·.rename h)) =
      p.provenance.reaches target := Provenance.reaches_rename hh _ target
  have hsize : (p.rename h).database.size = p.database.size := Database.size_rename _
  rw [statusAfter, statusAfter, hreach, hsize]

theorem round_rename (hv : ∀ r ∈ e.rules.rules, r.validate = .ok ()) (hh : Function.Injective h)
    (q : Query) : (q.rename h).round e = ((q.round e).1.rename h, (q.round e).2) := by
  by_cases hr : q.status = .running
  · have hrun : (q.rename h).status = .running := hr
    have hpass := pass_rename hv hh q
    refine Prod.ext ?_ ?_
    · rw [round_of_running hrun, round_of_running hr, hpass]
      simp only [rename, Database.size_rename, statusAfter_rename hh]
      rfl
    · rw [work_of_running hrun, work_of_running hr, hpass]
      rfl
  · have hstop : (q.rename h).status ≠ .running := hr
    rw [round_of_stopped hr, round_of_stopped hstop]

end Query

def Run.rename (h : Variable → Variable) (r : Run) : Run := ⟨r.query.rename h, r.work, r.exceeded⟩

theorem Run.result_rename (r : Run) : (r.rename h).result = r.result := rfl

/-- The one error of a run is about no variable. -/
theorem Run.map_result {α : Type} (r : Run) (g : α → α) (a : α) :
    (r.result.map fun _ => g a) = renameResult h g (r.result.map fun _ => a) := by
  cases hr : r.exceeded <;> simp [result, hr, Except.map, renameResult, Error.rename]

theorem Query.runWithin_rename {e : Engine} (hv : ∀ r ∈ e.rules.rules, r.validate = .ok ())
    (hh : Function.Injective h) (n : Nat) (q : Query) :
    (q.rename h).runWithin e n = (q.runWithin e n).rename h := by
  induction n generalizing q with
  | zero => rfl
  | succ n ih =>
    have hstatus : (q.rename h).status = q.status := rfl
    have hrounds : (q.rename h).rounds = q.rounds := rfl
    simp only [runWithin, hstatus, hrounds, round_rename hv hh, ih]
    split
    · split <;> rfl
    · rfl

theorem Engine.search_database_rename {e : Engine} (hv : ∀ r ∈ e.rules.rules, r.validate = .ok ())
    (hh : Function.Injective h) (db : Database) (target : Option Fact) :
    e.search (db.rename h) (target.map (·.rename h)) = (e.search db target).rename h := by
  have hcapacity : ((Query.start db target).rename h).database.capacity =
      (Query.start db target).database.capacity := Database.capacity_rename _
  rw [search, search, Query.start_rename hh, Query.run, Query.run, hcapacity,
    Query.runWithin_rename hv hh]

end Syllogism
