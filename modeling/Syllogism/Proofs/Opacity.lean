import Mathlib.SetTheory.Cardinal.Arithmetic
import Syllogism.Proofs.Placeholders
import Syllogism.Proofs.Renaming

/-! Names mean nothing. An engine that is given a database, a target and rules under other names
answers as before, line by line, with the names exchanged. It is enough that the names that occur
are kept apart. -/
namespace Syllogism

variable {h : Variable → Variable}

/-! ### Reading proofs -/

@[simp] theorem Origin.ofLeaf_rename (o : Origin) :
    Justification.ofLeaf (o.rename h) = Justification.ofLeaf o := by
  cases o <;> rfl

def Inference.rename (h : Variable → Variable) (i : Inference) : Inference :=
  ⟨i.fact.rename h, i.rule, i.premises.map (·.rename h)⟩

def Line.rename (h : Variable → Variable) (l : Line) : Line := { l with fact := l.fact.rename h }

namespace Provenance

variable (hh : Function.Injective h) (p : Provenance)

include hh

theorem treeSize_rename (d : Nat) (f : Fact) :
    (p.rename h).treeSize d (f.rename h) = p.treeSize d f := by
  induction d generalizing f with
  | zero => rfl
  | succ d ih =>
    rw [treeSize, treeSize, get?_rename hh]
    rcases p.get? f with _ | _ | _ | ⟨rule, premises⟩
    · rfl
    · rfl
    · rfl
    · simp [Origin.rename, List.foldr_map, ih]

theorem traceLoop_rename (n : Nat) (stack : List Fact) :
    (p.rename h).traceLoop n (stack.map (·.rename h)) =
      (p.traceLoop n stack).map (·.rename h) := by
  induction n generalizing stack with
  | zero => rfl
  | succ n ih =>
    cases stack with
    | nil => rfl
    | cons f stack =>
      rw [List.map_cons, traceLoop, traceLoop, get?_rename hh]
      rcases p.get? f with _ | _ | _ | ⟨rule, premises⟩
      · exact ih stack
      · exact ih stack
      · exact ih stack
      · have hrest := ih (premises ++ stack)
        simp only [List.map_append] at hrest
        simp [Origin.rename, Inference.rename, hrest]

theorem trace_rename (f : Fact) :
    (p.rename h).trace (f.rename h) = (p.trace f).map (·.rename h) := by
  have hlength : (p.rename h).length = p.length := List.length_map _
  rw [trace, trace, hlength, treeSize_rename hh]
  exact traceLoop_rename hh p _ [f]

end Provenance

namespace Draft

def rename (h : Variable → Variable) (d : Draft) : Draft :=
  ⟨d.lines.map (·.rename h), d.derivedAt.map fun x => (x.1.rename h, x.2)⟩

theorem write_rename (d : Draft) (f : Fact) (j : Justification) :
    (d.rename h).write (f.rename h) j = (d.write f j).rename h := by
  simp [write, rename, Line.rename]

@[simp] theorem length_lines_rename (d : Draft) : (d.rename h).lines.length = d.lines.length :=
  List.length_map _

variable (hh : Function.Injective h) (p : Provenance)

include hh

theorem cite_rename (d : Draft) (fs : List Fact) :
    (d.rename h).cite (p.rename h) (fs.map (·.rename h)) =
      (d.cite p fs).map fun x => (x.1, x.2.rename h) := by
  induction fs generalizing d with
  | nil => rfl
  | cons f fs ih =>
    have hleaf : ((p.rename h).get? (f.rename h)).filter (·.isLeaf) =
        ((p.get? f).filter (·.isLeaf)).map (·.rename h) := by
      rw [Provenance.get?_rename hh]
      cases p.get? f with
      | none => rfl
      | some o => cases o <;> rfl
    have hline : (d.rename h).derivedAt.lookup (f.rename h) = d.derivedAt.lookup f := by
      have hlookup := lookup_map_of_injective (Fact.rename_injective hh) id f d.derivedAt
      simpa [rename] using hlookup
    rw [List.map_cons, cite, cite, hleaf, hline]
    cases (p.get? f).filter (·.isLeaf) with
    | some o => simp [write_rename, ih, Function.comp_def]
    | none =>
      cases d.derivedAt.lookup f with
      | none => rfl
      | some n => simp [ih, Function.comp_def]

theorem infer_rename (d : Draft) (i : Inference) :
    (d.rename h).infer (p.rename h) (i.rename h) = (d.infer p i).map (·.rename h) := by
  rw [infer, infer, Inference.rename, cite_rename hh]
  cases d.cite p i.premises with
  | none => rfl
  | some x => simp [rename, Line.rename]

theorem inferAll_rename (d : Draft) (is : List Inference) :
    (d.rename h).inferAll (p.rename h) (is.map (·.rename h)) =
      (d.inferAll p is).map (·.rename h) := by
  induction is generalizing d with
  | nil => rfl
  | cons i is ih =>
    rw [List.map_cons, inferAll, inferAll, infer_rename hh]
    cases d.infer p i with
    | none => rfl
    | some d => exact ih d

end Draft

def Proof.rename (h : Variable → Variable) (p : Proof) : Proof :=
  { p with target := p.target.rename h, steps := p.steps.map (·.rename h) }

theorem Proof.linesOf_rename (hh : Function.Injective h) (p : Provenance) (t : Fact) :
    linesOf (p.rename h) (t.rename h) = (linesOf p t).map (List.map (·.rename h)) := by
  rw [linesOf, linesOf, Provenance.get?_rename hh]
  rcases p.get? t with _ | _ | _ | ⟨rule, premises⟩
  · rfl
  · rfl
  · rfl
  · have hlines := Draft.inferAll_rename hh p {} (p.trace t).reverse
    rw [List.map_reverse, ← Provenance.trace_rename hh] at hlines
    have hempty : ({} : Draft).rename h = {} := rfl
    rw [hempty] at hlines
    simp [Origin.rename, hlines, Draft.rename, Function.comp_def]

/-! ### Answers -/

def Outcome.rename (h : Variable → Variable) : Outcome → Outcome
  | .proved p => .proved (p.rename h)
  | .unprovable rounds facts => .unprovable rounds facts

theorem Query.outcome_rename (hh : Function.Injective h) (q : Query) (now : Instant) :
    (q.rename h).outcome now = (q.outcome now).rename h := by
  have hproof : (if (q.rename h).status = .success then (q.rename h).target.bind fun t =>
        Proof.ofProvenance (q.rename h).provenance t (q.rename h).rounds now else none) =
      (if q.status = .success then q.target.bind fun t =>
        Proof.ofProvenance q.provenance t q.rounds now else none).map (·.rename h) := by
    have hstatus : (q.rename h).status = q.status := rfl
    rw [hstatus]
    split
    · cases ht : q.target with
      | none => simp [rename, ht]
      | some t =>
        simp [rename, ht, Proof.ofProvenance, Proof.linesOf_rename hh, Proof.rename,
          Function.comp_def]
    · rfl
  simp only [outcome, hproof]
  cases (if q.status = .success then q.target.bind fun t =>
      Proof.ofProvenance q.provenance t q.rounds now else none) with
  | none => simp [Outcome.rename, rename]
  | some p => rfl

namespace Saturation

def rename (h : Variable → Variable) (s : Saturation) : Saturation :=
  ⟨s.database.rename h, s.provenance.rename h, s.rounds⟩

theorem provable_rename (s : Saturation) : (s.rename h).provable = s.provable.map (·.rename h) := by
  simp only [provable, rename, Provenance.inferences, Provenance.rename, List.filterMap_map,
    List.map_filterMap]
  refine List.filterMap_congr fun x _ => ?_
  obtain ⟨f, o⟩ := x
  cases o <;> rfl

end Saturation

namespace Engine

variable {e : Engine}

theorem prove_database_rename (hv : ∀ r ∈ e.rules.rules, r.validate = .ok ())
    (hh : Function.Injective h) (db : Database) (t : Fact) (now : Instant) :
    e.prove (db.rename h) (t.rename h) now =
      (renameResult h (Outcome.rename h) (e.prove db t now).1, (e.prove db t now).2) := by
  cases ht : db.check t with
  | error err =>
    have hcheck : (db.rename h).check (t.rename h) = .error (err.rename h) := by
      rw [Database.check_rename hh, ht]
      rfl
    simp [prove, query, ht, hcheck, renameResult]
  | ok u =>
    have hcheck : (db.rename h).check (t.rename h) = .ok () := by
      rw [Database.check_rename hh, ht]
      rfl
    have hrun : (Query.start (db.rename h) (some (t.rename h))).run e =
        ((Query.start db (some t)).run e).rename h := search_database_rename hv hh db (some t)
    simp only [prove, query, ht, hcheck, Query.finish, hrun, Run.result_rename]
    simp only [Run.rename, Query.outcome_rename hh]
    exact congrArg (·, _) (Run.map_result _ (Outcome.rename h) _)

theorem saturate_database_rename (hv : ∀ r ∈ e.rules.rules, r.validate = .ok ())
    (hh : Function.Injective h) (db : Database) :
    e.saturate (db.rename h) =
      (renameResult h (Saturation.rename h) (e.saturate db).1, (e.saturate db).2) := by
  have hrun : e.search (db.rename h) none = (e.search db none).rename h :=
    search_database_rename hv hh db none
  rw [saturate_eq_search, saturate_eq_search, hrun, Run.result_rename]
  have hresult := Run.map_result (h := h) (e.search db none) (Saturation.rename h)
    ⟨(e.search db none).query.database, (e.search db none).query.provenance,
      (e.search db none).query.rounds⟩
  exact congrArg (·, (e.search db none).work) hresult

end Engine

/-! ### The names that occur -/

section

variable {g : Variable → Variable}

theorem Database.rename_congr {db : Database} (hdb : db.WellFormed)
    (hg : ∀ v ∈ db.vars, g v = h v) : db.rename g = db.rename h := by
  have hvars : db.vars.map g = db.vars.map h := List.map_congr_left hg
  have hfacts : db.facts.map (·.rename g) = db.facts.map (·.rename h) := by
    refine List.map_congr_left fun f hf => Fact.rename_congr fun v hv => hg v ?_
    exact (db.check_eq_ok_iff_vars f).1 (hdb.check f hf) v hv
  exact congrArg₂ Database.mk hvars hfacts

theorem Provenance.rename_congr {p : Provenance}
    (hfacts : ∀ x ∈ p.entries, x.1.rename g = x.1.rename h)
    (hpremises : ∀ x ∈ p.entries, ∀ f ∈ x.2.premises, f.rename g = f.rename h) :
    p.rename g = p.rename h := by
  refine congrArg Provenance.mk (List.map_congr_left fun x hx => ?_)
  obtain ⟨f, o⟩ := x
  refine Prod.ext (hfacts _ hx) ?_
  cases o with
  | given => rfl
  | axiomatic rule => rfl
  | inferred rule premises =>
    exact congrArg (Origin.inferred rule) (List.map_congr_left (hpremises _ hx))

theorem Proof.rename_congr {p : Proof} (htarget : p.target.rename g = p.target.rename h)
    (hsteps : ∀ l ∈ p.steps, l.fact.rename g = l.fact.rename h) : p.rename g = p.rename h := by
  have hlines : p.steps.map (·.rename g) = p.steps.map (·.rename h) :=
    List.map_congr_left fun l hl => congrArg (fun f => { l with fact := f }) (hsteps l hl)
  rw [rename, rename, htarget, hlines]

theorem Follow.contains {p : Provenance} {earlier lines : List Line} (hf : Follow p earlier lines) :
    ∀ l ∈ lines, p.contains l.fact = true := by
  induction lines generalizing earlier with
  | nil => simp
  | cons l lines ih =>
    obtain ⟨⟨-, hl⟩, hrest⟩ := hf
    refine List.forall_mem_cons.2 ⟨?_, ih hrest⟩
    split at hl
    · simp [Provenance.contains, hl]
    · simp [Provenance.contains, hl]
    · obtain ⟨fs, hl, -⟩ := hl
      simp [Provenance.contains, hl]

namespace Grown

variable {rules : List Rule} {table : PolicyTable} {seed db : Database} {p : Provenance}

theorem premises_mem (hp : Grown rules table seed db p) :
    ∀ x ∈ p.entries, ∀ f ∈ x.2.premises, f ∈ db.facts := by
  obtain ⟨es, hes, hsup⟩ := hp.entries
  intro x hx f hf
  rw [hes] at hx
  rcases List.mem_append.1 hx with hgiven | hnew
  · obtain ⟨g, -, rfl⟩ := List.mem_map.1 hgiven
    simp [Origin.premises] at hf
  · obtain ⟨before, behind, rfl⟩ := List.append_of_mem hnew
    obtain ⟨-, -, hx, -⟩ := supported_append.1 hsup
    rw [hp.facts, Provenance.facts_of_entries hes]
    obtain ⟨k, o⟩ := x
    cases o with
    | given => exact hx.elim
    | axiomatic rule => simp [Origin.premises] at hf
    | inferred rule premises =>
      obtain ⟨r, -, -, -, hknown⟩ := hx
      have hmem : f ∈ seed.facts ++ before.map (·.1) := hknown f hf
      rw [List.map_append, ← List.append_assoc]
      exact List.mem_append_left _ hmem

theorem rename_fact_congr (hp : Grown rules table seed db p) (hs : seed.WellFormed)
    (hg : ∀ v ∈ seed.vars, g v = h v) {f : Fact} (hf : f ∈ db.facts) :
    f.rename g = f.rename h := by
  have hcheck := (hp.wellFormed hs).check f hf
  rw [Database.check_congr hp.vars, Database.check_eq_ok_iff_vars] at hcheck
  exact Fact.rename_congr fun v hv => hg v (hcheck v hv)

theorem rename_congr (hp : Grown rules table seed db p) (hs : seed.WellFormed)
    (hg : ∀ v ∈ seed.vars, g v = h v) : db.rename g = db.rename h ∧ p.rename g = p.rename h := by
  constructor
  · exact Database.rename_congr (hp.wellFormed hs) (hp.vars ▸ hg)
  · refine Provenance.rename_congr (fun x hx => ?_) fun x hx f hf => ?_
    · have hmem : x.1 ∈ db.facts := hp.facts ▸ List.mem_map_of_mem hx
      exact hp.rename_fact_congr hs hg hmem
    · exact hp.rename_fact_congr hs hg (hp.premises_mem x hx f hf)

end Grown

theorem Database.exists_of_check_error {db : Database} {f : Fact} {err : Error}
    (hf : db.check f = .error err) : ∃ v ∈ f.vars, err = .unknownVariable v := by
  unfold check at hf
  split at hf
  · next v hv =>
    cases hf
    exact ⟨v, List.mem_of_find?_eq_some hv, rfl⟩
  · cases hf

namespace Engine

variable {e : Engine} {db : Database}

theorem rename_error_congr {t : Fact} {now : Instant} {err : Error}
    (hres : (e.prove db t now).1 = .error err) (hg : ∀ v ∈ t.vars, g v = h v) :
    err.rename g = err.rename h := by
  cases ht : db.check t with
  | error fault =>
    rw [prove_of_not_check e ht] at hres
    obtain ⟨v, hv, rfl⟩ := Database.exists_of_check_error ht
    obtain rfl := Except.error.inj hres
    exact congrArg Error.unknownVariable (hg v hv)
  | ok u =>
    rw [prove_of_check e ht, Run.result] at hres
    split at hres
    · obtain rfl := Except.error.inj hres
      rfl
    · cases hres

theorem rename_proof_congr (hdb : db.WellFormed) {t : Fact} {now : Instant} {p : Proof}
    (hres : (e.prove db t now).1 = .ok (.proved p)) (hg : ∀ v ∈ db.vars, g v = h v) :
    p.rename g = p.rename h := by
  have hgrown := (coherent_search (e := e) hdb (some t)).grown
  have hsame : ∀ f ∈ (e.search db (some t)).query.database.facts, f.rename g = f.rename h :=
    fun f hf => hgrown.rename_fact_congr hdb hg hf
  obtain ⟨hmem, lines, hlines, rfl⟩ := lines_of_proved hdb hres
  obtain ⟨found, hfound, hfollow, -⟩ := hgrown.exists_linesOf hdb hmem
  obtain rfl : found = lines := Option.some.inj (hfound.symm.trans hlines)
  refine Proof.rename_congr (hsame t hmem) fun l hl => ?_
  exact hsame l.fact ((hgrown.contains_iff _).1 (hfollow.contains l hl))

theorem renameResult_prove_congr (hdb : db.WellFormed) {t : Fact}
    (hg : ∀ v, v ∈ db.vars ∨ v ∈ t.vars → g v = h v) (now : Instant) :
    renameResult g (Outcome.rename g) (e.prove db t now).1 =
      renameResult h (Outcome.rename h) (e.prove db t now).1 := by
  cases hres : (e.prove db t now).1 with
  | error err =>
    exact congrArg Except.error (rename_error_congr hres fun v hv => hg v (.inr hv))
  | ok outcome =>
    cases outcome with
    | unprovable rounds facts => rfl
    | proved p =>
      have hproof := rename_proof_congr hdb hres fun v hv => hg v (.inl hv)
      exact congrArg (fun p => Except.ok (Outcome.proved p)) hproof

theorem renameResult_saturate_congr (hdb : db.WellFormed) (hg : ∀ v ∈ db.vars, g v = h v) :
    renameResult g (Saturation.rename g) (e.saturate db).1 =
      renameResult h (Saturation.rename h) (e.saturate db).1 := by
  have hgrown := (coherent_search (e := e) hdb none).grown
  obtain ⟨hdatabase, hprovenance⟩ := hgrown.rename_congr hdb hg
  rw [saturate_eq_search, ← Run.map_result, ← Run.map_result]
  simp only [Saturation.rename, hdatabase, hprovenance]

end Engine

end

/-- Names that are kept apart can be changed so by a map that keeps all names apart. -/
theorem exists_injective_of_injOn {ρ : Variable → Variable} {s : Set Variable} (hs : s.Finite)
    (hρ : Set.InjOn ρ s) :
    ∃ h : Variable → Variable, Function.Injective h ∧ ∀ v ∈ s, ρ v = h v := by
  have hlt : Cardinal.mk s < Cardinal.mk Variable :=
    (Cardinal.lt_aleph0_iff_set_finite.2 hs).trans_le (Cardinal.aleph0_le_mk _)
  obtain ⟨h, hh⟩ := Cardinal.extend_function_of_lt ⟨_, hρ.injective⟩ hlt ⟨Equiv.refl Variable⟩
  exact ⟨h, h.injective, fun v hv => (hh ⟨v, hv⟩).symm⟩

theorem Database.wellFormed_rename (hh : Function.Injective h) {db : Database}
    (hdb : db.WellFormed) : (db.rename h).WellFormed where
  nodup_vars := hdb.nodup_vars.map hh
  nodup_facts := hdb.nodup_facts.map (Fact.rename_injective hh)
  check f hf := by
    obtain ⟨f, hmem, rfl⟩ := List.mem_map.1 hf
    rw [check_rename hh, hdb.check f hmem]
    rfl

namespace Engine

variable {e : Engine} {db : Database}

/-- Other names for variables and placeholders, different ones for different names that occur, turn
accepted rules and databases into such again, and the answers of the engine change in the names of
variables alone: errors, rounds, counts, line numbers, justifications, the order of facts and of
origins and the work stay. -/
theorem names_are_opaque (hc : e.rules.WellFormed) (hdb : db.WellFormed) (t : Fact)
    {ρ : Variable → Variable} (hρ : Set.InjOn ρ {v | v ∈ db.vars ∨ v ∈ t.vars})
    {τ : Rule → Placeholder → Placeholder} (hτ : e.rules.Separates τ) (now : Instant) :
    (e.rename τ).rules.WellFormed ∧ (db.rename ρ).WellFormed ∧
      (e.rename τ).prove (db.rename ρ) (t.rename ρ) now =
        (renameResult ρ (Outcome.rename ρ) (e.prove db t now).1, (e.prove db t now).2) ∧
      (e.rename τ).saturate (db.rename ρ) =
        (renameResult ρ (Saturation.rename ρ) (e.saturate db).1, (e.saturate db).2) ∧
      ∀ s, (e.saturate db).1 = .ok s → ∃ s', ((e.rename τ).saturate (db.rename ρ)).1 = .ok s' ∧
        s'.provable = s.provable.map (·.rename ρ) := by
  have hfinite : {v | v ∈ db.vars ∨ v ∈ t.vars}.Finite :=
    (List.finite_toSet db.vars).union (List.finite_toSet t.vars)
  obtain ⟨h, hh, hsame⟩ := exists_injective_of_injOn hfinite hρ
  have hdatabase : db.rename ρ = db.rename h :=
    Database.rename_congr hdb fun v hv => hsame v (.inl hv)
  have htarget : t.rename ρ = t.rename h := Fact.rename_congr fun v hv => hsame v (.inr hv)
  have hprove : (e.rename τ).prove (db.rename ρ) (t.rename ρ) now =
      (renameResult ρ (Outcome.rename ρ) (e.prove db t now).1, (e.prove db t now).2) := by
    rw [prove_congr (search_rename hc hτ _ _), hdatabase, htarget,
      prove_database_rename hc.valid hh, renameResult_prove_congr hdb hsame]
  have hsaturate : (e.rename τ).saturate (db.rename ρ) =
      (renameResult ρ (Saturation.rename ρ) (e.saturate db).1, (e.saturate db).2) := by
    rw [saturate_eq_search, search_rename hc hτ, ← saturate_eq_search, hdatabase,
      saturate_database_rename hc.valid hh,
      renameResult_saturate_congr hdb fun v hv => hsame v (.inl hv)]
  refine ⟨Catalogue.wellFormed_rename hc hτ, ?_, hprove, hsaturate, fun s hs => ?_⟩
  · rw [hdatabase]
    exact Database.wellFormed_rename hh hdb
  · refine ⟨s.rename ρ, ?_, s.provable_rename⟩
    rw [hsaturate, hs]
    rfl

/-- Cats and pets change names, and all placeholders get a question mark. Whatever is found is found
under the new names, and a name that was unknown stays so. -/
theorem names_are_opaque_pets :
    let e : Engine := { rules := .syllogistic }
    let ρ : Variable → Variable := Equiv.swap "cat" "pet"
    let now : Instant := ⟨2026, 1, 1, 0, 0, 0, 0⟩
    let e' := e.rename fun _ x => "?" ++ x
    let db' : Database :=
      ⟨["pet", "cat", "tame"], [.universal "pet" "cat", .particular "tame" "pet"]⟩
    e'.rules.WellFormed ∧
      (∃ p, (e.prove .pets (.particular "tame" "pet") now).1 = .ok (.proved p) ∧
        (e'.prove db' (.particular "tame" "cat") now).1 = .ok (.proved (p.rename ρ))) ∧
      (e'.prove db' (.particular "dog" "cat") now).1 = .error (.unknownVariable "dog") ∧
      ∃ s s', (e.saturate .pets).1 = .ok s ∧ (e'.saturate db').1 = .ok s' ∧ s' = s.rename ρ ∧
        s'.provable = s.provable.map (·.rename ρ) := by
  intro e ρ now e' db'
  have hτ : e.rules.Separates fun _ x => "?" ++ x := by
    intro r _
    refine ⟨fun x _ y _ hxy => by simpa using hxy, fun x _ => by simp⟩
  have hdb' : Database.pets.rename ρ = db' := by decide
  have hρ : ∀ s : Set Variable, Set.InjOn ρ s := fun s => (Equiv.swap "cat" "pet").injective.injOn
  obtain ⟨hwf, -, hprove, hsaturate, hprovable⟩ := names_are_opaque (e := e)
    Catalogue.wellFormed_syllogistic Database.wellFormed_pets (.particular "tame" "pet") (hρ _) hτ
    now
  obtain ⟨-, -, hunknown, -, -⟩ := names_are_opaque (e := e)
    Catalogue.wellFormed_syllogistic Database.wellFormed_pets (.particular "dog" "pet") (hρ _) hτ
    now
  have htame : (Fact.particular "tame" "pet").rename ρ = .particular "tame" "cat" := by decide
  have hdog : (Fact.particular "dog" "pet").rename ρ = .particular "dog" "cat" := by decide
  rw [hdb', htame] at hprove
  rw [hdb', hdog, prove_of_not_check e rfl] at hunknown
  rw [hdb'] at hsaturate hprovable
  obtain ⟨p, hp⟩ := proved_of_derivable (e := e) Database.wellFormed_pets rfl derivable_pets now
  obtain ⟨s, hs, -⟩ := exists_saturate (e := e) Database.wellFormed_pets rfl
  obtain ⟨s', hs', hlist⟩ := hprovable s hs
  rw [hp] at hprove
  rw [hs] at hsaturate
  have hsame : s' = s.rename ρ := Except.ok.inj (hs'.symm.trans (congrArg Prod.fst hsaturate))
  exact ⟨hwf, ⟨p, hp, congrArg Prod.fst hprove⟩, congrArg Prod.fst hunknown, s, s', hs, hs', hsame,
    hlist⟩

end Engine

end Syllogism
