import Mathlib.Data.Set.Function
import Syllogism.Proofs.Answers

/-! Names of placeholders. A rule whose placeholders are renamed, different ones differently, has
the same consequences in the same order, so a search with such rules is the search that it was. -/
namespace Syllogism

def Pattern.rename (τ : Placeholder → Placeholder) (p : Pattern) : Pattern :=
  ⟨p.quantifier, τ p.subject, τ p.object⟩

theorem Pattern.placeholders_rename (τ : Placeholder → Placeholder) (p : Pattern) :
    (p.rename τ).placeholders = p.placeholders.map τ := rfl

namespace Rule

def rename (τ : Placeholder → Placeholder) (r : Rule) : Rule :=
  { r with premises := r.premises.map (·.rename τ), conclusion := r.conclusion.rename τ }

def placeholders (r : Rule) : List Placeholder :=
  r.premisePlaceholders ++ r.conclusion.placeholders

/-- The renaming keeps the placeholders of the rule apart and leaves none of them without a name. -/
structure Separates (r : Rule) (τ : Placeholder → Placeholder) : Prop where
  injOn : Set.InjOn τ {x | x ∈ r.placeholders}
  ne_empty : ∀ x ∈ r.placeholders, τ x ≠ ""

variable {r : Rule} {τ : Placeholder → Placeholder} {table : PolicyTable}

@[simp] theorem isAxiom_rename : (r.rename τ).isAxiom = r.isAxiom := by
  simp [isAxiom, rename]

theorem premisePlaceholders_rename :
    (r.rename τ).premisePlaceholders = r.premisePlaceholders.map τ := by
  simp [premisePlaceholders, rename, List.flatMap_map, List.map_flatMap,
    Pattern.placeholders_rename]

theorem placeholders_rename : (r.rename τ).placeholders = r.placeholders.map τ := by
  rw [placeholders, premisePlaceholders_rename, placeholders, List.map_append]
  rfl

theorem mem_placeholders_of_premise {p : Pattern} (hp : p ∈ r.premises) {x : Placeholder}
    (hx : x ∈ p.placeholders) : x ∈ r.placeholders :=
  List.mem_append_left _ (List.mem_flatMap.2 ⟨p, hp, hx⟩)

theorem mem_placeholders_of_conclusion {x : Placeholder} (hx : x ∈ r.conclusion.placeholders) :
    x ∈ r.placeholders := List.mem_append_right _ hx

theorem validate_rename (hv : r.validate = .ok ()) (hτ : r.Separates τ) :
    (r.rename τ).validate = .ok () := by
  obtain ⟨hname, -, hpolicy, hbound⟩ := validate_eq_ok_iff.1 hv
  refine validate_eq_ok_iff.2 ⟨hname, ?_, ?_, ?_⟩
  · intro y hy
    change y ∈ (r.rename τ).placeholders at hy
    rw [placeholders_rename] at hy
    obtain ⟨x, hx, rfl⟩ := List.mem_map.1 hy
    exact hτ.ne_empty x hx
  · rw [isAxiom_rename]
    exact hpolicy
  · rw [isAxiom_rename, premisePlaceholders_rename]
    intro hi y hy
    change y ∈ r.conclusion.placeholders.map τ at hy
    obtain ⟨x, hx, rfl⟩ := List.mem_map.1 hy
    exact List.mem_map_of_mem (hbound hi x hx)

theorem takes_congr {σ σ' : Placeholder → Variable} {ps : List Pattern} {fs : List Fact}
    (hσ : ∀ p ∈ ps, ∀ x ∈ p.placeholders, σ' x = σ x)
    (h : List.Forall₂ (r.Takes table σ) ps fs) : List.Forall₂ (r.Takes table σ') ps fs := by
  induction h with
  | nil => exact .nil
  | @cons p f ps fs hp _ ih =>
    obtain ⟨ha, hs, ho⟩ := hp
    obtain ⟨hfirst, hrest⟩ := List.forall_mem_cons.1 hσ
    have hs' : σ' p.subject = f.subject := (hfirst _ (by simp [Pattern.placeholders])).trans hs
    have ho' : σ' p.object = f.object := (hfirst _ (by simp [Pattern.placeholders])).trans ho
    exact .cons ⟨ha, hs', ho'⟩ (ih hrest)

/-- A renamed rule derives no more than the rule itself, even if placeholders become the same. -/
theorem derive_of_derive_rename (hv : r.validate = .ok ()) {fs : List Fact} {f : Fact}
    (hd : (r.rename τ).derive table fs = some f) : r.derive table fs = some f := by
  have hi : r.isAxiom = false := by
    rw [← isAxiom_rename (τ := τ)]
    exact (derive_eq_some_iff.1 hd).1
  obtain ⟨σ, htakes, rfl⟩ := exists_subst_of_derive hd
  have hcomp : List.Forall₂ (r.Takes table (σ ∘ τ)) r.premises fs := by
    rw [rename, List.forall₂_map_left_iff] at htakes
    exact htakes
  exact derive_of_subst hv hi hcomp

theorem derive_rename_of_separates (hv : r.validate = .ok ()) (hτ : r.Separates τ)
    {fs : List Fact} {f : Fact} (hd : r.derive table fs = some f) :
    (r.rename τ).derive table fs = some f := by
  have hi : (r.rename τ).isAxiom = false := by
    rw [isAxiom_rename]
    exact (derive_eq_some_iff.1 hd).1
  obtain ⟨σ, htakes, rfl⟩ := exists_subst_of_derive hd
  let back := Function.invFunOn τ {x | x ∈ r.placeholders}
  have hback : ∀ x ∈ r.placeholders, σ (back (τ x)) = σ x := fun x hx =>
    congrArg σ (hτ.injOn.leftInvOn_invFunOn hx)
  have hpremises : List.Forall₂ ((r.rename τ).Takes table (σ ∘ back)) (r.rename τ).premises fs := by
    rw [rename, List.forall₂_map_left_iff]
    exact takes_congr (fun p hp x hx => hback x (mem_placeholders_of_premise hp hx)) htakes
  have hconclusion : (r.rename τ).conclusion.subst (σ ∘ back) = r.conclusion.subst σ := by
    have hs := hback _ (mem_placeholders_of_conclusion (x := r.conclusion.subject) (by
      simp [Pattern.placeholders]))
    have ho := hback _ (mem_placeholders_of_conclusion (x := r.conclusion.object) (by
      simp [Pattern.placeholders]))
    exact congrArg₂ (Fact.mk r.conclusion.quantifier) hs ho
  rw [derive_of_subst (validate_rename hv hτ) hi hpremises, hconclusion]

theorem derive_rename (hv : r.validate = .ok ()) (hτ : r.Separates τ) (fs : List Fact) :
    (r.rename τ).derive table fs = r.derive table fs := by
  refine Option.ext fun f => ⟨fun hd => ?_, fun hd => ?_⟩
  · exact derive_of_derive_rename hv hd
  · exact derive_rename_of_separates hv hτ hd

/-- The places of an axiom that take the same variable still do, and only those. -/
theorem instances_rename (hτ : r.Separates τ) (vars : List Variable) :
    (r.rename τ).instances vars = r.instances vars := by
  have hs : r.conclusion.subject ∈ r.placeholders :=
    mem_placeholders_of_conclusion (by simp [Pattern.placeholders])
  have ho : r.conclusion.object ∈ r.placeholders :=
    mem_placeholders_of_conclusion (by simp [Pattern.placeholders])
  have hsame : (r.rename τ).conclusion.subject = (r.rename τ).conclusion.object ↔
      r.conclusion.subject = r.conclusion.object := hτ.injOn.eq_iff hs ho
  have hq : (r.rename τ).conclusion.quantifier = r.conclusion.quantifier := rfl
  simp only [instances, hsame, hq]

theorem consequences_rename (hv : r.validate = .ok ()) (hτ : r.Separates τ) (db : Database) :
    (r.rename τ).consequences db table = r.consequences db table := by
  have hname : (r.rename τ).name = r.name := rfl
  have hlength : (r.rename τ).premises.length = r.premises.length := List.length_map _
  simp only [consequences, isAxiom_rename, instances_rename hτ, derive_rename hv hτ, hname, hlength]

theorem apply_rename (hv : r.validate = .ok ()) (hτ : r.Separates τ) (db : Database)
    (p : Provenance) : (r.rename τ).apply db p table = r.apply db p table := by
  rw [apply_eq, apply_eq, consequences_rename hv hτ]

end Rule

namespace Catalogue

/-- The catalogue with the placeholders of each rule renamed in a way of its own. -/
def rename (τ : Rule → Placeholder → Placeholder) (c : Catalogue) : Catalogue :=
  { c with rules := c.rules.map fun r => r.rename (τ r) }

def Separates (c : Catalogue) (τ : Rule → Placeholder → Placeholder) : Prop :=
  ∀ r ∈ c.rules, r.Separates (τ r)

variable {c : Catalogue} {τ : Rule → Placeholder → Placeholder}

theorem wellFormed_rename (hc : c.WellFormed) (hτ : c.Separates τ) : (c.rename τ).WellFormed := by
  constructor
  · intro s hs
    obtain ⟨r, hr, rfl⟩ := List.mem_map.1 hs
    exact Rule.validate_rename (hc.valid r hr) (hτ r hr)
  · have hnames : (c.rename τ).rules.map (·.name) = c.rules.map (·.name) := by
      simp [rename, Rule.rename, Function.comp_def]
    rw [hnames]
    exact hc.distinct

end Catalogue

theorem Pass.applyAll_map {table : PolicyTable} {rules : List Rule} {g : Rule → Rule}
    (hg : ∀ r ∈ rules, ∀ db p, (g r).apply db p table = r.apply db p table) (eager : Bool)
    (target : Option Fact) (p : Pass) :
    p.applyAll table eager target (rules.map g) = p.applyAll table eager target rules := by
  induction rules generalizing p with
  | nil => rfl
  | cons r rules ih =>
    have hstep : p.apply table (g r) = p.apply table r := by
      simp only [apply, hg r (by simp)]
    have hrest := ih (fun s hs => hg s (by simp [hs])) (p.apply table r)
    rw [List.map_cons, applyAll, applyAll, hstep, hrest]

theorem Query.runWithin_congr {e e' : Engine} (hs : e'.settings = e.settings)
    (hround : ∀ q : Query, q.round e' = q.round e) (n : Nat) (q : Query) :
    q.runWithin e' n = q.runWithin e n := by
  induction n generalizing q with
  | zero => rfl
  | succ n ih => simp only [runWithin, hs, hround, ih]

namespace Engine

def rename (τ : Rule → Placeholder → Placeholder) (e : Engine) : Engine :=
  { e with rules := e.rules.rename τ }

theorem search_rename {e : Engine} {τ : Rule → Placeholder → Placeholder} (hc : e.rules.WellFormed)
    (hτ : e.rules.Separates τ) (db : Database) (target : Option Fact) :
    (e.rename τ).search db target = e.search db target := by
  have hpass : ∀ q : Query, q.pass (e.rename τ) = q.pass e := fun q =>
    Pass.applyAll_map (fun r hr => Rule.apply_rename (hc.valid r hr) (hτ r hr)) _ _ _
  have hround : ∀ q : Query, q.round (e.rename τ) = q.round e := by
    intro q
    by_cases hr : q.status = .running
    · refine Prod.ext ?_ ?_
      · rw [Query.round_of_running hr, Query.round_of_running hr, hpass]
      · rw [Query.work_of_running hr, Query.work_of_running hr, hpass]
    · rw [Query.round_of_stopped hr, Query.round_of_stopped hr]
  have hrun : ∀ n (q : Query), q.runWithin (e.rename τ) n = q.runWithin e n :=
    Query.runWithin_congr rfl hround
  exact hrun _ _

end Engine

end Syllogism
