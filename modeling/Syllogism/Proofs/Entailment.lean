import Mathlib.Data.Set.Basic
import Syllogism.Proofs.Closure

/-! Entailment between categorical statements. The syllogistic catalogue derives a statement exactly
when it is true under every reading of the variables as sets that makes the given facts true. For a
statement that is not derivable, a reading that refutes it is made out of those that are. -/
namespace Syllogism

universe u

/-- Truth of a statement when each variable stands for a set. -/
def Fact.Holds {D : Type u} (I : Variable → Set D) (f : Fact) : Prop :=
  match f.quantifier with
  | .universal => I f.subject ⊆ I f.object
  | .particular => (I f.subject ∩ I f.object).Nonempty

/-- Every domain and every reading of the variables that make the facts true make `f` true. -/
def Entails (facts : List Fact) (f : Fact) : Prop :=
  ∀ (D : Type u) (I : Variable → Set D), (∀ g ∈ facts, g.Holds I) → f.Holds I

namespace Rule

/-- Whenever the premises of an instance are true, its conclusion is. -/
def Preserves {D : Type u} (I : Variable → Set D) (r : Rule) : Prop :=
  ∀ σ, (∀ p ∈ r.premises, (p.subst σ).Holds I) → (r.conclusion.subst σ).Holds I

theorem preserves_of_mem_syllogistic {D : Type u} (I : Variable → Set D) {r : Rule}
    (hr : r ∈ Catalogue.syllogistic.rules) : r.Preserves I := by
  intro σ hp
  simp only [Catalogue.syllogistic, List.mem_cons, List.not_mem_nil, or_false] at hr
  rcases hr with rfl | rfl | rfl | rfl | rfl
  · exact Set.Subset.rfl
  · have hxy : I (σ "x") ⊆ I (σ "y") := hp ⟨.universal, "x", "y"⟩ (by simp [barbara])
    have hyz : I (σ "y") ⊆ I (σ "z") := hp ⟨.universal, "y", "z"⟩ (by simp [barbara])
    exact hxy.trans hyz
  · obtain ⟨d, hx, hy⟩ : (I (σ "x") ∩ I (σ "y")).Nonempty :=
      hp ⟨.particular, "x", "y"⟩ (by simp [conversion])
    exact ⟨d, hy, hx⟩
  · obtain ⟨d, hx, -⟩ : (I (σ "x") ∩ I (σ "y")).Nonempty :=
      hp ⟨.particular, "x", "y"⟩ (by simp [someSubject])
    exact ⟨d, hx, hx⟩
  · have hyz : I (σ "y") ⊆ I (σ "z") := hp ⟨.universal, "y", "z"⟩ (by simp [darii])
    obtain ⟨d, hx, hy⟩ : (I (σ "x") ∩ I (σ "y")).Nonempty :=
      hp ⟨.particular, "x", "y"⟩ (by simp [darii])
    exact ⟨d, hx, hyz hy⟩

theorem takes_iff_of_strict {r : Rule} (h : r.policy = .strict) {table : PolicyTable}
    {σ : Placeholder → Variable} {p : Pattern} {f : Fact} :
    r.Takes table σ p f ↔ f = p.subst σ := by
  obtain ⟨q, s, o⟩ := f
  simp only [Takes, Pattern.Fits, Pattern.subst, h, PolicyTable.admits_strict, Fact.mk.injEq]
  tauto

theorem strict_of_mem_syllogistic {r : Rule} (hr : r ∈ Catalogue.syllogistic.rules) :
    r.policy = .strict := by
  have hall : ∀ r ∈ Catalogue.syllogistic.rules, r.policy = .strict := by decide
  exact hall r hr

theorem Preserves.holds_of_derive {D : Type u} {I : Variable → Set D} {r : Rule}
    (hI : r.Preserves I) (h : r.policy = .strict) {table : PolicyTable} {fs : List Fact} {f : Fact}
    (hfs : ∀ g ∈ fs, g.Holds I) (hd : r.derive table fs = some f) : f.Holds I := by
  obtain ⟨σ, htakes, rfl⟩ := exists_subst_of_derive hd
  refine hI σ fun p hp => ?_
  obtain ⟨g, hg, hpg⟩ := exists_mem_of_forall₂ htakes hp
  rw [← (takes_iff_of_strict h).1 hpg]
  exact hfs g hg

end Rule

theorem Derivable.subst {rules : List Rule} {table : PolicyTable} {db : Database} {r : Rule}
    (hr : r ∈ rules) (hv : r.validate = .ok ()) (hi : r.isAxiom = false) (hs : r.policy = .strict)
    (σ : Placeholder → Variable) (h : ∀ p ∈ r.premises, Derivable rules table db (p.subst σ)) :
    Derivable rules table db (r.conclusion.subst σ) := by
  have htakes : List.Forall₂ (r.Takes table σ) r.premises (r.premises.map (·.subst σ)) := by
    rw [List.forall₂_map_right_iff]
    exact List.forall₂_same.2 fun p _ => (Rule.takes_iff_of_strict hs).2 rfl
  refine .inferred hr (fun g hg => ?_) (Rule.derive_of_subst hv hi htakes)
  obtain ⟨p, hp, rfl⟩ := List.mem_map.1 hg
  exact h p hp

abbrev Syllogistic (table : PolicyTable) (db : Database) : Fact → Prop :=
  Derivable Catalogue.syllogistic.rules table db

namespace Syllogistic

variable {table : PolicyTable} {db : Database} {a b c d : Variable}

theorem entails {f : Fact} (h : Syllogistic table db f) : Entails.{u} db.facts f := by
  intro D I hI
  induction h with
  | given hf => exact hI _ hf
  | axiomatic hr hi _ =>
    have hnil := (Rule.isAxiom_iff _).1 hi
    exact Rule.preserves_of_mem_syllogistic I hr _ (by simp [hnil])
  | inferred hr _ hd ih =>
    exact (Rule.preserves_of_mem_syllogistic I hr).holds_of_derive
      (Rule.strict_of_mem_syllogistic hr) ih hd

def assign (a b c : Variable) : Placeholder → Variable
  | "x" => a
  | "y" => b
  | _ => c

theorem universal_self (ha : a ∈ db.vars) : Syllogistic table db (.universal a a) := by
  refine Derivable.axiomatic (r := .reflexivity) (σ := fun _ => a) (by decide) rfl ?_
  intro x _
  exact ha

theorem barbara (hab : Syllogistic table db (.universal a b))
    (hbc : Syllogistic table db (.universal b c)) : Syllogistic table db (.universal a c) := by
  refine Derivable.subst (r := .barbara) (by decide) rfl rfl rfl (assign a b c) ?_
  exact List.forall_mem_cons.2 ⟨hab, List.forall_mem_singleton.2 hbc⟩

theorem conversion (h : Syllogistic table db (.particular a b)) :
    Syllogistic table db (.particular b a) := by
  refine Derivable.subst (r := .conversion) (by decide) rfl rfl rfl (assign a b a) ?_
  exact List.forall_mem_singleton.2 h

theorem someSubject (h : Syllogistic table db (.particular a b)) :
    Syllogistic table db (.particular a a) := by
  refine Derivable.subst (r := .someSubject) (by decide) rfl rfl rfl (assign a b a) ?_
  exact List.forall_mem_singleton.2 h

theorem darii (hbc : Syllogistic table db (.universal b c))
    (hab : Syllogistic table db (.particular a b)) : Syllogistic table db (.particular a c) := by
  refine Derivable.subst (r := .darii) (by decide) rfl rfl rfl (assign a b c) ?_
  exact List.forall_mem_cons.2 ⟨hbc, List.forall_mem_singleton.2 hab⟩

theorem widen (h : Syllogistic table db (.particular a b))
    (hac : Syllogistic table db (.universal a c)) (hbd : Syllogistic table db (.universal b d)) :
    Syllogistic table db (.particular c d) := by
  have had : Syllogistic table db (.particular a d) := hbd.darii h
  exact (hac.darii had.conversion).conversion

/-- A point that is in every set and one that is in the sets that `a` is derivably part of. -/
def universalModel (table : PolicyTable) (db : Database) (a : Variable) (z : Variable) :
    Set (ULift.{u} Bool) :=
  {i | i.down = true ∨ Syllogistic table db (.universal a z)}

theorem holds_universalModel (table : PolicyTable) (db : Database) (a : Variable) :
    ∀ f ∈ db.facts, f.Holds (universalModel.{u} table db a) := by
  rintro ⟨q, x, y⟩ hf
  have hxy : Syllogistic table db ⟨q, x, y⟩ := .given hf
  cases q with
  | universal =>
    rintro i (hi | hax)
    · exact .inl hi
    · exact .inr (hax.barbara hxy)
  | particular => exact ⟨⟨true⟩, .inl rfl, .inl rfl⟩

/-- A point for each derivable particular statement, in the sets that one of its terms is derivably
part of. -/
def particularModel (table : PolicyTable) (db : Database) (z : Variable) :
    Set (ULift.{u} (Variable × Variable)) :=
  {w | Syllogistic table db (.particular w.down.1 w.down.2) ∧
    (Syllogistic table db (.universal w.down.1 z) ∨ Syllogistic table db (.universal w.down.2 z))}

theorem holds_particularModel (table : PolicyTable) (hdb : db.WellFormed) :
    ∀ f ∈ db.facts, f.Holds (particularModel.{u} table db) := by
  rintro ⟨q, x, y⟩ hf
  have hxy : Syllogistic table db ⟨q, x, y⟩ := .given hf
  obtain ⟨hx, hy⟩ := (db.check_eq_ok_iff _).1 (hdb.check _ hf)
  cases q with
  | universal =>
    rintro w ⟨hw, hsub | hobj⟩
    · exact ⟨hw, .inl (hsub.barbara hxy)⟩
    · exact ⟨hw, .inr (hobj.barbara hxy)⟩
  | particular =>
    exact ⟨⟨x, y⟩, ⟨hxy, .inl (universal_self hx)⟩, ⟨hxy, .inr (universal_self hy)⟩⟩

/-- What is entailed is derivable: a reading that makes the given facts true and makes no more true
than is derivable shows it, one for each quantifier. -/
theorem of_entails (hdb : db.WellFormed) {t : Fact} (ht : db.check t = .ok ())
    (h : Entails.{u} db.facts t) : Syllogistic table db t := by
  obtain ⟨q, a, b⟩ := t
  obtain ⟨ha, -⟩ := (db.check_eq_ok_iff _).1 ht
  cases q with
  | universal =>
    have hsub : universalModel.{u} table db a a ⊆ universalModel table db a b :=
      h _ _ (holds_universalModel table db a)
    have hmem : ⟨false⟩ ∈ universalModel.{u} table db a a := .inr (universal_self ha)
    rcases hsub hmem with hi | hab
    · cases hi
    · exact hab
  | particular =>
    obtain ⟨⟨x, y⟩, ⟨hxy, hxa⟩, ⟨-, hxb⟩⟩ :
        (particularModel.{u} table db a ∩ particularModel table db b).Nonempty :=
      h _ _ (holds_particularModel table hdb)
    -- a point in both sets stands for a derivable statement, whose terms lead to `a` and `b`
    rcases hxa with hxa | hya <;> rcases hxb with hxb | hyb
    · exact hxy.someSubject.widen hxa hxb
    · exact hxy.widen hxa hyb
    · exact hxy.conversion.widen hya hxb
    · exact hxy.conversion.someSubject.widen hya hyb

end Syllogistic

/-- With the syllogistic rules and no limit on rounds an engine proves what the given facts entail
and finds everything else unprovable. -/
theorem Engine.proved_iff_entails {e : Engine} (hr : e.rules = .syllogistic)
    (hl : e.settings.maxRounds = none) {db : Database} (hdb : db.WellFormed) {t : Fact}
    (ht : db.check t = .ok ()) (now : Instant) :
    ((∃ p, (e.prove db t now).1 = .ok (.proved p)) ↔ Entails.{u} db.facts t) ∧
      (¬ Entails.{u} db.facts t →
        ∃ rounds facts, (e.prove db t now).1 = .ok (.unprovable rounds facts)) := by
  have hderiv : Derivable e.rules.rules e.policies db t ↔ Entails.{u} db.facts t := by
    rw [hr]
    exact ⟨Syllogistic.entails, Syllogistic.of_entails hdb ht⟩
  refine ⟨⟨fun ⟨p, hp⟩ => hderiv.1 (derivable_of_proved hdb hp), fun h => ?_⟩, fun h => ?_⟩
  · exact proved_of_derivable hdb hl (hderiv.2 h) now
  · exact unprovable_of_not_derivable hdb hl ht (fun hd => h (hderiv.1 hd)) now

/-- A run shows that some pets are tame, and a reading in which one pet is no cat shows that no run
proves all pets to be cats. -/
theorem Engine.proved_iff_entails_pets :
    Entails.{0} Database.pets.facts (.particular "pet" "tame") ∧
      ∃ rounds facts, (({ rules := .syllogistic } : Engine).prove .pets (.universal "pet" "cat")
        ⟨2026, 1, 1, 0, 0, 0, 0⟩).1 = .ok (.unprovable rounds facts) := by
  have hyes := proved_iff_entails.{0} (e := { rules := .syllogistic }) rfl rfl
    Database.wellFormed_pets (t := .particular "pet" "tame") rfl ⟨2026, 1, 1, 0, 0, 0, 0⟩
  have hno := proved_iff_entails.{0} (e := { rules := .syllogistic }) rfl rfl
    Database.wellFormed_pets (t := .universal "pet" "cat") rfl ⟨2026, 1, 1, 0, 0, 0, 0⟩
  refine ⟨hyes.1.1 ⟨_, rfl⟩, hno.2 fun h => ?_⟩
  have hsub : {i : Bool | "pet" = "cat" → i = true} ⊆ {i | "cat" = "cat" → i = true} := by
    refine h Bool (fun z => {i | z = "cat" → i = true}) fun f hf => ?_
    simp only [Database.pets, List.mem_cons, List.not_mem_nil, or_false] at hf
    rcases hf with rfl | rfl
    · intro i _ hz
      exact absurd hz (by decide)
    · exact ⟨true, fun _ => rfl, fun _ => rfl⟩
  have hcat : "cat" = "cat" → false = true := hsub (show "pet" = "cat" → false = true by decide)
  exact absurd (hcat rfl) (by decide)

end Syllogism
