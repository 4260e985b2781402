import Mathlib.Data.List.Forall2
import Syllogism.Matching

/-! Matching and substitution. The bindings that matching makes from left to right stand for all the
substitutions that agree with them, so premises match facts exactly if some substitution takes the
one to the other. -/
namespace Syllogism

def Pattern.subst (p : Pattern) (σ : Placeholder → Variable) : Fact :=
  ⟨p.quantifier, σ p.subject, σ p.object⟩

theorem Pattern.forall_vars_subst {p : Pattern} {σ : Placeholder → Variable}
    {P : Variable → Prop} : (∀ v ∈ (p.subst σ).vars, P v) ↔ ∀ x ∈ p.placeholders, P (σ x) := by
  simp [subst, Fact.vars, placeholders]

def Pattern.Fits (p : Pattern) (σ : Placeholder → Variable) (f : Fact) : Prop :=
  σ p.subject = f.subject ∧ σ p.object = f.object

namespace Bindings

/-- The substitution takes every bound placeholder to what it is bound to. -/
def Agrees (b : Bindings) (σ : Placeholder → Variable) : Prop :=
  ∀ x v, b.get? x = some v → σ x = v

@[simp] theorem get?_empty (x : Placeholder) : empty.get? x = none := rfl

theorem agrees_empty (σ : Placeholder → Variable) : empty.Agrees σ := by
  intro x v h
  simp at h

/-- The substitution that the bindings describe; free placeholders are of no interest. -/
def toSubst (b : Bindings) (x : Placeholder) : Variable := (b.get? x).getD ""

theorem agrees_toSubst (b : Bindings) : b.Agrees b.toSubst := by
  intro x v h
  simp [toSubst, h]

theorem get?_append_singleton (b : Bindings) (p x : Placeholder) (v : Variable) :
    (⟨b.entries ++ [(p, v)]⟩ : Bindings).get? x =
      (b.get? x).or (if x = p then some v else none) := by
  by_cases h : x = p
  · simp [get?, List.lookup_append, h]
  · have hb : (x == p) = false := by simpa using h
    simp [get?, List.lookup_append, List.lookup_cons, h, hb]

theorem agrees_of_bind {b c : Bindings} {x : Placeholder} {v : Variable}
    (h : b.bind x v = (true, c)) (σ : Placeholder → Variable) :
    c.Agrees σ ↔ b.Agrees σ ∧ σ x = v := by
  cases hx : b.get? x with
  | some w =>
    rw [bind_of_bound hx] at h
    obtain ⟨hw, rfl⟩ := Prod.mk.inj h
    have hwv : w = v := by simpa using hw
    constructor
    · intro hc
      exact ⟨hc, hwv ▸ hc x w hx⟩
    · exact And.left
  | none =>
    rw [bind_of_free hx] at h
    obtain ⟨-, rfl⟩ := Prod.mk.inj h
    constructor
    · intro hc
      refine ⟨fun y w hy => hc y w ?_, hc x v ?_⟩
      · simp [get?_append_singleton, hy]
      · simp [get?_append_singleton, hx]
    · rintro ⟨hb, hv⟩ y w hy
      rw [get?_append_singleton] at hy
      cases hby : b.get? y with
      | some u =>
        have hu : u = w := by simpa [hby] using hy
        exact hu ▸ hb y u hby
      | none =>
        obtain ⟨rfl, rfl⟩ : y = x ∧ v = w := by simpa [hby] using hy
        exact hv

theorem ne_of_bind_false {b c : Bindings} {x : Placeholder} {v : Variable}
    (h : b.bind x v = (false, c)) {σ : Placeholder → Variable} (hb : b.Agrees σ) : σ x ≠ v := by
  cases hx : b.get? x with
  | some w =>
    rw [bind_of_bound hx] at h
    have hwv : w ≠ v := by simpa using (Prod.mk.inj h).1
    rw [hb x w hx]
    exact hwv
  | none =>
    rw [bind_of_free hx] at h
    cases (Prod.mk.inj h).1

theorem prefix_bind (b : Bindings) (x : Placeholder) (v : Variable) :
    b.entries <+: (b.bind x v).2.entries := by
  rcases entries_bind b x v with h | h
  · exact h ▸ List.prefix_rfl
  · exact h ▸ List.prefix_append _ _

/-- Binding makes one placeholder bound, whether it succeeds or not. -/
theorem isBound_bind (b : Bindings) (x y : Placeholder) (v : Variable) :
    (b.bind x v).2.isBound y = true ↔ b.isBound y = true ∨ y = x := by
  cases hx : b.get? x with
  | some w =>
    rw [bind_of_bound hx]
    constructor
    · exact .inl
    · rintro (h | rfl)
      · exact h
      · simp [isBound, hx]
  | none =>
    rw [bind_of_free hx]
    by_cases h : y = x <;> simp [isBound, get?_append_singleton, h]

end Bindings

namespace Pattern

theorem agrees_of_unify {p : Pattern} {f : Fact} {b c : Bindings} (h : p.unify f b = (true, c))
    (σ : Placeholder → Variable) : c.Agrees σ ↔ b.Agrees σ ∧ p.Fits σ f := by
  unfold unify at h
  split at h
  · next d hd => rw [Bindings.agrees_of_bind h, Bindings.agrees_of_bind hd, Fits, and_assoc]
  · cases (Prod.mk.inj h).1

theorem not_fits_of_unify_false {p : Pattern} {f : Fact} {b c : Bindings}
    (h : p.unify f b = (false, c)) {σ : Placeholder → Variable} (hb : b.Agrees σ) :
    ¬ p.Fits σ f := by
  rintro ⟨hs, ho⟩
  unfold unify at h
  split at h
  · next d hd => exact Bindings.ne_of_bind_false h ((Bindings.agrees_of_bind hd σ).2 ⟨hb, hs⟩) ho
  · next d hd => exact Bindings.ne_of_bind_false hd hb hs

theorem isBound_of_unify {p : Pattern} {f : Fact} {b c : Bindings} (h : p.unify f b = (true, c))
    (x : Placeholder) : c.isBound x = true ↔ b.isBound x = true ∨ x ∈ p.placeholders := by
  unfold unify at h
  split at h
  · next d hd =>
    have hc := Bindings.isBound_bind d p.object x f.object
    have hb := Bindings.isBound_bind b p.subject x f.subject
    rw [h] at hc
    rw [hd] at hb
    rw [hc, hb, mem_placeholders, or_assoc]
  · cases (Prod.mk.inj h).1

theorem prefix_unify (p : Pattern) (f : Fact) (b : Bindings) :
    b.entries <+: (p.unify f b).2.entries := by
  have hs := Bindings.prefix_bind b p.subject f.subject
  unfold unify
  split
  · next d hd =>
    rw [hd] at hs
    exact hs.trans (Bindings.prefix_bind d p.object f.object)
  · next d hd => rwa [hd] at hs

theorem truncate_unify (p : Pattern) (f : Fact) (b : Bindings) :
    (p.unify f b).2.truncate b.length = b := by
  obtain ⟨rest, h⟩ := p.prefix_unify f b
  exact Bindings.truncate_of_append h.symm

end Pattern

theorem exists_mem_of_forall₂ {α β : Type} {R : α → β → Prop} {xs : List α} {ys : List β}
    (h : List.Forall₂ R xs ys) {x : α} (hx : x ∈ xs) : ∃ y ∈ ys, R x y := by
  induction h with
  | nil => cases hx
  | @cons a b _ _ hab _ ih =>
    rcases List.mem_cons.1 hx with rfl | hx
    · exact ⟨b, by simp, hab⟩
    · obtain ⟨y, hy, hxy⟩ := ih hx
      exact ⟨y, by simp [hy], hxy⟩

namespace Rule

/-- The premise takes the fact: the policy admits its quantifier and its variables fit. -/
def Takes (r : Rule) (table : PolicyTable) (σ : Placeholder → Variable) (p : Pattern) (f : Fact) :
    Prop :=
  table.admits r.policy p.quantifier f.quantifier = true ∧ p.Fits σ f

theorem matchAll_cons_eq_some_iff {r : Rule} {table : PolicyTable} {p : Pattern} {ps : List Pattern}
    {f : Fact} {fs : List Fact} {b c : Bindings} :
    r.matchAll table (p :: ps) (f :: fs) b = some c ↔
      table.admits r.policy p.quantifier f.quantifier = true ∧
        ∃ d, p.unify f b = (true, d) ∧ r.matchAll table ps fs d = some c := by
  rw [matchAll]
  split
  · next ha =>
    rcases hu : p.unify f b with ⟨ok, d⟩
    cases ok <;> simp [ha]
  · next ha => simp [ha]

theorem length_eq_of_matchAll {r : Rule} {table : PolicyTable} {ps : List Pattern} {fs : List Fact}
    {b c : Bindings} (h : r.matchAll table ps fs b = some c) : fs.length = ps.length := by
  induction ps generalizing fs b with
  | nil => cases fs <;> simp_all [matchAll]
  | cons p ps ih =>
    cases fs with
    | nil => simp [matchAll] at h
    | cons f fs =>
      obtain ⟨-, d, -, hd⟩ := matchAll_cons_eq_some_iff.1 h
      simp [ih hd]

theorem agrees_of_matchAll {r : Rule} {table : PolicyTable} {ps : List Pattern} {fs : List Fact}
    {b c : Bindings} (h : r.matchAll table ps fs b = some c) (σ : Placeholder → Variable) :
    c.Agrees σ ↔ b.Agrees σ ∧ List.Forall₂ (r.Takes table σ) ps fs := by
  induction ps generalizing fs b with
  | nil =>
    cases fs with
    | nil =>
      obtain rfl : b = c := by simpa [matchAll] using h
      simp
    | cons f fs => simp [matchAll] at h
  | cons p ps ih =>
    cases fs with
    | nil => simp [matchAll] at h
    | cons f fs =>
      obtain ⟨ha, d, hu, hd⟩ := matchAll_cons_eq_some_iff.1 h
      rw [ih hd, Pattern.agrees_of_unify hu, List.forall₂_cons, Takes]
      simp only [ha, true_and, and_assoc]

theorem exists_matchAll {r : Rule} {table : PolicyTable} {ps : List Pattern} {fs : List Fact}
    {b : Bindings} {σ : Placeholder → Variable} (hb : b.Agrees σ)
    (h : List.Forall₂ (r.Takes table σ) ps fs) : ∃ c, r.matchAll table ps fs b = some c := by
  induction h generalizing b with
  | nil => exact ⟨b, by simp [matchAll]⟩
  | @cons p f ps fs ht _ ih =>
    rcases hu : p.unify f b with ⟨ok, d⟩
    cases ok with
    | false => exact absurd ht.2 (Pattern.not_fits_of_unify_false hu hb)
    | true =>
      obtain ⟨c, hc⟩ := ih ((Pattern.agrees_of_unify hu σ).2 ⟨hb, ht.2⟩)
      exact ⟨c, matchAll_cons_eq_some_iff.2 ⟨ht.1, d, hu, hc⟩⟩

theorem isBound_of_matchAll {r : Rule} {table : PolicyTable} {ps : List Pattern} {fs : List Fact}
    {b c : Bindings} (h : r.matchAll table ps fs b = some c) (x : Placeholder) :
    c.isBound x = true ↔ b.isBound x = true ∨ x ∈ ps.flatMap Pattern.placeholders := by
  induction ps generalizing fs b with
  | nil =>
    cases fs with
    | nil =>
      obtain rfl : b = c := by simpa [matchAll] using h
      simp
    | cons f fs => simp [matchAll] at h
  | cons p ps ih =>
    cases fs with
    | nil => simp [matchAll] at h
    | cons f fs =>
      obtain ⟨-, d, hu, hd⟩ := matchAll_cons_eq_some_iff.1 h
      rw [ih hd, Pattern.isBound_of_unify hu, List.flatMap_cons, List.mem_append, or_assoc]

theorem derive_eq_some_iff {r : Rule} {table : PolicyTable} {fs : List Fact} {f : Fact} :
    r.derive table fs = some f ↔
      r.isAxiom = false ∧ ∃ b, r.matchAll table r.premises fs .empty = some b ∧
        r.conclusion.instantiate b = some f := by
  unfold derive
  cases r.isAxiom <;> simp [Option.bind_eq_some_iff]

/-- What a rule derives is an instance of its conclusion under a substitution by which the
premises take the facts. -/
theorem exists_subst_of_derive {r : Rule} {table : PolicyTable} {fs : List Fact} {f : Fact}
    (h : r.derive table fs = some f) :
    ∃ σ, List.Forall₂ (r.Takes table σ) r.premises fs ∧ f = r.conclusion.subst σ := by
  obtain ⟨-, b, hb, hf⟩ := derive_eq_some_iff.1 h
  obtain ⟨hq, hs, ho⟩ := Pattern.instantiate_eq_some_iff.1 hf
  refine ⟨b.toSubst, ((agrees_of_matchAll hb _).1 b.agrees_toSubst).2, ?_⟩
  cases f
  simp_all [Pattern.subst, Bindings.toSubst]

theorem derive_of_subst {r : Rule} {table : PolicyTable} {fs : List Fact}
    {σ : Placeholder → Variable} (hv : r.validate = .ok ()) (hi : r.isAxiom = false)
    (h : List.Forall₂ (r.Takes table σ) r.premises fs) :
    r.derive table fs = some (r.conclusion.subst σ) := by
  obtain ⟨b, hb⟩ := exists_matchAll (Bindings.agrees_empty σ) h
  have hag : b.Agrees σ := (agrees_of_matchAll hb σ).2 ⟨Bindings.agrees_empty σ, h⟩
  -- the premises bind what the conclusion mentions, and only `σ` is left as its value
  have hget : ∀ x ∈ r.conclusion.placeholders, b.get? x = some (σ x) := by
    intro x hx
    have hbound : b.isBound x = true :=
      (isBound_of_matchAll hb x).2 (.inr (mem_premisePlaceholders_of_validate hv hi hx))
    obtain ⟨v, hxv⟩ := Option.isSome_iff_exists.1 hbound
    rw [hxv, hag x v hxv]
  refine derive_eq_some_iff.2 ⟨hi, b, hb, Pattern.instantiate_eq_some_iff.2 ⟨rfl, ?_, ?_⟩⟩
  · exact hget _ (by simp [Pattern.placeholders])
  · exact hget _ (by simp [Pattern.placeholders])

theorem mem_vars_of_derive {r : Rule} {table : PolicyTable} {fs : List Fact} {f : Fact}
    (h : r.derive table fs = some f) {v : Variable} (hv : v ∈ f.vars) : ∃ g ∈ fs, v ∈ g.vars := by
  obtain ⟨-, b, hb, hf⟩ := derive_eq_some_iff.1 h
  obtain ⟨-, hs, ho⟩ := Pattern.instantiate_eq_some_iff.1 hf
  obtain ⟨x, hx⟩ : ∃ x, b.get? x = some v := by
    rcases Fact.mem_vars.1 hv with rfl | rfl
    · exact ⟨_, hs⟩
    · exact ⟨_, ho⟩
  have hmem : x ∈ r.premises.flatMap Pattern.placeholders := by
    have hbound : b.isBound x = true := by simp [Bindings.isBound, hx]
    simpa [Bindings.isBound] using (isBound_of_matchAll hb x).1 hbound
  obtain ⟨p, hp, hxp⟩ := List.mem_flatMap.1 hmem
  have ht := ((agrees_of_matchAll hb _).1 b.agrees_toSubst).2
  have hxv : b.toSubst x = v := b.agrees_toSubst x v hx
  obtain ⟨g, hg, -, hfit⟩ := exists_mem_of_forall₂ ht hp
  refine ⟨g, hg, Fact.mem_vars.2 ?_⟩
  rcases Pattern.mem_placeholders.1 hxp with rfl | rfl
  · exact .inl (hxv ▸ hfit.1)
  · exact .inr (hxv ▸ hfit.2)

theorem yieldsAxiom_iff {r : Rule} {f : Fact} :
    r.yieldsAxiom f = true ↔ r.isAxiom = true ∧ ∃ σ, f = r.conclusion.subst σ := by
  simp only [yieldsAxiom, Bool.and_eq_true, decide_eq_true_eq, and_assoc, and_congr_right_iff]
  intro _
  rcases hu : r.conclusion.unify f .empty with ⟨ok, b⟩
  constructor
  · rintro ⟨hq, rfl⟩
    obtain ⟨-, hs, ho⟩ := (Pattern.agrees_of_unify hu b.toSubst).1 b.agrees_toSubst
    refine ⟨b.toSubst, ?_⟩
    rw [Pattern.subst, hq, hs, ho]
  · rintro ⟨σ, rfl⟩
    refine ⟨rfl, ?_⟩
    cases ok with
    | true => rfl
    | false =>
      have hno := Pattern.not_fits_of_unify_false hu (Bindings.agrees_empty σ)
      exact absurd ⟨rfl, rfl⟩ hno

theorem forall₂_takes_iff {r : Rule} {table : PolicyTable} {σ : Placeholder → Variable}
    {ps : List Pattern} {fs : List Fact} :
    List.Forall₂ (r.Takes table σ) ps fs ↔ fs.length = ps.length ∧
      (∀ x ∈ ps.zip fs, table.admits r.policy x.1.quantifier x.2.quantifier = true) ∧
      ∀ x ∈ ps.zip fs, x.1.Fits σ x.2 := by
  rw [List.forall₂_iff_zip, eq_comm]
  constructor
  · rintro ⟨hlen, htakes⟩
    exact ⟨hlen, fun x hx => (htakes hx).1, fun x hx => (htakes hx).2⟩
  · rintro ⟨hlen, hadmits, hfits⟩
    exact ⟨hlen, fun hx => ⟨hadmits _ hx, hfits _ hx⟩⟩

/-- Matching from left to right finds a conclusion exactly if one substitution takes all premises to
the facts at once: there are as many facts as premises, the policy admits the quantifier of each and
the substitution takes placeholders to variables. The conclusion is then the same for all such
substitutions, and whatever bindings a successful match has made, they cover it. -/
theorem derive_eq_some_iff_exists_subst {r : Rule} (hv : r.validate = .ok ())
    (hi : r.isAxiom = false) (table : PolicyTable) (fs : List Fact) :
    (∀ f, r.derive table fs = some f ↔ fs.length = r.premises.length ∧
      (∀ x ∈ r.premises.zip fs, table.admits r.policy x.1.quantifier x.2.quantifier = true) ∧
      ∃ σ, (∀ x ∈ r.premises.zip fs, x.1.Fits σ x.2) ∧ f = r.conclusion.subst σ) ∧
    (∀ σ τ, List.Forall₂ (r.Takes table σ) r.premises fs →
      List.Forall₂ (r.Takes table τ) r.premises fs →
      r.conclusion.subst σ = r.conclusion.subst τ) ∧
    ∀ b, r.matchAll table r.premises fs .empty = some b →
      ∃ f, r.conclusion.instantiate b = some f := by
  refine ⟨fun f => ⟨fun h => ?_, ?_⟩, fun σ τ hσ hτ => ?_, fun b hb => ?_⟩
  · obtain ⟨σ, htakes, hf⟩ := exists_subst_of_derive h
    obtain ⟨hlen, hadmits, hfits⟩ := forall₂_takes_iff.1 htakes
    exact ⟨hlen, hadmits, σ, hfits, hf⟩
  · rintro ⟨hlen, hadmits, σ, hfits, rfl⟩
    exact derive_of_subst hv hi (forall₂_takes_iff.2 ⟨hlen, hadmits, hfits⟩)
  · have hsame := (derive_of_subst hv hi hσ).symm.trans (derive_of_subst hv hi hτ)
    exact Option.some.inj hsame
  · -- the bindings describe a substitution, under which the rule derives something from them
    have htakes := ((agrees_of_matchAll hb b.toSubst).1 b.agrees_toSubst).2
    obtain ⟨-, c, hc, hf⟩ := derive_eq_some_iff.1 (derive_of_subst hv hi htakes)
    obtain rfl : b = c := Option.some.inj (hb.symm.trans hc)
    exact ⟨_, hf⟩

def reciprocal : Rule where
  name := "reciprocal"
  policy := .partialFunction
  premises := [⟨.particular, "x", "y"⟩, ⟨.particular, "y", "x"⟩]
  conclusion := ⟨.particular, "x", "x"⟩

/-- A universal fact fills the first premise, and both placeholders come back in the second one. No
substitution takes them to facts that do not close the circle. -/
theorem derive_eq_some_iff_exists_subst_reciprocal :
    reciprocal.validate = .ok () ∧ reciprocal.isAxiom = false ∧
    (∃ σ, (∀ x ∈ reciprocal.premises.zip [.universal "cat" "pet", .particular "pet" "cat"],
        x.1.Fits σ x.2) ∧ Fact.particular "cat" "cat" = reciprocal.conclusion.subst σ) ∧
    ¬ ∃ σ, ∀ x ∈ reciprocal.premises.zip [.universal "cat" "pet", .particular "pet" "tame"],
      x.1.Fits σ x.2 := by
  have hv : reciprocal.validate = .ok () := by decide
  have hi : reciprocal.isAxiom = false := rfl
  obtain ⟨hcircle, -, -⟩ := derive_eq_some_iff_exists_subst hv hi .standard
    [.universal "cat" "pet", .particular "pet" "cat"]
  obtain ⟨hopen, -, -⟩ := derive_eq_some_iff_exists_subst hv hi .standard
    [.universal "cat" "pet", .particular "pet" "tame"]
  refine ⟨hv, hi, ((hcircle _).1 (by decide)).2.2, ?_⟩
  rintro ⟨σ, hσ⟩
  have hsome := (hopen _).2 ⟨rfl, by decide, σ, hσ, rfl⟩
  have hnone : reciprocal.derive .standard
      [.universal "cat" "pet", .particular "pet" "tame"] = none := by decide
  rw [hnone] at hsome
  cases hsome

end Rule

end Syllogism
