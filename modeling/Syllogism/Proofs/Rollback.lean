import Mathlib.Data.List.Nodup
import Mathlib.Data.List.Perm.Subperm
import Syllogism.Proofs.Application

/-! Matching a pattern makes the least extension of the bindings that there are, and cutting the
bindings back to their old length undoes it. So a search leaves bindings and choices as it found
them. -/
namespace Syllogism

namespace Bindings

def Distinct (b : Bindings) : Prop := (b.entries.map (·.1)).Nodup

/-- Whatever is bound in `b` is bound to the same in `c`. -/
def Extends (c b : Bindings) : Prop := ∀ x v, b.get? x = some v → c.get? x = some v

theorem Extends.refl (b : Bindings) : b.Extends b := fun _ _ h => h

theorem get?_eq_none_iff {b : Bindings} {x : Placeholder} :
    b.get? x = none ↔ x ∉ b.entries.map (·.1) := by
  rw [get?, List.lookup_eq_none_iff]
  constructor
  · intro h hm
    obtain ⟨e, he, rfl⟩ := List.mem_map.1 hm
    simpa using h e he
  · intro h e he
    have hne : x ≠ e.1 := fun hx => h (hx ▸ List.mem_map_of_mem he)
    simpa using hne

theorem mem_entries_of_get? {b : Bindings} {x : Placeholder} {v : Variable}
    (h : b.get? x = some v) : (x, v) ∈ b.entries := by
  obtain ⟨before, after, heq, -⟩ := List.lookup_eq_some_iff.1 h
  simp [heq]

theorem Distinct.get?_of_mem {b : Bindings} (hb : b.Distinct) {x : Placeholder} {v : Variable}
    (h : (x, v) ∈ b.entries) : b.get? x = some v := by
  cases hx : b.get? x with
  | none => exact absurd (List.mem_map_of_mem h) (get?_eq_none_iff.1 hx)
  | some w =>
    have hsame := List.inj_on_of_nodup_map hb (mem_entries_of_get? hx) h rfl
    rw [(Prod.mk.inj hsame).2]

theorem Distinct.bind {b : Bindings} (hb : b.Distinct) (x : Placeholder) (v : Variable) :
    (b.bind x v).2.Distinct := by
  cases hx : b.get? x with
  | some w => rwa [bind_of_bound hx]
  | none =>
    have hnew := get?_eq_none_iff.1 hx
    rw [bind_of_free hx, Distinct, List.map_append]
    exact List.Nodup.append hb (List.nodup_singleton x) (by simpa using hnew)

theorem Extends.length_le {b c : Bindings} (hb : b.Distinct) (h : c.Extends b) :
    b.length ≤ c.length := by
  have hsub : b.entries ⊆ c.entries := by
    rintro ⟨x, v⟩ hx
    exact mem_entries_of_get? (h x v (hb.get?_of_mem hx))
  have hnodup : b.entries.Nodup := List.Nodup.of_map _ hb
  exact (List.subperm_of_subset hnodup hsub).length_le

theorem get?_eq_some_iff_toSubst {b : Bindings} {x : Placeholder} {v : Variable} :
    b.get? x = some v ↔ b.isBound x = true ∧ b.toSubst x = v := by
  cases hx : b.get? x <;> simp [isBound, toSubst, hx]

theorem extends_iff {b c : Bindings} :
    c.Extends b ↔ (∀ x, b.isBound x = true → c.isBound x = true) ∧ b.Agrees c.toSubst := by
  constructor
  · intro h
    refine ⟨fun x hx => ?_, fun x v hx => (get?_eq_some_iff_toSubst.1 (h x v hx)).2⟩
    obtain ⟨v, hv⟩ := Option.isSome_iff_exists.1 hx
    exact (get?_eq_some_iff_toSubst.1 (h x v hv)).1
  · rintro ⟨hbound, hagrees⟩ x v hx
    exact get?_eq_some_iff_toSubst.2
      ⟨hbound x (get?_eq_some_iff_toSubst.1 hx).1, hagrees x v hx⟩

end Bindings

namespace Pattern

def Sends (p : Pattern) (b : Bindings) (f : Fact) : Prop :=
  b.get? p.subject = some f.subject ∧ b.get? p.object = some f.object

theorem sends_iff {p : Pattern} {b : Bindings} {f : Fact} :
    p.Sends b f ↔ (∀ x ∈ p.placeholders, b.isBound x = true) ∧ p.Fits b.toSubst f := by
  simp only [Sends, Bindings.get?_eq_some_iff_toSubst, placeholders, Fits, List.forall_mem_cons,
    List.not_mem_nil, false_imp_iff, implies_true, and_true]
  exact and_and_and_comm

theorem distinct_unify {b : Bindings} (hb : b.Distinct) (p : Pattern) (f : Fact) :
    (p.unify f b).2.Distinct := by
  have hs := hb.bind p.subject f.subject
  unfold unify
  split
  · next d hd =>
    rw [hd] at hs
    exact hs.bind p.object f.object
  · next d hd => rwa [hd] at hs

/-- To extend the outcome of a match is to extend what there was and to take the pattern to the
fact. -/
theorem extends_unify_iff {p : Pattern} {f : Fact} {b c : Bindings} (h : p.unify f b = (true, c))
    (d : Bindings) : d.Extends c ↔ d.Extends b ∧ p.Sends d f := by
  simp only [Bindings.extends_iff, sends_iff, agrees_of_unify h, isBound_of_unify h]
  constructor
  · rintro ⟨hbound, hagrees, hfits⟩
    exact ⟨⟨fun x hx => hbound x (.inl hx), hagrees⟩, fun x hx => hbound x (.inr hx), hfits⟩
  · rintro ⟨⟨hold, hagrees⟩, hnew, hfits⟩
    exact ⟨fun x hx => hx.elim (hold x) (hnew x), hagrees, hfits⟩

theorem unify_eq_true_iff {p : Pattern} {f : Fact} {b : Bindings} :
    (p.unify f b).1 = true ↔ ∃ σ, b.Agrees σ ∧ p.Fits σ f := by
  rcases hu : p.unify f b with ⟨ok, c⟩
  cases ok with
  | true =>
    have hc := (agrees_of_unify hu c.toSubst).1 c.agrees_toSubst
    exact ⟨fun _ => ⟨c.toSubst, hc⟩, fun _ => rfl⟩
  | false =>
    constructor
    · intro h
      cases h
    · rintro ⟨σ, hb, hfits⟩
      exact absurd hfits (not_fits_of_unify_false hu hb)

/-- Among the bindings that extend `b` and take the pattern to the fact, `c` is the least; it has
those of `b` in front. -/
structure IsLeastMatch (p : Pattern) (f : Fact) (b c : Bindings) : Prop where
  distinct : c.Distinct
  front : b.entries <+: c.entries
  sends : p.Sends c f
  least : ∀ d : Bindings, d.Extends b → p.Sends d f → d.Extends c ∧ c.length ≤ d.length

theorem isLeastMatch_of_unify {p : Pattern} {f : Fact} {b c : Bindings} (hb : b.Distinct)
    (h : p.unify f b = (true, c)) : p.IsLeastMatch f b c := by
  have hc : (p.unify f b).2 = c := by rw [h]
  have hdistinct : c.Distinct := hc ▸ distinct_unify hb p f
  refine ⟨hdistinct, hc ▸ p.prefix_unify f b, ?_, fun d hd hs => ?_⟩
  · exact ((extends_unify_iff h c).1 (.refl c)).2
  · have hext := (extends_unify_iff h d).2 ⟨hd, hs⟩
    exact ⟨hext, hext.length_le hdistinct⟩

end Pattern

/-- However many candidates a search goes through, it gives back the bindings and the choices with
which it began. -/
theorem Search.frame_extend (r : Rule) (table : PolicyTable) (candidates : List Fact)
    (ps : List Pattern) (s : Search) :
    (s.extend r table candidates ps).bindings = s.bindings ∧
      (s.extend r table candidates ps).chosen = s.chosen := by
  rw [extend_eq]
  exact ⟨rfl, rfl⟩

namespace Pattern

/-- A pattern matches a fact exactly if some substitution that agrees with the bindings fits, and
the match makes the least bindings that do. Whether it succeeds or fails, the old bindings are those
in front, in the same order, so a search that goes back to their number loses and adds nothing. -/
theorem unify_isLeast_and_undone {b : Bindings} (hb : b.Distinct) (p : Pattern) (f : Fact) :
    ((p.unify f b).1 = true ↔ ∃ σ, b.Agrees σ ∧ p.Fits σ f) ∧
    (∀ c, p.unify f b = (true, c) → p.IsLeastMatch f b c) ∧
    (p.unify f b).2.truncate b.length = b ∧
    ∀ (r : Rule) (table : PolicyTable) (candidates : List Fact) (ps : List Pattern) (s : Search),
      s.bindings = b → (s.extend r table candidates ps).bindings = b ∧
        (s.extend r table candidates ps).chosen = s.chosen := by
  refine ⟨unify_eq_true_iff, fun c hc => isLeastMatch_of_unify hb hc, p.truncate_unify f b, ?_⟩
  rintro r table candidates ps s rfl
  exact s.frame_extend r table candidates ps

def oneCat : Bindings := ⟨[("x", "cat")]⟩

/-- The first pattern binds what is missing. The second one binds its subject before its object
turns out to be something else, and cutting takes that binding back. -/
theorem unify_isLeast_and_undone_oneCat :
    oneCat.Distinct ∧
    IsLeastMatch ⟨.universal, "x", "y"⟩ (.universal "cat" "pet") oneCat
      ⟨[("x", "cat"), ("y", "pet")]⟩ ∧
    (¬ ∃ σ, oneCat.Agrees σ ∧ Fits ⟨.universal, "y", "x"⟩ σ (.universal "pet" "dog")) ∧
    (unify ⟨.universal, "y", "x"⟩ (.universal "pet" "dog") oneCat).2.length = 2 ∧
    (unify ⟨.universal, "y", "x"⟩ (.universal "pet" "dog") oneCat).2.truncate 1 = oneCat := by
  have hb : oneCat.Distinct := List.nodup_singleton _
  obtain ⟨-, hleast, -, -⟩ :=
    unify_isLeast_and_undone hb ⟨.universal, "x", "y"⟩ (.universal "cat" "pet")
  obtain ⟨hfails, -, hundone, -⟩ :=
    unify_isLeast_and_undone hb ⟨.universal, "y", "x"⟩ (.universal "pet" "dog")
  exact ⟨hb, hleast _ (by decide), fun hσ => absurd (hfails.2 hσ) (by decide), by decide, hundone⟩

end Pattern

end Syllogism
