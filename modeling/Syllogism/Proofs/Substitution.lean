import Syllogism.Proofs.Closure

/-! Substitution of variables. A derivation stays one when its variables are replaced by others,
even if some of them become the same, and when more rules, more admitted quantifiers, more variables
and more facts are at hand. So an engine proves the image of whatever it proves; and variables that
no fact mentions can be folded back into the universe, so they prove nothing new about others. -/
namespace Syllogism

def Fact.rename (h : Variable → Variable) (f : Fact) : Fact :=
  ⟨f.quantifier, h f.subject, h f.object⟩

namespace Fact

theorem vars_rename (h : Variable → Variable) (f : Fact) :
    (f.rename h).vars = f.vars.map h := rfl

theorem rename_congr {g h : Variable → Variable} {f : Fact} (hf : ∀ v ∈ f.vars, g v = h v) :
    f.rename g = f.rename h := by
  have hs : g f.subject = h f.subject := hf _ (by simp [vars])
  have ho : g f.object = h f.object := hf _ (by simp [vars])
  rw [rename, rename, hs, ho]

theorem rename_eq_self {h : Variable → Variable} {f : Fact} (hf : ∀ v ∈ f.vars, h v = v) :
    f.rename h = f := rename_congr (h := id) hf

end Fact

theorem Pattern.rename_subst (p : Pattern) (σ : Placeholder → Variable) (h : Variable → Variable) :
    (p.subst σ).rename h = p.subst (h ∘ σ) := rfl

structure PolicyTable.Within (t u : PolicyTable) : Prop where
  partialFunction : ∀ p c, t.partialFunction p c = true → u.partialFunction p c = true
  anti : ∀ p c, t.anti p c = true → u.anti p c = true

namespace PolicyTable.Within

variable {t u : PolicyTable}

theorem refl (t : PolicyTable) : t.Within t := ⟨fun _ _ h => h, fun _ _ h => h⟩

theorem admits (h : t.Within u) (policy : Policy) (p c : Quantifier)
    (ha : t.admits policy p c = true) : u.admits policy p c = true := by
  cases policy with
  | strict => exact ha
  | partialFunction => exact h.partialFunction p c ha
  | anti => exact h.anti p c ha

end PolicyTable.Within

/-- The map takes variables and facts of the one database to variables and facts of the other. -/
structure Database.MapsInto (h : Variable → Variable) (db d : Database) : Prop where
  vars : ∀ v ∈ db.vars, h v ∈ d.vars
  facts : ∀ f ∈ db.facts, f.rename h ∈ d.facts

namespace Rule

variable {t u : PolicyTable} {h : Variable → Variable}

theorem Takes.rename {r : Rule} {σ : Placeholder → Variable} {p : Pattern} {f : Fact}
    (htu : t.Within u) (hf : r.Takes t σ p f) : r.Takes u (h ∘ σ) p (f.rename h) := by
  obtain ⟨ha, hs, ho⟩ := hf
  exact ⟨htu.admits _ _ _ ha, congrArg h hs, congrArg h ho⟩

theorem derive_rename_of_derive {r : Rule} (hv : r.validate = .ok ()) (htu : t.Within u)
    {fs : List Fact} {f : Fact} (hd : r.derive t fs = some f) :
    r.derive u (fs.map (·.rename h)) = some (f.rename h) := by
  have hi : r.isAxiom = false := (derive_eq_some_iff.1 hd).1
  obtain ⟨σ, htakes, rfl⟩ := exists_subst_of_derive hd
  have himage : List.Forall₂ (r.Takes u (h ∘ σ)) r.premises (fs.map (·.rename h)) := by
    rw [List.forall₂_map_right_iff]
    exact htakes.imp fun p g hpg => hpg.rename htu
  rw [derive_of_subst hv hi himage, Pattern.rename_subst]

end Rule

section

variable {rules rules' : List Rule} {t u : PolicyTable} {db d : Database}
  {h : Variable → Variable}

/-- A derivation is carried over to whatever its database is mapped into, and to more rules and a
wider table. -/
theorem Derivable.rename (hvalid : ∀ r ∈ rules, r.validate = .ok ())
    (hrules : ∀ r ∈ rules, r ∈ rules') (htu : t.Within u) (hdb : db.MapsInto h d) {f : Fact}
    (hf : Derivable rules t db f) : Derivable rules' u d (f.rename h) := by
  induction hf with
  | given hf => exact .given (hdb.facts _ hf)
  | axiomatic hr hi hσ =>
    rw [Pattern.rename_subst]
    exact .axiomatic (hrules _ hr) hi fun x hx => hdb.vars _ (hσ x hx)
  | inferred hr _ hd ih =>
    refine .inferred (hrules _ hr) ?_ (Rule.derive_rename_of_derive (hvalid _ hr) htu hd)
    intro image himage
    obtain ⟨g, hg, rfl⟩ := List.mem_map.1 himage
    exact ih g hg

end

theorem derivable_pets :
    Derivable Catalogue.syllogistic.rules .standard .pets (.particular "tame" "pet") := by
  have hdarii : Rule.darii.derive .standard Database.pets.facts =
      some (.particular "tame" "pet") := by decide
  exact .inferred (by decide) (fun _ hg => .given hg) hdarii

namespace Database

/-- Keeps the variables of the universe and takes all others to `v`. -/
def collapse (db : Database) (v w : Variable) : Variable := if w ∈ db.vars then w else v

variable {db d : Database} {v : Variable}

theorem collapse_of_mem {w : Variable} (h : w ∈ db.vars) : db.collapse v w = w := if_pos h

theorem collapse_mem (hv : v ∈ db.vars) (w : Variable) : db.collapse v w ∈ db.vars := by
  by_cases hw : w ∈ db.vars
  · rwa [collapse_of_mem hw]
  · rwa [collapse, if_neg hw]

theorem rename_collapse {f : Fact} (h : db.check f = .ok ()) : f.rename (db.collapse v) = f := by
  rw [check_eq_ok_iff_vars] at h
  exact Fact.rename_eq_self fun w hw => collapse_of_mem (h w hw)

/-- Added variables, which no fact mentions, can be folded back into the universe. -/
theorem mapsInto_collapse (hdb : db.WellFormed) (hv : v ∈ db.vars)
    (hfacts : ∀ f ∈ d.facts, f ∈ db.facts) : d.MapsInto (db.collapse v) db where
  vars w _ := collapse_mem hv w
  facts f hf := by
    have hmem : f ∈ db.facts := hfacts f hf
    rwa [rename_collapse (hdb.check f hmem)]

end Database

namespace Engine

variable {e : Engine} {db : Database}

theorem proved_iff_derivable (hdb : db.WellFormed) (hl : e.settings.maxRounds = none) (t : Fact)
    (now : Instant) : (∃ p, (e.prove db t now).1 = .ok (.proved p)) ↔
      Derivable e.rules.rules e.policies db t := by
  constructor
  · rintro ⟨p, hp⟩
    exact derivable_of_proved hdb hp
  · intro h
    exact proved_of_derivable hdb hl h now

/-- Let a map take the universe and the facts of one database into those of another. Whatever an
engine without a limit on rounds proves from the first, it proves the image of from the second. In
particular, variables that are added to the universe and that no fact mentions make no difference to
the targets that can do without them. -/
theorem proved_of_substitution (hc : e.rules.WellFormed) (hl : e.settings.maxRounds = none)
    (hdb : db.WellFormed) {d : Database} (hd : d.WellFormed) :
    (∀ h, db.MapsInto h d → ∀ t now later, (∃ p, (e.prove db t now).1 = .ok (.proved p)) →
        ∃ p, (e.prove d (t.rename h) later).1 = .ok (.proved p)) ∧
      ((∀ v ∈ db.vars, v ∈ d.vars) → (∀ f, f ∈ d.facts ↔ f ∈ db.facts) →
        ∀ t now later, db.check t = .ok () →
          ((∃ p, (e.prove d t later).1 = .ok (.proved p)) ↔
            ∃ p, (e.prove db t now).1 = .ok (.proved p))) := by
  constructor
  · intro h hmaps t now later hp
    rw [proved_iff_derivable hdb hl] at hp
    rw [proved_iff_derivable hd hl]
    exact hp.rename hc.valid (fun _ hr => hr) (.refl _) hmaps
  · intro hvars hfacts t now later ht
    rw [proved_iff_derivable hdb hl, proved_iff_derivable hd hl]
    have hsubject : t.subject ∈ db.vars := ((db.check_eq_ok_iff t).1 ht).1
    constructor
    · -- folding the added variables into the subject of the target moves nothing else
      intro hder
      have hback := hder.rename hc.valid (fun _ hr => hr) (.refl _)
        (Database.mapsInto_collapse hdb hsubject fun f hf => (hfacts f).1 hf)
      rwa [Database.rename_collapse ht] at hback
    · intro hder
      have hid : db.MapsInto id d := ⟨hvars, fun f hf => (hfacts f).2 hf⟩
      exact hder.rename hc.valid (fun _ hr => hr) (.refl _) hid

/-- When tame things are taken for pets, some pets are pets, as some tame things were. Dogs, of
which nothing is known, change nothing: some tame things are pets still, and not all pets are
cats. -/
theorem proved_of_substitution_pets :
    let e : Engine := { rules := .syllogistic }
    let now : Instant := ⟨2026, 1, 1, 0, 0, 0, 0⟩
    let wide : Database := ⟨["dog", "cat", "pet", "tame"], Database.pets.facts⟩
    (∃ p, (e.prove ⟨["pet", "cat"], [.particular "pet" "cat", .universal "cat" "pet"]⟩
        (.particular "pet" "pet") now).1 = .ok (.proved p)) ∧
      (∃ p, (e.prove wide (.particular "tame" "pet") now).1 = .ok (.proved p)) ∧
      ¬ ∃ p, (e.prove wide (.universal "pet" "cat") now).1 = .ok (.proved p) := by
  intro e now wide
  have hsmall : (⟨["pet", "cat"], [.particular "pet" "cat", .universal "cat" "pet"]⟩ :
      Database).WellFormed := (Database.wellFormed_iff_create _).2 rfl
  have hwide : wide.WellFormed := (Database.wellFormed_iff_create _).2 rfl
  have hmaps : Database.pets.MapsInto (fun v => if v = "tame" then "pet" else v)
      ⟨["pet", "cat"], [.particular "pet" "cat", .universal "cat" "pet"]⟩ :=
    ⟨by decide, by decide⟩
  have hyes : ∃ p, (e.prove .pets (.particular "tame" "pet") now).1 = .ok (.proved p) :=
    proved_of_derivable Database.wellFormed_pets rfl derivable_pets now
  have hno : ¬ ∃ p, (e.prove .pets (.universal "pet" "cat") now).1 = .ok (.proved p) := by
    have hanswer : (e.prove .pets (.universal "pet" "cat") now).1 = .ok (.unprovable 3 13) := by
      decide +kernel
    simp [hanswer]
  have himage : (Fact.particular "tame" "pet").rename (fun v => if v = "tame" then "pet" else v) =
      .particular "pet" "pet" := by decide
  have hfold := (proved_of_substitution (e := e) Catalogue.wellFormed_syllogistic rfl
    Database.wellFormed_pets hsmall).1 _ hmaps _ now now hyes
  rw [himage] at hfold
  have hsame := (proved_of_substitution (e := e) Catalogue.wellFormed_syllogistic rfl
    Database.wellFormed_pets hwide).2 (by decide) (fun _ => Iff.rfl)
  have htame := (hsame (.particular "tame" "pet") now now rfl).2 hyes
  have hcat := hsame (.universal "pet" "cat") now now rfl
  exact ⟨hfold, htame, fun h => hno (hcat.1 h)⟩

end Engine

end Syllogism
