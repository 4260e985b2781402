import Mathlib.Data.List.Nodup
import Syllogism.Catalogue.Standard
import Syllogism.Database

/-! What construction guarantees. A catalogue to which rules were added one by one holds well-formed
rules under distinct names; a database holds distinct facts over distinct variables. -/
namespace Syllogism

/-- Every rule is well formed and no two have the same name. -/
structure Catalogue.WellFormed (c : Catalogue) : Prop where
  valid : ∀ r ∈ c.rules, r.validate = .ok ()
  distinct : (c.rules.map (·.name)).Nodup

namespace Catalogue

theorem get?_eq_none_iff {c : Catalogue} {name : String} :
    c.get? name = none ↔ name ∉ c.rules.map (·.name) := by
  simp [get?]

theorem WellFormed.get?_eq_some {c : Catalogue} (h : c.WellFormed) {r : Rule} (hr : r ∈ c.rules) :
    c.get? r.name = some r := by
  cases hg : c.get? r.name with
  | none => exact absurd (List.mem_map_of_mem hr) (get?_eq_none_iff.1 hg)
  | some s =>
    have hs : s.name = r.name := by simpa using List.find?_some hg
    rw [List.inj_on_of_nodup_map h.distinct (List.mem_of_find?_eq_some hg) hr hs]

theorem mem_rules_of_get? {c : Catalogue} {name : String} {r : Rule} (h : c.get? name = some r) :
    r ∈ c.rules := List.mem_of_find?_eq_some h

theorem WellFormed.add {c d : Catalogue} (h : c.WellFormed) {r : Rule}
    (hadd : c.add r = (.ok (), d)) : d.WellFormed := by
  obtain ⟨hr, hname, rfl⟩ := (c.add_eq_ok_iff d r).1 hadd
  have hnew := get?_eq_none_iff.1 hname
  refine ⟨?_, ?_⟩
  · simpa [or_imp, forall_and] using ⟨h.valid, hr⟩
  · simp only [List.map_append, List.map_cons, List.map_nil]
    exact h.distinct.append (List.nodup_singleton _) (by simpa using hnew)

theorem addAll_eq_ok_iff (c d : Catalogue) (rs : List Rule) :
    c.addAll rs = .ok d ↔ (∀ r ∈ rs, r.validate = .ok ()) ∧ (rs.map (·.name)).Nodup ∧
      (∀ r ∈ rs, r.name ∉ c.rules.map (·.name)) ∧ d = { c with rules := c.rules ++ rs } := by
  induction rs generalizing c with
  | nil => simp [addAll, eq_comm]
  | cons r rs ih =>
    rw [addAll]
    constructor
    · intro h
      split at h
      · cases h
      · next c' hc =>
        obtain ⟨hv, hn, rfl⟩ := (c.add_eq_ok_iff c' r).1 hc
        obtain ⟨hvs, hd, hns, rfl⟩ := (ih _).1 h
        simp only [List.map_append, List.mem_append, not_or] at hns
        refine ⟨?_, ?_, ?_, by simp⟩
        · simpa using ⟨hv, hvs⟩
        · refine List.nodup_cons.2 ⟨?_, hd⟩
          intro hm
          obtain ⟨s, hs, he⟩ := List.mem_map.1 hm
          exact (hns s hs).2 (by simp [he])
        · have hr := get?_eq_none_iff.1 hn
          simpa using ⟨by simpa using hr, fun s hs => by simpa using (hns s hs).1⟩
    · rintro ⟨hv, hd, hn, rfl⟩
      simp only [List.mem_cons, forall_eq_or_imp, List.map_cons, List.nodup_cons] at hv hd hn
      have hadd := (c.add_eq_ok_iff { c with rules := c.rules ++ [r] } r).2
        ⟨hv.1, get?_eq_none_iff.2 hn.1, rfl⟩
      simp only [hadd]
      refine (ih _).2 ⟨hv.2, hd.2, ?_, by simp⟩
      intro s hs
      have hne : s.name ≠ r.name := fun he => hd.1 (he ▸ List.mem_map_of_mem hs)
      simpa [hne] using hn.2 s hs

theorem wellFormed_iff_addAll (c : Catalogue) : c.WellFormed ↔
    ({ name := c.name, description := c.description } : Catalogue).addAll c.rules = .ok c := by
  rw [addAll_eq_ok_iff]
  constructor
  · rintro ⟨hv, hd⟩
    exact ⟨hv, hd, by simp, by simp⟩
  · rintro ⟨hv, hd, -, -⟩
    exact ⟨hv, hd⟩

theorem wellFormed_syllogistic : syllogistic.WellFormed := (wellFormed_iff_addAll _).2 rfl

end Catalogue

theorem nodup_eraseDups {α : Type} [BEq α] [LawfulBEq α] (xs : List α) : xs.eraseDups.Nodup := by
  induction hn : xs.length using Nat.strongRecOn generalizing xs with
  | ind n ih =>
    cases xs with
    | nil => simp
    | cons x xs =>
      rw [List.eraseDups_cons, List.nodup_cons]
      have hlt : (xs.filter fun y => !y == x).length < n := by
        have hle := List.length_filter_le (fun y => !y == x) xs
        simp only [List.length_cons] at hn
        omega
      exact ⟨by simp [List.mem_eraseDups], ih _ hlt _ rfl⟩

/-- Variables and facts are listed once, and the facts are about the variables. -/
structure Database.WellFormed (db : Database) : Prop where
  nodup_vars : db.vars.Nodup
  nodup_facts : db.facts.Nodup
  check : ∀ f ∈ db.facts, db.check f = .ok ()

namespace Database

theorem eraseDups_of_nodup {vars : List Variable} (h : vars.Nodup) : vars.eraseDups = vars := by
  induction vars with
  | nil => rfl
  | cons v vs ih =>
    obtain ⟨hv, hvs⟩ := List.nodup_cons.1 h
    have hf : vs.filter (fun w => !w == v) = vs := by
      refine List.filter_eq_self.2 fun w hw => ?_
      have hne : w ≠ v := fun he => hv (he ▸ hw)
      simpa using hne
    rw [List.eraseDups_cons, hf, ih hvs]

theorem check_eq_ok_iff_vars (db : Database) (f : Fact) :
    db.check f = .ok () ↔ ∀ v ∈ f.vars, v ∈ db.vars := by
  simp [check_eq_ok_iff, Fact.vars]

theorem check_congr {db d : Database} (h : d.vars = db.vars) (f : Fact) :
    d.check f = db.check f := by
  simp [check, h]

theorem facts_push_of_not_mem {db : Database} {f : Fact} (h : f ∉ db.facts) :
    (db.push f).facts = db.facts ++ [f] := by
  simp [push, contains, h]

theorem nodup_facts_push {db : Database} (h : db.facts.Nodup) (f : Fact) :
    (db.push f).facts.Nodup := by
  by_cases hf : f ∈ db.facts
  · simpa [push, contains, hf] using h
  · rw [facts_push_of_not_mem hf]
    exact h.append (by simp) (by simpa using hf)

theorem nodup_facts_pushAll {db : Database} (h : db.facts.Nodup) (fs : List Fact) :
    (db.pushAll fs).facts.Nodup := by
  induction fs generalizing db with
  | nil => exact h
  | cons f fs ih => exact ih (nodup_facts_push h f)

theorem facts_pushAll_of_nodup {db : Database} {fs : List Fact} (h : (db.facts ++ fs).Nodup) :
    (db.pushAll fs).facts = db.facts ++ fs := by
  induction fs generalizing db with
  | nil => simp
  | cons f fs ih =>
    have hf : f ∉ db.facts := fun hm => (List.nodup_append.1 h).2.2 f hm f (by simp) rfl
    have hp := facts_push_of_not_mem hf
    rw [pushAll_cons, ih (by rw [hp]; simpa using h), hp]
    simp

/-- Insertion goes through if every fact is over the universe; then it is a merge. -/
theorem insertAll_eq_ok_iff (db d : Database) (fs : List Fact) :
    db.insertAll fs = .ok d ↔ (∀ f ∈ fs, db.check f = .ok ()) ∧ d = db.pushAll fs := by
  induction fs generalizing db with
  | nil => simp [insertAll, eq_comm]
  | cons f fs ih =>
    cases hc : db.check f with
    | error e => simp [insertAll, insert, hc]
    | ok u =>
      have hv : ∀ g, (db.push f).check g = db.check g := check_congr (db.vars_push f)
      simp [insertAll, insert, hc, ih, hv]

theorem create_eq_ok_iff {vars : List Variable} {fs : List Fact} {db : Database} :
    create vars fs = .ok db ↔
      (∀ f ∈ fs, f.subject ∈ vars ∧ f.object ∈ vars) ∧ db = (ofUniverse vars).pushAll fs := by
  rw [create, insertAll_eq_ok_iff]
  simp [check_eq_ok_iff, ofUniverse, List.mem_eraseDups]

theorem wellFormed_of_create {vars : List Variable} {fs : List Fact} {db : Database}
    (h : create vars fs = .ok db) : db.WellFormed := by
  obtain ⟨hc, rfl⟩ := create_eq_ok_iff.1 h
  refine ⟨?_, nodup_facts_pushAll (by simp [ofUniverse]) fs, ?_⟩
  · simpa [ofUniverse] using nodup_eraseDups vars
  · intro f hf
    rcases mem_facts_pushAll.1 hf with hm | hm
    · simp [ofUniverse] at hm
    · simpa [check_eq_ok_iff, ofUniverse, List.mem_eraseDups] using hc f hm

theorem wellFormed_iff_create (db : Database) :
    db.WellFormed ↔ create db.vars db.facts = .ok db := by
  constructor
  · intro h
    have hu : ofUniverse db.vars = ⟨db.vars, []⟩ := by
      simp [ofUniverse, eraseDups_of_nodup h.nodup_vars]
    refine create_eq_ok_iff.2 ⟨fun f hf => (check_eq_ok_iff db f).1 (h.check f hf), ?_⟩
    rw [hu]
    have hv := vars_pushAll ⟨db.vars, []⟩ db.facts
    have hnodup : ((⟨db.vars, []⟩ : Database).facts ++ db.facts).Nodup := h.nodup_facts
    have hf := facts_pushAll_of_nodup hnodup
    exact congrArg₂ mk hv.symm hf.symm
  · exact wellFormed_of_create

def pets : Database :=
  ⟨["cat", "pet", "tame"], [.universal "cat" "pet", .particular "tame" "cat"]⟩

theorem wellFormed_pets : pets.WellFormed := (wellFormed_iff_create pets).2 rfl

end Database

end Syllogism
