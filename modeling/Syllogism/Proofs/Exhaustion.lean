import Mathlib.Data.List.Nodup
import Syllogism.Proofs.Application
import Syllogism.Proofs.WellFormed

/-! Application against brute force. Whatever the backtracking search prunes, an inference rule
gives what it would give if every tuple of facts were tried in turn: the new facts in the order in
which they first come up, each recorded with the first tuple that gives it. An axiom gives what it
would give if every fact over the universe were held against its conclusion. -/
namespace Syllogism

theorem pairwise_lex_tuples {α : Type} {xs : List α} {key : α → Nat}
    (h : xs.Pairwise fun x y => key x < key y) (n : Nat) :
    (tuples xs n).Pairwise fun ys zs => List.Lex (· < ·) (ys.map key) (zs.map key) := by
  induction n with
  | zero => simp [tuples]
  | succ n ih =>
    rw [tuples, List.pairwise_flatMap]
    constructor
    · intro x _
      rw [List.pairwise_map]
      exact ih.imp fun hlex => .cons hlex
    · -- the first component decides
      refine h.imp fun {x y} hxy ys hys zs hzs => ?_
      obtain ⟨ys, -, rfl⟩ := List.mem_map.1 hys
      obtain ⟨zs, -, rfl⟩ := List.mem_map.1 hzs
      exact .rel hxy

theorem pairwise_idxOf {α : Type} [DecidableEq α] {xs : List α} (h : xs.Nodup) :
    xs.Pairwise fun x y => xs.idxOf x < xs.idxOf y := by
  rw [List.pairwise_iff_getElem]
  intro i j hi hj hij
  rwa [h.idxOf_getElem i hi, h.idxOf_getElem j hj]

namespace Provenance

theorem contains_record (p : Provenance) (f g : Fact) (o : Origin) :
    (p.record f o).2.contains g = (p.contains g || g == f) := by
  rw [Bool.eq_iff_iff]
  simp [contains_iff_mem_facts, mem_facts_record]

/-- The facts of the fresh entries: those that are unknown, each where it first comes up. -/
theorem facts_fresh (p : Provenance) (es : List (Fact × Origin)) :
    (p.fresh es).map (·.1) = ((es.map (·.1)).filter fun f => !p.contains f).eraseDups := by
  fun_induction fresh p es with
  | case1 => rfl
  | case2 p e es hk ih => simp [ih, hk]
  | case3 p e es hn ih =>
    have hnew : p.contains e.1 = false := by simpa using hn
    -- what is left out behind `e` is what `e` makes known
    have hfilter : (es.map (·.1)).filter (fun f => !(p.record e.1 e.2).2.contains f) =
        ((es.map (·.1)).filter fun f => !p.contains f).filter fun f => !f == e.1 := by
      rw [List.filter_filter]
      refine List.filter_congr fun f _ => ?_
      rw [contains_record, Bool.not_or, Bool.and_comm]
    rw [List.map_cons, ih, hfilter, List.map_cons, List.filter_cons, if_pos (by simp [hnew]),
      List.eraseDups_cons]

theorem find?_of_mem_fresh {p : Provenance} {es : List (Fact × Origin)} {e : Fact × Origin}
    (he : e ∈ p.fresh es) : p.contains e.1 = false ∧ es.find? (·.1 = e.1) = some e := by
  fun_induction fresh p es with
  | case1 => cases he
  | case2 p x es hk ih =>
    obtain ⟨hnew, hfind⟩ := ih he
    have hne : x.1 ≠ e.1 := by
      intro heq
      rw [heq, hnew] at hk
      cases hk
    exact ⟨hnew, by simp [hne, hfind]⟩
  | case3 p x es hn ih =>
    have hnew : p.contains x.1 = false := by simpa using hn
    rcases List.mem_cons.1 he with rfl | he
    · exact ⟨hnew, by simp⟩
    · obtain ⟨hrec, hfind⟩ := ih he
      rw [contains_record, Bool.or_eq_false_iff] at hrec
      have hne : x.1 ≠ e.1 := fun heq => by simp [heq] at hrec
      exact ⟨hrec.1, by simp [hne, hfind]⟩

theorem fresh_of_nodup {p : Provenance} {es : List (Fact × Origin)}
    (h : (es.map (·.1)).Nodup) : p.fresh es = es.filter fun e => !p.contains e.1 := by
  fun_induction fresh p es with
  | case1 => rfl
  | case2 p e es hk ih =>
    rw [ih (List.nodup_cons.1 h).2, List.filter_cons, if_neg (by simp [hk])]
  | case3 p e es hn ih =>
    obtain ⟨he, hes⟩ := List.nodup_cons.1 h
    rw [ih hes, List.filter_cons, if_pos (by simpa using hn)]
    -- `e` becomes known, but nothing behind it has the same fact
    refine congrArg (e :: ·) (List.filter_congr fun x hx => ?_)
    have hne : x.1 ≠ e.1 := fun heq => he (List.mem_map.2 ⟨x, hx, heq⟩)
    simp [contains_record, hne]

end Provenance

namespace Rule

/-- The tuples of facts from which the rule derives something, in the order of all tuples. -/
def productive (r : Rule) (db : Database) (table : PolicyTable) : List (List Fact) :=
  (tuples db.facts r.premises.length).filter fun fs => (r.derive table fs).isSome

theorem mem_productive {r : Rule} {db : Database} {table : PolicyTable} {fs : List Fact} :
    fs ∈ r.productive db table ↔ fs.length = r.premises.length ∧ (∀ f ∈ fs, f ∈ db.facts) ∧
      (r.derive table fs).isSome = true := by
  simp [productive, mem_tuples, and_assoc]

theorem consequences_eq_productive {r : Rule} (hi : r.isAxiom = false) (db : Database)
    (table : PolicyTable) : r.consequences db table = (r.productive db table).filterMap fun fs =>
      (r.derive table fs).map (·, .inferred r.name fs) := by
  rw [consequences, hi, productive, List.filterMap_filter]
  refine List.filterMap_congr fun fs _ => ?_
  cases r.derive table fs <;> rfl

/-- The first consequence with a given fact comes from the first tuple that gives the fact. -/
theorem find?_productive {r : Rule} {db : Database} {table : PolicyTable} {e : Fact × Origin}
    (hi : r.isAxiom = false) (h : (r.consequences db table).find? (·.1 = e.1) = some e) :
    ∃ fs, (r.productive db table).find? (fun fs => r.derive table fs = some e.1) = some fs ∧
      e = (e.1, .inferred r.name fs) := by
  rw [consequences_eq_productive hi, List.find?_filterMap] at h
  obtain ⟨fs, hfs, he⟩ := Option.bind_eq_some_iff.1 h
  obtain ⟨f, -, rfl⟩ := Option.map_eq_some_iff.1 he
  refine ⟨fs, ?_, rfl⟩
  rw [← hfs]
  congr 1
  funext gs
  cases r.derive table gs <;> simp

/-- The search is as good as trying all tuples: `productive` lists the tuples from which something
follows, in the order of the places of their facts, and an application returns what follows from
them and was not known, each fact once and at its first place, and records it with the first tuple
that gives it. -/
theorem apply_agrees_with_tuples {r : Rule} (hr : r.premises ≠ []) (db : Database) (p : Provenance)
    (table : PolicyTable) :
    (∀ fs, fs ∈ r.productive db table ↔ fs.length = r.premises.length ∧
      (∀ f ∈ fs, f ∈ db.facts) ∧ (r.derive table fs).isSome = true) ∧
    (db.facts.Nodup → (r.productive db table).Pairwise fun fs gs =>
      List.Lex (· < ·) (fs.map db.facts.idxOf) (gs.map db.facts.idxOf)) ∧
    (r.apply db p table).facts = (((r.productive db table).filterMap (r.derive table)).filter
      fun f => !p.contains f).eraseDups ∧
    (r.apply db p table).facts.Nodup ∧
    ∃ es, (r.apply db p table).provenance.entries = p.entries ++ es ∧
      List.Forall₂ (fun f e => ∃ fs, (r.productive db table).find?
        (fun fs => r.derive table fs = some f) = some fs ∧ e = (f, .inferred r.name fs))
        (r.apply db p table).facts es := by
  have hi : r.isAxiom = false := by simpa [isAxiom] using hr
  have hfacts : (r.consequences db table).map (·.1) =
      (r.productive db table).filterMap (r.derive table) := by
    rw [consequences_eq_productive hi, List.map_filterMap]
    refine List.filterMap_congr fun fs _ => ?_
    cases r.derive table fs <;> rfl
  rw [apply_eq_fresh, Provenance.facts_fresh, hfacts]
  refine ⟨fun fs => mem_productive, fun hdb => ?_, rfl, nodup_eraseDups _, _, rfl, ?_⟩
  · exact (pairwise_lex_tuples (pairwise_idxOf hdb) _).filter _
  · rw [← hfacts, ← Provenance.facts_fresh, List.forall₂_map_left_iff, List.forall₂_same]
    intro e he
    exact find?_productive hi (Provenance.find?_of_mem_fresh he).2

end Rule

/-- Beside another universal statement, the subject of a universal statement is not empty. -/
def Rule.populated : Rule where
  name := "populated"
  premises := [⟨.universal, "x", "y"⟩, ⟨.universal, "z", "w"⟩]
  conclusion := ⟨.particular, "x", "x"⟩

def Database.lions : Database :=
  ⟨["lion", "cat", "pet"], [.universal "lion" "cat", .universal "cat" "pet"]⟩

/-- Two tuples give each of the two facts, and the first of them is recorded. -/
theorem Rule.apply_agrees_with_tuples_lions :
    populated.premises ≠ [] ∧ Database.lions.facts.Nodup ∧
    (populated.apply .lions Database.lions.seed .standard).facts =
      [.particular "lion" "lion", .particular "cat" "cat"] ∧
    ∃ es, (populated.apply .lions Database.lions.seed .standard).provenance.entries =
        Database.lions.seed.entries ++ es ∧
      List.Forall₂ (fun f e => ∃ fs, (populated.productive .lions .standard).find?
        (fun fs => populated.derive .standard fs = some f) = some fs ∧
          e = (f, .inferred populated.name fs))
        [.particular "lion" "lion", .particular "cat" "cat"] es := by
  have hr : populated.premises ≠ [] := by decide
  obtain ⟨-, -, hfacts, -, hentries⟩ :=
    apply_agrees_with_tuples hr .lions Database.lions.seed .standard
  have hlist : (((populated.productive .lions .standard).filterMap
      (populated.derive .standard)).filter fun f => !Database.lions.seed.contains f).eraseDups =
        [.particular "lion" "lion", .particular "cat" "cat"] := by decide
  rw [hlist] at hfacts
  rw [hfacts] at hentries
  exact ⟨hr, by decide, hfacts, hentries⟩

/-- The place of the subject in the universe decides, and then that of the object. -/
def Fact.Before (vars : List Variable) (f g : Fact) : Prop :=
  vars.idxOf f.subject < vars.idxOf g.subject ∨
    vars.idxOf f.subject = vars.idxOf g.subject ∧ vars.idxOf f.object < vars.idxOf g.object

theorem Fact.Before.ne {vars : List Variable} {f g : Fact} (h : f.Before vars g) : f ≠ g := by
  rintro rfl
  rcases h with hs | ⟨-, ho⟩
  · exact Nat.lt_irrefl _ hs
  · exact Nat.lt_irrefl _ ho

namespace Rule

theorem pairwise_instances {vars : List Variable} (h : vars.Nodup) (r : Rule) :
    (r.instances vars).Pairwise (Fact.Before vars) := by
  have hvars := pairwise_idxOf h
  unfold instances
  split
  · rw [List.pairwise_map]
    exact hvars.imp fun hvw => .inl hvw
  · rw [List.pairwise_flatMap]
    constructor
    · intro v _
      rw [List.pairwise_map]
      exact hvars.imp fun hvw => .inr ⟨rfl, hvw⟩
    · refine hvars.imp fun {v w} hvw f hf g hg => ?_
      obtain ⟨a, -, rfl⟩ := List.mem_map.1 hf
      obtain ⟨b, -, rfl⟩ := List.mem_map.1 hg
      exact .inl hvw

theorem mem_instances_iff_yieldsAxiom {r : Rule} (hi : r.isAxiom = true) {db : Database}
    {f : Fact} : f ∈ r.instances db.vars ↔ r.yieldsAxiom f = true ∧ db.check f = .ok () := by
  rw [mem_instances, yieldsAxiom_iff, db.check_eq_ok_iff_vars]
  constructor
  · rintro ⟨σ, hσ, rfl⟩
    exact ⟨⟨hi, σ, rfl⟩, Pattern.forall_vars_subst.2 hσ⟩
  · rintro ⟨⟨-, σ, rfl⟩, hvars⟩
    exact ⟨σ, Pattern.forall_vars_subst.1 hvars, rfl⟩

theorem apply_of_isAxiom {r : Rule} (hi : r.isAxiom = true) {db : Database} (h : db.vars.Nodup)
    (p : Provenance) (table : PolicyTable) :
    let new := (r.instances db.vars).filter fun f => !p.contains f
    r.apply db p table = ⟨⟨p.entries ++ new.map (·, .axiomatic r.name)⟩, new⟩ := by
  intro new
  have hnodup : ((r.consequences db table).map (·.1)).Nodup := by
    have hinst : (r.instances db.vars).Nodup := (pairwise_instances h r).imp Fact.Before.ne
    simpa [consequences, hi, Function.comp_def] using hinst
  have hfresh : p.fresh (r.consequences db table) = new.map (·, .axiomatic r.name) := by
    rw [Provenance.fresh_of_nodup hnodup, consequences, if_pos hi, List.filter_map]
    rfl
  rw [apply_eq_fresh, hfresh]
  simp [Function.comp_def]

/-- Enumeration and recognition of the instances of an axiom agree. An application returns the facts
over the universe that the axiom yields and that were not known, each once and in the order of the
places of their variables, and adds just these in this order to what is known. -/
theorem apply_agrees_with_yieldsAxiom {r : Rule} (hi : r.isAxiom = true) {db : Database}
    (hdb : db.vars.Nodup) (p : Provenance) (table : PolicyTable) :
    (∀ f, f ∈ (r.apply db p table).facts ↔
      r.yieldsAxiom f = true ∧ db.check f = .ok () ∧ p.contains f = false) ∧
    (r.apply db p table).facts.Nodup ∧
    (r.apply db p table).facts.Pairwise (Fact.Before db.vars) ∧
    (r.apply db p table).provenance.entries =
      p.entries ++ (r.apply db p table).facts.map (·, .axiomatic r.name) := by
  have hpairwise : ((r.instances db.vars).filter fun f => !p.contains f).Pairwise
      (Fact.Before db.vars) := (pairwise_instances hdb r).filter _
  rw [apply_of_isAxiom hi hdb]
  refine ⟨fun f => ?_, hpairwise.imp Fact.Before.ne, hpairwise, rfl⟩
  rw [List.mem_filter, mem_instances_iff_yieldsAxiom hi, Bool.not_eq_true', and_assoc]

def sameness : Rule where
  name := "sameness"
  conclusion := ⟨.universal, "x", "y"⟩

/-- Of the nine pairs of variables two are known to be related. Reflexivity, where the placeholder
is repeated, has three instances. -/
theorem apply_agrees_with_yieldsAxiom_lions :
    sameness.isAxiom = true ∧ reflexivity.isAxiom = true ∧ Database.lions.vars.Nodup ∧
    (∀ f, f ∈ [Fact.universal "lion" "lion", .universal "lion" "pet", .universal "cat" "lion",
        .universal "cat" "cat", .universal "pet" "lion", .universal "pet" "cat",
        .universal "pet" "pet"] ↔ sameness.yieldsAxiom f = true ∧
      Database.lions.check f = .ok () ∧ Database.lions.seed.contains f = false) ∧
    (∀ f, f ∈ [Fact.universal "lion" "lion", .universal "cat" "cat", .universal "pet" "pet"] ↔
      reflexivity.yieldsAxiom f = true ∧ Database.lions.check f = .ok () ∧
        Database.lions.seed.contains f = false) ∧
    (reflexivity.apply .lions Database.lions.seed .standard).provenance.entries =
      Database.lions.seed.entries ++ [(.universal "lion" "lion", .axiomatic "axiom"),
        (.universal "cat" "cat", .axiomatic "axiom"),
        (.universal "pet" "pet", .axiomatic "axiom")] := by
  have hvars : Database.lions.vars.Nodup := by decide
  obtain ⟨hpairs, -, -, -⟩ :=
    apply_agrees_with_yieldsAxiom (r := sameness) rfl hvars Database.lions.seed .standard
  obtain ⟨hrefl, -, -, hentries⟩ :=
    apply_agrees_with_yieldsAxiom (r := reflexivity) rfl hvars Database.lions.seed .standard
  have hseven : (sameness.apply .lions Database.lions.seed .standard).facts =
      [.universal "lion" "lion", .universal "lion" "pet", .universal "cat" "lion",
        .universal "cat" "cat", .universal "pet" "lion", .universal "pet" "cat",
        .universal "pet" "pet"] := by decide
  have hthree : (reflexivity.apply .lions Database.lions.seed .standard).facts =
      [.universal "lion" "lion", .universal "cat" "cat", .universal "pet" "pet"] := by decide
  rw [hseven] at hpairs
  rw [hthree] at hrefl hentries
  exact ⟨rfl, rfl, hvars, hpairs, hrefl, hentries⟩

end Rule

end Syllogism
