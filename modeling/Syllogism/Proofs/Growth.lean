import Mathlib.Data.List.Perm.Subperm
import Syllogism.Engine
import Syllogism.Proofs.Application
import Syllogism.Proofs.WellFormed

/-! How a query grows. Database and provenance list the same facts in the same order: the given ones
first, then one after another facts that a rule supports by what stands before them. -/
namespace Syllogism

/-- Why a derived fact may stand behind the facts `known`. -/
def Origin.Supports (rules : List Rule) (table : PolicyTable) (vars : List Variable)
    (known : List Fact) (f : Fact) : Origin → Prop
  | .given => False
  | .axiomatic name => ∃ r ∈ rules, r.name = name ∧ r.isAxiom = true ∧ f ∈ r.instances vars
  | .inferred name fs =>
    ∃ r ∈ rules, r.name = name ∧ r.derive table fs = some f ∧ ∀ g ∈ fs, g ∈ known

/-- Each entry is new and supported by the facts before it. -/
def Supported (rules : List Rule) (table : PolicyTable) (vars : List Variable) :
    List Fact → List (Fact × Origin) → Prop
  | _, [] => True
  | known, e :: es =>
    e.1 ∉ known ∧ e.2.Supports rules table vars known e.1 ∧
      Supported rules table vars (known ++ [e.1]) es

section

variable {rules : List Rule} {table : PolicyTable} {vars : List Variable} {known : List Fact}

theorem Origin.Supports.mono {o : Origin} {f : Fact} (h : o.Supports rules table vars known f)
    {more : List Fact} (hk : ∀ g ∈ known, g ∈ more) : o.Supports rules table vars more f := by
  cases o with
  | given => exact h
  | axiomatic name => exact h
  | inferred name fs =>
    obtain ⟨r, hr, hn, hd, hfs⟩ := h
    exact ⟨r, hr, hn, hd, fun g hg => hk g (hfs g hg)⟩

theorem supported_append {es fs : List (Fact × Origin)} :
    Supported rules table vars known (es ++ fs) ↔
      Supported rules table vars known es ∧
        Supported rules table vars (known ++ es.map (·.1)) fs := by
  induction es generalizing known with
  | nil => simp [Supported]
  | cons e es ih => simp [Supported, ih, and_assoc]

theorem Supported.nodup {es : List (Fact × Origin)} (h : Supported rules table vars known es)
    (hk : known.Nodup) : (known ++ es.map (·.1)).Nodup := by
  induction es generalizing known with
  | nil => simpa using hk
  | cons e es ih =>
    obtain ⟨hn, -, hs⟩ := h
    simpa using ih hs (hk.append (by simp) (by simpa using hn))

theorem Supported.forall_mem {P : Fact → Prop}
    (hstep : ∀ (known : List Fact) (f : Fact) (o : Origin),
      o.Supports rules table vars known f → (∀ g ∈ known, P g) → P f)
    {es : List (Fact × Origin)} (h : Supported rules table vars known es)
    (hk : ∀ f ∈ known, P f) : ∀ f ∈ known ++ es.map (·.1), P f := by
  induction es generalizing known with
  | nil => simpa using hk
  | cons e es ih =>
    obtain ⟨-, hsup, hs⟩ := h
    have he : P e.1 := hstep known e.1 e.2 hsup hk
    have hmore := ih hs (List.forall_mem_append.2 ⟨hk, List.forall_mem_singleton.2 he⟩)
    simpa using hmore

theorem Origin.Supports.mem_vars {f : Fact} {o : Origin} (h : o.Supports rules table vars known f)
    (hk : ∀ g ∈ known, ∀ v ∈ g.vars, v ∈ vars) : ∀ v ∈ f.vars, v ∈ vars := by
  cases o with
  | given => exact h.elim
  | axiomatic name =>
    obtain ⟨r, -, -, -, hi⟩ := h
    obtain ⟨σ, hσ, rfl⟩ := Rule.mem_instances.1 hi
    exact Pattern.forall_vars_subst.2 hσ
  | inferred name fs =>
    obtain ⟨r, -, -, hd, hfs⟩ := h
    intro v hv
    obtain ⟨g, hg, hvg⟩ := Rule.mem_vars_of_derive hd hv
    exact hk g (hfs g hg) v hvg

theorem supports_of_mem_consequences {r : Rule} (hr : r ∈ rules) {db : Database}
    {e : Fact × Origin} (he : e ∈ r.consequences db table) :
    e.2.Supports rules table db.vars db.facts e.1 := by
  cases hi : r.isAxiom with
  | true =>
    obtain ⟨hf, ho⟩ := (Rule.mem_consequences_of_isAxiom hi).1 he
    rw [ho]
    exact ⟨r, hr, rfl, hi, hf⟩
  | false =>
    obtain ⟨fs, hfs, hd, ho⟩ := (Rule.mem_consequences_of_inference hi).1 he
    rw [ho]
    exact ⟨r, hr, rfl, hd, hfs⟩

theorem supported_fresh {p : Provenance} {es : List (Fact × Origin)}
    (hes : ∀ e ∈ es, e.2.Supports rules table vars known e.1) (hk : ∀ g ∈ known, g ∈ p.facts) :
    Supported rules table vars p.facts (p.fresh es) := by
  fun_induction Provenance.fresh p es with
  | case1 => trivial
  | case2 p e es _ ih => exact ih (fun x hx => hes x (by simp [hx])) hk
  | case3 p e es hn ih =>
    have hnew : p.contains e.1 = false := by simpa using hn
    have hfacts := Provenance.facts_record_of_new hnew e.2
    have hrest := ih (fun x hx => hes x (by simp [hx])) fun g hg => by
      rw [hfacts]
      exact List.mem_append_left _ (hk g hg)
    rw [hfacts] at hrest
    refine ⟨?_, (hes e (by simp)).mono hk, hrest⟩
    intro hm
    exact hn ((p.contains_iff_mem_facts e.1).2 hm)

end

theorem Database.entries_seed {db : Database} (h : db.facts.Nodup) :
    db.seed.entries = db.facts.map (·, .given) := by
  have hfold : ∀ (fs : List Fact) (p : Provenance), (p.facts ++ fs).Nodup →
      (fs.foldl (fun p f => (p.record f .given).2) p).entries =
        p.entries ++ fs.map (·, .given) := by
    intro fs
    induction fs with
    | nil => simp
    | cons f fs ih =>
      intro p hp
      have hf : p.contains f = false := by
        refine Bool.eq_false_iff.2 fun hc => ?_
        exact (List.nodup_append.1 hp).2.2 f ((p.contains_iff_mem_facts f).1 hc) f (by simp) rfl
      have hnext := ih (p.record f .given).2 (by
        rw [Provenance.facts_record_of_new hf]
        simpa using hp)
      rw [List.foldl_cons, hnext, Provenance.record_of_new hf]
      simp
  exact hfold db.facts .empty (by simpa [Provenance.empty, Provenance.facts] using h)

theorem Provenance.facts_of_entries {p : Provenance} {fs : List Fact} {es : List (Fact × Origin)}
    (h : p.entries = fs.map (·, .given) ++ es) : p.facts = fs ++ es.map (·.1) := by
  simp [facts, h, Function.comp_def]

theorem Provenance.get?_of_entries {p : Provenance} {fs : List Fact} {es : List (Fact × Origin)}
    (h : p.entries = fs.map (·, .given) ++ es) {f : Fact} (hf : f ∈ fs) :
    p.get? f = some .given := by
  obtain ⟨before, behind, rfl, hnew⟩ := List.eq_append_cons_of_mem hf
  rw [get?, List.lookup_eq_some_iff]
  refine ⟨before.map (·, .given), behind.map (·, .given) ++ es, by simp [h], ?_⟩
  rintro ⟨g, o⟩ hg
  obtain ⟨hmem, -⟩ : g ∈ before ∧ Origin.given = o := by simpa using hg
  have hne : f ≠ g := fun heq => hnew (heq ▸ hmem)
  simpa using hne

/-- Database and provenance as rules have left them that began with `seed`. -/
structure Grown (rules : List Rule) (table : PolicyTable) (seed db : Database) (p : Provenance) :
    Prop where
  vars : db.vars = seed.vars
  facts : db.facts = p.facts
  entries : ∃ es, p.entries = seed.facts.map (·, .given) ++ es ∧
    Supported rules table seed.vars seed.facts es

namespace Grown

variable {rules : List Rule} {table : PolicyTable} {seed db : Database} {p : Provenance}

theorem start (h : seed.WellFormed) : Grown rules table seed seed seed.seed := by
  have hs := Database.entries_seed h.nodup_facts
  have he : seed.seed.entries = seed.facts.map (·, .given) ++ [] := by simpa using hs
  exact ⟨rfl, by simpa using (Provenance.facts_of_entries he).symm, [], he, trivial⟩

theorem facts_eq (h : Grown rules table seed db p) : ∃ es, p.facts = seed.facts ++ es.map (·.1) ∧
    Supported rules table seed.vars seed.facts es := by
  obtain ⟨es, hes, hs⟩ := h.entries
  exact ⟨es, Provenance.facts_of_entries hes, hs⟩

theorem prefix_facts (h : Grown rules table seed db p) : seed.facts <+: db.facts := by
  obtain ⟨es, hes, -⟩ := h.facts_eq
  rw [h.facts, hes]
  exact List.prefix_append _ _

theorem size_eq (h : Grown rules table seed db p) : db.size = p.entries.length := by
  simp [Database.size, h.facts, Provenance.facts]

theorem capacity_eq (h : Grown rules table seed db p) : db.capacity = seed.capacity := by
  simp [Database.capacity, h.vars]

theorem nodup_facts (h : Grown rules table seed db p) (hs : seed.WellFormed) :
    db.facts.Nodup := by
  obtain ⟨es, hes, hsup⟩ := h.facts_eq
  rw [h.facts, hes]
  exact hsup.nodup hs.nodup_facts

/-- Whatever holds of the facts at the start and passes from the supporting facts to the supported
one holds of all facts. -/
theorem forall_mem {P : Fact → Prop} (h : Grown rules table seed db p)
    (hstep : ∀ (known : List Fact) (f : Fact) (o : Origin),
      o.Supports rules table seed.vars known f → (∀ g ∈ known, P g) → P f)
    (hseed : ∀ f ∈ seed.facts, P f) : ∀ f ∈ db.facts, P f := by
  obtain ⟨es, hes, hsup⟩ := h.facts_eq
  rw [h.facts, hes]
  exact hsup.forall_mem hstep hseed

theorem wellFormed (h : Grown rules table seed db p) (hs : seed.WellFormed) : db.WellFormed := by
  refine ⟨h.vars ▸ hs.nodup_vars, h.nodup_facts hs, fun f hf => ?_⟩
  rw [Database.check_congr h.vars, Database.check_eq_ok_iff_vars]
  refine h.forall_mem (fun known f o hsup => hsup.mem_vars) (fun g hg => ?_) f hf
  exact (seed.check_eq_ok_iff_vars g).1 (hs.check g hg)

theorem contains_iff (h : Grown rules table seed db p) (f : Fact) :
    p.contains f = true ↔ f ∈ db.facts := by
  rw [p.contains_iff_mem_facts, h.facts]

end Grown

theorem Database.WellFormed.size_le_capacity {db : Database} (h : db.WellFormed) :
    db.size ≤ db.capacity := by
  have hsub : db.facts ⊆ db.vars.flatMap fun s => db.vars.flatMap fun o =>
      [Fact.universal s o, Fact.particular s o] := by
    intro f hf
    obtain ⟨hs, ho⟩ := (db.check_eq_ok_iff f).1 (h.check f hf)
    refine List.mem_flatMap.2 ⟨_, hs, List.mem_flatMap.2 ⟨_, ho, ?_⟩⟩
    obtain ⟨q, s, o⟩ := f
    cases q <;> simp [Fact.universal, Fact.particular]
  have hle := (h.nodup_facts.subperm hsub).length_le
  calc db.size ≤ _ := hle
    _ = db.capacity := by simp [capacity, List.length_flatMap, Nat.mul_comm]

theorem Grown.size_le_capacity {rules : List Rule} {table : PolicyTable} {seed db : Database}
    {p : Provenance} (h : Grown rules table seed db p) (hs : seed.WellFormed) :
    db.size ≤ seed.capacity := by
  rw [← h.capacity_eq]
  exact (h.wellFormed hs).size_le_capacity

namespace Pass

variable {rules : List Rule} {table : PolicyTable} {seed : Database}

theorem entries_apply (p : Pass) (r : Rule) : (p.apply table r).provenance.entries =
    p.provenance.entries ++ p.provenance.fresh (r.consequences p.database table) := by
  simp [apply, Rule.apply_eq_fresh]

theorem grown_apply (hs : seed.WellFormed) {p : Pass}
    (h : Grown rules table seed p.database p.provenance) {r : Rule} (hr : r ∈ rules) :
    Grown rules table seed (p.apply table r).database (p.apply table r).provenance := by
  let new := p.provenance.fresh (r.consequences p.database table)
  have hsup : Supported rules table seed.vars p.provenance.facts new := by
    refine supported_fresh (fun e he => ?_) (fun g hg => hg)
    have hsup := supports_of_mem_consequences hr he
    rwa [h.vars, h.facts] at hsup
  have hnodup : (p.database.facts ++ new.map (·.1)).Nodup := by
    rw [h.facts]
    exact hsup.nodup (h.facts ▸ h.nodup_facts hs)
  refine ⟨?_, ?_, ?_⟩
  · simpa [apply] using h.vars
  · have hf := Database.facts_pushAll_of_nodup hnodup
    simp only [apply, Database.merge_snd, Rule.apply_eq_fresh, Provenance.facts, List.map_append]
    rw [hf, h.facts]
    rfl
  · obtain ⟨es, hes, hold⟩ := h.entries
    refine ⟨es ++ new, ?_, supported_append.2 ⟨hold, ?_⟩⟩
    · rw [entries_apply, hes, List.append_assoc]
    · rwa [← Provenance.facts_of_entries hes]

theorem prefix_applyAll (eager : Bool) (target : Option Fact) (p : Pass) (rs : List Rule) :
    p.provenance.entries <+: (p.applyAll table eager target rs).provenance.entries := by
  induction rs generalizing p with
  | nil => exact List.prefix_rfl
  | cons r rs ih =>
    have hstep : p.provenance.entries <+: (p.apply table r).provenance.entries := by
      rw [entries_apply]
      exact List.prefix_append _ _
    rw [applyAll]
    split
    · exact hstep
    · exact hstep.trans (ih _)

theorem grown_applyAll (hs : seed.WellFormed) (eager : Bool) (target : Option Fact) {p : Pass}
    (h : Grown rules table seed p.database p.provenance) {rs : List Rule}
    (hrs : ∀ r ∈ rs, r ∈ rules) :
    Grown rules table seed (p.applyAll table eager target rs).database
      (p.applyAll table eager target rs).provenance := by
  induction rs generalizing p with
  | nil => exact h
  | cons r rs ih =>
    have hstep := grown_apply hs h (hrs r (by simp))
    rw [applyAll]
    split
    · exact hstep
    · exact ih hstep fun s hr => hrs s (by simp [hr])

/-- A pass that neither reaches its target nor adds a fact has changed nothing, and every rule that
it has applied gives only facts that are there. -/
theorem quiet_applyAll (hs : seed.WellFormed) {eager : Bool} {target : Option Fact} {p : Pass}
    (h : Grown rules table seed p.database p.provenance) {rs : List Rule}
    (hrs : ∀ r ∈ rs, r ∈ rules)
    (hsize : (p.applyAll table eager target rs).database.size = p.database.size)
    (ht : (p.applyAll table eager target rs).provenance.reaches target = false) :
    (p.applyAll table eager target rs).database = p.database ∧
      ∀ r ∈ rs, ∀ x ∈ r.consequences p.database table, x.1 ∈ p.database.facts := by
  induction rs generalizing p with
  | nil => simp [applyAll]
  | cons r rs ih =>
    have hend := grown_applyAll hs eager target h hrs
    -- the entries that the first rule adds are still there at the end, so there are none
    have hnil : p.provenance.fresh (r.consequences p.database table) = [] := by
      have hle : (p.apply table r).provenance.entries.length ≤
          (p.applyAll table eager target (r :: rs)).provenance.entries.length := by
        rw [applyAll]
        split
        · exact Nat.le_refl _
        · exact (prefix_applyAll eager target _ rs).length_le
      have hlen : (p.applyAll table eager target (r :: rs)).provenance.entries.length =
          p.provenance.entries.length := by
        rw [← hend.size_eq, ← h.size_eq, hsize]
      rw [hlen, entries_apply, List.length_append] at hle
      exact List.length_eq_zero_iff.1 (by omega)
    have hdb : (p.apply table r).database = p.database := by
      simp [apply, Rule.apply_eq_fresh, hnil]
    have hknown := Provenance.fresh_eq_nil_iff.1 hnil
    rw [← h.facts] at hknown
    rw [applyAll] at hsize ht ⊢
    split at hsize
    · next hreach =>
      simp only [hreach, if_true] at ht
      simp [ht] at hreach
    · next hreach =>
      simp only [hreach] at ht ⊢
      rw [← hdb] at hsize
      obtain ⟨hsame, hrest⟩ := ih (grown_apply hs h (hrs r (by simp)))
        (fun s hr => hrs s (by simp [hr])) hsize ht
      rw [hdb] at hsame hrest
      exact ⟨hsame, List.forall_mem_cons.2 ⟨hknown, hrest⟩⟩

end Pass

end Syllogism
