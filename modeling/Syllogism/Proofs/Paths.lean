import Mathlib.Algebra.Group.Nat.Defs
import Mathlib.Order.Bounds.Basic
import Syllogism.Proofs.Entailment
import Syllogism.Proofs.Height

/-! Transitivity alone. Read as edges, the universal facts of a database make a graph, and a round
with barbara as the only rule joins every two paths that are known. So rounds double the length of
the paths that are covered, and the rounds of a proof are the logarithm of a distance. -/
namespace Syllogism

namespace Database

/-- There is a path of so many universal facts from one variable to another. -/
inductive Path (db : Database) : Nat → Variable → Variable → Prop
  | nil (a : Variable) : Path db 0 a a
  | cons {n : Nat} {a b c : Variable} (hab : .universal a b ∈ db.facts) (hbc : Path db n b c) :
      Path db (n + 1) a c

/-- There is a path that is not empty and no longer than `w`. -/
def Reaches (db : Database) (w : Nat) (a b : Variable) : Prop :=
  ∃ n, 1 ≤ n ∧ n ≤ w ∧ db.Path n a b

variable {db : Database} {a b c : Variable} {m n w : Nat}

theorem Path.append (hab : db.Path m a b) (hbc : db.Path n b c) : db.Path (m + n) a c := by
  induction hab with
  | nil a => rwa [Nat.zero_add]
  | cons h _ ih =>
    rw [Nat.add_right_comm]
    exact .cons h (ih hbc)

theorem Path.split (h : db.Path (m + n) a c) : ∃ b, db.Path m a b ∧ db.Path n b c := by
  induction m generalizing a with
  | zero => exact ⟨a, .nil a, by rwa [Nat.zero_add] at h⟩
  | succ m ih =>
    rw [Nat.add_right_comm] at h
    cases h with
    | cons hab hbc =>
      obtain ⟨d, hbd, hdc⟩ := ih hbc
      exact ⟨d, .cons hab hbd, hdc⟩

theorem reaches_one : db.Reaches 1 a b ↔ .universal a b ∈ db.facts := by
  constructor
  · rintro ⟨n, hpos, hle, hpath⟩
    obtain rfl : n = 1 := Nat.le_antisymm hle hpos
    cases hpath with
    | cons hab hbc =>
      cases hbc
      exact hab
  · intro hab
    exact ⟨1, Nat.le_refl 1, Nat.le_refl 1, .cons hab (.nil b)⟩

theorem Reaches.mono (h : db.Reaches m a b) (hmn : m ≤ n) : db.Reaches n a b := by
  obtain ⟨k, hpos, hle, hpath⟩ := h
  exact ⟨k, hpos, hle.trans hmn, hpath⟩

/-- A path of up to twice the length is short enough, or it is made of two that are. -/
theorem reaches_double (hw : 1 ≤ w) :
    db.Reaches (w * 2) a c ↔
      db.Reaches w a c ∨ ∃ b, db.Reaches w a b ∧ db.Reaches w b c := by
  constructor
  · rintro ⟨n, hpos, hle, hpath⟩
    rcases Nat.lt_or_ge w n with hlt | hge
    · obtain ⟨k, rfl⟩ := Nat.exists_eq_add_of_le hlt.le
      obtain ⟨b, hab, hbc⟩ := hpath.split
      exact .inr ⟨b, ⟨w, hw, Nat.le_refl w, hab⟩, ⟨k, by omega, by omega, hbc⟩⟩
    · exact .inl ⟨n, hpos, hge, hpath⟩
  · rintro (⟨n, hpos, hle, hpath⟩ | ⟨b, ⟨m, hm, hmw, hab⟩, ⟨n, hn, hnw, hbc⟩⟩)
    · exact ⟨n, hpos, by omega, hpath⟩
    · exact ⟨m + n, by omega, by omega, hab.append hbc⟩

theorem exists_distance (h : db.Reaches w a b) :
    ∃ d, IsLeast {n | 1 ≤ n ∧ db.Path n a b} d ∧ ∀ v, db.Reaches v a b ↔ d ≤ v := by
  classical
  have hex : ∃ n, 1 ≤ n ∧ db.Path n a b := by
    obtain ⟨n, hpos, -, hpath⟩ := h
    exact ⟨n, hpos, hpath⟩
  obtain ⟨hpos, hpath⟩ := Nat.find_spec hex
  refine ⟨Nat.find hex, ⟨⟨hpos, hpath⟩, fun n hn => Nat.find_min' hex hn⟩, fun v => ⟨?_, ?_⟩⟩
  · rintro ⟨n, hn, hnv, hp⟩
    exact (Nat.find_min' hex ⟨hn, hp⟩).trans hnv
  · intro hv
    exact ⟨_, hpos, hv, hpath⟩

end Database

theorem Rule.exists_consequence_barbara {db : Database} {table : PolicyTable} {f : Fact} :
    (∃ x ∈ barbara.consequences db table, x.1 = f) ↔
      ∃ a b c, .universal a b ∈ db.facts ∧ .universal b c ∈ db.facts ∧ f = .universal a c := by
  have hi : barbara.isAxiom = false := rfl
  constructor
  · rintro ⟨x, hx, rfl⟩
    obtain ⟨fs, hfs, hd, -⟩ := (mem_consequences_of_inference hi).1 hx
    obtain ⟨σ, htakes, hf⟩ := exists_subst_of_derive hd
    have hsame : ∀ p ∈ barbara.premises, p.subst σ ∈ db.facts := by
      intro p hp
      obtain ⟨g, hg, hpg⟩ := exists_mem_of_forall₂ htakes hp
      rw [← (takes_iff_of_strict rfl).1 hpg]
      exact hfs g hg
    exact ⟨σ "x", σ "y", σ "z", hsame ⟨.universal, "x", "y"⟩ (by simp [barbara]),
      hsame ⟨.universal, "y", "z"⟩ (by simp [barbara]), hf⟩
  · rintro ⟨a, b, c, hab, hbc, rfl⟩
    have htakes : List.Forall₂ (barbara.Takes table (Syllogistic.assign a b c)) barbara.premises
        [.universal a b, .universal b c] :=
      .cons ((takes_iff_of_strict rfl).2 rfl) (.cons ((takes_iff_of_strict rfl).2 rfl) .nil)
    have hd := derive_of_subst (by decide) hi htakes
    refine ⟨(.universal a c, .inferred barbara.name [.universal a b, .universal b c]), ?_, rfl⟩
    exact (mem_consequences_of_inference hi).2
      ⟨_, List.forall_mem_cons.2 ⟨hab, List.forall_mem_singleton.2 hbc⟩, hd, rfl⟩

namespace Query

variable {e : Engine} {seed db : Database} {q : Query}

theorem pass_of_single {r : Rule} (he : e.rules.rules = [r]) (q : Query) :
    q.pass e = Pass.apply e.policies (.start q) r := by
  simp [pass, he, Pass.applyAll]

theorem mem_facts_round_of_single {r : Rule} (he : e.rules.rules = [r]) (h : q.Coherent e seed)
    (hmiss : q.status ≠ .success) {f : Fact} :
    f ∈ (q.round e).1.database.facts ↔
      f ∈ q.database.facts ∨ ∃ x ∈ r.consequences q.database e.policies, x.1 = f := by
  by_cases hr : q.status = .running
  · rw [round_of_running hr, pass_of_single he]
    exact Pass.mem_facts_apply h.grown.facts
  · have hclosed := h.closed (Status.eq_saturated hr hmiss) r (by simp [he])
    rw [round_of_stopped hr]
    constructor
    · exact .inl
    · rintro (hf | ⟨x, hx, rfl⟩)
      · exact hf
      · exact hclosed x hx

theorem universal_mem_round_barbara (he : e.rules = .barbaraOnly) (h : q.Coherent e seed)
    (hmiss : q.status ≠ .success) {a c : Variable} :
    .universal a c ∈ (q.round e).1.database.facts ↔ .universal a c ∈ q.database.facts ∨
      ∃ b, .universal a b ∈ q.database.facts ∧ .universal b c ∈ q.database.facts := by
  rw [mem_facts_round_of_single (by rw [he]; rfl) h hmiss, Rule.exists_consequence_barbara]
  refine or_congr_right ⟨?_, ?_⟩
  · rintro ⟨x, b, y, hxb, hby, heq⟩
    obtain ⟨-, rfl, rfl⟩ := Fact.mk.inj heq
    exact ⟨b, hxb, hby⟩
  · rintro ⟨b, hab, hbc⟩
    exact ⟨a, b, c, hab, hbc, rfl⟩

theorem particular_mem_round_barbara (he : e.rules = .barbaraOnly) (h : q.Coherent e seed)
    (hmiss : q.status ≠ .success) {a b : Variable} :
    .particular a b ∈ (q.round e).1.database.facts ↔ .particular a b ∈ q.database.facts := by
  rw [mem_facts_round_of_single (by rw [he]; rfl) h hmiss, Rule.exists_consequence_barbara]
  simp [Fact.universal, Fact.particular]

/-- As long as the target is not found, `k` rounds of barbara cover the paths of up to `2 ^ k` edges
and leave the particular facts as they are. -/
theorem mem_facts_after_barbara (he : e.rules = .barbaraOnly) (hdb : db.WellFormed)
    (target : Option Fact) {k : Nat}
    (hmiss : ∀ m < k, ((start db target).after e m).status ≠ .success) (a b : Variable) :
    (.universal a b ∈ ((start db target).after e k).database.facts ↔ db.Reaches (2 ^ k) a b) ∧
      (.particular a b ∈ ((start db target).after e k).database.facts ↔
        .particular a b ∈ db.facts) := by
  induction k generalizing a b with
  | zero => exact ⟨Database.reaches_one.symm, Iff.rfl⟩
  | succ k ih =>
    have hcoh := coherent_after (e := e) hdb (coherent_start hdb target) k
    have hk := hmiss k k.lt_succ_self
    have hold := ih fun m hm => hmiss m (Nat.lt_succ_of_lt hm)
    rw [after_succ', universal_mem_round_barbara he hcoh hk,
      particular_mem_round_barbara he hcoh hk, Nat.pow_succ,
      Database.reaches_double Nat.one_le_two_pow]
    simp only [hold, and_self]

theorem success_after_barbara_iff (he : e.rules = .barbaraOnly) (hdb : db.WellFormed)
    (a b : Variable) (k : Nat) :
    ((start db (some (.universal a b))).after e k).status = .success ↔
      db.Reaches (2 ^ k) a b := by
  induction k using Nat.strongRecOn with
  | ind k ih =>
    by_cases hearly : ∃ m < k, ((start db (some (.universal a b))).after e m).status = .success
    · obtain ⟨m, hm, hsucc⟩ := hearly
      have hreach := ((ih m hm).1 hsucc).mono (Nat.pow_le_pow_right (by decide) hm.le)
      exact iff_of_true (success_of_success_after hsucc hm.le) hreach
    · have hcoh := coherent_after (e := e) hdb (coherent_start hdb (some (.universal a b))) k
      rw [hcoh.success_iff (target_after _ k)]
      refine (mem_facts_after_barbara he hdb _ (fun m hm hsucc => ?_) a b).1
      exact hearly ⟨m, hm, hsucc⟩

end Query

namespace Engine

variable {e : Engine} {db : Database} {t : Fact} {now : Instant}

theorem stopsAt_of_proved (hdb : db.WellFormed) (hl : e.settings.maxRounds = none) {p : Proof}
    (h : (e.prove db t now).1 = .ok (.proved p)) :
    (Query.start db (some t)).StopsAt e p.rounds ∧
      ((Query.start db (some t)).after e p.rounds).status = .success := by
  obtain ⟨hmem, lines, -, rfl⟩ := lines_of_proved hdb h
  obtain ⟨n, hn, hquery⟩ := exists_search_eq_after hdb hl (some t)
  have hsucc := ((coherent_search hdb (some t)).success_iff (target_search _)).2 hmem
  rw [hquery] at hsucc
  rw [hquery, hn.rounds_start]
  exact ⟨hn, hsucc⟩

theorem isLeast_rounds_of_proved (he : e.rules = .barbaraOnly) (hdb : db.WellFormed)
    (hl : e.settings.maxRounds = none) {a b : Variable} {p : Proof}
    (h : (e.prove db (.universal a b) now).1 = .ok (.proved p)) :
    IsLeast {k | db.Reaches (2 ^ k) a b} p.rounds := by
  obtain ⟨hstop, hsucc⟩ := stopsAt_of_proved hdb hl h
  refine ⟨(Query.success_after_barbara_iff he hdb a b _).1 hsucc, fun k hk => ?_⟩
  have hfound := (Query.success_after_barbara_iff he hdb a b k).2 hk
  exact hstop.le_of_stopped (by simp [hfound])

/-- Rounds of barbara double paths. After `k` of them, without a target, the universal facts are the
paths of one to `2 ^ k` edges through the universal facts at the start, and the particular facts are
those at the start. So without a limit on rounds a universal fact is proved exactly if there is a
path from its subject to its object, and if the shortest has `d` edges, the rounds of the proof are
the least `k` for which `2 ^ k` is not below `d`. -/
theorem barbara_doubles_paths (he : e.rules = .barbaraOnly) (hdb : db.WellFormed) :
    (∀ k a b, .universal a b ∈ ((Query.start db none).after e k).database.facts ↔
      ∃ n, 1 ≤ n ∧ n ≤ 2 ^ k ∧ db.Path n a b) ∧
    (∀ k a b, .particular a b ∈ ((Query.start db none).after e k).database.facts ↔
      .particular a b ∈ db.facts) ∧
    (e.settings.maxRounds = none → ∀ a b now,
      ((∃ p, (e.prove db (.universal a b) now).1 = .ok (.proved p)) ↔
        ∃ n, 1 ≤ n ∧ db.Path n a b) ∧
      ∀ p, (e.prove db (.universal a b) now).1 = .ok (.proved p) →
        ∃ d, IsLeast {n | 1 ≤ n ∧ db.Path n a b} d ∧ IsLeast {k | d ≤ 2 ^ k} p.rounds) := by
  have hrounds : ∀ k, ∀ m < k, ((Query.start db none).after e m).status ≠ .success := by
    intro k m _ hsucc
    have hcoh := Query.coherent_after (e := e) hdb (Query.coherent_start hdb none) m
    obtain ⟨t, ht, -⟩ := hcoh.target_mem hsucc
    rw [Query.target_after] at ht
    cases ht
  refine ⟨fun k a b => ?_, fun k a b => ?_, fun hl a b now => ⟨⟨?_, ?_⟩, fun p hp => ?_⟩⟩
  · exact (Query.mem_facts_after_barbara he hdb none (hrounds k) a b).1
  · exact (Query.mem_facts_after_barbara he hdb none (hrounds k) a b).2
  · rintro ⟨p, hp⟩
    obtain ⟨n, hpos, -, hpath⟩ := (isLeast_rounds_of_proved he hdb hl hp).1
    exact ⟨n, hpos, hpath⟩
  · rintro ⟨n, hpos, hpath⟩
    have hreach : db.Reaches (2 ^ n) a b := ⟨n, hpos, Nat.lt_two_pow_self.le, hpath⟩
    have hsucc := (Query.success_after_barbara_iff he hdb a b n).2 hreach
    obtain ⟨p, hp, -⟩ := proved_of_success_after hdb hsucc (by simp [hl]) now
    exact ⟨p, hp⟩
  · have hleast := isLeast_rounds_of_proved he hdb hl hp
    obtain ⟨d, hd, hreach⟩ := Database.exists_distance hleast.1
    refine ⟨d, hd, ?_⟩
    simpa only [hreach] using hleast

end Engine

/-- A ladder of six variables, the last of which is related to itself. -/
def Database.ladder : Database where
  vars := ["lion", "cat", "pet", "animal", "being", "thing"]
  facts := [.universal "lion" "cat", .universal "cat" "pet", .universal "pet" "animal",
    .universal "animal" "being", .universal "being" "thing", .universal "thing" "thing"]

/-- The shortest path up the ladder has five edges. Two rounds do not cover it, so that its proof
takes three. No path leads down. -/
theorem Engine.barbara_doubles_paths_ladder :
    let e : Engine := { rules := .barbaraOnly }
    IsLeast {n | 1 ≤ n ∧ Database.ladder.Path n "lion" "thing"} 5 ∧
    (∃ p, (e.prove .ladder (.universal "lion" "thing") ⟨2026, 1, 1, 0, 0, 0, 0⟩).1 =
      .ok (.proved p) ∧ p.rounds = 3) ∧
    ¬ ∃ n, 1 ≤ n ∧ Database.ladder.Path n "thing" "lion" := by
  intro e
  have hdb : Database.ladder.WellFormed := (Database.wellFormed_iff_create _).2 rfl
  obtain ⟨hfacts, -, hprove⟩ := barbara_doubles_paths (e := e) rfl hdb
  have hpath : Database.ladder.Path 5 "lion" "thing" :=
    .cons (b := "cat") (by decide) (.cons (b := "pet") (by decide) (.cons (b := "animal")
      (by decide) (.cons (b := "being") (by decide) (.cons (by decide) (.nil "thing")))))
  have hshort : ¬ ∃ n, 1 ≤ n ∧ n ≤ 2 ^ 2 ∧ Database.ladder.Path n "lion" "thing" := by
    rw [← hfacts 2]
    decide +kernel
  have hdown : (e.prove .ladder (.universal "thing" "lion") ⟨2026, 1, 1, 0, 0, 0, 0⟩).1 =
      .ok (.unprovable 4 16) := by decide +kernel
  have hleast : IsLeast {n | 1 ≤ n ∧ Database.ladder.Path n "lion" "thing"} 5 := by
    refine ⟨⟨by decide, hpath⟩, fun n hn => ?_⟩
    by_contra hlt
    exact hshort ⟨n, hn.1, by omega, hn.2⟩
  obtain ⟨p, hp⟩ := (hprove rfl "lion" "thing" ⟨2026, 1, 1, 0, 0, 0, 0⟩).1.2 ⟨5, by decide, hpath⟩
  obtain ⟨d, hd, hrounds⟩ := (hprove rfl _ _ _).2 p hp
  obtain rfl : d = 5 := hd.unique hleast
  refine ⟨hleast, ⟨p, hp, hrounds.unique ⟨by decide, fun k hk => ?_⟩⟩, fun hback => ?_⟩
  · by_contra hlt
    have hpow : 2 ^ k ≤ 2 ^ 2 := Nat.pow_le_pow_right (by decide) (by omega)
    exact absurd (hk.trans hpow) (by decide)
  · obtain ⟨q, hq⟩ := (hprove rfl "thing" "lion" ⟨2026, 1, 1, 0, 0, 0, 0⟩).1.2 hback
    rw [hdown] at hq
    cases hq

end Syllogism
