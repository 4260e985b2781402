import Syllogism.Proofs.Answers

/-! The life of a query. In every state that rounds lead to, database and provenance list the same
facts of the universe and each entry of the provenance is justified by what stands before it. A run
needs no more rounds than it adds facts, and one more. -/
namespace Syllogism

namespace Database

/-- The fact `g` has a place before one of `f`. -/
def Precedes (db : Database) (g f : Fact) : Prop :=
  ∃ i j : Nat, i < j ∧ db.facts[i]? = some g ∧ db.facts[j]? = some f

theorem precedes_of_split {db : Database} {known rest : List Fact} {f g : Fact}
    (h : db.facts = known ++ f :: rest) (hg : g ∈ known) : db.Precedes g f := by
  obtain ⟨i, hi, hgi⟩ := List.getElem_of_mem hg
  refine ⟨i, known.length, hi, ?_, ?_⟩
  · rw [h, List.getElem?_append_left hi, List.getElem?_eq_getElem hi, hgi]
  · simp [h]

end Database

namespace Grown

variable {rules : List Rule} {table : PolicyTable} {seed db : Database} {p : Provenance}

theorem get?_eq_given_iff (h : Grown rules table seed db p) (f : Fact) :
    p.get? f = some .given ↔ f ∈ seed.facts := by
  constructor
  · intro hf
    rcases h.supports_of_get? hf with ⟨-, hmem⟩ | ⟨known, rest, -, hfalse⟩
    · exact hmem
    · exact hfalse.elim
  · intro hf
    obtain ⟨es, hes, -⟩ := h.entries
    exact Provenance.get?_of_entries hes hf

end Grown

namespace Query

variable {e : Engine} {seed db : Database} {q : Query}

/-- What the entries of the provenance promise. The given facts are those at the start; every other
fact comes of an axiom or a rule that the catalogue has under the recorded name, and the premises of
a rule stand before its conclusion. -/
structure Justified (e : Engine) (seed : Database) (q : Query) : Prop where
  given : ∀ f, q.provenance.get? f = some .given ↔ f ∈ seed.facts
  axiomatic : ∀ f name, q.provenance.get? f = some (.axiomatic name) →
    ∃ r, e.rules.get? name = some r ∧ r.isAxiom = true ∧ r.yieldsAxiom f = true
  inferred : ∀ f name fs, q.provenance.get? f = some (.inferred name fs) →
    ∃ r, e.rules.get? name = some r ∧ r.derive e.policies fs = some f ∧
      ∀ g ∈ fs, q.database.Precedes g f

theorem Coherent.justified (h : q.Coherent e seed) (hc : e.rules.WellFormed) :
    q.Justified e seed where
  given := h.grown.get?_eq_given_iff
  axiomatic f name hf := by
    rcases h.grown.supports_of_get? hf with ⟨ho, -⟩ | ⟨known, rest, -, r, hr, rfl, hi, hmem⟩
    · cases ho
    · obtain ⟨σ, -, rfl⟩ := Rule.mem_instances.1 hmem
      exact ⟨r, hc.get?_eq_some hr, hi, Rule.yieldsAxiom_iff.2 ⟨hi, σ, rfl⟩⟩
  inferred f name fs hf := by
    rcases h.grown.supports_of_get? hf with ⟨ho, -⟩ | ⟨known, rest, heq, r, hr, rfl, hd, hknown⟩
    · cases ho
    · exact ⟨r, hc.get?_eq_some hr, hd, fun g hg => Database.precedes_of_split heq (hknown g hg)⟩

/-- After any number of rounds every entry is justified, and no later round changes it. -/
theorem justified_after (hc : e.rules.WellFormed) (hdb : db.WellFormed) (target : Option Fact)
    (n : Nat) :
    ((start db target).after e n).Justified e db ∧
      ∀ m, n ≤ m → ∀ f o, ((start db target).after e n).provenance.get? f = some o →
        ((start db target).after e m).provenance.get? f = some o := by
  have hcoh := coherent_after (e := e) hdb (coherent_start hdb target) n
  refine ⟨hcoh.justified hc, fun m hnm f o hf => ?_⟩
  exact Provenance.get?_mono (prefix_after _ hnm) hf

/-- One round makes some cats pets by means of a fact from the same round. -/
theorem justified_after_pets :
    let q := (start .pets none).after { rules := .syllogistic } 1
    q.provenance.get? (.universal "cat" "pet") = some .given ∧
    q.provenance.get? (.universal "pet" "pet") = some (.axiomatic "axiom") ∧
    Rule.reflexivity.yieldsAxiom (.universal "pet" "pet") = true ∧
    q.provenance.get? (.particular "cat" "pet") =
      some (.inferred "darii" [.universal "cat" "pet", .particular "cat" "cat"]) ∧
    q.database.Precedes (.particular "cat" "cat") (.particular "cat" "pet") ∧
    ((start .pets none).after { rules := .syllogistic } 3).provenance.get?
      (.particular "cat" "pet") =
        some (.inferred "darii" [.universal "cat" "pet", .particular "cat" "cat"]) := by
  intro q
  obtain ⟨hq, hlater⟩ := justified_after (e := { rules := .syllogistic })
    Catalogue.wellFormed_syllogistic Database.wellFormed_pets none 1
  have hpet : q.provenance.get? (.universal "pet" "pet") = some (.axiomatic "axiom") := by
    decide +kernel
  have hcat : q.provenance.get? (.particular "cat" "pet") =
      some (.inferred "darii" [.universal "cat" "pet", .particular "cat" "cat"]) := by
    decide +kernel
  obtain ⟨r, hr, -, hyields⟩ := hq.axiomatic _ _ hpet
  obtain rfl : Rule.reflexivity = r := Option.some.inj hr
  obtain ⟨-, -, -, hbefore⟩ := hq.inferred _ _ _ hcat
  exact ⟨(hq.given _).2 (by decide), hpet, hyields, hcat, hbefore _ (by decide),
    hlater 3 (by decide) _ _ hcat⟩

/-- After any number of rounds database and provenance list the same facts in the same order, each
once and all over the universe, which stays as it is; later facts come behind them. -/
theorem lockstep_after (hdb : db.WellFormed) (target : Option Fact) (n : Nat) :
    let q := (start db target).after e n
    q.provenance.facts = q.database.facts ∧ q.database.facts.Nodup ∧
      (∀ f ∈ q.database.facts, f.subject ∈ db.vars ∧ f.object ∈ db.vars) ∧
      q.database.vars = db.vars ∧
      ∀ m, n ≤ m → q.database.facts <+: ((start db target).after e m).database.facts := by
  intro q
  have hcoh : ∀ m, ((start db target).after e m).Coherent e db :=
    coherent_after hdb (coherent_start hdb target)
  have hwf : q.database.WellFormed := (hcoh n).grown.wellFormed hdb
  have hvars : q.database.vars = db.vars := (hcoh n).grown.vars
  refine ⟨(hcoh n).grown.facts.symm, hwf.nodup_facts, fun f hf => ?_, hvars, fun m hnm => ?_⟩
  · rw [← hvars]
    exact (q.database.check_eq_ok_iff f).1 (hwf.check f hf)
  · rw [(hcoh n).grown.facts, (hcoh m).grown.facts]
    exact (prefix_after _ hnm).map Prod.fst

theorem lockstep_after_pets :
    let q := (start .pets none).after { rules := .syllogistic } 1
    q.database.size = 10 ∧ q.provenance.facts = q.database.facts ∧ q.database.facts.Nodup ∧
      q.database.facts <+:
        ((start .pets none).after { rules := .syllogistic } 2).database.facts := by
  intro q
  obtain ⟨hsame, hnodup, -, -, hlater⟩ :=
    lockstep_after (e := { rules := .syllogistic }) Database.wellFormed_pets none 1
  exact ⟨by decide +kernel, hsame, hnodup, hlater 2 (by decide)⟩

end Query

theorem Settings.limitReached_eq_false_iff {s : Settings} {rounds : Nat} :
    s.limitReached rounds = false ↔ ∀ limit ∈ s.maxRounds, rounds < limit := by
  unfold limitReached
  cases s.maxRounds <;> simp

namespace Query

variable {e : Engine} {db : Database} {target : Option Fact}

/-- A limit that is larger than the number of facts that can still be added holds up no query. -/
theorem unhindered_of_room (hdb : db.WellFormed)
    (hl : ∀ limit ∈ e.settings.maxRounds, db.capacity - db.size + 1 ≤ limit) (k : Nat) :
    ((start db target).after e k).Unhindered e := by
  intro n hn
  rw [← after_add] at hn ⊢
  have hcoh := coherent_start (e := e) hdb target
  have hrounds : ((start db target).after e (k + n)).rounds = 0 + (k + n) :=
    rounds_after_of_running hn
  have hsize : db.size + (k + n) ≤ ((start db target).after e (k + n)).database.size :=
    size_after_of_running hdb hcoh hn
  have hroom := (coherent_after hdb hcoh (k + n)).grown.size_le_capacity hdb
  refine Settings.limitReached_eq_false_iff.2 fun limit hlimit => ?_
  have hle := hl limit hlimit
  omega

theorem unhindered_of_stopped {n : Nat}
    (hstop : ((start db target).after e n).status ≠ .running)
    (hl : ∀ limit ∈ e.settings.maxRounds, n ≤ limit) : (start db target).Unhindered e := by
  intro m hm
  have hlt : m < n := by
    by_contra hle
    exact hstop (running_of_running_after hm (Nat.le_of_not_lt hle))
  have hrounds : ((start db target).after e m).rounds = 0 + m := rounds_after_of_running hm
  refine Settings.limitReached_eq_false_iff.2 fun limit hlimit => ?_
  have hle := hl limit hlimit
  omega

/-- A run with no limit, or with one that leaves room for every fact over the universe, comes to an
end without an error, whatever rounds were made before it. It makes exactly the rounds after which
the query stops. All but the last of them have added a fact, and the universe has room for two facts
for each pair of variables. -/
theorem run_within_capacity (hdb : db.WellFormed)
    (hl : ∀ limit ∈ e.settings.maxRounds,
      2 * db.vars.length * db.vars.length - db.size + 1 ≤ limit)
    (target : Option Fact) (k : Nat) :
    let r := ((start db target).after e k).run e
    r.result = .ok r.query.status ∧ (start db target).StopsAt e r.query.rounds ∧
      r.query = (start db target).after e r.query.rounds ∧
      r.query.database.size ≤ 2 * db.vars.length * db.vars.length ∧
      r.query.rounds ≤ r.query.database.size - db.size + 1 ∧
      r.query.rounds ≤ 2 * db.vars.length * db.vars.length - db.size + 1 := by
  intro r
  have hcoh := coherent_start (e := e) hdb target
  obtain ⟨n, hn, hrun, hexc⟩ := (unhindered_of_room hdb hl k).run hdb (coherent_after hdb hcoh k)
  have hstop : ((start db target).after e (k + n)).status ≠ .running := by
    rw [after_add]
    exact hn.stopped
  obtain ⟨m, -, hm⟩ := exists_stopsAt hstop
  have hend : r.query = (start db target).after e m := by
    rw [← hm.after_eq hstop, after_add]
    exact hrun
  have hrounds : r.query.rounds = m := by
    rw [hend, hm.rounds_eq]
    exact Nat.zero_add m
  have hgrown : Grown e.rules.rules e.policies db r.query.database r.query.provenance := by
    rw [hend]
    exact (coherent_after hdb hcoh m).grown
  have hroom : r.query.database.size ≤ 2 * db.vars.length * db.vars.length :=
    hgrown.size_le_capacity hdb
  have hsize : db.size + m ≤ r.query.database.size + 1 := by
    rw [hend]
    exact hm.size_le hdb hcoh
  refine ⟨by simp [r, Run.result, hexc], hrounds ▸ hm, hrounds ▸ hend, hroom, ?_, ?_⟩ <;> omega

/-- Three variables and two facts leave room for sixteen more. Three rounds are enough, whether the
run makes them all or the first of them was made before it. -/
theorem run_within_capacity_pets :
    (let e : Engine := { rules := .syllogistic }
      let r := ((start .pets none).after e 1).run e
      r.query.rounds = 3 ∧ r.query.database.size = 13 ∧ r.result = .ok r.query.status ∧
        (start .pets none).StopsAt e r.query.rounds) ∧
    (let e : Engine := { rules := .syllogistic, settings := { maxRounds := some 17 } }
      let r := ((start .pets none).after e 0).run e
      r.query.rounds = 3 ∧ r.result = .ok r.query.status ∧
        (start .pets none).StopsAt e r.query.rounds) := by
  have hfree := run_within_capacity (e := { rules := .syllogistic }) Database.wellFormed_pets
    (by simp) none 1
  have hlimit := run_within_capacity
    (e := { rules := .syllogistic, settings := { maxRounds := some 17 } })
    Database.wellFormed_pets (by simp [Database.pets, Database.size]) none 0
  exact ⟨⟨by decide +kernel, by decide +kernel, hfree.1, hfree.2.1⟩,
    by decide +kernel, hlimit.1, hlimit.2.1⟩

end Query

end Syllogism
