import Syllogism.Problem
import Syllogism.Proofs.WellFormed

/-! What becomes of rules that are offered to a catalogue one after another, whether they are
accepted or refused: of each name the first well-formed rule is kept, in the order of the offers.
Catalogues that are read, by themselves or as part of a problem, are as well formed as these. -/
namespace Syllogism

theorem Rule.isValid_iff {r : Rule} : r.isValid = true ↔ r.validate = .ok () := by
  cases hv : r.validate <;> simp [isValid, hv, Except.isOk, Except.toBool]

namespace Catalogue

/-- The catalogue that is left behind when rules are added one after another, whatever becomes of
each. -/
def offerAll (c : Catalogue) (rs : List Rule) : Catalogue := rs.foldl (fun c r => (c.add r).2) c

theorem add_of_malformed {r : Rule} {fault : RuleFault} (h : r.validate = .error fault)
    (c : Catalogue) : c.add r = (.error (.malformedRule r.name fault), c) := by simp [add, h]

theorem add_of_taken {c : Catalogue} {r : Rule} (hv : r.validate = .ok ())
    (h : r.name ∈ c.rules.map (·.name)) : c.add r = (.error (.duplicateRule r.name), c) := by
  cases hg : c.get? r.name with
  | none => exact absurd h (get?_eq_none_iff.1 hg)
  | some s => simp [add, hv, hg]

theorem add_of_free {c : Catalogue} {r : Rule} (hv : r.validate = .ok ())
    (h : r.name ∉ c.rules.map (·.name)) :
    c.add r = (.ok (), { c with rules := c.rules ++ [r] }) :=
  (c.add_eq_ok_iff _ r).2 ⟨hv, get?_eq_none_iff.2 h, rfl⟩

/-- The three things that can come of adding a rule. -/
theorem add_cases (c : Catalogue) (r : Rule) :
    (∃ fault, r.validate = .error fault ∧
      c.add r = (.error (.malformedRule r.name fault), c)) ∨
    (r.validate = .ok () ∧ r.name ∈ c.rules.map (·.name) ∧
      c.add r = (.error (.duplicateRule r.name), c)) ∨
    (r.validate = .ok () ∧ r.name ∉ c.rules.map (·.name) ∧
      c.add r = (.ok (), { c with rules := c.rules ++ [r] })) := by
  cases hv : r.validate with
  | error fault => exact .inl ⟨fault, rfl, add_of_malformed hv c⟩
  | ok u =>
    by_cases hn : r.name ∈ c.rules.map (·.name)
    · exact .inr (.inl ⟨rfl, hn, add_of_taken hv hn⟩)
    · exact .inr (.inr ⟨rfl, hn, add_of_free hv hn⟩)

theorem add_of_error {c : Catalogue} {r : Rule} {e : Error} (h : (c.add r).1 = .error e) :
    (c.add r).2 = c := by
  rcases c.add_cases r with ⟨fault, -, hadd⟩ | ⟨-, -, hadd⟩ | ⟨-, -, hadd⟩
  · rw [hadd]
  · rw [hadd]
  · rw [hadd] at h
    cases h

/-- The first rule of each name, in order. -/
def firstOfEachName (rs : List Rule) : List Rule := rs.eraseDupsBy fun r s => r.name == s.name

theorem firstOfEachName_cons (r : Rule) (rs : List Rule) :
    firstOfEachName (r :: rs) = r :: firstOfEachName (rs.filter fun s => s.name ≠ r.name) := by
  simp [firstOfEachName, List.eraseDupsBy_cons]

/-- Behind the rules that there are come those offers that are well formed and new by name. -/
theorem rules_offerAll (c : Catalogue) (rs : List Rule) :
    (c.offerAll rs).rules = c.rules ++ firstOfEachName
      ((rs.filter Rule.isValid).filter fun r => r.name ∉ c.rules.map (·.name)) := by
  induction rs generalizing c with
  | nil => simp [offerAll, firstOfEachName]
  | cons r rs ih =>
    have hstep : c.offerAll (r :: rs) = (c.add r).2.offerAll rs := rfl
    rw [hstep, ih]
    rcases c.add_cases r with ⟨fault, hv, hadd⟩ | ⟨hv, hn, hadd⟩ | ⟨hv, hn, hadd⟩
    · rw [hadd, List.filter_cons_of_neg (by simp [Rule.isValid_iff, hv])]
    · rw [hadd, List.filter_cons_of_pos (Rule.isValid_iff.2 hv),
        List.filter_cons_of_neg (by simpa using hn)]
    · have hfilter : (rs.filter Rule.isValid).filter
          (fun s => s.name ∉ (c.rules ++ [r]).map (·.name)) =
          ((rs.filter Rule.isValid).filter fun s => s.name ∉ c.rules.map (·.name)).filter
            fun s => s.name ≠ r.name := by
        refine (List.filter_congr fun s _ => ?_).trans List.filter_filter.symm
        rw [← Bool.decide_and, decide_eq_decide, List.map_append, List.mem_append, not_or,
          and_comm]
        simp
      rw [hadd, List.filter_cons_of_pos (Rule.isValid_iff.2 hv),
        List.filter_cons_of_pos (by simpa using hn), firstOfEachName_cons, hfilter,
        List.append_assoc, List.singleton_append]

theorem WellFormed.offerAll {c : Catalogue} (h : c.WellFormed) (rs : List Rule) :
    (c.offerAll rs).WellFormed := by
  induction rs generalizing c with
  | nil => exact h
  | cons r rs ih =>
    have hstep : (c.add r).2.WellFormed := by
      cases hadd : (c.add r).1 with
      | ok u => exact h.add (Prod.ext hadd rfl)
      | error e => exact (add_of_error hadd).symm ▸ h
    exact ih hstep

theorem WellFormed.get?_eq_some_iff {c : Catalogue} (h : c.WellFormed) {name : String} {r : Rule} :
    c.get? name = some r ↔ r ∈ c.rules ∧ r.name = name := by
  constructor
  · intro hg
    exact ⟨mem_rules_of_get? hg, by simpa using List.find?_some hg⟩
  · rintro ⟨hr, rfl⟩
    exact h.get?_eq_some hr

end Catalogue

/-! ### Catalogues that are read -/

namespace Json

theorem exists_of_bind_eq_ok {ε α β : Type} {x : Except ε α} {f : α → Except ε β} {y : β}
    (h : (x >>= f) = .ok y) : ∃ a, x = .ok a ∧ f a = .ok y := by
  cases x with
  | error e => cases h
  | ok a => exact ⟨a, rfl, h⟩

theorem exists_of_map_eq_ok {ε α β : Type} {x : Except ε α} {f : α → β} {y : β}
    (h : x.map f = .ok y) : ∃ a, x = .ok a ∧ f a = y := by
  cases x with
  | error e => cases h
  | ok a => exact ⟨a, rfl, Except.ok.inj h⟩

theorem Node.unexpected_ne_ok {α : Type} (v : Node) (expected : String) (x : α) :
    v.unexpected expected ≠ .ok x := by
  unfold unexpected
  split <;> simp [failData]

theorem Node.read_of_asOption {α : Type} {reader : Node → Read α} {v : Node} {x : α}
    (h : v.asOption reader = .ok (some x)) : reader v = .ok x := by
  unfold asOption at h
  split at h
  · cases h
  · obtain ⟨y, hy, hxy⟩ := exists_of_map_eq_ok h
    rw [hy, Option.some.inj hxy]

namespace Shape

variable {ρ α : Type} {s : Shape Node ρ α} {P : ρ → Prop}

/-- To fill any of the fields keeps what is said of the parts. -/
def Keeps (s : Shape Node ρ α) (P : ρ → Prop) : Prop :=
  ∀ f ∈ s.fields, ∀ r v r', P r → f.fill r v = .ok r' → P r'

theorem finish_of_named {r : ρ} {x : α} (h : s.named r = .ok x) : s.finish r = .ok x := by
  unfold named at h
  split at h
  · next y hy => rw [hy, Except.ok.inj h]
  · cases h

theorem finish_of_listed {r : ρ} {x : α} (h : s.listed r = .ok x) : s.finish r = .ok x := by
  unfold listed at h
  split at h
  · next y hy => rw [hy, Except.ok.inj h]
  · cases h

theorem Keeps.readPart (hk : s.Keeps P) {r r' : ρ} (hr : P r) {key : String} {v : Node}
    (h : s.readPart Node.skip r key v = .ok r') : P r' := by
  unfold Shape.readPart at h
  split at h
  · obtain ⟨-, -, rfl⟩ := exists_of_map_eq_ok h
    exact hr
  · next f hf =>
    split at h
    · cases h
    · exact hk f (List.mem_of_find?_eq_some hf) r v r' hr h

theorem Keeps.readMembers (hk : s.Keeps P) {r r' : ρ} (hr : P r) {ms : List (Text × Node)}
    (h : s.readMembers r ms = .ok r') : P r' := by
  induction ms generalizing r with
  | nil => exact Except.ok.inj h ▸ hr
  | cons m ms ih =>
    obtain ⟨key, -, h⟩ := exists_of_bind_eq_ok h
    obtain ⟨q, hq, h⟩ := exists_of_bind_eq_ok h
    exact ih (hk.readPart hr hq) h

theorem readInOrder_of_forall {ending : Ending} {fs : List (Field Node ρ)}
    (hfill : ∀ f ∈ fs, ∀ r v r', P r → f.fill r v = .ok r' → P r') {r r' : ρ} (hr : P r)
    {vs : List Node} (h : readInOrder ending fs r vs = .ok r') : P r' := by
  induction fs generalizing r vs with
  | nil =>
    cases vs with
    | nil =>
      obtain ⟨-, -, rfl⟩ := exists_of_map_eq_ok h
      exact hr
    | cons v vs => cases h
  | cons f fs ih =>
    cases vs with
    | nil =>
      obtain ⟨-, -, rfl⟩ := exists_of_map_eq_ok h
      exact hr
    | cons v vs =>
      obtain ⟨q, hq, h⟩ := exists_of_bind_eq_ok h
      exact ih (fun g hg => hfill g (by simp [hg])) (hfill f (by simp) r v q hr hq) h

/-- What holds of the parts at the beginning, and whatever is filled in, holds of those that a
record is made of, in whichever way it was written. -/
theorem Keeps.exists_of_read (hk : s.Keeps P) (hblank : P s.blank) {v : Node} {x : α}
    (h : s.read v = .ok x) : ∃ r, P r ∧ s.finish r = .ok x := by
  unfold Shape.read at h
  split at h
  · obtain ⟨r, hr, h⟩ := exists_of_bind_eq_ok h
    obtain ⟨-, -, h⟩ := exists_of_bind_eq_ok h
    exact ⟨r, hk.readMembers hblank hr, finish_of_named h⟩
  · obtain ⟨r, hr, h⟩ := exists_of_bind_eq_ok h
    exact ⟨r, readInOrder_of_forall hk hblank hr, finish_of_listed h⟩
  · exact absurd h (Node.unexpected_ne_ok _ _ _)

end Shape

theorem exists_of_readString {α : Type} {reader : Node → Read α} {text : String} {x : α}
    (h : readString reader text = .ok x) : ∃ v, reader v = .ok x := by
  obtain ⟨y, hy, h⟩ := exists_of_bind_eq_ok h
  split at h
  · exact ⟨_, Except.ok.inj h ▸ hy⟩
  · cases h

end Json

open Json

theorem Catalogue.wellFormed_of_read {v : Node} {c : Catalogue} (h : read v = .ok c) :
    c.WellFormed := by
  obtain ⟨⟨name, description, rules⟩, -, h⟩ := exists_of_bind_eq_ok h
  dsimp only at h
  split at h
  · next d hd =>
    obtain ⟨hvalid, hdistinct, -, rfl⟩ := (addAll_eq_ok_iff _ _ _).1 hd
    obtain rfl := Except.ok.inj h
    exact ⟨by simpa using hvalid, by simpa using hdistinct⟩
  · cases h

theorem Problem.wellFormed_of_read {v : Node} {p : Problem} (h : read v = .ok p) {c : Catalogue}
    (hc : p.rules = some c) : c.WellFormed := by
  have hkeeps : shape.Keeps fun r => ∀ c, r.rules = some (some c) → c.WellFormed := by
    intro f hf r v r' hr hfill
    simp only [shape, List.mem_cons, List.not_mem_nil, or_false] at hf
    rcases hf with rfl | rfl | rfl | rfl <;> obtain ⟨x, hx, rfl⟩ := exists_of_map_eq_ok hfill
    · exact hr
    · exact hr
    · exact hr
    · intro c hc
      rw [Option.some.inj hc] at hx
      exact Catalogue.wellFormed_of_read (Node.read_of_asOption hx)
  obtain ⟨r, hr, hfinish⟩ := hkeeps.exists_of_read (by simp [shape]) h
  obtain ⟨labels, -, hfinish⟩ := exists_of_bind_eq_ok hfinish
  obtain ⟨target, -, hfinish⟩ := exists_of_bind_eq_ok hfinish
  obtain rfl := Except.ok.inj hfinish
  refine hr c ?_
  cases hrules : r.rules with
  | none => simp [hrules] at hc
  | some o => simpa [hrules] using hc

namespace Catalogue

/-- Offers to an empty catalogue leave in it, in order, the first well-formed rule of each name. So
its rules are well formed, its names are distinct and find the one rule that has them. The next
offer is refused if it is malformed and, failing that, if its name is taken; otherwise it goes to
the end. A refusal changes nothing, so that later offers find what they would have found without it.
Whatever catalogue is read out of a text, by itself or as part of a problem, is well formed like
this one. -/
theorem offerAll_keeps_first_of_each_name {c : Catalogue} (hc : c.rules = []) (rs : List Rule) :
    (c.offerAll rs).rules = firstOfEachName (rs.filter Rule.isValid) ∧
    (c.offerAll rs).WellFormed ∧
    (∀ n r, (c.offerAll rs).get? n = some r ↔ r ∈ (c.offerAll rs).rules ∧ r.name = n) ∧
    (∀ n, (c.offerAll rs).get? n = none ↔ n ∉ (c.offerAll rs).rules.map (·.name)) ∧
    (∀ r fault, r.validate = .error fault →
      ((c.offerAll rs).add r).1 = .error (.malformedRule r.name fault)) ∧
    (∀ r, r.validate = .ok () → r.name ∈ (c.offerAll rs).rules.map (·.name) →
      ((c.offerAll rs).add r).1 = .error (.duplicateRule r.name)) ∧
    (∀ r, r.validate = .ok () → r.name ∉ (c.offerAll rs).rules.map (·.name) →
      (c.offerAll rs).add r =
        (.ok (), { c.offerAll rs with rules := (c.offerAll rs).rules ++ [r] })) ∧
    (∀ r e, ((c.offerAll rs).add r).1 = .error e →
      ((c.offerAll rs).add r).2 = c.offerAll rs ∧
        ∀ more, c.offerAll (rs ++ r :: more) = c.offerAll (rs ++ more)) ∧
    (∀ text d, readString read text = .ok d → d.WellFormed) ∧
    (∀ text p d, Problem.ofString text = .ok p → p.rules = some d → d.WellFormed) := by
  have hempty : c.WellFormed := ⟨by simp [hc], by simp [hc]⟩
  have hwf := hempty.offerAll rs
  refine ⟨?_, hwf, fun n r => hwf.get?_eq_some_iff, fun n => get?_eq_none_iff,
    fun r fault h => congrArg Prod.fst (add_of_malformed h _),
    fun r hv hn => congrArg Prod.fst (add_of_taken hv hn), fun r hv hn => add_of_free hv hn,
    fun r e he => ⟨add_of_error he, fun more => ?_⟩, fun text d h => ?_, fun text p d h hd => ?_⟩
  · simp [rules_offerAll, hc]
  · have hsame : ((c.offerAll rs).add r).2 = c.offerAll rs := add_of_error he
    simp only [offerAll, List.foldl_append, List.foldl_cons] at hsame ⊢
    rw [hsame]
  · obtain ⟨v, hv⟩ := exists_of_readString h
    exact wellFormed_of_read hv
  · obtain ⟨v, hv⟩ := exists_of_readString h
    exact Problem.wellFormed_of_read hv hd

/-- Offers of which the first and the third are kept: the second is malformed, so its name stays
free, the fourth comes too late for that name, and the last is both malformed and too late. -/
def offers : List Rule :=
  [⟨"self", "kept", .strict, [], ⟨.universal, "x", "x"⟩⟩,
   ⟨"convert", "unbound", .strict, [⟨.particular, "x", "y"⟩], ⟨.particular, "y", "z"⟩⟩,
   ⟨"convert", "kept", .strict, [⟨.particular, "x", "y"⟩], ⟨.particular, "y", "x"⟩⟩,
   ⟨"convert", "late", .anti, [⟨.universal, "x", "y"⟩], ⟨.particular, "y", "x"⟩⟩,
   ⟨"self", "late and not strict", .anti, [], ⟨.universal, "x", "x"⟩⟩]

def selfText : String :=
  "[\"one\", \"\", [[\"self\", \"\", \"strict\", [], [\"all\", \"x\", \"x\"]]]]"

theorem offerAll_keeps_first_of_each_name_offers :
    let c := offerAll { name := "few" } offers
    let self : Policy → Rule := fun policy => ⟨"self", "", policy, [], ⟨.universal, "y", "y"⟩⟩
    c.rules.map (fun r => (r.name, r.description)) = [("self", "kept"), ("convert", "kept")] ∧
    c.WellFormed ∧
    c.add (self .anti) = (.error (.malformedRule "self" (.axiomPolicy .anti)), c) ∧
    c.add (self .strict) = (.error (.duplicateRule "self"), c) ∧
    offerAll { name := "few" } (offers ++ [self .strict, self .anti]) = c ∧
    ∃ d, readString read selfText = .ok d ∧ d.WellFormed ∧ d.length = 1 := by
  intro c self
  obtain ⟨hrules, hwf, -, -, hmalformed, htaken, -, hsame, hread, -⟩ :=
    offerAll_keeps_first_of_each_name (c := { name := "few" }) rfl offers
  have hanti := hmalformed (self .anti) (.axiomPolicy .anti) (by decide)
  have hstrict := htaken (self .strict) (by decide) (by decide)
  have htext : readString read selfText =
      .ok ⟨"one", "", [⟨"self", "", .strict, [], ⟨.universal, "x", "x"⟩⟩]⟩ := rfl
  refine ⟨?_, hwf, Prod.ext hanti (hsame _ _ hanti).1, Prod.ext hstrict (hsame _ _ hstrict).1, ?_,
    _, htext, hread _ _ htext, rfl⟩
  · rw [hrules]
    decide
  · rw [(hsame _ _ hstrict).2, (hsame _ _ hanti).2, List.append_nil]

end Catalogue

end Syllogism
