import Syllogism.Encoding.Proof
import Syllogism.Problem
import Syllogism.Proof.Verifier
import Syllogism.Proofs.Citation
import Syllogism.Proofs.JsonText
import Syllogism.Proofs.WellFormed

/-! Problems, catalogues and proofs survive being written as JSON and read again: part by part, what
is written holds natural numbers only, and the reader of the part finds in its tree what there
was. -/
namespace Syllogism

namespace Json

@[simp] theorem ok_bind {ε α β : Type} (x : α) (f : α → Except ε β) :
    (Except.ok x >>= f) = f x := rfl

@[simp] theorem map_ok {ε α β : Type} (f : α → β) (x : α) :
    (Except.ok x : Except ε α).map f = .ok (f x) := rfl

@[simp] theorem pure_eq_ok {ε α : Type} (x : α) : (pure x : Except ε α) = .ok x := rfl

@[simp] theorem demand_some {α : Type} (place : Nat) (name : String) (x : α) :
    demand place name (some x) = .ok x := rfl

/-- The numbers in the value are natural, and its tree is read as `x`. -/
structure Faithful {α : Type} (read : Node → Read α) (v : Value) (x : α) : Prop where
  whole : v.Whole
  read_toNode : read v.toNode = .ok x

namespace Faithful

variable {α : Type} {read : Node → Read α} {v : Value} {x : α}

theorem readString_render (h : Faithful read v x) : readString read v.render = .ok x := by
  simp [readString, Document.ofString_render h.whole, Document.read, h.read_toNode]

theorem readString_renderPretty (h : Faithful read v x) :
    readString read v.renderPretty = .ok x := by
  simp [readString, Document.ofString_renderPretty h.whole, Document.read, h.read_toNode]

theorem natural {n : Nat} (h : n < wordLimit) : Faithful Node.asNatural (.natural n) n := by
  refine ⟨.natural n, ?_⟩
  simp [Value.natural, Value.toNode, Node.asNatural, Numeral.read, Numeral.value?_ofNat h,
    Except.bind, Number.asNatural]

theorem list {write : α → Value} {xs : List α} (h : ∀ x ∈ xs, Faithful read (write x) x) :
    Faithful (Node.asList read) (.list (xs.map write)) xs := by
  refine ⟨.list (by simpa using fun x hx => (h x hx).whole), ?_⟩
  have hitems : Node.readItems read (Value.itemNodes (xs.map write)) = .ok xs := by
    induction xs with
    | nil => rfl
    | cons x xs ih =>
      have hx := (h x (by simp)).read_toNode
      have hxs := ih fun y hy => h y (by simp [hy])
      simp [Value.itemNodes, Node.readItems, hx, hxs]
  simp [Value.toNode, Node.asList, hitems, Ending.read]

theorem option (h : Faithful read v x) (hn : v.toNode ≠ .null) :
    Faithful (Node.asOption read) v (some x) := by
  refine ⟨h.whole, ?_⟩
  rw [Node.asOption, h.read_toNode]
  · rfl
  · exact hn

end Faithful

@[simp] theorem Node.asText_toNode (s : String) : (Value.text s).toNode.asText = .ok s := rfl

namespace Shape

variable {ρ α : Type} (s : Shape Node ρ α)

@[simp] theorem read_object (ms : List (String × Value)) :
    s.read (Value.object ms).toNode =
      s.readMembers s.blank (Value.memberNodes ms) >>= s.named := rfl

@[simp] theorem readMembers_nil (r : ρ) : s.readMembers r (Value.memberNodes []) = .ok r := rfl

@[simp] theorem readMembers_cons (r : ρ) (k : String) (v : Value) (ms : List (String × Value)) :
    s.readMembers r (Value.memberNodes ((k, v) :: ms)) =
      s.readPart Node.skip r k v.toNode >>= (s.readMembers · (Value.memberNodes ms)) := rfl

end Shape

end Json

open Json

theorem Policy.faithful (p : Policy) : Faithful Policy.read p.toJson p := by
  refine ⟨.text _, ?_⟩
  cases p <;> rfl

theorem Fact.faithful (f : Fact) : Faithful Fact.read f.toJson f := by
  refine ⟨.list (by simp [Value.Whole.text, Quantifier.toJson]), ?_⟩
  obtain ⟨q, s, o⟩ := f
  cases q <;> rfl

theorem Pattern.faithful (p : Pattern) : Faithful Pattern.read p.toJson p := by
  refine ⟨.list (by simp [Value.Whole.text, Quantifier.toJson]), ?_⟩
  obtain ⟨q, s, o⟩ := p
  cases q <;> rfl

/-! ### Catalogues -/

theorem whole_describe (s : String) : ∀ m ∈ describe s, m.2.Whole := by
  unfold describe
  split
  · simp
  · simpa using Value.Whole.text s

/-- An empty description is left out and comes back as such. -/
theorem Rule.faithful (r : Rule) : Faithful Rule.read r.toJson r := by
  have hpremises := Faithful.list fun p (_ : p ∈ r.premises) => p.faithful
  refine ⟨.object fun m hm => ?_, ?_⟩
  · simp only [List.mem_append, List.mem_cons, List.not_mem_nil, or_false] at hm
    rcases hm with (rfl | hm) | rfl | rfl | rfl
    · exact .text _
    · exact whole_describe _ m hm
    · exact .text _
    · exact hpremises.whole
    · exact r.conclusion.faithful.whole
  · obtain ⟨name, description, policy, premises, conclusion⟩ := r
    by_cases hd : description = "" <;>
      simp [read, toJson, describe, hd, shape, Shape.readPart, Shape.named,
        policy.faithful.read_toNode, hpremises.read_toNode, conclusion.faithful.read_toNode]

namespace Catalogue

/-- Catalogues that come of an empty one by adding rules, naming and describing. -/
inductive Built : Catalogue → Prop
  | empty (name : String) : Built { name }
  | add {c d : Catalogue} {r : Rule} (h : Built c) (hadd : c.add r = (.ok (), d)) : Built d
  | rename {c : Catalogue} (h : Built c) (name : String) : Built { c with name }
  | describe {c : Catalogue} (h : Built c) (description : String) : Built { c with description }

theorem Built.addAll {c d : Catalogue} {rs : List Rule} (h : c.Built) (hadd : c.addAll rs = .ok d) :
    d.Built := by
  induction rs generalizing c with
  | nil =>
    obtain rfl : c = d := by simpa [Catalogue.addAll] using hadd
    exact h
  | cons r rs ih =>
    rw [Catalogue.addAll] at hadd
    split at hadd
    · cases hadd
    · next c' hc => exact ih (h.add hc) hadd

theorem built_iff_wellFormed {c : Catalogue} : c.Built ↔ c.WellFormed := by
  constructor
  · intro h
    induction h with
    | empty name => exact ⟨by simp, by simp⟩
    | add _ hadd ih => exact ih.add hadd
    | rename _ name ih => exact ⟨ih.valid, ih.distinct⟩
    | describe _ description ih => exact ⟨ih.valid, ih.distinct⟩
  · intro h
    exact ((Built.empty c.name).describe c.description).addAll ((wellFormed_iff_addAll c).1 h)

theorem WellFormed.ofRules_eq_ok {c : Catalogue} (h : c.WellFormed) :
    ofRules c.name c.rules = .ok { c with description := "" } :=
  (addAll_eq_ok_iff _ _ _).2 ⟨h.valid, h.distinct, by simp, by simp⟩

theorem WellFormed.faithful {c : Catalogue} (h : c.WellFormed) : Faithful read c.toJson c := by
  have hrules := Faithful.list fun r (_ : r ∈ c.rules) => r.faithful
  refine ⟨.object fun m hm => ?_, ?_⟩
  · simp only [List.mem_append, List.mem_cons, List.not_mem_nil, or_false] at hm
    rcases hm with (rfl | hm) | rfl
    · exact .text _
    · exact whole_describe _ m hm
    · exact hrules.whole
  · have hparts : shape.read c.toJson.toNode = .ok (c.name, c.description, c.rules) := by
      obtain ⟨name, description, rules⟩ := c
      by_cases hd : description = "" <;>
        simp [toJson, Syllogism.describe, hd, shape, Shape.readPart, Shape.named,
          hrules.read_toNode]
    simp [read, hparts, h.ofRules_eq_ok]

end Catalogue

/-! ### Problems -/

namespace Labels

theorem insertEntry_of_not_mem {key value : String} {entries : List (String × String)}
    (h : key ∉ entries.map (·.1)) : insertEntry key value entries = entries ++ [(key, value)] := by
  induction entries with
  | nil => rfl
  | cons e es ih =>
    obtain ⟨hne, hes⟩ : ¬ key = e.1 ∧ key ∉ es.map (·.1) := by simpa using h
    simp [insertEntry, Ne.symm hne, ih hes]

theorem ofList_of_nodup {pairs : List (Variable × String)} (h : (pairs.map (·.1)).Nodup) :
    ofList pairs = ⟨pairs⟩ := by
  have hfold : ∀ l : Labels, ((l.entries ++ pairs).map (·.1)).Nodup →
      pairs.foldl (fun l p => l.insert p.1 p.2) l = ⟨l.entries ++ pairs⟩ := by
    clear h
    induction pairs with
    | nil => simp
    | cons p ps ih =>
      intro l hl
      have hnew : p.1 ∉ l.entries.map (·.1) := by
        intro hm
        simp only [List.map_append, List.map_cons] at hl
        exact (List.nodup_append.1 hl).2.2 _ hm _ (by simp) rfl
      have hinsert : l.insert p.1 p.2 = ⟨l.entries ++ [p]⟩ := by
        simp [insert, insertEntry_of_not_mem hnew]
      rw [List.foldl_cons, hinsert, ih _ (by simpa using hl)]
      simp
  exact hfold .empty h

theorem faithful {l : Labels} (h : (l.entries.map (·.1)).Nodup) : Faithful read l.toJson l := by
  refine ⟨.object fun m hm => ?_, ?_⟩
  · obtain ⟨e, -, rfl⟩ := List.mem_map.1 hm
    exact .text e.2
  have hpairs : ∀ entries : List (Variable × String), Node.readPairs
      (Value.memberNodes (entries.map fun e => (e.1, .text e.2))) = .ok entries := by
    intro entries
    induction entries with
    | nil => rfl
    | cons e es ih => simp [Value.memberNodes, Node.readPairs, Text.read, ih]
  simp [read, toJson, Value.toNode, Node.asPairs, hpairs, Ending.read, ofList_of_nodup h]

end Labels

namespace Problem

theorem faithful {p : Problem} (hl : (p.labels.entries.map (·.1)).Nodup)
    (hr : ∀ c, p.rules = some c → c.WellFormed) : Faithful read p.toJson p := by
  have hlabels := Labels.faithful hl
  have hfacts := Faithful.list fun f (_ : f ∈ p.facts) => f.faithful
  obtain ⟨labels, facts, target, rules⟩ := p
  cases rules with
  | none =>
    refine ⟨.object ?_, ?_⟩
    · simpa using ⟨hlabels.whole, hfacts.whole, target.faithful.whole⟩
    · simp [read, toJson, shape, Shape.readPart, Shape.named, hlabels.read_toNode,
        hfacts.read_toNode, target.faithful.read_toNode]
  | some c =>
    have hc := (hr c rfl).faithful
    refine ⟨.object ?_, ?_⟩
    · simpa using ⟨hlabels.whole, hfacts.whole, target.faithful.whole, hc.whole⟩
    · have hrules := hc.option (by simp [Catalogue.toJson, Value.toNode])
      simp [read, toJson, shape, Shape.readPart, Shape.named, hlabels.read_toNode,
        hfacts.read_toNode, target.faithful.read_toNode, hrules.read_toNode]

/-- A problem whose variables are distinct and whose catalogue was built rule by rule is read back
out of its text. So is the catalogue by itself: no rule that was accepted once is refused. -/
theorem ofString_toJson_render {p : Problem} (hl : (p.labels.entries.map (·.1)).Nodup)
    (hr : ∀ c, p.rules = some c → c.Built) :
    ofString p.toJson.render = .ok p ∧
      ∀ c, p.rules = some c → readString Catalogue.read c.toJson.render = .ok c := by
  have hrules : ∀ c, p.rules = some c → c.WellFormed :=
    fun c hc => Catalogue.built_iff_wellFormed.1 (hr c hc)
  refine ⟨(faithful hl hrules).readString_render, fun c hc => ?_⟩
  exact (hrules c hc).faithful.readString_render

/-- Cats under names that have to be escaped, and two rules, one of which says nothing about
itself. -/
def cats : Problem where
  labels := ⟨[("c\"at\\", "cat\n\x01"), ("", "𝔭et"), ("universe", "")]⟩
  facts := [.universal "c\"at\\" "", .particular "" "universe", .universal "c\"at\\" ""]
  target := .universal "\t" "/"
  rules := some {
    name := "\x1f"
    description := "all of\x7fit"
    rules := [⟨"barbara", "", .anti, [⟨.universal, "α", "β"⟩, ⟨.universal, "β", "γ"⟩],
        ⟨.universal, "α", "γ"⟩⟩,
      ⟨"self", "each is itself", .strict, [], ⟨.universal, "\"", "\""⟩⟩] }

theorem ofString_toJson_render_cats :
    ofString cats.toJson.render = .ok cats ∧
      ∃ c, cats.rules = some c ∧ readString Catalogue.read c.toJson.render = .ok c := by
  have hbuilt : ∀ c, cats.rules = some c → c.Built := by
    rintro c hc
    obtain rfl : _ = c := Option.some.inj hc
    exact Catalogue.built_iff_wellFormed.2 ((Catalogue.wellFormed_iff_addAll _).2 rfl)
  obtain ⟨hproblem, hcatalogue⟩ := ofString_toJson_render (p := cats) (by decide) hbuilt
  exact ⟨hproblem, _, rfl, hcatalogue _ rfl⟩

end Problem

/-! ### Proofs -/

namespace Json

section Tagged

variable {τ : Type} {tags : List (String × τ)} {room : Nat} {others : List (String × Value)}
  {v : Node} {ms : List (Text × Node)}

theorem Node.taggedMembers_tag {t : τ} (h : v.asVariantName tags = .ok t) :
    Node.taggedMembers tags room none others ((some Node.tagName, v) :: ms) =
      Node.taggedMembers tags room (some t) others ms := by
  simp [Node.taggedMembers, Text.read, h]

theorem Node.taggedMembers_other {tag : Option τ} {k : String} {x : Value}
    (hk : k ≠ Node.tagName) (h : Node.plain room v = .ok x) :
    Node.taggedMembers tags room tag others ((some k, v) :: ms) =
      Node.taggedMembers tags room tag ((k, x) :: others) ms := by
  simp [Node.taggedMembers, Text.read, hk, h]

end Tagged

theorem Node.plain_text (room : Nat) (s : String) :
    Node.plain room (Value.text s).toNode = .ok (.text s) := rfl

theorem Node.plain_naturals (room : Nat) {ns : List Nat} (h : ∀ n ∈ ns, n < wordLimit) :
    Node.plain (room + 1) (Value.list (ns.map .natural)).toNode =
      .ok (.list (ns.map .natural)) := by
  have hitems : Node.plainItems room (Value.itemNodes (ns.map .natural)) =
      .ok (ns.map .natural) := by
    induction ns with
    | nil => rfl
    | cons n ns ih =>
      have hn := Numeral.value?_ofNat (h n (by simp))
      have hns := ih fun m hm => h m (by simp [hm])
      simp [Value.natural, Value.itemNodes, Value.toNode, Node.plainItems, Node.plain,
        Numeral.read, hn, hns]
  simp [Value.toNode, Node.plain, hitems, Ending.read]

theorem Value.asList_naturals (ns : List Nat) :
    Value.asList Value.asNatural (.list (ns.map .natural)) = .ok ns := by
  rw [Value.asList]
  induction ns with
  | nil => rfl
  | cons n ns ih => simp [Value.readItems, Value.natural, Value.asNatural, Number.asNatural, ih]

end Json

theorem Justification.faithful {j : Justification} (h : ∀ n ∈ j.cites, n < wordLimit) (room : Nat) :
    Faithful (Justification.readIn (room + 2)) j.toJson j := by
  cases j with
  | given => exact ⟨.object (by simpa using Value.Whole.text "given"), rfl⟩
  | axiomatic rule => exact ⟨.object (by simp [Value.Whole.text]), rfl⟩
  | inferred rule ns =>
    refine ⟨.object ?_, ?_⟩
    · have hnumbers : (Value.list (ns.map .natural)).Whole :=
        .list (by simpa using fun n _ => Value.Whole.natural n)
      simpa [Value.Whole.text] using hnumbers
    · -- everything but the tag is kept as plain JSON until the tag is known
      have hmembers : Node.taggedMembers OriginKind.variants (room + 1) none [] (Value.memberNodes
          [("kind", .text "rule"), ("rule", .text rule), ("premises", .list (ns.map .natural))]) =
          .ok (some .inferred, [("premises", .list (ns.map .natural)), ("rule", .text rule)]) := by
        refine (Node.taggedMembers_tag (t := OriginKind.inferred) rfl).trans ?_
        refine (Node.taggedMembers_other (by decide) (Node.plain_text _ rule)).trans ?_
        exact Node.taggedMembers_other (by decide) (Node.plain_naturals room h)
      have htagged : (inferred rule ns).toJson.toNode.asTagged
          "internally tagged enum Justification" OriginKind.variants (room + 2) = .ok (.inferred,
            .object [("rule", .text rule), ("premises", .list (ns.map .natural))]) := by
        rw [toJson, Value.toNode, Node.asTagged, if_neg (by omega)]
        simp [hmembers, Ending.read]
      simp [readIn, htagged, ApplicationParts.inferenceShape, ApplicationParts.ruleField,
        ApplicationParts.premisesField, Shape.readPlain, Shape.plainMembers, Shape.readPart,
        Shape.named, Value.asText, Value.asList_naturals]

theorem Line.faithful {l : Line} (hn : l.number < wordLimit) (hc : ∀ n ∈ l.cites, n < wordLimit)
    (room : Nat) : Faithful (Line.readIn (room + 3)) l.toJson l := by
  have hnumber := Faithful.natural hn
  have hj := Justification.faithful hc room
  refine ⟨.object ?_, ?_⟩
  · simpa using ⟨hnumber.whole, l.fact.faithful.whole, hj.whole⟩
  · simp [readIn, toJson, shape, Shape.readPart, Shape.named, hnumber.read_toNode,
      l.fact.faithful.read_toNode, hj.read_toNode]

theorem Instant.faithful {t u : Instant} (h : ofString t.render = .ok u) :
    Faithful read t.toJson u := by
  refine ⟨.text _, ?_⟩
  simp [read, toJson, Value.toNode, Text.read, h]

namespace Proof

def FitsWords (p : Proof) : Prop :=
  p.rounds < wordLimit ∧ ∀ l ∈ p.steps, l.number < wordLimit ∧ ∀ n ∈ l.cites, n < wordLimit

theorem faithful {p : Proof} (h : p.FitsWords) {t : Instant}
    (ht : Instant.ofString p.generatedAt.render = .ok t) :
    Faithful read p.toJson { p with generatedAt := t } := by
  have hsteps : Faithful (Node.asList (Line.readIn (maxDepth - 2)))
      (.list (p.steps.map Line.toJson)) p.steps :=
    .list fun l hl => Line.faithful (h.2 l hl).1 (h.2 l hl).2 122
  have hrounds := Faithful.natural h.1
  have htime := Instant.faithful ht
  refine ⟨.object ?_, ?_⟩
  · simpa using ⟨p.target.faithful.whole, hsteps.whole, hrounds.whole, htime.whole⟩
  · simp [read, toJson, shape, Shape.readPart, Shape.named, p.target.faithful.read_toNode,
      hsteps.read_toNode, hrounds.read_toNode, htime.read_toNode]

/-- A proof whose numbers fit machine words is read back out of its text with the same target, lines
and rounds, and every verifier finds the same faults in it, provided that its time is read at
all. -/
theorem readString_renderJson {p : Proof} (h : p.FitsWords) {t : Instant}
    (ht : Instant.ofString p.generatedAt.render = .ok t) :
    ∃ q, readString read p.renderJson = .ok q ∧ q.target = p.target ∧ q.steps = p.steps ∧
      q.rounds = p.rounds ∧ q.generatedAt = t ∧
      ∀ v : Verifier, v.faults q = v.faults p ∧ v.verify q = v.verify p :=
  ⟨{ p with generatedAt := t }, (faithful h ht).readString_renderPretty, rfl, rfl, rfl, rfl,
    fun _ => ⟨rfl, rfl⟩⟩

/-- A proof that no verifier accepts: its numbers are as large as they can be, and it cites lines
that are not there. -/
def stray : Proof where
  target := .universal "cat" "\u00e9\"\\"
  steps := [⟨18446744073709551615, .particular "\n" "cat", .inferred "" [0, 18446744073709551615]⟩,
    ⟨0, .universal "cat" "𝔭et", .axiomatic "\x00"⟩, ⟨7, .universal "cat" "cat", .given⟩]
  rounds := 18446744073709551615
  generatedAt := ⟨2026, 2, 28, 23, 59, 60, 120⟩

theorem readString_renderJson_stray :
    stray.FitsWords ∧ ∃ q, readString read stray.renderJson = .ok q ∧ q = stray ∧
      ∀ v : Verifier, v.faults q = v.faults stray := by
  have hfits : stray.FitsWords := by
    unfold FitsWords
    decide +kernel
  have htime : Instant.ofString stray.generatedAt.render = .ok stray.generatedAt := by
    decide +kernel
  obtain ⟨q, hread, htarget, hsteps, hrounds, hat, hfaults⟩ := readString_renderJson hfits htime
  refine ⟨hfits, q, hread, ?_, fun v => (hfaults v).1⟩
  obtain ⟨target, steps, rounds, generatedAt⟩ := q
  simp_all

end Proof

end Syllogism
