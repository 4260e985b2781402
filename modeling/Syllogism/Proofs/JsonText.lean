import Mathlib.Tactic.SplitIfs
import Syllogism.Json.Node
import Syllogism.Json.Value

/-! Written JSON is read back. Without any space and over several lines alike, the text of a value
whose numbers are natural scans into the same tokens, and these build the tree of the value. -/
namespace Syllogism.Json

/-- Every number in the value is natural. -/
inductive Value.Whole : Value → Prop
  | null : Whole .null
  | truth (b : Bool) : Whole (.truth b)
  | natural (n : Nat) : Whole (.natural n)
  | text (s : String) : Whole (.text s)
  | list {items : List Value} (h : ∀ v ∈ items, Whole v) : Whole (.list items)
  | object {members : List (String × Value)} (h : ∀ m ∈ members, Whole m.2) :
      Whole (.object members)

def Numeral.ofNat (n : Nat) : Numeral :=
  { whole := (Nat.toDigits 10 n).map fun c => c.toNat - '0'.toNat }

namespace Numeral

theorem length_whole_ofNat (n : Nat) : (ofNat n).whole.length = (Nat.toDigits 10 n).length := by
  simp [ofNat]

theorem whole_ofNat_of_lt {n : Nat} (h : n < 10) : (ofNat n).whole = [n] := by
  simp [ofNat, Nat.toDigits_of_lt_base h, Nat.toNat_digitChar_of_lt_ten h]

theorem whole_ofNat_of_le {n : Nat} (h : 10 ≤ n) :
    (ofNat n).whole = (ofNat (n / 10)).whole ++ [n % 10] := by
  have hlt : n % 10 < 10 := Nat.mod_lt _ (by decide)
  simp [ofNat, Nat.toDigits_of_base_le (by decide) h, Nat.toNat_digitChar_of_lt_ten hlt]

theorem head?_whole_ofNat {n : Nat} (h : 0 < n) : ∃ d, (ofNat n).whole.head? = some (d + 1) := by
  induction n using Nat.strongRecOn with
  | ind n ih =>
    by_cases hn : n < 10
    · obtain ⟨d, rfl⟩ : ∃ d, n = d + 1 := ⟨n - 1, by omega⟩
      exact ⟨d, by simp [whole_ofNat_of_lt hn]⟩
    · obtain ⟨d, hd⟩ := ih (n / 10) (by omega) (by omega)
      exact ⟨d, by simp [whole_ofNat_of_le (by omega : 10 ≤ n), hd]⟩

theorem ofDigits_whole_ofNat (n : Nat) : ofDigits (ofNat n).whole = n := by
  induction n using Nat.strongRecOn with
  | ind n ih =>
    by_cases hn : n < 10
    · simp [whole_ofNat_of_lt hn, ofDigits]
    · have hstep := ih (n / 10) (by omega)
      rw [ofDigits] at hstep
      rw [whole_ofNat_of_le (by omega), ofDigits, List.foldl_append, hstep]
      simp only [List.foldl_cons, List.foldl_nil]
      omega

theorem value?_ofNat {n : Nat} (h : n < wordLimit) : (ofNat n).value? = some (.natural n) := by
  have hvalue := ofDigits_whole_ofNat n
  unfold value?
  rw [hvalue]
  simp [ofNat, h]

end Numeral

namespace Token

theorem scan_append (cs rest : List Char) : scan cs.length (cs ++ rest) = scan 0 rest := by
  induction cs with
  | nil => rfl
  | cons c cs ih => exact ih

theorem scan_space {c : Char} (h : isSpace c = true) (rest : List Char) :
    scan 0 (c :: rest) = scan 0 rest := by
  rw [scan, if_pos h]

theorem scan_token {c : Char} {cs rest : List Char} {t : Token} (hc : isSpace c = false)
    (ht : t.isFlawed = false) (h : lex c (cs ++ rest) = (t, cs.length)) :
    scan 0 (c :: cs ++ rest) = t :: scan 0 rest := by
  simp [scan, hc, h, ht, scan_append]

/-! ### Strings -/

theorem escapeChar_cases (c : Char) :
    (∃ e, escapeChar c = ['\\', e] ∧ shortEscape? e = some c) ∨
    (c.toNat < 0x20 ∧ escapeChar c =
      ['\\', 'u', '0', '0', Nat.digitChar (c.toNat / 16), Nat.digitChar (c.toNat % 16)]) ∨
    (escapeChar c = [c] ∧ c ≠ '"' ∧ c ≠ '\\' ∧ ¬ c.toNat < 0x20) := by
  -- the definition is split once, not at each of its places in the statement
  generalize hcs : escapeChar c = cs
  unfold escapeChar at hcs
  split_ifs at hcs with h₁ h₂ h₃ h₄ h₅ h₆ h₇ h₈ <;> subst hcs
  iterate 7 exact .inl ⟨_, rfl, by simp [shortEscape?, *]⟩
  · exact .inr (.inl ⟨h₈, rfl⟩)
  · exact .inr (.inr ⟨rfl, h₁, h₂, h₈⟩)

theorem scanText_short {c e : Char} (h : shortEscape? e = some c) (cs : List Char) :
    scanText ('\\' :: e :: cs) = (.char c :: (scanText cs).1, (scanText cs).2.map (· + 2)) := by
  have hu : e ≠ 'u' := by
    rintro rfl
    simp [shortEscape?] at h
  rw [scanText, h]
  rintro _ _ _ _ _ he
  exact absurd he hu

theorem scanText_plain {c : Char} (hq : c ≠ '"') (hb : c ≠ '\\') (hc : ¬ c.toNat < 0x20)
    (cs : List Char) :
    scanText (c :: cs) = (.char c :: (scanText cs).1, (scanText cs).2.map (· + 1)) := by
  rw [scanText, if_neg hc]
  · exact hq
  all_goals simp [hb]

theorem hexUnit?_control : ∀ n < 0x20,
    hexUnit? '0' '0' (Nat.digitChar (n / 16)) (Nat.digitChar (n % 16)) = some n := by
  decide

theorem exists_piece (c : Char) : ∃ p,
    (∀ ps, Piece.decode (p :: ps) = (Piece.decode ps).map (c :: ·)) ∧
    ∀ cs, scanText (escapeChar c ++ cs) =
      (p :: (scanText cs).1, (scanText cs).2.map (· + (escapeChar c).length)) := by
  rcases escapeChar_cases c with ⟨e, he, hc⟩ | ⟨hc, he⟩ | ⟨he, hq, hb, hc⟩
  · exact ⟨.char c, fun ps => rfl, fun cs => by simp [he, scanText_short hc]⟩
  · refine ⟨.unit c.toNat, fun ps => ?_, fun cs => ?_⟩
    · have hhigh : Piece.isHigh c.toNat = false := by simp [Piece.isHigh]; omega
      have hlow : Piece.isLow c.toNat = false := by simp [Piece.isLow]; omega
      rw [Piece.decode.eq_def]
      simp [hhigh, hlow, Char.ofNat_toNat]
    · simp [he, scanText, hexUnit?_control _ hc]
  · exact ⟨.char c, fun ps => rfl, fun cs => by simp [he, scanText_plain hq hb hc]⟩

theorem exists_pieces (cs rest : List Char) : ∃ ps, Piece.decode ps = some cs ∧
    scanText (cs.flatMap escapeChar ++ '"' :: rest) =
      (ps, .ok ((cs.flatMap escapeChar).length + 1)) := by
  induction cs with
  | nil => exact ⟨[], rfl, by simp [scanText]⟩
  | cons c cs ih =>
    obtain ⟨ps, hdecode, hscan⟩ := ih
    obtain ⟨p, hp, hc⟩ := exists_piece c
    refine ⟨p :: ps, by simp [hp, hdecode], ?_⟩
    rw [List.flatMap_cons, List.append_assoc, hc, hscan]
    refine congrArg (fun n => (p :: ps, Except.ok n)) ?_
    simp only [List.length_append]
    omega

theorem scan_text (s : String) (rest : List Char) :
    scan 0 (escapeText s ++ rest) = .text (some s) :: scan 0 rest := by
  obtain ⟨ps, hdecode, hscan⟩ := exists_pieces s.toList rest
  have hlex : lex '"' ((s.toList.flatMap escapeChar ++ ['"']) ++ rest) =
      (.text (some s), (s.toList.flatMap escapeChar ++ ['"']).length) := by
    simp [lex, lexText, hscan, hdecode]
  exact scan_token rfl rfl hlex

/-! ### Numbers -/

/-- A number that stands in front of these characters ends there. -/
def endsNumber : List Char → Bool
  | [] => true
  | c :: _ => !(c.isDigit || c = '.' || c = 'e' || c = 'E')

theorem ne_of_eq_false {p : Char → Bool} {c d : Char} (hc : p c = true) (hd : p d = false) :
    c ≠ d := by
  rintro rfl
  rw [hc] at hd
  cases hd

theorem isSpace_of_isDigit {c : Char} (h : c.isDigit = true) : isSpace c = false := by
  have hne (d : Char) (hd : d.isDigit = false) : c ≠ d := ne_of_eq_false h hd
  simp [isSpace, hne ' ' rfl, hne '\n' rfl, hne '\t' rfl, hne '\x0d' rfl]

theorem takeDigits_toDigits (n : Nat) {rest : List Char} (h : endsNumber rest = true) :
    takeDigits (Nat.toDigits 10 n ++ rest) = (Numeral.ofNat n).whole := by
  have hrest : rest.takeWhile Char.isDigit = [] := by
    cases rest with
    | nil => rfl
    | cons c cs => simp_all [endsNumber]
  have hdigits : ∀ c ∈ Nat.toDigits 10 n, c.isDigit = true := fun c hc =>
    Nat.isDigit_of_mem_toDigits (by decide) (by decide) hc
  rw [takeDigits, List.takeWhile_append_of_pos hdigits, hrest, List.append_nil, Numeral.ofNat]

theorem lexFraction_of_endsNumber {m : Numeral} {used : Nat} {rest : List Char}
    (h : endsNumber rest = true) : lexFraction m used rest = (.number m, used) := by
  cases rest with
  | nil => simp [lexFraction, lexExponent]
  | cons c cs =>
    simp only [endsNumber, Bool.not_eq_true', Bool.or_eq_false_iff, decide_eq_false_iff_not] at h
    simp [lexFraction, lexExponent, h]

theorem lexNumber_toDigits (n : Nat) {rest : List Char} (h : endsNumber rest = true) :
    lexNumber false (Nat.toDigits 10 n ++ rest) =
      (.number (.ofNat n), (Nat.toDigits 10 n).length) := by
  have hne : (Numeral.ofNat n).whole ≠ [] := by simp [Numeral.ofNat, Nat.toDigits_ne_nil]
  have hzero : ¬ ((Numeral.ofNat n).whole.head? = some 0 ∧ 1 < (Nat.toDigits 10 n).length) := by
    rintro ⟨hhead, hlength⟩
    rcases Nat.eq_zero_or_pos n with rfl | hn
    · simp at hlength
    · obtain ⟨d, hd⟩ := Numeral.head?_whole_ofNat hn
      simp [hhead] at hd
  simp only [lexNumber, takeDigits_toDigits n h, List.isEmpty_iff, hne, if_false,
    Bool.and_eq_true, decide_eq_true_eq, hzero, Numeral.length_whole_ofNat, List.drop_left,
    lexFraction_of_endsNumber h]
  rfl

theorem lex_digit {c : Char} (h : c.isDigit = true) (cs : List Char) :
    lex c cs = ((lexNumber false (c :: cs)).1, (lexNumber false (c :: cs)).2 - 1) := by
  have hne (d : Char) (hd : d.isDigit = false) : c ≠ d := ne_of_eq_false h hd
  simp [lex, h, hne '[' rfl, hne ']' rfl, hne '\x7b' rfl, hne '\x7d' rfl, hne ',' rfl, hne ':' rfl,
    hne '"' rfl, hne '-' rfl]

theorem scan_natural (n : Nat) {rest : List Char} (h : endsNumber rest = true) :
    scan 0 ((toString n).toList ++ rest) = .number (.ofNat n) :: scan 0 rest := by
  rw [Nat.toString_eq_ofList_toDigits, String.toList_ofList]
  have hlex := lexNumber_toDigits n h
  cases hn : Nat.toDigits 10 n with
  | nil => exact absurd hn Nat.toDigits_ne_nil
  | cons c cs =>
    have hmem : c ∈ Nat.toDigits 10 n := by simp [hn]
    have hc := Nat.isDigit_of_mem_toDigits (by decide) (by decide) hmem
    refine scan_token (isSpace_of_isDigit hc) rfl ?_
    rw [hn] at hlex
    rw [lex_digit hc, ← List.cons_append, hlex]
    simp

/-! ### Values -/

theorem endsNumber_append {cs rest : List Char} (h : endsNumber cs = true)
    (hr : endsNumber rest = true) : endsNumber (cs ++ rest) = true := by
  cases cs with
  | nil => exact hr
  | cons c cs => exact h

inductive Mark : Char → Token → Prop
  | openList : Mark '[' .openList
  | closeList : Mark ']' .closeList
  | openObject : Mark '\x7b' .openObject
  | closeObject : Mark '\x7d' .closeObject
  | comma : Mark ',' .comma
  | colon : Mark ':' .colon

/-- Wherever the characters stand, unless they go on as part of a number, they scan into the
tokens. -/
def Spells (cs : List Char) (ts : List Token) : Prop :=
  ∀ rest, endsNumber rest = true → scan 0 (cs ++ rest) = ts ++ scan 0 rest

namespace Spells

variable {cs ds : List Char} {ts us : List Token}

theorem nil : Spells [] [] := fun _ _ => rfl

theorem append (h : Spells cs ts) (hd : Spells ds us) (he : endsNumber ds = true) :
    Spells (cs ++ ds) (ts ++ us) := by
  intro rest hr
  rw [List.append_assoc, h _ (endsNumber_append he hr), hd rest hr, List.append_assoc]

theorem space {c : Char} (hc : isSpace c = true) (h : Spells cs ts) : Spells (c :: cs) ts := by
  intro rest hr
  rw [List.cons_append, scan_space hc, h rest hr]

theorem mark {c : Char} {t : Token} (hm : Mark c t) (h : Spells cs ts) :
    Spells (c :: cs) (t :: ts) := by
  intro rest hr
  rw [List.cons_append, List.cons_append, ← h rest hr]
  cases hm <;> exact @scan_token _ [] (cs ++ rest) _ rfl rfl rfl

theorem text (s : String) (h : Spells cs ts) :
    Spells (escapeText s ++ cs) (.text (some s) :: ts) := by
  intro rest hr
  rw [List.append_assoc, scan_text, h rest hr, List.cons_append]

theorem newLine (depth : Nat) (h : Spells cs ts) : Spells (Value.newLine depth ++ cs) ts := by
  have hspaces : ∀ n, Spells (List.replicate n ' ' ++ cs) ts := by
    intro n
    induction n with
    | zero => exact h
    | succ n ih => exact ih.space rfl
  exact (hspaces _).space rfl

theorem word {c : Char} {t : Token} (hlex : ∀ rest, lex c (cs ++ rest) = (t, cs.length))
    (hc : isSpace c = false) (ht : t.isFlawed = false) : Spells (c :: cs) [t] :=
  fun rest _ => scan_token hc ht (hlex rest)

end Spells

end Token

namespace Value

open Token (Spells)

mutual

def tokens : Value → List Token
  | null => [.null]
  | truth b => [.truth b]
  | number (.natural n) => [.number (.ofNat n)]
  | number _ => []
  | text s => [.text (some s)]
  | list items => .openList :: itemTokens items
  | object members => .openObject :: memberTokens members

def itemTokens : List Value → List Token
  | [] => [.closeList]
  | [v] => tokens v ++ [.closeList]
  | v :: vs => tokens v ++ .comma :: itemTokens vs

def memberTokens : List (String × Value) → List Token
  | [] => [.closeObject]
  | [(k, v)] => .text (some k) :: .colon :: (tokens v ++ [.closeObject])
  | (k, v) :: ms => .text (some k) :: .colon :: (tokens v ++ .comma :: memberTokens ms)

end

theorem spells_null : Spells (scalar null) [.null] := .word (fun _ => rfl) rfl rfl

theorem spells_truth (b : Bool) : Spells (scalar (truth b)) [.truth b] := by
  cases b with
  | true => exact .word (fun _ => rfl) rfl rfl
  | false => exact .word (fun _ => rfl) rfl rfl

theorem spells_natural (n : Nat) : Spells (scalar (natural n)) [.number (.ofNat n)] :=
  fun _ hr => Token.scan_natural n hr

theorem spells_text (s : String) : Spells (scalar (text s)) [.text (some s)] :=
  fun rest _ => Token.scan_text s rest

theorem spells_compactItems {items : List Value} (h : ∀ v ∈ items, Spells v.compact v.tokens) :
    Spells (compactItems items) (itemTokens items) := by
  induction items with
  | nil => exact Spells.nil.mark .closeList
  | cons v vs ih =>
    have hv := h v (by simp)
    cases vs with
    | nil => exact hv.append (Spells.nil.mark .closeList) rfl
    | cons w vs =>
      have hvs := ih fun x hx => h x (by simp [hx])
      exact hv.append (hvs.mark .comma) rfl

theorem spells_compactMembers {members : List (String × Value)}
    (h : ∀ m ∈ members, Spells m.2.compact m.2.tokens) :
    Spells (compactMembers members) (memberTokens members) := by
  induction members with
  | nil => exact Spells.nil.mark .closeObject
  | cons m ms ih =>
    obtain ⟨k, v⟩ := m
    have hv : Spells v.compact v.tokens := h (k, v) (by simp)
    cases ms with
    | nil =>
      have hlast := hv.append (Spells.nil.mark .closeObject) rfl
      simpa [compactMembers, memberTokens] using (hlast.mark .colon).text k
    | cons n ms =>
      have hms := ih fun x hx => h x (by simp [hx])
      have hrest := hv.append (hms.mark .comma) rfl
      simpa [compactMembers, memberTokens] using (hrest.mark .colon).text k

theorem spells_compact {v : Value} (h : v.Whole) : Spells v.compact v.tokens := by
  induction h with
  | null => exact spells_null
  | truth b => exact spells_truth b
  | natural n => exact spells_natural n
  | text s => exact spells_text s
  | list _ ih => exact (spells_compactItems ih).mark .openList
  | object _ ih => exact (spells_compactMembers ih).mark .openObject

theorem spells_prettyItems {depth : Nat} {items : List Value}
    (h : ∀ v ∈ items, Spells (v.prettyAt (depth + 1)) v.tokens) :
    Spells (prettyItems depth items) (itemTokens items) := by
  induction items with
  | nil => exact Spells.nil.mark .closeList
  | cons v vs ih =>
    have hv := h v (by simp)
    cases vs with
    | nil =>
      have hlast := hv.append ((Spells.nil.mark .closeList).newLine depth) rfl
      simpa [prettyItems, itemTokens] using hlast.newLine (depth + 1)
    | cons w vs =>
      have hvs := ih fun x hx => h x (by simp [hx])
      have hrest := hv.append (hvs.mark .comma) rfl
      simpa [prettyItems, itemTokens] using hrest.newLine (depth + 1)

theorem spells_prettyMembers {depth : Nat} {members : List (String × Value)}
    (h : ∀ m ∈ members, Spells (m.2.prettyAt (depth + 1)) m.2.tokens) :
    Spells (prettyMembers depth members) (memberTokens members) := by
  induction members with
  | nil => exact Spells.nil.mark .closeObject
  | cons m ms ih =>
    obtain ⟨k, v⟩ := m
    have hv : Spells (v.prettyAt (depth + 1)) v.tokens := h (k, v) (by simp)
    have hkey {cs : List Char} {ts : List Token} (hr : Spells cs ts) :
        Spells (newLine (depth + 1) ++ (escapeText k ++ ':' :: ' ' :: cs))
          (.text (some k) :: .colon :: ts) :=
      (((hr.space rfl).mark .colon).text k).newLine (depth + 1)
    cases ms with
    | nil =>
      have hlast := hv.append ((Spells.nil.mark .closeObject).newLine depth) rfl
      simpa [prettyMembers, memberTokens] using hkey hlast
    | cons n ms =>
      have hms := ih fun x hx => h x (by simp [hx])
      simpa [prettyMembers, memberTokens] using hkey (hv.append (hms.mark .comma) rfl)

/-- Line breaks and indentation make no difference to the tokens. -/
theorem spells_prettyAt {v : Value} (h : v.Whole) (depth : Nat) :
    Spells (v.prettyAt depth) v.tokens := by
  induction h generalizing depth with
  | null => exact spells_null
  | truth b => exact spells_truth b
  | natural n => exact spells_natural n
  | text s => exact spells_text s
  | list _ ih => exact (spells_prettyItems fun v hv => ih v hv (depth + 1)).mark .openList
  | object _ ih => exact (spells_prettyMembers fun m hm => ih m hm (depth + 1)).mark .openObject

end Value

/-! ### Trees -/

/-- Where the first item of a list is due, any other token than its end is taken like a value. -/
theorem Building.step_firstItem {t : Token} (h : t ≠ .closeList) (stack : List Frame) :
    (Building.reading stack .firstItem).step t = (Building.reading stack .value).step t := by
  unfold step
  split <;> simp_all

namespace Value

mutual

def toNode : Value → Node
  | null => .null
  | truth b => .truth b
  | number (.natural n) => .number (.ofNat n)
  | number _ => .missing
  | text s => .text (some s)
  | list items => .list (itemNodes items) .closed
  | object members => .object (memberNodes members) .closed

def itemNodes : List Value → List Node
  | [] => []
  | v :: vs => toNode v :: itemNodes vs

def memberNodes : List (String × Value) → List (Text × Node)
  | [] => []
  | (k, v) :: ms => (some k, toNode v) :: memberNodes ms

end

/-- The tokens take the building from a place where a value is due to the place behind it. -/
def Builds (v : Value) : Prop :=
  ∀ stack, v.tokens.foldl Building.step (.reading stack .value) = .reading stack (.after v.toNode)

theorem foldl_itemTokens {v : Value} {vs : List Value} (h : ∀ x ∈ v :: vs, x.Builds)
    (done : List Node) (stack : List Frame) :
    (itemTokens (v :: vs)).foldl Building.step (.reading (.list done :: stack) .value) =
      .reading stack (.after (.list (done.reverse ++ itemNodes (v :: vs)) .closed)) := by
  -- an item moves from the tokens to `done`, where the latest comes first
  induction vs generalizing v done with
  | nil =>
    have hv := h v (by simp)
    simp [itemTokens, hv (.list done :: stack), Building.step, Building.stepAfter, itemNodes]
  | cons w vs ih =>
    have hv := h v (by simp)
    rw [itemTokens, List.foldl_append, hv, List.foldl_cons]
    · refine (ih (fun x hx => h x (by simp [hx])) (v.toNode :: done)).trans ?_
      simp [itemNodes]
    · simp

theorem foldl_memberTokens {m : String × Value} {ms : List (String × Value)}
    (h : ∀ x ∈ m :: ms, x.2.Builds) (done : List (Text × Node)) (first : Bool)
    (stack : List Frame) :
    (memberTokens (m :: ms)).foldl Building.step (.reading stack (.key done first)) =
      .reading stack (.after (.object (done.reverse ++ memberNodes (m :: ms)) .closed)) := by
  induction ms generalizing m done first with
  | nil =>
    obtain ⟨k, v⟩ := m
    have hv : v.Builds := h (k, v) (by simp)
    simp [memberTokens, Building.step, Building.stepKey, hv (.object done k :: stack),
      Building.stepAfter, memberNodes]
  | cons n ms ih =>
    obtain ⟨k, v⟩ := m
    have hv : v.Builds := h (k, v) (by simp)
    have hkey : ((Building.reading stack (.key done first)).step (.text (some k))).step .colon =
        .reading (.object done k :: stack) .value := rfl
    rw [memberTokens, List.foldl_cons, List.foldl_cons, List.foldl_append, hkey, hv,
      List.foldl_cons]
    · refine (ih (fun x hx => h x (by simp [hx])) ((some k, v.toNode) :: done) false).trans ?_
      simp [memberNodes]
    · simp

theorem exists_itemTokens {v : Value} (h : v.Whole) (vs : List Value) :
    ∃ t ts, itemTokens (v :: vs) = t :: ts ∧ t ≠ .closeList := by
  have hv : ∃ t ts, v.tokens = t :: ts ∧ t ≠ .closeList := by
    cases h <;> exact ⟨_, _, rfl, by simp⟩
  obtain ⟨t, ts, hts, ht⟩ := hv
  cases vs with
  | nil => exact ⟨t, ts ++ [.closeList], by simp [itemTokens, hts], ht⟩
  | cons w vs => exact ⟨t, ts ++ .comma :: itemTokens (w :: vs), by simp [itemTokens, hts], ht⟩

theorem builds_of_whole {v : Value} (h : v.Whole) : v.Builds := by
  induction h with
  | null => exact fun stack => rfl
  | truth b => exact fun stack => rfl
  | natural n => exact fun stack => rfl
  | text s => exact fun stack => rfl
  | @list items hs ih =>
    intro stack
    cases items with
    | nil => rfl
    | cons v vs =>
      refine Eq.trans ?_ (foldl_itemTokens ih [] stack)
      obtain ⟨t, ts, hts, ht⟩ := exists_itemTokens (hs v (by simp)) vs
      rw [tokens, List.foldl_cons, hts, List.foldl_cons, List.foldl_cons]
      exact congrArg (List.foldl _ · ts) (Building.step_firstItem ht (.list [] :: stack))
  | @object members _ ih =>
    intro stack
    cases members with
    | nil => rfl
    | cons m ms => exact foldl_memberTokens ih [] true stack

end Value

theorem Document.ofString_render {v : Value} (h : v.Whole) :
    Document.ofString v.render = ⟨v.toNode, true⟩ := by
  have hscan := Value.spells_compact h [] rfl
  have hbuild := Value.builds_of_whole h []
  simp only [List.append_nil, Token.scan] at hscan
  rw [ofString, Token.ofString, Value.render, String.toList_ofList, hscan, ofTokens, Building.start,
    hbuild, Building.finish]

theorem Document.ofString_renderPretty {v : Value} (h : v.Whole) :
    Document.ofString v.renderPretty = ⟨v.toNode, true⟩ := by
  have hscan := Value.spells_prettyAt h 0 [] rfl
  have hbuild := Value.builds_of_whole h []
  simp only [List.append_nil, Token.scan] at hscan
  rw [ofString, Token.ofString, Value.renderPretty, String.toList_ofList, hscan, ofTokens,
    Building.start, hbuild, Building.finish]

end Syllogism.Json
