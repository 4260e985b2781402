import Mathlib.Data.List.Basic
import Syllogism.Proofs.JsonText
import Syllogism.Settings.Toml

/-! Written TOML is read back, line by line: a line that is blank, assigns a plain value or names a
table is read as what it tells, so a document of such lines carries out their statements in order.
Valid settings are written as such a document, and so they come back unchanged. -/
namespace Syllogism

namespace Toml

open Json.Token (ne_of_eq_false)

/-! ### Atoms -/

theorem not_mem_toDigits {c : Char} (hc : c.isDigit = false) (n : Nat) : c ∉ Nat.toDigits 10 n :=
  fun h => ne_of_eq_false (Nat.isDigit_of_mem_toDigits (by decide) (by decide) h) hc rfl

theorem digits?_of_forall {p : Char → Bool} (hbar : p '_' = false) {cs : List Char}
    (hne : cs ≠ []) (h : ∀ c ∈ cs, p c = true) : digits? p cs = some cs := by
  induction cs with
  | nil => exact absurd rfl hne
  | cons c cs ih =>
    have hc := h c (by simp)
    cases cs with
    | nil => simp [digits?, hc]
    | cons d cs =>
      have hd : d ≠ '_' := ne_of_eq_false (h d (by simp)) hbar
      have hcs := ih (by simp) fun x hx => h x (by simp [hx])
      rw [digits?]
      · simp [hc, hcs]
      · simp
      · simpa using fun hx => absurd hx hd

theorem digitValue_of_isDigit {c : Char} (h : c.isDigit = true) :
    digitValue c = c.toNat - '0'.toNat := by
  simp [digitValue, hexValue?, h]

theorem valueIn_toDigits (n : Nat) : valueIn 10 (Nat.toDigits 10 n) = n := by
  have hfold : valueIn 10 (Nat.toDigits 10 n) = Nat.ofDigitChars 10 (Nat.toDigits 10 n) 0 := by
    rw [valueIn, Nat.ofDigitChars_eq_foldl]
    refine List.foldl_ext _ _ 0 fun m c hc => ?_
    have hdigit := Nat.isDigit_of_mem_toDigits (by decide) (by decide) hc
    rw [digitValue_of_isDigit hdigit, Nat.mul_comm]
  rw [hfold, Nat.ofDigitChars_ten_toDigits]

theorem noLeadingZero_toDigits (n : Nat) : noLeadingZero (Nat.toDigits 10 n) = true := by
  rcases Nat.eq_zero_or_pos n with rfl | hn
  · rfl
  · obtain ⟨d, hd⟩ := Json.Numeral.head?_whole_ofNat hn
    have hhead : (Nat.toDigits 10 n).head? ≠ some '0' := by
      intro h
      simp [Json.Numeral.ofNat, h] at hd
    simp [noLeadingZero, hhead]

theorem decimal?_toDigits (n : Nat) : decimal? (Nat.toDigits 10 n) = some (n : Int) := by
  have hsigned : signed (Nat.toDigits 10 n) = (false, Nat.toDigits 10 n) := by
    unfold signed
    split
    · next rest h => exact absurd (h ▸ List.mem_cons_self) (not_mem_toDigits (c := '-') rfl n)
    · next rest h => exact absurd (h ▸ List.mem_cons_self) (not_mem_toDigits (c := '+') rfl n)
    · rfl
  have hdigits : digits? Char.isDigit (Nat.toDigits 10 n) = some (Nat.toDigits 10 n) :=
    digits?_of_forall rfl Nat.toDigits_ne_nil fun c hc =>
      Nat.isDigit_of_mem_toDigits (by decide) (by decide) hc
  simp [decimal?, hsigned, noLeadingZero_toDigits, hdigits, valueIn_toDigits]

theorem classify_toDigits (n : Nat) : classify (Nat.toDigits 10 n) = some (.integer n) := by
  have hne {cs : List Char} {c : Char} (hm : c ∈ cs) (hc : c.isDigit = false) :
      Nat.toDigits 10 n ≠ cs := by
    rintro rfl
    exact not_mem_toDigits hc n hm
  have hinteger : integer? (Nat.toDigits 10 n) = some (n : Int) := by
    unfold integer?
    split
    · next ds h => exact absurd h (hne (c := 'x') (by simp) rfl)
    · next ds h => exact absurd h (hne (c := 'o') (by simp) rfl)
    · next ds h => exact absurd h (hne (c := 'b') (by simp) rfl)
    · exact decimal?_toDigits n
  have htrue : Nat.toDigits 10 n ≠ ['t', 'r', 'u', 'e'] := hne (c := 't') (by simp) rfl
  have hfalse : Nat.toDigits 10 n ≠ ['f', 'a', 'l', 's', 'e'] := hne (c := 'f') (by simp) rfl
  simp [classify, htrue, hfalse, hinteger]

theorem takeWhile_of_forall {p : Char → Bool} {cs : List Char} (h : ∀ c ∈ cs, p c = true) {d : Char}
    (hd : p d = false) (rest : List Char) : (cs ++ d :: rest).takeWhile p = cs := by
  rw [List.takeWhile_append_of_pos h]
  simp [hd]

theorem atom_of_forall {cs : List Char} (h : ∀ c ∈ cs, isAtomChar c = true) (rest : List Char) :
    atom (cs ++ '\n' :: rest) = (classify cs).map fun v => (v, '\n' :: rest) := by
  have htake := takeWhile_of_forall h (d := '\n') rfl rest
  have hatom : takeAtom (cs ++ '\n' :: rest) = cs := by
    simp only [takeAtom, htake, List.drop_left]
    split
    · next h => cases h
    · rfl
  simp [atom, hatom]

theorem skipSpace_cons {p : Char → Bool} {c : Char} (hc : p c = true) (hspace : p ' ' = false)
    (htab : p '\t' = false) (cs : List Char) : skipSpace (c :: cs) = c :: cs := by
  simp [skipSpace, isSpace, ne_of_eq_false hc hspace, ne_of_eq_false hc htab]

/-- The characters stand for the value at the end of a line. -/
structure Denotes (cs : List Char) (v : Value) : Prop where
  unspaced : ∀ rest, skipSpace (cs ++ '\n' :: rest) = cs ++ '\n' :: rest
  value_eq : ∀ depth n rest, value depth (n + 1) (cs ++ '\n' :: rest) = some (v, '\n' :: rest)

theorem denotes_of_classify {c : Char} {cs : List Char} {v : Value}
    (h : ∀ d ∈ c :: cs, isAtomChar d = true) (hv : classify (c :: cs) = some v) :
    Denotes (c :: cs) v := by
  have hne (d : Char) (hd : isAtomChar d = false) : c ≠ d := ne_of_eq_false (h c (by simp)) hd
  refine ⟨fun rest => ?_, fun depth n rest => ?_⟩
  · exact skipSpace_cons (h c (by simp)) rfl rfl _
  · have hatom := atom_of_forall h rest
    rw [hv] at hatom
    rw [List.cons_append] at hatom ⊢
    rw [value.eq_def]
    simp [hne '"' rfl, hne '\x27' rfl, hne '[' rfl, hne '\x7b' rfl, hatom]

theorem denotes_truth (b : Bool) :
    Denotes (if b then "true" else "false").toList (.truth b) := by
  cases b with
  | true => exact denotes_of_classify (List.all_eq_true.1 rfl) rfl
  | false => exact denotes_of_classify (List.all_eq_true.1 rfl) rfl

theorem denotes_natural (n : Nat) : Denotes (toString n).toList (.integer n) := by
  rw [Nat.toString_eq_ofList_toDigits, String.toList_ofList]
  have hv := classify_toDigits n
  have hatom : ∀ d ∈ Nat.toDigits 10 n, isAtomChar d = true := by
    intro d hd
    have hdigit := Nat.isDigit_of_mem_toDigits (by decide) (by decide) hd
    simp [isAtomChar, isBare, Char.isAlphanum, hdigit]
  cases hn : Nat.toDigits 10 n with
  | nil => exact absurd hn Nat.toDigits_ne_nil
  | cons c cs =>
    rw [hn] at hv hatom
    exact denotes_of_classify hatom hv

/-! ### Strings -/

/-- A character that stands for itself between double quotes. -/
def isPlain (c : Char) : Bool := !isControl c && c ≠ '\t' && c ≠ '"' && c ≠ '\x5c'

theorem isControl_of_isPlain {c : Char} (h : isPlain c = true) : isControl c = false := by
  simp only [isPlain, Bool.and_eq_true, Bool.not_eq_true'] at h
  exact h.1.1.1

theorem basic_of_forall {cs : List Char} (h : ∀ c ∈ cs, isPlain c = true) (rest : List Char)
    {n : Nat} (hn : cs.length < n) : basic n (cs ++ '"' :: rest) = some (cs, rest) := by
  induction cs generalizing n with
  | nil =>
    obtain ⟨n, rfl⟩ : ∃ m, n = m + 1 := ⟨n - 1, by omega⟩
    simp [basic]
  | cons c cs ih =>
    rw [List.length_cons] at hn
    obtain ⟨n, rfl⟩ : ∃ m, n = m + 1 := ⟨n - 1, by omega⟩
    have hc := h c (by simp)
    have hq : c ≠ '"' := ne_of_eq_false hc rfl
    have hb : c ≠ '\x5c' := ne_of_eq_false hc rfl
    have hcs := ih (fun d hd => h d (by simp [hd])) (by omega : cs.length < n)
    rw [List.cons_append, basic, if_neg hq, if_neg hb, isControl_of_isPlain hc]
    simp [hcs]

theorem string_of_ne {cs : List Char} (h : ∀ rest, cs ≠ '"' :: '"' :: rest) :
    string ('"' :: cs) = toText (basic (cs.length + 1) cs) := by
  unfold string
  split
  · next rest heq => exact absurd (List.cons.inj heq).2 (h rest)
  · next rest heq => exact absurd (List.cons.inj heq).1 (by decide)
  · rfl

theorem denotes_text {s : String} (h : ∀ c ∈ s.toList, isPlain c = true) :
    Denotes ('"' :: s.toList ++ ['"']) (.text s) := by
  refine ⟨fun rest => rfl, fun depth n rest => ?_⟩
  have hopen : ∀ after, s.toList ++ '"' :: '\n' :: rest ≠ '"' :: '"' :: after := by
    intro after heq
    cases hs : s.toList with
    | nil => simp [hs] at heq
    | cons c cs =>
      have hc := h c (by simp [hs])
      have hq : c = '"' := by simpa [hs] using congrArg List.head? heq
      rw [hq] at hc
      cases hc
  have hbasic := basic_of_forall h ('\n' :: rest)
    (n := (s.toList ++ '"' :: '\n' :: rest).length + 1) (by rw [List.length_append]; omega)
  have hstring := string_of_ne hopen
  rw [hbasic] at hstring
  simp only [List.cons_append, List.append_assoc, List.nil_append]
  rw [value]
  simp [hstring, toText]

theorem longestRun_eq_zero {c : Char} {cs : List Char} (h : c ∉ cs) : longestRun c cs = 0 := by
  induction cs with
  | nil => rfl
  | cons d cs ih =>
    obtain ⟨hd, hcs⟩ : ¬ c = d ∧ c ∉ cs := by simpa using h
    -- another character brings the run back to zero, where the rest begins
    have hrest : longestRun c (d :: cs) = longestRun c cs := by
      simp only [longestRun, List.foldl_cons, if_neg (Ne.symm hd)]
    rw [hrest, ih hcs]

theorem escapeChar_of_isPlain {c : Char} (h : isPlain c = true) (multiline : Bool) :
    escapeChar multiline c = [c] := by
  have hne (d : Char) (hd : isPlain d = false) : c ≠ d := ne_of_eq_false h hd
  simp [escapeChar, isControl_of_isPlain h, hne '\x08' rfl, hne '\t' rfl, hne '\n' rfl,
    hne '\x0c' rfl, hne '\x0d' rfl, hne '\x5c' rfl]

theorem escapeAll_of_forall {cs : List Char} (h : ∀ c ∈ cs, isPlain c = true) (multiline : Bool)
    (allowed run : Nat) : escapeAll multiline allowed run cs = cs := by
  induction cs generalizing run with
  | nil => rfl
  | cons c cs ih =>
    have hc := h c (by simp)
    have hq : c ≠ '"' := ne_of_eq_false hc rfl
    have hcs := ih (fun d hd => h d (by simp [hd])) 0
    rw [escapeAll, if_neg hq, escapeChar_of_isPlain hc, hcs, List.singleton_append]

theorem quote_of_forall {s : String} (h : ∀ c ∈ s.toList, isPlain c = true) :
    (quote s).toList = '"' :: s.toList ++ ['"'] := by
  have hnot (d : Char) (hd : isPlain d = false) : d ∉ s.toList :=
    fun hm => ne_of_eq_false (h d hm) hd rfl
  have hneeds : StringNeeds.of s.toList =
      ⟨false, false, false, longestRun '\x27' s.toList, 0⟩ := by
    have hcontrols : (s.toList.any fun c => isControl c && c ≠ '\n') = false :=
      List.any_eq_false.2 fun c hc => by simp [isControl_of_isPlain (h c hc)]
    simp only [StringNeeds.of, hcontrols, longestRun_eq_zero (hnot '"' rfl)]
    simp [hnot '\x5c' rfl, hnot '\n' rfl]
  simp [quote, hneeds, quoteBasic, escapeAll_of_forall h]

/-! ### Lines -/

theorem keyPart_of_forall {c d : Char} {cs : List Char} (h : ∀ x ∈ c :: cs, isBare x = true)
    (hd : isBare d = false) (rest : List Char) :
    keyPart (c :: cs ++ d :: rest) = some (String.ofList (c :: cs), d :: rest) := by
  have hne (x : Char) (hx : isBare x = false) : c ≠ x := ne_of_eq_false (h c (by simp)) hx
  have htake := takeWhile_of_forall h hd rest
  unfold keyPart
  split
  · next heq => exact absurd (List.cons.inj heq).1 (hne '"' rfl)
  · next heq => exact absurd (List.cons.inj heq).1 (hne '\x27' rfl)
  · simp only [htake, List.drop_left]
    rfl

theorem key_of_forall {c d e : Char} {cs rest behind : List Char}
    (h : ∀ x ∈ c :: cs, isBare x = true) (hd : isBare d = false)
    (hskip : skipSpace (d :: rest) = e :: behind) (he : e ≠ '.') :
    key (c :: cs ++ d :: rest) = some (([], String.ofList (c :: cs)), e :: behind) := by
  rw [key, maxDepth, keyParts, keyPart_of_forall h hd]
  simp only [hskip]
  split
  · next heq => exact absurd (List.cons.inj heq).1 he
  · rfl

theorem assignment_of_denotes {c : Char} {cs vs : List Char} {v : Value}
    (h : ∀ x ∈ c :: cs, isBare x = true) (hv : Denotes vs v) (depth n : Nat) (rest : List Char) :
    assignment false depth (n + 2) (c :: cs ++ ' ' :: '=' :: ' ' :: (vs ++ '\n' :: rest)) =
      some (([], String.ofList (c :: cs), v), '\n' :: rest) := by
  have hkey : key (c :: cs ++ ' ' :: '=' :: ' ' :: (vs ++ '\n' :: rest)) =
      some (([], String.ofList (c :: cs)), '=' :: ' ' :: (vs ++ '\n' :: rest)) :=
    key_of_forall h rfl rfl (by decide)
  have hequals : skipBetween false ('=' :: ' ' :: (vs ++ '\n' :: rest)) =
      '=' :: ' ' :: (vs ++ '\n' :: rest) := rfl
  have hspace : skipBetween false (' ' :: (vs ++ '\n' :: rest)) = vs ++ '\n' :: rest :=
    hv.unspaced rest
  rw [assignment, hkey]
  simp [hequals, hspace, hv.value_eq]

def Document.follow (d : Document) : Option Statement → Option Document
  | none => some d
  | some s => d.apply s

/-- Wherever the line stands, it is read as the statement and does no more. -/
def Tells (line : List Char) (o : Option Statement) : Prop :=
  ∀ n d rest, lines (n + 1) d (line ++ '\n' :: rest) = (d.follow o).bind (lines n · rest)

theorem lineEnd_newline (rest : List Char) : lineEnd ('\n' :: rest) = some ((), rest) := rfl

theorem tells_blank : Tells [] none := fun _ _ _ => rfl

def opensStatement (c : Char) : Bool := isBare c || c = '['

theorem tells_of_statement {c : Char} {cs : List Char} {s : Statement}
    (hc : opensStatement c = true)
    (h : ∀ rest, statement (c :: cs ++ '\n' :: rest) = some (s, '\n' :: rest)) :
    Tells (c :: cs) (some s) := by
  intro n d rest
  have hne (x : Char) (hx : opensStatement x = false) : c ≠ x := ne_of_eq_false hc hx
  have hs := h rest
  rw [List.cons_append] at hs ⊢
  generalize cs ++ '\n' :: rest = behind at hs ⊢
  have hskip : skipSpace (c :: behind) = c :: behind := skipSpace_cons hc rfl rfl behind
  have hend : lineEnd (c :: behind) = none := by
    have hcomment : skipComment (c :: behind) = c :: behind := by
      simp [skipComment, hne '#' rfl]
    simp [lineEnd, hskip, hcomment, newline?, hne '\n' rfl, hne '\x0d' rfl]
  rw [lines, hskip]
  simp only [hend, hs, lineEnd_newline, Document.follow]
  cases d.apply s <;> rfl

def isBareKey (key : String) : Bool := !key.toList.isEmpty && key.toList.all isBare

theorem exists_of_isBareKey {key : String} (h : isBareKey key = true) :
    ∃ c cs, key = String.ofList (c :: cs) ∧ ∀ x ∈ c :: cs, isBare x = true := by
  obtain ⟨hne, hall⟩ : key.toList ≠ [] ∧ ∀ x ∈ key.toList, isBare x = true := by
    simpa [isBareKey] using h
  obtain ⟨c, cs, hcs⟩ := List.exists_cons_of_ne_nil hne
  exact ⟨c, cs, by rw [← hcs, String.ofList_toList], hcs ▸ hall⟩

theorem tells_assign {key : String} {vs : List Char} {v : Value} (hk : isBareKey key = true)
    (hv : Denotes vs v) :
    Tells (key.toList ++ ' ' :: '=' :: ' ' :: vs) (some (.assign [] key v)) := by
  obtain ⟨c, cs, rfl, h⟩ := exists_of_isBareKey hk
  have hc : isBare c = true := h c (by simp)
  have hbracket : c ≠ '[' := ne_of_eq_false hc rfl
  rw [String.toList_ofList, List.cons_append]
  refine tells_of_statement (by simp [opensStatement, hc]) fun rest => ?_
  have hassign := fun n => assignment_of_denotes h hv maxDepth n rest
  simp only [List.cons_append, List.append_assoc] at hassign ⊢
  generalize cs ++ ' ' :: '=' :: ' ' :: (vs ++ '\n' :: rest) = behind at hassign ⊢
  obtain ⟨n, hn⟩ : ∃ n, 3 * (c :: behind).length = n + 2 := ⟨3 * behind.length + 1, by simp; omega⟩
  unfold statement
  split
  · next heq => exact absurd (List.cons.inj heq).1 hbracket
  · next heq => exact absurd (List.cons.inj heq).1 hbracket
  · rw [hn, hassign n]
    rfl

theorem tells_header {key : String} (hk : isBareKey key = true) :
    Tells ('[' :: (key.toList ++ [']'])) (some (.table [] key)) := by
  obtain ⟨c, cs, rfl, h⟩ := exists_of_isBareKey hk
  have hc : isBare c = true := h c (by simp)
  have hbracket : c ≠ '[' := ne_of_eq_false hc rfl
  rw [String.toList_ofList]
  refine tells_of_statement rfl fun rest => ?_
  have hkey : Toml.key (c :: cs ++ ']' :: '\n' :: rest) =
      some (([], String.ofList (c :: cs)), ']' :: '\n' :: rest) :=
    key_of_forall h rfl rfl (by decide)
  have hskip : skipSpace (c :: cs ++ ']' :: '\n' :: rest) = c :: cs ++ ']' :: '\n' :: rest :=
    skipSpace_cons hc rfl rfl _
  simp only [List.cons_append, List.append_assoc, List.nil_append] at hkey hskip ⊢
  unfold statement
  split
  · next heq => exact absurd (List.cons.inj (List.cons.inj heq).2).1 hbracket
  · next heq =>
    obtain rfl := (List.cons.inj heq).2
    rw [hskip, hkey]
    rfl
  · next hno => exact absurd rfl (hno _)

/-! ### Documents -/

def unlines (ls : List (List Char × Option Statement)) : List Char :=
  ls.flatMap fun l => l.1 ++ ['\n']

theorem length_le_unlines (ls : List (List Char × Option Statement)) :
    ls.length ≤ (unlines ls).length := by
  induction ls with
  | nil => simp
  | cons l ls ih =>
    simp only [unlines, List.flatMap_cons, List.length_append, List.length_cons] at ih ⊢
    omega

/-- Lines that are read one by one carry out their statements in order. -/
theorem lines_unlines {ls : List (List Char × Option Statement)} (h : ∀ l ∈ ls, Tells l.1 l.2)
    {n : Nat} (hn : ls.length < n) (d : Document) :
    lines n d (unlines ls) = ls.foldlM (fun d l => d.follow l.2) d := by
  induction ls generalizing n d with
  | nil =>
    obtain ⟨n, rfl⟩ : ∃ m, n = m + 1 := ⟨n - 1, by omega⟩
    rfl
  | cons l ls ih =>
    rw [List.length_cons] at hn
    obtain ⟨n, rfl⟩ : ∃ m, n = m + 1 := ⟨n - 1, by omega⟩
    have hl := h l (by simp) n d (unlines ls)
    have hls := fun d => ih (fun k hk => h k (by simp [hk])) (by omega : ls.length < n) d
    have hunlines : unlines (l :: ls) = l.1 ++ '\n' :: unlines ls := by simp [unlines]
    rw [hunlines, hl, List.foldlM_cons]
    exact congrArg _ (funext hls)

theorem read_of_tells {ls : List (List Char × Option Statement)} (h : ∀ l ∈ ls, Tells l.1 l.2)
    {s : String} (hs : s.toList = unlines ls) (hmark : dropMark s.toList = s.toList) :
    read s = (ls.foldlM (fun (d : Document) l => d.follow l.2) {}).map (·.root) := by
  have hn := length_le_unlines ls
  rw [read, hmark, hs, lines_unlines h (by omega)]

end Toml

namespace Settings

open Toml

def assignLine (key value : String) (v : Value) : List Char × Option Statement :=
  (key.toList ++ ' ' :: '=' :: ' ' :: value.toList, some (.assign [] key v))

/-- The lines of the settings as a document, each with what it tells. -/
def tomlLines (s : Settings) : List (List Char × Option Statement) :=
  (s.maxRounds.toList.map fun (n : Nat) => assignLine "max_rounds" (toString n) (.integer n)) ++
  [assignLine "stop_on_target" (if s.stopOnTarget then "true" else "false") (.truth s.stopOnTarget),
    assignLine "log_level" (quote s.logLevel) (.text s.logLevel),
    ([], none),
    ("[policies]".toList, some (.table [] "policies")),
    assignLine "partial_function" ("\"" ++ s.policies.partialFunction.key ++ "\"")
      (.text s.policies.partialFunction.key),
    assignLine "anti" ("\"" ++ s.policies.anti.key ++ "\"") (.text s.policies.anti.key)]

theorem toList_toToml (s : Settings) : s.toToml.toList = unlines s.tomlLines := by
  obtain ⟨maxRounds, stopOnTarget, logLevel, policies⟩ := s
  cases maxRounds <;> simp [toToml, tomlLines, assignLine, unlines]

theorem isPlain_of_mem_logLevels {level : String} (h : level ∈ logLevels) :
    ∀ c ∈ level.toList, isPlain c = true := by
  simp only [logLevels, List.mem_cons, List.not_mem_nil, or_false] at h
  rcases h with rfl | rfl | rfl | rfl | rfl <;> exact List.all_eq_true.1 rfl

theorem isPlain_of_mem_key (r : Relation) : ∀ c ∈ r.key.toList, isPlain c = true := by
  cases r <;> exact List.all_eq_true.1 rfl

theorem mem_logLevels {s : Settings} (h : s.validate = .ok ()) : s.logLevel ∈ logLevels := by
  unfold validate at h
  split at h
  · cases h
  · split at h
    · next hl => simpa using hl
    · cases h

theorem tells_of_mem_tomlLines {s : Settings} (h : s.validate = .ok ())
    {l : List Char × Option Statement} (hl : l ∈ s.tomlLines) : Tells l.1 l.2 := by
  have hlevel := isPlain_of_mem_logLevels (mem_logLevels h)
  have hquoted : Denotes (quote s.logLevel).toList (.text s.logLevel) := by
    rw [quote_of_forall hlevel]
    exact denotes_text hlevel
  have hrelation (r : Relation) : Denotes ("\"" ++ r.key ++ "\"").toList (.text r.key) := by
    simpa using denotes_text (isPlain_of_mem_key r)
  have hheader : isBareKey "policies" = true := rfl
  simp only [tomlLines, List.mem_append, List.mem_map, Option.mem_toList, List.mem_cons,
    List.not_mem_nil, or_false] at hl
  rcases hl with ⟨n, -, rfl⟩ | rfl | rfl | rfl | rfl | rfl | rfl
  · exact tells_assign rfl (denotes_natural n)
  · exact tells_assign rfl (denotes_truth s.stopOnTarget)
  · exact tells_assign rfl hquoted
  · exact tells_blank
  · exact tells_header hheader
  · exact tells_assign rfl (hrelation _)
  · exact tells_assign rfl (hrelation _)

def tomlEntries (s : Settings) : Entries :=
  (s.maxRounds.toList.map fun (n : Nat) => ("max_rounds", .integer n)) ++
  [("stop_on_target", .truth s.stopOnTarget),
    ("log_level", .text s.logLevel),
    ("policies", .table [("partial_function", .text s.policies.partialFunction.key),
      ("anti", .text s.policies.anti.key)] .header)]

theorem read_toToml {s : Settings} (h : s.validate = .ok ()) :
    Toml.read s.toToml = some s.tomlEntries := by
  have hmark : dropMark s.toToml.toList = s.toToml.toList := by
    rw [toList_toToml]
    obtain ⟨maxRounds, stopOnTarget, logLevel, policies⟩ := s
    cases maxRounds <;> rfl
  rw [read_of_tells (fun l hl => tells_of_mem_tomlLines h hl) (toList_toToml s) hmark]
  obtain ⟨maxRounds, stopOnTarget, logLevel, policies⟩ := s
  cases maxRounds <;> rfl

theorem ofToml?_policies (c : PolicyChoice) :
    PolicyChoice.ofToml? (.table [("partial_function", .text c.partialFunction.key),
      ("anti", .text c.anti.key)] .header) = some c := by
  obtain ⟨r, t⟩ := c
  cases r <;> cases t <;> rfl

theorem asNatural?_integer {n : Nat} (h : n < Json.wordLimit) :
    (Value.integer n).asNatural? = some n := by
  have hlimit : Int.pow 2 64 = (Json.wordLimit : Int) := rfl
  have hn : (n : Int) < Json.wordLimit := Int.ofNat_lt.2 h
  rw [Value.asNatural?, hlimit]
  simp [hn]

/-- The entries without a limit leave the one that there is and set everything else. -/
theorem putAll_without_limit (s : Settings) (limit : Option Nat) :
    putAll { maxRounds := limit } { s with maxRounds := none }.tomlEntries =
      some { s with maxRounds := limit } := by
  have hstop (t : Settings) (b : Bool) :
      t.put "stop_on_target" (.truth b) = some { t with stopOnTarget := b } := rfl
  have hlevel (t : Settings) (level : String) :
      t.put "log_level" (.text level) = some { t with logLevel := level } := rfl
  have hpolicies (t : Settings) (v : Value) :
      t.put "policies" v = (PolicyChoice.ofToml? v).map fun c => { t with policies := c } := rfl
  simp only [tomlEntries, Option.toList_none, List.map_nil, List.nil_append, putAll, hstop,
    hlevel, hpolicies, ofToml?_policies, Option.map_some, Option.bind_some]

theorem putAll_tomlEntries {s : Settings} (h : ∀ n, s.maxRounds = some n → n < Json.wordLimit) :
    ({} : Settings).putAll s.tomlEntries = some s := by
  obtain ⟨limit, stop, level, policies⟩ := s
  cases limit with
  | none => exact putAll_without_limit ⟨none, stop, level, policies⟩ none
  | some n =>
    have hput : put {} "max_rounds" (.integer n) = some { maxRounds := some n } := by
      rw [put, if_pos rfl, asNatural?_integer (h n rfl)]
      rfl
    calc
      putAll {} (tomlEntries ⟨some n, stop, level, policies⟩)
        = (put {} "max_rounds" (.integer n)).bind
            (·.putAll (tomlEntries ⟨none, stop, level, policies⟩)) := rfl
      _ = putAll { maxRounds := some n } (tomlEntries ⟨none, stop, level, policies⟩) := by
        rw [hput, Option.bind_some]
      _ = some ⟨some n, stop, level, policies⟩ :=
        putAll_without_limit ⟨none, stop, level, policies⟩ (some n)

/-- Valid settings whose limit, if there is one, fits into a word are read back as they were
written, so they give the same policies. -/
theorem ofToml_toToml {s : Settings} (hv : s.validate = .ok ())
    (hn : ∀ n, s.maxRounds = some n → n < Json.wordLimit) :
    ofToml s.toToml = .ok s ∧ (ofToml s.toToml).map policyTable = .ok s.policyTable := by
  have hread : ofToml s.toToml = .ok s := by
    simp [ofToml, read_toToml hv, putAll_tomlEntries hn, hv, Except.map]
  exact ⟨hread, by rw [hread]; rfl⟩

def thorough : Settings where
  maxRounds := some 9223372036854775807
  stopOnTarget := false
  logLevel := "trace"
  policies := ⟨.complement, .equal⟩

theorem ofToml_toToml_thorough :
    thorough.validate = .ok () ∧ (∀ n, thorough.maxRounds = some n → n < Json.wordLimit) ∧
      ofToml thorough.toToml = .ok thorough ∧
      (ofToml thorough.toToml).map policyTable = .ok (.ofRelations .complement .equal) := by
  have hn : ∀ n, thorough.maxRounds = some n → n < Json.wordLimit := by
    intro n h
    obtain rfl := Option.some.inj h
    decide
  exact ⟨rfl, hn, ofToml_toToml rfl hn⟩

end Settings

end Syllogism
