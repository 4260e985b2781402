import Syllogism.Json.Numeral

/-! Tokens of JSON texts. Scanning never fails: what cannot be scanned becomes a last token that
says what is wrong, and it is an error only if somebody wants to read it. -/
namespace Syllogism.Json

/-- The two ways in which a text is not JSON: it ends too early or it is malformed. -/
inductive Fault
  | cut
  | malformed
  deriving DecidableEq

/-- What is wrong with a value. A value that is skipped is checked less closely than one that is
read, so the two can differ. -/
structure Flaw where
  read : Fault
  skip : Fault
  deriving DecidableEq

namespace Flaw

def cut : Flaw := ⟨.cut, .cut⟩

def malformed : Flaw := ⟨.malformed, .malformed⟩

end Flaw

inductive Piece
  | char (c : Char)
  | unit (n : Nat)
  deriving DecidableEq

namespace Piece

def isHigh (n : Nat) : Bool := 0xd800 ≤ n && n ≤ 0xdbff

def isLow (n : Nat) : Bool := 0xdc00 ≤ n && n ≤ 0xdfff

def joinPair (high low : Nat) : Char :=
  Char.ofNat (0x10000 + (high - 0xd800) * 0x400 + (low - 0xdc00))

/-- The characters of a string, if its surrogate units come in pairs. -/
def decode : List Piece → Option (List Char)
  | [] => some []
  | .char c :: ps => (decode ps).map (c :: ·)
  | .unit n :: ps =>
    if isHigh n then
      match ps with
      | .unit m :: ps => if isLow m then (decode ps).map (joinPair n m :: ·) else none
      | _ => none
    else if isLow n then none
    else (decode ps).map (Char.ofNat n :: ·)

def sound : List Piece → Bool
  | [] => true
  | .char _ :: ps => sound ps
  | .unit n :: ps =>
    if isHigh n then
      match ps with
      | [] => true
      | .unit m :: ps => isLow m && sound ps
      | _ => false
    else !isLow n && sound ps

end Piece

/-- A string of a text. Nothing stands for a string that has a lone surrogate. -/
abbrev Text := Option String

inductive Token
  | openList
  | closeList
  | openObject
  | closeObject
  | comma
  | colon
  | null
  | truth (b : Bool)
  | number (n : Numeral)
  | text (t : Text)
  /-- Something that cannot be scanned; `quoted` tells that it begins like a string. -/
  | flawed (quoted : Bool) (flaw : Flaw)
  deriving DecidableEq

namespace Token

def isSpace (c : Char) : Bool := c = ' ' || c = '\n' || c = '\t' || c = '\x0d'

def hexDigit? (c : Char) : Option Nat :=
  if '0' ≤ c && c ≤ '9' then some (c.toNat - '0'.toNat)
  else if 'a' ≤ c && c ≤ 'f' then some (c.toNat - 'a'.toNat + 10)
  else if 'A' ≤ c && c ≤ 'F' then some (c.toNat - 'A'.toNat + 10)
  else none

def hexUnit? (a b c d : Char) : Option Nat :=
  match hexDigit? a, hexDigit? b, hexDigit? c, hexDigit? d with
  | some a, some b, some c, some d => some (a * 4096 + b * 256 + c * 16 + d)
  | _, _, _, _ => none

def shortEscape? (c : Char) : Option Char :=
  if c = '"' then some '"'
  else if c = '\\' then some '\\'
  else if c = '/' then some '/'
  else if c = 'b' then some '\x08'
  else if c = 'f' then some '\x0c'
  else if c = 'n' then some '\n'
  else if c = 'r' then some '\x0d'
  else if c = 't' then some '\t'
  else none

def tooShort (cs : List Char) : Bool := cs.foldl (· + ·.utf8Size) 0 < 4

/-- The inside of a string up to its closing quote: the pieces, and how many characters they and
the quote take or what stopped them. -/
def scanText : List Char → List Piece × Except Fault Nat
  | [] => ([], .error .cut)
  | '"' :: _ => ([], .ok 1)
  | '\\' :: 'u' :: a :: b :: c :: d :: cs =>
    match hexUnit? a b c d with
    | none => ([], .error .malformed)
    | some n =>
      let (ps, used) := scanText cs
      (.unit n :: ps, used.map (· + 6))
  | '\\' :: e :: cs =>
    match shortEscape? e with
    | some c =>
      let (ps, used) := scanText cs
      (.char c :: ps, used.map (· + 2))
    | none =>
      if e = 'u' && tooShort cs then ([], .error .cut) else ([], .error .malformed)
  | ['\\'] => ([], .error .cut)
  | c :: cs =>
    if c.toNat < 0x20 then ([], .error .malformed)
    else
      let (ps, used) := scanText cs
      (.char c :: ps, used.map (· + 1))

def lexText (cs : List Char) : Token × Nat :=
  match scanText cs with
  | (ps, .ok used) => (.text ((Piece.decode ps).map String.ofList), used)
  | (ps, .error f) => (.flawed true ⟨if Piece.sound ps then f else .malformed, f⟩, 0)

def takeDigits (cs : List Char) : List Nat :=
  (cs.takeWhile Char.isDigit).map fun c => c.toNat - '0'.toNat

/-- A place where a digit is missing. Whoever skips the number does not tell the end of the text
from any other character. -/
def digitMissing (cs : List Char) : Token :=
  .flawed false (if cs.isEmpty then ⟨.cut, .malformed⟩ else .malformed)

def lexExponent (n : Numeral) (used : Nat) : List Char → Token × Nat
  | e :: cs =>
    if e = 'e' || e = 'E' then
      let (below, signLength) :=
        match cs with
        | '-' :: _ => (true, 1)
        | '+' :: _ => (false, 1)
        | _ => (false, 0)
      let ds := takeDigits (cs.drop signLength)
      if ds.isEmpty then (digitMissing (cs.drop signLength), 0)
      else (.number { n with exponent := some (below, ds) }, used + 1 + signLength + ds.length)
    else (.number n, used)
  | [] => (.number n, used)

def lexFraction (n : Numeral) (used : Nat) : List Char → Token × Nat
  | '.' :: cs =>
    let ds := takeDigits cs
    if ds.isEmpty then (digitMissing cs, 0)
    else lexExponent { n with fraction := ds } (used + 1 + ds.length) (cs.drop ds.length)
  | cs => lexExponent n used cs

/-- A number from its first digit on. A leading zero stands alone. -/
def lexNumber (negative : Bool) (cs : List Char) : Token × Nat :=
  let ds := takeDigits cs
  if ds.isEmpty then (digitMissing cs, 0)
  else if ds.head? = some 0 && 1 < ds.length then (.flawed false .malformed, 0)
  else lexFraction { negative, whole := ds } ds.length (cs.drop ds.length)

def lexWord (t : Token) (word cs : List Char) : Token × Nat :=
  if word.isPrefixOf cs then (t, word.length)
  else if cs.isPrefixOf word then (.flawed false .cut, 0)
  else (.flawed false .malformed, 0)

/-- The token that begins with `c`, and how many of the characters behind `c` belong to it. -/
def lex (c : Char) (cs : List Char) : Token × Nat :=
  if c = '[' then (.openList, 0)
  else if c = ']' then (.closeList, 0)
  else if c = '\x7b' then (.openObject, 0)
  else if c = '\x7d' then (.closeObject, 0)
  else if c = ',' then (.comma, 0)
  else if c = ':' then (.colon, 0)
  else if c = '"' then lexText cs
  else if c = '-' then lexNumber true cs
  else if c.isDigit then
    let (t, used) := lexNumber false (c :: cs)
    (t, used - 1)
  else if c = 'n' then lexWord .null ['u', 'l', 'l'] cs
  else if c = 't' then lexWord (.truth true) ['r', 'u', 'e'] cs
  else if c = 'f' then lexWord (.truth false) ['a', 'l', 's', 'e'] cs
  else (.flawed false .malformed, 0)

def isFlawed : Token → Bool
  | flawed _ _ => true
  | _ => false

/-- The tokens of a text of which the first `skip` characters have been dealt with. -/
def scan : (skip : Nat) → List Char → List Token
  | _, [] => []
  | skip + 1, _ :: cs => scan skip cs
  | 0, c :: cs =>
    if isSpace c then scan 0 cs
    else
      let (t, used) := lex c cs
      if t.isFlawed then [t] else t :: scan used cs

def ofString (s : String) : List Token := scan 0 s.toList

end Token

end Syllogism.Json
