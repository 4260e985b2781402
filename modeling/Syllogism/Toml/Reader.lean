import Syllogism.Toml.Value

/-! Reading TOML documents. -/
namespace Syllogism.Toml

abbrev Scan (α : Type) := List Char → Option (α × List Char)

def isSpace (c : Char) : Bool := c = ' ' || c = '\t'

def skipSpace (cs : List Char) : List Char := cs.dropWhile isSpace

/-- Controls other than the tab may stand in no text. -/
def isControl (c : Char) : Bool := (c.toNat < 0x20 && c ≠ '\t') || c.toNat = 0x7f

def newline? : List Char → Option (List Char)
  | '\n' :: cs => some cs
  | '\x0d' :: '\n' :: cs => some cs
  | _ => none

def skipComment (cs : List Char) : List Char :=
  match cs with
  | '#' :: rest => rest.dropWhile fun c => !isControl c
  | _ => cs

def skipBreaks : List Char → List Char
  | [] => []
  | '\x0d' :: '\n' :: cs => skipBreaks cs
  | c :: cs => if isSpace c || c = '\n' then skipBreaks cs else c :: cs

/-- The text behind space, comments and line breaks; `comment` tells that it begins inside a
comment. -/
def skipLines (comment : Bool) : List Char → List Char
  | [] => []
  | '\n' :: cs => skipLines false cs
  | '\x0d' :: '\n' :: cs => skipLines false cs
  | c :: cs =>
    if comment then (if isControl c then c :: cs else skipLines true cs)
    else if isSpace c then skipLines false cs
    else if c = '#' then skipLines true cs
    else c :: cs

/-- The text behind what may stand between the parts of an assignment. -/
def skipBetween (braced : Bool) (cs : List Char) : List Char :=
  if braced then skipLines false cs else skipSpace cs

def hexValue? (c : Char) : Option Nat :=
  if c.isDigit then some (c.toNat - '0'.toNat)
  else if 'a' ≤ c && c ≤ 'f' then some (c.toNat - 'a'.toNat + 10)
  else if 'A' ≤ c && c ≤ 'F' then some (c.toNat - 'A'.toNat + 10)
  else none

def ofHex (cs : List Char) : Option Nat :=
  cs.foldl (fun n c => match n, hexValue? c with
    | some n, some d => some (n * 16 + d)
    | _, _ => none) (some 0)

def numbered (width : Nat) : Scan Char := fun cs =>
  if cs.length < width then none
  else
    match ofHex (cs.take width) with
    | some n => if n.isValidChar then some (Char.ofNat n, cs.drop width) else none
    | none => none

def escaped : Scan Char
  | [] => none
  | c :: cs =>
    if c = 'b' then some ('\x08', cs)
    else if c = 't' then some ('\t', cs)
    else if c = 'n' then some ('\n', cs)
    else if c = 'f' then some ('\x0c', cs)
    else if c = 'r' then some ('\x0d', cs)
    else if c = 'e' then some ('\x1b', cs)
    else if c = '"' then some ('"', cs)
    else if c = '\\' then some ('\\', cs)
    else if c = 'x' then numbered 2 cs
    else if c = 'u' then numbered 4 cs
    else if c = 'U' then numbered 8 cs
    else none

def basic : Nat → Scan (List Char)
  | 0, _ => none
  | _ + 1, [] => none
  | n + 1, c :: cs =>
    if c = '"' then some ([], cs)
    else if c = '\\' then
      match escaped cs with
      | some (d, rest) => (basic n rest).map fun (ds, rest) => (d :: ds, rest)
      | none => none
    else if isControl c then none
    else (basic n cs).map fun (ds, rest) => (c :: ds, rest)

def literal : Scan (List Char)
  | [] => none
  | c :: cs =>
    if c = '\x27' then some ([], cs)
    else if isControl c then none
    else (literal cs).map fun (ds, rest) => (c :: ds, rest)

/-- The closing quotes of a string over several lines, if they come next: three of them, after up to
two that belong to the text. -/
def closing? (q : Char) (cs : List Char) : Option (List Char × List Char) :=
  let quotes := (cs.take 5).takeWhile (· = q)
  if quotes.length < 3 then none
  else some (quotes.drop 3, cs.drop quotes.length)

/-- The text behind a line that ends in a backslash, if that is what comes next. -/
def continuation? (cs : List Char) : Option (List Char) :=
  (newline? (skipSpace cs)).map skipBreaks

/-- Whether a character with `cs` behind it may stand in a string over several lines. Line breaks
may, and they are kept as they are. -/
def standsInLines (c : Char) (cs : List Char) : Bool :=
  !isControl c || c = '\n' || (c = '\x0d' && cs.head? = some '\n')

def multilineBasic : Nat → Scan (List Char)
  | 0, _ => none
  | _ + 1, [] => none
  | n + 1, c :: cs =>
    match closing? '"' (c :: cs) with
    | some (tail, rest) => some (tail, rest)
    | none =>
      if c = '\\' then
        match continuation? cs with
        | some rest => multilineBasic n rest
        | none =>
          match escaped cs with
          | some (d, rest) => (multilineBasic n rest).map fun (ds, rest) => (d :: ds, rest)
          | none => none
      else if standsInLines c cs then
        (multilineBasic n cs).map fun (ds, rest) => (c :: ds, rest)
      else none

def multilineLiteral : Nat → Scan (List Char)
  | 0, _ => none
  | _ + 1, [] => none
  | n + 1, c :: cs =>
    match closing? '\x27' (c :: cs) with
    | some (tail, rest) => some (tail, rest)
    | none =>
      if standsInLines c cs then (multilineLiteral n cs).map fun (ds, rest) => (c :: ds, rest)
      else none

/-- A line break right behind the opening quotes does not count. -/
def dropFirstBreak (cs : List Char) : List Char := (newline? cs).getD cs

def toText (r : Option (List Char × List Char)) : Option (String × List Char) :=
  r.map fun (cs, rest) => (String.ofList cs, rest)

def lineString : Scan String
  | '"' :: cs => toText (basic (cs.length + 1) cs)
  | '\x27' :: cs => toText (literal cs)
  | _ => none

/-- A string in any of the four forms, from its opening quote on. -/
def string : Scan String
  | '"' :: '"' :: '"' :: cs => toText (multilineBasic (cs.length + 1) (dropFirstBreak cs))
  | '\x27' :: '\x27' :: '\x27' :: cs =>
    toText (multilineLiteral (cs.length + 1) (dropFirstBreak cs))
  | cs => lineString cs

def isBare (c : Char) : Bool := c.isAlphanum || c = '_' || c = '-'

def keyPart : Scan String := fun cs =>
  match cs with
  | '"' :: _ => lineString cs
  | '\x27' :: _ => lineString cs
  | _ =>
    let name := cs.takeWhile isBare
    if name.isEmpty then none else some (String.ofList name, cs.drop name.length)

/-- One or more parts with points between them, at most so many. -/
def keyParts : Nat → Scan (List String × String)
  | 0, _ => none
  | n + 1, cs =>
    match keyPart cs with
    | none => none
    | some (part, rest) =>
      match skipSpace rest with
      | '.' :: more =>
        (keyParts n (skipSpace more)).map fun ((path, last), rest) => ((part :: path, last), rest)
      | rest => some (([], part), rest)

/-- Containers may be nested so deep, and a key may have so many parts. -/
def maxDepth : Nat := 80

def key : Scan (List String × String) := keyParts maxDepth

/-- Digits with single underscores between them, without the underscores. -/
def digits? (ok : Char → Bool) : List Char → Option (List Char)
  | [] => none
  | [c] => if ok c then some [c] else none
  | c :: '_' :: cs => if ok c then (digits? ok cs).map (c :: ·) else none
  | c :: cs => if ok c then (digits? ok cs).map (c :: ·) else none

def digitValue (c : Char) : Nat := (hexValue? c).getD 0

def valueIn (base : Nat) (ds : List Char) : Nat := ds.foldl (fun n c => n * base + digitValue c) 0

/-- A number may not begin with a zero unless it is one. -/
def noLeadingZero (cs : List Char) : Bool := cs.head? ≠ some '0' || cs.length = 1

def signed (cs : List Char) : Bool × List Char :=
  match cs with
  | '-' :: rest => (true, rest)
  | '+' :: rest => (false, rest)
  | _ => (false, cs)

def decimal? (cs : List Char) : Option Int :=
  let (negative, body) := signed cs
  if noLeadingZero body then
    (digits? Char.isDigit body).map fun ds =>
      let n : Int := valueIn 10 ds
      if negative then -n else n
  else none

def integer? (cs : List Char) : Option Int :=
  match cs with
  | '0' :: 'x' :: ds => (digits? (fun c => (hexValue? c).isSome) ds).map fun ds => valueIn 16 ds
  | '0' :: 'o' :: ds => (digits? (fun c => '0' ≤ c && c ≤ '7') ds).map fun ds => valueIn 8 ds
  | '0' :: 'b' :: ds => (digits? (fun c => c = '0' || c = '1') ds).map fun ds => valueIn 2 ds
  | _ => decimal? cs

/-- Whether the digits times `10^e` round to a finite number. -/
def inRange (ds : List Char) (e : Int) : Bool :=
  let n := valueIn 10 ds
  let limit := Nat.pow 2 1024 - Nat.pow 2 970
  if n = 0 || ds.length + e ≤ 0 then true
  else if 400 < e then false
  else if 0 ≤ e then n * Nat.pow 10 e.toNat < limit
  else n < limit * Nat.pow 10 (-e).toNat

/-- A number with a fraction, an exponent or both; the answer tells whether it is within range. -/
def real? (cs : List Char) : Option Bool :=
  let body := (signed cs).2
  if body = ['i', 'n', 'f'] || body = ['n', 'a', 'n'] then some true
  else
    let mantissa := body.takeWhile fun c => c ≠ 'e' && c ≠ 'E'
    let exponent := body.drop mantissa.length
    let whole := mantissa.takeWhile (· ≠ '.')
    let fraction := mantissa.drop whole.length
    let exponentValue : Option Int :=
      match exponent with
      | [] => some 0
      | _ :: cs =>
        let (negative, ds) := signed cs
        (digits? Char.isDigit ds).map fun ds =>
          let n : Int := valueIn 10 ds
          if negative then -n else n
    let fractionDigits : Option (List Char) :=
      match fraction with
      | [] => if exponent.isEmpty then none else some []
      | _ :: ds => digits? Char.isDigit ds
    if noLeadingZero whole then
      match digits? Char.isDigit whole, fractionDigits, exponentValue with
      | some w, some f, some e => some (inRange (w ++ f) (e - f.length))
      | _, _, _ => none
    else none

def fixed (width : Nat) : Scan Nat := fun cs =>
  let ds := cs.take width
  if ds.length = width && ds.all Char.isDigit then some (valueIn 10 ds, cs.drop width) else none

def mark (c : Char) : Scan Unit
  | d :: cs => if d = c then some ((), cs) else none
  | [] => none

def daysIn (year month : Nat) : Nat :=
  if month = 2 then
    if year % 4 = 0 && (year % 100 ≠ 0 || year % 400 = 0) then 29 else 28
  else if month = 4 || month = 6 || month = 9 || month = 11 then 30
  else 31

def date : Scan Unit := fun cs => do
  let (year, cs) ← fixed 4 cs
  let (_, cs) ← mark '-' cs
  let (month, cs) ← fixed 2 cs
  let (_, cs) ← mark '-' cs
  let (day, cs) ← fixed 2 cs
  if 1 ≤ month && month ≤ 12 && 1 ≤ day && day ≤ daysIn year month then some ((), cs) else none

def seconds : Scan Unit := fun cs =>
  match cs with
  | ':' :: cs => do
    let (second, cs) ← fixed 2 cs
    if 60 < second then none
    else
      match cs with
      | '.' :: cs =>
        let ds := cs.takeWhile Char.isDigit
        if ds.isEmpty then none else some ((), cs.drop ds.length)
      | _ => some ((), cs)
  | _ => some ((), cs)

def time : Scan Unit := fun cs => do
  let (hour, cs) ← fixed 2 cs
  let (_, cs) ← mark ':' cs
  let (minute, cs) ← fixed 2 cs
  if 23 < hour || 59 < minute then none else seconds cs

def isOffset (cs : List Char) : Bool :=
  match cs with
  | [] => true
  | [c] => c = 'Z' || c = 'z'
  | c :: cs =>
    (c = '+' || c = '-') &&
      match (do
        let (hour, cs) ← fixed 2 cs
        let (_, cs) ← mark ':' cs
        let (minute, cs) ← fixed 2 cs
        some (hour, minute, cs) : Option (Nat × Nat × List Char)) with
      | some (hour, minute, rest) => hour ≤ 23 && minute ≤ 59 && rest.isEmpty
      | none => false

/-- A date, a time, or both with or without an offset. -/
def isMoment (cs : List Char) : Bool :=
  match date cs with
  | some ((), []) => true
  | some ((), d :: cs) =>
    (d = 'T' || d = 't' || d = ' ') &&
      match time cs with
      | some ((), rest) => isOffset rest
      | none => false
  | none =>
    match time cs with
    | some ((), rest) => rest.isEmpty
    | none => false

def classify (cs : List Char) : Option Value :=
  if cs = ['t', 'r', 'u', 'e'] then some (.truth true)
  else if cs = ['f', 'a', 'l', 's', 'e'] then some (.truth false)
  else
    match integer? cs with
    | some n => some (.integer n)
    | none =>
      match real? cs with
      | some ok => some (.real ok)
      | none => if isMoment cs then some .moment else none

def isAtomChar (c : Char) : Bool := isBare c || c = '+' || c = '.' || c = ':'

/-- The characters of a value without quotes or brackets. A space may divide a date from a time. -/
def takeAtom (cs : List Char) : List Char :=
  let first := cs.takeWhile isAtomChar
  match (date first).map (·.2), cs.drop first.length with
  | some [], ' ' :: d :: rest =>
    if d.isDigit then first ++ ' ' :: (d :: rest).takeWhile isAtomChar else first
  | _, _ => first

def atom : Scan Value := fun cs =>
  let name := takeAtom cs
  (classify name).map fun v => (v, cs.drop name.length)

mutual

/-- A value inside which `depth` more containers may be nested. -/
def value (depth : Nat) : Nat → Scan Value
  | 0, _ => none
  | n + 1, cs =>
    match cs with
    | '"' :: _ => (string cs).map fun (s, rest) => (.text s, rest)
    | '\x27' :: _ => (string cs).map fun (s, rest) => (.text s, rest)
    | '[' :: rest =>
      if depth = 0 then none
      else (items (depth - 1) n rest).map fun (vs, rest) => (.list vs false, rest)
    | '\x7b' :: rest =>
      if depth = 0 then none
      else (members (depth - 1) n [] rest).map fun (es, rest) => (.table es .braced, rest)
    | _ => atom cs

/-- The items of a list and its end. A comma may stand behind the last one. -/
def items (depth : Nat) : Nat → Scan (List Value)
  | 0, _ => none
  | n + 1, cs =>
    match skipLines false cs with
    | ']' :: rest => some ([], rest)
    | cs =>
      match value depth n cs with
      | none => none
      | some (v, rest) =>
        match skipLines false rest with
        | ',' :: rest => (items depth n rest).map fun (vs, rest) => (v :: vs, rest)
        | ']' :: rest => some ([v], rest)
        | _ => none

/-- The entries of a table in braces and its end. A comma may stand behind the last one. -/
def members (depth : Nat) : Nat → Entries → Scan Entries
  | 0, _, _ => none
  | n + 1, es, cs =>
    match skipLines false cs with
    | '\x7d' :: rest => some (es, rest)
    | cs =>
      match assignment true depth n cs with
      | none => none
      | some ((path, name, v), rest) =>
        match es.assign name v true path with
        | none => none
        | some es =>
          match skipLines false rest with
          | ',' :: rest => members depth n es rest
          | '\x7d' :: rest => some (es, rest)
          | _ => none

/-- A key, an equals sign and a value. In braces there may be line breaks between them. -/
def assignment (braced : Bool) (depth : Nat) : Nat → Scan (List String × String × Value)
  | 0, _ => none
  | n + 1, cs =>
    match key cs with
    | none => none
    | some ((path, name), rest) =>
      match skipBetween braced rest with
      | '=' :: rest =>
        (value depth n (skipBetween braced rest)).map fun (v, rest) => ((path, name, v), rest)
      | _ => none

end

def statement : Scan Statement := fun cs =>
  match cs with
  | '[' :: '[' :: cs => do
    let ((path, name), rest) ← key (skipSpace cs)
    match skipSpace rest with
    | ']' :: ']' :: rest => some (.tables path name, rest)
    | _ => none
  | '[' :: cs => do
    let ((path, name), rest) ← key (skipSpace cs)
    match skipSpace rest with
    | ']' :: rest => some (.table path name, rest)
    | _ => none
  | _ => (assignment false maxDepth (3 * cs.length) cs).map fun ((path, name, v), rest) =>
      (.assign path name v, rest)

def lineEnd : Scan Unit := fun cs =>
  match skipComment (skipSpace cs) with
  | [] => some ((), [])
  | cs => (newline? cs).map fun rest => ((), rest)

def lines : Nat → Document → List Char → Option Document
  | 0, _, _ => none
  | n + 1, d, cs =>
    match skipSpace cs with
    | [] => some d
    | cs =>
      match lineEnd cs with
      | some (_, rest) => lines n d rest
      | none =>
        match statement cs with
        | none => none
        | some (s, rest) =>
          match d.apply s, lineEnd rest with
          | some d, some (_, rest) => lines n d rest
          | _, _ => none

/-- A byte order mark in front of a document does not count. -/
def dropMark (cs : List Char) : List Char :=
  match cs with
  | c :: rest => if c.toNat = 0xfeff then rest else cs
  | [] => []

def read (s : String) : Option Entries :=
  let cs := dropMark s.toList
  (lines (cs.length + 1) {} cs).map (·.root)

end Syllogism.Toml
