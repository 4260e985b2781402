import Syllogism.Instant
import Syllogism.Text.Blank

/-! Instants as text: a date and a time of day in the form of RFC 3339, with blanks allowed between
the parts. Texts may give an offset from universal time; instants are written without one. -/
namespace Syllogism

inductive InstantFault
  | outOfRange
  | invalid
  | tooShort
  | tooLong
  | impossible
  deriving DecidableEq

def InstantFault.message : InstantFault → String
  | outOfRange => "input is out of range"
  | invalid => "input contains invalid characters"
  | tooShort => "premature end of input"
  | tooLong => "trailing input"
  | impossible => "no possible date and time matching input"

namespace Instant

abbrev Scan := StateT (List Char) (Except InstantFault)

def digitsValue (cs : List Char) : Nat := cs.foldl (fun n c => n * 10 + (c.toNat - '0'.toNat)) 0

def skipBlank : Scan Unit := modify Text.dropBlank

/-- At least one digit and at most `width`. -/
def digits (width : Nat) : Scan (List Char) := do
  let cs ← get
  match cs with
  | [] => throw .tooShort
  | c :: _ =>
    if c.isDigit then
      let ds := (cs.take width).takeWhile Char.isDigit
      set (cs.drop ds.length)
      return ds
    else throw .invalid

def field (width low high : Nat) : Scan Nat := do
  skipBlank
  let n := digitsValue (← digits width)
  if low ≤ n && n ≤ high then return n else throw .outOfRange

/-- Four digits at most, or any number of them behind a sign. -/
def anyYear : Scan Int := do
  skipBlank
  let cs ← get
  let (sign, signed) : Int × Bool :=
    match cs with
    | '-' :: _ => (-1, true)
    | '+' :: _ => (1, true)
    | _ => (1, false)
  if signed then set (cs.drop 1)
  let ds ← digits (if signed then cs.length else 4)
  let y := sign * digitsValue ds
  if -Int.pow 2 31 ≤ y && y < Int.pow 2 31 then return y else throw .outOfRange

def mark (c : Char) : Scan Unit := do
  skipBlank
  match ← get with
  | [] => throw .tooShort
  | d :: cs => if d = c then set cs else throw .invalid

def divider : Scan Unit := do
  match ← get with
  | [] => throw .tooShort
  | c :: cs => if c = 'T' || c = 't' || c = ' ' then set cs else throw .invalid

/-- The fraction of a second in nanoseconds; digits behind the ninth are dropped. -/
def fraction : Scan Nat := do
  match ← get with
  | '.' :: cs =>
    set cs
    let ds ← digits 9
    modify (·.dropWhile Char.isDigit)
    return digitsValue ds * Nat.pow 10 (9 - ds.length)
  | _ => return 0

def twoDigits : Scan (Char × Char) := do
  match ← get with
  | [] => throw .tooShort
  | [c] => throw (if c.utf8Size < 2 then .tooShort else .invalid)
  | a :: b :: cs =>
    if a.isDigit && b.isDigit then
      set cs
      return (a, b)
    else throw .invalid

def offset : Scan Int := do
  skipBlank
  let cs ← get
  if (cs.take 3).map Char.toUpper = ['U', 'T', 'C'] then
    set (cs.drop 3)
    return 0
  else
    match cs with
    | [] => throw .tooShort
    | c :: rest =>
      set rest
      if c = 'Z' || c = 'z' then return 0
      else if c = '+' || c = '-' || c = '−' then
        let (a, b) ← twoDigits
        modify (·.dropWhile fun c => c = ':' || Text.isBlank c)
        let (m, n) ← twoDigits
        if '5' < m then throw .outOfRange
        let minutes := digitsValue [a, b] * 60 + digitsValue [m, n]
        return if c = '+' then (minutes : Int) else -(minutes : Int)
      else throw .invalid

def inCalendar (y : Int) : Bool := -262143 ≤ y && y ≤ 262142

/-- A date, a time and an offset, and nothing behind them. The offset must not lead out of the
calendar. -/
def scan : Scan Instant := do
  let y ← anyYear
  mark '-'
  let month ← field 2 1 12
  mark '-'
  let day ← field 2 1 31
  divider
  let hour ← field 2 0 23
  mark ':'
  let minute ← field 2 0 59
  mark ':'
  let second ← field 2 0 60
  let nanosecond ← fraction
  let shift ← offset
  skipBlank
  if !(← get).isEmpty then throw .tooLong
  let t : Instant := ⟨y, month, day, hour, minute, second, nanosecond⟩
  if inCalendar y && day ≤ daysInMonth y month && shift.natAbs < 1440 then
    let t := t.minusMinutes shift
    if inCalendar t.year then return t else throw .impossible
  else throw .outOfRange

def ofString (s : String) : Except InstantFault Instant :=
  (scan.run s.toList).map (·.1)

def padded (width n : Nat) : String :=
  let s := toString n
  String.ofList (List.replicate (width - s.length) '0') ++ s

def showYear (y : Int) : String :=
  if 0 ≤ y && y ≤ 9999 then padded 4 y.toNat
  else (if y < 0 then "-" else "+") ++ padded 4 y.natAbs

/-- The fraction of a second with as many digits as are exact, of none, three, six and nine. -/
def showFraction (n : Nat) : String :=
  if n = 0 then ""
  else if n % 1000000 = 0 then "." ++ padded 3 (n / 1000000)
  else if n % 1000 = 0 then "." ++ padded 6 (n / 1000)
  else "." ++ padded 9 n

def render (t : Instant) : String :=
  showYear t.year ++ "-" ++ padded 2 t.month ++ "-" ++ padded 2 t.day ++ "T" ++
    padded 2 t.hour ++ ":" ++ padded 2 t.minute ++ ":" ++ padded 2 t.second ++
    showFraction t.nanosecond ++ "Z"

end Instant

end Syllogism
