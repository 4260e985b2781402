/-! Numbers of JSON texts: their spelling and their value. Whole numbers that fit a 64-bit word are
exact; everything else is a binary floating-point number. -/
namespace Syllogism.Json

inductive Number
  | natural (n : Nat)
  /-- The opposite of `n`, which is at least one. -/
  | negative (n : Nat)
  | real (x : Float)

structure Numeral where
  negative : Bool := false
  whole : List Nat
  fraction : List Nat := []
  /-- The digits of the exponent and whether it is below zero. -/
  exponent : Option (Bool × List Nat) := none
  deriving DecidableEq

def wordLimit : Nat := Nat.pow 2 64

/-- A decimal significand with the power of ten that belongs to it. -/
structure Scaled where
  significand : Nat := 0
  exponent : Int := 0

namespace Scaled

/-- Appends digits as long as the significand fits a word, and gives those that are left. -/
def append (s : Scaled) : List Nat → Scaled × List Nat
  | [] => (s, [])
  | d :: ds =>
    if s.significand * 10 + d < wordLimit then
      ({ s with significand := s.significand * 10 + d } : Scaled).append ds
    else (s, d :: ds)

/-- Digits before the point that do not fit count as powers of ten. -/
def whole (digits : List Nat) : Scaled :=
  let (s, left) := ({} : Scaled).append digits
  { s with exponent := left.length }

/-- Digits behind the point that do not fit are dropped. -/
def withFraction (s : Scaled) (digits : List Nat) : Scaled :=
  let (t, left) := s.append digits
  { t with exponent := s.exponent - ((digits.length - left.length : Nat) : Int) }

def powerOfTen (n : Nat) : Float := Float.ofScientific 1 false n

/-- The significand times its power of ten, or nothing if that is too large. Powers below the
smallest one that can be represented are divided out in two steps. -/
def toFloat? (s : Scaled) : Option Float :=
  let x := s.significand.toUInt64.toFloat
  if 0 ≤ s.exponent then
    if s.exponent ≤ 308 then
      let y := x * powerOfTen s.exponent.toNat
      if y.isInf then none else some y
    else if s.significand = 0 then some x
    else none
  else
    let k := (-s.exponent).toNat
    if k ≤ 308 then some (x / powerOfTen k)
    else if k ≤ 616 then some (x / powerOfTen 308 / powerOfTen (k - 308))
    else some 0

end Scaled

def ofDigits (digits : List Nat) : Nat := digits.foldl (fun n d => n * 10 + d) 0

namespace Numeral

/-- Exponents are counted up to this bound; beyond it they only say "huge". -/
def exponentLimit : Nat := Nat.pow 2 31

def float? (n : Numeral) : Option Float :=
  let s := (Scaled.whole n.whole).withFraction n.fraction
  match n.exponent with
  | none => s.toFloat?
  | some (below, digits) =>
    let e := ofDigits digits
    if e < exponentLimit then
      ({ s with exponent := if below then s.exponent - e else s.exponent + e } : Scaled).toFloat?
    else if !below && s.significand ≠ 0 then none
    else some 0

def value? (n : Numeral) : Option Number :=
  let k := ofDigits n.whole
  if n.fraction.isEmpty && n.exponent.isNone && k < wordLimit &&
      (!n.negative || (0 < k && k ≤ Nat.pow 2 63)) then
    some (if n.negative then .negative k else .natural k)
  else n.float?.map fun x => .real (if n.negative then -x else x)

end Numeral

end Syllogism.Json
