/-! Shortest decimals: the fewest digits that read back as a given binary floating-point number, and
of those the nearest to it. All arithmetic is exact. -/
namespace Syllogism.Decimal

/-- A positive binary floating-point number `m * 2^q`, with the gap to its lower neighbour halved
if `narrow`. -/
structure Binary where
  m : Nat
  q : Int
  narrow : Bool

def Binary.ofBits (bits : Nat) : Binary :=
  let fraction : Nat := bits % Nat.pow 2 52
  let exponent : Nat := bits / Nat.pow 2 52 % Nat.pow 2 11
  if exponent = 0 then ⟨fraction, -1074, false⟩
  else ⟨fraction + Nat.pow 2 52, (exponent : Int) - 1075, fraction = 0 && 1 < exponent⟩

structure Ratio where
  num : Nat
  den : Nat

/-- `n * 2^q * 10^e` as a ratio. -/
def Ratio.scale (n : Nat) (q e : Int) : Ratio where
  num := n * Nat.pow 2 q.toNat * Nat.pow 10 e.toNat
  den := Nat.pow 2 (-q).toNat * Nat.pow 10 (-e).toNat

/-- Whether the grid point `d` reads back as the number, everything scaled by `10^e`. The ends of
the interval belong to it if the significand is even. -/
def Binary.reads (b : Binary) (e : Int) (d : Nat) : Bool :=
  let low := Ratio.scale (4 * b.m - (if b.narrow then 1 else 2)) (b.q - 2) e
  let high := Ratio.scale (4 * b.m + 2) (b.q - 2) e
  if b.m % 2 = 0 then low.num ≤ d * low.den && d * high.den ≤ high.num
  else low.num < d * low.den && d * high.den < high.num

/-- The point of the grid with step `10^(-e)` that reads back as the number, if there is one: of two
such points the nearer, and of two equally near the even one. -/
def Binary.onGrid? (b : Binary) (e : Int) : Option Nat :=
  let v := Ratio.scale b.m b.q e
  let down := v.num / v.den
  let up := down + 1
  let rest := v.num % v.den
  let downReads := b.reads e down && down ≠ 0
  if downReads && b.reads e up then
    if 2 * rest < v.den then some down
    else if v.den < 2 * rest then some up
    else some (if down % 2 = 0 then down else up)
  else if downReads then some down
  else if b.reads e up then some up
  else none

/-- The exponent of the leading digit, found by counting up from `from`. -/
def leadingExponent (b : Binary) : Nat → Int → Int
  | 0, e => e
  | n + 1, e =>
    let v := Ratio.scale b.m b.q (-(e + 1))
    if v.den ≤ v.num then leadingExponent b n (e + 1) else e

def search (b : Binary) (lead : Int) : Nat → Nat → Nat × Int
  | 0, digits => (0, (digits : Int) - 1 - lead)
  | n + 1, digits =>
    let e := (digits : Int) - 1 - lead
    match b.onGrid? e with
    | some d => (d, e)
    | none => search b lead n (digits + 1)

/-- Digits without trailing zeros, and the exponent of the leading one. -/
structure Digits where
  digits : List Char
  lead : Int

def Binary.shortest (b : Binary) : Digits :=
  let lead := leadingExponent b 700 (-330)
  let (d, e) := search b lead 17 1
  let ds := Nat.toDigits 10 d
  let trimmed := (ds.reverse.dropWhile (· = '0')).reverse
  ⟨trimmed, (ds.length : Int) - 1 - e⟩

end Syllogism.Decimal
