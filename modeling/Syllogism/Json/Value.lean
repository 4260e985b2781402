import Syllogism.Decimal.Shortest
import Syllogism.Json.Numeral

/-! JSON values and the two ways of writing them: without any space, or over several lines with an
indentation of two spaces. -/
namespace Syllogism.Json

inductive Value
  | null
  | truth (b : Bool)
  | number (n : Number)
  | text (s : String)
  | list (items : List Value)
  | object (members : List (String × Value))

namespace Value

def natural (n : Nat) : Value := .number (.natural n)

end Value

/-- A positive finite number: positional from `1e-5` to below `1e16`, with at least one digit behind
the point, and with an exponent otherwise. -/
def showMagnitude (d : Decimal.Digits) : String :=
  let n : Int := d.digits.length
  if -5 ≤ d.lead && d.lead ≤ 15 then
    if d.lead < 0 then
      "0." ++ String.ofList (List.replicate (-d.lead - 1).toNat '0') ++ String.ofList d.digits
    else if n ≤ d.lead + 1 then
      String.ofList d.digits ++ String.ofList (List.replicate (d.lead + 1 - n).toNat '0') ++ ".0"
    else
      String.ofList (d.digits.take (d.lead + 1).toNat) ++ "." ++
        String.ofList (d.digits.drop (d.lead + 1).toNat)
  else
    let tail := d.digits.drop 1
    String.ofList (d.digits.take 1) ++ (if tail.isEmpty then "" else "." ++ String.ofList tail) ++
      "e" ++ (if d.lead < 0 then "-" else "+") ++ toString d.lead.natAbs

def showFloat (x : Float) : String :=
  let bits := x.toBits.toNat
  let sign := if Nat.pow 2 63 ≤ bits then "-" else ""
  if bits % Nat.pow 2 63 = 0 then sign ++ "0.0"
  else sign ++ showMagnitude (Decimal.Binary.ofBits bits).shortest

def Number.render : Number → String
  | natural n => toString n
  | negative n => "-" ++ toString n
  | real x => showFloat x

/-- A character inside a string. Quotes, backslashes and controls are escaped. -/
def escapeChar (c : Char) : List Char :=
  if c = '"' then ['\\', '"']
  else if c = '\\' then ['\\', '\\']
  else if c = '\x08' then ['\\', 'b']
  else if c = '\x0c' then ['\\', 'f']
  else if c = '\n' then ['\\', 'n']
  else if c = '\x0d' then ['\\', 'r']
  else if c = '\t' then ['\\', 't']
  else if c.toNat < 0x20 then
    ['\\', 'u', '0', '0', Nat.digitChar (c.toNat / 16), Nat.digitChar (c.toNat % 16)]
  else [c]

def escapeText (s : String) : List Char := '"' :: s.toList.flatMap escapeChar ++ ['"']

namespace Value

def scalar : Value → List Char
  | null => ['n', 'u', 'l', 'l']
  | truth true => ['t', 'r', 'u', 'e']
  | truth false => ['f', 'a', 'l', 's', 'e']
  | number n => n.render.toList
  | text s => escapeText s
  | list _ => []
  | object _ => []

mutual

def compact : Value → List Char
  | list items => '[' :: compactItems items
  | object members => '\x7b' :: compactMembers members
  | v => scalar v

def compactItems : List Value → List Char
  | [] => [']']
  | [v] => compact v ++ [']']
  | v :: vs => compact v ++ ',' :: compactItems vs

def compactMembers : List (String × Value) → List Char
  | [] => ['\x7d']
  | [(k, v)] => escapeText k ++ ':' :: compact v ++ ['\x7d']
  | (k, v) :: ms => escapeText k ++ ':' :: compact v ++ ',' :: compactMembers ms

end

def newLine (depth : Nat) : List Char := '\n' :: List.replicate (2 * depth) ' '

mutual

def prettyAt (depth : Nat) : Value → List Char
  | list items => '[' :: prettyItems depth items
  | object members => '\x7b' :: prettyMembers depth members
  | v => scalar v

def prettyItems (depth : Nat) : List Value → List Char
  | [] => [']']
  | [v] => newLine (depth + 1) ++ prettyAt (depth + 1) v ++ newLine depth ++ [']']
  | v :: vs => newLine (depth + 1) ++ prettyAt (depth + 1) v ++ ',' :: prettyItems depth vs

def prettyMembers (depth : Nat) : List (String × Value) → List Char
  | [] => ['\x7d']
  | [(k, v)] =>
    newLine (depth + 1) ++ escapeText k ++ ':' :: ' ' :: prettyAt (depth + 1) v ++
      newLine depth ++ ['\x7d']
  | (k, v) :: ms =>
    newLine (depth + 1) ++ escapeText k ++ ':' :: ' ' :: prettyAt (depth + 1) v ++
      ',' :: prettyMembers depth ms

end

def render (v : Value) : String := String.ofList v.compact

def renderPretty (v : Value) : String := String.ofList (v.prettyAt 0)

end Value

end Syllogism.Json
