import Syllogism.Settings
import Syllogism.Toml.Reader

/-! Settings as TOML documents. Every key may be left out, and keys of other programs are passed
over as long as their values can be represented. -/
namespace Syllogism

namespace Toml

namespace Value

mutual

/-- Whether all numbers in a value are within range. -/
def representable : Value → Bool
  | integer n => -Int.pow 2 127 ≤ n && n < Int.pow 2 128
  | real ok => ok
  | list vs _ => representableItems vs
  | table es _ => representableEntries es
  | text _ => true
  | truth _ => true
  | moment => true

def representableItems : List Value → Bool
  | [] => true
  | v :: vs => representable v && representableItems vs

def representableEntries : List (String × Value) → Bool
  | [] => true
  | (_, v) :: es => representable v && representableEntries es

end

def asNatural? : Value → Option Nat
  | integer n => if 0 ≤ n && n < Int.pow 2 64 then some n.toNat else none
  | _ => none

def asBool? : Value → Option Bool
  | truth b => some b
  | _ => none

def asText? : Value → Option String
  | text s => some s
  | _ => none

def isHollow : Value → Bool
  | list [] _ => true
  | table [] _ => true
  | _ => false

/-- A relation, written as its name or as a table with the name as its only key. -/
def asRelation? : Value → Option Relation
  | text s => Relation.all.find? (·.key = s)
  | table [(k, v)] _ => if v.isHollow then Relation.all.find? (·.key = k) else none
  | _ => none

end Value

end Toml

namespace PolicyChoice

open Toml

def put (c : PolicyChoice) (key : String) (v : Value) : Option PolicyChoice :=
  if key = "partial_function" then v.asRelation?.map fun r => { c with partialFunction := r }
  else if key = "anti" then v.asRelation?.map fun r => { c with anti := r }
  else if v.representable then some c else none

def putAll (c : PolicyChoice) : Entries → Option PolicyChoice
  | [] => some c
  | (k, v) :: es => (c.put k v).bind (·.putAll es)

/-- Policies as a table, or as a list of the relations in order. A date or a time counts as a table
that says nothing about them. -/
def ofToml? : Value → Option PolicyChoice
  | .table es _ => ({} : PolicyChoice).putAll es
  | .moment => some {}
  | .list [] _ => some {}
  | .list [p] _ => p.asRelation?.map fun p => { partialFunction := p }
  | .list (p :: a :: _) _ => do
    let p ← p.asRelation?
    let a ← a.asRelation?
    return { partialFunction := p, anti := a }
  | _ => none

end PolicyChoice

namespace Settings

open Toml

def put (s : Settings) (key : String) (v : Value) : Option Settings :=
  if key = "max_rounds" then v.asNatural?.map fun n => { s with maxRounds := some n }
  else if key = "stop_on_target" then v.asBool?.map fun b => { s with stopOnTarget := b }
  else if key = "log_level" then v.asText?.map fun t => { s with logLevel := t }
  else if key = "policies" then (PolicyChoice.ofToml? v).map fun c => { s with policies := c }
  else if v.representable then some s else none

def putAll (s : Settings) : Entries → Option Settings
  | [] => some s
  | (k, v) :: es => (s.put k v).bind (·.putAll es)

def ofToml (text : String) : Except SettingsFault Settings :=
  match (Toml.read text).bind (({} : Settings).putAll ·) with
  | none => .error .unreadable
  | some s => s.validate.map fun _ => s

end Settings

namespace Toml

/-- What decides how a string is written. -/
structure StringNeeds where
  /-- Controls other than the tab and the line break. -/
  controls : Bool
  backslash : Bool
  lineBreak : Bool
  /-- The longest runs of single and double quotes. -/
  single : Nat
  double : Nat

def longestRun (c : Char) (cs : List Char) : Nat :=
  (cs.foldl (fun (best, now) d => if d = c then (max best (now + 1), now + 1) else (best, 0))
    (0, 0)).1

def StringNeeds.of (cs : List Char) : StringNeeds where
  controls := cs.any fun c => isControl c && c ≠ '\n'
  backslash := cs.contains '\x5c'
  lineBreak := cs.contains '\n'
  single := longestRun '\x27' cs
  double := longestRun '"' cs

def escapeNumber (c : Char) : List Char :=
  ['\x5c', 'u', '0', '0', (Nat.digitChar (c.toNat / 16)).toUpper,
    (Nat.digitChar (c.toNat % 16)).toUpper]

/-- A character other than a quote inside a string with escapes. -/
def escapeChar (multiline : Bool) (c : Char) : List Char :=
  if c = '\x08' then ['\x5c', 'b']
  else if c = '\t' then ['\x5c', 't']
  else if c = '\n' then (if multiline then ['\n'] else ['\x5c', 'n'])
  else if c = '\x0c' then ['\x5c', 'f']
  else if c = '\x0d' then ['\x5c', 'r']
  else if c = '\x5c' then ['\x5c', '\x5c']
  else if isControl c then escapeNumber c
  else [c]

/-- The inside of a string with escapes. Of a run of double quotes the first `allowed` stand for
themselves; `run` of them have been written. -/
def escapeAll (multiline : Bool) (allowed : Nat) : Nat → List Char → List Char
  | _, [] => []
  | run, c :: cs =>
    if c = '"' then
      if run < allowed then '"' :: escapeAll multiline allowed (run + 1) cs
      else '\x5c' :: '"' :: escapeAll multiline allowed 0 cs
    else escapeChar multiline c ++ escapeAll multiline allowed 0 cs

def quoteBasic (cs : List Char) : List Char := '"' :: escapeAll false 0 0 cs ++ ['"']

def quoteLiteral (cs : List Char) : List Char := '\x27' :: cs ++ ['\x27']

/-- The line break behind the opening quotes of a text that has line breaks itself. -/
def firstBreak (cs : List Char) : List Char := if cs.contains '\n' then ['\n'] else []

def quoteMultilineBasic (cs : List Char) : List Char :=
  ['"', '"', '"'] ++ firstBreak cs ++ escapeAll true 2 0 cs ++ ['"', '"', '"']

def quoteMultilineLiteral (cs : List Char) : List Char :=
  ['\x27', '\x27', '\x27'] ++ firstBreak cs ++ cs ++ ['\x27', '\x27', '\x27']

/-- A string in the plainest form that needs no escapes, if there is one. -/
def quote (s : String) : String :=
  let cs := s.toList
  let n := StringNeeds.of cs
  String.ofList <|
    if !n.controls && !n.backslash && n.double = 0 && !n.lineBreak then quoteBasic cs
    else if !n.controls && n.single = 0 && !n.lineBreak then quoteLiteral cs
    else if !n.controls && !n.backslash && n.double ≤ 2 then quoteMultilineBasic cs
    else if !n.controls && n.single ≤ 2 then quoteMultilineLiteral cs
    else if n.lineBreak then quoteMultilineBasic cs
    else quoteBasic cs

end Toml

namespace Settings

def toToml (s : Settings) : String :=
  (match s.maxRounds with
    | some n => "max_rounds = " ++ toString n ++ "\n"
    | none => "") ++
  "stop_on_target = " ++ (if s.stopOnTarget then "true" else "false") ++ "\n" ++
  "log_level = " ++ Toml.quote s.logLevel ++ "\n\n[policies]\n" ++
  "partial_function = \"" ++ s.policies.partialFunction.key ++ "\"\n" ++
  "anti = \"" ++ s.policies.anti.key ++ "\"\n"

end Settings

end Syllogism
