import Syllogism.Json.Mismatch
import Syllogism.Json.Node

/-! Reading typed values off the tree of a text, in the order of the text. -/
namespace Syllogism.Json

/-- The string, unless it has a lone surrogate. -/
def Text.read (t : Text) : Read String :=
  match t with
  | some s => .ok s
  | none => failText .malformed

def Numeral.read (n : Numeral) : Read Number :=
  match n.value? with
  | some v => .ok v
  | none => failText .malformed

def Number.asNatural : Number → Read Nat
  | .natural n => .ok n
  | .negative n => failData (.wrongValue (.number (.negative n)) "usize")
  | .real x => failData (.wrongType (.number (.real x)) "usize")

namespace Ending

/-- The fault of a container that does not end well, as seen by a reader. -/
def read : Ending → Read Unit
  | closed => .ok ()
  | stuck _ none => failText .cut
  | stuck true (some (.flawed true flaw)) => failText flaw.read
  | stuck _ (some _) => failText .malformed

/-- The fault of a container that does not end well, as seen by somebody who skips it. -/
def skip : Ending → Read Unit
  | closed => .ok ()
  | stuck _ none => failText .cut
  | stuck true (some (.flawed true flaw)) => failText flaw.skip
  | stuck _ (some _) => failText .malformed

/-- The fault of a container in which nothing more is expected: a comma is as bad as any other
token. -/
def readLast : Ending → Read Unit
  | closed => .ok ()
  | stuck false none => failText .cut
  | stuck _ _ => failText .malformed

end Ending

namespace Node

/-- What stands at this place, for a message. Lists and objects are not looked into. -/
def found : Node → Read Found
  | null => .ok .null
  | truth b => .ok (.truth b)
  | number n => n.read.map .number
  | text t => (Text.read t).map .text
  | list _ _ => .ok .sequence
  | object _ _ => .ok .mapping
  | missing => failText .cut
  | flawed _ flaw => failText flaw.read

def unexpected {α : Type} (v : Node) (expected : String) : Read α :=
  match v.found with
  | .error e => .error e
  | .ok found => failData (.wrongType found expected)

mutual

/-- Checks the form of a value that nobody wants. -/
def skip : Node → Read Unit
  | list items ending => (skipItems items).bind fun _ => ending.skip
  | object members ending => (skipMembers members).bind fun _ => ending.skip
  | missing => failText .cut
  | flawed _ flaw => failText flaw.skip
  | null => .ok ()
  | truth _ => .ok ()
  | number _ => .ok ()
  | text _ => .ok ()

def skipItems : List Node → Read Unit
  | [] => .ok ()
  | v :: vs => (skip v).bind fun _ => skipItems vs

def skipMembers : List (Text × Node) → Read Unit
  | [] => .ok ()
  | (_, v) :: ms => (skip v).bind fun _ => skipMembers ms

end

def asText (v : Node) : Read String :=
  match v with
  | text t => Text.read t
  | _ => v.unexpected "a string"

def asBool (v : Node) : Read Bool :=
  match v with
  | truth b => .ok b
  | _ => v.unexpected "a boolean"

def asNatural (v : Node) : Read Nat :=
  match v with
  | number n => n.read.bind Number.asNatural
  | _ => v.unexpected "usize"

def asUnit (v : Node) : Read Unit :=
  match v with
  | null => .ok ()
  | _ => v.unexpected "unit"

def readItems {α : Type} (item : Node → Read α) : List Node → Read (List α)
  | [] => .ok []
  | v :: vs => do
    let x ← item v
    let xs ← readItems item vs
    return x :: xs

def asList {α : Type} (item : Node → Read α) (v : Node) : Read (List α) :=
  match v with
  | list items ending => do
    let xs ← readItems item items
    ending.read
    return xs
  | _ => v.unexpected "a sequence"

/-- Null stands for nothing. -/
def asOption {α : Type} (item : Node → Read α) (v : Node) : Read (Option α) :=
  match v with
  | null => .ok none
  | v => (item v).map some

def readPairs : List (Text × Node) → Read (List (String × String))
  | [] => .ok []
  | (k, v) :: ms => do
    let k ← Text.read k
    let v ← v.asText
    let ps ← readPairs ms
    return (k, v) :: ps

/-- An object whose keys are free and whose values are strings, in the order of the text. -/
def asPairs (v : Node) : Read (List (String × String)) :=
  match v with
  | object members ending => do
    let ps ← readPairs members
    ending.read
    return ps
  | _ => v.unexpected "a map"

end Node

def findVariant {α : Type} (variants : List (String × α)) (name : String) : Read α :=
  match variants.lookup name with
  | some x => .ok x
  | none => failData (.unknownVariant name (variants.map (·.1)))

namespace Node

/-- The fault of an object without a key where the name of an alternative is wanted: nothing but a
string may come first. -/
def noKey (ending : Ending) {α : Type} : Read α :=
  match ending with
  | .stuck _ none => failText .cut
  | .stuck _ (some (.flawed true flaw)) => failText flaw.read
  | _ => failText .malformed

/-- One of several alternatives, written as its name or as an object with the name as its only key
and null as the value. -/
def asVariant {α : Type} (variants : List (String × α)) (v : Node) : Read α :=
  match v with
  | text t => (Text.read t).bind (findVariant variants)
  | object [] ending => noKey ending
  | object ((k, v) :: ms) ending => do
    let name ← Text.read k
    let x ← findVariant variants name
    v.asUnit
    if ms.isEmpty then ending.readLast else failText .malformed
    return x
  | flawed true flaw => failText flaw.read
  | missing => failText .cut
  | _ => failText .malformed

def asVariantName {α : Type} (variants : List (String × α)) (v : Node) : Read α :=
  match v with
  | text t => (Text.read t).bind (findVariant variants)
  | _ => v.unexpected "variant identifier"

end Node

def countElements (n : Nat) : String := toString n ++ (if n = 1 then " element" else " elements")

/-- One field of a record that is read into `ρ` from parts of type `ι`. -/
structure Field (ι ρ : Type) where
  name : String
  /-- Whether the field has been read. -/
  filled : ρ → Bool
  fill : ρ → ι → Read ρ

/-- How a record is read: its fields in order, and what the record becomes at the end. A field that
is required and absent is reported with its place among the fields. -/
structure Shape (ι ρ α : Type) where
  /-- What the record is called in messages. -/
  title : String
  blank : ρ
  fields : List (Field ι ρ)
  finish : ρ → Except (Nat × String) α

namespace Shape

variable {ι ρ α : Type}

def named (s : Shape ι ρ α) (r : ρ) : Read α :=
  match s.finish r with
  | .ok x => .ok x
  | .error (_, name) => failData (.missingField name)

def listed (s : Shape ι ρ α) (r : ρ) : Read α :=
  match s.finish r with
  | .ok x => .ok x
  | .error (place, _) =>
    failData (.wrongLength place (s.title ++ " with " ++ countElements s.fields.length))

/-- Reads one named part. Unknown names are left to `skip`, repeated ones refused. -/
def readPart (s : Shape ι ρ α) (skip : ι → Read Unit) (r : ρ) (key : String) (v : ι) : Read ρ :=
  match s.fields.find? (·.name = key) with
  | none => (skip v).map fun _ => r
  | some f => if f.filled r then failData (.duplicateField key) else f.fill r v

def readMembers (s : Shape Node ρ α) : ρ → List (Text × Node) → Read ρ
  | r, [] => .ok r
  | r, (k, v) :: ms => do
    let key ← Text.read k
    let r ← s.readPart Node.skip r key v
    s.readMembers r ms

/-- Reads fields in order from a list. Items that are left over are malformed. -/
def readInOrder (ending : Ending) : List (Field Node ρ) → ρ → List Node → Read ρ
  | [], r, [] => ending.readLast.map fun _ => r
  | [], _, _ :: _ => failText .malformed
  | _ :: _, r, [] => ending.read.map fun _ => r
  | f :: fs, r, v :: vs => do
    let r ← f.fill r v
    readInOrder ending fs r vs

/-- A record, written as an object or as the list of its fields. -/
def read (s : Shape Node ρ α) (v : Node) : Read α :=
  match v with
  | .object members ending => do
    let r ← s.readMembers s.blank members
    ending.read
    s.named r
  | .list items ending => do
    let r ← readInOrder ending s.fields s.blank items
    s.listed r
  | v => v.unexpected s.title

/-- A record that is only ever written as a list. -/
def readList (s : Shape Node ρ α) (v : Node) : Read α :=
  match v with
  | .list items ending => do
    let r ← readInOrder ending s.fields s.blank items
    s.listed r
  | v => v.unexpected s.title

end Shape

def demand {α : Type} (place : Nat) (name : String) : Option α → Except (Nat × String) α
  | some x => .ok x
  | none => .error (place, name)

def Document.read {α : Type} (reader : Node → Read α) (d : Document) : Read α := do
  let x ← reader d.root
  if d.complete then return x else failText .malformed

def readString {α : Type} (reader : Node → Read α) (s : String) : Read α :=
  (Document.ofString s).read reader

end Syllogism.Json
