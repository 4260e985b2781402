import Syllogism.Json.Reader

/-! Values that carry a tag. The tag may stand anywhere in an object, so everything else is read as
plain JSON first and given its type when the tag is known. -/
namespace Syllogism.Json

/-- The number of containers that may be open inside a text that is read as plain JSON. -/
def maxDepth : Nat := 127

namespace Node

mutual

/-- Reads plain JSON in which at most `room` more containers may be nested. -/
def plain (room : Nat) : Node → Read Value
  | null => .ok .null
  | truth b => .ok (.truth b)
  | number n => n.read.map .number
  | text t => (Text.read t).map .text
  | list items ending =>
    if room = 0 then failText .malformed
    else do
      let vs ← plainItems (room - 1) items
      ending.read
      return .list vs
  | object members ending =>
    if room = 0 then failText .malformed
    else do
      let ms ← plainMembers (room - 1) members
      ending.read
      return .object ms
  | missing => failText .cut
  | flawed _ flaw => failText flaw.read

def plainItems (room : Nat) : List Node → Read (List Value)
  | [] => .ok []
  | v :: vs => do
    let x ← plain room v
    let xs ← plainItems room vs
    return x :: xs

def plainMembers (room : Nat) : List (Text × Node) → Read (List (String × Value))
  | [] => .ok []
  | (k, v) :: ms => do
    let key ← Text.read k
    let x ← plain room v
    let xs ← plainMembers room ms
    return (key, x) :: xs

end

def tagName : String := "kind"

/-- Reads the members of a tagged object: the tag, once it has come, and the others as plain JSON,
latest first. -/
def taggedMembers {τ : Type} (tags : List (String × τ)) (room : Nat) :
    Option τ → List (String × Value) → List (Text × Node) → Read (Option τ × List (String × Value))
  | tag, others, [] => .ok (tag, others)
  | tag, others, (k, v) :: ms => do
    let key ← Text.read k
    if key = tagName then
      if tag.isSome then failData (.duplicateField tagName)
      else do
        let t ← v.asVariantName tags
        taggedMembers tags room (some t) others ms
    else do
      let x ← plain room v
      taggedMembers tags room tag ((key, x) :: others) ms

/-- A tagged value: its tag, and the rest as an object or as a list. In a list the tag comes
first. -/
def asTagged {τ : Type} (title : String) (tags : List (String × τ)) (room : Nat) (v : Node) :
    Read (τ × Value) :=
  match v with
  | object members ending =>
    if room = 0 then failText .malformed
    else do
      let (tag, others) ← taggedMembers tags (room - 1) none [] members
      ending.read
      match tag with
      | some t => .ok (t, .object others.reverse)
      | none => failData (.missingField tagName)
  | list items ending =>
    if room = 0 then failText .malformed
    else
      match items with
      | [] => do
        ending.read
        failData (.missingField tagName)
      | v :: vs => do
        let t ← v.asVariantName tags
        let xs ← plainItems (room - 1) vs
        ending.read
        return (t, .list xs)
  | v => v.unexpected title

end Node

namespace Value

def found : Value → Found
  | null => .null
  | truth b => .truth b
  | number n => .number n
  | text s => .text s
  | list _ => .sequence
  | object _ => .mapping

def unexpected {α : Type} (v : Value) (expected : String) : Read α :=
  failData (.wrongType v.found expected)

def asText (v : Value) : Read String :=
  match v with
  | text s => .ok s
  | _ => v.unexpected "a string"

def asNatural (v : Value) : Read Nat :=
  match v with
  | number n => n.asNatural
  | _ => v.unexpected "usize"

/-- Null, or an object without members. -/
def asUnit (v : Value) : Read Unit :=
  match v with
  | null => .ok ()
  | object [] => .ok ()
  | _ => v.unexpected "unit"

def readItems {α : Type} (item : Value → Read α) : List Value → Read (List α)
  | [] => .ok []
  | v :: vs => do
    let x ← item v
    let xs ← readItems item vs
    return x :: xs

def asList {α : Type} (item : Value → Read α) (v : Value) : Read (List α) :=
  match v with
  | list items => readItems item items
  | _ => v.unexpected "a sequence"

/-- One of several alternatives, written as its name or as an object with the name as its only key
and nothing as the value. -/
def asVariant {α : Type} (variants : List (String × α)) (v : Value) : Read α :=
  match v with
  | text s => findVariant variants s
  | object [(k, v)] => do
    let x ← findVariant variants k
    v.asUnit
    return x
  | object _ => failData (.wrongValue .mapping "map with a single key")
  | _ => v.unexpected "string or map"

/-- Fails unless a list ended with the last element that was wanted. -/
def noMore (wanted : Nat) (items : List Value) : Read Unit :=
  if items.length ≤ wanted then .ok ()
  else failData (.wrongLength items.length (countElements wanted ++ " in sequence"))

end Value

namespace Shape

variable {ρ α : Type}

def plainMembers (s : Shape Value ρ α) : ρ → List (String × Value) → Read ρ
  | r, [] => .ok r
  | r, (k, v) :: ms => do
    let r ← s.readPart (fun _ => .ok ()) r k v
    s.plainMembers r ms

def plainInOrder : List (Field Value ρ) → ρ → List Value → Read ρ
  | f :: fs, r, v :: vs => do
    let r ← f.fill r v
    plainInOrder fs r vs
  | _, r, _ => .ok r

def readPlain (s : Shape Value ρ α) (v : Value) : Read α :=
  match v with
  | .object members => do
    let r ← s.plainMembers s.blank members
    s.named r
  | .list items => do
    let r ← plainInOrder s.fields s.blank items
    let x ← s.listed r
    Value.noMore s.fields.length items
    return x
  | v => v.unexpected s.title

/-- A record out of plain JSON that is only ever written as a list. -/
def readPlainList (s : Shape Value ρ α) (v : Value) : Read α :=
  match v with
  | .list items => do
    let r ← plainInOrder s.fields s.blank items
    let x ← s.listed r
    Value.noMore s.fields.length items
    return x
  | v => v.unexpected s.title

end Shape

end Syllogism.Json
