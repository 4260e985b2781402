import Syllogism.Json.Token
import Syllogism.Json.Value
import Syllogism.Text.Quoted

/-! What can be wrong with a JSON text that is read as a value of some type, and the wording. -/
namespace Syllogism.Json

inductive Found
  | null
  | truth (b : Bool)
  | number (n : Number)
  | text (s : String)
  | sequence
  | mapping

def Found.describe : Found → String
  | null => "null"
  | truth b => "boolean `" ++ (if b then "true" else "false") ++ "`"
  | number (.real x) => "floating point `" ++ showFloat x ++ "`"
  | number n => "integer `" ++ n.render ++ "`"
  | text s => "string " ++ Text.quote s
  | sequence => "sequence"
  | mapping => "map"

/-- Names in the form "`a`", "`a` or `b`", "one of `a`, `b`, `c`". -/
def alternatives : List String → String
  | [] => ""
  | [a] => "`" ++ a ++ "`"
  | [a, b] => "`" ++ a ++ "` or `" ++ b ++ "`"
  | names => "one of " ++ String.intercalate ", " (names.map fun n => "`" ++ n ++ "`")

/-- The rest of a reversed text behind a number and a word, if it begins with them. The number fits
a machine word. -/
def dropNumbered (word : String) (cs : List Char) : Option (List Char) :=
  let ds := cs.takeWhile Char.isDigit
  let rest := cs.drop ds.length
  let reversed := word.toList.reverse
  if !ds.isEmpty && ofDigits (ds.reverse.map fun c => c.toNat - '0'.toNat) < wordLimit &&
      reversed.isPrefixOf rest then some (rest.drop reversed.length)
  else none

/-- A reason without the position in a text that it may end with. -/
def dropPosition (reason : String) : String :=
  match (dropNumbered " column " reason.toList.reverse).bind (dropNumbered " at line ") with
  | some cs => String.ofList cs.reverse
  | none => reason

inductive Mismatch
  | wrongType (found : Found) (expected : String)
  | wrongValue (found : Found) (expected : String)
  | wrongLength (length : Nat) (expected : String)
  | missingField (name : String)
  | duplicateField (name : String)
  | unknownVariant (name : String) (known : List String)
  /-- The value cannot be made of what was read. Where that was is not part of the reason. -/
  | refused (reason : String)

def Mismatch.message : Mismatch → String
  | wrongType found expected => "invalid type: " ++ found.describe ++ ", expected " ++ expected
  | wrongValue found expected => "invalid value: " ++ found.describe ++ ", expected " ++ expected
  | wrongLength n expected => "invalid length " ++ toString n ++ ", expected " ++ expected
  | missingField name => "missing field `" ++ name ++ "`"
  | duplicateField name => "duplicate field `" ++ name ++ "`"
  | unknownVariant name known => "unknown variant `" ++ name ++ "`, expected " ++ alternatives known
  | refused reason => dropPosition reason

inductive ReadError
  | text (fault : Fault)
  | data (mismatch : Mismatch)

abbrev Read := Except ReadError

def failText {α : Type} (f : Fault) : Read α := .error (.text f)

def failData {α : Type} (m : Mismatch) : Read α := .error (.data m)

end Syllogism.Json
