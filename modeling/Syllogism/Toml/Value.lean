/-! TOML values and the rules by which the lines of a document build its tables. -/
namespace Syllogism.Toml

/-- How a table came to be, which decides how it may be extended. -/
inductive TableOrigin
  /-- Named in a header of its own. -/
  | header
  /-- Passed through by a header. -/
  | implied
  /-- Passed through by a dotted key. -/
  | dotted
  /-- Written as a value. -/
  | braced
  deriving DecidableEq

inductive Value
  | text (s : String)
  | integer (n : Int)
  /-- A number with a fraction or an exponent; all that matters is whether it is within range. -/
  | real (inRange : Bool)
  | truth (b : Bool)
  /-- A date, a time or both. -/
  | moment
  /-- A list; `tables` tells that it consists of tables with headers. -/
  | list (items : List Value) (tables : Bool)
  | table (entries : List (String × Value)) (origin : TableOrigin)

abbrev Entries := List (String × Value)

namespace Entries

/-- Replaces what stands under a key; `f` is told what that was and may refuse. -/
def update (f : Option Value → Option Value) (key : String) : Entries → Option Entries
  | [] => (f none).map fun v => [(key, v)]
  | (k, v) :: rest =>
    if k = key then (f (some v)).map fun v => (k, v) :: rest
    else (update f key rest).map ((k, v) :: ·)

def add (key : String) (v : Value) (es : Entries) : Option Entries :=
  es.update (fun | none => some v | some _ => none) key

end Entries

def changeLast (f : Entries → Option Entries) : List Value → Option (List Value)
  | [] => none
  | [.table es origin] => (f es).map fun es => [.table es origin]
  | [_] => none
  | v :: vs => (changeLast f vs).map (v :: ·)

namespace Entries

/-- Adds a value under a dotted key. The tables on the way must be new or not named in a header of
their own, and of a list of tables the last one is meant; the value may only go into a table that
came from dotted keys, which `reached` tells of the table at hand, or right under the header. -/
def assign (key : String) (v : Value) (reached : Bool) : List String → Entries → Option Entries
  | [], es => if reached then es.add key v else none
  | p :: ps, es => es.update (fun
      | none => (assign key v true ps []).map (.table · .dotted)
      | some (.table inner .dotted) => (assign key v true ps inner).map (.table · .dotted)
      | some (.table inner .implied) => (assign key v false ps inner).map (.table · .implied)
      | some (.list items true) =>
        (changeLast (assign key v false ps) items).map (.list · true)
      | some _ => none) p

/-- Goes down the tables on the path of a header and changes the innermost one. Tables that are not
there are made; of a list of tables the last one is meant; values are closed. -/
def descend (f : Entries → Option Entries) : List String → Entries → Option Entries
  | [], es => f es
  | p :: ps, es => es.update (fun
      | none => (descend f ps []).map (.table · .implied)
      | some (.table _ .braced) => none
      | some (.table inner origin) => (descend f ps inner).map (.table · origin)
      | some (.list items true) =>
        (changeLast (descend f ps) items).map (.list · true)
      | some _ => none) p

/-- The header of a table. It may name a table that other headers have passed through. -/
def openTable (key : String) (es : Entries) : Option Entries :=
  es.update (fun
    | none => some (.table [] .header)
    | some (.table inner .implied) => some (.table inner .header)
    | some _ => none) key

def pushTable (key : String) (es : Entries) : Option Entries :=
  es.update (fun
    | none => some (.list [.table [] .header] true)
    | some (.list items true) => some (.list (items ++ [.table [] .header]) true)
    | some _ => none) key

end Entries

inductive Statement
  | assign (path : List String) (key : String) (v : Value)
  | table (path : List String) (key : String)
  | tables (path : List String) (key : String)

/-- The tables of a document so far and the header under which it stands. -/
structure Document where
  root : Entries := []
  here : List String := []

def Document.apply (d : Document) : Statement → Option Document
  | .assign path key v =>
    (d.root.descend (Entries.assign key v true path) d.here).map fun root => { d with root }
  | .table path key =>
    (d.root.descend (Entries.openTable key) path).map fun root => ⟨root, path ++ [key]⟩
  | .tables path key =>
    (d.root.descend (Entries.pushTable key) path).map fun root => ⟨root, path ++ [key]⟩

end Syllogism.Toml
