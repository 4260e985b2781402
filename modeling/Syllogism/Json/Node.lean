import Syllogism.Json.Token

/-! JSON texts as trees. A text that breaks off or goes wrong still has a tree: it reaches as far as
the text makes sense and says at its last place what is wrong there. Whoever reads a tree in the
order of the text meets the first problem first, be it a broken text or an unwanted value. -/
namespace Syllogism.Json

inductive Ending
  | closed
  /-- Something else stood where the container should go on; nothing, if the text ended. `atKey`
  tells that a key was due there. -/
  | stuck (atKey : Bool) (found : Option Token)
  deriving DecidableEq

inductive Node
  | null
  | truth (b : Bool)
  | number (n : Numeral)
  | text (t : Text)
  | list (items : List Node) (ending : Ending)
  | object (members : List (Text × Node)) (ending : Ending)
  /-- The text ended where a value was due. -/
  | missing
  /-- Something that is no value stood where one was due. -/
  | flawed (quoted : Bool) (flaw : Flaw)

/-- A container that is still open, its latest part first. -/
inductive Frame
  | list (items : List Node)
  | object (members : List (Text × Node)) (key : Text)

namespace Frame

/-- The container with one more value in it, broken off behind that value. -/
def breakOff : Frame → Node → Node
  | list items, v => .list (v :: items).reverse (.stuck false none)
  | object members key, v => .object ((key, v) :: members).reverse (.stuck false none)

end Frame

inductive Expect
  | value
  /-- The first item of a list or its end. -/
  | firstItem
  /-- The value is complete. -/
  | after (v : Node)
  /-- A key, or the end of the object if none has come yet. -/
  | key (members : List (Text × Node)) (first : Bool)
  | colon (members : List (Text × Node)) (key : Text)

/-- The tree of a text, and whether only space follows it. -/
structure Document where
  root : Node
  complete : Bool

/-- The state of building a tree: the open containers, innermost first, and what may come next; or
the tree, once the text has gone wrong. -/
inductive Building
  | reading (stack : List Frame) (expect : Expect)
  | stopped (document : Document)

namespace Building

def start : Building := .reading [] .value

/-- The tree of a text whose last value is `v`, with every container broken off. -/
def breakOff (stack : List Frame) (v : Node) : Document :=
  ⟨stack.foldl (fun v f => f.breakOff v) v, true⟩

def stop (stack : List Frame) (v : Node) : Building := .stopped (breakOff stack v)

def flawOf : Token → Node
  | .flawed quoted flaw => .flawed quoted flaw
  | _ => .flawed false .malformed

def stepValue (stack : List Frame) : Token → Building
  | .null => .reading stack (.after .null)
  | .truth b => .reading stack (.after (.truth b))
  | .number n => .reading stack (.after (.number n))
  | .text t => .reading stack (.after (.text t))
  | .openList => .reading (.list [] :: stack) .firstItem
  | .openObject => .reading stack (.key [] true)
  | t => stop stack (flawOf t)

def stepAfter (v : Node) (t : Token) : List Frame → Building
  | [] => .stopped ⟨v, false⟩
  | .list items :: stack =>
    match t with
    | .comma => .reading (.list (v :: items) :: stack) .value
    | .closeList => .reading stack (.after (.list (v :: items).reverse .closed))
    | t => stop stack (.list (v :: items).reverse (.stuck false (some t)))
  | .object members k :: stack =>
    match t with
    | .comma => .reading stack (.key ((k, v) :: members) false)
    | .closeObject => .reading stack (.after (.object ((k, v) :: members).reverse .closed))
    | t => stop stack (.object ((k, v) :: members).reverse (.stuck false (some t)))

def stepKey (stack : List Frame) (members : List (Text × Node)) (first : Bool) : Token → Building
  | .text k => .reading stack (.colon members k)
  | .closeObject =>
    if first then .reading stack (.after (.object members.reverse .closed))
    else stop stack (.object members.reverse (.stuck true (some .closeObject)))
  | t => stop stack (.object members.reverse (.stuck true (some t)))

def step (b : Building) (t : Token) : Building :=
  match b with
  | .stopped d => .stopped d
  | .reading stack .value => stepValue stack t
  | .reading stack .firstItem =>
    match stack, t with
    | .list items :: rest, .closeList => .reading rest (.after (.list items.reverse .closed))
    | _, _ => stepValue stack t
  | .reading stack (.after v) => stepAfter v t stack
  | .reading stack (.key members first) => stepKey stack members first t
  | .reading stack (.colon members k) =>
    match t with
    | .colon => .reading (.object members k :: stack) .value
    | _ => stop (.object members k :: stack) (.flawed false .malformed)

def finish : Building → Document
  | .stopped d => d
  | .reading [] (.after v) => ⟨v, true⟩
  | .reading (f :: stack) (.after v) => breakOff stack (f.breakOff v)
  | .reading stack .value => breakOff stack .missing
  | .reading stack .firstItem => breakOff stack.tail (.list [] (.stuck false none))
  | .reading stack (.key members _) => breakOff stack (.object members.reverse (.stuck true none))
  | .reading stack (.colon members k) => breakOff (.object members k :: stack) .missing

end Building

def Document.ofTokens (ts : List Token) : Document := (ts.foldl Building.step .start).finish

def Document.ofString (s : String) : Document := .ofTokens (Token.ofString s)

end Syllogism.Json
