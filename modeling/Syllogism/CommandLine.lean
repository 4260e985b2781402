import Syllogism.Encoding.Proof
import Syllogism.Problem
import Syllogism.Settings.Toml

/-! The command line: what the arguments ask for, which files that takes and what is printed. -/
namespace Syllogism

def version : String := "0.5.0"

namespace CommandLine

inductive Command
  | prove (file : String) (json verify : Bool)
  | closure (file : String)
  | rules (file : Option String) (name : Option String)
  deriving DecidableEq

inductive Request
  | run (settings : Option String) (verbosity : Nat) (command : Command)
  | showVersion
  | showHelp
  deriving DecidableEq

inductive Verb
  | prove
  | closure
  | rules
  deriving DecidableEq

namespace Verb

def ofName? (s : String) : Option Verb :=
  if s = "prove" then some prove
  else if s = "closure" then some closure
  else if s = "rules" then some rules
  else none

end Verb

/-- What has been read off the arguments of one level: the options that all levels share and those
of a subcommand. -/
structure Level where
  settings : Option String := none
  verbosity : Nat := 0
  files : List String := []
  json : Bool := false
  verify : Bool := false
  name : Option String := none
  deriving DecidableEq

/-- How reading the arguments comes to a premature end. -/
inductive Halt
  | misuse
  | showVersion
  | showHelp
  deriving DecidableEq

/-- An option that takes a value. -/
inductive Slot
  | settings
  | name
  deriving DecidableEq

namespace Level

/-- Gives an option its value. No option takes two, and a path is not empty. -/
def fill (l : Level) (slot : Slot) (v : String) : Except Halt Level :=
  match slot with
  | .settings =>
    if l.settings.isSome || v = "" then .error .misuse else .ok { l with settings := some v }
  | .name => if l.name.isSome then .error .misuse else .ok { l with name := some v }

def addFile (l : Level) (verb : Option Verb) (file : String) : Except Halt Level :=
  if verb.isNone || file = "" || !l.files.isEmpty then .error .misuse
  else .ok { l with files := l.files ++ [file] }

end Level

def longSlot? (verb : Option Verb) (name : String) : Option Slot :=
  if name = "config" then some .settings
  else if name = "name" && verb = some .rules then some .name
  else none

def Level.switch (l : Level) (verb : Option Verb) (name : String) : Except Halt Level :=
  if name = "verbose" then .ok { l with verbosity := l.verbosity + 1 }
  else if name = "help" then .error .showHelp
  else if name = "version" && verb.isNone then .error .showVersion
  else if name = "json" && verb = some .prove && !l.json then .ok { l with json := true }
  else if name = "verify" && verb = some .prove && !l.verify then .ok { l with verify := true }
  else .error .misuse

/-- A group of short options behind one dash. The answer tells whether the next argument is the
value of the last of them. -/
def Level.shorts (l : Level) (verb : Option Verb) : List Char → Except Halt (Level × Bool)
  | [] => .ok (l, false)
  | 'v' :: cs => ({ l with verbosity := l.verbosity + 1 } : Level).shorts verb cs
  | 'h' :: _ => .error .showHelp
  | 'V' :: _ => .error (if verb.isNone then .showVersion else .misuse)
  | 'c' :: cs =>
    match cs with
    | [] => .ok (l, true)
    | '=' :: v => (l.fill .settings (String.ofList v)).map (·, false)
    | v => (l.fill .settings (String.ofList v)).map (·, false)
  | _ => .error .misuse

def isOption (arg : String) : Bool := arg.startsWith "-" && arg ≠ "-"

def splitLong (cs : List Char) : String × Option String :=
  let name := cs.takeWhile (· ≠ '=')
  (String.ofList name,
    match cs.drop name.length with
    | '=' :: v => some (String.ofList v)
    | _ => none)

/-- The help on a subcommand, or on all of them. Only one name can follow, which may be that of the
help itself. -/
def readHelp : List String → Halt
  | [] => .showHelp
  | [name] => if name = "help" || (Verb.ofName? name).isSome then .showHelp else .misuse
  | _ => .misuse

/-- Reads the arguments of one level up to the name of a subcommand, which only the top level has.
`waiting` is an option whose value must come next; behind a double dash there are only files. -/
def readLevel (verb : Option Verb) (l : Level) (waiting : Option Slot) (literal : Bool) :
    List String → Except Halt (Level × Option (Verb × List String))
  | [] => if waiting.isSome then .error .misuse else .ok (l, none)
  | arg :: args =>
    if literal then do
      let l ← l.addFile verb arg
      readLevel verb l none true args
    else
      match waiting with
      | some slot =>
        if isOption arg then .error .misuse
        else do
          let l ← l.fill slot arg
          readLevel verb l none false args
      | none =>
        match arg.toList with
        | ['-', '-'] => readLevel verb l none true args
        | '-' :: '-' :: cs =>
          match splitLong cs with
          | (name, value) =>
            match longSlot? verb name, value with
            | some slot, some v => do
              let l ← l.fill slot v
              readLevel verb l none false args
            | some slot, none => readLevel verb l (some slot) false args
            | none, some _ => .error .misuse
            | none, none => do
              let l ← l.switch verb name
              readLevel verb l none false args
        | '-' :: c :: cs => do
          let (l, open_) ← l.shorts verb (c :: cs)
          readLevel verb l (if open_ then some .settings else none) false args
        | _ =>
          match verb with
          | some _ => do
            let l ← l.addFile verb arg
            readLevel verb l none false args
          | none =>
            match Verb.ofName? arg with
            | some v => .ok (l, some (v, args))
            | none => .error (if arg = "help" then readHelp args else .misuse)

def Verb.command (v : Verb) (l : Level) : Except Halt Command :=
  match v, l.files with
  | .prove, [file] => .ok (.prove file l.json l.verify)
  | .closure, [file] => .ok (.closure file)
  | .rules, files => .ok (.rules files.head? l.name)
  | _, _ => .error .misuse

def readArguments (args : List String) : Except Halt Request := do
  let (top, sub) ← readLevel none {} none false args
  match sub with
  | none => .error .misuse
  | some (verb, args) =>
    let (l, _) ← readLevel (some verb) {} none false args
    let command ← verb.command l
    let verbosity := if l.verbosity = 0 then top.verbosity else l.verbosity
    return .run (l.settings.or top.settings) verbosity command

def Request.ofArguments? (args : List String) : Option Request :=
  match readArguments args with
  | .ok r => some r
  | .error .showVersion => some .showVersion
  | .error .showHelp => some .showHelp
  | .error .misuse => none

def Request.files : Request → List String
  | .run settings _ command =>
    settings.toList ++
      match command with
      | .prove file _ _ => [file]
      | .closure file => [file]
      | .rules file _ => file.toList
  | _ => []

inductive Failure
  | unreadableFile
  | settings (fault : SettingsFault)
  | json (error : Json.ReadError)
  | proving (error : Error)

def pathParts (cs : List Char) : List (List Char) :=
  cs.foldr (fun c parts =>
    match parts with
    | part :: rest => if c = '/' then [] :: part :: rest else (c :: part) :: rest
    | [] => []) [[]]

def staysInPlace (part : List Char) : Bool := part.isEmpty || part = ['.']

/-- The way to a file: whether it starts at the root, and the parts of the path without those that
stay in the same directory. A path that ends in such a part leads to a directory. -/
def route? (path : String) : Option (Bool × List (List Char)) :=
  let parts := pathParts path.toList
  if parts.getLast?.all staysInPlace then none
  else some (parts.head? = some [], parts.filter (!staysInPlace ·))

/-- The contents of the files that could be read, by path. A later entry replaces an earlier one for
the same file. -/
abbrev Files := List (String × ByteArray)

/-- The text of a file. Paths that lead to the same file are as good as each other. -/
def Files.text (files : Files) (path : String) : Except Failure String :=
  match (route? path).bind fun route => files.reverse.find? (route? ·.1 = some route) with
  | none => .error .unreadableFile
  | some (_, content) =>
    match String.fromUTF8? content with
    | some s => .ok s
    | none => .error .unreadableFile

def Files.problem (files : Files) (name : String) : Except Failure Problem := do
  (Problem.ofString (← files.text name)).mapError .json

def Files.settings (files : Files) : Option String → Except Failure Settings
  | none => .ok {}
  | some name => do (Settings.ofToml (← files.text name)).mapError .settings

def prove (files : Files) (settings : Settings) (now : Instant) (file : String)
    (json verify : Bool) : Except Failure (List String) := do
  let problem ← files.problem file
  let db ← problem.database.mapError .proving
  let engine ← (Engine.configured problem.catalogue settings).mapError .settings
  match ← (engine.prove db problem.target now).1.mapError .proving with
  | .unprovable _ _ => return ["Nothing was found"]
  | .proved proof =>
    if verify then
      let verifier : Verifier :=
        { rules := engine.rules, policies := engine.policies, givens := some db }
      (verifier.verify proof).result.mapError .proving
    if json then return [proof.renderJson]
    return "Proof was found!" :: proof.render problem.labels

def showInference (labels : Labels) (i : Inference) : String :=
  labels.sentence i.fact ++ " uses " ++ i.rule ++ " from " ++
    String.intercalate ", " (i.premises.map labels.sentence)

def closure (files : Files) (settings : Settings) (file : String) :
    Except Failure (List String) := do
  let problem ← files.problem file
  let engine ← (Engine.configured problem.catalogue settings).mapError .settings
  let db ← problem.database.mapError .proving
  let saturation ← (engine.saturate db).1.mapError .proving
  return saturation.provable.map (showInference problem.labels)

def rules (files : Files) (file name : Option String) : Except Failure (List String) := do
  let catalogue ←
    match file with
    | some file => (files.problem file).map Problem.catalogue
    | none => .ok .syllogistic
  match name with
  | some name =>
    let r ← (catalogue.require name).mapError .proving
    let head := r.display ++ " [" ++ r.qualifiedName ++ ", " ++ r.policy.shortName ++ "]"
    return head :: (if r.description = "" then [] else ["  " ++ r.description])
  | none =>
    let head := catalogue.name ++ " (" ++ toString catalogue.length ++ " rules)"
    return head :: catalogue.rules.map fun r => "  " ++ r.display

def usage : List String :=
  ["Prove categorical syllogisms by forward chaining",
   "",
   "Usage: syllogic [OPTIONS] <COMMAND>",
   "",
   "Commands:",
   "  prove    Prove the target of a query file",
   "  closure  Saturate a query file's database and list every derived fact",
   "  rules    List a rule catalogue",
   "  help     Print this message or the help of the given subcommand(s)",
   "",
   "Options:",
   "  -c, --config <CONFIG>  Engine configuration file (TOML)",
   "  -v, --verbose...       Verbosity level",
   "  -h, --help             Print help",
   "  -V, --version          Print version"]

/-- Carries out a request and gives the texts to be printed. Settings are read before anything
else. -/
def Request.carryOut (files : Files) (now : Instant) : Request → Except Failure (List String)
  | .showVersion => .ok ["syllogic " ++ version]
  | .showHelp => .ok usage
  | .run settings _ command => do
    let settings ← files.settings settings
    match command with
    | .prove file json verify => prove files settings now file json verify
    | .closure file => closure files settings file
    | .rules file name => rules files file name

end CommandLine

end Syllogism
