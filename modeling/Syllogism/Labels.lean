import Syllogism.Statement

/-! Labels: the words that a reader sees in place of variables. -/
namespace Syllogism

/-- Variables with their labels, in the order in which the variables were first labelled. -/
structure Labels where
  entries : List (Variable × String) := []
  deriving DecidableEq

namespace Labels

def empty : Labels := {}

/-- Puts `value` under `key`; a key that is there already keeps its place. -/
def insertEntry (key value : String) : List (String × String) → List (String × String)
  | [] => [(key, value)]
  | (k, v) :: rest => if k = key then (k, value) :: rest else (k, v) :: insertEntry key value rest

def insert (l : Labels) (v : Variable) (label : String) : Labels :=
  ⟨insertEntry v label l.entries⟩

theorem lookup_insertEntry (key value : String) (entries : List (String × String)) (k : String) :
    (insertEntry key value entries).lookup k =
      if k = key then some value else entries.lookup k := by
  induction entries with
  | nil => by_cases h : k = key <;> grind [insertEntry]
  | cons e es ih =>
    obtain ⟨k', v⟩ := e
    by_cases he : k' = key <;> by_cases h : k = k' <;> grind [insertEntry]

def ofList (pairs : List (Variable × String)) : Labels :=
  pairs.foldl (fun l p => l.insert p.1 p.2) .empty

/-- A variable without a label stands for itself. -/
def label (l : Labels) (v : Variable) : String := (l.entries.lookup v).getD v

theorem label_insert (l : Labels) (v w : Variable) (text : String) :
    (l.insert v text).label w = if w = v then text else l.label w := by
  unfold label insert
  rw [lookup_insertEntry]
  split <;> rfl

def sentence (l : Labels) (f : Fact) : String :=
  f.quantifier.word ++ " " ++ l.label f.subject ++ " are " ++ l.label f.object

@[simp] theorem sentence_empty (f : Fact) : empty.sentence f = f.sentence := rfl

end Labels

end Syllogism
