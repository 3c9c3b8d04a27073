import DocTree.Value.Equality

/-!
Dictionaries as lists of entries in the order of insertion. No two keys are equal, and a key is a
value that cannot change: a list, a dictionary or a piece of markup is none, and neither is a tuple
that holds one.
-/
namespace DocTree

/-- The refusal of a key, with the class of the value that can change. -/
structure Unhashable where
  typeName : String
  deriving DecidableEq, Repr

def Unhashable.message (e : Unhashable) : String := "unhashable type: '" ++ e.typeName ++ "'"

namespace Value

mutual

def unhashable? : Value → Option Unhashable
  | tuple xs => unhashableIn? xs
  | list _ => some ⟨"list"⟩
  | dict _ => some ⟨"dict"⟩
  | markup m => some ⟨m.markupClass.name⟩
  | _ => none

def unhashableIn? : List Value → Option Unhashable
  | [] => none
  | x :: xs => (unhashable? x).or (unhashableIn? xs)

end

/-- Two keys are one. Keys hold no markup, so that no level of it is needed. -/
def sameKey (a b : Value) : Bool := equalWithin 0 a b == some true

def lookup? (entries : List (Value × Value)) (key : Value) : Option Value :=
  (entries.find? fun entry => entry.1.sameKey key).map Prod.snd

/-- Adds an entry. An equal key already there is kept in its place and takes the new value. -/
def insertEntry : List (Value × Value) → Value → Value → List (Value × Value)
  | [], k, v => [(k, v)]
  | (k', v') :: entries, k, v =>
    if k'.sameKey k then (k', v) :: entries else (k', v') :: insertEntry entries k v

def insert (entries : List (Value × Value)) (k v : Value) :
    Except Unhashable (List (Value × Value)) :=
  match k.unhashable? with
  | some e => .error e
  | none => .ok (insertEntry entries k v)

/-- The first element of a sequence, or the value under the key 0 of a dictionary. -/
def atZero : Value → Indexed Value
  | object o => o.atZero
  | dict entries => (lookup? entries (int 0)).elim .missing .found
  | v =>
    match v.elements? with
    | some xs => xs.head?.elim .missing .found
    | none => .unindexable

end Value

end DocTree
