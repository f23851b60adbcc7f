import Gondola.Heap.Table

/-! The objects of a running program. Lists and maps are shared: every holder of an address sees what
is written through another one. Nothing is ever freed. -/
namespace Gondola

inductive Object where
  | text (s : String)
  | list (items : List Word)
  | table (table : Table)
  deriving DecidableEq, Repr

/-- An object's address is its position. -/
structure Heap where
  objects : List Object := []
  deriving Repr

inductive HeapError where
  | indexOutOfRange
  | missingKey
  /-- The program reached something that has no form in the target. Its name ends at a null
  character. -/
  | unsupported (what : String)
  /-- A word was taken for the address of an object that is not there. -/
  | wrongAddress
  /-- A value was printed by a descriptor that ends before it. -/
  | shortDescriptor
  deriving DecidableEq, Repr

def HeapError.message (e : HeapError) : String :=
  "runtime error: " ++ match e with
    | indexOutOfRange => "list index out of range"
    | missingKey => "key not found in map"
    | unsupported what =>
      String.ofList (what.toList.takeWhile (· != Char.ofNat 0)) ++ " is not supported by the native backend"
    | wrongAddress => "wrong address"
    | shortDescriptor => "descriptor too short"

namespace Heap

def alloc (h : Heap) (o : Object) : Word × Heap := (.ref h.objects.length, ⟨h.objects ++ [o]⟩)

def object? (h : Heap) : Word → Option Object
  | .int _ => none
  | .ref a => h.objects[a]?

def update (h : Heap) (w : Word) (o : Object) : Heap :=
  match w with
  | .int _ => h
  | .ref a => ⟨h.objects.set a o⟩

def text (h : Heap) (w : Word) : Except HeapError String :=
  match h.object? w with
  | some (.text s) => .ok s
  | _ => .error .wrongAddress

def list (h : Heap) (w : Word) : Except HeapError (List Word) :=
  match h.object? w with
  | some (.list items) => .ok items
  | _ => .error .wrongAddress

def table (h : Heap) (w : Word) : Except HeapError Table :=
  match h.object? w with
  | some (.table t) => .ok t
  | _ => .error .wrongAddress

/-- Strings are the same key if their texts are, and everything else if its words are. -/
def sameKey (h : Heap) (keyKind : Descriptor.Part) (a b : Word) : Bool :=
  if keyKind = .string then
    match h.text a, h.text b with
    | .ok s, .ok t => s == t
    | _, _ => a == b
  else a == b

def newText (h : Heap) (s : String) : Word × Heap := h.alloc (.text s)

def newList (h : Heap) (items : List Word) : Word × Heap := h.alloc (.list items)

def newTable (h : Heap) (keyKind : Descriptor.Part) (entries : List (Word × Word)) :
    Word × Heap :=
  h.alloc (.table (Table.ofEntries (h.sameKey keyKind) keyKind entries))

/-- A position in a list of `n` items. Addresses lie past the end of every list. -/
def position? (n : Nat) : Word → Option Nat
  | .ref _ => none
  | .int v => if 0 ≤ v ∧ v.toNat < n then some v.toNat else none

def listLength (h : Heap) (w : Word) : Except HeapError Nat := do
  let items ← h.list w
  return items.length

def listGet (h : Heap) (w index : Word) : Except HeapError Word := do
  let items ← h.list w
  match (position? items.length index).bind (items[·]?) with
  | some item => return item
  | none => throw .indexOutOfRange

def listSet (h : Heap) (w index item : Word) : Except HeapError Heap := do
  let items ← h.list w
  match position? items.length index with
  | some i => return h.update w (.list (items.set i item))
  | none => throw .indexOutOfRange

def mapLength (h : Heap) (w : Word) : Except HeapError Nat := do
  let t ← h.table w
  return t.length

def mapGet (h : Heap) (w key : Word) : Except HeapError Word := do
  let t ← h.table w
  match t.get? (h.sameKey t.keyKind) key with
  | some value => return value
  | none => throw .missingKey

def mapSet (h : Heap) (w key value : Word) : Except HeapError Heap := do
  let t ← h.table w
  return h.update w (.table (t.set (h.sameKey t.keyKind) key value))

end Heap

end Gondola
