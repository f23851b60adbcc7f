import Gondola.Descriptor

/-! Maps from words to words. The entries stand in the order in which their keys first came, in memory
that grows when it is full. Which keys count as the same is up to the map's user, since a key may be the
address of a string. -/
namespace Gondola

/-- What a variable or a container holds: an integer, or the address of an object. -/
inductive Word where
  | int (value : Int)
  | ref (address : Nat)
  deriving DecidableEq, Repr, Inhabited

/-- Memory for words. A cell holds nothing until it is written. -/
abbrev Cells := List (Option Word)

namespace Cells

def blank (n : Nat) : Cells := List.replicate n none

/-- There is nothing to read outside of the memory, nor in a cell that was never written. -/
def read? (cells : Cells) (i : Nat) : Option Word := cells[i]?.join

/-- What is written outside of the memory is lost. -/
def write (cells : Cells) (i : Nat) (w : Word) : Cells := cells.set i (some w)

/-- Memory for `n` words, which starts with the same ones. -/
def resize (cells : Cells) (n : Nat) : Cells := cells.take n ++ blank (n - cells.length)

end Cells

/-- The capacity is the number of entries that the memory was taken for. -/
structure Table where
  /-- The first part of the descriptor of the keys. -/
  keyKind : Descriptor.Part
  length : Nat
  capacity : Nat
  keys : Cells
  values : Cells
  deriving DecidableEq, Repr

namespace Table

def entryAt? (t : Table) (i : Nat) : Option (Word × Word) := do
  let k ← t.keys.read? i
  let v ← t.values.read? i
  return (k, v)

def entries (t : Table) : List (Word × Word) := (List.range t.length).filterMap t.entryAt?

/-- The place of a key among the `n` keys from `i` on, or the place behind them if it is not there. -/
def placeFrom (same : Word → Word → Bool) (keys : Cells) (key : Word) : Nat → Nat → Nat
  | 0, i => i
  | n + 1, i => if (keys.read? i).any (same · key) then i else placeFrom same keys key n (i + 1)

/-- The place of a key, or the length of the table if it is not there. -/
def place (same : Word → Word → Bool) (t : Table) (key : Word) : Nat :=
  placeFrom same t.keys key t.length 0

def get? (same : Word → Word → Bool) (t : Table) (key : Word) : Option Word :=
  let i := t.place same key
  if i = t.length then none else t.values.read? i

def grow (t : Table) : Table :=
  let capacity := t.capacity * 2
  { t with
    capacity := capacity
    keys := t.keys.resize capacity
    values := t.values.resize capacity }

/-- The capacity doubles when there is no room for another entry. -/
def makeRoom (t : Table) : Table := if t.length = t.capacity then t.grow else t

/-- A new key goes last. -/
def addKey (t : Table) (key : Word) : Table :=
  let t := t.makeRoom
  { t with
    keys := t.keys.write t.length key
    length := t.length + 1 }

/-- A key that is there keeps its place and its first spelling. -/
def set (same : Word → Word → Bool) (t : Table) (key value : Word) : Table :=
  let i := t.place same key
  let t := if i = t.length then t.addKey key else t
  { t with values := t.values.write i value }

/-- A table without entries and with room for `n` of them. -/
def withRoom (keyKind : Descriptor.Part) (n : Nat) : Table :=
  let capacity := if n = 0 then 4 else n
  ⟨keyKind, 0, capacity, .blank capacity, .blank capacity⟩

/-- A later entry replaces the value of an earlier one with the same key. -/
def ofEntries (same : Word → Word → Bool) (keyKind : Descriptor.Part)
    (entries : List (Word × Word)) : Table :=
  entries.foldl (fun t e => t.set same e.1 e.2) (withRoom keyKind entries.length)

end Table

end Gondola
