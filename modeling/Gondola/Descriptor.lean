import Gondola.Ty

/-! Descriptors of types. A word does not tell what it holds, so a value is printed by the descriptor
of its type: a letter for each part of the type, a container's before those of what it holds. -/
namespace Gondola

namespace Descriptor

inductive Part where
  | bool
  | int
  | string
  /-- The part after it describes the items. -/
  | list
  /-- The parts after it describe the keys, and those after them the values. -/
  | map
  | unknown
  deriving DecidableEq, Repr

namespace Part

def letter : Part → Char
  | bool => 'b'
  | int => 'i'
  | string => 's'
  | list => 'l'
  | map => 'm'
  | unknown => 'a'

/-- Any byte is a part, and one that is no letter of a part stands for an unknown one. -/
def ofByte (b : UInt8) : Part :=
  ([bool, int, string, list, map].find? fun p => p.letter.toNat == b.toNat).getD unknown

end Part

def text (parts : List Part) : String := String.ofList (parts.map Part.letter)

/-- A character has as many parts as bytes. -/
def ofChar (c : Char) : List Part := (String.utf8EncodeChar c).map Part.ofByte

def ofString (s : String) : List Part := s.toList.flatMap ofChar

theorem ofChar_letter (p : Part) : ofChar p.letter = [p] := by
  cases p <;> decide

theorem ofString_text (parts : List Part) : ofString (text parts) = parts := by
  simp only [ofString, text, String.toList_ofList]
  induction parts with
  | nil => rfl
  | cons p ps ih => simp [ofChar_letter, ih]

/-- What follows the next `n` descriptors, unless there are no parts left for them. -/
def skipMany : Nat → List Part → Option (List Part)
  | 0, ps => some ps
  | _ + 1, [] => none
  | n + 1, p :: ps =>
    match p with
    | .list => skipMany (n + 1) ps
    | .map => skipMany (n + 2) ps
    | _ => skipMany n ps

def skip (ps : List Part) : Option (List Part) := skipMany 1 ps

theorem skipMany_length_le {n : Nat} {ps rest : List Part} (h : skipMany n ps = some rest) :
    rest.length ≤ ps.length := by
  induction ps generalizing n with
  | nil => cases n <;> simp_all [skipMany]
  | cons p ps ih =>
    cases n with
    | zero => simp_all [skipMany]
    | succ n => cases p <;> exact Nat.le_succ_of_le (ih h)

theorem skip_length_le {ps rest : List Part} (h : skip ps = some rest) :
    rest.length ≤ ps.length := skipMany_length_le h

end Descriptor

/-- Types that cannot be told apart by a word are described like an unknown one. -/
def Ty.descriptor : Ty → List Descriptor.Part
  | .bool => [.bool]
  | .int => [.int]
  | .string => [.string]
  | .list t => .list :: t.descriptor
  | .map k v => .map :: (k.descriptor ++ v.descriptor)
  | _ => [.unknown]

/-- What a map has to know of its keys. -/
def Ty.keyKind (t : Ty) : Descriptor.Part := t.descriptor.headD .unknown

end Gondola
