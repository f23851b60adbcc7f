import Gondola.Heap

/-! Printing values by the descriptors of their types. -/
namespace Gondola.Heap

def quotedChar (c : Char) : List Char :=
  if c = '"' then ['\\', '"']
  else if c = '\\' then ['\\', '\\']
  else if c = '\n' then ['\\', 'n']
  else if c = '\r' then ['\\', 'r']
  else if c = '\t' then ['\\', 't']
  else if c = '\x08' then ['\\', 'b']
  else if c = '\x0c' then ['\\', 'f']
  else if c.toNat < 32 then
    ['\\', 'u', '0', '0', Nat.digitChar (c.toNat / 16), Nat.digitChar (c.toNat % 16)]
  else [c]

/-- A string inside of a container, as a JSON string. -/
def quotedText (s : String) : String :=
  String.ofList ('"' :: s.toList.flatMap quotedChar ++ ['"'])

def listText (items : List String) : String := "[" ++ ", ".intercalate items ++ "]"

def mapText (entries : List (String × String)) : String :=
  "\x7b" ++ ", ".intercalate (entries.map fun (k, v) => k ++ ": " ++ v) ++ "\x7d"

/-- The text of a value of the type that is described. Strings are quoted only inside of containers,
and a value of unknown type is shown as an integer. -/
def valueText (h : Heap) (type : List Descriptor.Part) (nested : Bool) (w : Word) :
    Except HeapError String :=
  match type with
  | .bool :: _ => return if w = .int 0 then "false" else "true"
  | .string :: _ => do
    let s ← h.text w
    return if nested then quotedText s else s
  | .list :: item => do
    let items ← h.list w
    let texts ← items.mapM fun i => valueText h item true i
    return listText texts
  | .map :: key => do
    let t ← h.table w
    match hv : Descriptor.skip key with
    | none => if t.entries.isEmpty then return mapText [] else throw .shortDescriptor
    | some value => do
      have := Descriptor.skip_length_le hv
      let texts ← t.entries.mapM fun e => do
        let k ← valueText h key true e.1
        let v ← valueText h value true e.2
        return (k, v)
      return mapText texts
  | _ =>
    match w with
    | .int v => return toString v
    | .ref _ => throw .wrongAddress
termination_by type.length

def print (h : Heap) (w : Word) (type : List Descriptor.Part) : Except HeapError String := do
  let text ← h.valueText type false w
  return text ++ "\n"

end Gondola.Heap
