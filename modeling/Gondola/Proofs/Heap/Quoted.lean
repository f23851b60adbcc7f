import Gondola.Heap.Print
import Gondola.Proofs.Text.Codes
import Mathlib.Data.List.Forall2

/-! Quoted strings are JSON. Quoting can go byte by byte, since it leaves the bytes of larger characters alone. -/
namespace Gondola

namespace Text.Json

/-- A character of a JSON string, or a unit of UTF-16 that is given by its number. -/
inductive Item where
  | char (c : Char)
  | unit (n : Nat)

/-- What a character behind a backslash stands for on its own. -/
def escape? : Char → Option Char
  | '"' => some '"'
  | '\\' => some '\\'
  | '/' => some '/'
  | 'b' => some '\x08'
  | 'f' => some '\x0c'
  | 'n' => some '\n'
  | 'r' => some '\r'
  | 't' => some '\t'
  | _ => none

def unit? (a b c d : Char) : Option Nat := do
  let a ← hexDigit? a
  let b ← hexDigit? b
  let c ← hexDigit? c
  let d ← hexDigit? d
  return 4096 * a + 256 * b + 16 * c + d

/-- Reads up to the closing quote. Quotes, backslashes and control characters have to be escaped. -/
def items? : List Char → Option (List Item × List Char)
  | [] => none
  | '"' :: cs => some ([], cs)
  | '\\' :: 'u' :: a :: b :: c :: d :: cs => do
    let n ← unit? a b c d
    Prod.map (.unit n :: ·) id <$> items? cs
  | '\\' :: c :: cs => do
    let d ← escape? c
    Prod.map (.char d :: ·) id <$> items? cs
  | c :: cs => if c = '\\' ∨ c.toNat < 32 then none else Prod.map (.char c :: ·) id <$> items? cs

/-- The characters that items stand for. Surrogates come in pairs, the higher one first. -/
def text? : List Item → Option (List Char)
  | [] => some []
  | .char c :: items => (c :: ·) <$> text? items
  | .unit n :: items =>
    if n < 0xd800 ∨ 0xe000 ≤ n then (Char.ofNat n :: ·) <$> text? items
    else match items with
      | .unit m :: items =>
        if n < 0xdc00 ∧ 0xdc00 ≤ m ∧ m < 0xe000 then
          (Char.ofNat (0x10000 + (n - 0xd800) * 0x400 + (m - 0xdc00)) :: ·) <$> text? items
        else none
      | _ => none

/-- What follows an opening quote, as the text that is quoted and the rest behind the closing quote. -/
def read? (cs : List Char) : Option (List Char × List Char) := do
  let (items, rest) ← items? cs
  let text ← text? items
  return (text, rest)

/-- The string that a JSON string literal stands for. -/
def decode? (literal : String) : Option String :=
  match literal.toList with
  | '"' :: cs => do
    let (text, rest) ← read? cs
    if rest = [] then some (.ofList text) else none
  | _ => none

section Reading

variable {c d : Char} (cs : List Char)

theorem items?_plain (hquote : c ≠ '"') (hslash : c ≠ '\\') (hprint : 32 ≤ c.toNat) :
    items? (c :: cs) = Prod.map (.char c :: ·) id <$> items? cs := by
  rw [items?]
  · exact if_neg fun h => h.elim hslash fun hsmall => absurd hprint (Nat.not_le.mpr hsmall)
  · exact hquote
  · exact fun _ _ _ _ _ h _ => hslash h
  · exact fun _ _ h _ => hslash h

theorem items?_escape (hd : escape? d = some c) (hu : d ≠ 'u') :
    items? ('\\' :: d :: cs) = Prod.map (.char c :: ·) id <$> items? cs := by
  rw [items?]
  · rw [hd]
    rfl
  · exact fun _ _ _ _ _ h _ => hu h

theorem items?_unit {n : Nat} (hn : n < 256) :
    items? ('\\' :: 'u' :: '0' :: '0' :: Nat.digitChar (n / 16) :: Nat.digitChar (n % 16) :: cs) =
      Prod.map (.unit n :: ·) id <$> items? cs := by
  have hzero : hexDigit? '0' = some 0 := by decide
  have hunit : unit? '0' '0' (Nat.digitChar (n / 16)) (Nat.digitChar (n % 16)) = some n := by
    rw [unit?, hzero, hexDigit?_digitChar (n / 16) (by omega), hexDigit?_digitChar (n % 16) (by omega)]
    show some (4096 * 0 + 256 * 0 + 16 * (n / 16) + n % 16) = some n
    congr 1
    omega
  rw [items?, hunit]
  rfl

theorem text?_unit {n : Nat} (hn : n < 0xd800 ∨ 0xe000 ≤ n) (items : List Item) :
    text? (.unit n :: items) = (Char.ofNat n :: ·) <$> text? items := by
  rw [text?.eq_def]
  exact if_pos hn

theorem read?_item {ds : List Char} {item : Item} (hitems : items? ds = Prod.map (item :: ·) id <$> items? cs)
    (htext : ∀ items, text? (item :: items) = (c :: ·) <$> text? items) :
    read? ds = Prod.map (c :: ·) id <$> read? cs := by
  unfold read?
  rw [hitems]
  cases items? cs with
  | none => rfl
  | some p =>
    show (text? (item :: p.1)).bind _ = Prod.map (c :: ·) id <$> (text? p.1).bind _
    rw [htext]
    cases text? p.1 with
    | none => rfl
    | some text => rfl

end Reading

end Text.Json

namespace Heap

open Text

variable {c : Char}

/-- The three ways in which a character is quoted. -/
inductive QuotedAs (c : Char) : List Char → Prop
  | plain (hquote : c ≠ '"') (hslash : c ≠ '\\') (hprint : 32 ≤ c.toNat) : QuotedAs c [c]
  | escape {d : Char} (hd : Json.escape? d = some c) (hu : d ≠ 'u') : QuotedAs c ['\\', d]
  | unit (hsmall : c.toNat < 32) :
      QuotedAs c ['\\', 'u', '0', '0', Nat.digitChar (c.toNat / 16), Nat.digitChar (c.toNat % 16)]

theorem quotedAs_quotedChar (c : Char) : QuotedAs c (quotedChar c) := by
  unfold quotedChar
  split_ifs with hquote hslash hn hr ht hb hf hsmall
  · subst hquote
    exact .escape rfl (by decide)
  · subst hslash
    exact .escape rfl (by decide)
  · subst hn
    exact .escape rfl (by decide)
  · subst hr
    exact .escape rfl (by decide)
  · subst ht
    exact .escape rfl (by decide)
  · subst hb
    exact .escape rfl (by decide)
  · subst hf
    exact .escape rfl (by decide)
  · exact .unit hsmall
  · exact .plain hquote hslash (Nat.not_lt.mp hsmall)

theorem read?_quotedChar (c : Char) (cs : List Char) :
    Json.read? (quotedChar c ++ cs) = Prod.map (c :: ·) id <$> Json.read? cs := by
  have h := quotedAs_quotedChar c
  generalize quotedChar c = quoted at h
  cases h with
  | plain hquote hslash hprint =>
    exact Json.read?_item cs (Json.items?_plain cs hquote hslash hprint) fun _ => rfl
  | escape hd hu => exact Json.read?_item cs (Json.items?_escape cs hd hu) fun _ => rfl
  | unit hsmall =>
    apply Json.read?_item cs (Json.items?_unit cs (by omega))
    intro items
    rw [Json.text?_unit (.inl (by omega)), Char.ofNat_toNat]

theorem read?_quoted (cs rest : List Char) :
    Json.read? (cs.flatMap quotedChar ++ '"' :: rest) = some (cs, rest) := by
  induction cs with
  | nil => rfl
  | cons c cs ih =>
    rw [List.flatMap_cons, List.append_assoc, read?_quotedChar, ih]
    rfl

theorem toList_quotedText (s : String) :
    (quotedText s).toList = '"' :: (s.toList.flatMap quotedChar ++ ['"']) := String.toList_ofList

theorem decode?_quotedText (s : String) : Json.decode? (quotedText s) = some s := by
  unfold Json.decode?
  rw [toList_quotedText]
  show (Json.read? (s.toList.flatMap quotedChar ++ ['"'])).bind _ = some s
  rw [read?_quoted]
  show some (String.ofList s.toList) = some s
  rw [String.ofList_toList]

theorem quotedText_append_inj {s t : String} {rest rest' : List Char}
    (h : (quotedText s).toList ++ rest = (quotedText t).toList ++ rest') : s = t ∧ rest = rest' := by
  rw [toList_quotedText, toList_quotedText] at h
  have hbody := (List.cons.inj h).2
  simp only [List.append_eq, List.append_assoc, List.cons_append, List.nil_append] at hbody
  have hread := read?_quoted s.toList rest
  rw [hbody, read?_quoted] at hread
  obtain ⟨htext, hrest⟩ := Prod.mk.inj (Option.some.inj hread)
  exact ⟨(String.toList_inj.mp htext).symm, hrest.symm⟩

/-! Bytes. -/

/-- How a byte is quoted: as its character if it is one of ASCII, and else as itself. -/
def quotedByte (b : UInt8) : List UInt8 := if b.toNat < 128 then utf8 (quotedChar (Char.ofNat b.toNat)) else [b]

theorem quotedChar_of_le (h : 128 ≤ c.toNat) : quotedChar c = [c] := by
  have hne (d : Char) (hd : d.toNat < 128) : c ≠ d := by
    rintro rfl
    omega
  rw [quotedChar, if_neg (hne _ (by decide)), if_neg (hne _ (by decide)), if_neg (hne _ (by decide)),
    if_neg (hne _ (by decide)), if_neg (hne _ (by decide)), if_neg (hne _ (by decide)), if_neg (hne _ (by decide)),
    if_neg (by omega)]

theorem utf8_quotedChar (c : Char) : utf8 (quotedChar c) = (String.utf8EncodeChar c).flatMap quotedByte := by
  by_cases hsmall : c.toNat < 128
  · rw [utf8EncodeChar_of_lt hsmall, List.flatMap_singleton, quotedByte, toNat_ofNat_of_lt hsmall, if_pos hsmall,
      Char.ofNat_toNat]
  · have hlarge := Nat.not_lt.mp hsmall
    have hself : ∀ b ∈ String.utf8EncodeChar c, quotedByte b = [b] := by
      intro b hb
      have hb' := le_of_mem_utf8EncodeChar hlarge b hb
      rw [quotedByte, if_neg (Nat.not_lt.mpr hb')]
    rw [quotedChar_of_le hlarge, utf8, List.flatMap_singleton, List.flatMap_congr hself, List.flatMap_singleton']

theorem utf8_flatMap_quotedChar (cs : List Char) :
    utf8 (cs.flatMap quotedChar) = (utf8 cs).flatMap quotedByte := by
  rw [utf8, utf8, List.flatMap_assoc, List.flatMap_assoc]
  exact List.flatMap_congr fun c _ => utf8_quotedChar c

theorem utf8_quotedText (s : String) :
    (quotedText s).toUTF8.data.toList = 34 :: (s.toUTF8.data.toList.flatMap quotedByte ++ [34]) := by
  rw [← utf8_toList, ← utf8_toList, toList_quotedText, ← List.singleton_append, utf8_append, utf8_append,
    utf8_flatMap_quotedChar]
  rfl

theorem le_of_quotedAs {quoted : List Char} (h : QuotedAs c quoted) : ∀ d ∈ quoted, 32 ≤ d.toNat := by
  cases h with
  | plain _ _ hprint => exact List.forall_mem_singleton.mpr hprint
  | @escape d hd _ =>
    have hletter : 32 ≤ d.toNat := by
      unfold Json.escape? at hd
      split at hd
      all_goals first
        | decide
        | cases hd
    exact List.forall_mem_cons.mpr ⟨by decide, List.forall_mem_singleton.mpr hletter⟩
  | unit hsmall =>
    have hdigit : ∀ n < 16, 32 ≤ (Nat.digitChar n).toNat := by decide
    have hhigh := hdigit (c.toNat / 16) (by omega)
    have hlow := hdigit (c.toNat % 16) (by omega)
    intro d hd
    simp only [List.mem_cons, List.not_mem_nil, or_false] at hd
    rcases hd with rfl | rfl | rfl | rfl | rfl | rfl
    · decide
    · decide
    · decide
    · decide
    · exact hhigh
    · exact hlow

theorem le_of_mem_utf8 {cs : List Char} (h : ∀ c ∈ cs, 32 ≤ c.toNat) : ∀ b ∈ utf8 cs, 32 ≤ b.toNat := by
  intro b hb
  obtain ⟨c, hc, hb⟩ := List.mem_flatMap.mp hb
  have hprint := h c hc
  by_cases hsmall : c.toNat < 128
  · rw [utf8EncodeChar_of_lt hsmall, List.mem_singleton] at hb
    rw [hb, toNat_ofNat_of_lt hsmall]
    exact hprint
  · have hlarge := le_of_mem_utf8EncodeChar (Nat.not_lt.mp hsmall) b hb
    omega

theorem le_of_mem_quotedText (s : String) : ∀ b ∈ (quotedText s).toUTF8.data.toList, 32 ≤ b.toNat := by
  rw [← utf8_toList, toList_quotedText]
  apply le_of_mem_utf8
  rw [List.forall_mem_cons, List.forall_mem_append, List.forall_mem_singleton]
  refine ⟨by decide, ?_, by decide⟩
  intro d hd
  obtain ⟨c, -, hd⟩ := List.mem_flatMap.mp hd
  exact le_of_quotedAs (quotedAs_quotedChar c) d hd

/-- The bytes that are written for the bytes of a string: a JSON string literal that stands for the string. -/
structure IsJsonOf (bytes : List UInt8) (s literal : String) : Prop where
  escaped : ∃ parts, literal.toList = '"' :: (parts.flatten ++ ['"']) ∧ List.Forall₂ QuotedAs s.toList parts
  bytewise : literal.toUTF8.data.toList = 34 :: (bytes.flatMap quotedByte ++ [34])
  printable : ∀ b ∈ literal.toUTF8.data.toList, 32 ≤ b.toNat
  decoded : Json.decode? literal = some s

theorem isJsonOf_quotedText (s : String) : IsJsonOf s.toUTF8.data.toList s (quotedText s) where
  escaped := by
    refine ⟨s.toList.map quotedChar, ?_, ?_⟩
    · rw [toList_quotedText, List.flatMap_def]
    · exact List.forall₂_map_right_iff.mpr (List.forall₂_same.mpr fun c _ => quotedAs_quotedChar c)
  bytewise := utf8_quotedText s
  printable := le_of_mem_quotedText s
  decoded := decode?_quotedText s

end Heap

end Gondola
