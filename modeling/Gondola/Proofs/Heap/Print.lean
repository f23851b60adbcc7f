import Gondola.Heap.Print
import Mathlib.Data.List.Forall2

/-! Descriptors of types and the printing of values by them agree. A descriptor ends where the next one starts. -/
namespace Gondola

namespace Descriptor

/-- Two descriptors follow the letter of a map, so this is about any number of them. -/
theorem skipMany_descriptor : ∀ (t : Ty) (n : Nat) (rest : List Part),
    skipMany (n + 1) (t.descriptor ++ rest) = skipMany n rest
  | .list item, n, rest => skipMany_descriptor item n rest
  | .map key value, n, rest => by
    rw [Ty.descriptor, List.cons_append, List.append_assoc, skipMany, skipMany_descriptor key,
      skipMany_descriptor value]
  | .bool, _, _ | .int, _, _ | .string, _, _ | .void, _, _ | .any, _, _ | .function .., _, _
  | .struct .., _, _ | .enum .., _, _ | .metatype _, _, _ => rfl

theorem skip_descriptor (t : Ty) (rest : List Part) : skip (t.descriptor ++ rest) = some rest := by
  rw [skip, skipMany_descriptor, skipMany]

theorem ofString_append (s s' : String) : ofString (s ++ s') = ofString s ++ ofString s' := by
  rw [ofString, String.toList_append, List.flatMap_append, ofString, ofString]

theorem ofString_text_append (parts : List Part) (s : String) :
    ofString (text parts ++ s) = parts ++ ofString s := by
  rw [ofString_append, ofString_text]

end Descriptor

namespace Heap

/-- What a word stands for, with everything that it leads to. -/
inductive Value where
  | int (value : Int)
  | bool (value : Bool)
  | string (text : String)
  | list (items : List Value)
  | map (entries : List (Value × Value))

namespace Value

mutual
/-- Strings stand for themselves, but are quoted inside of containers. -/
def text (nested : Bool) : Value → String
  | int v => toString v
  | bool b => if b then "true" else "false"
  | string s => if nested then quotedText s else s
  | list items => "[" ++ ", ".intercalate (itemTexts items) ++ "]"
  | map entries => "\x7b" ++ ", ".intercalate (entryTexts entries) ++ "\x7d"
def itemTexts : List Value → List String
  | [] => []
  | v :: vs => v.text true :: itemTexts vs
def entryTexts : List (Value × Value) → List String
  | [] => []
  | (k, v) :: es => (k.text true ++ ": " ++ v.text true) :: entryTexts es
end

theorem itemTexts_eq_map (vs : List Value) : itemTexts vs = vs.map (text true) := by
  induction vs with
  | nil => rfl
  | cons v vs ih => rw [itemTexts, ih, List.map_cons]

theorem entryTexts_eq_map (es : List (Value × Value)) :
    entryTexts es = es.map fun e => e.1.text true ++ ": " ++ e.2.text true := by
  induction es with
  | nil => rfl
  | cons e es ih => rw [entryTexts, ih, List.map_cons]

end Value

theorem mapM_eq_ok {α β ε : Type} {f : α → Except ε β} {as : List α} {bs : List β}
    (h : List.Forall₂ (fun a b => f a = .ok b) as bs) : as.mapM f = .ok bs := by
  induction h with
  | nil => rfl
  | cons hab _ ih =>
    rw [List.mapM_cons, hab, ih]
    rfl

/-- The word is the given value of a type. Lists and maps hold the words of their parts, each of which is a
value of the part's type. -/
def Represents (h : Heap) : Ty → Word → Value → Prop
  | .int, w, v => ∃ n, w = .int n ∧ v = .int n
  | .bool, w, v => ∃ b, w = .int (if b then 1 else 0) ∧ v = .bool b
  | .string, w, v => ∃ s, h.text w = .ok s ∧ v = .string s
  | .list t, w, v => ∃ words items, h.list w = .ok words ∧ v = .list items ∧
      List.Forall₂ (Represents h t) words items
  | .map k u, w, v => ∃ table entries, h.table w = .ok table ∧ v = .map entries ∧
      List.Forall₂ (fun e x => Represents h k e.1 x.1 ∧ Represents h u e.2 x.2) table.entries entries
  | _, _, _ => False

section Parts

variable {h : Heap} {w : Word} (rest : List Descriptor.Part) (nested : Bool)

theorem valueText_int (n : Int) : h.valueText (.int :: rest) nested (.int n) = .ok (toString n) := by
  rw [valueText]
  · rfl
  all_goals
    intro parts h
    cases h

theorem valueText_bool (b : Bool) :
    h.valueText (.bool :: rest) nested (.int (if b then 1 else 0)) =
      .ok (if b then "true" else "false") := by
  rw [valueText]
  cases b with
  | true => rfl
  | false => rfl

theorem valueText_string {s : String} (hs : h.text w = .ok s) :
    h.valueText (.string :: rest) nested w = .ok (if nested then quotedText s else s) := by
  rw [valueText, hs]
  rfl

theorem valueText_list {item : List Descriptor.Part} {words : List Word} {texts : List String}
    (hl : h.list w = .ok words)
    (hs : List.Forall₂ (fun i s => h.valueText item true i = .ok s) words texts) :
    h.valueText (.list :: item) nested w = .ok (listText texts) := by
  rw [valueText, hl]
  simp only [bind, Except.bind, mapM_eq_ok hs]
  rfl

theorem valueText_map {key value : List Descriptor.Part} {t : Table} {texts : List (String × String)}
    (hskip : Descriptor.skip key = some value) (ht : h.table w = .ok t)
    (hs : List.Forall₂ (fun e s => h.valueText key true e.1 = .ok s.1 ∧
      h.valueText value true e.2 = .ok s.2) t.entries texts) :
    h.valueText (.map :: key) nested w = .ok (mapText texts) := by
  have hentries : (t.entries.mapM fun e => do
      let k ← h.valueText key true e.1
      let v ← h.valueText value true e.2
      return (k, v)) = .ok texts := by
    apply mapM_eq_ok
    refine hs.imp ?_
    rintro e s ⟨hk, hv⟩
    rw [hk, hv]
    rfl
  rw [valueText, ht]
  simp only [bind, Except.bind]
  split
  · rename_i hnone
    cases hskip.symm.trans hnone
  · rename_i value' hvalue
    obtain rfl : value = value' := Option.some.inj (hskip.symm.trans hvalue)
    exact congrArg (Except.map mapText) hentries

end Parts

theorem valueText_of_represents {h : Heap} : ∀ {t : Ty} {w : Word} {v : Value} (nested : Bool)
    (rest : List Descriptor.Part), h.Represents t w v →
    h.valueText (t.descriptor ++ rest) nested w = .ok (v.text nested)
  | .int, w, v, nested, rest, hv => by
    obtain ⟨n, rfl, rfl⟩ := hv
    exact valueText_int rest nested n
  | .bool, w, v, nested, rest, hv => by
    obtain ⟨b, rfl, rfl⟩ := hv
    exact valueText_bool rest nested b
  | .string, w, v, nested, rest, hv => by
    obtain ⟨s, hs, rfl⟩ := hv
    exact valueText_string rest nested hs
  | .list t, w, v, nested, rest, hv => by
    obtain ⟨words, items, hl, rfl, hitems⟩ := hv
    have htexts : List.Forall₂ (fun i s => h.valueText (t.descriptor ++ rest) true i = .ok s) words
        (items.map (Value.text true)) :=
      List.forall₂_map_right_iff.mpr (hitems.imp fun _ _ hi => valueText_of_represents true rest hi)
    rw [Value.text, Value.itemTexts_eq_map]
    exact valueText_list nested hl htexts
  | .map k u, w, v, nested, rest, hv => by
    obtain ⟨t, entries, ht, rfl, hentries⟩ := hv
    -- A key is printed by all that follows the letter of the map, the descriptor of the values included.
    have htexts : List.Forall₂ (fun e s =>
        h.valueText (k.descriptor ++ (u.descriptor ++ rest)) true e.1 = .ok s.1 ∧
          h.valueText (u.descriptor ++ rest) true e.2 = .ok s.2) t.entries
        (entries.map fun e => (e.1.text true, e.2.text true)) :=
      List.forall₂_map_right_iff.mpr (hentries.imp fun _ _ he =>
        ⟨valueText_of_represents true _ he.1, valueText_of_represents true _ he.2⟩)
    have hline := valueText_map nested (Descriptor.skip_descriptor k _) ht htexts
    rw [mapText, List.map_map] at hline
    rw [Value.text, Value.entryTexts_eq_map, Ty.descriptor, List.cons_append, List.append_assoc]
    exact hline

/-- The descriptor of a type ends where the text behind it begins, and what is printed by it is the value of the
word, whatever stands behind it. -/
theorem print_of_represents :
    (∀ (t : Ty) (s : String), Descriptor.skip (Descriptor.ofString (Descriptor.text t.descriptor ++ s)) =
      some (Descriptor.ofString s)) ∧
    ∀ (h : Heap) (t : Ty) (w : Word) (v : Value) (s : String), h.Represents t w v →
      h.print w (Descriptor.ofString (Descriptor.text t.descriptor ++ s)) =
        .ok (v.text false ++ "\n") := by
  refine ⟨?_, ?_⟩
  · intro t s
    rw [Descriptor.ofString_text_append, Descriptor.skip_descriptor]
  · intro h t w v s hv
    rw [Descriptor.ofString_text_append, print, valueText_of_represents false _ hv]
    rfl

/-- A map whose keys are maps, so that the descriptor of its values stands behind three letters of its keys. -/
theorem print_of_represents_mapKeys :
    ∃ (h : Heap) (v : Value),
      h.Represents (.map (.map .string .int) (.list .bool)) (.ref 3) v ∧
      h.print (.ref 3) (Descriptor.ofString ("mmsilb" ++ "i")) =
        .ok "\x7b\x7b\"k\": 7\x7d: [true, false]\x7d\n" := by
  let inner : Table := ⟨.string, 1, 1, [some (.ref 0)], [some (.int 7)]⟩
  let outer : Table := ⟨.map, 1, 1, [some (.ref 1)], [some (.ref 2)]⟩
  let h : Heap := ⟨[.text "k", .table inner, .list [.int 1, .int 0], .table outer]⟩
  have hkey : h.Represents (.map .string .int) (.ref 1) (.map [(.string "k", .int 7)]) :=
    ⟨inner, _, rfl, rfl, .cons ⟨⟨"k", rfl, rfl⟩, ⟨7, rfl, rfl⟩⟩ .nil⟩
  have hvalue : h.Represents (.list .bool) (.ref 2) (.list [.bool true, .bool false]) :=
    ⟨_, _, rfl, rfl, .cons ⟨true, rfl, rfl⟩ (.cons ⟨false, rfl, rfl⟩ .nil)⟩
  have hmap : h.Represents (.map (.map .string .int) (.list .bool)) (.ref 3)
      (.map [(.map [(.string "k", .int 7)], .list [.bool true, .bool false])]) :=
    ⟨outer, _, rfl, rfl, .cons ⟨hkey, hvalue⟩ .nil⟩
  have hdescriptor : Descriptor.text (Ty.map (.map .string .int) (.list .bool)).descriptor = "mmsilb" := by
    decide
  have hline := print_of_represents.2 h _ _ _ "i" hmap
  rw [hdescriptor] at hline
  refine ⟨h, _, hmap, hline.trans (congrArg Except.ok ?_)⟩
  decide +kernel

end Heap

end Gondola
