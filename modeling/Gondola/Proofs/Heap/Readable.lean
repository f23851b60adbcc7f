import Gondola.Proofs.Heap.Print
import Gondola.Proofs.Heap.Quoted

/-! What is printed can be read: the text of a value shows where it ends, whatever follows. -/
namespace Gondola.Heap

def isNumeral (c : Char) : Bool := c.isDigit || c == '-'

/-- Nothing that could go on with an integer. -/
def Ends (rest : List Char) : Prop := ∀ c ∈ rest.head?, isNumeral c = false

theorem ends_nil : Ends [] := fun _ h => nomatch h

theorem ends_cons {c : Char} (rest : List Char) (hc : isNumeral c = false) : Ends (c :: rest) := by
  intro d hd
  rwa [← Option.some.inj hd]

section Readable

variable {α β : Type} {S : α → Prop} {S' : β → Prop} {f : α → List Char} {g : β → List Char}

/-- The texts of the things in `S` tell which one it is and where it ends. -/
def Readable (S : α → Prop) (f : α → List Char) : Prop :=
  ∀ a b rest rest', S a → S b → Ends rest → Ends rest' → f a ++ rest = f b ++ rest' → a = b ∧ rest = rest'

theorem Readable.pair (hf : Readable S f) (hg : Readable S' g) :
    Readable (fun p : α × β => S p.1 ∧ S' p.2) fun p => f p.1 ++ ':' :: ' ' :: g p.2 := by
  rintro ⟨a, b⟩ ⟨a', b'⟩ rest rest' ⟨ha, hb⟩ ⟨ha', hb'⟩ hrest hrest' h
  simp only [List.append_assoc, List.cons_append] at h
  obtain ⟨rfl, htail⟩ := hf _ _ _ _ ha ha' (ends_cons _ (by decide)) (ends_cons _ (by decide)) h
  have hvalue := (List.cons.inj (List.cons.inj htail).2).2
  obtain ⟨rfl, hends⟩ := hg _ _ _ _ hb hb' hrest hrest' hvalue
  exact ⟨rfl, hends⟩

variable {close : Char} {as bs : List α} {rest rest' : List Char}

def later (f : α → List Char) (as : List α) : List Char := as.flatMap fun a => ',' :: ' ' :: f a

theorem later_cons (f : α → List Char) (a : α) (as : List α) :
    later f (a :: as) = ',' :: ' ' :: (f a ++ later f as) := List.flatMap_cons

theorem ends_later (hclose : isNumeral close = false) (as : List α) (rest : List Char) :
    Ends (later f as ++ close :: rest) := by
  cases as with
  | nil => exact ends_cons rest hclose
  | cons a as => exact ends_cons _ (by decide)

theorem Readable.later (hf : Readable S f) (hclose : isNumeral close = false) (hcomma : close ≠ ',')
    (has : ∀ a ∈ as, S a) (hbs : ∀ b ∈ bs, S b)
    (h : later f as ++ close :: rest = later f bs ++ close :: rest') : as = bs ∧ rest = rest' := by
  induction as generalizing bs with
  | nil =>
    cases bs with
    | nil => exact ⟨rfl, (List.cons.inj h).2⟩
    | cons b bs => exact absurd (List.cons.inj h).1 hcomma
  | cons a as ih =>
    cases bs with
    | nil => exact absurd (List.cons.inj h).1.symm hcomma
    | cons b bs =>
      obtain ⟨ha, has'⟩ := List.forall_mem_cons.mp has
      obtain ⟨hb, hbs'⟩ := List.forall_mem_cons.mp hbs
      simp only [later_cons, List.cons_append, List.append_assoc, List.cons.injEq, true_and] at h
      obtain ⟨rfl, htail⟩ := hf _ _ _ _ ha hb (ends_later hclose as rest) (ends_later hclose bs rest') h
      obtain ⟨rfl, hrest⟩ := ih has' hbs' htail
      exact ⟨rfl, hrest⟩

theorem intercalate_map_cons (f : α → List Char) (a : α) (as : List α) :
    [',', ' '].intercalate ((a :: as).map f) = f a ++ Heap.later f as := by
  induction as generalizing a with
  | nil => simp [Heap.later]
  | cons b as ih =>
    rw [List.map_cons, List.map_cons, List.intercalate_cons_cons, ← List.map_cons, ih, later_cons, List.append_assoc]
    rfl

/-- A container is read item by item, if no item starts with the closing bracket. -/
theorem Readable.items (hf : Readable S f) (hclose : isNumeral close = false) (hcomma : close ≠ ',')
    (hstart : ∀ a, S a → ∃ c cs, f a = c :: cs ∧ c ≠ close) (has : ∀ a ∈ as, S a) (hbs : ∀ b ∈ bs, S b)
    (h : [',', ' '].intercalate (as.map f) ++ close :: rest = [',', ' '].intercalate (bs.map f) ++ close :: rest') :
    as = bs ∧ rest = rest' := by
  have hempty (a : α) (ha : S a) (tail rest : List Char) : f a ++ tail ≠ close :: rest := by
    obtain ⟨c, cs, hfa, hc⟩ := hstart a ha
    rw [hfa]
    exact fun h => hc (List.cons.inj h).1
  cases as with
  | nil =>
    cases bs with
    | nil => exact ⟨rfl, (List.cons.inj h).2⟩
    | cons b bs =>
      rw [intercalate_map_cons, List.append_assoc] at h
      exact absurd h.symm (hempty b (hbs b List.mem_cons_self) _ rest)
  | cons a as =>
    cases bs with
    | nil =>
      rw [intercalate_map_cons, List.append_assoc] at h
      exact absurd h (hempty a (has a List.mem_cons_self) _ rest')
    | cons b bs =>
      obtain ⟨ha, has'⟩ := List.forall_mem_cons.mp has
      obtain ⟨hb, hbs'⟩ := List.forall_mem_cons.mp hbs
      rw [intercalate_map_cons, intercalate_map_cons, List.append_assoc, List.append_assoc] at h
      obtain ⟨rfl, htail⟩ := hf _ _ _ _ ha hb (ends_later hclose as rest) (ends_later hclose bs rest') h
      obtain ⟨rfl, hrest⟩ := hf.later hclose hcomma has' hbs' htail
      exact ⟨rfl, hrest⟩

theorem exists_of_forall₂ {R : α → β → Prop} {as : List α} {bs : List β}
    (h : List.Forall₂ R as bs) :
    ∀ b ∈ bs, ∃ a, R a b := by
  induction h with
  | nil => exact List.forall_mem_nil _
  | cons hab _ ih => exact List.forall_mem_cons.mpr ⟨⟨_, hab⟩, ih⟩

end Readable

namespace Value

def chars (v : Value) : List Char := (v.text true).toList

/-- Some word is the value, of the given type. -/
def Of (t : Ty) (v : Value) : Prop := ∃ (h : Heap) (w : Word), h.Represents t w v

theorem chars_list (items : List Value) :
    (list items).chars = '[' :: ([',', ' '].intercalate (items.map chars) ++ [']']) := by
  rw [chars, text, itemTexts_eq_map, String.toList_append, String.toList_append, String.toList_intercalate,
    List.map_map]
  rfl

theorem chars_map (entries : List (Value × Value)) :
    (map entries).chars =
      '\x7b' :: ([',', ' '].intercalate (entries.map fun e => e.1.chars ++ ':' :: ' ' :: e.2.chars) ++ ['\x7d']) := by
  have hentry (e : Value × Value) : (e.1.text true ++ ": " ++ e.2.text true).toList =
      e.1.chars ++ ':' :: ' ' :: e.2.chars := by
    rw [String.toList_append, String.toList_append, List.append_assoc]
    rfl
  rw [chars, text, entryTexts_eq_map, String.toList_append, String.toList_append, String.toList_intercalate,
    List.map_map]
  simp only [Function.comp_def, hentry]
  rfl

theorem of_list {t : Ty} {v : Value} (hv : Of (.list t) v) : ∃ items, v = list items ∧ ∀ i ∈ items, Of t i := by
  obtain ⟨h, w, words, items, -, rfl, hitems⟩ := hv
  refine ⟨items, rfl, fun i hi => ?_⟩
  obtain ⟨w, hw⟩ := exists_of_forall₂ hitems i hi
  exact ⟨h, w, hw⟩

theorem of_map {k u : Ty} {v : Value} (hv : Of (.map k u) v) :
    ∃ entries, v = map entries ∧ ∀ e ∈ entries, Of k e.1 ∧ Of u e.2 := by
  obtain ⟨h, w, table, entries, -, rfl, hentries⟩ := hv
  refine ⟨entries, rfl, fun e he => ?_⟩
  obtain ⟨x, hk, hu⟩ := exists_of_forall₂ hentries e he
  exact ⟨⟨h, x.1, hk⟩, h, x.2, hu⟩

theorem isNumeral_of_mem_toString (n : Int) : ∀ c ∈ (toString n).toList, isNumeral c = true := by
  have hdigits (m : Nat) : ∀ c ∈ Nat.toDigits 10 m, isNumeral c = true := by
    intro c hc
    rw [isNumeral, Nat.isDigit_of_mem_toDigits (by decide) (by decide) hc, Bool.true_or]
  cases n with
  | ofNat m =>
    rw [toList_toString_ofNat]
    exact hdigits m
  | negSucc m =>
    rw [toList_toString_negSucc]
    exact List.forall_mem_cons.mpr ⟨by decide, hdigits (m + 1)⟩

theorem toString_ne_nil (n : Int) : (toString n).toList ≠ [] := by
  cases n with
  | ofNat m =>
    rw [toList_toString_ofNat]
    exact Nat.toDigits_ne_nil
  | negSucc m =>
    rw [toList_toString_negSucc]
    exact List.cons_ne_nil _ _

theorem exists_start {t : Ty} {v : Value} (hv : Of t v) : ∃ c cs, v.chars = c :: cs ∧ c ≠ ']' ∧ c ≠ '\x7d' := by
  cases t with
  | int =>
    obtain ⟨h, w, n, -, rfl⟩ := hv
    obtain ⟨c, cs, hcs⟩ := List.exists_cons_of_ne_nil (toString_ne_nil n)
    have hc : isNumeral c = true := isNumeral_of_mem_toString n c (hcs ▸ List.mem_cons_self)
    refine ⟨c, cs, hcs, ?_, ?_⟩
    all_goals
      rintro rfl
      exact absurd hc (by decide)
  | bool =>
    obtain ⟨h, w, b, -, rfl⟩ := hv
    cases b with
    | true => exact ⟨'t', _, rfl, by decide⟩
    | false => exact ⟨'f', _, rfl, by decide⟩
  | string =>
    obtain ⟨h, w, s, -, rfl⟩ := hv
    exact ⟨'"', _, toList_quotedText s, by decide⟩
  | list t =>
    obtain ⟨items, rfl, -⟩ := of_list hv
    exact ⟨'[', _, chars_list items, by decide⟩
  | map k u =>
    obtain ⟨entries, rfl, -⟩ := of_map hv
    exact ⟨'\x7b', _, chars_map entries, by decide⟩
  | _ =>
    obtain ⟨h, w, hv⟩ := hv
    exact hv.elim

theorem readable_int : Readable (Of .int) chars := by
  rintro _ _ rest rest' ⟨h, w, m, -, rfl⟩ ⟨h', w', n, -, rfl⟩ hrest hrest' heq
  -- An integer is all of the numerals that the text starts with.
  have htake (n : Int) (rest : List Char) (hrest : Ends rest) :
      ((toString n).toList ++ rest).takeWhile isNumeral = (toString n).toList := by
    have hnone : rest.takeWhile isNumeral = [] := by
      cases rest with
      | nil => rfl
      | cons c cs => rw [List.takeWhile_cons, hrest c rfl]; rfl
    rw [List.takeWhile_append_of_pos (isNumeral_of_mem_toString n), hnone, List.append_nil]
  have hchars : (toString m).toList = (toString n).toList := by
    rw [← htake m rest hrest, ← htake n rest' hrest']
    exact congrArg _ heq
  obtain rfl := toString_int_inj hchars
  exact ⟨rfl, List.append_cancel_left heq⟩

theorem readable_bool : Readable (Of .bool) chars := by
  rintro _ _ rest rest' ⟨h, w, b, -, rfl⟩ ⟨h', w', b', -, rfl⟩ - - heq
  cases b <;> cases b'
  case false.false | true.true => exact ⟨rfl, List.append_cancel_left heq⟩
  all_goals exact absurd (List.cons.inj heq).1 (by decide)

theorem readable_string : Readable (Of .string) chars := by
  rintro _ _ rest rest' ⟨h, w, s, -, rfl⟩ ⟨h', w', s', -, rfl⟩ - - heq
  obtain ⟨rfl, hrest⟩ := quotedText_append_inj heq
  exact ⟨rfl, hrest⟩

theorem readable_list {t : Ty} (ht : Readable (Of t) chars) : Readable (Of (.list t)) chars := by
  rintro v v' rest rest' hv hv' - - heq
  obtain ⟨items, rfl, hitems⟩ := of_list hv
  obtain ⟨items', rfl, hitems'⟩ := of_list hv'
  simp only [chars_list, List.cons_append, List.append_assoc, List.nil_append, List.cons.injEq, true_and] at heq
  have hstart (v : Value) (hv : Of t v) : ∃ c cs, v.chars = c :: cs ∧ c ≠ ']' := by
    obtain ⟨c, cs, hcs, hc, -⟩ := exists_start hv
    exact ⟨c, cs, hcs, hc⟩
  obtain ⟨rfl, hrest⟩ := ht.items (by decide) (by decide) hstart hitems hitems' heq
  exact ⟨rfl, hrest⟩

theorem readable_map {k u : Ty} (hk : Readable (Of k) chars) (hu : Readable (Of u) chars) :
    Readable (Of (.map k u)) chars := by
  rintro v v' rest rest' hv hv' - - heq
  obtain ⟨entries, rfl, hentries⟩ := of_map hv
  obtain ⟨entries', rfl, hentries'⟩ := of_map hv'
  simp only [chars_map, List.cons_append, List.append_assoc, List.nil_append, List.cons.injEq, true_and] at heq
  have hstart (e : Value × Value) (he : Of k e.1 ∧ Of u e.2) :
      ∃ c cs, e.1.chars ++ ':' :: ' ' :: e.2.chars = c :: cs ∧ c ≠ '\x7d' := by
    obtain ⟨c, cs, hcs, -, hc⟩ := exists_start he.1
    exact ⟨c, _, congrArg (· ++ _) hcs, hc⟩
  obtain ⟨rfl, hrest⟩ := (hk.pair hu).items (by decide) (by decide) hstart hentries hentries' heq
  exact ⟨rfl, hrest⟩

theorem readable : ∀ t : Ty, Readable (Of t) chars
  | .int => readable_int
  | .bool => readable_bool
  | .string => readable_string
  | .list t => readable_list (readable t)
  | .map k u => readable_map (readable k) (readable u)
  | .void | .any | .function .. | .struct .. | .enum .. | .metatype _ =>
    fun _ _ _ _ ⟨_, _, hv⟩ => hv.elim

theorem ty_of_string {t : Ty} {s : String} (hv : Of t (string s)) : t = .string := by
  obtain ⟨h, w, hv⟩ := hv
  cases t with
  | string => rfl
  | int | bool =>
    obtain ⟨_, -, hv⟩ := hv
    cases hv
  | list t | map k u =>
    obtain ⟨_, _, -, hv, -⟩ := hv
    cases hv
  | _ => exact hv.elim

theorem text_inj {t : Ty} {v v' : Value} (hv : Of t v) (hv' : Of t v') (h : v.text false = v'.text false) :
    v = v' := by
  by_cases ht : t = .string
  · subst ht
    obtain ⟨_, _, s, -, rfl⟩ := hv
    obtain ⟨_, _, s', -, rfl⟩ := hv'
    exact congrArg string h
  · -- Only strings are not printed as they are inside of a container.
    have htext (v : Value) (hv : Of t v) : v.text false = v.text true := by
      cases v with
      | string s => exact absurd (ty_of_string hv) ht
      | int _ | bool _ | list _ | map _ => rfl
    rw [htext v hv, htext v' hv'] at h
    have hchars : v.chars ++ [] = v'.chars ++ [] := congrArg (String.toList · ++ []) h
    exact (readable t v v' [] [] hv hv' ends_nil ends_nil hchars).1

end Value

/-- A string inside of a container is written as a JSON string, which can be read back. Different strings are thus
written differently there, and different values of a type are printed differently. -/
theorem quoted_strings_read_back :
    (∀ (bytes : ByteArray) (hbytes : bytes.IsValidUTF8),
      IsJsonOf bytes.data.toList (.ofByteArray bytes hbytes) (quotedText (.ofByteArray bytes hbytes))) ∧
    (∀ (h h' : Heap) (w w' : Word) (s s' : String) (rest : List Descriptor.Part),
      h.text w = .ok s → h'.text w' = .ok s' →
        (h.valueText (.string :: rest) true w = h'.valueText (.string :: rest) true w' ↔ s = s')) ∧
    ∀ (h h' : Heap) (t : Ty) (w w' : Word) (v v' : Value), h.Represents t w v → h'.Represents t w' v' →
      (h.print w t.descriptor = h'.print w' t.descriptor ↔ v = v') := by
  refine ⟨?_, ?_, ?_⟩
  · intro bytes hbytes
    exact isJsonOf_quotedText (.ofByteArray bytes hbytes)
  · intro h h' w w' s s' rest hs hs'
    rw [valueText_string rest true hs, valueText_string rest true hs']
    constructor
    · intro heq
      have hquoted : quotedText s = quotedText s' := Except.ok.inj heq
      exact (quotedText_append_inj (congrArg (String.toList · ++ []) hquoted)).1
    · rintro rfl
      rfl
  · intro h h' t w w' v v' hv hv'
    have hline := valueText_of_represents false [] hv
    have hline' := valueText_of_represents false [] hv'
    rw [List.append_nil] at hline hline'
    rw [print, print, hline, hline']
    constructor
    · intro heq
      have hlines : v.text false ++ "\n" = v'.text false ++ "\n" := Except.ok.inj heq
      exact Value.text_inj ⟨h, w, hv⟩ ⟨h', w', hv'⟩ (String.append_left_inj "\n" |>.mp hlines)
    · rintro rfl
      rfl

/-- A string that would be two of them if its quotes were not escaped. -/
theorem quoted_strings_read_back_two :
    IsJsonOf [0xc3, 0xa9, 0x01, 0x22] "é\x01\"" "\"é\\u0001\\\"\"" ∧
    ∃ h h' : Heap,
      h.valueText [.string] true (.ref 0) ≠ h'.valueText [.string] true (.ref 0) ∧
      h.Represents (.list .string) (.ref 1) (.list [.string "a\", \"b"]) ∧
      h'.Represents (.list .string) (.ref 2) (.list [.string "a", .string "b"]) ∧
      h.print (.ref 1) [.list, .string] ≠ h'.print (.ref 2) [.list, .string] := by
  have hbytes : ByteArray.IsValidUTF8 ⟨#[0xc3, 0xa9, 0x01, 0x22]⟩ := ⟨['é', '\x01', '"'], by decide⟩
  have hjson := quoted_strings_read_back.1 ⟨#[0xc3, 0xa9, 0x01, 0x22]⟩ hbytes
  have htext : String.ofByteArray ⟨#[0xc3, 0xa9, 0x01, 0x22]⟩ hbytes = "é\x01\"" :=
    String.toByteArray_inj.mp (by decide : ByteArray.mk #[0xc3, 0xa9, 0x01, 0x22] = "é\x01\"".toByteArray)
  have hquoted : quotedText "é\x01\"" = "\"é\\u0001\\\"\"" := by decide
  rw [htext, hquoted] at hjson
  let h : Heap := ⟨[.text "a\", \"b", .list [.ref 0]]⟩
  let h' : Heap := ⟨[.text "a", .text "b", .list [.ref 0, .ref 1]]⟩
  have hv : h.Represents (.list .string) (.ref 1) (.list [.string "a\", \"b"]) :=
    ⟨_, _, rfl, rfl, .cons ⟨_, rfl, rfl⟩ .nil⟩
  have hv' : h'.Represents (.list .string) (.ref 2) (.list [.string "a", .string "b"]) :=
    ⟨_, _, rfl, rfl, .cons ⟨_, rfl, rfl⟩ (.cons ⟨_, rfl, rfl⟩ .nil)⟩
  have hstring := quoted_strings_read_back.2.1 h h' (.ref 0) (.ref 0) _ _ [] rfl rfl
  have hprint := quoted_strings_read_back.2.2 h h' _ _ _ _ _ hv hv'
  refine ⟨hjson, h, h', ?_, hv, hv', ?_⟩
  · intro heq
    exact absurd (hstring.mp heq) (by decide)
  · intro heq
    have hlength := congrArg List.length (Value.list.inj (hprint.mp heq))
    exact absurd hlength (by decide)

end Gondola.Heap
