import Gondola.Heap.Table

/-! A table holds a list of entries in memory. Looking a key up and setting it are therefore what they are on the list.
-/
namespace Gondola

namespace Cells

variable {cells : Cells} {i j n : Nat} {w : Word}

@[simp] theorem length_blank (n : Nat) : (blank n).length = n := List.length_replicate

@[simp] theorem length_write : (cells.write i w).length = cells.length := List.length_set

theorem length_resize (h : cells.length ≤ n) : (cells.resize n).length = n := by
  rw [resize, List.length_append, List.length_take, length_blank]
  omega

theorem read?_write_self (h : i < cells.length) : (cells.write i w).read? i = some w := by
  rw [read?, write, List.getElem?_set_self h]
  rfl

theorem read?_write_of_ne (h : i ≠ j) : (cells.write i w).read? j = cells.read? j := by
  rw [read?, write, List.getElem?_set_ne h, read?]

theorem read?_resize (hn : cells.length ≤ n) (h : cells.read? i = some w) :
    (cells.resize n).read? i = some w := by
  have hi : i < cells.length := by
    rw [read?, Option.join_eq_some_iff] at h
    exact (List.getElem?_eq_some_iff.mp h).1
  rw [resize, List.take_of_length_le hn, read?, List.getElem?_append_left hi]
  exact h

end Cells

namespace Dictionary

/-- Setting a key in a list of entries. A new key goes last; one that is there keeps its place. -/
def set (same : Word → Word → Bool) (key value : Word) :
    List (Word × Word) → List (Word × Word)
  | [] => [(key, value)]
  | (k, v) :: es => if same k key then (k, value) :: es else (k, v) :: set same key value es

def get? (same : Word → Word → Bool) (es : List (Word × Word)) (key : Word) : Option Word :=
  (es.find? fun e => same e.1 key).map Prod.snd

variable {same : Word → Word → Bool} {key value : Word} {es : List (Word × Word)}

theorem set_of_absent (h : es.findIdx (fun e => same e.1 key) = es.length) :
    set same key value es = es ++ [(key, value)] := by
  induction es with
  | nil => rfl
  | cons e es ih =>
    rw [List.findIdx_cons] at h
    cases hs : same e.1 key with
    | true => simp [hs] at h
    | false =>
      have htail : es.findIdx (fun e => same e.1 key) = es.length := by simpa [hs] using h
      rw [set, hs, ih htail]
      rfl

theorem set_of_present {k v : Word} (h : es[es.findIdx fun e => same e.1 key]? = some (k, v)) :
    set same key value es = es.set (es.findIdx fun e => same e.1 key) (k, value) := by
  induction es with
  | nil => cases h
  | cons e es ih =>
    rw [List.findIdx_cons] at h ⊢
    cases hs : same e.1 key with
    | true =>
      rw [hs] at h
      obtain rfl : e = (k, v) := Option.some.inj h
      rw [set, hs]
      rfl
    | false =>
      rw [hs] at h
      rw [set, hs, ih h]
      rfl

end Dictionary

namespace Table

variable {same : Word → Word → Bool} {t : Table} {es : List (Word × Word)} {key value : Word}

theorem keyKind_set : (t.set same key value).keyKind = t.keyKind := by
  unfold set addKey makeRoom
  dsimp only
  split
  · split
    · rfl
    · rfl
  · rfl

/-- The table holds these entries, in this order. -/
structure Holds (t : Table) (es : List (Word × Word)) : Prop where
  length : t.length = es.length
  room : es.length ≤ t.capacity
  positive : 0 < t.capacity
  keyCells : t.keys.length = t.capacity
  valueCells : t.values.length = t.capacity
  key : ∀ i k v, es[i]? = some (k, v) → t.keys.read? i = some k
  value : ∀ i k v, es[i]? = some (k, v) → t.values.read? i = some v

theorem holds_withRoom (kind : Descriptor.Part) (n : Nat) : (withRoom kind n).Holds [] where
  length := rfl
  room := Nat.zero_le _
  positive := by
    rw [withRoom]
    dsimp only
    split
    · decide
    · omega
  keyCells := Cells.length_blank _
  valueCells := Cells.length_blank _
  key := nofun
  value := nofun

namespace Holds

theorem placeFrom_eq (h : t.Holds es) (n i : Nat) (hn : i + n = es.length) :
    placeFrom same t.keys key n i = i + (es.drop i).findIdx fun e => same e.1 key := by
  induction n generalizing i with
  | zero =>
    rw [List.drop_eq_nil_of_le (by omega)]
    rfl
  | succ n ih =>
    have hi : i < es.length := by omega
    -- The cell at `i` and the first of the remaining entries have the same key.
    have hkey := h.key i es[i].1 es[i].2 (List.getElem?_eq_getElem hi)
    rw [placeFrom, hkey, Option.any_some, List.drop_eq_getElem_cons hi, List.findIdx_cons]
    cases same es[i].1 key with
    | true => rfl
    | false =>
      rw [ih (i + 1) (by omega)]
      simp only [Bool.false_eq_true, if_false, cond_false]
      omega

theorem place_eq (h : t.Holds es) : t.place same key = es.findIdx fun e => same e.1 key := by
  rw [place, h.length, h.placeFrom_eq es.length 0 (Nat.zero_add _), List.drop_zero, Nat.zero_add]

theorem place_le (h : t.Holds es) : t.place same key ≤ t.length := by
  rw [h.place_eq, h.length]
  exact List.findIdx_le_length

theorem get?_eq (h : t.Holds es) : t.get? same key = Dictionary.get? same es key := by
  have hle : es.findIdx (fun e => same e.1 key) ≤ es.length := List.findIdx_le_length
  rw [get?, h.place_eq, h.length, Dictionary.get?, List.find?_eq_getElem?_findIdx]
  split
  · rename_i hlen
    rw [hlen, List.getElem?_eq_none (Nat.le_refl _)]
    rfl
  · rename_i hlen
    have hlt : es.findIdx (fun e => same e.1 key) < es.length := by omega
    rw [List.getElem?_eq_getElem hlt]
    exact h.value _ _ _ (List.getElem?_eq_getElem hlt)

theorem entryAt?_eq (h : t.Holds es) {i : Nat} {e : Word × Word} (he : es[i]? = some e) :
    t.entryAt? i = some e := by
  rw [entryAt?, h.key i e.1 e.2 he, h.value i e.1 e.2 he]
  rfl

theorem entries_eq (h : t.Holds es) : t.entries = es := by
  have hmap : (List.range t.length).map t.entryAt? = es.map some := by
    rw [h.length]
    apply List.ext_getElem?
    intro i
    rw [List.getElem?_map, List.getElem?_map]
    by_cases hi : i < es.length
    · rw [List.getElem?_range hi, List.getElem?_eq_getElem hi]
      exact congrArg some (h.entryAt?_eq (List.getElem?_eq_getElem hi))
    · rw [List.getElem?_eq_none (by rw [List.length_range]; omega), List.getElem?_eq_none (by omega)]
      rfl
  calc t.entries = ((List.range t.length).map t.entryAt?).filterMap id := by
        rw [entries, List.filterMap_map, Function.id_comp]
    _ = es := by rw [hmap, List.filterMap_map, Function.id_comp, List.filterMap_some]

theorem grow (h : t.Holds es) : t.grow.Holds es := by
  have hle (cells : Cells) (hc : cells.length = t.capacity) : cells.length ≤ t.capacity * 2 := by omega
  exact {
    length := h.length
    room := Nat.le_trans h.room (Nat.le_mul_of_pos_right _ (by decide))
    positive := Nat.mul_pos h.positive (by decide)
    keyCells := Cells.length_resize (hle _ h.keyCells)
    valueCells := Cells.length_resize (hle _ h.valueCells)
    key := fun i k v he => Cells.read?_resize (hle _ h.keyCells) (h.key i k v he)
    value := fun i k v he => Cells.read?_resize (hle _ h.valueCells) (h.value i k v he) }

theorem makeRoom (h : t.Holds es) : t.makeRoom.Holds es ∧ es.length < t.makeRoom.capacity := by
  have hlen := h.length
  have hroom := h.room
  have hpos := h.positive
  unfold Table.makeRoom
  split
  · refine ⟨h.grow, ?_⟩
    change es.length < t.capacity * 2
    omega
  · exact ⟨h, by omega⟩

theorem append (h : t.Holds es) (hroom : es.length < t.capacity) :
    Holds { t with
      length := t.length + 1
      keys := t.keys.write t.length key
      values := t.values.write t.length value } (es ++ [(key, value)]) := by
  -- An entry is an old one, whose cells are left alone, or the new one.
  have hentry {i : Nat} {k v : Word} (he : (es ++ [(key, value)])[i]? = some (k, v)) :
      i ≠ es.length ∧ es[i]? = some (k, v) ∨ i = es.length ∧ k = key ∧ v = value := by
    rw [List.getElem?_append] at he
    split at he
    · exact .inl ⟨by omega, he⟩
    · rw [List.getElem?_singleton] at he
      split at he
      · obtain ⟨rfl, rfl⟩ := Prod.mk.inj (Option.some.inj he)
        exact .inr ⟨by omega, rfl, rfl⟩
      · cases he
  refine ⟨?_, ?_, h.positive, ?_, ?_, ?_, ?_⟩
  · rw [List.length_append, h.length]
    rfl
  · rw [List.length_append]
    exact hroom
  · rw [Cells.length_write]
    exact h.keyCells
  · rw [Cells.length_write]
    exact h.valueCells
  · intro i k v he
    rw [h.length]
    obtain ⟨hi, he⟩ | ⟨rfl, rfl, rfl⟩ := hentry he
    · rw [Cells.read?_write_of_ne hi.symm]
      exact h.key i k v he
    · exact Cells.read?_write_self (h.keyCells ▸ hroom)
  · intro i k v he
    rw [h.length]
    obtain ⟨hi, he⟩ | ⟨rfl, rfl, rfl⟩ := hentry he
    · rw [Cells.read?_write_of_ne hi.symm]
      exact h.value i k v he
    · exact Cells.read?_write_self (h.valueCells ▸ hroom)

theorem replace (h : t.Holds es) {i : Nat} {k v : Word} (hi : es[i]? = some (k, v)) :
    Holds { t with values := t.values.write i value } (es.set i (k, value)) := by
  have hlt : i < es.length := (List.getElem?_eq_some_iff.mp hi).1
  -- The value of one entry is new, and all keys are the old ones.
  have hentry {j : Nat} {k' v' : Word} (he : (es.set i (k, value))[j]? = some (k', v')) :
      i ≠ j ∧ es[j]? = some (k', v') ∨ i = j ∧ k' = k ∧ v' = value := by
    by_cases hij : i = j
    · subst hij
      rw [List.getElem?_set_self hlt] at he
      obtain ⟨rfl, rfl⟩ := Prod.mk.inj (Option.some.inj he)
      exact .inr ⟨rfl, rfl, rfl⟩
    · rw [List.getElem?_set_ne hij] at he
      exact .inl ⟨hij, he⟩
  refine ⟨?_, ?_, h.positive, h.keyCells, ?_, ?_, ?_⟩
  · rw [List.length_set]
    exact h.length
  · rw [List.length_set]
    exact h.room
  · rw [Cells.length_write]
    exact h.valueCells
  · intro j k' v' he
    obtain ⟨-, he⟩ | ⟨rfl, rfl, -⟩ := hentry he
    · exact h.key j k' v' he
    · exact h.key i k' v hi
  · intro j k' v' he
    obtain ⟨hij, he⟩ | ⟨rfl, -, rfl⟩ := hentry he
    · rw [Cells.read?_write_of_ne hij]
      exact h.value j k' v' he
    · apply Cells.read?_write_self
      rw [h.valueCells]
      exact Nat.lt_of_lt_of_le hlt h.room

theorem set_congr {same' : Word → Word → Bool} (h : t.Holds es)
    (hs : ∀ e ∈ es, same e.1 key = same' e.1 key) :
    t.set same key value = t.set same' key value := by
  have hplace : t.place same key = t.place same' key := by
    rw [h.place_eq, h.place_eq]
    apply Nat.le_antisymm
    · exact List.findIdx_le_findIdx fun e he hse => (hs e he).trans hse
    · exact List.findIdx_le_findIdx fun e he hse => (hs e he).symm.trans hse
  rw [Table.set, Table.set, hplace]

theorem set_of_absent (h : t.Holds es) (habsent : t.place same key = t.length) :
    t.set same key value = { t.makeRoom with
      length := t.makeRoom.length + 1
      keys := t.makeRoom.keys.write t.makeRoom.length key
      values := t.makeRoom.values.write t.makeRoom.length value } := by
  have hlen : t.makeRoom.length = t.length := h.makeRoom.1.length.trans h.length.symm
  rw [Table.set]
  simp only [if_pos habsent, addKey, hlen]
  rw [habsent]

theorem set (h : t.Holds es) (key value : Word) :
    (t.set same key value).Holds (Dictionary.set same key value es) ∧
      t.place same key < (t.set same key value).capacity := by
  have hplace : t.place same key = es.findIdx fun e => same e.1 key := h.place_eq
  by_cases habsent : t.place same key = t.length
  · rw [h.set_of_absent habsent, Dictionary.set_of_absent (hplace ▸ habsent.trans h.length),
      habsent, h.length]
    exact ⟨h.makeRoom.1.append h.makeRoom.2, h.makeRoom.2⟩
  · have hset : t.set same key value = { t with values := t.values.write (t.place same key) value } := by
      rw [Table.set]
      simp only [if_neg habsent]
    have hlt : t.place same key < es.length := by
      have hle : t.place same key ≤ t.length := h.place_le
      rw [h.length] at hle habsent
      omega
    rw [hplace] at hlt hset ⊢
    have hentry := List.getElem?_eq_getElem hlt
    rw [hset, Dictionary.set_of_present hentry]
    exact ⟨h.replace hentry, Nat.lt_of_lt_of_le hlt h.room⟩

end Holds

end Table

end Gondola
