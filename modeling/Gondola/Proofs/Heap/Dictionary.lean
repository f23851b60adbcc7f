import Gondola.Heap
import Gondola.Proofs.Heap.Table
import Mathlib.Data.List.Induction

/-! A map is a dictionary in the order in which its keys first came, however often it is set and grows, and
whatever else happens on the heap in the meantime. -/
namespace Gondola

namespace Dictionary

section FirstOfEqual

variable {α : Type} (r : α → α → Bool)

theorem eraseDupsBy_concat (as : List α) (b : α) :
    (as ++ [b]).eraseDupsBy r =
      if (as.eraseDupsBy r).any (r b) then as.eraseDupsBy r else as.eraseDupsBy r ++ [b] := by
  match as with
  | [] => simp [List.eraseDupsBy_cons]
  | a :: as =>
    rw [List.cons_append, List.eraseDupsBy_cons, List.eraseDupsBy_cons, List.filter_append,
      List.any_cons]
    cases hba : r b a with
    | true => simp [hba]
    | false =>
      have hlast : ([b].filter fun c => r c a = false) = [b] := by simp [hba]
      rw [hlast, eraseDupsBy_concat, Bool.false_or]
      split
      · rfl
      · rfl
termination_by as.length
decreasing_by exact Nat.lt_succ_of_le (List.length_filter_le ..)

theorem mem_of_mem_eraseDupsBy {as : List α} {a : α} (h : a ∈ as.eraseDupsBy r) : a ∈ as := by
  induction as using List.reverseRecOn with
  | nil => exact h
  | append_singleton as b ih =>
    rw [eraseDupsBy_concat] at h
    split at h
    · exact List.mem_append_left _ (ih h)
    · rcases List.mem_append.mp h with h | h
      · exact List.mem_append_left _ (ih h)
      · exact List.mem_append_right _ h

theorem pairwise_eraseDupsBy (as : List α) :
    (as.eraseDupsBy r).Pairwise fun a b => r b a = false := by
  induction as using List.reverseRecOn with
  | nil => exact .nil
  | append_singleton as b ih =>
    rw [eraseDupsBy_concat]
    split
    · exact ih
    · rename_i hany
      refine List.pairwise_append.mpr ⟨ih, List.pairwise_singleton .., ?_⟩
      intro a ha c hc
      obtain rfl := List.mem_singleton.mp hc
      rw [Bool.not_eq_true, List.any_eq_false] at hany
      exact Bool.eq_false_iff.mpr (hany a ha)

end FirstOfEqual

variable {same : Word → Word → Bool} {key value : Word} {es writes : List (Word × Word)}

theorem set_congr {same' : Word → Word → Bool} (h : ∀ e ∈ es, same e.1 key = same' e.1 key) :
    set same key value es = set same' key value es := by
  induction es with
  | nil => rfl
  | cons e es ih =>
    rw [set, set, h e List.mem_cons_self, ih fun f hf => h f (List.mem_cons_of_mem _ hf)]

theorem keys_set : (set same key value es).map Prod.fst =
    if es.any (fun e => same e.1 key) then es.map Prod.fst else es.map Prod.fst ++ [key] := by
  induction es with
  | nil => rfl
  | cons e es ih =>
    rw [set, List.any_cons]
    cases same e.1 key with
    | true => rfl
    | false =>
      simp only [Bool.false_eq_true, if_false, List.map_cons, ih, Bool.false_or]
      split
      · rfl
      · rfl

/-- The entries that writes leave behind: the keys in the order in which they were first written, each one
with the value that was last written for it. -/
structure Records (same : Word → Word → Bool) (writes es : List (Word × Word)) : Prop where
  keys : es.map Prod.fst = (writes.map Prod.fst).eraseDupsBy same
  get : ∀ key, get? same es key = get? same writes.reverse key

theorem Records.nil : Records same [] [] := ⟨rfl, fun _ => rfl⟩

section Identity

variable {κ : Type} {ident : Word → κ} (hsame : ∀ a b, same a b = true ↔ ident a = ident b)

include hsame

theorem get?_set (key' : Word) :
    get? same (set same key value es) key' = if same key key' then some value else get? same es key' := by
  have hcongr {a b : Word} (h : same a b = true) : same a key' = same b key' := by
    rw [Bool.eq_iff_iff, hsame, hsame, (hsame a b).mp h]
  induction es with
  | nil =>
    rw [set, get?, List.find?_singleton]
    split
    · rfl
    · rfl
  | cons e es ih =>
    obtain ⟨k, v⟩ := e
    simp only [get?] at ih ⊢
    rw [set]
    cases hk : same k key with
    | true =>
      rw [if_pos rfl, List.find?_cons, List.find?_cons, hcongr hk]
      cases same key key' with
      | true => rfl
      | false => rfl
    | false =>
      rw [if_neg Bool.false_ne_true, List.find?_cons, List.find?_cons]
      cases hk' : same k key' with
      | false => exact ih
      | true =>
        -- Here `key'` is the key `k`, which is not the one that was set.
        have hne : same key key' = false := by
          rw [Bool.eq_false_iff]
          intro h
          have hident : ident k = ident key := ((hsame _ _).mp hk').trans ((hsame _ _).mp h).symm
          rw [(hsame _ _).mpr hident] at hk
          cases hk
        rw [hne]
        rfl

theorem Records.set (h : Records same writes es) (key value : Word) :
    Records same (writes ++ [(key, value)]) (set same key value es) where
  keys := by
    have hcomm (a : Word) : same key a = same a key := by
      rw [Bool.eq_iff_iff, hsame, hsame]
      exact eq_comm
    rw [keys_set, List.map_append, List.map_singleton, eraseDupsBy_concat, ← h.keys, List.any_map]
    simp only [Function.comp_def, hcomm]
  get key' := by
    rw [get?_set hsame, List.reverse_append, h.get key']
    simp only [get?, List.reverse_singleton, List.singleton_append, List.find?_cons]
    cases same key key' with
    | true => rfl
    | false => rfl

end Identity

end Dictionary

namespace Heap

variable {h h' h'' : Heap} {kind : Descriptor.Part} {w key value : Word}

section Objects

variable {o o' : Object}

theorem object?_alloc (hw : h.object? w = some o) : (h.alloc o').2.object? w = some o := by
  cases w with
  | int v => cases hw
  | ref a =>
    have hlt : a < h.objects.length := (List.getElem?_eq_some_iff.mp hw).1
    rw [object?, alloc, List.getElem?_append_left hlt]
    exact hw

theorem object?_alloc_self : (h.alloc o).2.object? (h.alloc o).1 = some o := by
  rw [alloc, object?, List.getElem?_append_right (Nat.le_refl _), Nat.sub_self]
  rfl

theorem object?_update_self (hw : h.object? w = some o) : (h.update w o').object? w = some o' := by
  cases w with
  | int v => cases hw
  | ref a => exact List.getElem?_set_self (List.getElem?_eq_some_iff.mp hw).1

theorem object?_update_of_ne {w' : Word} (hne : w ≠ w') :
    (h.update w o).object? w' = h.object? w' := by
  cases w with
  | int v => rfl
  | ref a =>
    cases w' with
    | int v => rfl
    | ref b => exact List.getElem?_set_ne fun hab => hne (congrArg Word.ref hab)

theorem text_eq_ok {s : String} : h.text w = .ok s ↔ h.object? w = some (.text s) := by
  unfold text
  split
  · rename_i hw
    simp [hw]
  · rename_i hne
    exact iff_of_false nofun (hne s)

theorem list_eq_ok {items : List Word} : h.list w = .ok items ↔ h.object? w = some (.list items) := by
  unfold list
  split
  · rename_i hw
    simp [hw]
  · rename_i hne
    exact iff_of_false nofun (hne items)

theorem table_eq_ok {t : Table} : h.table w = .ok t ↔ h.object? w = some (.table t) := by
  unfold table
  split
  · rename_i hw
    simp [hw]
  · rename_i hne
    exact iff_of_false nofun (hne t)

end Objects

/-- What is compared of a key: the text of a string, and the word of everything else. -/
def identity (h : Heap) (kind : Descriptor.Part) (w : Word) : Word ⊕ String :=
  if kind = .string then
    match h.text w with
    | .ok s => .inr s
    | .error _ => .inl w
  else .inl w

theorem sameKey_iff {a b : Word} :
    h.sameKey kind a b = true ↔ h.identity kind a = h.identity kind b := by
  have hne {s : String} {e : HeapError} (ha : h.text a = .ok s) (hb : h.text b = .error e) : a ≠ b := by
    rintro rfl
    cases ha.symm.trans hb
  have hne' {s : String} {e : HeapError} (ha : h.text a = .error e) (hb : h.text b = .ok s) : a ≠ b := by
    rintro rfl
    cases ha.symm.trans hb
  unfold sameKey identity
  split
  · cases ha : h.text a with
    | ok s =>
      cases hb : h.text b with
      | ok t => simp
      | error e => simp [hne ha hb]
    | error e =>
      cases hb : h.text b with
      | ok t => simp [hne' ha hb]
      | error e' => simp
  · simp

def IsKey (h : Heap) (kind : Descriptor.Part) (w : Word) : Prop :=
  kind = .string → ∃ s, h.text w = .ok s

/-- Strings never change. -/
def KeepsTexts (h h' : Heap) : Prop := ∀ w s, h.text w = .ok s → h'.text w = .ok s

theorem KeepsTexts.trans (h₁ : KeepsTexts h h') (h₂ : KeepsTexts h' h'') : KeepsTexts h h'' :=
  fun w s hw => h₂ w s (h₁ w s hw)

theorem KeepsTexts.isKey (hk : KeepsTexts h h') (hw : h.IsKey kind w) : h'.IsKey kind w := by
  intro hkind
  obtain ⟨s, hs⟩ := hw hkind
  exact ⟨s, hk w s hs⟩

theorem KeepsTexts.identity_eq (hk : KeepsTexts h h') (hw : h.IsKey kind w) :
    h'.identity kind w = h.identity kind w := by
  unfold identity
  split
  · rename_i hkind
    obtain ⟨s, hs⟩ := hw hkind
    rw [hs, hk w s hs]
  · rfl

theorem KeepsTexts.sameKey_eq (hk : KeepsTexts h h') {a b : Word} (ha : h.IsKey kind a)
    (hb : h.IsKey kind b) : h'.sameKey kind a b = h.sameKey kind a b := by
  rw [Bool.eq_iff_iff, sameKey_iff, sameKey_iff, hk.identity_eq ha, hk.identity_eq hb]

theorem keepsTexts_alloc (o : Object) : KeepsTexts h (h.alloc o).2 :=
  fun _ _ hs => text_eq_ok.mpr (object?_alloc (text_eq_ok.mp hs))

theorem keepsTexts_update {o o' : Object} (hw : h.object? w = some o) (ho : ∀ s, o ≠ .text s) :
    KeepsTexts h (h.update w o') := by
  intro w' s hs
  have hs := text_eq_ok.mp hs
  have hne : w ≠ w' := by
    rintro rfl
    exact ho s (Option.some.inj (hw.symm.trans hs))
  exact text_eq_ok.mpr ((object?_update_of_ne hne).trans hs)

theorem mapSet_eq_ok {t : Table} (ht : h.table w = .ok t) :
    h.mapSet w key value = .ok (h.update w (.table (t.set (h.sameKey t.keyKind) key value))) := by
  rw [mapSet, ht]
  rfl

theorem mapSet_ok (hs : h.mapSet w key value = .ok h') :
    ∃ t, h.table w = .ok t ∧ h' = h.update w (.table (t.set (h.sameKey t.keyKind) key value)) := by
  cases ht : h.table w with
  | error e =>
    rw [mapSet, ht] at hs
    cases hs
  | ok t =>
    rw [mapSet_eq_ok ht] at hs
    exact ⟨t, rfl, (Except.ok.inj hs).symm⟩

theorem listSet_ok {index item : Word} (hs : h.listSet w index item = .ok h') :
    ∃ items items', h.list w = .ok items ∧ h' = h.update w (.list items') := by
  cases hl : h.list w with
  | error e =>
    rw [listSet, hl] at hs
    cases hs
  | ok items =>
    rw [listSet, hl] at hs
    simp only [bind, Except.bind] at hs
    split at hs
    · exact ⟨items, _, rfl, (Except.ok.inj hs).symm⟩
    · cases hs

/-- What other steps of a program do to a heap, in which they leave the map at `w` alone. -/
inductive Spares (w : Word) (h : Heap) : Heap → Prop
  | newText (s : String) : Spares w h (h.newText s).2
  | newList (items : List Word) : Spares w h (h.newList items).2
  | newTable (kind : Descriptor.Part) (entries : List (Word × Word)) :
      Spares w h (h.newTable kind entries).2
  | listSet {l index item h'} (hs : h.listSet l index item = .ok h') : Spares w h h'
  | mapSet {w' key value h'} (hne : w' ≠ w) (hs : h.mapSet w' key value = .ok h') : Spares w h h'

theorem Spares.keeps {t : Table} (hs : Spares w h h') (ht : h.table w = .ok t) :
    h'.table w = .ok t ∧ KeepsTexts h h' := by
  have hobject := table_eq_ok.mp ht
  cases hs with
  | newText | newList | newTable =>
    exact ⟨table_eq_ok.mpr (object?_alloc hobject), keepsTexts_alloc _⟩
  | @listSet l _ _ _ hs =>
    obtain ⟨items, items', hl, rfl⟩ := listSet_ok hs
    have hl := list_eq_ok.mp hl
    have hne : l ≠ w := by
      rintro rfl
      cases hobject.symm.trans hl
    exact ⟨table_eq_ok.mpr ((object?_update_of_ne hne).trans hobject), keepsTexts_update hl nofun⟩
  | mapSet hne hs =>
    obtain ⟨t', ht', rfl⟩ := mapSet_ok hs
    exact ⟨table_eq_ok.mpr ((object?_update_of_ne hne).trans hobject),
      keepsTexts_update (table_eq_ok.mp ht') nofun⟩

/-- A heap in which memory was taken for the map at `w`, which was then set by the writes, in this order.
Looking a key up does not change the heap. -/
inductive MapAfter (kind : Descriptor.Part) (w : Word) : Heap → List (Word × Word) → Prop
  | room {h h' : Heap} {n} (hn : h.alloc (.table (.withRoom kind n)) = (w, h')) :
      MapAfter kind w h' []
  | set {h h' writes key value} (hm : MapAfter kind w h writes) (hk : h.IsKey kind key)
      (hs : h.mapSet w key value = .ok h') : MapAfter kind w h' (writes ++ [(key, value)])
  | other {h h' writes} (hm : MapAfter kind w h writes) (hs : Spares w h h') :
      MapAfter kind w h' writes

/-- The map at `w` holds the entries that the writes leave behind, and will go on to do so on every heap that
keeps the strings. -/
structure Logged (h : Heap) (kind : Descriptor.Part) (w : Word) (writes : List (Word × Word))
    (t : Table) (es : List (Word × Word)) : Prop where
  table : h.table w = .ok t
  keyKind : t.keyKind = kind
  holds : t.Holds es
  keys : ∀ e ∈ writes, h.IsKey kind e.1
  records : ∀ h', KeepsTexts h h' → Dictionary.Records (h'.sameKey kind) writes es

namespace Logged

variable {writes es : List (Word × Word)} {t : Table}

theorem mem_writes (hl : h.Logged kind w writes t es) {e : Word × Word} (he : e ∈ es) :
    ∃ e' ∈ writes, e'.1 = e.1 := by
  have hkeys := (hl.records h fun _ _ hs => hs).keys
  have hmem : e.1 ∈ (writes.map Prod.fst).eraseDupsBy (h.sameKey kind) :=
    hkeys ▸ List.mem_map_of_mem he
  exact List.mem_map.mp (Dictionary.mem_of_mem_eraseDupsBy _ hmem)

theorem room {n : Nat} (hn : h.alloc (.table (.withRoom kind n)) = (w, h')) :
    h'.Logged kind w [] (.withRoom kind n) [] := by
  obtain ⟨rfl, rfl⟩ := Prod.mk.inj hn
  exact ⟨table_eq_ok.mpr object?_alloc_self, rfl, Table.holds_withRoom kind n, nofun,
    fun _ _ => .nil⟩

theorem spared (hl : h.Logged kind w writes t es) (hs : Spares w h h') :
    h'.Logged kind w writes t es := by
  obtain ⟨ht, hk⟩ := hs.keeps hl.table
  exact ⟨ht, hl.keyKind, hl.holds, fun e he => hk.isKey (hl.keys e he),
    fun h'' hk' => hl.records h'' (hk.trans hk')⟩

theorem set (hl : h.Logged kind w writes t es) (hk : h.IsKey kind key)
    (hs : h.mapSet w key value = .ok h') :
    h'.Logged kind w (writes ++ [(key, value)]) (t.set (h.sameKey kind) key value)
      (Dictionary.set (h.sameKey kind) key value es) := by
  have hkind := hl.keyKind
  rw [mapSet_eq_ok hl.table, hkind] at hs
  obtain rfl := Except.ok.inj hs
  have hobject := table_eq_ok.mp hl.table
  have hkeeps : KeepsTexts h (h.update w (.table (t.set (h.sameKey kind) key value))) :=
    keepsTexts_update hobject nofun
  refine ⟨table_eq_ok.mpr (object?_update_self hobject), ?_, (hl.holds.set key value).1, ?_, ?_⟩
  · rw [Table.keyKind_set]
    exact hkind
  · intro e he
    rcases List.mem_append.mp he with he | he
    · exact hkeeps.isKey (hl.keys e he)
    · obtain rfl := List.mem_singleton.mp he
      exact hkeeps.isKey hk
  · intro h'' hk'
    -- On a later heap the keys compare as they do now.
    have hlater := hkeeps.trans hk'
    have hsame : ∀ e ∈ es, h.sameKey kind e.1 key = h''.sameKey kind e.1 key := by
      intro e he
      obtain ⟨e', he', heq⟩ := hl.mem_writes he
      exact (hlater.sameKey_eq (heq ▸ hl.keys e' he') hk).symm
    rw [Dictionary.set_congr hsame]
    have hident (a b : Word) : h''.sameKey kind a b = true ↔ h''.identity kind a = h''.identity kind b :=
      sameKey_iff
    exact (hl.records h'' hlater).set hident key value

end Logged

theorem logged_of_mapAfter {writes : List (Word × Word)} (hm : MapAfter kind w h writes) :
    ∃ t es, h.Logged kind w writes t es := by
  induction hm with
  | room hn => exact ⟨_, _, .room hn⟩
  | set _ hk hs ih =>
    obtain ⟨t, es, hl⟩ := ih
    exact ⟨_, _, hl.set hk hs⟩
  | other _ hs ih =>
    obtain ⟨t, es, hl⟩ := ih
    exact ⟨t, es, hl.spared hs⟩

theorem mapAfter_foldl {t : Table} {writes entries : List (Word × Word)}
    (hm : MapAfter kind (.ref h.objects.length) ⟨h.objects ++ [.table t]⟩ writes)
    (hwrites : ∀ e ∈ writes, h.IsKey kind e.1) (hentries : ∀ e ∈ entries, h.IsKey kind e.1) :
    MapAfter kind (.ref h.objects.length)
      ⟨h.objects ++ [.table (entries.foldl (fun t e => t.set (h.sameKey kind) e.1 e.2) t)]⟩
      (writes ++ entries) := by
  -- The map is built before it stands on the heap. Each entry set in it is one set where it stands.
  induction entries generalizing t writes with
  | nil =>
    rw [List.append_nil]
    exact hm
  | cons e entries ih =>
    obtain ⟨t', es, hl⟩ := logged_of_mapAfter hm
    have htable : Heap.table ⟨h.objects ++ [.table t]⟩ (.ref h.objects.length) = .ok t :=
      table_eq_ok.mpr (object?_alloc_self (h := h))
    obtain rfl : t = t' := Except.ok.inj (htable.symm.trans hl.table)
    have he := hentries e List.mem_cons_self
    have hkeeps : KeepsTexts h ⟨h.objects ++ [.table t]⟩ := keepsTexts_alloc _
    -- The keys are older than the map, so they compare as they did without it.
    have hsame : ∀ d ∈ es, Heap.sameKey ⟨h.objects ++ [.table t]⟩ kind d.1 e.1 =
        h.sameKey kind d.1 e.1 := by
      intro d hd
      obtain ⟨d', hd', heq⟩ := hl.mem_writes hd
      exact hkeeps.sameKey_eq (heq ▸ hwrites d' hd') he
    have hset : Heap.mapSet ⟨h.objects ++ [.table t]⟩ (.ref h.objects.length) e.1 e.2 =
        .ok ⟨h.objects ++ [.table (t.set (h.sameKey kind) e.1 e.2)]⟩ := by
      rw [mapSet_eq_ok htable, hl.keyKind, hl.holds.set_congr hsame, update]
      simp
    have hnext := hm.set (hkeeps.isKey he) hset
    have hsplit : writes ++ e :: entries = writes ++ [(e.1, e.2)] ++ entries := List.append_cons ..
    rw [hsplit]
    refine ih hnext ?_ fun d hd => hentries d (List.mem_cons_of_mem _ hd)
    intro d hd
    rcases List.mem_append.mp hd with hd | hd
    · exact hwrites d hd
    · exact List.mem_singleton.mp hd ▸ he

theorem mapAfter_newTable {entries : List (Word × Word)} (hentries : ∀ e ∈ entries, h.IsKey kind e.1) :
    MapAfter kind (h.newTable kind entries).1 (h.newTable kind entries).2 entries :=
  mapAfter_foldl (.room (h := h) (n := entries.length) rfl) nofun hentries

/-- A map that is a dictionary: its keys stand in the order in which they were first written, each key is
found with the value that was last written for it, and there is memory for whatever is written next. -/
structure IsDictionary (h : Heap) (kind : Descriptor.Part) (w : Word) (writes : List (Word × Word))
    (t : Table) : Prop where
  table : h.table w = .ok t
  order : t.entries.map Prod.fst = (writes.map Prod.fst).eraseDupsBy (h.sameKey kind)
  distinct : (t.entries.map Prod.fst).Pairwise fun a b => h.sameKey kind a b = false
  length : h.mapLength w = .ok t.entries.length
  found : ∀ key, h.mapGet w key =
    (writes.reverse.find? fun e => h.sameKey kind e.1 key).elim (.error .missingKey) fun e => .ok e.2
  room : t.length ≤ t.capacity
  positive : 0 < t.capacity
  cells : t.keys.length = t.capacity ∧ t.values.length = t.capacity
  inside : ∀ key value, ∃ h' t', h.mapSet w key value = .ok h' ∧ h'.table w = .ok t' ∧
    t.place (h.sameKey kind) key < t'.keys.length ∧ t.place (h.sameKey kind) key < t'.values.length

theorem Logged.isDictionary {writes es : List (Word × Word)} {t : Table}
    (hl : h.Logged kind w writes t es) : h.IsDictionary kind w writes t := by
  have hrecords := hl.records h fun _ _ hs => hs
  have hentries := hl.holds.entries_eq
  refine ⟨hl.table, ?_, ?_, ?_, ?_, ?_, hl.holds.positive, ⟨hl.holds.keyCells, hl.holds.valueCells⟩,
    ?_⟩
  · rw [hentries]
    exact hrecords.keys
  · rw [hentries, hrecords.keys]
    refine (Dictionary.pairwise_eraseDupsBy _ _).imp ?_
    intro a b hab
    rw [Bool.eq_false_iff, ne_eq, sameKey_iff] at hab ⊢
    exact fun heq => hab heq.symm
  · rw [mapLength, hl.table, hentries, ← hl.holds.length]
    rfl
  · intro key
    rw [mapGet, hl.table]
    simp only [bind, Except.bind]
    rw [hl.keyKind, hl.holds.get?_eq, hrecords.get key, Dictionary.get?]
    cases writes.reverse.find? fun e => h.sameKey kind e.1 key with
    | some e => rfl
    | none => rfl
  · rw [hl.holds.length]
    exact hl.holds.room
  · intro key value
    have hset : (t.set (h.sameKey kind) key value).Holds _ ∧
        t.place (h.sameKey kind) key < _ := hl.holds.set key value
    have hobject := table_eq_ok.mp hl.table
    refine ⟨_, t.set (h.sameKey kind) key value, mapSet_eq_ok hl.table, ?_, ?_, ?_⟩
    · rw [hl.keyKind]
      exact table_eq_ok.mpr (object?_update_self hobject)
    · rw [hset.1.keyCells]
      exact hset.2
    · rw [hset.1.valueCells]
      exact hset.2

/-- A new map is a map after the entries it starts with, and a map after any writes is a dictionary. -/
theorem map_isDictionary (kind : Descriptor.Part) :
    (∀ (h : Heap) (entries : List (Word × Word)), (∀ e ∈ entries, h.IsKey kind e.1) →
      MapAfter kind (h.newTable kind entries).1 (h.newTable kind entries).2 entries) ∧
    ∀ (h : Heap) (w : Word) (writes : List (Word × Word)), MapAfter kind w h writes →
      ∃ t, h.IsDictionary kind w writes t := by
  refine ⟨fun h entries hentries => mapAfter_newTable hentries, ?_⟩
  intro h w writes hm
  obtain ⟨t, es, hl⟩ := logged_of_mapAfter hm
  exact ⟨t, hl.isDictionary⟩

/-- A map with room for one entry, which grows for the second key and finds the third among the first two:
it is another string with the same text. -/
theorem map_isDictionary_strings :
    ∃ h t, MapAfter .string (.ref 3) h [(.ref 0, .int 1), (.ref 1, .int 2), (.ref 2, .int 3)] ∧
      h.IsDictionary .string (.ref 3) [(.ref 0, .int 1), (.ref 1, .int 2), (.ref 2, .int 3)] t ∧
      t.entries = [(.ref 0, .int 3), (.ref 1, .int 2)] ∧ t.capacity = 2 := by
  have htext (h : Heap) (w : Word) (s : String) (hs : h.text w = .ok s) : h.IsKey .string w :=
    fun _ => ⟨s, hs⟩
  have hnew := (map_isDictionary .string).1 ⟨[.text "a", .text "b", .text "a"]⟩ [(.ref 0, .int 1)]
    (by simpa using htext _ _ "a" rfl)
  have hgrown := hnew.set (htext _ (.ref 1) "b" rfl) (show mapSet _ _ _ (.int 2) = _ from rfl)
  have hagain := hgrown.set (htext _ (.ref 2) "a" rfl) (show mapSet _ _ _ (.int 3) = _ from rfl)
  obtain ⟨t, ht⟩ := (map_isDictionary .string).2 _ _ _ hagain
  obtain rfl := Except.ok.inj ht.table
  exact ⟨_, _, hagain, ht, by decide, by decide⟩

end Heap

end Gondola
