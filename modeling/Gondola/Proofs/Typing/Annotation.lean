import Gondola.Proofs.Parser.Recognition
import Gondola.Typing.Annotation

/-! Types are written the way they are read. -/
namespace Gondola

open Grammar Text

/-- Nothing, or a text that continues neither a name nor the `>` of a type. -/
def EndsType (ds : List Char) : Prop := ∀ d ∈ ds.head?, continuesName d = false ∧ d ≠ '='

theorem endsType_cons {c : Char} (ds : List Char) (hc : continuesName c = false) (heq : c ≠ '=') :
    EndsType (c :: ds) := by
  rintro d ⟨⟩
  exact ⟨hc, heq⟩

theorem IsIdentifier.ofPair?_eq_none {name : String} (h : IsIdentifier name) (c : Char) (ds : List Char) :
    ∀ d ∈ (name.toList ++ ds).head?, Mark.ofPair? c d = none := by
  have hall := h.continuesName
  obtain ⟨d, cs, hname, -⟩ := h
  rw [hname] at hall ⊢
  rintro d' ⟨⟩
  have hd := hall d List.mem_cons_self
  apply Mark.ofPair?_eq_none_of_ne
  · rintro rfl
    cases hd
  · rintro rfl
    cases hd

namespace TypeExpr

theorem text_eq (x : Ident) (args : List TypeExpr) (s : Span) :
    ∃ cs, (mk x args s).text.toList = x.name.toList ++ cs := by
  cases args with
  | nil => exact ⟨[], (List.append_nil _).symm⟩
  | cons a as => exact ⟨"<".toList ++ a.text.toList ++ (textRest as).toList ++ ">".toList, by simp [text]⟩

mutual
theorem lexes_text : ∀ a : TypeExpr, (∀ x ∈ a.names, IsIdentifier x.name) →
    LexesBefore EndsType a.text.toList fun ts => IsType ts a.bare
  | .mk x [] _, h => by
    refine LexesBefore.identifier (fun _ hds d hd => (hds d hd).1) (h x List.mem_cons_self) fun t hk ht => ?_
    have hplain := IsType.plain hk
    rwa [word, ht] at hplain
  | .mk x (a :: as) s, h => by
    obtain ⟨hx, hargs⟩ := List.forall_mem_cons.mp h
    obtain ⟨ha, has⟩ := List.forall_mem_append.mp hargs
    have hrest := lexes_textRest as has (lexes_text a ha)
    have hfirst : ∀ d ∈ (a.text.toList ++ (textRest as).toList ++ ['>']).head?, Mark.ofPair? '<' d = none := by
      obtain ⟨y, bs, s⟩ := a
      obtain ⟨cs, hcs⟩ := text_eq y bs s
      rw [hcs, List.append_assoc, List.append_assoc]
      exact (ha y List.mem_cons_self).ofPair?_eq_none '<' _
    have hname : LexesBefore EndsType x.name.toList fun ts => ∃ t, ts = [t] ∧ t.kind = .identifier ∧ t.text = x.name :=
      .identifier (fun _ hds d hd => (hds d hd).1) hx fun t hk ht => ⟨t, rfl, hk, ht⟩
    have hchars : (mk x (a :: as) s).text.toList =
        x.name.toList ++ ('<' :: (a.text.toList ++ (textRest as).toList ++ ['>'])) := by
      simp [text]
    rw [hchars]
    refine hname.andThen (fun es _ => endsType_cons _ (by decide) (by decide)) ?_
    rintro _ ⟨t, rfl, hk, ht⟩
    refine LexesBefore.mark rfl (by decide) hfirst (fun hnil => absurd hnil (by simp)) fun l hl => ?_
    refine hrest.andThen (fun es _ => endsType_cons _ (by decide) (by decide)) fun ts hts => ?_
    refine LexesBefore.mark rfl (by decide) nofun (fun _ ds hds d hd => Mark.ofPair?_greater (hds d hd).2)
      fun r hr => .nil ?_
    have happlied := IsType.applied hk hl hts hr
    rwa [word, ht] at happlied
theorem lexes_textRest : ∀ as : List TypeExpr, (∀ x ∈ namesAll as, IsIdentifier x.name) →
    ∀ {cs : List Char} {b : TypeExpr}, LexesBefore EndsType cs (fun ts => IsType ts b) →
      LexesBefore EndsType (cs ++ (textRest as).toList) fun ts => OneOrMore IsType ts (b :: bareAll as)
  | [], _, cs, b, hb => by
    rw [textRest, String.toList_empty, List.append_nil]
    exact hb.mono fun _ => OneOrMore.last
  | a :: as, h, cs, b, hb => by
    obtain ⟨ha, has⟩ := List.forall_mem_append.mp h
    have hrest := lexes_textRest as has (lexes_text a ha)
    rw [textRest, String.append_assoc, String.toList_append, String.toList_append]
    refine hb.andThen (fun es _ => endsType_cons _ (by decide) (by decide)) fun ts hts => ?_
    refine LexesBefore.mark rfl (by decide) (fun d _ => rfl) nofun fun c hc => ?_
    refine LexesBefore.blank (by decide) (hrest.mono fun us hus => ?_)
    exact OneOrMore.cons hts hc hus
end

theorem whole_text {a : TypeExpr} (h : ∀ x ∈ a.names, IsIdentifier x.name) :
    ∃ b, Parser.whole Parser.typeExpr a.text = .ok b ∧ b.bare = a.bare := by
  obtain ⟨ts, stop, htokens, hts⟩ := (lexes_text a h).tokens_eq nofun default false
  exact Parser.whole_of_isType htokens rfl hts

end TypeExpr

/-! The annotation for a type. -/

namespace Ty

def builtinNames : List String := ["bool", "int", "string", "void", "list", "map"]

theorem isIdentifier_of_builtin : ∀ name ∈ builtinNames, IsIdentifier name := by
  simp only [builtinNames, List.forall_mem_cons]
  refine ⟨⟨'b', "ool".toList, ?_⟩, ⟨'i', "nt".toList, ?_⟩, ⟨'s', "tring".toList, ?_⟩, ⟨'v', "oid".toList, ?_⟩,
    ⟨'l', "ist".toList, ?_⟩, ⟨'m', "ap".toList, ?_⟩, fun _ h => by cases h⟩
  all_goals exact ⟨by decide, by decide, by rfl⟩

/-- The types that can be written where `lookup` finds names: built-in ones, and structs and enums that `lookup`
gives for their names, with names that a declaration can have. -/
inductive Writable (lookup : TypeLookup) : Ty → Prop
  | bool : Writable lookup .bool
  | int : Writable lookup .int
  | string : Writable lookup .string
  | void : Writable lookup .void
  | list {t} (h : Writable lookup t) : Writable lookup (.list t)
  | map {k v} (hk : Writable lookup k) (hv : Writable lookup v) : Writable lookup (.map k v)
  | struct {name fields} (hname : IsIdentifier name) (hnew : name ∉ builtinNames)
      (h : lookup name = .ok (some (.metatype (.struct name fields)))) : Writable lookup (.struct name fields)
  | enum {name cases} (hname : IsIdentifier name) (hnew : name ∉ builtinNames)
      (h : lookup name = .ok (some (.metatype (.enum name cases)))) : Writable lookup (.enum name cases)

def typeExpr : Ty → TypeExpr
  | .list t => .mk ⟨"list", default⟩ [t.typeExpr] default
  | .map k v => .mk ⟨"map", default⟩ [k.typeExpr, v.typeExpr] default
  | t => .mk ⟨t.text, default⟩ [] default

variable {lookup : TypeLookup} {t : Ty}

theorem Writable.typeExpr_text (h : t.Writable lookup) : t.typeExpr.text = t.text := by
  induction h with
  | list _ ih => simp [typeExpr, TypeExpr.text, TypeExpr.textRest, text, ih]
  | map _ _ ihk ihv => simp [typeExpr, TypeExpr.text, TypeExpr.textRest, text, ihk, ihv, String.append_assoc]
  | bool | int | string | void | struct | enum => rfl

theorem Writable.names (h : t.Writable lookup) : ∀ x ∈ t.typeExpr.names, IsIdentifier x.name := by
  have hbuiltin {name : String} (h : name ∈ builtinNames) {xs : List Ident} (hxs : ∀ x ∈ xs, IsIdentifier x.name) :
      ∀ x ∈ ⟨name, default⟩ :: xs, IsIdentifier x.name :=
    List.forall_mem_cons.mpr ⟨isIdentifier_of_builtin name h, hxs⟩
  induction h with
  | bool | int | string | void => exact hbuiltin (by decide) (List.forall_mem_nil _)
  | list _ ih => exact hbuiltin (by decide) (List.forall_mem_append.mpr ⟨ih, List.forall_mem_nil _⟩)
  | map _ _ ihk ihv =>
    have hvalue := List.forall_mem_append.mpr ⟨ihv, List.forall_mem_nil _⟩
    exact hbuiltin (by decide) (List.forall_mem_append.mpr ⟨ihk, hvalue⟩)
  | struct hname | enum hname => exact List.forall_mem_singleton.mpr hname

end Ty

namespace TypeExpr

variable {lookup : TypeLookup}

theorem bare_eq_mk {b : TypeExpr} {name : String} {args : List TypeExpr} (h : b.bare = .mk ⟨name, default⟩ args default) :
    ∃ here bs s, b = .mk ⟨name, here⟩ bs s ∧ bs.map bare = args := by
  obtain ⟨⟨name', here⟩, bs, s⟩ := b
  rw [bare, bareAll_eq_map, mk.injEq] at h
  obtain ⟨hname, hargs, -⟩ := h
  obtain rfl : name' = name := congrArg Ident.name hname
  exact ⟨here, bs, s, rfl, hargs⟩

theorem resolve_plain {name : String} {here s : Span} {t : Ty} (hlist : name ≠ "list") (hmap : name ≠ "map")
    (h : resolveName lookup ⟨name, here⟩ = .ok t) : (mk ⟨name, here⟩ [] s).resolve lookup = .ok t := by
  unfold resolve
  simp [hlist, hmap, h]

theorem resolveName_of_lookup {name : String} {t : Ty} (hnew : name ∉ Ty.builtinNames)
    (h : lookup name = .ok (some (.metatype t))) (here : Span) : resolveName lookup ⟨name, here⟩ = .ok t := by
  have hatomic : Ty.atomic? name = none := by
    simp only [Ty.builtinNames, List.mem_cons, not_or, ← ne_eq] at hnew
    obtain ⟨hbool, hint, hstring, hvoid, -⟩ := hnew
    simp [Ty.atomic?, List.lookup_cons, beq_false_of_ne hbool, beq_false_of_ne hint, beq_false_of_ne hstring,
      beq_false_of_ne hvoid]
  unfold resolveName
  simp only [hatomic, h]

theorem resolve_of_bare {t : Ty} (h : t.Writable lookup) :
    ∀ {b : TypeExpr}, b.bare = t.typeExpr.bare → b.resolve lookup = .ok t := by
  have hnamed {name : String} {t : Ty} (hnew : name ∉ Ty.builtinNames) (h : lookup name = .ok (some (.metatype t)))
      {b : TypeExpr} (hb : b.bare = .mk ⟨name, default⟩ [] default) : b.resolve lookup = .ok t := by
    obtain ⟨here, bs, s, rfl, hbs⟩ := bare_eq_mk hb
    obtain rfl := List.map_eq_nil_iff.mp hbs
    apply resolve_plain
    · rintro rfl
      exact hnew (by decide)
    · rintro rfl
      exact hnew (by decide)
    · exact resolveName_of_lookup hnew h here
  induction h with
  | bool | int | string | void =>
    intro b hb
    obtain ⟨here, bs, s, rfl, hbs⟩ := bare_eq_mk hb
    obtain rfl := List.map_eq_nil_iff.mp hbs
    exact resolve_plain (by decide) (by decide) rfl
  | list _ ih =>
    intro b hb
    obtain ⟨here, bs, s, rfl, hbs⟩ := bare_eq_mk hb
    obtain ⟨c, rfl, hc⟩ := List.map_eq_singleton_iff.mp hbs
    simp [resolve, ih hc]
  | map _ _ ihk ihv =>
    intro b hb
    obtain ⟨here, bs, s, rfl, hbs⟩ := bare_eq_mk hb
    obtain ⟨c, bs, rfl, hc, hbs⟩ := List.map_eq_cons_iff.mp hbs
    obtain ⟨d, rfl, hd⟩ := List.map_eq_singleton_iff.mp hbs
    simp [resolve, ihk hc, ihv hd]
  | struct _ hnew h | enum _ hnew h => exact hnamed hnew h

end TypeExpr

/-- The annotations in a program, wherever they stand. -/
def Program.annotations (p : Program) : List TypeExpr :=
  p.items.flatMap fun i =>
    (match i with
      | .function _ f => f.annotations
      | .stmt _ => []) ++ i.stmts.flatMap Stmt.annotations

theorem Program.names_of_mem_annotations {source : String} {p : Program} (h : parseProgram source = .ok p)
    {a : TypeExpr} (ha : a ∈ p.annotations) : ∀ x ∈ a.names, IsIdentifier x.name := by
  obtain ⟨i, hi, ha⟩ := List.mem_flatMap.mp ha
  have hspell := Parser.spellable_of_parseProgram h i hi
  have hstmts : ∀ s ∈ i.stmts, s.IsSpellable := by
    cases i with
    | function _ f => exact hspell.2
    | stmt s => exact List.forall_mem_cons.mpr hspell
  rcases List.mem_append.mp ha with ha | ha
  · cases i with
    | function _ f => exact hspell.1.2 a ha
    | stmt s => cases ha
  · obtain ⟨s, hs, ha⟩ := List.mem_flatMap.mp ha
    exact (hstmts s hs).spelled.2 a ha

/-- The text of a type that can be written is read as an annotation that stands for this type, and the text of an
annotation in a program is read as this annotation. -/
theorem whole_typeExpr_text :
    (∀ (t : Ty) (lookup : TypeLookup), t.Writable lookup →
        ∃ a, Parser.whole Parser.typeExpr t.text = .ok a ∧ a.resolve lookup = .ok t) ∧
      ∀ (source : String) (p : Program), parseProgram source = .ok p → ∀ a ∈ p.annotations,
        ∃ b, Parser.whole Parser.typeExpr a.text = .ok b ∧ b.bare = a.bare := by
  refine ⟨fun t lookup h => ?_, fun source p hp a ha => ?_⟩
  · obtain ⟨a, ha, hbare⟩ := TypeExpr.whole_text h.names
    rw [h.typeExpr_text] at ha
    exact ⟨a, ha, TypeExpr.resolve_of_bare h hbare⟩
  · exact TypeExpr.whole_text (Program.names_of_mem_annotations hp ha)

theorem whole_typeExpr_text_nested :
    (∃ t : Ty, ∃ lookup : TypeLookup, t.Writable lookup ∧ t.text = "map<string, list<Point>>" ∧
      ∃ a, Parser.whole Parser.typeExpr t.text = .ok a ∧ a.resolve lookup = .ok t) ∧
    ∃ p, parseProgram "fn f(a: list< map<int,P>>) -> P \x7b\x7d" = .ok p ∧
      p.annotations.map TypeExpr.text = ["list<map<int, P>>", "P"] ∧
      ∀ a ∈ p.annotations, ∃ b, Parser.whole Parser.typeExpr a.text = .ok b ∧ b.bare = a.bare := by
  constructor
  · have hpoint : IsIdentifier "Point" := ⟨'P', "oint".toList, by decide, by decide, by rfl⟩
    have hwritable : (Ty.map .string (.list (.struct "Point" [("x", .int)]))).Writable fun _ =>
        .ok (some (.metatype (.struct "Point" [("x", .int)]))) :=
      .map .string (.list (.struct hpoint (by decide) rfl))
    exact ⟨_, _, hwritable, by decide, whole_typeExpr_text.1 _ _ hwritable⟩
  · have hread : ((parseProgram "fn f(a: list< map<int,P>>) -> P \x7b\x7d").toOption.any fun p =>
        p.annotations.map TypeExpr.text == ["list<map<int, P>>", "P"]) = true := by decide +kernel
    cases hp : parseProgram "fn f(a: list< map<int,P>>) -> P \x7b\x7d" with
    | error e => rw [hp] at hread; cases hread
    | ok p =>
      rw [hp] at hread
      exact ⟨p, rfl, beq_iff_eq.mp hread, whole_typeExpr_text.2 _ p hp⟩

end Gondola
