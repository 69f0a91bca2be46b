import Widgetry.Proofs.Element.Refusal
import Widgetry.Proofs.Style.Completeness
import Widgetry.Proofs.Table

/-!
# Style overlays

A style that is read has in each place what its document says, and otherwise what its base has. What is
wrong with a document of the right shape is a color, or a gap that the base does not fill.
-/

namespace Widgetry

open List

/-! ### Decoded tables -/

/-- A table in the order of its keys, with values that meet a condition. -/
structure Table.Stores {κ α : Type} [Ord κ] (P : α → Prop) (t : Table κ α) : Prop where
  sorted : t.Sorted
  values : ∀ e ∈ t, P e.2

namespace Json.Decoder

variable {κ α σ : Type} [Ord κ] {P : α → Prop} {decode : Decoder α}

theorem yields_finish {a : α} (h : P a) (fault : Option SyntaxError) : Yields P (finish a fault) := by
  cases fault with
  | none => exact h
  | some e => trivial

theorem yields_table [Std.TransOrd κ] [Std.LawfulEqOrd κ] (h : ∀ part, Yields P (decode part))
    (key : Key → Except TextError κ) (part : Outline) :
    Yields (Table.Stores P) (table key decode part) := by
  cases part with
  | object start fields fault =>
    refine Yields.bind (Q := Table.Stores P) ?_ fun t ht => yields_finish ht fault
    have hstart : Table.Stores P ([] : Table κ α) := ⟨Table.sorted_nil, by simp⟩
    generalize ([] : Table κ α) = t at hstart
    induction fields generalizing t with
    | nil => exact hstart
    | cons field fields ih =>
      refine Yields.bind (Q := Table.Stores P) ?_ ih
      refine (yields_true _).bind fun k _ => (h field.2).bind fun a ha => ?_
      refine ⟨hstart.sorted.insert k a, fun e he => ?_⟩
      rcases Table.mem_insert he with rfl | he
      · exact ha
      · exact hstart.values e he
  | _ => exact True.intro

variable {I : σ → Prop} {s : σ}

theorem Record.yields_walkFields {r : Record σ}
    (h : ∀ field ∈ r.fields, ∀ s part, I s → Yields I (field.2 s part)) (hs : I s)
    (seen : List String) (fields : List (Key × Outline)) : Yields I (r.walkFields seen s fields) := by
  induction fields generalizing seen s with
  | nil => exact hs
  | cons field fields ih =>
    rw [walkFields]
    split
    · trivial
    · rename_i name store hfind
      split
      · trivial
      · exact (h _ (mem_of_find?_eq_some hfind) s _ hs).bind fun s hs => ih hs _

theorem Record.yields_walkItems {fields : List (String × (σ → Decoder σ))}
    (h : ∀ field ∈ fields, ∀ s part, I s → Yields I (field.2 s part)) (hs : I s)
    (items : List Outline) (fault : Option SyntaxError) :
    Yields I (walkItems fields s items fault) := by
  induction fields generalizing s items with
  | nil =>
    cases items with
    | nil => exact yields_finish hs _
    | cons item items => trivial
  | cons field fields ih =>
    obtain ⟨hfield, hfields⟩ := forall_mem_cons.mp h
    cases items with
    | nil => exact yields_finish hs _
    | cons item items => exact (hfield s item hs).bind fun s hs => ih hfields hs items

/-- What every field of a record keeps holds of what is read. -/
theorem Record.yields_decode {r : Record σ}
    (h : ∀ field ∈ r.fields, ∀ s part, I s → Yields I (field.2 s part)) (hs : I s) (part : Outline) :
    Yields I (r.decode s part) := by
  cases part with
  | object start fields fault =>
    exact (yields_walkFields h hs [] fields).bind fun s hs => yields_finish hs fault
  | array start items fault => exact yields_walkItems h hs items fault
  | _ => exact True.intro

theorem yields_run (h : ∀ part, Yields P (decode part)) (text : String) :
    Yields P (run decode text) :=
  (h _).bind fun _ ha => yields_finish ha _

end Json.Decoder

instance : Std.LawfulEqOrd Platform := Table.lawfulEqCmp_compareOn Platform.ofNat_ctorIdx

instance : Std.TransOrd Platform := inferInstanceAs (Std.TransCmp (compareOn Platform.ctorIdx))

instance : Std.LawfulEqOrd Alignment := Table.lawfulEqCmp_compareOn Alignment.ofNat_ctorIdx

instance : Std.TransOrd Alignment := inferInstanceAs (Std.TransCmp (compareOn Alignment.ctorIdx))

instance : Std.LawfulEqOrd FontWeight := Table.lawfulEqCmp_compareOn FontWeight.ofNat_ctorIdx

instance : Std.TransOrd FontWeight := inferInstanceAs (Std.TransCmp (compareOn FontWeight.ctorIdx))

namespace Style

/-- An overlay with all tables in the order of their keys. -/
structure Overlay.Sorted (o : Overlay) : Prop where
  palettes : o.palettes.Stores Table.Sorted
  alignment : o.alignment.Stores fun t => ∀ axis, (t.axis axis).Sorted
  textAlign : o.textAlign.Stores Table.Sorted
  fontWeights : o.fontWeights.Stores Table.Sorted

namespace Overlay

open Json (Decoder Outline)

theorem yields_texts {κ : Type} [Ord κ] [Std.TransOrd κ] [Std.LawfulEqOrd κ]
    (key : Json.Key → Except Json.TextError κ) (part : Outline) :
    Yields Table.Sorted (Decoder.table key Decoder.text part) :=
  (Decoder.yields_table (fun part => yields_true (Decoder.text part)) key part).imp fun _ h => h.sorted

theorem yields_alignmentRecord (part : Outline) :
    Yields (fun t : AlignmentTable => ∀ axis, (t.axis axis).Sorted)
      (alignmentRecord.decode .empty part) := by
  refine Decoder.Record.yields_decode ?_ (fun axis => by cases axis <;> exact Table.sorted_nil) part
  simp only [alignmentRecord, forall_mem_cons]
  refine ⟨fun t part ht => ?_, fun t part ht => ?_, by simp⟩
  · refine (yields_texts _ part).map fun u hu axis => ?_
    cases axis with
    | horizontal => exact hu
    | vertical => exact ht .vertical
  · refine (yields_texts _ part).map fun u hu axis => ?_
    cases axis with
    | horizontal => exact ht .horizontal
    | vertical => exact hu

theorem sorted_of_parse {text : String} {o : Overlay} (h : parse text = .ok o) : o.Sorted := by
  refine (Decoder.yields_run (fun part => Decoder.Record.yields_decode ?_ ?_ part) text).of_ok h
  · simp only [record, forall_mem_cons]
    refine ⟨fun o part ho => ?_, fun o part ho => ?_, fun o part ho => ?_, fun o part ho => ?_,
      fun o part ho => ?_, by simp⟩
    · exact (yields_true _).map fun _ _ => { ho with }
    · exact (Decoder.yields_table (yields_texts _) _ part).map fun _ ht => { ho with palettes := ht }
    · exact (Decoder.yields_table yields_alignmentRecord _ part).map fun _ ht =>
        { ho with alignment := ht }
    · exact (Decoder.yields_table (yields_texts _) _ part).map fun _ ht => { ho with textAlign := ht }
    · exact (Decoder.yields_table (yields_texts _) _ part).map fun _ ht => { ho with fontWeights := ht }
  · exact ⟨⟨Table.sorted_nil, by simp [empty]⟩, ⟨Table.sorted_nil, by simp [empty]⟩,
      ⟨Table.sorted_nil, by simp [empty]⟩, ⟨Table.sorted_nil, by simp [empty]⟩⟩

end Overlay

/-! ### Laying over -/

section Laying

variable {κ α β γ ε : Type} [Ord κ] [Std.LawfulEqOrd κ] {top : Table κ β}

/-- The entries of a table revise those of another one by one. -/
theorem get?_foldl_revise (htop : top.Sorted) (f : Option α → β → α) (t : Table κ α) (k : κ) :
    Table.get? (top.foldl (fun t e => t.insert e.1 (f (t.get? e.1) e.2)) t) k =
      ((top.get? k).map (f (t.get? k))).or (t.get? k) := by
  induction top generalizing t with
  | nil => rfl
  | cons e top ih =>
    obtain ⟨hfirst, hrest⟩ := pairwise_cons.mp htop
    rw [foldl_cons, ih hrest]
    by_cases hk : k = e.1
    · subst hk
      rw [Table.get?_eq_none_of_lt hfirst, Table.get?_insert_self, Table.get?_cons_self]
      rfl
    · rw [Table.get?_insert_of_ne hk, Table.get?_cons_of_ne hk]

theorem meets_foldlM_revise {P : ε → Prop} {R : κ → Option α → β → α → Prop} (htop : top.Sorted)
    {f : κ → Option α → β → Except ε α}
    (hf : ∀ e ∈ top, ∀ old, Meets P (R e.1 old e.2) (f e.1 old e.2)) (t : Table κ α) :
    Meets P (fun u => ∀ k, (top.get? k = none ∧ u.get? k = t.get? k) ∨
        ∃ b a, top.get? k = some b ∧ u.get? k = some a ∧ R k (t.get? k) b a)
      (top.foldlM (fun t e => f e.1 (t.get? e.1) e.2 >>= fun a => .ok (t.insert e.1 a)) t) := by
  induction top generalizing t with
  | nil => exact fun k => .inl ⟨rfl, rfl⟩
  | cons e top ih =>
    obtain ⟨hfirst, hrest⟩ := pairwise_cons.mp htop
    obtain ⟨he, htop⟩ := forall_mem_cons.mp hf
    rw [foldlM_cons, bind_assoc]
    refine (he _).bind fun a ha => (ih hrest htop (t.insert e.1 a)).imp fun u hu k => ?_
    by_cases hk : k = e.1
    · subst hk
      have hlast := hu e.1
      rw [Table.get?_eq_none_of_lt hfirst, Table.get?_insert_self] at hlast
      rcases hlast with ⟨-, hlast⟩ | ⟨_, _, hnone, -⟩
      · exact .inr ⟨e.2, a, Table.get?_cons_self .., hlast, ha⟩
      · cases hnone
    · have hother := hu k
      rw [Table.get?_insert_of_ne hk] at hother
      rwa [Table.get?_cons_of_ne hk]

/-- What is found in tables that are laid over others is what is found in these, or else below. -/
theorem bind_get?_overlayTables {none : α} {lay : α → α → α} {g : α → Option γ}
    {tops : Table Platform α} {P : α → Prop} (htops : tops.Stores P) (hnone : g none = .none)
    (hlay : ∀ a top, P top → g (lay a top) = (g top).or (g a))
    (bottoms : Table Platform α) (p : Platform) :
    ((overlayTables none lay bottoms tops).get? p).bind g =
      ((tops.get? p).bind g).or ((bottoms.get? p).bind g) := by
  have hbottom : g ((bottoms.get? p).getD none) = (bottoms.get? p).bind g := by
    cases bottoms.get? p with
    | none => exact hnone
    | some a => rfl
  rw [overlayTables, get?_foldl_revise htops.sorted fun old top => lay (old.getD none) top]
  cases htop : tops.get? p with
  | none => rfl
  | some top =>
    have hlaid := hlay ((bottoms.get? p).getD none) top (htops.values _ (Table.mem_of_get? htop))
    rw [hbottom] at hlaid
    exact hlaid

theorem get?_overlay {top : Table κ α} (htop : top.Sorted) (bottom : Table κ α) (k : κ) :
    (bottom.overlay top).get? k = (top.get? k).or (bottom.get? k) :=
  (get?_foldl_revise htop (fun _ a => a) bottom k).trans (by rw [Option.map_id_fun']; rfl)

end Laying

/-- A color that is given and valid stands in the place of the one below. -/
def Painted (hex : Option String) (below shown : Option Color) : Prop :=
  (∀ text, hex = some text → (Color.parse? text).isSome = true) ∧
    shown = (hex.bind Color.parse?).or below

/-- An error that names an invalid color among the entries of a palette. -/
def BadColor (p : Platform) (entries : Table String String) (e : Error) : Prop :=
  ∃ token hex, entries.get? token = some hex ∧ Color.parse? hex = none ∧
    e = .config (.invalidToken p token hex)

theorem meets_overlayPalette {entries : Table String String} (h : entries.Sorted) (p : Platform)
    (palette : Palette) :
    Meets (BadColor p entries)
      (fun u => ∀ token, Painted (entries.get? token) (palette.get? token) (u.get? token))
      (overlayPalette p palette entries) := by
  refine (meets_foldlM_revise (R := fun _ _ hex c => Color.parse? hex = some c)
    (f := fun token _ hex => paletteColor p token hex) h (fun e he _ => ?_) palette).imp
    fun u hu token => ?_
  · unfold paletteColor
    split
    · rename_i c hc
      exact hc
    · rename_i hnone
      exact ⟨e.1, e.2, h.get?_of_mem he, hnone, rfl⟩
  · rcases hu token with ⟨hnone, hsame⟩ | ⟨hex, c, hhex, hc, hparse⟩
    · rw [hnone, hsame]
      exact ⟨nofun, rfl⟩
    · rw [hhex, hc]
      refine ⟨fun text htext => ?_, by rw [Option.bind_some, hparse]; rfl⟩
      obtain rfl := Option.some.inj htext
      exact hparse ▸ rfl

theorem meets_overlayPalettes {tops : Table Platform (Table String String)}
    (h : tops.Stores Table.Sorted) (palettes : Table Platform Palette) :
    Meets (fun e => ∃ p entries, tops.get? p = some entries ∧ BadColor p entries e)
      (fun u => ∀ p token, Painted ((tops.get? p).bind (·.get? token))
        (((palettes.get? p).getD []).get? token) (((u.get? p).getD []).get? token))
      (overlayPalettes palettes tops) := by
  refine (meets_foldlM_revise (R := fun _ (old : Option Palette) entries palette => ∀ token,
      Painted (Table.get? entries token) ((old.getD []).get? token) (Table.get? palette token))
    (f := fun p old entries => overlayPalette p (old.getD []) entries) h.sorted (fun e he old => ?_)
    palettes).imp fun u hu p token => ?_
  · refine (meets_overlayPalette (h.values e he) e.1 _).mono (fun error herror => ?_) fun _ hu => hu
    exact ⟨e.1, e.2, h.sorted.get?_of_mem he, herror⟩
  · rcases hu p with ⟨hnone, hsame⟩ | ⟨entries, palette, hentries, hpalette, hpainted⟩
    · rw [hnone, hsame]
      exact ⟨nofun, rfl⟩
    · rw [hentries, hpalette]
      exact hpainted token

/-! ### Styles that are read -/

/-- The tables of native constants of a document alone. -/
def Overlay.own (o : Overlay) : Style := ⟨[], o.alignment, o.textAlign, o.fontWeights⟩

/-- The color that a document gives a token. -/
def Overlay.hex? (o : Overlay) (p : Platform) (token : String) : Option String :=
  (o.palettes.get? p).bind (·.get? token)

/-- A style that has what a document says, and otherwise what is below it. -/
structure Overlay.LaidOver (o : Overlay) (bottom s : Style) : Prop where
  alignment : ∀ p axis a,
    s.alignment? p axis a = (o.own.alignment? p axis a).or (bottom.alignment? p axis a)
  textAlign : ∀ p a, s.textAlign? p a = (o.own.textAlign? p a).or (bottom.textAlign? p a)
  fontWeight : ∀ p w, s.fontWeight? p w = (o.own.fontWeight? p w).or (bottom.fontWeight? p w)
  palette : ∀ p token,
    Painted (o.hex? p token) ((bottom.palette p).get? token) ((s.palette p).get? token)

/-- A style lies over its base, or a color of its document is invalid, or it has a gap. -/
theorem ofOverlay_cases {o : Overlay} (h : o.Sorted) {bottom : Style}
    (hbase : base o.base = .ok bottom) :
    (∃ s, o.LaidOver bottom s ∧ ofOverlay o = s.check.map fun _ => s) ∨
      ∃ p entries e, o.palettes.get? p = some entries ∧ BadColor p entries e ∧
        ofOverlay o = .error e := by
  have hpalettes := meets_overlayPalettes h.palettes bottom.palettes
  unfold ofOverlay
  rw [hbase]
  cases hlaid : overlayPalettes bottom.palettes o.palettes with
  | error e =>
    rw [hlaid] at hpalettes
    obtain ⟨p, entries, hentries, hbad⟩ := hpalettes
    exact .inr ⟨p, entries, e, hentries, hbad, by simp only [bind, Except.bind, hlaid]⟩
  | ok palettes =>
    rw [hlaid] at hpalettes
    refine .inl ⟨⟨palettes, overlayTables .empty AlignmentTable.overlay bottom.alignment o.alignment,
      overlayTables [] Table.overlay bottom.textAlign o.textAlign,
      overlayTables [] Table.overlay bottom.fontWeights o.fontWeights⟩, ⟨?_, ?_, ?_, hpalettes⟩,
      by simp only [bind, Except.bind, hlaid]; rfl⟩
    · intro p axis a
      refine bind_get?_overlayTables (g := fun t : AlignmentTable => (t.axis axis).get? a)
        h.alignment (by cases axis <;> rfl) (fun t top htop => ?_) bottom.alignment p
      cases axis with
      | horizontal => exact get?_overlay (htop .horizontal) t.horizontal a
      | vertical => exact get?_overlay (htop .vertical) t.vertical a
    · intro p a
      exact bind_get?_overlayTables (g := fun t => Table.get? t a) h.textAlign rfl
        (fun t top htop => get?_overlay htop t a) bottom.textAlign p
    · intro p w
      exact bind_get?_overlayTables (g := fun t => Table.get? t w) h.fontWeights rfl
        (fun t top htop => get?_overlay htop t w) bottom.fontWeights p

variable {text : String} {o : Overlay} {bottom s : Style}

theorem Overlay.LaidOver.complete (h : o.LaidOver bottom s) (hbottom : bottom.Complete) :
    s.Complete where
  alignment p axis a := by rw [h.alignment, Option.isSome_or, hbottom.alignment, Bool.or_true]
  textAlign p a := by rw [h.textAlign, Option.isSome_or, hbottom.textAlign, Bool.or_true]
  fontWeight p w := by rw [h.fontWeight, Option.isSome_or, hbottom.fontWeight, Bool.or_true]

theorem Overlay.LaidOver.complete_iff (h : o.LaidOver .empty s) : s.Complete ↔ o.own.Complete := by
  have halignment : ∀ p axis a, s.alignment? p axis a = o.own.alignment? p axis a := fun p axis a =>
    (h.alignment p axis a).trans Option.or_none
  have htextAlign : ∀ p a, s.textAlign? p a = o.own.textAlign? p a := fun p a =>
    (h.textAlign p a).trans Option.or_none
  have hfontWeight : ∀ p w, s.fontWeight? p w = o.own.fontWeight? p w := fun p w =>
    (h.fontWeight p w).trans Option.or_none
  constructor
  · rintro ⟨ha, ht, hw⟩
    exact ⟨by simpa only [halignment] using ha, by simpa only [htextAlign] using ht,
      by simpa only [hfontWeight] using hw⟩
  · rintro ⟨ha, ht, hw⟩
    exact ⟨by simpa only [halignment] using ha, by simpa only [htextAlign] using ht,
      by simpa only [hfontWeight] using hw⟩

/-- With a constant for all that is known, a modifier is refused only for what is not known. -/
theorem Complete.of_build_eq_error (hs : s.Complete) {platform : Platform} {size : Size} {x : Element}
    {e : Error} (h : Modifier.build ⟨s, platform, size⟩ x = .error e) :
    (∀ place keyword q, e = .unsupportedAlignment place keyword q →
      Alignment.ofKeyword? keyword = none) ∧ ∀ cause, e ≠ .config cause := by
  have hsuits : x.Suits (fun _ => True) fun _ => True :=
    Element.StraysMeet.suits fun _ _ _ _ _ _ _ => trivial
  cases (Modifier.failsBy_build ⟨s, platform, size⟩ hsuits).of_error h with
  | alignment _ hlacks =>
    obtain ⟨constant?, hmem, hnone⟩ := hlacks
    have hconstant : ∀ a, (constant? a).isSome = true := by
      simp only [mem_cons, not_mem_nil, or_false] at hmem
      rcases hmem with rfl | rfl | rfl
      · exact hs.alignment platform .horizontal
      · exact hs.alignment platform .vertical
      · exact hs.textAlign platform
    refine ⟨?_, nofun⟩
    rintro _ _ _ ⟨⟩
    rw [Option.bind_eq_none_iff] at hnone
    refine Option.eq_none_iff_forall_ne_some.mpr fun a ha => ?_
    exact absurd (hconstant a) (by rw [hnone a ha]; decide)
  | @weight w hlacks => exact absurd (hs.fontWeight platform w) (by rw [hlacks]; decide)
  | _ => exact ⟨nofun, nofun⟩

/-- Documents as overlays: what the styles that are read from them have, which documents are accepted,
and that a style that was read has a constant for every keyword. -/
theorem parse_overlays (h : Overlay.parse text = .ok o) :
    (∀ s, parse text = .ok s → s.Complete ∧ ∃ bottom, base o.base = .ok bottom ∧ o.LaidOver bottom s) ∧
    (o.base = some "builtin" → ∀ e, parse text = .error e → ∃ p token hex,
      o.hex? p token = some hex ∧ Color.parse? hex = none ∧ e = .config (.invalidToken p token hex)) ∧
    (o.base = none → ((∃ s, parse text = .ok s) ↔ o.own.Complete ∧
      ∀ p token hex, o.hex? p token = some hex → (Color.parse? hex).isSome = true)) ∧
    ∀ s, parse text = .ok s → ∀ platform size x e,
      Modifier.build ⟨s, platform, size⟩ x = .error e →
        (∀ place keyword q, e = .unsupportedAlignment place keyword q →
          Alignment.ofKeyword? keyword = none) ∧ ∀ cause, e ≠ .config cause := by
  have hsorted := Overlay.sorted_of_parse h
  have hparse : parse text = ofOverlay o := by rw [parse, h]
  rw [hparse]
  have hread : ∀ s, ofOverlay o = .ok s →
      s.Complete ∧ ∃ bottom, base o.base = .ok bottom ∧ o.LaidOver bottom s := by
    intro s hs
    obtain ⟨bottom, hbase, -⟩ := exists_of_bind_eq_ok hs
    rcases ofOverlay_cases hsorted hbase with ⟨u, hu, hcheck⟩ | ⟨_, _, e, -, -, he⟩
    · rw [hcheck] at hs
      obtain ⟨_, hok, rfl⟩ := exists_of_map_eq_ok hs
      exact ⟨check_eq_ok_iff.mp hok, bottom, hbase, hu⟩
    · rw [he] at hs
      cases hs
  refine ⟨hread, fun hbase e he => ?_, fun hbase => ?_, fun s hs platform size x e =>
    (hread s hs).1.of_build_eq_error⟩
  · have hbottom : base o.base = .ok builtin := by rw [hbase]; rfl
    rcases ofOverlay_cases hsorted hbottom with
      ⟨u, hu, hcheck⟩ | ⟨p, entries, _, hentries, ⟨token, hex, hhex, hbad, rfl⟩, hfails⟩
    · rw [hcheck, check_eq_ok_iff.mpr (hu.complete complete_builtin)] at he
      cases he
    · rw [hfails] at he
      refine ⟨p, token, hex, ?_, hbad, (Except.error.inj he).symm⟩
      rw [Overlay.hex?, hentries]
      exact hhex
  · have hbottom : base o.base = .ok empty := by rw [hbase]; rfl
    rcases ofOverlay_cases hsorted hbottom with
      ⟨u, hu, hcheck⟩ | ⟨p, entries, _, hentries, ⟨token, hex, hhex, hbad, rfl⟩, hfails⟩
    · rw [← hu.complete_iff, ← check_eq_ok_iff, hcheck]
      refine ⟨fun ⟨s, hs⟩ => ?_, fun hu => ⟨u, by rw [hu.1]; rfl⟩⟩
      obtain ⟨_, hok, -⟩ := exists_of_map_eq_ok hs
      exact ⟨hok, fun p token => (hu.palette p token).1⟩
    · refine iff_of_false (by rw [hfails]; nofun) fun hvalid => ?_
      have hvalid := hvalid.2 p token hex (by rw [Overlay.hex?, hentries]; exact hhex)
      rw [hbad] at hvalid
      cases hvalid

def accentText : String :=
  "\x7b\"extends\": \"builtin\", \"palettes\": \x7b\"html\": \x7b\"accent\": \"#102030\"\x7d\x7d\x7d"

/-- A document with a token of its own has all constants of the built-in style. -/
theorem parse_overlays_accentText : ∃ o s, Overlay.parse accentText = .ok o ∧
    parse accentText = .ok s ∧ o.hex? .html "accent" = some "#102030" ∧ s.Complete := by
  have haccent : (Overlay.parse accentText).toOption.map (fun o =>
      (o.hex? .html "accent", (ofOverlay o).isOk)) = some (some "#102030", true) := by
    decide +kernel
  obtain ⟨o, ho, hseen⟩ := exists_of_toOption_map haccent
  obtain ⟨hhex, hok⟩ := Prod.mk.inj hseen
  obtain ⟨s, hs⟩ := succeeds_iff_isOk.mpr hok
  have hparse : parse accentText = .ok s := by
    rw [parse, ho]
    exact hs
  exact ⟨o, s, ho, hparse, hhex, ((parse_overlays ho).1 s hparse).1⟩

end Style

end Widgetry
