import Widgetry.Proofs.Computation
import Widgetry.Proofs.Expr.Typing
import Widgetry.Proofs.Source.Literal

/-!
# Code of terms as operands

The code of every term, in either language, is one operand: brackets hold its operators together, so
it may be put into other code without a change to how that groups. Its calls are of helpers that it
is counted as using, and with these come all that they call.
-/

namespace Widgetry.Source

open List

variable {scope : Scope} {uses : List Helper} {s fallback input : String} {args : List String}
  {α : Type} {l : List α} {branches : List (String × String)}

theorem Operand.piece (h : Operand scope uses s) : Piece false scope uses [] [] s :=
  Piece.lax h false

theorem Operand.mono (h : Operand scope uses s) {uses' : List Helper} (hsub : uses ⊆ uses') :
    Operand scope uses' s :=
  Piece.mono h (Scope.le_refl _) hsub

theorem Operand.atomic (h : Operand scope uses s) : Atomic s := by
  obtain ⟨-, -, ts, hts, hleads⟩ := h
  intro stack
  rw [tokens_eq_of_spelling? (hts _)]
  exact foldlM_nest_append (hleads.nests false) stack

theorem operand_parens (hs : Piece false scope uses [] [] s) : Operand scope uses (parens s) :=
  piece_fill _ [_] [_] (by decide) (.cons hs .nil)

theorem operand_group (hs : Operand scope uses s) : Operand scope uses (group s) := by
  unfold group
  split
  · exact hs
  · exact operand_parens hs.piece

/-- Whether a symbol may stand between operands. -/
def isInfix (symbol : List Char) : Bool := isSeparator (' ' :: symbol ++ [' '])

theorem operand_chain {symbol : List Char} (hsymbol : isInfix symbol = true)
    (hargs : ∀ a ∈ args, Operand scope uses a) :
    Operand scope uses (chain (String.ofList symbol) args) := by
  have htext : " " ++ String.ofList symbol ++ " " = String.ofList (' ' :: symbol ++ [' ']) := by
    rw [← String.toList_inj]
    simp
  unfold chain
  rw [htext]
  exact operand_parens (Piece.joinWith hsymbol fun a ha => (hargs a ha).piece)

theorem Piece.call {strict : Bool} {name : String}
    (hname : Piece strict scope uses [] [')'] (name ++ "(")) (hargs : Fillings scope uses args) :
    Piece strict scope uses [] [] (call name args) := by
  have hjoined : Piece strict scope uses [')'] [')'] (Text.joinWith ", " args) :=
    (Piece.joinWith (by decide) hargs).inside (by decide)
  have hopen := hname.append hjoined (.inl (endsApart_constant (by decide) name))
  refine hopen.append ?_ (.inr (by decide))
  cases strict <;> exact piece_constant (by decide)

theorem operand_call (h : Helper) (hne : h ≠ .lookup) (hmem : h ∈ uses)
    (hargs : ∀ a ∈ args, Operand scope uses a) : Operand scope uses (call h.name args) := by
  have hname : h.name.toList.all isWordChar = true ∧ h.name.toList ≠ [] := by cases h <;> decide
  have hordinary : isOrdinary h.name.toList = true := by
    revert hne
    cases h <;> decide
  refine Piece.call (piece_calling hname.1 hname.2 (.inl hordinary) ?_) fun a ha => (hargs a ha).piece
  intro g hg
  rwa [Helper.eq_of_letters hg]

/-- A member of an operand: a name after a point. -/
theorem operand_member (hs : Operand scope uses s) {name : List Char}
    (hname : isPiece true [] [] [] ('.' :: name) = true) :
    Operand scope uses (s ++ String.ofList ('.' :: name)) := by
  refine Piece.append hs (piece_constant hname) (.inr ?_)
  rw [String.toList_ofList]
  rfl

theorem operand_method (hs : Operand scope uses s) {name : List Char}
    (hname : isPiece true [] [] [] ('.' :: name ++ ['(', ')']) = true) :
    Operand scope uses (s ++ "." ++ String.ofList name ++ "()") := by
  have htext : s ++ "." ++ String.ofList name ++ "()" =
      s ++ String.ofList ('.' :: name ++ ['(', ')']) := by
    rw [← String.toList_inj]
    simp
  rw [htext]
  exact operand_member hs hname

theorem operand_at (hargs : ∀ a ∈ args, Operand scope uses a) (i : Nat) :
    Operand scope uses (Language.at' args i) := by
  unfold Language.at'
  cases h : args[i]? with
  | none => exact Piece.empty true scope uses []
  | some a => exact hargs a (mem_of_getElem? h)

theorem operand_getLast (hargs : ∀ a ∈ args, Operand scope uses a) :
    Operand scope uses (args.getLast?.getD "") := by
  cases h : args.getLast? with
  | none => exact Piece.empty true scope uses []
  | some a => exact hargs a (mem_of_getLast? h)

theorem mem_of_mem_pairs {b : α × α} (h : b ∈ pairs l) : b.1 ∈ l ∧ b.2 ∈ l := by
  fun_induction pairs l with
  | case1 a c rest ih =>
    rcases mem_cons.mp h with rfl | h
    · simp
    · have := ih h
      simp [this]
  | case2 l hl => cases h

/-! ### Languages -/

namespace Language

/-- Helpers that a language has, with all that they call. -/
def Closed (lang : Language) (has : Helper → Bool) (uses : List Helper) : Prop :=
  ∀ h ∈ uses, has h = true ∧ lang.needs h ⊆ uses

variable {lang : Language}

theorem Closed.append {has : Helper → Bool} {us vs : List Helper} (hu : lang.Closed has us)
    (hv : lang.Closed has vs) : lang.Closed has (us ++ vs) := by
  intro h hmem
  rcases mem_append.mp hmem with hmem | hmem
  · exact ⟨(hu h hmem).1, fun g hg => mem_append_left _ ((hu h hmem).2 hg)⟩
  · exact ⟨(hv h hmem).1, fun g hg => mem_append_right _ ((hv h hmem).2 hg)⟩

theorem closed_nil (lang : Language) (has : Helper → Bool) : lang.Closed has [] := nofun

theorem closed_flatMap {has : Helper → Bool} {f : α → List Helper}
    (h : ∀ a ∈ l, lang.Closed has (f a)) : lang.Closed has (l.flatMap f) := by
  induction l with
  | nil => exact closed_nil lang has
  | cons a l ih =>
    rw [flatMap_cons]
    exact (h a mem_cons_self).append (ih fun b hb => h b (mem_cons_of_mem _ hb))

theorem closed_of_all {has : Helper → Bool} {uses : List Helper}
    (h : uses.all (fun g => has g && (lang.needs g).all uses.contains) = true) :
    lang.Closed has uses := by
  intro g hg
  have hall := all_eq_true.mp h g hg
  rw [Bool.and_eq_true, all_eq_true] at hall
  exact ⟨hall.1, fun k hk => contains_iff_mem.mp (hall.2 k hk)⟩

/-- Spellings that make operands from operands, and uses of helpers that are closed under what these
call. Only colors call `colorHex`. -/
structure Spelled (lang : Language) (has : Helper → Bool) : Prop where
  quote (scope : Scope) (uses : List Helper) (s : String) : Operand scope uses (lang.quote s)
  color (scope : Scope) (c : Color) : Operand scope lang.colorUses (lang.color c)
  nothing (scope : Scope) (uses : List Helper) : Operand scope uses lang.nothing
  clear (scope : Scope) (uses : List Helper) : Operand scope uses lang.clear
  orElse {scope : Scope} {uses : List Helper} {args : List String}
    (hargs : ∀ a ∈ args, Operand scope uses a) : Operand scope uses (chain lang.orElse args)
  upper {scope : Scope} {uses : List Helper} {s : String} (hs : Operand scope uses s) :
    Operand scope uses (s ++ "." ++ lang.upper ++ "()")
  lower {scope : Scope} {uses : List Helper} {s : String} (hs : Operand scope uses s) :
    Operand scope uses (s ++ "." ++ lang.lower ++ "()")
  remainder {scope : Scope} {uses : List Helper} {a b : String} (ha : Operand scope uses a)
    (hb : Operand scope uses b) : Operand scope uses (lang.remainder a b)
  choose {scope : Scope} {uses : List Helper} {branches : List (String × String)} {fallback : String}
    (hbranches : ∀ b ∈ branches, Operand scope uses b.1 ∧ Operand scope uses b.2)
    (hfallback : Operand scope uses fallback) : Operand scope uses (lang.choose branches fallback)
  select {scope : Scope} {uses : List Helper} {input : String} {branches : List (String × String)}
    {fallback : String} (hinput : Operand scope uses input)
    (hbranches : ∀ b ∈ branches, Operand scope uses b.1 ∧ Operand scope uses b.2)
    (hfallback : Operand scope uses fallback) :
    Operand scope uses (lang.select input branches fallback)
  closed_color : lang.Closed has lang.colorUses
  closed_require (h : Helper) (hne : h ≠ .colorHex) : lang.Closed has (lang.require h)

end Language

namespace Kotlin

theorem operand_choose (hbranches : ∀ b ∈ branches, Operand scope uses b.1 ∧ Operand scope uses b.2)
    (hfallback : Operand scope uses fallback) : Operand scope uses (choose branches fallback) := by
  have hjoin : ∀ s ∈ branches.map fun b => "if (" ++ b.1 ++ ") " ++ b.2 ++ " else ",
      Piece false scope uses [] [] s ∧ endsApart s.toList = true := by
    intro s hs
    obtain ⟨b, hb, rfl⟩ := mem_map.mp hs
    obtain ⟨hcondition, hvalue⟩ := hbranches b hb
    exact ⟨piece_fill _ [_, _] [_, _] (by decide)
      (.cons hcondition.piece (.cons hvalue.piece .nil)), endsApart_constant (by decide) _⟩
  obtain ⟨hpiece, hends⟩ := Piece.join hjoin
  exact operand_parens (hpiece.append hfallback.piece (.inl hends))

theorem operand_select (hinput : Operand scope uses input)
    (hbranches : ∀ b ∈ branches, Operand scope uses b.1 ∧ Operand scope uses b.2)
    (hfallback : Operand scope uses fallback) :
    Operand scope uses (select input branches fallback) := by
  have hjoin : ∀ s ∈ branches.map fun b => b.1 ++ " -> " ++ b.2 ++ "; ",
      Piece false scope uses [] [] s ∧ endsApart s.toList = true := by
    intro s hs
    obtain ⟨b, hb, rfl⟩ := mem_map.mp hs
    obtain ⟨hlabel, hvalue⟩ := hbranches b hb
    exact ⟨hlabel.piece.fill _ [_] [_] (by decide) (by decide)
      (.cons hvalue.piece .nil), endsApart_constant (by decide) _⟩
  obtain ⟨hpiece, hends⟩ := Piece.join hjoin
  have helse : Piece false scope uses [] [] "else -> " := piece_constant (by decide)
  have hbody := (hpiece.append helse (.inl hends)).append hfallback.piece
    (.inl (endsApart_append_of_endsApart hends (by decide)))
  have htext : select input branches fallback = "(when (" ++ input ++ ") \x7b " ++
      (String.join (branches.map fun b => b.1 ++ " -> " ++ b.2 ++ "; ") ++ "else -> " ++ fallback)
      ++ " \x7d)" := by
    unfold select
    simp only [String.append_assoc]
  rw [htext]
  exact piece_fill _ [_, _] [_, _] (by decide)
    (.cons hinput.piece (.cons hbody .nil))

/-- Kotlin has no helper `colorHex`. -/
def has (h : Helper) : Bool := h != .colorHex

theorem spelled_language : language.Spelled has where
  quote _ _ := operand_quote
  color _ := operand_color
  nothing _ _ := piece_constant (by decide)
  clear _ _ := piece_constant (by decide)
  orElse := operand_chain (by decide)
  upper hs := operand_method hs (by decide)
  lower hs := operand_method hs (by decide)
  remainder ha hb := operand_chain (by decide) (by simp [ha, hb])
  choose := operand_choose
  select := operand_select
  closed_color := Language.closed_nil _ _
  closed_require h hne := by
    apply Language.closed_of_all
    revert hne
    cases h <;> decide

end Kotlin

namespace Swift

theorem join_closers_append (branches : List (String × String)) :
    String.join (branches.map fun _ => ")") ++ ")" = ")" ++ String.join (branches.map fun _ => ")") := by
  induction branches with
  | nil => rfl
  | cons b branches ih =>
    rw [map_cons, String.join_cons, String.append_assoc, ih]

theorem nest_cons (b : String × String) (branches : List (String × String)) (fallback : String) :
    nest (b :: branches) fallback =
      "(" ++ b.1 ++ " ? " ++ b.2 ++ " : " ++ nest branches fallback ++ ")" := by
  unfold nest
  simp only [map_cons, String.join_cons, String.append_assoc, join_closers_append]

theorem operand_nest
    (hbranches : ∀ b ∈ branches, Piece false scope uses [] [] b.1 ∧ Piece false scope uses [] [] b.2)
    (hfallback : Operand scope uses fallback) : Operand scope uses (nest branches fallback) := by
  induction branches with
  | nil => simpa [nest] using hfallback
  | cons b branches ih =>
    obtain ⟨hcondition, hvalue⟩ := hbranches b mem_cons_self
    have hrest := ih fun c hc => hbranches c (mem_cons_of_mem _ hc)
    rw [nest_cons]
    exact piece_fill _ [_, _, _] [_, _, _] (by decide)
      (.cons hcondition (.cons hvalue (.cons hrest.piece .nil)))

theorem operand_select (hinput : Operand scope uses input)
    (hbranches : ∀ b ∈ branches, Operand scope uses b.1 ∧ Operand scope uses b.2)
    (hfallback : Operand scope uses fallback) :
    Operand scope uses (select input branches fallback) := by
  refine operand_nest ?_ hfallback
  intro c hc
  obtain ⟨b, hb, rfl⟩ := mem_map.mp hc
  obtain ⟨hlabel, hvalue⟩ := hbranches b hb
  have hequals : Piece false scope uses [] [] (group input ++ " == ") :=
    (operand_group hinput).piece.append (piece_constant (by decide)) (.inr (by decide))
  exact ⟨hequals.append hlabel.piece (.inl (endsApart_constant (by decide) _)), hvalue.piece⟩

def has (_ : Helper) : Bool := true

theorem spelled_language : language.Spelled has where
  quote _ _ := operand_quote
  color _ := operand_color
  nothing _ _ := piece_constant (by decide)
  clear _ _ := piece_constant (by decide)
  orElse := operand_chain (by decide)
  upper hs := operand_method hs (by decide)
  lower hs := operand_method hs (by decide)
  remainder ha hb := Piece.fill _ [_] [_] (operand_group ha) (by decide) (by decide)
    (.cons hb.piece .nil)
  choose hbranches hfallback :=
    operand_nest (fun b hb => ⟨(hbranches b hb).1.piece, (hbranches b hb).2.piece⟩) hfallback
  select := operand_select
  closed_color := Language.closed_of_all (by decide)
  closed_require h hne := by
    apply Language.closed_of_all
    revert hne
    cases h <;> decide

end Swift

/-! ### Lookups -/

/-- What a lookup starts from inside a number of loops; the canvas is not looked up. -/
def root? (depth : Nat) (b : Binding) : Option String :=
  match b.scope with
  | .item => some (itemVariable depth)
  | .data => some "data"
  | .settings => some "settings"
  | .size => none

namespace Language

variable {lang : Language} {has : Helper → Bool} {depth : Nat} {b : Binding} {root s : String}

/-- The lookup of a binding, as it is written inside a number of loops. -/
def lookup? (lang : Language) (depth : Nat) (b : Binding) : Option String :=
  (root? depth b).map fun root => call "lookup" (root :: b.segments.map lang.segment)

def lookups (lang : Language) (depth : Nat) (bs : List Binding) : List String :=
  bs.filterMap (lang.lookup? depth)

/-- The scope of a text that reads bindings inside a number of loops. -/
def scopeOf (lang : Language) (depth : Nat) (bs : List Binding) : Scope := ⟨[], lang.lookups depth bs⟩

theorem lookups_subset (lang : Language) (depth : Nat) {bs cs : List Binding} (h : bs ⊆ cs) :
    lang.lookups depth bs ⊆ lang.lookups depth cs := by
  intro s hs
  obtain ⟨b, hb, hs⟩ := mem_filterMap.mp hs
  exact mem_filterMap.mpr ⟨b, h hb, hs⟩

theorem operand_segment (hlang : lang.Spelled has) (s : Segment) :
    Operand scope uses (lang.segment s) := by
  cases s with
  | key k => exact hlang.quote scope uses k
  | index i => exact piece_digits fun _ => isDigit_of_mem_toString

theorem operand_root (h : root? depth b = some root) :
    Operand ⟨[(itemVariable depth).toList], []⟩ uses root := by
  unfold root? at h
  split at h
  · obtain rfl := Option.some.inj h
    rcases Nat.eq_zero_or_pos depth with rfl | hdepth
    · exact piece_constant (by decide)
    · exact piece_itemVariable hdepth mem_cons_self
  · obtain rfl := Option.some.inj h
    exact piece_constant (by decide)
  · obtain rfl := Option.some.inj h
    exact piece_constant (by decide)
  · cases h

/-- A lookup is one operand, and its words are its own name, what it starts from and indices. -/
theorem fits_lookup (hlang : lang.Spelled has) (h : lang.lookup? depth b = some s)
    (hmem : .lookup ∈ uses) :
    Fits true uses [] [] s ∧ ∀ w, .word w ∈ tokens true s →
      w = lookupName ∨ Known ⟨[(itemVariable depth).toList], []⟩ w := by
  obtain ⟨root, hroot, rfl⟩ := Option.map_eq_some_iff.mp h
  have hargs : Piece true ⟨[(itemVariable depth).toList], []⟩ uses [')'] [')']
      (Text.joinWith ", " (root :: b.segments.map lang.segment)) := by
    refine (Piece.joinWith (by decide) (.cons (operand_root hroot).piece ?_)).inside (by decide)
    intro a ha
    obtain ⟨segment, -, rfl⟩ := mem_map.mp ha
    exact (operand_segment hlang segment).piece
  have hname : Fits true uses [] [')'] ("lookup" ++ "(") := by
    refine fits_calling (by decide) (by decide) (by decide) ?_
    intro g hg
    rwa [Helper.eq_of_letters (h := .lookup) hg]
  have hopen := hname.append hargs.fits (.inl (endsApart_constant (by decide) "lookup"))
  have hparen : Piece true .empty uses [')'] [] ")" := piece_constant (by decide)
  have hclose := hparen.fits
  refine ⟨hopen.append hclose (.inr (by decide)), ?_⟩
  intro w hw
  rw [show call "lookup" _ = "lookup" ++ "(" ++ _ ++ ")" from rfl,
    hopen.tokens_append hclose (.inr (by decide)),
    hname.tokens_append hargs.fits (.inl (endsApart_constant (by decide) "lookup"))] at hw
  rcases mem_append.mp hw with hw | hw
  · rcases mem_append.mp hw with hw | hw
    · have hfirst : tokens true ("lookup" ++ "(") = [.word lookupName, .sign '('] := by decide
      rw [hfirst] at hw
      exact .inl (by simpa using hw)
    · exact .inr ((hargs.speaks.known_or_lookup hw).resolve_right (by simp))
  · have hlast : tokens true ")" = [.sign ')'] := by decide
    rw [hlast] at hw
    simp at hw

theorem operand_lookup (hlang : lang.Spelled has) (h : lang.lookup? depth b = some s)
    (hs : s ∈ scope.lookups) (hmem : .lookup ∈ uses) : Operand scope uses s :=
  ⟨.lookup hs, (fits_lookup hlang h hmem).1⟩

end Language

/-! ### Terms -/

/-- Code that is one operand and is counted as using all the helpers it needs. -/
structure Code.Sound (lang : Language) (has : Helper → Bool) (scope : Scope) (c : Code) : Prop where
  operand : Operand scope c.uses c.text
  closed : lang.Closed has c.uses

namespace Language

variable {lang : Language} {has : Helper → Bool} {depth : Nat} {h : Helper} {c : Code} {b : Binding}
  {op : Operator} {dynamic : Bool}

theorem sound_calling (hlang : lang.Spelled has) (hne : h ∉ [.colorHex, .lookup])
    (htext : c.text = call h.name args) (hargs : ∀ a ∈ args, Operand scope c.uses a)
    (hclosed : lang.Closed has c.uses) : (lang.calling h c).Sound lang has scope := by
  simp only [mem_cons, not_mem_nil, or_false, not_or] at hne
  refine ⟨?_, hclosed.append (hlang.closed_require h hne.1)⟩
  have huses : (lang.calling h c).uses = c.uses ++ lang.require h := rfl
  rw [show (lang.calling h c).text = c.text from rfl, htext, huses]
  refine operand_call h hne.2 (mem_append_right _ mem_cons_self) ?_
  intro a ha
  exact (hargs a ha).mono (subset_append_left _ _)

theorem sound_either (hlang : lang.Spelled has) {d : Code} (hc : c.Sound lang has scope)
    (hd : d.Sound lang has scope) : (lang.either c d).Sound lang has scope := by
  refine ⟨hlang.orElse ?_, hc.closed.append hd.closed⟩
  intro a ha
  rcases mem_cons.mp ha with rfl | ha
  · exact hc.operand.mono (subset_append_left _ _)
  · rw [mem_singleton.mp ha]
    exact hd.operand.mono (subset_append_right _ _)

theorem sound_plain (hs : Operand scope [] s) : (Code.plain s).Sound lang has scope :=
  ⟨hs, closed_nil lang has⟩

section

variable (hlang : lang.Spelled has)

include hlang

theorem sound_literal (l : Literal) :
    (lang.literal l).Sound lang has scope := by
  cases l with
  | number x => exact sound_plain (operand_numberLiteral x)
  | string s => exact sound_plain (hlang.quote scope [] s)
  | bool b =>
    refine sound_plain ?_
    cases b
    · exact piece_constant (by decide)
    · exact piece_constant (by decide)
  | color c => exact ⟨hlang.color scope c, hlang.closed_color⟩

theorem sound_lookup (hb : ∀ s, lang.lookup? depth b = some s → s ∈ scope.lookups) :
    (lang.lookup (itemVariable depth) b).Sound lang has scope := by
  have hfound : ∀ root : String, root? depth b = some root →
      (lang.calling .lookup (.plain (call "lookup" (root :: b.segments.map lang.segment)))).Sound
        lang has scope := by
    intro root hroot
    have hlookup : lang.lookup? depth b = some (call "lookup" (root :: b.segments.map lang.segment)) :=
      Option.map_eq_some_iff.mpr ⟨root, hroot, rfl⟩
    exact ⟨operand_lookup hlang hlookup (hb _ hlookup) mem_cons_self,
      (closed_nil lang has).append (hlang.closed_require .lookup (by decide))⟩
  unfold lookup
  unfold root? at hfound
  cases hscope : b.scope with
  | item | data | settings => exact hfound _ (by rw [hscope])
  | size => exact sound_plain (hlang.nothing scope [])

theorem sound_wrap (hne : h ∉ [.colorHex, .lookup]) (hc : c.Sound lang has scope) :
    (lang.calling h (c.wrap fun s => call h.name [s])).Sound lang has scope :=
  sound_calling hlang hne rfl (forall_mem_singleton.mpr hc.operand) hc.closed

theorem conversion?_sound {want : ValueType} {zero : String}
    (heq : lang.conversion? want = some (h, zero)) :
    h ∉ [.colorHex, .lookup] ∧ Operand scope [] zero := by
  cases want with
  | number | string | bool => cases heq; exact ⟨by decide, piece_constant (by decide)⟩
  | color => cases heq; exact ⟨by decide, hlang.clear scope []⟩
  | any => cases heq

theorem sound_read (hb : ∀ s, lang.lookup? depth b = some s → s ∈ scope.lookups) (want : ValueType)
    (fallback : Fallback) :
    (lang.read (itemVariable depth) b want fallback).Sound lang has scope := by
  have hraw : (lang.lookup (itemVariable depth) b).Sound lang has scope := sound_lookup hlang hb
  unfold read
  simp only
  cases hconversion : lang.conversion? want with
  | none =>
    cases fallback with
    | default l => exact sound_either hlang hraw (sound_literal hlang l)
    | zero | null => exact hraw
  | some conversion =>
    obtain ⟨h, zero⟩ := conversion
    obtain ⟨hne, hzero⟩ : h ∉ [.colorHex, .lookup] ∧ Operand scope [] zero :=
      conversion?_sound hlang hconversion
    have hconverted := sound_wrap hlang hne hraw
    cases fallback with
    | default l => exact sound_either hlang hconverted (sound_literal hlang l)
    | zero => exact sound_either hlang hconverted (sound_plain hzero)
    | null => exact hconverted

theorem sound_presence (hb : ∀ s, lang.lookup? depth b = some s → s ∈ scope.lookups) :
    (lang.presence (itemVariable depth) b).Sound lang has scope := by
  unfold presence
  split
  · exact sound_plain (piece_constant (by decide))
  · exact sound_wrap (h := .present) hlang (by decide) (sound_lookup hlang hb)

theorem sound_coerce (hc : c.Sound lang has scope) (target : ValueType) :
    (lang.coerce c target).Sound lang has scope := by
  cases target with
  | any => exact hc
  | string => exact sound_wrap (h := .str) hlang (by decide) hc
  | bool => exact sound_wrap (h := .truthy) hlang (by decide) hc
  | color =>
    exact sound_either hlang (sound_wrap (h := .asColor) hlang (by decide) hc)
      (sound_plain (hlang.clear scope []))
  | number =>
    exact sound_either hlang (sound_wrap (h := .asNumber) hlang (by decide) hc)
      (sound_plain (piece_constant (by decide)))

theorem operand_operatorText (hargs : ∀ a ∈ args, Operand scope uses a)
    (hhelper : ∀ h, operatorHelper? op dynamic = some h → h ∈ uses) :
    Operand scope uses (lang.operatorText op dynamic args) := by
  have hfirst : Operand scope uses (at' args 0) := operand_at hargs 0
  have hsecond : Operand scope uses (at' args 1) := operand_at hargs 1
  have htwo : ∀ a ∈ [at' args 0, at' args 1], Operand scope uses a := by simp [hfirst, hsecond]
  have hbinary {symbol : List Char} (h : isInfix symbol = true) :
      Operand scope uses (binary (String.ofList symbol) args) := operand_chain h htwo
  have hbranches (l : List String) (hl : l ⊆ args) :
      ∀ b ∈ pairs l, Operand scope uses b.1 ∧ Operand scope uses b.2 := by
    intro b hb
    obtain ⟨hcondition, hvalue⟩ := mem_of_mem_pairs hb
    exact ⟨hargs _ (hl hcondition), hargs _ (hl hvalue)⟩
  cases op with
  | add | mul | all | any => exact operand_chain (by decide) hargs
  | coalesce => exact hlang.orElse hargs
  | sub =>
    rw [operatorText]
    split
    · exact piece_fill _ [_] [_] (by decide) (.cons hfirst.piece .nil)
    · exact hbinary (by decide)
  | div | lt | le | gt | ge => exact hbinary (by decide)
  | mod => exact hlang.remainder hfirst hsecond
  | eq =>
    cases dynamic with
    | true => exact operand_call .same (by decide) (hhelper _ rfl) htwo
    | false => exact hbinary (by decide)
  | ne =>
    cases dynamic with
    | true =>
      exact piece_fill _ [_] [_] (by decide)
        (.cons (operand_call .same (by decide) (hhelper _ rfl) htwo).piece .nil)
    | false => exact hbinary (by decide)
  | not =>
    exact piece_fill _ [_] [_] (by decide)
      (.cons (operand_group hfirst).piece .nil)
  | case =>
    exact hlang.choose (hbranches _ (dropLast_subset _)) (operand_getLast hargs)
  | match' =>
    exact hlang.select hfirst
      (hbranches _ (Subset.trans (dropLast_subset _) (tail_sublist _).subset))
      (operand_getLast hargs)
  | concat =>
    rw [operatorText]
    split
    · exact hfirst
    · exact operand_chain (by decide) hargs
  | toString => exact operand_call .str (by decide) (hhelper _ rfl) (forall_mem_singleton.mpr hfirst)
  | upcase => exact hlang.upper (operand_group hfirst)
  | downcase => exact hlang.lower (operand_group hfirst)
  | formatNumber => exact operand_call .formatNumber (by decide) (hhelper _ rfl) hargs
  | substring =>
    have hthird : Operand scope uses ((args[2]?).getD lang.nothing) := by
      cases h : args[2]? with
      | none => exact hlang.nothing scope uses
      | some a => exact hargs a (mem_of_getElem? h)
    exact operand_call .substr (by decide) (hhelper _ rfl) (by simp [hfirst, hsecond, hthird])
  | formatDate => exact operand_call .formatDate (by decide) (hhelper _ rfl) htwo
  | rgb =>
    have hopaque : Operand scope uses "1.0" := piece_constant (by decide)
    refine operand_call .rgba (by decide) (hhelper _ rfl) ?_
    intro a ha
    rcases mem_append.mp ha with ha | ha
    · exact hargs a ha
    · rw [mem_singleton.mp ha]
      exact hopaque
  | rgba => exact operand_call .rgba (by decide) (hhelper _ rfl) hargs
  | interpolateColor => exact operand_call .mixColor (by decide) (hhelper _ rfl) hargs
  | themeColor => exact hfirst

end

theorem operatorHelper?_ne (heq : operatorHelper? op dynamic = some h) : h ≠ .colorHex := by
  cases op <;> cases dynamic <;> cases heq <;> decide

theorem sound_operator (hlang : lang.Spelled has) (op : Operator)
    {operands : List (Code × ValueType)} (h : ∀ o ∈ operands, o.1.Sound lang has scope) :
    (lang.operator op operands).Sound lang has scope := by
  have hcode : ∀ c ∈ operands.map Prod.fst, c.Sound lang has scope := by
    intro c hc
    obtain ⟨o, ho, rfl⟩ := mem_map.mp hc
    exact h o ho
  have hargs : ∀ a ∈ (operands.map Prod.fst).map Code.text,
      Operand scope ((operands.map Prod.fst).flatMap Code.uses) a := by
    intro a ha
    obtain ⟨c, hc, rfl⟩ := mem_map.mp ha
    exact (hcode c hc).operand.mono fun g hg => mem_flatMap.mpr ⟨c, hc, hg⟩
  have hclosed : lang.Closed has ((operands.map Prod.fst).flatMap Code.uses) :=
    closed_flatMap fun c hc => (hcode c hc).closed
  unfold operator
  simp only
  split
  · rename_i g hg
    refine ⟨operand_operatorText hlang ?_ ?_, hclosed.append
      (hlang.closed_require g (operatorHelper?_ne hg))⟩
    · intro a ha
      exact (hargs a ha).mono (subset_append_left _ _)
    · intro k hk
      rw [hg] at hk
      rw [← Option.some.inj hk]
      exact mem_append_right _ mem_cons_self
  · rename_i hnone
    refine ⟨operand_operatorText hlang hargs ?_, hclosed⟩
    intro k hk
    rw [hnone] at hk
    cases hk

mutual

theorem sound_term_of_subset (hlang : lang.Spelled has) (t : Term)
    (h : lang.lookups depth t.bindings ⊆ scope.lookups) :
    (lang.term (itemVariable depth) t).Sound lang has scope := by
  have hbinding : ∀ b ∈ t.bindings, ∀ s, lang.lookup? depth b = some s → s ∈ scope.lookups :=
    fun b hb s hs => h (mem_filterMap.mpr ⟨b, hb, hs⟩)
  cases t with
  | literal l => exact sound_literal hlang l
  | read b want fallback => exact sound_read hlang (hbinding b mem_cons_self) want fallback
  | presence b => exact sound_presence hlang (hbinding b mem_cons_self)
  | apply op args result => exact sound_operator hlang op (sound_terms_of_subset hlang args h)
  | coerce t target => exact sound_coerce hlang (sound_term_of_subset hlang t h) target

theorem sound_terms_of_subset (hlang : lang.Spelled has) (ts : List Term)
    (h : lang.lookups depth (Term.bindingsOf ts) ⊆ scope.lookups) :
    ∀ o ∈ lang.terms (itemVariable depth) ts, o.1.Sound lang has scope := by
  cases ts with
  | nil => exact nofun
  | cons t ts =>
    rw [Term.bindingsOf, lookups, filterMap_append, append_subset] at h
    rw [terms]
    exact forall_mem_cons.mpr
      ⟨sound_term_of_subset hlang t h.1, sound_terms_of_subset hlang ts h.2⟩

end

theorem sound_term (hlang : lang.Spelled has) (t : Term) :
    (lang.term (itemVariable depth) t).Sound lang has (lang.scopeOf depth t.bindings) :=
  sound_term_of_subset hlang t (Subset.refl _)

end Language

/-- Code made from a property value, in either language and inside any number of loops, is one operand:
wherever it is put, it closes the brackets and literals that it opens, and its operators and blanks
stand inside brackets of its own. -/
theorem atomic_of_property {lang : Language} (hlang : lang = Kotlin.language ∨ lang = Swift.language)
    {env : Env} {expected : ValueType} {place : Location} {v : PropertyValue} {depth : Nat}
    {code : Code}
    (h : (Elaboration.property env expected place v).map (lang.term (itemVariable depth)) =
      .ok code) : Atomic code.text := by
  obtain ⟨t, -, rfl⟩ := exists_of_map_eq_ok h
  rcases hlang with rfl | rfl
  · exact (Language.sound_term Kotlin.spelled_language t).operand.atomic
  · exact (Language.sound_term Swift.spelled_language t).operand.atomic

theorem atomic_match :
    Atomic "((asText(lookup(item2, \"(\")) ?? \"\") == \"\\\"\" ? str(lookup(data, \"a b\")) : \"?\")" := by
  have h : (Elaboration.property ⟨.builtin, .swiftUI, ⟨110.0, 110.0⟩⟩ .string .root
      (.expression (.op .root .match'
        [.get .root ⟨.item, [.key "("]⟩ none, .literal .root (.string "\""),
         .op .root .toString [.get .root ⟨.data, [.key "a b"]⟩ none],
         .literal .root (.string "?")]))).map
      (Swift.language.term (itemVariable 2)) = .ok
        ⟨"((asText(lookup(item2, \"(\")) ?? \"\") == \"\\\"\" ? str(lookup(data, \"a b\")) : \"?\")",
          [.lookup, .asText, .str, .lookup, .str]⟩ := by
    rfl
  have hatomic := atomic_of_property (.inr rfl) h
  exact hatomic

end Widgetry.Source
