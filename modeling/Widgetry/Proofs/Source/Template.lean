import Widgetry.Proofs.Source.Piece

/-!
# Templates of source text

Most source text is constant but for some holes. Whether its constants fit together is found by
evaluation; the holes take any text that closes the brackets it opens, also one with operators in it
if there are brackets around the hole.
-/

namespace Widgetry.Source

open List

/-! ### Seams -/

variable {cs ds st : List Char} {square strict : Bool} {items : List String}

theorem endsApart_append (hds : ds ≠ []) : endsApart (cs ++ ds) = endsApart ds := by
  unfold endsApart
  rw [List.getLast?_append, List.getLast?_eq_some_getLast hds]
  rfl

theorem startsApart_append (hcs : cs ≠ []) : startsApart (cs ++ ds) = startsApart cs := by
  unfold startsApart
  rw [List.head?_append, List.head?_eq_some_head hcs]
  rfl

theorem endsApart_append_of_endsApart {a b : String} (ha : endsApart a.toList = true)
    (hb : endsApart b.toList = true) : endsApart (a ++ b).toList = true := by
  rw [String.toList_append]
  by_cases h : b.toList = []
  · rw [h, append_nil]
    exact ha
  · rw [endsApart_append h]
    exact hb

/-- A text ends apart if the constant at its end does. -/
theorem endsApart_constant (hcs : (!cs.isEmpty && endsApart cs) = true) (a : String) :
    endsApart (a ++ String.ofList cs).toList = true := by
  simp only [Bool.and_eq_true, Bool.not_eq_true', isEmpty_eq_false_iff] at hcs
  rw [String.toList_append, String.toList_ofList, endsApart_append hcs.1]
  exact hcs.2

/-! ### Text inside brackets -/

theorem nest_inside {stack : List Char} (h : stack ≠ []) (t : Token) :
    nest square strict stack t = nest square false stack t := by
  unfold nest
  rw [isEmpty_eq_false_iff.mpr h]
  simp

theorem foldlM_nest_inside {ts : List Token} {p q : List Char}
    (h : ts.foldlM (nest square false) p = some q) (hst : st ≠ []) :
    ts.foldlM (nest square strict) (p ++ st) = some (q ++ st) := by
  induction ts generalizing p with
  | nil => rw [foldlM_nil] at h ⊢; rw [← Option.some.inj h]; rfl
  | cons t ts ih =>
    rw [foldlM_cons] at h ⊢
    obtain ⟨r, ht, hts⟩ := Option.bind_eq_some_iff.mp h
    have hne : p ++ st ≠ [] := append_ne_nil_of_right_ne_nil p hst
    rw [nest_inside hne, nest_append ht st]
    exact ih hts

namespace Piece

variable {strict : Bool} {scope : Scope} {uses : List Helper} {p q r : List Char} {a s : String}

theorem inside (h : Piece false scope uses p q s) (hst : st ≠ []) :
    Piece strict scope uses (p ++ st) (q ++ st) s := by
  obtain ⟨hspeaks, hline, ts, hts, hleads⟩ := h
  exact ⟨hspeaks, hline, ts, hts, fun square => foldlM_nest_inside (hleads.nests square) hst,
    hleads.calls, hleads.words⟩

theorem hole (h : Piece false scope uses [] [] s) (hp : strict = true → p ≠ []) :
    Piece strict scope uses p p s := by
  cases strict with
  | true => exact h.inside (hp rfl)
  | false => exact h.frame p

end Piece

/-! ### Templates -/

/-- A template with its holes filled: the text so far, and then a filling before each constant. -/
def fill (s : String) : List (List Char) → List String → String
  | [], _ => s
  | d :: ds, fillings => fill (s ++ fillings.headD "" ++ String.ofList d) ds fillings.tail

/-- Whether a constant with a hole behind it leads from some open brackets to others. -/
def isLead (strict : Bool) (uses : List Helper) (p q c : List Char) : Bool :=
  isPiece strict uses p q c && !c.isEmpty && endsApart c && (!strict || !q.isEmpty)

/-- Whether constants with holes between them lead from some open brackets to others. -/
def isTemplate (strict : Bool) (uses : List Helper) (p q : List Char) :
    List Char → List (List Char) → Bool
  | c, [] => isPiece strict uses p q c
  | c, d :: ds =>
      match (spelling? true c).bind fun ts => ts.foldlM (nest true strict) p with
      | none => false
      | some r => isLead strict uses p r c && startsApart d && isTemplate strict uses r q d ds

/-- Texts that may fill holes. -/
def Fillings (scope : Scope) (uses : List Helper) (fillings : List String) : Prop :=
  ∀ s ∈ fillings, Piece false scope uses [] [] s

section

variable {strict : Bool} {scope : Scope} {own uses : List Helper} {p q r c : List Char} {s x : String}
  {ds : List (List Char)} {fillings : List String}

theorem Fillings.nil : Fillings scope uses [] := nofun

theorem Fillings.cons (hs : Piece false scope uses [] [] s) (h : Fillings scope uses fillings) :
    Fillings scope uses (s :: fillings) :=
  forall_mem_cons.mpr ⟨hs, h⟩

theorem Fillings.headD (h : Fillings scope uses fillings) :
    Piece false scope uses [] [] (fillings.headD "") := by
  cases fillings with
  | nil => exact Piece.empty false scope uses []
  | cons s fillings => exact h s mem_cons_self

theorem Fillings.append {more : List String} (h : Fillings scope uses fillings)
    (hmore : Fillings scope uses more) : Fillings scope uses (fillings ++ more) := by
  intro s hs
  rcases mem_append.mp hs with hs | hs
  · exact h s hs
  · exact hmore s hs

theorem Fillings.toList {α : Type} {o : Option α} {f : α → String}
    (h : ∀ a, o = some a → Piece false scope uses [] [] (f a)) :
    Fillings scope uses (o.map f).toList := by
  cases o with
  | none => exact .nil
  | some a => exact .cons (h a rfl) .nil

theorem piece_constant (h : isPiece strict [] p q c = true) :
    Piece strict scope uses p q (String.ofList c) :=
  (piece_of_isPiece h scope).mono (Scope.le_refl _) (nil_subset _)

section

variable (hs : Piece strict scope uses p q s)
  (hseam : endsApart s.toList = true ∨ startsApart c = true) (hown : own ⊆ uses)

include hs hseam hown

/-- A text with a constant behind it and a filling behind that. -/
theorem Piece.lead (h : isLead strict own q r c = true) (hx : Piece false scope uses [] [] x) :
    Piece strict scope uses p r (s ++ String.ofList c ++ x) := by
  simp only [isLead, Bool.and_eq_true, Bool.or_eq_true, Bool.not_eq_true',
    isEmpty_eq_false_iff] at h
  obtain ⟨⟨⟨hconstant, hne⟩, hends⟩, hinside⟩ := h
  have hbefore : Piece strict scope uses p r (s ++ String.ofList c) := by
    refine hs.append ((piece_of_isPiece hconstant scope).mono (Scope.le_refl _) hown) ?_
    rwa [String.toList_ofList]
  refine hbefore.append (hx.hole ?_) (.inl ?_)
  · rintro rfl
    simpa using hinside
  · rw [String.toList_append, String.toList_ofList, endsApart_append hne, hends]

theorem Piece.fill_of_isTemplate (h : isTemplate strict own q r c ds = true)
    (hfillings : Fillings scope uses fillings) :
    Piece strict scope uses p r (fill (s ++ String.ofList c) ds fillings) := by
  induction ds generalizing s c q fillings with
  | nil =>
    refine hs.append ((piece_of_isPiece h scope).mono (Scope.le_refl _) hown) ?_
    rwa [String.toList_ofList]
  | cons d ds ih =>
    simp only [isTemplate] at h
    split at h
    · cases h
    · simp only [Bool.and_eq_true] at h
      obtain ⟨⟨hlead, hstarts⟩, hnext⟩ := h
      exact ih (hs.lead hseam hown hlead hfillings.headD) (.inr hstarts) hnext
        fun x hx => hfillings x (mem_of_mem_tail hx)

end

theorem piece_fill (c : List Char) (ds : List (List Char)) (fillings : List String)
    (h : isTemplate strict [] p q c ds = true) (hfillings : Fillings scope uses fillings) :
    Piece strict scope uses p q (fill (String.ofList c) ds fillings) := by
  have hfill := (Piece.empty strict scope uses p).fill_of_isTemplate (.inl rfl)
    (nil_subset _) h hfillings
  rwa [String.empty_append] at hfill

/-- A template that starts with a constant and calls helpers. -/
theorem piece_fill_calling (own : List Helper) (c : List Char) (ds : List (List Char))
    (fillings : List String) (hown : own ⊆ uses) (h : isTemplate strict own p q c ds = true)
    (hfillings : Fillings scope uses fillings) :
    Piece strict scope uses p q (fill (String.ofList c) ds fillings) := by
  have hfill := (Piece.empty strict scope uses p).fill_of_isTemplate (.inl rfl) hown h hfillings
  rwa [String.empty_append] at hfill

theorem Piece.fill (c : List Char) (ds : List (List Char)) (fillings : List String)
    (hs : Piece strict scope uses p p s) (hc : startsApart c = true)
    (h : isTemplate strict [] p q c ds = true) (hfillings : Fillings scope uses fillings) :
    Piece strict scope uses p q (Source.fill (s ++ String.ofList c) ds fillings) :=
  hs.fill_of_isTemplate (.inr hc) (nil_subset _) h hfillings

/-- The same inside brackets that neither opens nor closes. -/
theorem Piece.behind (hs : Piece strict scope uses p p s)
    (h : (isLead strict [] p p c && startsApart c) = true) (hx : Piece false scope uses [] [] x) :
    Piece strict scope uses p p (s ++ String.ofList c ++ x) := by
  rw [Bool.and_eq_true] at h
  exact hs.lead (.inr h.2) (nil_subset _) h.1 hx

theorem piece_lead (h : isLead strict [] p q c = true) (hx : Piece false scope uses [] [] x) :
    Piece strict scope uses p q (String.ofList c ++ x) := by
  have hlead := (Piece.empty strict scope uses p).lead (.inl rfl) (nil_subset _) h hx
  rwa [String.empty_append] at hlead

end

/-! ### Repetition -/

/-- Whether a constant may stand between texts. -/
def isSeparator (cs : List Char) : Bool := isLead false [] [] [] cs && startsApart cs

namespace Piece

variable {strict : Bool} {scope : Scope} {uses : List Helper} {p : List Char}

theorem joinWith {separator : List Char} (hseparator : isSeparator separator = true)
    (hitems : Fillings scope uses items) :
    Piece false scope uses [] [] (Text.joinWith (String.ofList separator) items) := by
  unfold Text.joinWith
  induction items with
  | nil => exact empty false scope uses []
  | cons s items ih =>
    have hs : Piece false scope uses [] [] s := hitems s mem_cons_self
    have hrest := ih fun t ht => hitems t (mem_cons_of_mem _ ht)
    cases items with
    | nil => rwa [String.intercalate_singleton]
    | cons t items =>
      rw [String.intercalate_cons_cons]
      rw [isSeparator, Bool.and_eq_true] at hseparator
      exact hs.lead (.inr hseparator.2) (nil_subset _) hseparator.1 hrest

/-- Texts in a row, each of which ends apart. -/
theorem join (hitems : ∀ s ∈ items, Piece strict scope uses p p s ∧ endsApart s.toList = true) :
    Piece strict scope uses p p (String.join items) ∧
      endsApart (String.join items).toList = true := by
  induction items with
  | nil => exact ⟨empty strict scope uses p, rfl⟩
  | cons s items ih =>
    obtain ⟨hs, hends⟩ := hitems s mem_cons_self
    obtain ⟨hrest, hrestends⟩ := ih fun t ht => hitems t (mem_cons_of_mem _ ht)
    rw [String.join_cons]
    exact ⟨hs.append hrest (.inl hends), endsApart_append_of_endsApart hends hrestends⟩

end Piece

/-- Text that may be put behind any text. -/
structure Trailing (scope : Scope) (uses : List Helper) (s : String) : Prop where
  piece : Piece false scope uses [] [] s
  starts : startsApart s.toList = true
  ends : endsApart s.toList = true

namespace Trailing

variable {scope : Scope} {uses : List Helper} {c d : List Char} {s x : String}

theorem empty (scope : Scope) (uses : List Helper) : Trailing scope uses "" :=
  ⟨.empty false scope uses [], rfl, rfl⟩

theorem constant (h : isSeparator c = true) : Trailing scope uses (String.ofList c) := by
  simp only [isSeparator, isLead, Bool.and_eq_true] at h
  refine ⟨piece_constant h.1.1.1.1, ?_, ?_⟩
  · rw [String.toList_ofList]
    exact h.2
  · rw [String.toList_ofList]
    exact h.1.1.2

/-- A filling between two constants. -/
theorem fill (h : (isTemplate false [] [] [] c [d] && !c.isEmpty && startsApart c && !d.isEmpty &&
      endsApart d) = true) (hx : Piece false scope uses [] [] x) :
    Trailing scope uses (String.ofList c ++ x ++ String.ofList d) := by
  simp only [Bool.and_eq_true, Bool.not_eq_true', isEmpty_eq_false_iff] at h
  obtain ⟨⟨⟨⟨htemplate, hc⟩, hstarts⟩, hd⟩, hends⟩ := h
  refine ⟨piece_fill c [d] [x] htemplate (.cons hx .nil), ?_, ?_⟩
  · rw [String.toList_append, String.toList_append, String.toList_ofList, append_assoc,
      startsApart_append hc]
    exact hstarts
  · rw [String.toList_append, String.toList_ofList, endsApart_append hd]
    exact hends

theorem join (h : ∀ s ∈ items, Trailing scope uses s) :
    Trailing scope uses (String.join items) := by
  obtain ⟨hpiece, hends⟩ := Piece.join fun s hs => ⟨(h s hs).piece, (h s hs).ends⟩
  refine ⟨hpiece, ?_, hends⟩
  clear hpiece hends
  induction items with
  | nil => rfl
  | cons s items ih =>
    rw [String.join_cons, String.toList_append]
    by_cases hs : s.toList = []
    · rw [hs, nil_append]
      exact ih fun t ht => h t (mem_cons_of_mem _ ht)
    · rw [startsApart_append hs]
      exact (h s mem_cons_self).starts

end Trailing

end Widgetry.Source
