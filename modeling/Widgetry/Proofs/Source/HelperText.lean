import Widgetry.Proofs.Source.Sheet

/-!
# Text of helpers

The text of a helper is constant, but for the names of colors and the constants of the style. Found by
evaluation: it closes the brackets it opens, calls itself and the helpers it is said to need only, and
defines no helper but itself, once.
-/

namespace Widgetry.Source

open List

/-! ### Paragraphs -/

/-- Lines without line ends and variables of loops in them that make one passage. -/
structure Paragraph (target : SourceTarget) (uses : List Helper) (p q : List Char)
    (names : List (List Char)) (ls : List String) : Prop where
  lines : ∀ l ∈ ls, '\n' ∉ l.toList
  passes : ∀ comments, Passes comments target uses p q names ls
  quiet : Quiet ls

/-- Lines of given characters. -/
inductive Constants : List (List Char) → List String → Prop
  | nil : Constants [] []
  | cons {cs : List Char} {css : List (List Char)} {ls : List String} (h : Constants css ls) :
      Constants (cs :: css) (String.ofList cs :: ls)

/-- The open brackets behind lines and the names that these define, each with a parenthesis behind it,
if they call given helpers only and have no variables of loops. -/
def scan (target : SourceTarget) (uses : List Helper) :
    List Char → List (List Char) → Option (List Char × List (List Char))
  | p, [] => some (p, [])
  | p, cs :: css =>
      match spelling? true cs with
      | none => none
      | some ts =>
          if cs.contains '\n' || spelling? false cs != some ts
              || !(calls ts).all (isCallable uses)
              || !(defined (definer target) ts).all (calls ts).contains
              || ts.any fun
                | .word w => isLoopVariable w
                | _ => false then none
          else match ts.foldlM (nest true false) p with
            | none => none
            | some q =>
                (scan target uses q css).map fun (r, names) => (r, defined (definer target) ts ++ names)

section

variable {target : SourceTarget} {uses : List Helper} {p q r : List Char}
  {names more : List (List Char)} {css : List (List Char)} {ls ks : List String}

theorem Paragraph.nil (p : List Char) : Paragraph target uses p p [] [] :=
  ⟨forall_mem_nil _, fun _ => .nil p, forall_mem_nil _⟩

theorem Paragraph.single {l : String} (hline : '\n' ∉ l.toList)
    (hl : ∀ comments, Passage comments target uses p q names l)
    (hquiet : ∀ w, .word w ∈ tokens true l → isLoopVariable w = false) :
    Paragraph target uses p q names [l] :=
  ⟨forall_mem_singleton.mpr hline, fun comments => .single (hl comments),
    forall_mem_singleton.mpr hquiet⟩

theorem Paragraph.append (hls : Paragraph target uses p q names ls)
    (hks : Paragraph target uses q r more ks) :
    Paragraph target uses p r (names ++ more) (ls ++ ks) := by
  exact ⟨forall_mem_append.mpr ⟨hls.lines, hks.lines⟩,
    fun comments => (hls.passes comments).append (hks.passes comments),
    Gathers.append hls.quiet hks.quiet⟩

theorem paragraph_of_pieces (target : SourceTarget) (h : ∀ l ∈ ls, Piece false .empty uses p p l) :
    Paragraph target uses p p [] ls := by
  induction ls with
  | nil => exact .nil p
  | cons l ls ih =>
    have hl := h l mem_cons_self
    have hplain : Says .empty [l] := forall_mem_singleton.mpr hl.speaks
    have hline : Paragraph target uses p p [] [l] :=
      .single hl.fits.1 (fun comments => hl.fits.passage comments target)
        (hplain.quiet l mem_cons_self)
    exact hline.append (ih fun k hk => h k (mem_cons_of_mem _ hk))

theorem paragraph_of_scan (hls : Constants css ls) (h : scan target uses p css = some (q, names)) :
    Paragraph target uses p q names ls := by
  induction hls generalizing p names with
  | nil =>
    obtain ⟨rfl, rfl⟩ := Prod.mk.inj (Option.some.inj h)
    exact .nil p
  | @cons cs css ls _ ih =>
    rw [scan] at h
    split at h
    · cases h
    · rename_i ts hts
      split at h
      · cases h
      · rename_i hcheck
        simp only [Bool.or_eq_true, not_or, Bool.not_eq_true, bne_eq_false_iff_eq,
          Bool.not_eq_false', contains_eq_mem, decide_eq_false_iff_not] at hcheck
        obtain ⟨⟨⟨⟨hline, hfalse⟩, hcalls⟩, hnames⟩, hwords⟩ := hcheck
        split at h
        · cases h
        · rename_i r hnest
          obtain ⟨⟨q', more⟩, hscan, heq⟩ := Option.map_eq_some_iff.mp h
          obtain ⟨rfl, rfl⟩ := Prod.mk.inj heq
          have hspells : Spells (String.ofList cs) ts := by
            intro comments
            rw [String.toList_ofList]
            cases comments with
            | true => exact hts
            | false => exact hfalse
          have hfirst : Paragraph target uses p r (defined (definer target) ts) [String.ofList cs] := by
            refine .single (by rwa [String.toList_ofList]) (fun comments => ?_) (fun w hw => ?_)
            · refine ⟨ts, hspells comments, hnest, ?_, rfl, ?_⟩
              · intro g hg
                exact mem_of_isCallable (all_eq_true.mp hcalls _ hg)
              · intro w hw
                exact contains_iff_mem.mp (all_eq_true.mp hnames w hw)
            · rw [tokens_eq_of_spelling? (hspells true)] at hw
              exact Bool.eq_false_iff.mpr (any_eq_false.mp hwords _ hw)
          exact hfirst.append (ih hscan)

end

/-! ### Definitions -/

/-- Names among which given helpers stand, each as often as it is given. -/
def Defines (hs : List Helper) (names : List (List Char)) : Prop :=
  ∀ g : Helper, names.count g.name.toList = hs.count g

variable {names : List (List Char)} {h : Helper}

theorem Defines.append {hs ks : List Helper} {more : List (List Char)} (hnames : Defines hs names)
    (hmore : Defines ks more) : Defines (hs ++ ks) (names ++ more) := by
  intro g
  rw [count_append, count_append, hnames g, hmore g]

theorem defines_nil (h : ∀ g : Helper, g.name.toList ∉ names) : Defines [] names :=
  fun g => count_eq_zero.mpr (h g)

def isDefinition (h : Helper) (names : List (List Char)) : Bool :=
  Helper.all.all fun g => names.count g.spelled.1 == [h].count g

theorem defines_of_isDefinition (hnames : isDefinition h names = true) : Defines [h] names := by
  intro g
  rw [Helper.toList_name]
  exact beq_iff_eq.mp (all_eq_true.mp hnames g g.mem_all)

/-- Lines that define a helper. -/
def Definition (target : SourceTarget) (h : Helper) (ls : List String) : Prop :=
  ls ≠ [] ∧ ∃ names, Paragraph target (h :: (language target).needs h) [] [] names ls ∧
    Defines [h] names

/-- Whether lines define a helper. -/
def isHelperText (target : SourceTarget) (h : Helper) (css : List (List Char)) : Bool :=
  !css.isEmpty &&
    match scan target (h :: (language target).needs h) [] css with
    | some ([], names) => isDefinition h names
    | _ => false

theorem definition_of_isHelperText {target : SourceTarget} {css : List (List Char)}
    {ls : List String} (hls : Constants css ls) (htext : isHelperText target h css = true) :
    Definition target h ls := by
  rw [isHelperText, Bool.and_eq_true] at htext
  obtain ⟨hne, htext⟩ := htext
  split at htext
  · rename_i names hscan
    refine ⟨?_, names, paragraph_of_scan hls hscan, defines_of_isDefinition htext⟩
    rintro rfl
    cases hls
    cases hne
  · cases htext

/-- Constant lines that open brackets and define a helper, lines inside these brackets, and constant
lines that close them. -/
theorem definition_of_parts {target : SourceTarget} {css css' : List (List Char)}
    {ls ms ks : List String} {p : List Char} (hls : Constants css ls) (hks : Constants css' ks)
    (hopens : scan target (h :: (language target).needs h) [] css = some (p, [h.spelled.1]))
    (hms : ∀ l ∈ ms, Piece false .empty (h :: (language target).needs h) p p l)
    (hcloses : scan target (h :: (language target).needs h) p css' = some ([], []))
    (hname : isDefinition h [h.spelled.1] = true) : Definition target h (ls ++ ms ++ ks) := by
  have hparts := ((paragraph_of_scan hls hopens).append (paragraph_of_pieces _ hms)).append
    (paragraph_of_scan hks hcloses)
  refine ⟨?_, _, hparts, defines_of_isDefinition hname⟩
  intro hnil
  rw [append_eq_nil_iff, append_eq_nil_iff] at hnil
  obtain ⟨⟨rfl, -⟩, -⟩ := hnil
  cases hls
  cases hopens

namespace Kotlin

theorem definition_parseColor : Definition .glance .parseColor parseColor := by
  refine definition_of_parts (p := ['\x7d', '\x7d']) (by repeat constructor) (by repeat constructor)
    (by decide) ?_ (by decide) (by decide)
  rw [forall_mem_map]
  rintro entry -
  exact (piece_lead (by decide) (operand_quote entry.1).piece).behind (by decide)
    (operand_color entry.2).piece

theorem definition_fontWeight : Definition .glance .fontWeight (fontWeight .builtin) := by
  have hlines : fontWeight .builtin = ["private fun fontWeight(v: Any?): FontWeight =",
      "    when (if (v == true) \"bold\" else v.toString().lowercase()) \x7b",
      "        \"bold\" -> FontWeight.Bold", "        \"medium\" -> FontWeight.Medium",
      "        else -> FontWeight.Normal", "    \x7d"] := by decide
  rw [hlines]
  exact definition_of_isHelperText (by repeat constructor) (by decide)

theorem definition_helper (hh : has h = true) : Definition .glance h (helper .builtin h) := by
  cases h with
  | colorHex => cases hh
  | parseColor => exact definition_parseColor
  | fontWeight => exact definition_fontWeight
  | _ => exact definition_of_isHelperText (by repeat constructor) (by decide)

end Kotlin

namespace Swift

theorem definition_parseColor : Definition .swiftUI .parseColor parseColor := by
  refine definition_of_parts (p := ['\x7d', '\x7d']) (by repeat constructor) (by repeat constructor)
    (by decide) ?_ (by decide) (by decide)
  rw [forall_mem_map]
  rintro entry -
  exact (piece_lead (by decide) (operand_quote entry.1).piece).behind (by decide)
    ((operand_color entry.2).mono (subset_cons_self _ _)).piece

theorem definition_fontWeight : Definition .swiftUI .fontWeight (fontWeight .builtin) := by
  have hlines : fontWeight .builtin = ["fileprivate func fontWeight(_ v: Any?) -> Font.Weight \x7b",
      "    switch (v as? Bool) == true ? \"bold\" : str(v).lowercased() \x7b",
      "    case \"bold\": return .bold", "    case \"medium\": return .medium",
      "    default: return .regular", "    \x7d", "\x7d"] := by decide
  rw [hlines]
  exact definition_of_isHelperText (by repeat constructor) (by decide)

theorem definition_helper (h : Helper) : Definition .swiftUI h (helper .builtin h) := by
  cases h with
  | parseColor => exact definition_parseColor
  | fontWeight => exact definition_fontWeight
  | _ => exact definition_of_isHelperText (by repeat constructor) (by decide)

end Swift

end Widgetry.Source
