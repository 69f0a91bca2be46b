import Widgetry.Proofs.Element.Acceptance
import Widgetry.Proofs.Source.FileText

/-!
# Generated files

What holds of the text of every file that is generated for a layout under the built-in style: its
brackets are balanced, the directives that write it never end an indentation they did not start, and
it defines each helper that it calls, once.
-/

namespace Widgetry.Source

theorem all_isWordChar_name {document : Json} {l : Layout} (h : Layout.read document = .ok l) :
    l.name.toList.all isWordChar = true :=
  all_isWordChar_of_isIdentifier (Layout.checked_of_read h).1

namespace File

/-- The directives that write the file of a widget, behind its imports. -/
def directives (style : Style) (l : Layout) : SourceTarget → Except Error (List Directive)
  | .glance => (Kotlin.object style l).map Prod.fst
  | .swiftUI => Swift.view style l

variable {document : Json} {l : Layout} {target : SourceTarget} {file : File}

theorem whole_generate (hread : Layout.read document = .ok l)
    (hfile : generate .builtin defaultPackage target l = .ok file) :
    ∃ ds, directives .builtin l target = .ok ds ∧ Whole target ds file.contents := by
  have hname := all_isWordChar_name hread
  unfold generate at hfile
  split at hfile
  · rename_i contents htext
    rw [← Except.ok.inj hfile]
    cases target with
    | glance =>
      obtain ⟨ds, helpers, hobject, hwhole⟩ := Kotlin.whole_file hname htext
      refine ⟨ds, ?_, hwhole⟩
      rw [directives, hobject]
      rfl
    | swiftUI => exact Swift.whole_file hname htext
  · cases hfile

theorem exists_files_of_isOk
    (h : SourceTarget.all.all (fun target => (generate .builtin defaultPackage target l).isOk) = true)
    (target : SourceTarget) : ∃ file, generate .builtin defaultPackage target l = .ok file := by
  have hok := List.all_eq_true.mp h target (by cases target <;> decide)
  exact succeeds_iff_isOk.mpr hok

/-- A heading in a computed color, rows with a line between them, and a note where there are none. -/
theorem exists_generated : ∃ document l, Layout.read document = .ok l ∧
    ∀ target, ∃ file, generate .builtin defaultPackage target l = .ok file := by
  let document : Json := .object
    [("layout", .object
       [("children", .array
         [.object
           [("color", .array [.string "get", .string "data.color"]), ("text", .string "Rows ("),
            ("type", .string "label"), ("visible", .array [.string "has", .string "data.rows"])],
          .object [("type", .string "divider")],
          .object
           [("itemTemplate", .object [("text", .string "item.title"), ("type", .string "label")]),
            ("items", .string "data.rows"), ("limit", .number (.integer 3)),
            ("type", .string "forEach")],
          .object
           [("condition", .array [.string "!", .array [.string "has", .string "data.rows"]]),
            ("else", .object [("type", .string "spacer")]),
            ("then", .object [("text", .string "none"), ("type", .string "label")]),
            ("type", .string "conditional")]]),
        ("spacing", .number (.integer 4)), ("type", .string "column")]),
     ("name", .string "Rows"),
     ("supportedSizes", .array [.object [("height", .number (.integer 40)),
       ("id", .string "small"), ("width", .number (.integer 80))]])]
  have hboth : ((Layout.read document).toOption.map fun l => SourceTarget.all.all fun target =>
      (generate .builtin defaultPackage target l).isOk) = some true := by decide +kernel
  obtain ⟨l, hread, hfiles⟩ := exists_of_toOption_map hboth
  exact ⟨document, l, hread, exists_files_of_isOk hfiles⟩

/-- The brackets of a file are nested and all closed at its end, outside comments and literals, and
every literal is closed. It is written by directives that end an indentation only where there is one
and leave none behind. -/
theorem brackets_balanced (hread : Layout.read document = .ok l)
    (hfile : generate .builtin defaultPackage target l = .ok file) :
    (tokens true file.contents).foldlM (nest true false) [] = some [] ∧
      ∃ preamble ds, directives .builtin l target = .ok ds ∧
        file.contents = preamble ++ render ds ∧ Steady ds := by
  obtain ⟨ds, hdirectives, hwhole⟩ := whole_generate hread hfile
  obtain ⟨preamble, htext⟩ := hwhole.text
  obtain ⟨helpers, names, -, -, hpassage⟩ := hwhole.passage
  obtain ⟨ts, hts, hnest, -⟩ := hpassage true
  refine ⟨?_, preamble, ds, hdirectives, htext, steady_of_level? hwhole.levels⟩
  rw [tokens_eq_of_spelling? hts]
  exact hnest

theorem brackets_balanced_rows : ∃ document l, Layout.read document = .ok l ∧ ∀ target, ∃ file,
    generate .builtin defaultPackage target l = .ok file ∧
    (tokens true file.contents).foldlM (nest true false) [] = some [] ∧
      ∃ preamble ds, directives .builtin l target = .ok ds ∧
        file.contents = preamble ++ render ds ∧ Steady ds := by
  obtain ⟨document, l, hread, hfiles⟩ := exists_generated
  refine ⟨document, l, hread, fun target => ?_⟩
  obtain ⟨file, hfile⟩ := hfiles target
  exact ⟨file, hfile, brackets_balanced hread hfile⟩

/-- A helper whose name stands before a parenthesis in a file is defined in it just once, so every helper
that is called is defined, and none twice, whether or not calls in comments count. The name in a
definition stands there as well, so a helper may be defined that only its own definition names. -/
theorem defined_once_iff_called (hread : Layout.read document = .ok l)
    (hfile : generate .builtin defaultPackage target l = .ok file) (comments : Bool) (h : Helper) :
    (defined (definer target) (tokens comments file.contents)).count h.name.toList =
      if h.name.toList ∈ calls (tokens comments file.contents) then 1 else 0 := by
  obtain ⟨ds, -, hwhole⟩ := whole_generate hread hfile
  obtain ⟨helpers, names, hnodup, hdefines, hpassage⟩ := hwhole.passage
  obtain ⟨ts, hts, -, hcalls, hnames, hopens⟩ := hpassage comments
  rw [tokens_eq_of_spelling? hts, hnames, hdefines h]
  split
  · rename_i hcalled
    exact hnodup.count.trans (if_pos (hcalls h hcalled))
  · rename_i hcalled
    rw [← hdefines h, List.count_eq_zero]
    exact fun hmem => hcalled (hopens hmem)

theorem defined_once_iff_called_rows : ∃ document l, Layout.read document = .ok l ∧
    ∀ target, ∃ file, generate .builtin defaultPackage target l = .ok file ∧
      ∀ comments (h : Helper),
        (defined (definer target) (tokens comments file.contents)).count h.name.toList =
          if h.name.toList ∈ calls (tokens comments file.contents) then 1 else 0 := by
  obtain ⟨document, l, hread, hfiles⟩ := exists_generated
  refine ⟨document, l, hread, fun target => ?_⟩
  obtain ⟨file, hfile⟩ := hfiles target
  exact ⟨file, hfile, fun comments h => defined_once_iff_called hread hfile comments h⟩

end File

end Widgetry.Source
