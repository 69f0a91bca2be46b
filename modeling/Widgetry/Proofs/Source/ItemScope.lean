import Widgetry.Proofs.Source.Generation
import Widgetry.Proofs.Source.KotlinCoverage
import Widgetry.Proofs.Source.SwiftCoverage

/-!
# Items in generated files

The root of a layout is drawn once for each size. The lines of every element in it read the item of
the innermost of the loops that stand for the templates around the element, and nothing in a file
names a variable of a loop outside the block of that loop.
-/

namespace Widgetry.Source

open List

/-! ### Sheets of sizes -/

variable {style : Style} {l : Layout} {sizes : List SizeClass} {sheet : Sheet} {s : SizeClass}

theorem Dialect.exists_body_of_mem {σ : Type} {D : Dialect σ}
    (hpart : ∀ s body, body.directives <:+: (D.part s body).directives)
    (h : D.sizes style l sizes = .ok sheet) (hs : s ∈ sizes) :
    ∃ body, D.element ⟨style, D.platform, s.size⟩ ["data"] .overlay (D.outer l) l.root = .ok body ∧
      body.directives <:+: sheet.directives := by
  induction sizes generalizing sheet with
  | nil => cases hs
  | cons first sizes ih =>
    obtain ⟨body, hbody, h⟩ := exists_of_bind_eq_ok h
    obtain ⟨sheets, hsheets, h⟩ := exists_of_bind_eq_ok h
    rw [← Except.ok.inj h]
    rcases mem_cons.mp hs with rfl | hs
    · exact ⟨body, hbody, (hpart _ body).trans (prefix_append _ _).isInfix⟩
    · obtain ⟨body, hbody, hinfix⟩ := ih hsheets hs
      exact ⟨body, hbody, hinfix.trans (suffix_append _ _).isInfix⟩

namespace File

def emitRoot (style : Style) (l : Layout) (s : SizeClass) : SourceTarget → Emission Sheet
  | .glance => Kotlin.emitRoot style l s
  | .swiftUI => Swift.emitRoot style l s

variable {document : Json} {l : Layout} {target : SourceTarget} {file : File} {s : SizeClass}
  {ds : List Directive}

/-- Directives that draw a layout at a size: they hold the sheet of its root, as it is emitted outside
all loops, and in this the lines of every element with all lookups of the element. -/
def Draws (target : SourceTarget) (l : Layout) (s : SizeClass) (ds : List Directive) : Prop :=
  ∃ body, (emitRoot .builtin l s target).Computes (Emission.stackOf 0) (.ok body) ∧
    body.directives <:+: ds ∧ Emits target 0 l.root (body.directives.flatMap Directive.lines) ∧
    Covers target 0 l.root body.directives

theorem draws_of_mem_sizes (hread : Layout.read document = .ok l)
    (hds : directives .builtin l target = .ok ds) (hs : s ∈ l.sizes) : Draws target l s ds := by
  have hformed := Layout.wellFormed_of_read hread
  have hs : s ∈ l.sizesByArea := mem_mergeSort.mpr hs
  cases target with
  | glance =>
    obtain ⟨⟨ds', helpers⟩, hobject, rfl⟩ := exists_of_map_eq_ok hds
    obtain ⟨functions, hfunctions, heq⟩ := exists_of_bind_eq_ok hobject
    rw [Dialect.start_emitSizes] at hfunctions
    obtain ⟨rfl, -⟩ := Prod.mk.inj (Except.ok.inj heq)
    obtain ⟨body, hbody, hinfix⟩ := Kotlin.dialect.exists_body_of_mem
      (fun _ _ => infix_append _ _ _) hfunctions hs
    have hsound := (Kotlin.sound_dialect.yields_element rfl rfl 0 .overlay (Kotlin.piece_rootModifier l)
      l.root).of_ok hbody
    refine ⟨body, ?_, hinfix.trans ?_, hsound.lays.lines, Kotlin.holds_dialect.covers_of_element
      Kotlin.sound_dialect rfl rfl (Kotlin.piece_rootModifier l) hformed hbody⟩
    · rw [← hbody]
      exact Kotlin.dialect.computes_emit _ _ _ _ l.root
    · exact ((suffix_append _ _).isInfix.trans (prefix_append _ _).isInfix).trans
        (prefix_append _ _).isInfix
  | swiftUI =>
    obtain ⟨properties, hproperties, heq⟩ := exists_of_bind_eq_ok hds
    rw [Dialect.start_emitSizes] at hproperties
    obtain rfl := Except.ok.inj heq
    obtain ⟨body, hbody, hinfix⟩ := Swift.dialect.exists_body_of_mem
      (fun _ _ => infix_append _ _ _) hproperties hs
    have hsound := (Swift.sound_dialect.yields_element rfl rfl 0 .overlay (Swift.fillings_rootLines l)
      l.root).of_ok hbody
    refine ⟨body, ?_, hinfix.trans ?_, hsound.lays.lines, Swift.holds_dialect.covers_of_element
      Swift.sound_dialect rfl rfl (Swift.fillings_rootLines l) hformed hbody⟩
    · rw [← hbody]
      exact Swift.dialect.computes_emit _ _ _ _ l.root
    · exact ((suffix_append _ _).isInfix.trans (prefix_append _ _).isInfix).trans
        (prefix_append _ _).isInfix

/-! ### Variables of loops -/

/-- Every variable of a loop in a file stands in the block of a loop that binds it. At each size the
file draws every element with its own lines, which read the item of the innermost of as many loops as
there are templates around the element, and hold such a lookup for each of its bindings; of those in
the spacing of a Glance column or row without two children nothing is said. No element changes the
stack of variables, be it emitted or refused. -/
theorem items_in_scope (hread : Layout.read document = .ok l)
    (hfile : generate .builtin defaultPackage target l = .ok file) :
    (∀ before w after, solid file.contents = before ++ .word w :: after → isLoopVariable w = true →
      ∃ k, IsVariable k w ∧ InBlock target k before (.word w :: after)) ∧
    (∃ preamble ds, directives .builtin l target = .ok ds ∧
      file.contents = preamble ++ render ds ∧ ∀ s ∈ l.sizes, Draws target l s ds) ∧
    (∀ env flow base e, (Kotlin.emit env flow base e).Balanced) ∧
    (∀ env flow more e, (Swift.emit env flow more e).Balanced) := by
  obtain ⟨ds, hds, hwhole⟩ := whole_generate hread hfile
  obtain ⟨preamble, htext⟩ := hwhole.text
  refine ⟨?_, ⟨preamble, ds, hds, htext, fun s hs => draws_of_mem_sizes hread hds hs⟩,
    Kotlin.dialect.balanced_emit, Swift.dialect.balanced_emit⟩
  intro before w after heq hw
  obtain ⟨k, hk, hle | hblock⟩ := hwhole.scoping before w after heq hw
  · exact absurd hk.1 (Nat.not_lt.mpr hle)
  · exact ⟨k, hk, hblock⟩

/-- Groups of rows: the title of a row is read from the item of the inner loop. -/
theorem items_in_scope_groups : ∃ document l, Layout.read document = .ok l ∧
    (∃ x, Nested l.root 2 x ∧ ∀ target, Due target 2 x .text "lookup(item2, \"title\")") ∧
    ∀ target, ∃ file, generate .builtin defaultPackage target l = .ok file ∧
      (∀ before w after, solid file.contents = before ++ .word w :: after → isLoopVariable w = true →
        ∃ k, IsVariable k w ∧ InBlock target k before (.word w :: after)) ∧
      (∃ preamble ds, directives .builtin l target = .ok ds ∧
        file.contents = preamble ++ render ds ∧ ∀ s ∈ l.sizes, Draws target l s ds) ∧
      (∀ env flow base e, (Kotlin.emit env flow base e).Balanced) ∧
      (∀ env flow more e, (Swift.emit env flow more e).Balanced) := by
  let document : Json := .object
    [("layout", .object
       [("itemTemplate", .object
         [("itemTemplate", .object [("text", .string "item.title"), ("type", .string "label")]),
          ("items", .string "item.rows"), ("spacing", .array [.string "get", .string "item.gap"]),
          ("type", .string "forEach")]),
        ("items", .string "data.groups"), ("type", .string "forEach")]),
     ("name", .string "Groups"),
     ("supportedSizes", .array [.object [("height", .number (.integer 40)),
       ("id", .string "small"), ("width", .number (.integer 80))]])]
  have hlayout : ((Layout.read document).toOption.map fun l =>
      (SourceTarget.all.all fun target => (generate .builtin defaultPackage target l).isOk) &&
      (l.root.kind == .forEach && l.root.children.any fun t => t.kind == .forEach &&
        t.children.any fun x => (x.get? .text).any fun v => v.bindings.any fun b =>
          SourceTarget.all.all fun target =>
            (language target).lookup? 2 b == some "lookup(item2, \"title\")")) = some true := by
    decide +kernel
  obtain ⟨l, hread, hseen⟩ := exists_of_toOption_map hlayout
  obtain ⟨hfiles, hnested⟩ := Bool.and_eq_true_iff.mp hseen
  refine ⟨document, l, hread, ?_, fun target => ?_⟩
  · obtain ⟨hroot, hnested⟩ := Bool.and_eq_true_iff.mp hnested
    obtain ⟨t, ht, hnested⟩ := any_eq_true.mp hnested
    obtain ⟨hkind, hnested⟩ := Bool.and_eq_true_iff.mp hnested
    obtain ⟨x, hx, hnested⟩ := any_eq_true.mp hnested
    obtain ⟨v, hv, hnested⟩ := (Option.any_eq_true _ _).mp hnested
    obtain ⟨b, hb, hlookup⟩ := any_eq_true.mp hnested
    refine ⟨x, .template (beq_iff_eq.mp hroot) ht (.template (beq_iff_eq.mp hkind) hx (.self x)), ?_⟩
    intro target
    exact ⟨_, hv, b, hb, beq_iff_eq.mp
      (all_eq_true.mp hlookup target (by cases target <;> decide))⟩
  · obtain ⟨file, hfile⟩ := exists_files_of_isOk hfiles target
    exact ⟨file, hfile, items_in_scope hread hfile⟩

/-- A column of one child has no gap, so nothing in the file reads the spacing of the column. -/
theorem items_in_scope_lone_child : ∃ document l file preamble ds, Layout.read document = .ok l ∧
    Nested l.root 0 l.root ∧ Due .glance 0 l.root .spacing "lookup(data, \"gap\")" ∧
    generate .builtin defaultPackage .glance l = .ok file ∧ directives .builtin l .glance = .ok ds ∧
    file.contents = preamble ++ render ds ∧ ¬Shows "lookup(data, \"gap\")" ds := by
  let document : Json := .object
    [("layout", .object
       [("children", .array [.object [("type", .string "spacer")]]),
        ("spacing", .array [.string "get", .string "item.gap"]), ("type", .string "column")]),
     ("name", .string "Rows"),
     ("supportedSizes", .array [.object [("height", .number (.integer 40)),
       ("id", .string "small"), ("width", .number (.integer 80))]])]
  have hlayout : ((Layout.read document).toOption.map fun l =>
      (SourceTarget.all.all fun target => (generate .builtin defaultPackage target l).isOk) &&
      ((directives .builtin l .glance).toOption.all fun ds => ds.all fun d => d.text?.all fun t =>
        !decide ("lookup(data, \"gap\")".toByteArray.data.toList <:+: t.toByteArray.data.toList)) &&
      ((l.root.get? .spacing).any fun v => v.bindings.any fun b =>
        (language .glance).lookup? 0 b == some "lookup(data, \"gap\")")) = some true := by
    decide +kernel
  obtain ⟨l, hread, hseen⟩ := exists_of_toOption_map hlayout
  obtain ⟨hseen, hdue⟩ := Bool.and_eq_true_iff.mp hseen
  obtain ⟨hfiles, hnone⟩ := Bool.and_eq_true_iff.mp hseen
  obtain ⟨v, hv, hdue⟩ := (Option.any_eq_true _ _).mp hdue
  obtain ⟨b, hb, hlookup⟩ := any_eq_true.mp hdue
  obtain ⟨file, hfile⟩ := exists_files_of_isOk hfiles .glance
  obtain ⟨ds, hds, hwhole⟩ := whole_generate hread hfile
  obtain ⟨preamble, htext⟩ := hwhole.text
  refine ⟨document, l, file, preamble, ds, hread, .self _, ⟨v, hv, b, hb, beq_iff_eq.mp hlookup⟩,
    hfile, hds, htext, ?_⟩
  rintro ⟨d, hd, t, ht, hwithin⟩
  rw [hds] at hnone
  have hnone := (Option.all_eq_true _ _).mp (all_eq_true.mp hnone d hd) t ht
  exact absurd hwithin.bytes (by simpa using hnone)

end File

end Widgetry.Source
