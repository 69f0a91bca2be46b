import Widgetry.Proofs.Source.Acceptance

/-!
# Files of reordered documents

A file is written from the sorted sizes, so the order in which a document declares them shows in the
line of the fingerprint only.
-/

namespace Widgetry.Source

variable {l m : Layout}

theorem Dialect.emitSizes_alike {σ : Type} {D : Dialect σ} (h : l.Alike m)
    (houter : D.outer m = D.outer l) (style : Style) (sizes : List SizeClass) :
    D.emitSizes style m sizes = D.emitSizes style l sizes := by
  obtain ⟨declared, fingerprint, -, -, rfl⟩ := h
  induction sizes with
  | nil => rfl
  | cons s rest ih => rw [emitSizes, emitSizes, emitRoot, emitRoot, houter, ih]

theorem Kotlin.object_alike (h : l.Alike m) (style : Style) :
    Kotlin.object style m = Kotlin.object style l := by
  have houter : Kotlin.dialect.outer m = Kotlin.dialect.outer l := by
    obtain ⟨declared, fingerprint, -, -, rfl⟩ := h
    rfl
  simp only [Kotlin.object, Dialect.emitSizes_alike h houter, h.name_eq, h.sizesByArea_eq]

theorem Swift.view_alike (h : l.Alike m) (style : Style) :
    Swift.view style m = Swift.view style l := by
  have houter : Swift.dialect.outer m = Swift.dialect.outer l := by
    obtain ⟨declared, fingerprint, -, -, rfl⟩ := h
    rfl
  simp only [Swift.view, Dialect.emitSizes_alike h houter, h.name_eq, h.sizesByArea_eq]

/-- The line of a file that holds the fingerprint of its layout. -/
def fingerprintLine (l : Layout) : String :=
  "// Layout fingerprint: " ++ Fingerprint.render l.fingerprint ++ "\n"

/-- The lines of a header before that of the fingerprint. -/
def titleLines (l : Layout) : List String :=
  ["// Auto-generated from " ++ l.name ++ ".json - DO NOT EDIT MANUALLY", "// Generator: widgetc 0.1.0"]

theorem unlines_append (a b : List String) : unlines (a ++ b) = unlines a ++ unlines b := by
  simp only [unlines, List.map_append, String.join_append]

theorem unlines_singleton (s : String) : unlines [s] = s ++ "\n" := by
  simp only [unlines, List.map_cons, List.map_nil, String.join_cons, String.join_nil,
    String.append_empty]

theorem unlines_header (l : Layout) :
    unlines (header l) = unlines (titleLines l) ++ fingerprintLine l := by
  have hheader : header l =
      titleLines l ++ ["// Layout fingerprint: " ++ Fingerprint.render l.fingerprint] := rfl
  rw [hheader, unlines_append, unlines_singleton]
  rfl

namespace File

theorem text_alike (h : l.Alike m) (style : Style) (package : String) (target : SourceTarget) :
    (∃ e, text style package l target = .error e ∧ text style package m target = .error e) ∨
      ∃ rest, text style package l target = .ok (unlines (header l) ++ rest) ∧
        text style package m target = .ok (unlines (header m) ++ rest) := by
  cases target with
  | glance =>
    simp only [text, Kotlin.file, Kotlin.object_alike h]
    cases Kotlin.object style l with
    | error e => exact .inl ⟨e, rfl, rfl⟩
    | ok object =>
      simp only [bind, Except.bind]
      exact .inr ⟨_, rfl, rfl⟩
  | swiftUI =>
    simp only [text, Swift.file, Swift.view_alike h]
    cases Swift.view style l with
    | error e => exact .inl ⟨e, rfl, rfl⟩
    | ok ds =>
      simp only [bind, Except.bind]
      exact .inr ⟨_, rfl, rfl⟩

/-- Documents that declare their sizes in different orders are both accepted or both refused. For the
layouts that are read, each target fails with one error or gives files of one name that agree but for
the line of the fingerprint. -/
theorem generate_reordered {a b : Json} (h : Layout.Reordered a b) :
    (Succeeds (Layout.read a) ↔ Succeeds (Layout.read b)) ∧
      ∀ l m, Layout.read a = .ok l → Layout.read b = .ok m → ∀ style package target,
        (∃ e, generate style package target l = .error e ∧
          generate style package target m = .error e) ∨
        ∃ name before after,
          generate style package target l =
            .ok ⟨name, unlines before ++ fingerprintLine l ++ after⟩ ∧
          generate style package target m =
            .ok ⟨name, unlines before ++ fingerprintLine m ++ after⟩ := by
  have hread := Layout.together_read h
  refine ⟨hread.succeeds_iff, fun l m ha hb style package target => ?_⟩
  rw [ha, hb] at hread
  have hname : m.name = l.name := hread.name_eq
  unfold generate
  obtain ⟨e, hl, hm⟩ | ⟨rest, hl, hm⟩ := text_alike hread style package target
  · exact .inl ⟨e.inWidget l.name, by rw [hl], by rw [hm, hname]⟩
  · refine .inr ⟨nameOf l.name target, titleLines l, rest, ?_, ?_⟩
    · rw [hl, unlines_header]
    · rw [hm, unlines_header, hname, titleLines, hname]
      rfl

theorem generate_reordered_pair :
    let sizes : List Json :=
      [.object [("height", .number (.integer 40)), ("id", .string "small"),
        ("width", .number (.integer 80))],
       .object [("height", .number (.integer 90)), ("id", .string "large"),
        ("width", .number (.integer 160))]]
    let document (sizes : List Json) : Json := .object
      ([("layout", .object [("text", .string "x"), ("type", .string "label")]),
        ("name", .string "Note")] ++ [("supportedSizes", .array sizes)])
    Layout.Reordered (document sizes) (document sizes.reverse) ∧
      ∃ l m, Layout.read (document sizes) = .ok l ∧ Layout.read (document sizes.reverse) = .ok m ∧
        ∀ target, ∃ name before after,
          generate .builtin defaultPackage target l =
            .ok ⟨name, unlines before ++ fingerprintLine l ++ after⟩ ∧
          generate .builtin defaultPackage target m =
            .ok ⟨name, unlines before ++ fingerprintLine m ++ after⟩ := by
  intro sizes document
  have h : Layout.Reordered (document sizes) (document sizes.reverse) :=
    .object _ _ (List.reverse_perm sizes).symm
  obtain ⟨l, hl, hfiles⟩ : ∃ l, Layout.read (document sizes) = .ok l ∧
      ∀ target, ∃ file, generate .builtin defaultPackage target l = .ok file :=
    exists_files_of_singles (by decide +kernel)
  obtain ⟨hiff, hagree⟩ := generate_reordered h
  obtain ⟨m, hm⟩ := hiff.mp ⟨l, hl⟩
  refine ⟨h, l, m, hl, hm, fun target => ?_⟩
  obtain ⟨file, hfile⟩ := hfiles target
  obtain ⟨e, he, -⟩ | hsame := hagree l m hl hm .builtin defaultPackage target
  · rw [hfile] at he
    cases he
  · exact hsame

end File

end Widgetry.Source
