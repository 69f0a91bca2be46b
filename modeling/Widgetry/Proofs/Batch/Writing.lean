import Widgetry.Batch
import Widgetry.Proofs.Computation
import Widgetry.Proofs.Files.Map

/-!
# Writing the files of a batch

The files of widgets lie at paths that tell the widget and the target, and so do their drafts. On a
map of files a file is stored with all other files as they were, so the files of a batch are
stored as if each were the only one.
-/

namespace Widgetry.Batch

open List

/-! ## Paths of files -/

def productPath (output : Path) (widget : String) (target : SourceTarget) : Path :=
  (targetDirectory output target).join (Source.File.nameOf widget target)

/-- Where the file of a widget lies until it is complete. -/
def draftPath (output : Path) (widget : String) (target : SourceTarget) : Path :=
  (targetDirectory output target).join ("." ++ Source.File.nameOf widget target ++ ".tmp")

/-- What stands behind the name of a widget in that of its file. -/
def fileEnding : SourceTarget → List Char
  | .glance => "Content.generated.kt".toList
  | .swiftUI => "View.generated.swift".toList

section Paths

variable {output : Path} {widget other : String} {target target' : SourceTarget}

theorem toList_nameOf (widget : String) (target : SourceTarget) :
    (Source.File.nameOf widget target).toList = widget.toList ++ fileEnding target := by
  cases target <;> exact String.toList_append

theorem toList_draftName (widget : String) (target : SourceTarget) :
    ("." ++ Source.File.nameOf widget target ++ ".tmp").toList =
      '.' :: (widget.toList ++ fileEnding target) ++ ".tmp".toList := by
  rw [String.toList_append, String.toList_append, toList_nameOf]
  rfl

theorem isName_of_length {name : String} (hlength : 2 ≤ name.toList.length)
    (hslash : '/' ∉ name.toList) : Path.IsName name := by
  refine ⟨?_, ?_, hslash⟩
  · rintro rfl
    simp at hlength
  · rintro rfl
    simp at hlength

theorem slash_notMem_file (h : Text.isIdentifier widget = true) (target : SourceTarget) :
    '/' ∉ widget.toList ++ fileEnding target := by
  rw [mem_append, not_or]
  refine ⟨fun hslash => absurd (Text.isWord_of_isIdentifierList h hslash) (by decide), ?_⟩
  cases target <;> decide

theorem two_le_length_fileEnding (target : SourceTarget) : 2 ≤ (fileEnding target).length := by
  cases target <;> decide

theorem isName_nameOf (h : Text.isIdentifier widget = true) :
    Path.IsName (Source.File.nameOf widget target) := by
  apply isName_of_length
  · rw [toList_nameOf, length_append]
    exact Nat.le_add_left_of_le (two_le_length_fileEnding target)
  · rw [toList_nameOf]
    exact slash_notMem_file h target

theorem isName_draftName (h : Text.isIdentifier widget = true) :
    Path.IsName ("." ++ Source.File.nameOf widget target ++ ".tmp") := by
  have hslash := slash_notMem_file h target
  apply isName_of_length
  · rw [toList_draftName, length_append]
    exact Nat.le_add_left_of_le (by decide)
  · rw [toList_draftName]
    simp only [mem_append, mem_cons, not_or] at hslash ⊢
    exact ⟨⟨by decide, hslash⟩, by decide⟩

theorem names_targetDirectory (output : Path) (target : SourceTarget) :
    (targetDirectory output target).names = output.names ++ [target.platform.name] :=
  Path.names_join output (by cases target <;> decide)

theorem names_productPath (h : Text.isIdentifier widget = true) :
    (productPath output widget target).names =
      output.names ++ [target.platform.name, Source.File.nameOf widget target] := by
  rw [productPath, Path.names_join _ (isName_nameOf h), names_targetDirectory, append_assoc,
    singleton_append]

theorem names_draftPath (h : Text.isIdentifier widget = true) :
    (draftPath output widget target).names =
      output.names ++ [target.platform.name,
        "." ++ Source.File.nameOf widget target ++ ".tmp"] := by
  rw [draftPath, Path.names_join _ (isName_draftName h), names_targetDirectory, append_assoc,
    singleton_append]

theorem target_eq_of_platform (h : target.platform.name = target'.platform.name) :
    target = target' := by
  cases target <;> cases target' <;> first | rfl | exact absurd h (by decide)

theorem nameOf_inj (h : Source.File.nameOf widget target = Source.File.nameOf other target) :
    widget = other := by
  have hletters := congrArg String.toList h
  rw [toList_nameOf, toList_nameOf] at hletters
  exact String.toList_inj.mp (append_cancel_right hletters)

section

variable (h : Text.isIdentifier widget = true)

include h

theorem productPath_inj (hother : Text.isIdentifier other = true)
    (hnames : (productPath output widget target).names = (productPath output other target').names) :
    widget = other ∧ target = target' := by
  rw [names_productPath h, names_productPath hother, append_cancel_left_eq, List.cons.injEq,
    singleton_inj] at hnames
  obtain rfl := target_eq_of_platform hnames.1
  exact ⟨nameOf_inj hnames.2, rfl⟩

theorem draftPath_inj (hother : Text.isIdentifier other = true)
    (hnames : (draftPath output widget target).names = (draftPath output other target').names) :
    widget = other ∧ target = target' := by
  rw [names_draftPath h, names_draftPath hother, append_cancel_left_eq, List.cons.injEq,
    singleton_inj, String.append_left_inj, String.append_right_inj] at hnames
  obtain rfl := target_eq_of_platform hnames.1
  exact ⟨nameOf_inj hnames.2, rfl⟩

theorem ending?_productPath :
    (productPath output widget target).ending? = some 't' := by
  rw [productPath, Path.ending?_join _ (isName_nameOf h), toList_nameOf, List.getLast?_append]
  cases target <;> rfl

theorem ending?_draftPath :
    (draftPath output widget target).ending? = some 'p' := by
  rw [draftPath, Path.ending?_join _ (isName_draftName h), toList_draftName, List.getLast?_append]
  rfl

theorem productPath_ne_draftPath (hother : Text.isIdentifier other = true) :
    (productPath output widget target).names ≠ (draftPath output other target').names := by
  intro hnames
  have hending := Path.ending?_congr hnames
  rw [ending?_productPath h, ending?_draftPath hother] at hending
  cases hending

end

end Paths

/-! ## Storing files -/

def placeOf (output : Path) (x : SourceTarget × Source.File) : Path :=
  (targetDirectory output x.1).join x.2.name

def draftOf (output : Path) (x : SourceTarget × Source.File) : Path :=
  (targetDirectory output x.1).join ("." ++ x.2.name ++ ".tmp")

/-- What comes of a file that is stored on a map of files. -/
def product (output : Path) (fs : FileMap) (x : SourceTarget × Source.File) : Product where
  target := x.1
  path := placeOf output x
  status := if fs.get? (placeOf output x) = some x.2.contents then .unchanged else .written

def store (output : Path) (fs : FileMap) (x : SourceTarget × Source.File) : FileMap :=
  if fs.get? (placeOf output x) = some x.2.contents then fs
  else ((fs.put (draftOf output x) x.2.contents).remove (draftOf output x)).put
    (placeOf output x) x.2.contents

/-- Neither file lies where the other one is stored. -/
def Apart (output : Path) (x y : SourceTarget × Source.File) : Prop :=
  (placeOf output x).names ≠ (placeOf output y).names ∧
    (placeOf output x).names ≠ (draftOf output y).names ∧
      (placeOf output y).names ≠ (draftOf output x).names

section Storing

variable {output p : Path} {fs s : FileMap} {x : SourceTarget × Source.File}
  {files : List (SourceTarget × Source.File)} {widget : String} {y : SourceTarget × Source.File}

theorem placeOf_eq (h : x.2.name = Source.File.nameOf widget x.1) :
    placeOf output x = productPath output widget x.1 := by
  rw [placeOf, h, productPath]

theorem draftOf_eq (h : x.2.name = Source.File.nameOf widget x.1) :
    draftOf output x = draftPath output widget x.1 := by
  rw [draftOf, h, draftPath]

/-- Files of two widgets are apart, and so are those of one widget for two targets. -/
theorem apart_of_ne {other : String} (h : Text.isIdentifier widget = true)
    (hother : Text.isIdentifier other = true) (hx : x.2.name = Source.File.nameOf widget x.1)
    (hy : y.2.name = Source.File.nameOf other y.1) (hne : widget = other → x.1 ≠ y.1) :
    Apart output x y := by
  rw [Apart, placeOf_eq hx, placeOf_eq hy, draftOf_eq hx, draftOf_eq hy]
  refine ⟨?_, productPath_ne_draftPath h hother, productPath_ne_draftPath hother h⟩
  intro hnames
  obtain ⟨hwidget, htarget⟩ := productPath_inj h hother hnames
  exact hne hwidget htarget

theorem store_of_stored (h : s.get? (placeOf output x) = some x.2.contents) :
    store output s x = s := if_pos h

theorem get?_store_self (output : Path) (s : FileMap) (x : SourceTarget × Source.File) :
    (store output s x).get? (placeOf output x) = some x.2.contents := by
  unfold store
  split
  · assumption
  · rw [FileMap.get?_put, if_pos rfl]

theorem get?_store_of_ne (hplace : p.names ≠ (placeOf output x).names)
    (hdraft : p.names ≠ (draftOf output x).names) : (store output s x).get? p = s.get? p := by
  unfold store
  split
  · rfl
  · rw [FileMap.get?_put, if_neg hplace, FileMap.get?_remove, if_neg hdraft, FileMap.get?_put,
      if_neg hdraft]

theorem Apart.get?_store (h : Apart output x y) :
    (store output s x).get? (placeOf output y) = s.get? (placeOf output y) :=
  get?_store_of_ne h.1.symm h.2.2

theorem reaches_attempt {α : Type} (context : String) {op : StateM FileMap (Except SystemError α)}
    {a : α} {s' : FileMap} (h : op.run s = (.ok a, s')) : Reaches (attempt context op) s a s' :=
  Reaches.bind (reaches_lift h) (reaches_pure a s')

theorem reaches_replace (order : List Path → List Path) (s : FileMap) (draft place : Path)
    (text context context' : String) :
    Reaches (do
      attempt context ((FileMap.disk order).write draft text)
      attempt context' ((FileMap.disk order).rename draft place)
      return Status.written) s .written (((s.put draft text).remove draft).put place text) := by
  refine (reaches_attempt context rfl).bind ?_
  refine Reaches.bind (a := ()) (reaches_attempt context' ?_) (reaches_pure Status.written _)
  exact s.move_put draft place text

theorem reaches_writeIfChanged (order : List Path → List Path) (output : Path) (s : FileMap)
    (x : SourceTarget × Source.File) :
    Reaches (writeIfChanged (FileMap.disk order) (targetDirectory output x.1) x.2) s
      (product output s x).status (store output s x) := by
  unfold writeIfChanged
  refine Reaches.bind (reaches_lift rfl) ?_
  by_cases hstored : s.get? (placeOf output x) = some x.2.contents
  · have hread := FileMap.read_eq_ok_iff.mpr hstored
    rw [placeOf] at hread
    simp only [hread, if_true, product, store, if_pos hstored]
    exact reaches_pure _ _
  · simp only [product, store, if_neg hstored]
    cases hread : s.read ((targetDirectory output x.1).join x.2.name) with
    | error e => exact reaches_replace order s _ _ _ _ _
    | ok text =>
      have htext : text ≠ x.2.contents := by
        rintro rfl
        exact hstored (FileMap.read_eq_ok_iff.mp hread)
      simp only [if_neg htext]
      exact reaches_replace order s _ _ _ _ _

/-- Files whose places are apart get the status they would get alone. -/
theorem reaches_writeAll (order : List Path → List Path) (hapart : files.Pairwise (Apart output))
    (hs : ∀ x ∈ files, s.get? (placeOf output x) = fs.get? (placeOf output x)) :
    Reaches (writeAll (FileMap.disk order) output files) s (files.map (product output fs))
      (files.foldl (store output) s) := by
  refine reaches_mapM (fun x s => s.get? (placeOf output x) = fs.get? (placeOf output x)) ?_ ?_ hs
  · intro x s hx
    refine (reaches_writeIfChanged order output s x).bind ?_
    rw [product, hx]
    exact reaches_pure _ _
  · refine hapart.imp fun hxy s hy => ?_
    rw [hxy.get?_store, hy]

/-- What is stored changes no other path, and none at all where the text was there before. -/
theorem get?_foldl_store (hapart : files.Pairwise (Apart output))
    (h : ∀ x ∈ files, s.get? (placeOf output x) ≠ some x.2.contents →
      p.names ≠ (placeOf output x).names ∧ p.names ≠ (draftOf output x).names) :
    (files.foldl (store output) s).get? p = s.get? p := by
  induction files generalizing s with
  | nil => rfl
  | cons x files ih =>
    obtain ⟨hfirst, hrest⟩ := pairwise_cons.mp hapart
    have hothers := fun y hy => h y (mem_cons_of_mem x hy)
    rw [foldl_cons]
    by_cases hx : s.get? (placeOf output x) = some x.2.contents
    · rw [store_of_stored hx]
      exact ih hrest hothers
    · obtain ⟨hplace, hdraft⟩ := h x mem_cons_self hx
      rw [ih hrest, get?_store_of_ne hplace hdraft]
      intro y hy hstored
      rw [(hfirst y hy).get?_store] at hstored
      exact hothers y hy hstored

theorem get?_foldl_store_of_mem (hapart : files.Pairwise (Apart output)) (hx : x ∈ files) :
    (files.foldl (store output) s).get? (placeOf output x) = some x.2.contents := by
  induction files generalizing s with
  | nil => cases hx
  | cons y files ih =>
    obtain ⟨hfirst, hrest⟩ := pairwise_cons.mp hapart
    rw [foldl_cons]
    rcases mem_cons.mp hx with rfl | hx
    · rw [get?_foldl_store hrest fun y hy _ => ⟨(hfirst y hy).1, (hfirst y hy).2.1⟩, get?_store_self]
    · exact ih hrest hx

theorem foldl_store_of_stored
    (h : ∀ x ∈ files, s.get? (placeOf output x) = some x.2.contents) :
    files.foldl (store output) s = s := by
  induction files with
  | nil => rfl
  | cons x files ih =>
    rw [foldl_cons, store_of_stored (h x mem_cons_self)]
    exact ih fun y hy => h y (mem_cons_of_mem x hy)

end Storing

end Widgetry.Batch
