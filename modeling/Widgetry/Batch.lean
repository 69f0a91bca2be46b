import Widgetry.Files.Disk
import Widgetry.Layout.Reader
import Widgetry.Source.File

/-!
# Batches

A batch reads every layout below a directory and writes the sources of the selected widgets.
Widgets are independent of each other: a widget that fails writes nothing and stops no other. Only
a name that two selected layouts declare fails both, since both would have the same files.
-/

namespace Widgetry

namespace Batch

/-- What a run covers; no widgets means all of them. -/
structure Options where
  targets : List SourceTarget := SourceTarget.all
  widgets : List String := []
  jobs : Option Nat := none
  package : String := Source.defaultPackage

inductive Status where
  | written
  | unchanged
deriving DecidableEq, Repr

structure Product where
  target : SourceTarget
  path : Path
  status : Status
deriving DecidableEq, Repr

/-- What became of a layout file, or of a requested widget that no file declares. -/
structure Entry where
  source : Path
  widget : String
  result : Except Error (List Product)

structure Report where
  entries : List Entry

namespace Report

def failures (r : Report) : List (String × Error) :=
  r.entries.filterMap fun e =>
    match e.result with
    | .error error => some (e.widget, error)
    | .ok _ => none

def products (r : Report) : List Product :=
  r.entries.flatMap fun e =>
    match e.result with
    | .ok products => products
    | .error _ => []

def count (r : Report) (status : Status) : Nat :=
  r.products.countP (·.status = status)

def isSuccess (r : Report) : Bool := r.failures.isEmpty

end Report

/-! ## Layout files -/

/-- The layout files among the files below a directory, by the names on their paths. -/
def layoutFiles (files : List Path) : List Path :=
  (files.filter (·.extension? == some "json")).mergeSort fun a b => Path.namesUpTo a.names b.names

/-- A layout file, read or not, and the name its widget goes by if it was not. -/
structure Candidate where
  source : Path
  stem : String
  layout : Except Error Layout

namespace Candidate

def ofText (source : Path) (text : Except SystemError String) : Candidate where
  source := source
  stem := source.stem
  layout :=
    match text with
    | .ok text => Layout.parse text
    | .error e => .error (.system ("read layout '" ++ source.text ++ "'") e.message)

def name? (c : Candidate) : Option String :=
  match c.layout with
  | .ok l => some l.name
  | .error _ => none

def isCalled (c : Candidate) (widget : String) : Bool :=
  widget == c.stem || c.name? == some widget

end Candidate

def select (widgets : List String) (cs : List Candidate) : List Candidate :=
  if widgets.isEmpty then cs else cs.filter fun c => widgets.any c.isCalled

def unmatched (widgets : List String) (cs : List Candidate) : List String :=
  widgets.filter fun w => !cs.any (·.isCalled w)

/-- Fails a candidate whose name another one declares too. -/
def refuseShared (input : Path) (cs : List Candidate) (c : Candidate) : Candidate :=
  match c.name? with
  | none => c
  | some name =>
      match cs.filter (·.name? == some name) with
      | _ :: _ :: _ =>
          let sources := (cs.filter (·.name? == some name)).map (input.below ·.source)
          { c with
            stem := name
            layout := .error (.schema (Location.root.field "name")
              (.nameDeclaredTwice name sources)) }
      | _ => c

/-- Names pick files, so a name may be declared once. -/
def refuseAllShared (input : Path) (cs : List Candidate) : List Candidate :=
  cs.map (refuseShared input cs)

/-- The sources of a widget, all of them before any is written. -/
def generate (style : Style) (o : Options) (l : Layout) :
    Except Error (List (SourceTarget × Source.File)) :=
  o.targets.mapM fun target => do return (target, ← Source.File.generate style o.package target l)

def targetDirectory (output : Path) (target : SourceTarget) : Path :=
  output.join target.platform.name

/-! ## Runs -/

section

variable {m : Type → Type} [Monad m]

/-- An operation of the disk, with what it was for if it fails. -/
def attempt {α : Type} (context : String) (op : m (Except SystemError α)) : ExceptT Error m α := do
  match ← op with
  | .ok a => return a
  | .error e => throw (.system context e.message)

def discover (disk : Disk m) (input : Path) : ExceptT Error m (List Path) := do
  match ← disk.filesBelow input with
  | .ok files => return layoutFiles files
  | .error (directory, e) =>
      throw (.system ("read layout directory '" ++ directory.text ++ "'") e.message)

/-- Writes a file whole or not at all, and not if it holds the contents already. -/
def writeIfChanged (disk : Disk m) (directory : Path) (file : Source.File) :
    ExceptT Error m Status := do
  let path := directory.join file.name
  if let .ok existing ← disk.read path then
    if existing = file.contents then return .unchanged
  let draft := directory.join ("." ++ file.name ++ ".tmp")
  attempt ("write '" ++ draft.text ++ "'") (disk.write draft file.contents)
  attempt ("replace '" ++ path.text ++ "'") (disk.rename draft path)
  return .written

def writeAll (disk : Disk m) (output : Path) (files : List (SourceTarget × Source.File)) :
    ExceptT Error m (List Product) :=
  files.mapM fun (target, file) => do
    let directory := targetDirectory output target
    let status ← writeIfChanged disk directory file
    return ⟨target, directory.join file.name, status⟩

def Candidate.process (disk : Disk m) (output : Path) (style : Style) (o : Options)
    (c : Candidate) : m Entry := do
  match c.layout with
  | .error e => return ⟨c.source, c.stem, .error (e.inWidget c.stem)⟩
  | .ok l =>
      match generate style o l with
      | .error e => return ⟨c.source, l.name, .error (e.inWidget l.name)⟩
      | .ok files =>
          match ← (writeAll disk output files).run with
          | .error e => return ⟨c.source, l.name, .error (e.inWidget l.name)⟩
          | .ok products => return ⟨c.source, l.name, .ok products⟩

def Entry.ofUnmatched (input : Path) (widget : String) : Entry :=
  ⟨input, widget, .error (Error.inWidget widget (.config (.noLayout widget)))⟩

def run (disk : Disk m) (input output : Path) (style : Style) (o : Options) :
    ExceptT Error m Report := do
  let sources ← discover disk input
  if o.jobs = some 0 then throw (.config .noJobs)
  for target in o.targets do
    let directory := targetDirectory output target
    attempt ("create output directory '" ++ directory.text ++ "'")
      (disk.createDirectories directory)
  let candidates ← sources.mapM fun source => do
    return Candidate.ofText source (← disk.read source)
  let selected := refuseAllShared input (select o.widgets candidates)
  let entries ← selected.mapM fun c => (c.process disk output style o : m Entry)
  return ⟨entries ++ (unmatched o.widgets candidates).map (Entry.ofUnmatched input)⟩

end

end Batch

end Widgetry
