import Widgetry.Files.Disk
import Widgetry.Table

/-!
# File trees in memory

A tree of directories and files with the rules a file system has for paths: every step of a walk but
the last needs a directory, `.` stays and `..` goes up.
-/

namespace Widgetry

inductive FileTree where
  | file (content : ByteArray)
  | directory (entries : List (String × FileTree))

instance : Inhabited FileTree := ⟨.directory []⟩

namespace FileTree

def empty : FileTree := .directory []

def get? : FileTree → List String → Option FileTree
  | t, [] => some t
  | .file _, _ :: _ => none
  | .directory entries, name :: rest =>
      match Table.get? entries name with
      | some t => t.get? rest
      | none => none

/-- Puts a tree under a list of names; missing directories are made. -/
def put (new : FileTree) : FileTree → List String → FileTree
  | _, [] => new
  | .file _, name :: rest => .directory [(name, put new empty rest)]
  | .directory entries, name :: rest =>
      .directory (Table.insert entries name (put new ((Table.get? entries name).getD empty) rest))

def remove : FileTree → List String → FileTree
  | .directory entries, [name] => .directory (Table.erase entries name)
  | .directory entries, name :: rest =>
      match Table.get? entries name with
      | some t => .directory (Table.insert entries name (t.remove rest))
      | none => .directory entries
  | t, _ => t

mutual

def files (place : Path) : FileTree → List (Path × ByteArray)
  | .file content => [(place, content)]
  | .directory entries => entryFiles place entries

def entryFiles (place : Path) : List (String × FileTree) → List (Path × ByteArray)
  | [] => []
  | (name, t) :: rest => files (place.join name) t ++ entryFiles place rest

end

def nameLimit : Nat := 255

/-- The names at which a walk from a directory ends. Its last step may lead to a new name. -/
def locate (t : FileTree) : List String → List String → Except SystemError (List String)
  | here, [] => .ok here
  | here, step :: rest =>
      if step = "." then locate t here rest
      else if step = ".." then locate t here.dropLast rest
      else if nameLimit < step.utf8ByteSize then .error .nameTooLong
      else
        let next := here ++ [step]
        match t.get? next, rest with
        | some (.directory _), _ => locate t next rest
        | _, [] => .ok next
        | some (.file _), _ :: _ => .error .notDirectory
        | none, _ :: _ => .error .missing

def resolve (t : FileTree) (p : Path) : Except SystemError (List String) :=
  if p.text.isEmpty then .error .missing else t.locate [] p.steps

def lookup (t : FileTree) (p : Path) : Except SystemError FileTree := do
  match t.get? (← t.resolve p) with
  | some found => .ok found
  | none => .error .missing

def isDirectory (t : FileTree) (p : Path) : Bool :=
  match t.lookup p with
  | .ok (.directory _) => true
  | _ => false

def read (t : FileTree) (p : Path) : Except SystemError String := do
  match ← t.lookup p with
  | .directory _ => .error .isDirectory
  | .file content =>
      match String.fromUTF8? content with
      | some text => .ok text
      | none => .error .notText

def filesBelow (t : FileTree) (p : Path) : Except (Path × SystemError) (List Path) :=
  match t.lookup p with
  | .ok (.directory entries) => .ok ((entryFiles p entries).map Prod.fst)
  | .ok (.file _) => .error (p, .notDirectory)
  | .error e => .error (p, e)

def createDirectory (t : FileTree) (steps : List String) : Except SystemError FileTree := do
  let place ← t.locate [] steps
  match t.get? place with
  | some _ => .error .alreadyThere
  | none => .ok (put empty t place)

def ensureDirectory (t : FileTree) (steps : List String) : Except SystemError FileTree :=
  match t.createDirectory steps with
  | .ok made => .ok made
  | .error e =>
      match t.locate [] steps with
      | .ok place =>
          match t.get? place with
          | some (.directory _) => .ok t
          | _ => .error e
      | .error _ => .error e

/-- Makes a directory and those above it. The steps are in reverse order. Directories that were made
stay when a later one fails. -/
def createAbove (t : FileTree) : List String → FileTree × Except SystemError Unit
  | [] => (t, .ok ())
  | step :: above =>
      match t.ensureDirectory (step :: above).reverse with
      | .ok made => (made, .ok ())
      | .error .missing =>
          match t.createAbove above with
          | (made, .error e) => (made, .error e)
          | (made, .ok ()) =>
              match made.ensureDirectory (step :: above).reverse with
              | .ok whole => (whole, .ok ())
              | .error e => (made, .error e)
      | .error e => (t, .error e)

def write (t : FileTree) (p : Path) (text : String) : Except SystemError FileTree := do
  let place ← if p.endsInSlash then t.locate [] p.steps.dropLast else t.resolve p
  match t.get? place with
  | some (.directory _) => .error .isDirectory
  | some (.file _) =>
      if p.endsInSlash then .error .notDirectory else .ok (put (.file text.toUTF8) t place)
  | none => if p.endsInSlash then .error .isDirectory else .ok (put (.file text.toUTF8) t place)

def rename (t : FileTree) (source target : Path) : Except SystemError FileTree := do
  let start ← t.resolve source
  let goal ← t.resolve target
  match t.get? start, t.get? goal with
  | none, _ => .error .missing
  | some _, some (.directory _) => .error .isDirectory
  | some moved, _ => .ok (put moved (t.remove start) goal)

/-- Runs an operation that leaves the tree alone when it fails. -/
def update (op : FileTree → Except SystemError FileTree) : StateM FileTree (Except SystemError Unit) :=
  fun t =>
    match op t with
    | .ok next => (.ok (), next)
    | .error e => (.error e, t)

def disk : Disk (StateM FileTree) where
  isDirectory p := fun t => (t.isDirectory p, t)
  filesBelow p := fun t => (t.filesBelow p, t)
  read p := fun t => (t.read p, t)
  createDirectories p := fun t =>
    match t.createAbove p.names.reverse with
    | (next, result) => (result, next)
  write p text := update (·.write p text)
  rename source target := update (·.rename source target)

end FileTree

end Widgetry
