import Widgetry.Batch
import Widgetry.Command.Arguments
import Widgetry.Style.Reader
import Widgetry.View.Preview

/-!
# Running commands

A command reads and writes a disk and answers with what it prints and its exit code: 0 if all went
well, 1 if a widget failed and 2 if the run could not start.
-/

namespace Widgetry.Command

/-- What a command prints to its two outputs, and its exit code. -/
structure Answer where
  exit : UInt8
  out : List String := []
  err : List String := []
  usage : Bool := false

abbrev Trail := List String

section

variable {m : Type → Type} [Monad m]

def attempt {α : Type} (context : Trail) (op : m (Except SystemError α)) : ExceptT Trail m α := do
  match ← op with
  | .ok a => return a
  | .error e => throw (context ++ [e.message])

def within {α : Type} (context : Trail) : Except Error α → ExceptT Trail m α
  | .ok a => return a
  | .error e => throw (context ++ e.chain)

def quote (p : Path) : String := "'" ++ p.text ++ "'"

def loadStyle (disk : Disk m) : Option Path → ExceptT Trail m Style
  | none => return Style.builtin
  | some p => do
      let context := "load style config " ++ quote p
      let text ← attempt [context, "read style config " ++ quote p] (disk.read p)
      within [context] (Style.parse text)

/-! ## Sources -/

def productLine (p : Batch.Product) : String :=
  match p.status with
  | .written => "wrote " ++ p.path.text
  | .unchanged => "unchanged " ++ p.path.text

def entryLines (e : Batch.Entry) : List String :=
  match e.result with
  | .ok products => products.map productLine
  | .error error => ["error: " ++ error.message]

def summary (r : Batch.Report) : String :=
  toString r.entries.length ++ " widget(s): " ++ toString (r.count .written) ++ " written, "
    ++ toString (r.count .unchanged) ++ " unchanged, " ++ toString r.failures.length ++ " failed"

def reportLines (input : Path) (r : Batch.Report) : List String :=
  (if r.entries.isEmpty then ["no layouts found in " ++ input.text] else [])
    ++ r.entries.flatMap entryLines ++ [summary r]

def generate (disk : Disk m) (o : GenerateOptions) : ExceptT Trail m Answer := do
  let style ← loadStyle disk o.style
  if !(← disk.isDirectory o.input) then
    throw ["input directory " ++ quote o.input ++ " does not exist"]
  let options : Batch.Options := ⟨o.targets, o.widgets, o.jobs, o.package⟩
  match ← (Batch.run disk o.input o.output style options).run with
  | .error e => throw e.chain
  | .ok report =>
      return { exit := if report.isSuccess then 0 else 1, err := reportLines o.input report }

/-! ## Previews -/

def readJson (disk : Disk m) (p : Path) : ExceptT Trail m Json := do
  let text ← attempt ["read " ++ quote p] (disk.read p)
  match Json.parse Json.depthLimit text with
  | .ok j => return j
  | .error e => throw ["parse JSON " ++ quote p, e.message]

def readSettings (disk : Disk m) : Option Path → ExceptT Trail m (Table String Json)
  | none => return []
  | some p => do
      match ← readJson disk p with
      | .object fields => return fields
      | j =>
          throw ["settings " ++ quote p ++ " must be a JSON object",
            (Json.ShapeError.wrongType j.describe "a map").message]

def pickSize (l : Layout) : Option String → ExceptT Trail m Size
  | some id =>
      match l.size? id with
      | some s => return s.size
      | none => throw ["layout '" ++ l.name ++ "' declares no size '" ++ id ++ "'"]
  | none =>
      match l.sizesByArea with
      | s :: _ => return s.size
      | [] => throw ["layout '" ++ l.name ++ "' declares no sizes"]

def prepareParent (disk : Disk m) (p : Path) : ExceptT Trail m Unit := do
  match p.parent? with
  | none => return
  | some parent =>
      if !parent.text.isEmpty then
        attempt ["create output dir " ++ quote parent] (disk.createDirectories parent)

def preview (disk : Disk m) (o : PreviewOptions) : ExceptT Trail m Answer := do
  let style ← loadStyle disk o.style
  let text ← attempt ["read layout " ++ quote o.layout] (disk.read o.layout)
  let layout ← within ["load layout " ++ quote o.layout] (Layout.parse text)
  let settings ← readSettings disk o.settings
  let data ← readJson disk o.data
  let size ← pickSize layout o.size
  let page ← within [] (Preview.page style layout size ⟨data, settings⟩)
  prepareParent disk o.out
  attempt ["write preview " ++ quote o.out] (disk.write o.out page)
  return { exit := 0, err := ["wrote " ++ o.out.text] }

/-! ## Command lines -/

def helpLines : List String := [
  "Compile JSON widget layouts to Glance and SwiftUI sources",
  "",
  "Usage: widgetc [OPTIONS]",
  "       widgetc <COMMAND>",
  "",
  "Commands:",
  "  preview  Render one layout to a standalone HTML preview page",
  "  help     Print this message or the help of the given subcommand(s)",
  "",
  "Options:",
  "  -i, --input <INPUT>                    Directory searched recursively for layout JSON files",
  "  -o, --output <OUTPUT>                  Output directory",
  "  -w, --widget <WIDGETS>                 Only generate these widgets",
  "  -p, --platform <PLATFORM>              Target platform: glance, swiftui or all",
  "      --style <STYLE>                    Style configuration JSON",
  "      --kotlin-package <KOTLIN_PACKAGE>  Package of generated Kotlin files",
  "  -j, --jobs <JOBS>                      Worker threads",
  "  -v, --verbose                          Log library events to stderr",
  "  -h, --help                             Print help",
  "  -V, --version                          Print version"]

/-- Runs a request; a failure is told with all its causes. -/
def answer (disk : Disk m) : Request → m Answer
  | .help => return { exit := 0, out := helpLines }
  | .version => return { exit := 0, out := ["widgetc 0.1.0"] }
  | .generate o => do return told (← (generate disk o).run)
  | .preview o => do return told (← (preview disk o).run)
where
  told : Except Trail Answer → Answer
    | .ok a => a
    | .error trail => { exit := 2, err := ["error: " ++ Text.joinWith ": " trail] }

def run (disk : Disk m) (arguments : List String) : m Answer :=
  match Request.parse arguments with
  | .ok request => answer disk request
  | .error e => return { exit := 2, err := ["error: " ++ e.message], usage := true }

end

end Widgetry.Command
