import Widgetry.Files.Path
import Widgetry.Platform
import Widgetry.Source.File

/-!
# Command lines

An option is written `--name value`, `--name=value`, `-n value`, `-n=value` or `-nvalue`; flags of one
letter may stand together. Arguments are read from left to right and the first fault, or the first
request for help or the version, decides.
-/

namespace Widgetry.Command

inductive UsageError where
  | unexpected (argument : String)
  | noValue (option : String)
  | unneededValue (option : String)
  | invalidValue (option value : String)
  | repeated (option : String)
  | required (options : List String)
deriving DecidableEq, Repr

def UsageError.message : UsageError → String
  | .unexpected argument => "unexpected argument '" ++ argument ++ "' found"
  | .noValue option => "a value is required for '" ++ option ++ "' but none was supplied"
  | .unneededValue option => "unexpected value for '" ++ option ++ "' found"
  | .invalidValue option value => "invalid value '" ++ value ++ "' for '" ++ option ++ "'"
  | .repeated option => "the argument '" ++ option ++ "' cannot be used multiple times"
  | .required options =>
      "the following required arguments were not provided: " ++ Text.joinWith ", " options

inductive Action (σ : Type) where
  | value (store : String → σ → Except UsageError σ)
  | flag (mark : σ → Except UsageError σ)
  | help
  | version

structure Switch (σ : Type) where
  long : String
  short : Option Char
  action : Action σ

inductive Reading (σ : Type) where
  | done (settings : σ)
  | help
  | version

/-- Where one argument leaves the reader: perhaps an option waits for its value. -/
inductive Step (σ : Type) where
  | next (settings : σ)
  | await (option : String) (store : String → σ → Except UsageError σ) (settings : σ)
  | help
  | version

section

variable {σ : Type}

/-- An argument of the form `--name` or `--name=value`. -/
def readLong (switches : List (Switch σ)) (s : σ) (name : String) (value : Option String) :
    Except UsageError (Step σ) :=
  let shown := "--" ++ name
  match (switches.find? (·.long == name)).map Switch.action, value with
  | none, _ => .error (.unexpected shown)
  | some (.value store), some v => do return .next (← store v s)
  | some (.value store), none => .ok (.await shown store s)
  | some _, some _ => .error (.unneededValue shown)
  | some (.flag mark), none => do return .next (← mark s)
  | some .help, none => .ok .help
  | some .version, none => .ok .version

/-- The letters of an argument after `-`. -/
def readShort (switches : List (Switch σ)) : σ → List Char → Except UsageError (Step σ)
  | s, [] => .ok (.next s)
  | s, c :: rest =>
      let shown := "-" ++ c.toString
      match (switches.find? (·.short == some c)).map Switch.action with
      | none => .error (.unexpected shown)
      | some (.value store) =>
          match rest with
          | [] => .ok (.await shown store s)
          | '=' :: v => do return .next (← store (String.ofList v) s)
          | v => do return .next (← store (String.ofList v) s)
      | some (.flag mark) => do readShort switches (← mark s) rest
      | some .help => .ok .help
      | some .version => .ok .version

def readOne (switches : List (Switch σ)) (s : σ) (argument : String) :
    Except UsageError (Step σ) :=
  match argument.toList with
  | '-' :: '-' :: letters =>
      match letters.dropWhile (· != '=') with
      | [] => readLong switches s (String.ofList letters) none
      | _ :: v => readLong switches s (String.ofList (letters.takeWhile (· != '='))) (String.ofList v)
  | '-' :: c :: letters => readShort switches s (c :: letters)
  | _ => .error (.unexpected argument)

/-- A dash and more begin an option; a dash alone is a value. -/
def isOption (argument : String) : Bool :=
  match argument.toList with
  | '-' :: _ :: _ => true
  | _ => false

/-- Reads arguments from settings to settings. After `--` nothing may follow, since no command takes
arguments without a name. -/
def readAll (switches : List (Switch σ)) (s : σ) : List String → Except UsageError (Reading σ)
  | [] => .ok (.done s)
  | ["--"] => .ok (.done s)
  | "--" :: argument :: _ => .error (.unexpected argument)
  | argument :: rest => do
      match ← readOne switches s argument, rest with
      | .next s, rest => readAll switches s rest
      | .help, _ => return .help
      | .version, _ => return .version
      | .await option _ _, [] => .error (.noValue option)
      | .await option store s, value :: rest =>
          if isOption value then .error (.noValue option)
          else readAll switches (← store value s) rest

end

/-! ## Values -/

def once {α : Type} (option : String) (current : Option α) (new : α) :
    Except UsageError (Option α) :=
  match current with
  | none => .ok (some new)
  | some _ => .error (.repeated option)

def toPath (option value : String) : Except UsageError Path :=
  if value.isEmpty then .error (.noValue option) else .ok ⟨value⟩

def toNatFrom : Nat → List Char → Option Nat
  | n, [] => some n
  | n, c :: cs => if c.isDigit then toNatFrom (10 * n + (c.toNat - '0'.toNat)) cs else none

/-- A count of 64 bits, perhaps after a plus sign. -/
def toCount? (value : String) : Option Nat :=
  let digits := match value.toList with
    | '+' :: cs => cs
    | cs => cs
  if digits.isEmpty then none else (toNatFrom 0 digits).filter (· < UInt64.size)

def toTargets? : String → Option (List SourceTarget)
  | "glance" => some [.glance]
  | "swiftui" => some [.swiftUI]
  | "all" => some SourceTarget.all
  | _ => none

def checkedValue {α : Type} (option value : String) : Option α → Except UsageError α
  | some a => .ok a
  | none => .error (.invalidValue option value)

/-! ## Commands -/

structure GenerateDraft where
  input : Option Path := none
  output : Option Path := none
  widgets : List String := []
  targets : Option (List SourceTarget) := none
  style : Option Path := none
  package : Option String := none
  jobs : Option Nat := none
  verbose : Option Unit := none

structure GenerateOptions where
  input : Path
  output : Path
  widgets : List String
  targets : List SourceTarget
  style : Option Path
  package : String
  jobs : Option Nat
  verbose : Bool

def GenerateDraft.finish (d : GenerateDraft) : GenerateOptions where
  input := d.input.getD ⟨"layouts"⟩
  output := d.output.getD ⟨"generated"⟩
  widgets := d.widgets
  targets := d.targets.getD SourceTarget.all
  style := d.style
  package := d.package.getD Source.defaultPackage
  jobs := d.jobs
  verbose := d.verbose.isSome

def generateSwitches : List (Switch GenerateDraft) := [
  ⟨"input", some 'i', .value fun v d => do
    return { d with input := ← once "--input" d.input (← toPath "--input" v) }⟩,
  ⟨"output", some 'o', .value fun v d => do
    return { d with output := ← once "--output" d.output (← toPath "--output" v) }⟩,
  ⟨"widget", some 'w', .value fun v d => .ok { d with widgets := d.widgets ++ [v] }⟩,
  ⟨"platform", some 'p', .value fun v d => do
    return { d with
      targets := ← once "--platform" d.targets (← checkedValue "--platform" v (toTargets? v)) }⟩,
  ⟨"style", none, .value fun v d => do
    return { d with style := ← once "--style" d.style (← toPath "--style" v) }⟩,
  ⟨"kotlin-package", none, .value fun v d => do
    return { d with package := ← once "--kotlin-package" d.package v }⟩,
  ⟨"jobs", some 'j', .value fun v d => do
    return { d with jobs := ← once "--jobs" d.jobs (← checkedValue "--jobs" v (toCount? v)) }⟩,
  ⟨"verbose", some 'v', .flag fun d => do
    return { d with verbose := ← once "--verbose" d.verbose () }⟩,
  ⟨"help", some 'h', .help⟩,
  ⟨"version", some 'V', .version⟩]

structure PreviewDraft where
  layout : Option Path := none
  data : Option Path := none
  settings : Option Path := none
  size : Option String := none
  out : Option Path := none
  style : Option Path := none
  verbose : Option Unit := none

structure PreviewOptions where
  layout : Path
  data : Path
  settings : Option Path
  size : Option String
  out : Path
  style : Option Path
  verbose : Bool

def PreviewDraft.finish (d : PreviewDraft) : Except UsageError PreviewOptions :=
  match d.layout, d.data, d.out with
  | some layout, some data, some out =>
      .ok ⟨layout, data, d.settings, d.size, out, d.style, d.verbose.isSome⟩
  | layout, data, out =>
      let missing := [("--layout", layout), ("--data", data), ("--out", out)].filter (·.2.isNone)
      .error (.required (missing.map Prod.fst))

def previewSwitches : List (Switch PreviewDraft) := [
  ⟨"layout", none, .value fun v d => do
    return { d with layout := ← once "--layout" d.layout (← toPath "--layout" v) }⟩,
  ⟨"data", none, .value fun v d => do
    return { d with data := ← once "--data" d.data (← toPath "--data" v) }⟩,
  ⟨"settings", none, .value fun v d => do
    return { d with settings := ← once "--settings" d.settings (← toPath "--settings" v) }⟩,
  ⟨"size", none, .value fun v d => do
    return { d with size := ← once "--size" d.size v }⟩,
  ⟨"out", none, .value fun v d => do
    return { d with out := ← once "--out" d.out (← toPath "--out" v) }⟩,
  ⟨"style", none, .value fun v d => do
    return { d with style := ← once "--style" d.style (← toPath "--style" v) }⟩,
  ⟨"verbose", some 'v', .flag fun d => do
    return { d with verbose := ← once "--verbose" d.verbose () }⟩,
  ⟨"help", some 'h', .help⟩]

inductive Request where
  | generate (options : GenerateOptions)
  | preview (options : PreviewOptions)
  | help
  | version

/-- Reads a command line. A command is named by the first argument only. -/
def Request.parse : List String → Except UsageError Request
  | "preview" :: arguments => do
      match ← readAll previewSwitches {} arguments with
      | .done d => return .preview (← d.finish)
      | .help => return .help
      | .version => return .version
  | ["help"] => .ok .help
  | ["help", "preview"] => .ok .help
  | ["help", "help"] => .ok .help
  | "help" :: argument :: _ => .error (.unexpected argument)
  | arguments => do
      match ← readAll generateSwitches {} arguments with
      | .done d => return .generate d.finish
      | .help => return .help
      | .version => return .version

end Widgetry.Command
