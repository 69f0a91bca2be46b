import Widgetry.Source.Emission
import Widgetry.Source.SwiftCode

/-!
# Swift files

A SwiftUI widget: a view with a function that picks a size, a property for each size, and the helpers
they call.
-/

namespace Widgetry.Source.Swift

/-- The start of an axis, where nothing else is said. -/
def startOf (style : Style) (axis : Axis) : String := (style.alignment? .swiftUI axis .start).getD ""

/-- The line that applies a layout modifier; others are applied elsewhere. -/
def layoutLine? (m : Modifier Code) : Option String :=
  match m.value with
  | .native _ => none
  | .flag =>
      match m.property with
      | .fillWidth => some ".frame(maxWidth: .infinity)"
      | .fillHeight => some ".frame(maxHeight: .infinity)"
      | _ => none
  | .computed c =>
      match m.property with
      | .padding => some (".padding(" ++ c.text ++ ")")
      | .paddingHorizontal => some (".padding(.horizontal, " ++ c.text ++ ")")
      | .paddingVertical => some (".padding(.vertical, " ++ c.text ++ ")")
      | .width => some (".frame(width: " ++ c.text ++ ")")
      | .height => some (".frame(height: " ++ c.text ++ ")")
      | .backgroundColor => some (".background(" ++ c.text ++ ")")
      | .cornerRadius => some (".cornerRadius(" ++ c.text ++ ")")
      | _ => none

def modifierLines (lines : List String) : List Directive :=
  if lines.isEmpty then [] else [.indent] ++ lines.map .line ++ [.dedent]

def stackOpening (style : Style) (kind : Kind) (mods : List (Modifier Code)) : String × Flow :=
  let spacing := (computedText? mods .spacing).getD "0"
  let h := (Modifier.native? mods .alignment).getD (startOf style .horizontal)
  let v := (Modifier.native? mods .crossAlignment).getD (startOf style .vertical)
  match kind with
  | .row => ("HStack(alignment: " ++ v ++ ", spacing: " ++ spacing ++ ") \x7b", .horizontal)
  | .stack =>
      ("ZStack(alignment: Alignment(horizontal: " ++ h ++ ", vertical: " ++ v ++ ")) \x7b", .overlay)
  | _ => ("VStack(alignment: " ++ h ++ ", spacing: " ++ spacing ++ ") \x7b", .vertical)

def along (horizontal : Bool) : Kind := if horizontal then .row else .column

def weightText? (mods : List (Modifier Code)) : Option String :=
  match Modifier.get? mods .fontWeight with
  | some (.native s) => some s
  | some (.computed c) => some (call "fontWeight" [c.text])
  | _ => none

def weightUses (mods : List (Modifier Code)) : List Helper :=
  match Modifier.get? mods .fontWeight with
  | some (.computed _) => language.require .fontWeight
  | _ => []

def textLines (mods : List (Modifier Code)) : List String :=
  (match computedText? mods .fontSize, weightText? mods with
    | some s, some w => [".font(.system(size: " ++ s ++ ", weight: " ++ w ++ "))"]
    | some s, none => [".font(.system(size: " ++ s ++ "))"]
    | none, some w => [".fontWeight(" ++ w ++ ")"]
    | none, none => [])
    ++ ((computedText? mods .color).map fun c => ".foregroundColor(" ++ c ++ ")").toList
    ++ ((computedText? mods .maxLines).map fun n => ".lineLimit(Int(" ++ n ++ "))").toList
    ++ ((Modifier.native? mods .textAlign).map fun a =>
        ".multilineTextAlignment(" ++ a ++ ")").toList

/-- A view and the lines that are applied to it before its layout modifiers. -/
structure View where
  sheet : Sheet
  lines : List String

def label (env : Env) (item : String) (mods : List (Modifier Code)) (e : Element) :
    Except Error View := do
  let text ← propertyCode language env item e .text .string
  return ⟨⟨[.line ("Text(" ++ (text.map Code.text).getD "" ++ ")")], usesOf text ++ weightUses mods⟩,
    textLines mods⟩

def image (env : Env) (item : String) (mods : List (Modifier Code)) (e : Element) :
    Except Error View := do
  let src ← propertyCode language env item e .src .string
  let size ← propertyCode language env item e .size .number
  let lines := [".resizable()", ".scaledToFit()"]
    ++ (size.map fun c => ".frame(width: " ++ c.text ++ ", height: " ++ c.text ++ ")").toList
    ++ ((computedText? mods .color).map fun c => ".foregroundColor(" ++ c ++ ")").toList
  return ⟨⟨[.line ("Image(" ++ (src.map Code.text).getD "" ++ ")")], usesOf src ++ usesOf size⟩,
    lines⟩

/-- A clear view of a size along the flow, or one that takes what is left. -/
def spacer (env : Env) (item : String) (flow : Flow) (e : Element) : Except Error View := do
  let size ← propertyCode language env item e .size .number
  match size with
  | none => return ⟨.plain [.line "Spacer()"], []⟩
  | some c =>
      let frame := match flow with
        | .vertical => ".frame(height: " ++ c.text ++ ")"
        | .horizontal => ".frame(width: " ++ c.text ++ ")"
        | .overlay => ".frame(width: " ++ c.text ++ ", height: " ++ c.text ++ ")"
      return ⟨⟨[.line "Color.clear"], c.uses⟩, [frame]⟩

def divider (env : Env) (item : String) (flow : Flow) (mods : List (Modifier Code)) (e : Element) :
    Except Error View := do
  let thickness ← propertyCode language env item e .thickness .number
  let line := (thickness.map Code.text).getD (numberLiteral 1.0)
  let color := (Modifier.computed? mods .color).getD (language.literal (.color .divider))
  let frame := match flow with
    | .horizontal => ".frame(width: " ++ line ++ ")"
    | _ => ".frame(height: " ++ line ++ ")"
  return ⟨⟨[.line "Rectangle()"], usesOf thickness ++ color.uses⟩,
    [".fill(" ++ color.text ++ ")", frame]⟩

def loop (style : Style) (item : String) (k : Nat) (mods : List (Modifier Code)) (e : Element)
    (template : Sheet) : Sheet :=
  let source := itemsCode language item e
  let taken := (e.limit?.map fun n => ".prefix(" ++ toString n ++ ")").getD ""
  let head := "ForEach(Array(items(" ++ source.text ++ ")" ++ taken
    ++ ".enumerated()), id: \\.offset) \x7b " ++ indexVariable k ++ ", " ++ itemVariable k
    ++ " in"
  ⟨[.enter (stackOpening style (along e.isHorizontal) mods).1, .enter head],
    source.uses ++ language.require .items⟩ ++ template
    ++ .plain [.leave "\x7d", .leave "\x7d"]

def guarded (visible : Option String) (sheet : Sheet) : Sheet :=
  match visible with
  | some v => Sheet.plain [.enter ("if " ++ v ++ " \x7b")] ++ sheet ++ .plain [.leave "\x7d"]
  | none => sheet

/-- A view with its lines, its layout modifiers and some lines more. -/
def dressed (mods : List (Modifier Code)) (more : List String) (view : View) : Sheet :=
  view.sheet ++ .plain (modifierLines (view.lines ++ mods.filterMap layoutLine? ++ more))

def sizeName (s : SizeClass) : String := "size" ++ Text.pascal s.id

def fits (s : SizeClass) : String :=
  "size.width >= " ++ numberLiteral s.width ++ " && size.height >= " ++ numberLiteral s.height

def laterBranches : List SizeClass → List Directive
  | [] => []
  | [s] => [.reenter "\x7d else \x7b", .line (sizeName s)]
  | s :: rest =>
      [.reenter ("\x7d else if " ++ fits s ++ " \x7b"), .line (sizeName s)] ++ laterBranches rest

def dispatch : List SizeClass → List Directive
  | [] => []
  | [s] => [.line (sizeName s)]
  | s :: rest =>
      [.enter ("if " ++ fits s ++ " \x7b"), .line (sizeName s)] ++ laterBranches rest
        ++ [.leave "\x7d"]

def rootLines (l : Layout) : List String :=
  (l.rootPadding?.map fun p => ".padding(" ++ numberLiteral p ++ ")").toList

def sizeProperty (s : SizeClass) (body : Sheet) : Sheet :=
  Sheet.plain
      [.blank, .line "@ViewBuilder", .enter ("private var " ++ sizeName s ++ ": some View \x7b")]
    ++ body ++ .plain [.leave "\x7d"]

/-- The setting of an element; `more` are lines applied after its own modifiers. -/
def setting (env : Env) (stack : List String) (flow : Flow) (more : List String) (e : Element)
    (mods : List (Modifier Code)) : Except Error Setting := do
  let item := stack.headD "data"
  let finish (view : View) := guarded (computedText? mods .visible) (dressed mods more view)
  match e.kind with
  | .column | .row | .stack =>
      let (opening, inner) := stackOpening env.style e.kind mods
      return ⟨inner, [], fun body =>
        finish ⟨Sheet.plain [.enter opening] ++ body ++ .plain [.leave "\x7d"], []⟩⟩
  | .scrollView =>
      let axis := if e.isHorizontal then ".horizontal" else ".vertical"
      let (opening, inner) := stackOpening env.style (along e.isHorizontal) mods
      return ⟨inner, [], fun body =>
        finish ⟨Sheet.plain [.enter ("ScrollView(" ++ axis ++ ") \x7b"), .enter opening] ++ body
          ++ .plain [.leave "\x7d", .leave "\x7d"], []⟩⟩
  | .label => return .leaf (finish (← label env item mods e))
  | .image => return .leaf (finish (← image env item mods e))
  | .spacer => return .leaf (finish (← spacer env item flow e))
  | .divider => return .leaf (finish (← divider env item flow mods e))
  | .forEach =>
      return ⟨(stackOpening env.style (along e.isHorizontal) mods).2, [], fun template =>
        finish ⟨loop env.style item stack.length mods e template, []⟩⟩
  | .conditional =>
      let condition ← propertyCode language env item e .condition .bool
      return ⟨flow, [.reenter "\x7d else \x7b"], fun branches =>
        guarded (computedText? mods .visible) (Sheet.calling (usesOf condition) ++
          guarded (some ((condition.map Code.text).getD "false")) branches)⟩

def dialect : Dialect (List String) := ⟨language, .swiftUI, [], rootLines, setting, sizeProperty⟩

def emit (env : Env) (flow : Flow) (more : List String) (e : Element) : Emission Sheet :=
  dialect.emit env flow more e

def emitRoot (style : Style) (l : Layout) (s : SizeClass) : Emission Sheet :=
  dialect.emitRoot style l s

def contentFunction (sizes : List SizeClass) : List Directive :=
  [.line "let data: [String: Any]", .line "let settings: [String: Any]", .blank,
   .enter "var body: some View \x7b", .enter "GeometryReader \x7b geo in",
   .line "content(for: geo.size)", .leave "\x7d", .leave "\x7d", .blank, .line "@ViewBuilder",
   .enter "private func content(for size: CGSize) -> some View \x7b"]
    ++ dispatch sizes ++ [.leave "\x7d"]

def helperLines (style : Style) (h : Helper) : List Directive :=
  [.blank, .line (Text.joinWith "\n" (helper style h))]

def view (style : Style) (l : Layout) : Except Error (List Directive) := do
  let sizes := l.sizesByArea
  let properties ← (dialect.emitSizes style l sizes).start
  return [.enter ("struct " ++ (l.name ++ "View") ++ ": View \x7b")] ++ contentFunction sizes
    ++ properties.directives ++ [.leave "\x7d"]
    ++ (Helper.sort properties.uses).flatMap (helperLines style)

def file (style : Style) (l : Layout) : Except Error String := do
  return fileText l ["", "import SwiftUI", ""] (← view style l)

end Widgetry.Source.Swift
