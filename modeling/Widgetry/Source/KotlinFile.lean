import Widgetry.Source.Emission
import Widgetry.Source.KotlinCode

/-!
# Kotlin files

A Glance widget: an object with a content function that picks a size, a function for each size, and
the helpers they call.
-/

namespace Widgetry.Source.Kotlin

def dp (s : String) : String := group s ++ ".dp"

def sp (s : String) : String := group s ++ ".sp"

/-- The longest line, in bytes, on which a call stands whole. -/
def lineLimit : Nat := 80

/-- A call of a composable: on one line if it fits, else an argument on each line. -/
def callLines (name : String) (args : List String) : List Directive :=
  let whole := call name args
  if whole.utf8ByteSize ≤ lineLimit then [.line whole]
  else [.enter (name ++ "(")] ++ args.map (fun a => .line (a ++ ",")) ++ [.leave ")"]

/-- The same with an opening brace after it. -/
def blockLines (name : String) (args : List String) : List Directive :=
  if args.isEmpty then [.enter (name ++ " \x7b")]
  else
    let whole := call name args ++ " \x7b"
    if whole.utf8ByteSize ≤ lineLimit then [.enter whole]
    else [.enter (name ++ "(")] ++ args.map (fun a => .line (a ++ ",")) ++ [.reenter ") \x7b"]

/-- The call that applies a modifier; some are applied elsewhere. -/
def modifierCall (m : Modifier Code) : String :=
  match m.value with
  | .native _ => ""
  | .flag =>
      match m.property with
      | .fillWidth => ".fillMaxWidth()"
      | .fillHeight => ".fillMaxHeight()"
      | _ => ""
  | .computed c =>
      match m.property with
      | .width => ".width(" ++ dp c.text ++ ")"
      | .height => ".height(" ++ dp c.text ++ ")"
      | .backgroundColor => ".background(" ++ c.text ++ ")"
      | .cornerRadius => ".cornerRadius(" ++ dp c.text ++ ")"
      | .padding => ".padding(" ++ dp c.text ++ ")"
      | .paddingHorizontal => ".padding(horizontal = " ++ dp c.text ++ ")"
      | .paddingVertical => ".padding(vertical = " ++ dp c.text ++ ")"
      | .visible =>
          ".visibility(if (" ++ c.text ++ ") Visibility.Visible else Visibility.Gone)"
      | _ => ""

def modifierText (base : String) (mods : List (Modifier Code)) (more : List String) : String :=
  base ++ String.join (mods.map modifierCall) ++ String.join more

def noModifier : String := "GlanceModifier"

/-- The argument for a modifier, unless it changes nothing. -/
def modifierArg (modifier : String) : List String :=
  if modifier = noModifier then [] else ["modifier = " ++ modifier]

def containerArgs (style : Style) (name : String) (modifier : String)
    (mods : List (Modifier Code)) : List String :=
  let h := Modifier.native? mods .alignment
  let v := Modifier.native? mods .crossAlignment
  let start := fun axis => (style.alignment? .glance axis .start).getD ""
  if name = "Box" then
    if h.isSome || v.isSome then
      modifierArg modifier ++
        ["contentAlignment = Alignment(horizontal = " ++ h.getD (start .horizontal)
          ++ ", vertical = " ++ v.getD (start .vertical) ++ ")"]
    else modifierArg modifier
  else
    modifierArg modifier ++ (h.map ("horizontalAlignment = " ++ ·)).toList
      ++ (v.map ("verticalAlignment = " ++ ·)).toList

def gap (flow : Flow) (spacing : String) : Directive :=
  let axis := if flow = .horizontal then "width" else "height"
  .line ("Spacer(modifier = GlanceModifier." ++ axis ++ "(" ++ dp spacing ++ "))")

def container : Kind → String × Flow
  | .column => ("Column", .vertical)
  | .row => ("Row", .horizontal)
  | _ => ("Box", .overlay)

def along (horizontal : Bool) : String × Flow := container (if horizontal then .row else .column)

def textStyle (mods : List (Modifier Code)) : List String :=
  ((computedText? mods .color).map fun c => "color = ColorProvider(" ++ c ++ ")").toList
    ++ ((computedText? mods .fontSize).map fun s => "fontSize = " ++ sp s).toList
    ++ (match Modifier.get? mods .fontWeight with
        | some (.native s) => ["fontWeight = " ++ s]
        | some (.computed c) => ["fontWeight = " ++ call "fontWeight" [c.text]]
        | _ => [])
    ++ ((Modifier.native? mods .textAlign).map fun s => "textAlign = " ++ s).toList

def weightUses (mods : List (Modifier Code)) : List Helper :=
  match Modifier.get? mods .fontWeight with
  | some (.computed _) => language.require .fontWeight
  | _ => []

def label (env : Env) (item : String) (base : String) (mods : List (Modifier Code)) (e : Element) :
    Except Error Sheet := do
  let text ← propertyCode language env item e .text .string
  let style := textStyle mods
  let args := ["text = " ++ (text.map Code.text).getD ""]
    ++ modifierArg (modifierText base mods [])
    ++ (if style.isEmpty then [] else ["style = " ++ call "TextStyle" style])
    ++ ((computedText? mods .maxLines).map fun n => "maxLines = " ++ group n ++ ".toInt()").toList
  return ⟨callLines "Text" args, usesOf text ++ weightUses mods⟩

def image (env : Env) (item : String) (base : String) (mods : List (Modifier Code)) (e : Element) :
    Except Error Sheet := do
  let src ← propertyCode language env item e .src .string
  let size ← propertyCode language env item e .size .number
  let sized := (size.map fun c => ".size(" ++ dp c.text ++ ")").toList
  let args := ["provider = images(" ++ (src.map Code.text).getD "" ++ ")",
      "contentDescription = null"]
    ++ modifierArg (modifierText base mods sized)
    ++ ((computedText? mods .color).map fun c =>
        "colorFilter = ColorFilter.tint(ColorProvider(" ++ c ++ "))").toList
  return ⟨callLines "Image" args, usesOf src ++ usesOf size⟩

/-- A spacer of a size along the flow, or one that takes what is left unless it has a size. -/
def spacer (env : Env) (item : String) (flow : Flow) (base : String) (mods : List (Modifier Code))
    (e : Element) : Except Error Sheet := do
  let size ← propertyCode language env item e .size .number
  let fixed := (Modifier.get? mods .width).isSome || (Modifier.get? mods .height).isSome
  let sized := match size, flow with
    | some c, .vertical => ".height(" ++ dp c.text ++ ")"
    | some c, .horizontal => ".width(" ++ dp c.text ++ ")"
    | some c, .overlay => ".size(" ++ dp c.text ++ ")"
    | none, .overlay => ""
    | none, _ => if fixed then "" else ".defaultWeight()"
  return ⟨callLines "Spacer" (modifierArg (modifierText base mods [sized])), usesOf size⟩

def divider (env : Env) (item : String) (flow : Flow) (base : String) (mods : List (Modifier Code))
    (e : Element) : Except Error Sheet := do
  let thickness ← propertyCode language env item e .thickness .number
  let line := dp ((thickness.map Code.text).getD (numberLiteral 1.0))
  let color := ((Modifier.computed? mods .color).getD (language.literal (.color .divider))).text
  let stretched := match flow with
    | .horizontal => ".fillMaxHeight().width(" ++ line ++ ")"
    | _ => ".fillMaxWidth().height(" ++ line ++ ")"
  let modifier := modifierText base mods [stretched, ".background(" ++ color ++ ")"]
  return ⟨[.line ("Box(modifier = " ++ modifier ++ ") \x7b\x7d")], usesOf thickness⟩

def loop (style : Style) (item : String) (k : Nat) (base : String) (mods : List (Modifier Code))
    (e : Element) (template : Sheet) : Sheet :=
  let (name, flow) := along e.isHorizontal
  let source := itemsCode language item e
  let take := (e.limit?.map fun n => ".take(" ++ toString n ++ ")").getD ""
  let index := indexVariable k
  let head := "items(" ++ source.text ++ ")" ++ take ++ ".forEachIndexed \x7b " ++ index ++ ", "
    ++ itemVariable k ++ " ->"
  let gaps := match computedText? mods .spacing with
    | some s => [.enter ("if (" ++ index ++ " > 0) \x7b"), gap flow s, .leave "\x7d"]
    | none => []
  ⟨blockLines name (containerArgs style name (modifierText base mods []) mods)
      ++ [.enter head] ++ gaps,
    source.uses ++ language.require .items⟩ ++ template
    ++ .plain [.leave "\x7d", .leave "\x7d"]

def conditional (condition : Option Code) (visible : Option String) (branches : Sheet) : Sheet :=
  let guarded := ⟨[.enter ("if (" ++ (condition.map Code.text).getD "false" ++ ") \x7b")],
    usesOf condition⟩ ++ branches ++ Sheet.plain [.leave "\x7d"]
  match visible with
  | some v => Sheet.plain [.enter ("if (" ++ v ++ ") \x7b")] ++ guarded ++ .plain [.leave "\x7d"]
  | none => guarded

def sizeName (s : SizeClass) : String := "Size" ++ Text.pascal s.id

def sizeCall (s : SizeClass) : String := call (sizeName s) ["data", "settings", "images", "modifier"]

def dispatch : List SizeClass → List Directive
  | [] => []
  | [s] => [.line ("else -> " ++ sizeCall s)]
  | s :: rest =>
      .line ("size.width >= " ++ dp (numberLiteral s.width) ++ " && size.height >= "
          ++ dp (numberLiteral s.height) ++ " -> " ++ sizeCall s)
        :: dispatch rest

def rootModifier (l : Layout) : String :=
  match l.rootPadding? with
  | some p => "modifier.padding(" ++ dp (numberLiteral p) ++ ")"
  | none => "modifier"

def sizeFunction (s : SizeClass) (body : Sheet) : Sheet :=
  Sheet.plain
      [.blank, .line "@Composable", .enter ("private fun " ++ sizeName s ++ "("),
       .line "data: Map<String, Any?>,", .line "settings: Map<String, Any?>,",
       .line "images: (String) -> ImageProvider,", .line "modifier: GlanceModifier,",
       .reenter ") \x7b"]
    ++ body ++ .plain [.leave "\x7d"]

/-- The setting of an element; `base` is the modifier that its own are added to. -/
def setting (env : Env) (stack : List String) (flow : Flow) (base : String) (e : Element)
    (mods : List (Modifier Code)) : Except Error Setting := do
  let item := stack.headD "data"
  match e.kind with
  | .column | .row | .stack =>
      let (name, inner) := container e.kind
      let args := containerArgs env.style name (modifierText base mods []) mods
      return ⟨inner, ((computedText? mods .spacing).map (gap inner)).toList, fun body =>
        Sheet.plain (blockLines name args) ++ body ++ .plain [.leave "\x7d"]⟩
  | .scrollView =>
      let (name, inner) := along e.isHorizontal
      return ⟨inner, [], fun body =>
        Sheet.plain (blockLines "LazyColumn" (modifierArg (modifierText base mods []))
            ++ [.enter "item \x7b", .enter (name ++ " \x7b")])
          ++ body ++ .plain [.leave "\x7d", .leave "\x7d", .leave "\x7d"]⟩
  | .label => return .leaf (← label env item base mods e)
  | .image => return .leaf (← image env item base mods e)
  | .spacer => return .leaf (← spacer env item flow base mods e)
  | .divider => return .leaf (← divider env item flow base mods e)
  | .forEach => return ⟨(along e.isHorizontal).2, [], loop env.style item stack.length base mods e⟩
  | .conditional =>
      let condition ← propertyCode language env item e .condition .bool
      return ⟨flow, [.reenter "\x7d else \x7b"],
        conditional condition (computedText? mods .visible)⟩

def dialect : Dialect String :=
  ⟨language, .glance, noModifier, rootModifier, setting, sizeFunction⟩

def emit (env : Env) (flow : Flow) (base : String) (e : Element) : Emission Sheet :=
  dialect.emit env flow base e

def emitRoot (style : Style) (l : Layout) (s : SizeClass) : Emission Sheet :=
  dialect.emitRoot style l s

def contentFunction (sizes : List SizeClass) : List Directive :=
  [.line "@Composable", .enter "fun Content(", .line "data: Map<String, Any?>,",
   .line "settings: Map<String, Any?>,", .line "size: DpSize,",
   .line "images: (String) -> ImageProvider,",
   .line "modifier: GlanceModifier = GlanceModifier,", .reenter ") \x7b", .enter "when \x7b"]
    ++ dispatch sizes ++ [.leave "\x7d", .leave "\x7d"]

def baseImports : List String :=
  ["androidx.compose.runtime.Composable",
   "androidx.compose.ui.graphics.Color",
   "androidx.compose.ui.unit.DpSize",
   "androidx.compose.ui.unit.dp",
   "androidx.compose.ui.unit.sp",
   "androidx.glance.ColorFilter",
   "androidx.glance.GlanceModifier",
   "androidx.glance.Image",
   "androidx.glance.ImageProvider",
   "androidx.glance.Visibility",
   "androidx.glance.appwidget.cornerRadius",
   "androidx.glance.appwidget.lazy.LazyColumn",
   "androidx.glance.background",
   "androidx.glance.layout.Alignment",
   "androidx.glance.layout.Box",
   "androidx.glance.layout.Column",
   "androidx.glance.layout.Row",
   "androidx.glance.layout.Spacer",
   "androidx.glance.layout.fillMaxHeight",
   "androidx.glance.layout.fillMaxWidth",
   "androidx.glance.layout.height",
   "androidx.glance.layout.padding",
   "androidx.glance.layout.size",
   "androidx.glance.layout.width",
   "androidx.glance.text.FontWeight",
   "androidx.glance.text.Text",
   "androidx.glance.text.TextAlign",
   "androidx.glance.text.TextStyle",
   "androidx.glance.unit.ColorProvider",
   "androidx.glance.visibility"]

def importNames (helpers : List Helper) : List String :=
  Table.keys (Table.ofList ((baseImports ++ helpers.flatMap imports).map fun name => (name, ())))

def helperLines (style : Style) (h : Helper) : List Directive :=
  [.blank, .line (Text.joinWith "\n" (helper style h))]

def object (style : Style) (l : Layout) : Except Error (List Directive × List Helper) := do
  let sizes := l.sizesByArea
  let functions ← (dialect.emitSizes style l sizes).start
  let helpers := Helper.sort functions.uses
  return ([.enter ("object " ++ (l.name ++ "Content") ++ " \x7b")] ++ contentFunction sizes
      ++ functions.directives ++ helpers.flatMap (helperLines style) ++ [.leave "\x7d"], helpers)

def file (style : Style) (package : String) (l : Layout) : Except Error String := do
  let (directives, helpers) ← object style l
  return fileText l (["", "package " ++ package, ""] ++ (importNames helpers).map ("import " ++ ·) ++
    [""]) directives

end Widgetry.Source.Kotlin
