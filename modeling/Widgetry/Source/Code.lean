import Widgetry.Decimal.Notation
import Widgetry.Decimal.Reading
import Widgetry.Expr.Term

/-!
# Code of terms

A term is written as an expression of a target language. The languages differ in a few spellings,
which make up a `Language`; code also keeps which helpers it calls.
-/

namespace Widgetry.Source

/-- Functions that generated code may call, in the order in which they are written. -/
inductive Helper where
  | lookup
  | items
  | str
  | asNumber
  | asText
  | asFlag
  | truthy
  | same
  | present
  | colorHex
  | parseColor
  | asColor
  | formatNumber
  | substr
  | formatDate
  | rgba
  | mixColor
  | fontWeight
deriving DecidableEq, Repr

namespace Helper

def all : List Helper :=
  [.lookup, .items, .str, .asNumber, .asText, .asFlag, .truthy, .same, .present, .colorHex,
   .parseColor, .asColor, .formatNumber, .substr, .formatDate, .rgba, .mixColor, .fontWeight]

def name : Helper → String
  | .lookup => "lookup"
  | .items => "items"
  | .str => "str"
  | .asNumber => "asNumber"
  | .asText => "asText"
  | .asFlag => "asFlag"
  | .truthy => "truthy"
  | .same => "same"
  | .present => "present"
  | .colorHex => "colorHex"
  | .parseColor => "parseColor"
  | .asColor => "asColor"
  | .formatNumber => "formatNumber"
  | .substr => "substr"
  | .formatDate => "formatDate"
  | .rgba => "rgba"
  | .mixColor => "mixColor"
  | .fontWeight => "fontWeight"

/-- Helpers in the order in which they are written, each once. -/
def sort (uses : List Helper) : List Helper := all.filter fun h => uses.contains h

end Helper

structure Code where
  text : String
  uses : List Helper
deriving DecidableEq, Repr

namespace Code

def plain (text : String) : Code := ⟨text, []⟩

def wrap (f : String → String) (c : Code) : Code := ⟨f c.text, c.uses⟩

def join (f : List String → String) (cs : List Code) : Code :=
  ⟨f (cs.map Code.text), cs.flatMap Code.uses⟩

def needing (c : Code) (uses : List Helper) : Code := ⟨c.text, c.uses ++ uses⟩

end Code

/-! ### Pieces of text -/

/-- A literal with a decimal point; a negative one stands in parentheses. -/
def numberLiteral (x : Float) : String :=
  let body :=
    if Decimal.isWhole x && x.abs < 1e15 then toString (Decimal.toInt64 x.abs) ++ ".0"
    else
      let s := Decimal.render .plain x.abs
      if s.toList.contains '.' then s else s ++ ".0"
  if Decimal.isNegative x && !(x == 0.0) then "(-" ++ body ++ ")" else body

/-- Where a scan of code stands: outside quotes, inside, or inside after a backslash. -/
inductive Scan where
  | outside
  | inside
  | escaped
deriving DecidableEq, Repr

/-- Whether parentheses, outside quotes, close only at the end of the text. -/
def closesAtEnd : Scan → Nat → List Char → Bool
  | _, depth, [] => depth == 0
  | .escaped, depth, _ :: cs => closesAtEnd .inside depth cs
  | .inside, depth, c :: cs =>
      if c = '\\' then closesAtEnd .escaped depth cs
      else if c = '"' then closesAtEnd .outside depth cs
      else closesAtEnd .inside depth cs
  | .outside, depth, c :: cs =>
      if c = '"' then closesAtEnd .inside depth cs
      else if c = '(' then closesAtEnd .outside (depth + 1) cs
      else if c = ')' then
        if depth ≤ 1 && !cs.isEmpty then false else closesAtEnd .outside (depth - 1) cs
      else closesAtEnd .outside depth cs

def fullyWrapped (s : String) : Bool :=
  let cs := s.toList
  cs.head? == some '(' && cs.getLast? == some ')' && closesAtEnd .outside 0 cs

/-- Text as one operand: a number and a text in parentheses stay as they are. -/
def group (s : String) : String :=
  if (Decimal.parse? s).isSome || fullyWrapped s then s else "(" ++ s ++ ")"

def parens (s : String) : String := "(" ++ s ++ ")"

def call (name : String) (args : List String) : String :=
  name ++ "(" ++ Text.joinWith ", " args ++ ")"

/-- Operands with an operator between them, in parentheses. -/
def chain (symbol : String) (args : List String) : String :=
  parens (Text.joinWith (" " ++ symbol ++ " ") args)

/-- Entries in pairs; an odd one at the end is left out. -/
def pairs {α : Type} : List α → List (α × α)
  | a :: b :: rest => (a, b) :: pairs rest
  | _ => []

/-! ### Languages -/

/-- The spellings of a target language. `needs` gives the helpers a helper calls, directly or through
others; `choose` and `select` write `case` and `match` from alternating operands and a fallback. -/
structure Language where
  quote : String → String
  color : Color → String
  colorUses : List Helper
  nothing : String
  orElse : String
  clear : String
  upper : String
  lower : String
  remainder : String → String → String
  choose : List (String × String) → String → String
  select : String → List (String × String) → String → String
  needs : Helper → List Helper

namespace Language

variable (lang : Language)

/-- A helper with all that it calls. -/
def require (h : Helper) : List Helper := h :: lang.needs h

def calling (h : Helper) (c : Code) : Code := c.needing (lang.require h)

def literal : Literal → Code
  | .number x => .plain (numberLiteral x)
  | .string s => .plain (lang.quote s)
  | .bool b => .plain (if b then "true" else "false")
  | .color c => ⟨lang.color c, lang.colorUses⟩

def segment : Segment → String
  | .key k => lang.quote k
  | .index i => toString i

/-- The value at a binding; `item` is the variable of the item at hand. -/
def lookup (item : String) (b : Binding) : Code :=
  let found := fun (root : String) =>
    lang.calling .lookup (.plain (call "lookup" (root :: b.segments.map lang.segment)))
  match b.scope with
  | .item => found item
  | .data => found "data"
  | .settings => found "settings"
  | .size => .plain lang.nothing

/-- Code with another one for when it has no value. -/
def either (c d : Code) : Code :=
  ⟨chain lang.orElse [c.text, d.text], c.uses ++ d.uses⟩

def conversion? : ValueType → Option (Helper × String)
  | .number => some (.asNumber, "0.0")
  | .string => some (.asText, "\"\"")
  | .bool => some (.asFlag, "false")
  | .color => some (.asColor, lang.clear)
  | .any => none

def read (item : String) (b : Binding) (want : ValueType) (fallback : Fallback) : Code :=
  let raw := lang.lookup item b
  match lang.conversion? want, fallback with
  | none, .default l => lang.either raw (lang.literal l)
  | none, _ => raw
  | some (h, zero), fallback =>
      let converted := lang.calling h (raw.wrap fun s => call h.name [s])
      match fallback with
      | .null => converted
      | .zero => lang.either converted (.plain zero)
      | .default l => lang.either converted (lang.literal l)

def presence (item : String) (b : Binding) : Code :=
  if b.scope = .size then .plain "true"
  else lang.calling .present ((lang.lookup item b).wrap fun s => call "present" [s])

def coerce (c : Code) : ValueType → Code
  | .any => c
  | .string => lang.calling .str (c.wrap fun s => call "str" [s])
  | .color =>
      lang.either (lang.calling .asColor (c.wrap fun s => call "asColor" [s])) (.plain lang.clear)
  | .number =>
      lang.either (lang.calling .asNumber (c.wrap fun s => call "asNumber" [s])) (.plain "0.0")
  | .bool => lang.calling .truthy (c.wrap fun s => call "truthy" [s])

def at' (args : List String) (i : Nat) : String := (args[i]?).getD ""

def binary (symbol : String) (args : List String) : String := chain symbol [at' args 0, at' args 1]

/-- The text of an operator applied to the texts of its operands; `dynamic` says that some operand
has no definite type. -/
def operatorText (op : Operator) (dynamic : Bool) (args : List String) : String :=
  match op with
  | .add => chain "+" args
  | .mul => chain "*" args
  | .sub => if args.length = 1 then "(-" ++ at' args 0 ++ ")" else binary "-" args
  | .div => binary "/" args
  | .mod => lang.remainder (at' args 0) (at' args 1)
  | .eq => if dynamic then call "same" [at' args 0, at' args 1] else binary "==" args
  | .ne =>
      if dynamic then "(!" ++ call "same" [at' args 0, at' args 1] ++ ")" else binary "!=" args
  | .lt => binary "<" args
  | .le => binary "<=" args
  | .gt => binary ">" args
  | .ge => binary ">=" args
  | .all => chain "&&" args
  | .any => chain "||" args
  | .not => "(!" ++ group (at' args 0) ++ ")"
  | .case => lang.choose (pairs args.dropLast) (args.getLast?.getD "")
  | .match' => lang.select (at' args 0) (pairs args.tail.dropLast) (args.getLast?.getD "")
  | .coalesce => chain lang.orElse args
  | .concat => if args.length = 1 then at' args 0 else chain "+" args
  | .toString => call "str" [at' args 0]
  | .upcase => group (at' args 0) ++ "." ++ lang.upper ++ "()"
  | .downcase => group (at' args 0) ++ "." ++ lang.lower ++ "()"
  | .formatNumber => call "formatNumber" args
  | .substring => call "substr" [at' args 0, at' args 1, (args[2]?).getD lang.nothing]
  | .formatDate => call "formatDate" [at' args 0, at' args 1]
  | .rgb => call "rgba" (args ++ ["1.0"])
  | .rgba => call "rgba" args
  | .interpolateColor => call "mixColor" args
  | .themeColor => at' args 0

def operatorHelper? (op : Operator) (dynamic : Bool) : Option Helper :=
  match op with
  | .eq | .ne => if dynamic then some .same else none
  | .toString => some .str
  | .formatNumber => some .formatNumber
  | .substring => some .substr
  | .formatDate => some .formatDate
  | .rgb | .rgba => some .rgba
  | .interpolateColor => some .mixColor
  | _ => none

def operator (op : Operator) (operands : List (Code × ValueType)) : Code :=
  let dynamic := operands.any (·.2 == .any)
  let code := Code.join (lang.operatorText op dynamic) (operands.map Prod.fst)
  match operatorHelper? op dynamic with
  | some h => lang.calling h code
  | none => code

mutual

/-- The code of a term; `item` is the variable of the item at hand. -/
def term (item : String) : Term → Code
  | .literal l => lang.literal l
  | .read b want fallback => lang.read item b want fallback
  | .presence b => lang.presence item b
  | .apply op args _ => lang.operator op (terms item args)
  | .coerce t target => lang.coerce (term item t) target

def terms (item : String) : List Term → List (Code × ValueType)
  | [] => []
  | t :: ts => (term item t, t.type) :: terms item ts

end

end Language

end Widgetry.Source
