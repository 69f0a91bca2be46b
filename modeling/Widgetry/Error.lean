import Widgetry.Binding.Template
import Widgetry.Date.Pattern
import Widgetry.Element.Kind
import Widgetry.Expr.Operator
import Widgetry.Json.Decoder
import Widgetry.Location
import Widgetry.Platform
import Widgetry.Style.Keyword

/-!
# Errors

Every error is a cause; its wording is `Error.message`.
-/

namespace Widgetry

inductive SchemaCause where
  | invalidJson (error : Json.SyntaxError)
  | invalidDocument (error : Json.ShapeError)
  | nameNotIdentifier (name : String)
  | badDefaultPadding
  | noSizes
  | emptySizeId
  | duplicateSizeId (id : String)
  | wordlessSizeId (id : String)
  | clashingSizeId (id other word : String)
  | sizeNotPositive (axis : String)
  | elementNotObject
  | missingType
  | typeNotString
  | unknownKind (name : String)
  | idNotString
  | childrenNotAllowed (kind : Kind)
  | childrenNotArray
  | slotNotAllowed (slot : String) (kind : Kind)
  | unknownProperty (name : String) (kind : Kind)
  | propertyNotAllowed (name : String) (kind : Kind)
  | repeatedProperty (property : Property)
  | missingPart (kind : Kind) (part : String)
  | notKeyword (property : Property)
  | notDirection
  | notFontWeight
  | notListBinding
  | notCount (property : Property)
  | notFlag (property : Property)
  | malformedValue
  | unknownSizeAxis (written : String)
  | badTemplate (error : TemplateError)
  | emptyExpression
  | operatorNotString
  | notOperand
  | invalidBinding (written : String)
  | unresolvedSize (binding : Binding)
  | handleMismatch
  | nameDeclaredTwice (name : String) (sources : List String)

namespace SchemaCause

def tick (s : String) : String := "'" ++ s ++ "'"

def message : SchemaCause → String
  | .invalidJson e => "invalid JSON: " ++ e.message
  | .invalidDocument e => "invalid layout document: " ++ e.message
  | .nameNotIdentifier name => "widget name " ++ tick name ++ " must be an identifier"
  | .badDefaultPadding => "defaultPadding must be a non-negative number"
  | .noSizes => "at least one size is required"
  | .emptySizeId => "size id must not be empty"
  | .duplicateSizeId id => "duplicate size id " ++ tick id
  | .wordlessSizeId id => "size id " ++ tick id ++ " must contain a letter or digit"
  | .clashingSizeId id other word =>
      "size id " ++ tick id ++ " clashes with " ++ tick other ++ " (both name Size" ++ word ++ ")"
  | .sizeNotPositive axis => "size " ++ axis ++ " must be a positive number"
  | .elementNotObject => "element must be an object"
  | .missingType => "element is missing 'type'"
  | .typeNotString => "'type' must be a string"
  | .unknownKind name => "unknown element type " ++ tick name
  | .idNotString => "'id' must be a string"
  | .childrenNotAllowed kind => tick kind.name ++ " cannot have children"
  | .childrenNotArray => "'children' must be an array"
  | .slotNotAllowed slot kind => tick slot ++ " is not allowed on " ++ tick kind.name
  | .unknownProperty name kind => "unknown property " ++ tick name ++ " on " ++ tick kind.name
  | .propertyNotAllowed name kind =>
      "property " ++ tick name ++ " is not allowed on " ++ tick kind.name
  | .repeatedProperty property => "property " ++ tick property.name ++ " is set more than once"
  | .missingPart kind part => tick kind.name ++ " is missing required property " ++ tick part
  | .notKeyword property => tick property.name ++ " must be a literal keyword"
  | .notDirection => "'direction' must be 'vertical' or 'horizontal'"
  | .notFontWeight => "'fontWeight' must be a keyword, boolean, binding or expression"
  | .notListBinding => "'items' must be an item.* or data.* binding"
  | .notCount property => tick property.name ++ " must be a non-negative integer"
  | .notFlag property => tick property.name ++ " must be a boolean"
  | .malformedValue =>
      "malformed property value: expected a literal, binding, settings reference or expression"
  | .unknownSizeAxis written =>
      "unknown size binding " ++ tick written ++ ", expected size.width or size.height"
  | .badTemplate e => e.message
  | .emptyExpression => "empty expression"
  | .operatorNotString => "expression operator must be a string"
  | .notOperand => "expression operand must be a number, string, boolean or expression"
  | .invalidBinding written => "invalid binding path " ++ tick written
  | .unresolvedSize b => "unknown size binding " ++ tick b.render
  | .handleMismatch => "view handle does not match its layout"
  | .nameDeclaredTwice name sources =>
      "widget name " ++ tick name ++ " is declared by " ++ String.intercalate ", " sources

end SchemaCause

inductive TypeCause where
  | getArity (count : Nat)
  | hasArity (count : Nat)
  | arity (op : Operator) (count : Nat)
  | defaultNotLiteral
  | bindingNotLiteral
  | badDecimals
  | patternNotLiteral
  | badPattern (error : Date.PatternError)
  | tokenNotLiteral
  | labelNotLiteral
  | labelTypesDiffer
  | incomparable (left right : ValueType)
  | unordered (type : ValueType)
  | mismatch (expected found : ValueType)
  | unknownFontWeight (name : String)

def TypeCause.message : TypeCause → String
  | .getArity n => "'get' expects 1 to 2 args, got " ++ toString n
  | .hasArity n => "'has' expects 1 arg, got " ++ toString n
  | .arity op n => op.arityMessage n
  | .defaultNotLiteral => "'get' default must be a literal number, string or boolean"
  | .bindingNotLiteral => "expected a literal binding path"
  | .badDecimals => "'format-number' decimals must be an integer literal between 0 and 6"
  | .patternNotLiteral => "'format' expects a literal date pattern"
  | .badPattern e => e.message
  | .tokenNotLiteral => "'theme-color' expects a literal token name"
  | .labelNotLiteral => "'match' labels must be literal numbers or strings"
  | .labelTypesDiffer => "'match' labels must all have the same type"
  | .incomparable a b => "cannot compare " ++ a.name ++ " with " ++ b.name
  | .unordered t => "ordering needs numbers or strings, found " ++ t.name
  | .mismatch expected found => "expected " ++ expected.name ++ ", found " ++ found.name
  | .unknownFontWeight name => "unknown font weight '" ++ name ++ "'"

inductive ConfigCause where
  | invalidText (error : Json.TextError)
  | unknownBase (name : String)
  | invalidToken (platform : Platform) (token text : String)
  | missingAlignment (platform : Platform) (axis : Axis) (alignment : Alignment)
  | missingTextAlignment (platform : Platform) (alignment : Alignment)
  | missingWeight (platform : Platform) (weight : FontWeight)
  | noWeight (platform : Platform) (weight : FontWeight) (place : Location)
  | noLayout (name : String)
  | noJobs

def ConfigCause.message : ConfigCause → String
  | .invalidText e => "invalid style config: " ++ e.message
  | .unknownBase name => "unknown base configuration '" ++ name ++ "'"
  | .invalidToken platform token text =>
      platform.name ++ " palette token '" ++ token ++ "' has invalid color '" ++ text ++ "'"
  | .missingAlignment platform axis alignment =>
      "alignment table has no " ++ platform.name ++ " " ++ axis.name ++ " mapping for '"
        ++ alignment.name ++ "'"
  | .missingTextAlignment platform alignment =>
      "text alignment table has no " ++ platform.name ++ " mapping for '" ++ alignment.name ++ "'"
  | .missingWeight platform weight =>
      "font weight table has no " ++ platform.name ++ " mapping for '" ++ weight.title ++ "'"
  | .noWeight platform weight place =>
      "no " ++ platform.name ++ " font weight for " ++ weight.title ++ " at " ++ place.render
  | .noLayout name => "no layout named '" ++ name ++ "'"
  | .noJobs => "jobs must be >= 1 when set"

inductive Error where
  | schema (place : Location) (cause : SchemaCause)
  | expressionType (place : Location) (cause : TypeCause)
  | unsupportedOperator (place : Location) (name : String)
  | unsupportedAlignment (place : Location) (keyword : String) (platform : Platform)
  | invalidColor (place : Location) (text : String)
  | missingBinding (binding : String)
  | config (cause : ConfigCause)
  | widget (name : String) (source : Error)
  | system (context : String) (reason : String)

namespace Error

def message : Error → String
  | .schema place cause => "schema error at " ++ place.render ++ ": " ++ cause.message
  | .expressionType place cause =>
      "expression type error at " ++ place.render ++ ": " ++ cause.message
  | .unsupportedOperator place name =>
      "unsupported operator at " ++ place.render ++ ": '" ++ name ++ "'"
  | .unsupportedAlignment place keyword platform =>
      "unsupported alignment at " ++ place.render ++ ": '" ++ keyword ++ "' has no "
        ++ platform.name ++ " mapping"
  | .invalidColor place text => "invalid color at " ++ place.render ++ ": '" ++ text ++ "'"
  | .missingBinding binding => "missing binding: " ++ binding
  | .config cause => "config error: " ++ cause.message
  | .widget name source => "widget '" ++ name ++ "': " ++ source.message
  | .system context _ => context

def chain : Error → List String
  | .widget name source => (Error.widget name source).message :: source.chain
  | .system context reason => [context, reason]
  | e => [e.message]

/-- Names the widget an error belongs to, unless it names one already. -/
def inWidget (name : String) : Error → Error
  | .widget n source => .widget n source
  | e => .widget name e

def root : Error → Error
  | .widget _ source => source.root
  | e => e

def place? (e : Error) : Option Location :=
  match e.root with
  | .schema place _ => some place
  | .expressionType place _ => some place
  | .unsupportedOperator place _ => some place
  | .unsupportedAlignment place _ _ => some place
  | .invalidColor place _ => some place
  | _ => none

end Error

end Widgetry
