import Widgetry.Text.Basic
import Widgetry.View.Tree

/-!
# Markup of view trees
-/

namespace Widgetry

/-- The kind of markup: in HTML text stands between tags and empty attributes have no value. -/
inductive Markup where
  | xml
  | html
deriving DecidableEq, Repr

namespace Markup

def escapeChar (c : Char) : String :=
  match c with
  | '&' => "&amp;"
  | '<' => "&lt;"
  | '>' => "&gt;"
  | '"' => "&quot;"
  | c => String.singleton c

def escape (s : String) : String := String.join (s.toList.map escapeChar)

def voidTags : List String := ["img", "br", "hr", "input", "meta", "link"]

inductive Piece where
  | declaration (text : String)
  | body (text : String)
  | attribute (text : String)

/-- `style:` properties are declarations of the inline style. -/
def piece (m : Markup) (name value : String) : Piece :=
  match Text.dropPrefix? "style:".toList name.toList with
  | some d => .declaration (String.ofList d ++ ": " ++ value)
  | none =>
      if m = .html ∧ name = "textContent" then .body value
      else if m = .html ∧ value = "" then .attribute (" " ++ name)
      else .attribute (" " ++ name ++ "=\"" ++ escape value ++ "\"")

def pieces (m : Markup) (properties : Table String String) : List Piece :=
  properties.map fun p => m.piece p.1 p.2

def attributes (pieces : List Piece) : String :=
  let plain := pieces.filterMap fun
    | .attribute s => some s
    | _ => none
  let declarations := pieces.filterMap fun
    | .declaration s => some s
    | _ => none
  String.join plain ++
    (if declarations.isEmpty then ""
      else " style=\"" ++ escape (Text.joinWith "; " declarations) ++ "\"")

def body? (pieces : List Piece) : Option String :=
  pieces.findSome? fun
    | .body s => some s
    | _ => none

def indent (depth : Nat) : String := String.join (List.replicate depth "  ")

/-- The markup of a view and all below it; `fuel` bounds the depth. -/
def viewWithin (m : Markup) (t : ViewTree) : Nat → Nat → Nat → String
  | 0, _, _ => ""
  | fuel + 1, depth, v =>
      match t.view? v with
      | none => ""
      | some view =>
          let pad := indent depth
          let ps := m.pieces view.properties
          let head := pad ++ "<" ++ view.tag ++ attributes ps
          let close := "</" ++ view.tag ++ ">\n"
          if m = .html ∧ voidTags.contains view.tag then head ++ ">\n"
          else
            match view.children, body? ps with
            | [], none => if m = .xml then head ++ " />\n" else head ++ ">" ++ close
            | [], some s => head ++ ">" ++ escape s ++ close
            | children, text =>
                head ++ ">\n"
                  ++ ((text.map fun s => pad ++ "  " ++ escape s ++ "\n").getD "")
                  ++ String.join (children.map (viewWithin m t fuel (depth + 1)))
                  ++ pad ++ close

end Markup

/-- The markup of a view and all below it. -/
def ViewTree.markup (t : ViewTree) (m : Markup) (v : Nat) : String := m.viewWithin t t.size 0 v

end Widgetry
