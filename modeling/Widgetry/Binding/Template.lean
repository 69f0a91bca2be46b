import Widgetry.Binding.Basic
import Widgetry.Text.Blank

/-!
# Text templates

Literal text with placeholders `{{ … }}`, each of them a binding.
-/

namespace Widgetry

inductive TemplatePart where
  | text (s : String)
  | placeholder (b : Binding)
deriving DecidableEq, Repr

inductive TemplateError where
  | unclosed (template : String)
  | invalid (placeholder : String)
deriving DecidableEq, Repr

def TemplateError.message : TemplateError → String
  | .unclosed s => "unclosed placeholder in template '" ++ s ++ "'"
  | .invalid s => "invalid placeholder '\x7b\x7b" ++ s ++ "\x7d\x7d'"

namespace Template

def textPart (cs : List Char) : List TemplatePart :=
  if cs.isEmpty then [] else [.text (String.ofList cs)]

/-- Reads the parts of a template; `whole` is named when a placeholder is not closed. The first
argument bounds the number of placeholders. -/
def partsFrom (whole : String) : Nat → List Char → Except TemplateError (List TemplatePart)
  | 0, cs => .ok (textPart cs)
  | fuel + 1, cs =>
      match Text.breakOnPair '\x7b' cs with
      | none => .ok (textPart cs)
      | some (before, after) =>
          match Text.breakOnPair '\x7d' after with
          | none => .error (.unclosed whole)
          | some (inner, rest) =>
              let inner := Text.trim (String.ofList inner)
              match Binding.parseLoose? inner with
              | none => .error (.invalid inner)
              | some b => do
                  let parts ← partsFrom whole fuel rest
                  return textPart before ++ .placeholder b :: parts

def parse (s : String) : Except TemplateError (Option (List TemplatePart)) :=
  match Text.breakOnPair '\x7b' s.toList with
  | none => .ok none
  | some _ => (partsFrom s s.length s.toList).map some

end Template

end Widgetry
