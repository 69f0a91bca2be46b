import Widgetry.Text.Basic

/-!
# Indented text

Source text is written by directives: lines, and changes of the indentation around them.
-/

namespace Widgetry.Source

/-- `enter` indents what follows its line, `leave` ends that before its line, and `reenter` does both
around its line. -/
inductive Directive where
  | line (text : String)
  | enter (text : String)
  | leave (text : String)
  | reenter (text : String)
  | indent
  | dedent
  | blank
deriving DecidableEq, Repr

/-- Lines written so far, the last one first, and the level of indentation. -/
structure Writer where
  level : Nat
  written : List String
deriving DecidableEq, Repr

namespace Writer

def start : Writer := ⟨0, []⟩

def indented (level : Nat) (line : String) : String :=
  if line.isEmpty then "" else String.join (List.replicate level "    ") ++ line

def write (w : Writer) (text : String) : Writer :=
  { w with written := (Text.lines text).foldl (fun ls l => indented w.level l :: ls) w.written }

/-- Writes an empty line, but neither at the start nor after another one. -/
def writeBlank (w : Writer) : Writer :=
  match w.written with
  | [] => w
  | "" :: _ :: _ => w
  | lines => { w with written := "" :: lines }

def step (w : Writer) : Directive → Writer
  | .line s => w.write s
  | .enter s => { w.write s with level := w.level + 1 }
  | .leave s => { w with level := w.level - 1 }.write s
  | .reenter s =>
      let w := { w with level := w.level - 1 }.write s
      { w with level := w.level + 1 }
  | .indent => { w with level := w.level + 1 }
  | .dedent => { w with level := w.level - 1 }
  | .blank => w.writeBlank

def dropBlank : List String → List String
  | "" :: line :: rest => dropBlank (line :: rest)
  | lines => lines

def finish (w : Writer) : String :=
  String.join ((dropBlank w.written).reverse.map (· ++ "\n"))

end Writer

def render (directives : List Directive) : String :=
  (directives.foldl Writer.step .start).finish

end Widgetry.Source
