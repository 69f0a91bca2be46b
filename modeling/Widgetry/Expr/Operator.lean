/-!
# Operators and their arities
-/

namespace Widgetry

inductive Operator where
  | add
  | sub
  | mul
  | div
  | mod
  | eq
  | ne
  | lt
  | le
  | gt
  | ge
  | all
  | any
  | not
  | case
  | match'
  | coalesce
  | concat
  | toString
  | formatNumber
  | upcase
  | downcase
  | substring
  | formatDate
  | rgb
  | rgba
  | interpolateColor
  | themeColor
deriving DecidableEq, Repr

/-- How operands beyond the least number may come. -/
inductive Parity where
  | free
  | odd
  | even
deriving DecidableEq, Repr

structure Arity where
  least : Nat
  most : Option Nat
  parity : Parity
deriving DecidableEq, Repr

namespace Arity

def exactly (n : Nat) : Arity := ⟨n, some n, .free⟩

def between (least most : Nat) : Arity := ⟨least, some most, .free⟩

def atLeast (n : Nat) : Arity := ⟨n, none, .free⟩

def inBounds (a : Arity) (n : Nat) : Bool :=
  a.least ≤ n && (match a.most with | some most => n ≤ most | none => true)

def hasParity (a : Arity) (n : Nat) : Bool :=
  match a.parity with
  | .free => true
  | .odd => n % 2 == 1
  | .even => n % 2 == 0

def admits (a : Arity) (n : Nat) : Bool := a.inBounds n && a.hasParity n

end Arity

namespace Operator

def allOperators : List Operator :=
  [.add, .sub, .mul, .div, .mod, .eq, .ne, .lt, .le, .gt, .ge, .all, .any, .not, .case, .match',
   .coalesce, .concat, .toString, .formatNumber, .upcase, .downcase, .substring, .formatDate, .rgb,
   .rgba, .interpolateColor, .themeColor]

def name : Operator → String
  | .add => "+"
  | .sub => "-"
  | .mul => "*"
  | .div => "/"
  | .mod => "%"
  | .eq => "=="
  | .ne => "!="
  | .lt => "<"
  | .le => "<="
  | .gt => ">"
  | .ge => ">="
  | .all => "all"
  | .any => "any"
  | .not => "not"
  | .case => "case"
  | .match' => "match"
  | .coalesce => "coalesce"
  | .concat => "concat"
  | .toString => "to-string"
  | .formatNumber => "format-number"
  | .upcase => "upcase"
  | .downcase => "downcase"
  | .substring => "substring"
  | .formatDate => "format"
  | .rgb => "rgb"
  | .rgba => "rgba"
  | .interpolateColor => "interpolate-color"
  | .themeColor => "theme-color"

/-- The operator of a name; `!` is another name of `not`. -/
def ofName? (s : String) : Option Operator :=
  if s = "!" then some .not else allOperators.find? (·.name == s)

def arity : Operator → Arity
  | .add | .mul => .atLeast 2
  | .sub => .between 1 2
  | .div | .mod => .exactly 2
  | .eq | .ne | .lt | .le | .gt | .ge => .exactly 2
  | .all | .any => .atLeast 1
  | .not => .exactly 1
  | .case => ⟨1, none, .odd⟩
  | .match' => ⟨4, none, .even⟩
  | .coalesce | .concat => .atLeast 1
  | .toString | .upcase | .downcase => .exactly 1
  | .formatNumber => .between 1 3
  | .substring => .between 2 3
  | .formatDate => .exactly 2
  | .rgb => .exactly 3
  | .rgba => .exactly 4
  | .interpolateColor => .exactly 3
  | .themeColor => .exactly 1

def operandWord (n : Nat) : String := if n = 1 then "arg" else "args"

def arityMessage (op : Operator) (n : Nat) : String :=
  let a := op.arity
  let head := "'" ++ op.name ++ "' expects "
  let got := ", got " ++ ToString.toString n
  if !a.inBounds n then
    match a.most with
    | some most =>
        if most = a.least then head ++ ToString.toString most ++ " " ++ operandWord most ++ got
        else head ++ ToString.toString a.least ++ " to " ++ ToString.toString most ++ " args" ++ got
    | none =>
        head ++ "at least " ++ ToString.toString a.least ++ " " ++ operandWord a.least ++ got
  else
    match a.parity with
    | .even => head ++ "an input, label/value pairs and a fallback" ++ got ++ " args"
    | _ => head ++ "condition/value pairs followed by a fallback" ++ got ++ " args"

end Operator

end Widgetry
