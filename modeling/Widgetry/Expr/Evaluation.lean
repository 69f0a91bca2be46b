import Widgetry.Context
import Widgetry.Expr.Term
import Widgetry.Expr.Value
import Widgetry.Text.Case

/-!
# Evaluation of terms

A term is evaluated against a context, with the item at hand standing at some path of the data.
-/

namespace Widgetry

/-- Why a term has no value. -/
inductive Fault where
  | missing (shown : String)
  | mismatch (text : String)
  | noOperand
deriving DecidableEq, Repr

def Fault.message : Fault → String
  | .missing shown => "missing value at " ++ shown
  | .mismatch text => "type mismatch: " ++ text
  | .noOperand => "type mismatch: missing operand"

abbrev Outcome := Except Fault Value

namespace Value

/-- A number, or the fault of a value that is none. -/
def toNumber (v : Value) : Except Fault Float :=
  match v.number? with
  | some x => .ok x
  | none => .error (.mismatch ("expected number, found " ++ v.describe))

def toColor (v : Value) : Except Fault Color :=
  match v.color? with
  | some c => .ok c
  | none => .error (.mismatch ("expected color, found " ++ v.describe))

def convert (v : Value) : ValueType → Outcome
  | .any => .ok v
  | .string => .ok (.string v.display)
  | .bool => .ok (.bool v.truthy)
  | .number => v.toNumber.map .number
  | .color => v.toColor.map .color

end Value

namespace Operator

def operand (args : List Outcome) (i : Nat) : Outcome := (args[i]?).getD (.error .noOperand)

def numberAt (args : List Outcome) (i : Nat) : Except Fault Float := do
  (← operand args i).toNumber

def colorAt (args : List Outcome) (i : Nat) : Except Fault Color := do
  (← operand args i).toColor

def textAt (args : List Outcome) (i : Nat) : Except Fault String := do
  return (← operand args i).display

def accumulate (f : Float → Float → Float) : Float → List Outcome → Outcome
  | acc, [] => .ok (.number acc)
  | acc, a :: rest => do
      let x ← (← a).toNumber
      accumulate f (f acc x) rest

def searchTruth (wanted : Bool) : List Outcome → Except Fault Bool
  | [] => .ok false
  | a :: rest => do
      let v ← a
      if v.truthy = wanted then return true
      searchTruth wanted rest

/-- The branch after the first true condition, else the fallback. -/
def choose : List Outcome → Outcome
  | [] => .error (.mismatch "empty case")
  | [fallback] => fallback
  | [condition, fallback] => do
      if (← condition).truthy then .error .noOperand else fallback
  | condition :: branch :: rest => do
      if (← condition).truthy then branch else choose rest

/-- The branch after the first label equal to the input, else the fallback. -/
def select (input : Value) : List Outcome → Outcome
  | [] => .error (.mismatch "match without fallback")
  | [fallback] => fallback
  | [label, fallback] => do
      if input.same (← label) then .error .noOperand else fallback
  | label :: branch :: rest => do
      if input.same (← label) then branch else select input rest

/-- The first present operand. A missing one is passed over, any other fault is not; with none
present the last outcome counts. -/
def firstPresent : Outcome → List Outcome → Outcome
  | last, [] => last
  | _, .ok v :: rest => if v.isPresent then .ok v else firstPresent (.ok v) rest
  | _, .error (.missing shown) :: rest => firstPresent (.error (.missing shown)) rest
  | _, .error e :: _ => .error e

def accepts (op : Operator) : Ordering → Bool
  | .lt => op = .lt || op = .le
  | .eq => op = .le || op = .ge
  | .gt => op = .gt || op = .ge

/-- Compares two operands that have an order. -/
def ordered (op : Operator) (args : List Outcome) : Outcome := do
  let a ← operand args 0
  let b ← operand args 1
  match a.compare? b with
  | some o => return .bool (op.accepts o)
  | none => throw (.mismatch ("cannot order " ++ a.describe ++ " and " ++ b.describe))

def apply (op : Operator) (args : List Outcome) : Outcome :=
  match op with
  | .add => accumulate (· + ·) (-0.0) args
  | .mul => accumulate (· * ·) 1.0 args
  | .sub =>
      match args with
      | [] => .ok .null
      | [_] => do return .number (-(← numberAt args 0))
      | _ => do
          let x ← numberAt args 0
          let y ← numberAt args 1
          return .number (x - y)
  | .div => do
      let x ← numberAt args 0
      let y ← numberAt args 1
      return .number (x / y)
  | .mod => do
      let x ← numberAt args 0
      let y ← numberAt args 1
      return .number (Decimal.remainder x y)
  | .eq => do
      let a ← operand args 0
      let b ← operand args 1
      return .bool (a.same b)
  | .ne => do
      let a ← operand args 0
      let b ← operand args 1
      return .bool (!a.same b)
  | .lt | .le | .gt | .ge => ordered op args
  | .all => do return .bool (!(← searchTruth false args))
  | .any => do return .bool (← searchTruth true args)
  | .not => do return .bool (!(← operand args 0).truthy)
  | .case => choose args
  | .match' =>
      match args with
      | [] => .error (.mismatch "empty match")
      | [_] => .error (.mismatch "match without fallback")
      | input :: rest => do select (← input) rest
  | .coalesce => firstPresent (.error (.missing "coalesce")) args
  | .concat => do
      let texts ← args.mapM fun a => a.map Value.display
      return .string (String.join texts)
  | .toString => do return .string (← textAt args 0)
  | .upcase => do return .string (Text.upcase (← textAt args 0))
  | .downcase => do return .string (Text.downcase (← textAt args 0))
  | .substring => do
      let length ← match args[2]? with
        | some n => do pure (some (← (← n).toNumber))
        | none => pure none
      let s ← textAt args 0
      let start ← numberAt args 1
      return .string (Widgetry.substring s start length)
  | .formatDate => do
      let text ← textAt args 1
      match Date.Pattern.parse text with
      | .error e => throw (.mismatch e.message)
      | .ok pattern => return .string ((← operand args 0).formatDate pattern)
  | .formatNumber => do
      let x ← numberAt args 0
      let unit ← match args[1]? with
        | some u => u.map Value.display
        | none => pure ""
      let decimals ← match args[2]? with
        | some d => (← d).toNumber
        | none => pure 0.0
      return .string (Widgetry.formatNumber x unit (Decimal.truncate 0 6 decimals).toNat)
  | .rgb => do
      let r ← numberAt args 0
      let g ← numberAt args 1
      let b ← numberAt args 2
      return .color (Color.ofChannels r g b 1.0)
  | .rgba => do
      let r ← numberAt args 0
      let g ← numberAt args 1
      let b ← numberAt args 2
      let a ← numberAt args 3
      return .color (Color.ofChannels r g b a)
  | .interpolateColor => do
      let c ← colorAt args 0
      let d ← colorAt args 1
      let t ← numberAt args 2
      return .color (c.mix d t)
  | .themeColor => operand args 0

end Operator

def Fallback.value? : Fallback → Option Value
  | .default l => some (.ofLiteral l)
  | .null => some .null
  | .zero => none

namespace Term

/-- Reads a binding. A value that is absent, null or of another type gives way to the fallback. -/
def readBinding (item : List Segment) (c : Context) (b : Binding) (want : ValueType)
    (fallback : Fallback) : Outcome :=
  match b.absolute? item with
  | none => .ok .null
  | some path =>
      let found := ((c.lookup? path).map Value.ofJson).filter Value.isPresent
      match found, fallback.value? with
      | some v, some d =>
          match v.convert want with
          | .ok w => .ok w
          | .error _ => .ok d
      | some v, none => v.convert want
      | none, some d => .ok d
      | none, none => .error (.missing b.render)

/-- Whether a binding resolves to something other than null or empty text. -/
def isThere (item : List Segment) (c : Context) (b : Binding) : Bool :=
  match b.absolute? item with
  | none => true
  | some path =>
      match c.lookup? path with
      | none => false
      | some .null => false
      | some (.string s) => !s.isEmpty
      | some _ => true

mutual

def eval (item : List Segment) (c : Context) : Term → Outcome
  | .literal l => .ok (.ofLiteral l)
  | .read b want fallback => readBinding item c b want fallback
  | .presence b => .ok (.bool (isThere item c b))
  | .apply op args _ => op.apply (evalAll item c args)
  | .coerce t target => do (← eval item c t).convert target

def evalAll (item : List Segment) (c : Context) : List Term → List Outcome
  | [] => []
  | t :: ts => eval item c t :: evalAll item c ts

end

/-- Adds what is not there yet at the end. -/
def union {α : Type} [BEq α] (as bs : List α) : List α :=
  bs.foldl (fun acc b => if acc.contains b then acc else acc ++ [b]) as

mutual

/-- The paths a term reads, each at its first occurrence. -/
def deps (item : List Segment) : Term → List DataPath
  | .literal _ => []
  | .read b _ _ => (b.absolute? item).toList
  | .presence b => (b.absolute? item).toList
  | .apply _ args _ => depsAll item [] args
  | .coerce t _ => deps item t

def depsAll (item : List Segment) (acc : List DataPath) : List Term → List DataPath
  | [] => acc
  | t :: ts => depsAll item (union acc (deps item t)) ts

end

end Term

end Widgetry
