import Widgetry.Error
import Widgetry.Expr.Basic

/-!
# Reading expressions

An expression is written as an array that starts with the name of its operator; anything else is a
literal operand.
-/

namespace Widgetry.Expr

def readLiteral? : Json → Option Literal
  | .number n => some (.number n.toFloat)
  | .string s => some (.string s)
  | .bool b => some (.bool b)
  | _ => none

def readBinding (place : Location) (operand : Json) : Except Error Binding :=
  match operand with
  | .string s =>
      match Binding.parseLoose? s with
      | none => .error (.schema place (.invalidBinding s))
      | some b => if b.isStraySize then .error (.schema place (.unknownSizeAxis s)) else .ok b
  | _ => .error (.expressionType place .bindingNotLiteral)

def readGet (place : Location) (operands : List Json) : Except Error Expr :=
  match operands with
  | [path] => do
      let b ← readBinding (place.index 1) path
      return .get place b none
  | [path, fallback] => do
      let b ← readBinding (place.index 1) path
      match readLiteral? fallback with
      | some l => return .get place b (some l)
      | none => throw (.expressionType (place.index 2) .defaultNotLiteral)
  | _ => .error (.expressionType place (.getArity operands.length))

def readHas (place : Location) (operands : List Json) : Except Error Expr :=
  match operands with
  | [path] => do
      let b ← readBinding (place.index 1) path
      return .has place b
  | _ => .error (.expressionType place (.hasArity operands.length))

def readOperator (place : Location) (name : String) (count : Nat) : Except Error Operator :=
  match Operator.ofName? name with
  | none => .error (.unsupportedOperator place name)
  | some o =>
      if o.arity.admits count then .ok o else .error (.expressionType place (.arity o count))

mutual

def read (place : Location) : Json → Except Error Expr
  | .array [] => .error (.schema place .emptyExpression)
  | .array (.string name :: operands) =>
      if name = "get" then readGet place operands
      else if name = "has" then readHas place operands
      else do
        let o ← readOperator place name operands.length
        let args ← readOperands place 1 operands
        return .op place o args
  | .array (_ :: _) => .error (.schema place .operatorNotString)
  | operand =>
      match readLiteral? operand with
      | some l => .ok (.literal place l)
      | none => .error (.schema place .notOperand)

def readOperands (place : Location) (i : Nat) : List Json → Except Error (List Expr)
  | [] => .ok []
  | operand :: operands => do
      let e ← read (place.index i) operand
      let es ← readOperands place (i + 1) operands
      return e :: es

end

end Widgetry.Expr
