import Widgetry.Error
import Widgetry.Expr.Basic
import Widgetry.Expr.Term
import Widgetry.Style.Basic

/-!
# Elaboration of property values

Checks a property value against an expected type and makes it a term. Colors, theme tokens and canvas
sizes are resolved here, so a term depends on nothing but data and settings.
-/

namespace Widgetry

structure Env where
  style : Style
  platform : Platform
  size : Size

def ValueType.converts : ValueType → ValueType → Bool
  | _, .any => true
  | .any, _ => true
  | .number, .string => true
  | .bool, .string => true
  | .color, .string => true
  | .string, .color => true
  | a, b => a == b

namespace Term

def fit (place : Location) (target : ValueType) (t : Term) : Except Error Term :=
  if t.type = target then .ok t
  else if t.type.converts target then .ok (.coerce t target)
  else .error (.expressionType place (.mismatch target t.type))

def fitAll (target : ValueType) : List Location → List Term → Except Error (List Term)
  | place :: places, t :: ts => do
      let u ← t.fit place target
      let us ← fitAll target places ts
      return u :: us
  | _, _ => .ok []

/-- The wanted type if it is a definite one, else the type that all terms share. -/
def common (want : Option ValueType) (terms : List Term) : ValueType :=
  match want with
  | some .any | none =>
      match terms with
      | [] => .any
      | t :: ts => if ts.all (·.type == t.type) then t.type else .any
  | some type => type

end Term

namespace Elaboration

/-- A literal; text is resolved where a color is wanted. -/
def literal (env : Env) (want : Option ValueType) (place : Location) :
    Literal → Except Error Term
  | .string s =>
      if want = some .color then
        match env.style.resolveColor? env.platform s with
        | some c => .ok (.literal (.color c))
        | none => .error (.invalidColor place s)
      else .ok (.literal (.string s))
  | l => .ok (.literal l)

/-- The default of a read; text is resolved where a color is wanted. -/
def default? (env : Env) (want : Option ValueType) (place : Location) :
    Option Literal → Except Error (Option Literal)
  | some (.string s) =>
      if want = some .color then
        match env.style.resolveColor? env.platform s with
        | some c => .ok (some (.color c))
        | none => .error (.invalidColor place s)
      else .ok (some (.string s))
  | l => .ok l

/-- A read of a binding. The canvas size is known; anything else is read at the type of its default,
or else at the wanted type. A nullable read yields nothing rather than its default. -/
def get (env : Env) (want : Option ValueType) (nullable : Bool) (place : Location) (b : Binding)
    (fallback : Option Literal) : Except Error Term :=
  if b.scope = .size then
    match b.axis? with
    | some .width => .ok (.literal (.number env.size.width))
    | some .height => .ok (.literal (.number env.size.height))
    | none => .error (.schema place (.unresolvedSize b))
  else do
    let fallback ← default? env want place fallback
    match fallback with
    | some l => return .read b l.type (if nullable then .null else .default l)
    | none => return .read b (want.getD .any) (if nullable then .null else .zero)

/-- How an operand is elaborated: brought to a type, only told the wanted type, the same but
nullable, or not at all because it must be a number of decimals. -/
inductive Mode where
  | expect (type : ValueType)
  | offer (want : Option ValueType)
  | nullable (want : Option ValueType)
  | decimals

def labelType (e : Expr) : Except Error ValueType :=
  match e with
  | .literal _ (.number _) => .ok .number
  | .literal _ (.string _) => .ok .string
  | e => .error (.expressionType e.place .labelNotLiteral)

/-- The type that labels share, given the type of those before; `args` starts at a label and ends
with the fallback. -/
def labelsType (before : Option ValueType) : List Expr → Except Error ValueType
  | label :: _ :: rest => do
      let type ← labelType label
      if before.isSome ∧ before ≠ some type then
        throw (.expressionType label.place .labelTypesDiffer)
      labelsType (some type) rest
  | _ => .ok (before.getD .string)

/-- The mode of the operand at an index out of a number of operands; `label` is the type of the
labels of `match`. -/
def mode (op : Operator) (want : Option ValueType) (label : ValueType) (count i : Nat) : Mode :=
  match op with
  | .add | .sub | .mul | .div | .mod | .rgb | .rgba => .expect .number
  | .eq | .ne | .lt | .le | .gt | .ge => .offer none
  | .all | .any | .not => .expect .bool
  | .case => if i % 2 = 0 ∧ i + 1 < count then .expect .bool else .offer want
  | .match' =>
      if i = 0 then .expect label
      else if i % 2 = 1 ∧ i + 1 < count then .offer none
      else .offer want
  | .coalesce => if i + 1 < count then .nullable want else .offer want
  | .concat | .upcase | .downcase => .expect .string
  | .toString => .offer none
  | .formatNumber => if i = 0 then .expect .number else if i = 1 then .expect .string else .decimals
  | .substring => if i = 0 then .expect .string else .expect .number
  | .formatDate => .offer none
  | .interpolateColor => if i = 2 then .expect .number else .expect .color
  | .themeColor => .offer none

/-- What is checked of the operands before any of them is elaborated; gives the type of labels. -/
def precheck (op : Operator) (args : List Expr) : Except Error ValueType :=
  match op, args with
  | .match', _ :: rest => labelsType none rest
  | .formatDate, [_, pattern] =>
      match pattern with
      | .literal place (.string s) =>
          match Date.Pattern.parse s with
          | .ok _ => .ok .any
          | .error e => .error (.expressionType place (.badPattern e))
      | e => .error (.expressionType e.place .patternNotLiteral)
  | _, _ => .ok .any

def decimals (e : Expr) : Except Error Term :=
  match e with
  | .literal place (.number x) =>
      if Decimal.isWhole x && 0.0 ≤ x && x ≤ 6.0 then .ok (.literal (.number x))
      else .error (.expressionType place .badDecimals)
  | e => .error (.expressionType e.place .badDecimals)

def comparedType (place : Location) (ordered : Bool) (a b : ValueType) : Except Error ValueType := do
  let type ←
    if a = b then pure a
    else if a = .any then pure b
    else if b = .any then pure a
    else throw (.expressionType place (.incomparable a b))
  if !ordered then return type
  match type with
  | .any => return .number
  | .number => return .number
  | .string => return .string
  | other => throw (.expressionType place (.unordered other))

/-- Entries at even positions and entries at odd positions. -/
def unzipAlternate {α : Type} : List α → List α × List α
  | [] => ([], [])
  | a :: rest =>
      let (evens, odds) := unzipAlternate rest
      (a :: odds, evens)

/-- Two lists in alternation, the first one first; what is left over follows. -/
def zipAlternate {α : Type} : List α → List α → List α
  | [], bs => bs
  | a :: as, [] => a :: as
  | a :: as, b :: bs => a :: b :: zipAlternate as bs

/-- Conditions or labels, and the branches after them with the fallback: alternating operands of
which the last is the fallback. -/
def branches {α : Type} (alternating : List α) : List α × List α :=
  let (guards, outs) := unzipAlternate alternating.dropLast
  (guards, outs ++ alternating.getLast?.toList)

def unifyBranches (want : Option ValueType) (places : List Location) (terms : List Term) :
    Except Error (List Term × ValueType) := do
  let (guards, outs) := branches terms
  let type := Term.common want outs
  let outs ← Term.fitAll type (branches places).2 outs
  return (zipAlternate guards outs, type)

def assemble (op : Operator) (want : Option ValueType) (place : Location) (places : List Location)
    (terms : List Term) : Except Error Term :=
  match op with
  | .add | .sub | .mul | .div | .mod => .ok (.apply op terms .number)
  | .eq | .ne => compared false
  | .lt | .le | .gt | .ge => compared true
  | .all | .any | .not => .ok (.apply op terms .bool)
  | .case => do
      let (args, type) ← unifyBranches want places terms
      return .apply .case args type
  | .match' => do
      let (args, type) ← unifyBranches want places.tail terms.tail
      return .apply .match' (terms.head?.toList ++ args) type
  | .coalesce => do
      let type := Term.common want terms
      let args ← Term.fitAll type places terms
      return .apply .coalesce args type
  | .toString =>
      match places, terms with
      | p :: _, t :: _ => t.fit p .string
      | _, _ => .ok (.apply op terms .string)
  | .formatNumber =>
      match terms with
      | [x] => .ok (.apply op [x, .literal (.string ""), .literal (.number 0.0)] .string)
      | [x, unit] => .ok (.apply op [x, unit, .literal (.number 0.0)] .string)
      | terms => .ok (.apply op terms .string)
  | .concat | .upcase | .downcase | .substring | .formatDate => .ok (.apply op terms .string)
  | .rgb | .rgba | .interpolateColor | .themeColor => .ok (.apply op terms .color)
where
  compared (ordered : Bool) : Except Error Term :=
    match places, terms with
    | [p, q], [a, b] => do
        let type ← comparedType place ordered a.type b.type
        let a ← a.fit p type
        let b ← b.fit q type
        return .apply op [a, b] .bool
    | _, _ => .ok (.apply op terms .bool)

def themeColor (env : Env) : List Expr → Except Error Term
  | [.literal place (.string token)] =>
      match env.style.themeColor? env.platform token with
      | some c => .ok (.literal (.color c))
      | none => .error (.invalidColor place token)
  | e :: _ => .error (.expressionType e.place .tokenNotLiteral)
  | [] => .ok (.apply .themeColor [] .color)

mutual

/-- The term of an expression, told the wanted type. -/
def expr (env : Env) (want : Option ValueType) : Expr → Except Error Term
  | .literal place l => literal env want place l
  | .get place b fallback => get env want false place b fallback
  | .has _ b => .ok (.presence b)
  | .op place op args =>
      if !op.arity.admits args.length then
        .error (.expressionType place (.arity op args.length))
      else if op = .themeColor then themeColor env args
      else do
        let label ← precheck op args
        let terms ← operands env (mode op want label args.length) 0 args
        assemble op want place (args.map Expr.place) terms

def operands (env : Env) (modeAt : Nat → Mode) (i : Nat) : List Expr → Except Error (List Term)
  | [] => .ok []
  | e :: es => do
      let t ← match modeAt i with
        | .expect type => do
            let t ← expr env (some type) e
            t.fit e.place type
        | .offer want => expr env want e
        | .nullable want =>
            match e with
            | .get place b fallback => get env want true place b fallback
            | _ => expr env want e
        | .decimals => decimals e
      let ts ← operands env modeAt (i + 1) es
      return t :: ts

end

def property (env : Env) (expected : ValueType) (place : Location) (v : PropertyValue) :
    Except Error Term := do
  let t ← match v with
    | .literal l => literal env (some expected) place l
    | .binding b => get env (some expected) false place b none
    | .setting key => get env (some expected) false place (.setting key) none
    | .expression e => expr env (some expected) e
  t.fit place expected

end Elaboration

end Widgetry
