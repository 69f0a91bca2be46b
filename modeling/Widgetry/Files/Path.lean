import Widgetry.Text.Basic

/-!
# Paths

A path keeps the spelling it was given, since messages show it. Its names say what it denotes.
-/

namespace Widgetry

structure Path where
  text : String
deriving DecidableEq, Repr

namespace Path

def parts (p : Path) : List String := (Text.splitOn '/' p.text.toList).map String.ofList

def endsInSlash (p : Path) : Bool := p.text.toList.getLast? == some '/'

/-- The steps of a walk along a path; a slash at the end asks for a directory, as `.` does. -/
def steps (p : Path) : List String :=
  p.parts.filter (! ·.isEmpty) ++ if p.endsInSlash then ["."] else []

/-- The names on a path, without the steps that stay in place. -/
def names (p : Path) : List String := p.steps.filter (· != ".")

/-- Whether names come no later than others, name by name. -/
def namesUpTo : List String → List String → Bool
  | [], _ => true
  | _ :: _, [] => false
  | a :: as, b :: bs =>
      match compare a b with
      | .lt => true
      | .eq => namesUpTo as bs
      | .gt => false

def join (p : Path) (name : String) : Path :=
  if p.text.isEmpty || p.endsInSlash then ⟨p.text ++ name⟩ else ⟨p.text ++ "/" ++ name⟩

/-- Drops the parts at the end that name nothing; the first part always stands. The list is in
reverse order. -/
def dropIdle : List String → List String
  | part :: next :: rest =>
      if part == "" || part == "." then dropIdle (next :: rest) else part :: next :: rest
  | parts => parts

def parent? (p : Path) : Option Path :=
  match dropIdle p.parts.reverse with
  | [] => none
  | [first] => if first.isEmpty then none else some ⟨""⟩
  | _ :: rest =>
      match dropIdle rest with
      | [""] => some ⟨"/"⟩
      | parts => some ⟨Text.joinWith "/" parts.reverse⟩

def below (base p : Path) : String :=
  Text.joinWith "/" (p.names.drop base.names.length)

/-- The parts of a file name before and after its last dot; a dot at the front divides nothing. -/
def splitName (name : String) : String × Option String :=
  let letters := name.toList.reverse
  match letters.dropWhile (· != '.') with
  | '.' :: c :: stem =>
      (String.ofList (c :: stem).reverse, some (String.ofList (letters.takeWhile (· != '.')).reverse))
  | _ => (name, none)

def fileName (p : Path) : String := p.names.getLastD ""

def stem (p : Path) : String := (splitName p.fileName).1

def extension? (p : Path) : Option String := (splitName p.fileName).2

end Path

end Widgetry
