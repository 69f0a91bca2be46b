/-!
# Pieces of text

Splitting, searching and classes of ASCII characters on lists of characters.
-/

namespace Widgetry.Text

/-- Pieces of a list between the places where a separator stands; there is always one piece. -/
def splitOn (separator : Char) : List Char → List (List Char)
  | [] => [[]]
  | c :: cs =>
      if c = separator then [] :: splitOn separator cs
      else match splitOn separator cs with
        | piece :: pieces => (c :: piece) :: pieces
        | [] => [[c]]

def lines (s : String) : List String :=
  (splitOn '\n' s.toList).map String.ofList

def dropPrefix? : List Char → List Char → Option (List Char)
  | [], cs => some cs
  | _ :: _, [] => none
  | p :: ps, c :: cs => if p = c then dropPrefix? ps cs else none

/-- Text before and after the first occurrence of a pair of equal characters. -/
def breakOnPair (mark : Char) : List Char → Option (List Char × List Char)
  | [] => none
  | [_] => none
  | a :: b :: cs =>
      if a = mark ∧ b = mark then some ([], cs)
      else (breakOnPair mark (b :: cs)).map fun (before, after) => (a :: before, after)

def isAsciiLetter (c : Char) : Bool := c.isAlpha

def isAsciiAlphanum (c : Char) : Bool := c.isAlphanum

/-- A letter or underscore followed by letters, digits and underscores, all ASCII. -/
def isIdentifierList : List Char → Bool
  | [] => false
  | c :: cs => (isAsciiLetter c || c == '_') && cs.all fun d => isAsciiAlphanum d || d == '_'

def isIdentifier (s : String) : Bool := isIdentifierList s.toList

/-- Words of letters and digits, each starting with a capital, without what stands between them;
`fresh` says that a word starts here. -/
def pascalFrom : Bool → List Char → List Char
  | _, [] => []
  | fresh, c :: cs =>
      if isAsciiAlphanum c then (if fresh then c.toUpper else c) :: pascalFrom false cs
      else pascalFrom true cs

def pascal (s : String) : String := String.ofList (pascalFrom true s.toList)

def hexUpper (width n : Nat) : String :=
  let ds := (Nat.toDigits 16 n).map Char.toUpper
  String.ofList (List.replicate (width - ds.length) '0' ++ ds)

/-- The ASCII digits and letters `a` to `f` with their value. -/
def hexValue? (c : Char) : Option Nat :=
  if '0' ≤ c ∧ c ≤ '9' then some (c.toNat - '0'.toNat)
  else if 'a' ≤ c ∧ c ≤ 'f' then some (c.toNat - 'a'.toNat + 10)
  else if 'A' ≤ c ∧ c ≤ 'F' then some (c.toNat - 'A'.toNat + 10)
  else none

def joinWith (separator : String) (items : List String) : String :=
  String.intercalate separator items

end Widgetry.Text
