import Widgetry.Text.Cased
import Widgetry.Text.CaseTable

/-!
# Case mapping of text

Full mapping: one character may become several, and a capital sigma becomes its final form at the
end of a word.
-/

namespace Widgetry.Text

/-- The letter after `c` in a list of letters and their partners by turns. -/
def partner? : List Char → Char → Option Char
  | a :: b :: rest, c => if a = c then some b else partner? rest c
  | _, _ => none

/-- What the word that starts with `c` maps it to. -/
def longer? (words : String) (c : Char) : Option (List Char) :=
  (words.splitOn " ").findSome? fun word =>
    match word.toList with
    | a :: image => if a = c then some image else none
    | [] => none

/-- The mapping of a character by longer results, partners and runs. -/
def mapCase (longer : String) (partners : List Char) (runs : List CaseRun) (c : Char) : List Char :=
  match longer? longer c, partner? partners c, runs.find? (·.covers c.toNat) with
  | some image, _, _ => image
  | none, some partner, _ => [partner]
  | none, none, some r => [Char.ofNat (shift c.toNat r.delta)]
  | none, none, none => [c]

def upperChar (c : Char) : List Char :=
  if c.toNat < 128 then [c.toUpper]
  else mapCase longerCapitals (smallPairs ++ smallOnly).toList smallRuns c

def lowerChar (c : Char) : List Char :=
  if c.toNat < 128 then [c.toLower]
  else mapCase longerSmalls (smallPairs.toList.reverse ++ capitalOnly.toList)
    (smallRuns.map CaseRun.back) c

/-- Whether the first character that case rules do not skip is a cased letter. -/
def meetsCased (cs : List Char) : Bool :=
  match cs.dropWhile isCaseIgnorable with
  | c :: _ => isCased c
  | [] => false

/-- Lowercase of a sigma between the reversed text before it and the text after it: final when a
letter stands before and none after. -/
def lowerSigma (before after : List Char) : Char :=
  if meetsCased before && !meetsCased after then 'ς' else 'σ'

/-- Lowercase of the second list, the first one reversed standing before it. -/
def lowerFrom (before : List Char) : List Char → List Char
  | [] => []
  | c :: cs =>
      (if c = 'Σ' then [lowerSigma before cs] else lowerChar c) ++ lowerFrom (c :: before) cs

def upcase (s : String) : String := String.ofList (s.toList.flatMap upperChar)

def downcase (s : String) : String := String.ofList (lowerFrom [] s.toList)

end Widgetry.Text
