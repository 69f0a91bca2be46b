import Widgetry.Text.Basic
import Widgetry.Json.Syntax

/-!
# Strings in JSON text

Reading starts after the opening quote and ends after the closing one.
-/

namespace Widgetry.Json.Quotation

open Widgetry.Text (hexValue?)

/-- The place after a number of bytes, or `none` when the text is shorter. -/
def placeAfterBytes : Nat → List Char → Position → Option Position
  | 0, _, p => some p
  | _ + 1, [], _ => none
  | n + 1, c :: cs, p =>
      if c.utf8Size ≤ n + 1 then placeAfterBytes (n + 1 - c.utf8Size) cs (p.after c)
      else some ⟨p.line, p.column + (n + 1)⟩
termination_by n => n
decreasing_by have := c.utf8Size_pos; omega

def placeAtEnd (cs : List Char) (p : Position) : Position := cs.foldl Position.after p

/-- Four hexadecimal digits; the four bytes are taken together before they are looked at. -/
def readHex (c : Cursor) : Except SyntaxError (Nat × Cursor) :=
  match c.rest with
  | a :: b :: d :: e :: rest =>
      match hexValue? a, hexValue? b, hexValue? d, hexValue? e with
      | some x, some y, some z, some w =>
          .ok (((x * 16 + y) * 16 + z) * 16 + w, ⟨rest, ⟨c.place.line, c.place.column + 4⟩⟩)
      | _, _, _, _ => failed
  | _ => failed
where
  failed : Except SyntaxError (Nat × Cursor) :=
    match placeAfterBytes 4 c.rest c.place with
    | some p => .error ⟨.invalidEscape, p⟩
    | none => .error ⟨.endInString, placeAtEnd c.rest c.place⟩

def isLowSurrogate (n : Nat) : Bool := 0xdc00 ≤ n && n ≤ 0xdfff

def isHighSurrogate (n : Nat) : Bool := 0xd800 ≤ n && n ≤ 0xdbff

/-- Takes one expected character of the second half of a surrogate pair. -/
def expectPair (ch : Char) (c : Cursor) : Except SyntaxError (Unit × Cursor) :=
  if c.isAt ch then .ok ((), c.skip) else .error (c.failAt .endInString .brokenSurrogatePair)

def readUnicode (c : Cursor) : Except SyntaxError (Char × Cursor) := do
  let (n, c) ← readHex c
  if isLowSurrogate n then throw (c.failHere .loneSurrogate)
  if !isHighSurrogate n then return (Char.ofNat n, c)
  let (_, c) ← expectPair '\\' c
  let (_, c) ← expectPair 'u' c
  let (m, c) ← readHex c
  if isLowSurrogate m then
    return (Char.ofNat ((n - 0xd800) * 0x400 + (m - 0xdc00) + 0x10000), c)
  throw (c.failHere .loneSurrogate)

def simpleEscape? (c : Char) : Option Char :=
  if c = '"' ∨ c = '\\' ∨ c = '/' then some c
  else if c = 'b' then some '\x08'
  else if c = 'f' then some '\x0c'
  else if c = 'n' then some '\n'
  else if c = 'r' then some '\r'
  else if c = 't' then some '\t'
  else none

def readEscape (c : Cursor) : Except SyntaxError (Char × Cursor) :=
  if c.isAt 'u' then readUnicode c.skip
  else
    match c.rest with
    | [] => .error (c.failHere .endInString)
    | d :: _ =>
        match simpleEscape? d with
        | some ch => .ok (ch, c.skip)
        | none => .error ⟨.invalidEscape, c.place.afterByte d⟩

/-- Reads characters up to the closing quote, `read` holding those before in reverse. -/
def readFrom : Nat → List Char → Cursor → Except SyntaxError (List Char × Cursor)
  | 0, _, c => .error (c.failHere .endInString)
  | fuel + 1, read, c =>
      if c.isAt '"' then .ok (read.reverse, c.skip)
      else if c.isAt '\\' then do
        let (ch, c) ← readEscape c.skip
        readFrom fuel (ch :: read) c
      else
        match c.rest with
        | [] => .error (c.failHere .endInString)
        | ch :: _ =>
            if ch.toNat < 0x20 then .error (c.skip.failHere .controlCharacter)
            else readFrom fuel (ch :: read) c.skip

def read (c : Cursor) : Except SyntaxError (String × Cursor) :=
  (readFrom (c.rest.length + 1) [] c).map fun (cs, c) => (String.ofList cs, c)

end Widgetry.Json.Quotation
