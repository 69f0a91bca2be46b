/-!
# Places and faults in JSON text

A place counts lines from one and, within the line, the bytes read so far.
-/

namespace Widgetry.Json

/-- A place in a text: the line, and the bytes of that line before the place. -/
structure Position where
  line : Nat
  column : Nat
deriving DecidableEq, Repr

namespace Position

def origin : Position := ⟨1, 0⟩

def after (p : Position) (c : Char) : Position :=
  if c = '\n' then ⟨p.line + 1, 0⟩ else ⟨p.line, p.column + c.utf8Size⟩

def afterByte (p : Position) (c : Char) : Position :=
  if c = '\n' then ⟨p.line + 1, 0⟩ else ⟨p.line, p.column + 1⟩

def render (p : Position) : String :=
  "line " ++ toString p.line ++ " column " ++ toString p.column

end Position

inductive SyntaxFault where
  | endInList
  | endInObject
  | endInString
  | endInValue
  | expectedColon
  | expectedListSeparator
  | expectedObjectSeparator
  | expectedWord
  | expectedValue
  | invalidEscape
  | invalidNumber
  | numberOutOfRange
  | controlCharacter
  | keyNotString
  | loneSurrogate
  | trailingComma
  | trailingCharacters
  | brokenSurrogatePair
  | tooDeep
deriving DecidableEq, Repr

def SyntaxFault.message : SyntaxFault → String
  | .endInList => "EOF while parsing a list"
  | .endInObject => "EOF while parsing an object"
  | .endInString => "EOF while parsing a string"
  | .endInValue => "EOF while parsing a value"
  | .expectedColon => "expected `:`"
  | .expectedListSeparator => "expected `,` or `]`"
  | .expectedObjectSeparator => "expected `,` or `\x7d`"
  | .expectedWord => "expected ident"
  | .expectedValue => "expected value"
  | .invalidEscape => "invalid escape"
  | .invalidNumber => "invalid number"
  | .numberOutOfRange => "number out of range"
  | .controlCharacter => "control character (\\u0000-\\u001F) found while parsing a string"
  | .keyNotString => "key must be a string"
  | .loneSurrogate => "lone leading surrogate in hex escape"
  | .trailingComma => "trailing comma"
  | .trailingCharacters => "trailing characters"
  | .brokenSurrogatePair => "unexpected end of hex escape"
  | .tooDeep => "recursion limit exceeded"

structure SyntaxError where
  fault : SyntaxFault
  place : Position
deriving DecidableEq, Repr

def SyntaxError.message (e : SyntaxError) : String :=
  e.fault.message ++ " at " ++ e.place.render

structure Cursor where
  rest : List Char
  place : Position

namespace Cursor

def ofString (s : String) : Cursor := ⟨s.toList, .origin⟩

def skip (c : Cursor) : Cursor :=
  match c.rest with
  | [] => c
  | ch :: cs => ⟨cs, c.place.after ch⟩

def isSpace (c : Char) : Bool := c == ' ' || c == '\n' || c == '\t' || c == '\r'

def skipSpaceFrom : List Char → Position → Cursor
  | [], p => ⟨[], p⟩
  | c :: cs, p => if isSpace c then skipSpaceFrom cs (p.after c) else ⟨c :: cs, p⟩

def skipSpace (c : Cursor) : Cursor := skipSpaceFrom c.rest c.place

def failHere (c : Cursor) (fault : SyntaxFault) : SyntaxError := ⟨fault, c.place⟩

/-- A fault noticed at the byte that comes next, if there is one. -/
def failNext (c : Cursor) (fault : SyntaxFault) : SyntaxError :=
  match c.rest with
  | [] => ⟨fault, c.place⟩
  | ch :: _ => ⟨fault, c.place.afterByte ch⟩

/-- A fault at the end of the text, or else another one at the byte that comes next. -/
def failAt (c : Cursor) (ended other : SyntaxFault) : SyntaxError :=
  c.failNext (if c.rest.isEmpty then ended else other)

def isAt (c : Cursor) (ch : Char) : Bool := c.rest.head? == some ch

def isAtDigit (c : Cursor) : Bool := c.rest.head?.any Char.isDigit

end Cursor

end Widgetry.Json
