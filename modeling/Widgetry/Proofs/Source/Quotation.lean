import Widgetry.Source.KotlinCode
import Widgetry.Source.SwiftCode

/-!
# String literals read back

A literal is read up to the quotation mark that closes it. Both languages know the same escapes, but
for the dollar sign: where it starts a template it has to be escaped, and where it does not there is
no such escape; there a backslash before a parenthesis puts code into the literal.

What the compiler quotes reads back as the text it was given, whatever follows.
-/

namespace Widgetry.Source

/-- What the reading of a literal comes to: the text that it stands for with what follows it, or the
first thing that is no text. -/
inductive Quoted where
  | text (content rest : List Char)
  | substitution
  | lineBreak
  | unknownEscape
  | unclosed
  | unopened
deriving DecidableEq

namespace Quoted

def push (c : Char) : Quoted → Quoted
  | text content rest => text (c :: content) rest
  | other => other

/-- The character that an escape stands for, by the one behind its backslash. -/
def escaped? (target : SourceTarget) (c : Char) : Option Char :=
  if c = '\\' ∨ c = '"' then some c
  else if c = 'n' then some '\n'
  else if c = 'r' then some '\r'
  else if c = 't' then some '\t'
  else if c = '$' ∧ target = .glance then some c
  else none

/-- Reads a literal from behind its opening quotation mark, or from behind the backslash of one of its
escapes. -/
def readBody (target : SourceTarget) : Bool → List Char → Quoted
  | _, [] => unclosed
  | true, c :: cs =>
      if c = '(' ∧ target = .swiftUI then substitution
      else match escaped? target c with
        | some e => (readBody target false cs).push e
        | none => unknownEscape
  | false, c :: cs =>
      if c = '"' then text [] cs
      else if c = '\n' ∨ c = '\r' then lineBreak
      else if c = '$' ∧ target = .glance then substitution
      else if c = '\\' then readBody target true cs
      else (readBody target false cs).push c

def read (target : SourceTarget) : List Char → Quoted
  | '"' :: cs => readBody target false cs
  | _ => unopened

end Quoted

def quote : SourceTarget → String → String
  | .glance => Kotlin.quote
  | .swiftUI => Swift.quote

def escape : SourceTarget → Char → String
  | .glance => Kotlin.escape
  | .swiftUI => Swift.escape

theorem quote_toList (target : SourceTarget) (s : String) :
    (quote target s).toList = '"' :: s.toList.flatMap (fun c => (escape target c).toList) ++ ['"'] := by
  cases target <;>
    simp [quote, escape, Kotlin.quote, Swift.quote, List.flatMap, Function.comp_def]

/-- A character that is written as it stands is read as it stands. -/
theorem readBody_cons {target : SourceTarget} {c : Char} (hslash : c ≠ '\\') (hquote : c ≠ '"')
    (hdollar : target = .glance → c ≠ '$') (hline : c ≠ '\n') (hreturn : c ≠ '\r')
    (cs : List Char) :
    Quoted.readBody target false (c :: cs) = (Quoted.readBody target false cs).push c := by
  rw [Quoted.readBody, if_neg hquote, if_neg (not_or.mpr ⟨hline, hreturn⟩),
    if_neg fun h => hdollar h.2 h.1, if_neg hslash]

theorem readBody_escape (target : SourceTarget) (c : Char) (cs : List Char) :
    Quoted.readBody target false ((escape target c).toList ++ cs) =
      (Quoted.readBody target false cs).push c := by
  cases target with
  | glance =>
    simp only [escape]
    unfold Kotlin.escape
    split
    iterate 6 rfl
    rw [String.toList_singleton]
    exact readBody_cons ‹_› ‹_› (fun _ => ‹_›) ‹_› ‹_› cs
  | swiftUI =>
    simp only [escape]
    unfold Swift.escape
    split
    iterate 5 rfl
    rw [String.toList_singleton]
    exact readBody_cons ‹_› ‹_› (fun h => absurd h (by decide)) ‹_› ‹_› cs

theorem readBody_escaped (target : SourceTarget) (content rest : List Char) :
    Quoted.readBody target false
        (content.flatMap (fun c => (escape target c).toList) ++ '"' :: rest) =
      .text content rest := by
  induction content with
  | nil => rfl
  | cons c content ih =>
    rw [List.flatMap_cons, List.append_assoc, readBody_escape, ih]
    rfl

/-- A literal stands for the text that was quoted: read with anything behind it, it ends where its
own text ends, and neither a substitution nor a line break is met on the way. -/
theorem read_quote (target : SourceTarget) (s t : String) :
    Quoted.read target (quote target s ++ t).toList = .text s.toList t.toList := by
  rw [String.toList_append, quote_toList, List.append_assoc, List.singleton_append, List.cons_append]
  exact readBody_escaped target s.toList t.toList

-- Left as they are, these characters would not be text.
example : Quoted.read .glance ['"', 'a', '$', 'b', '"'] = .substitution := by decide

example : Quoted.read .swiftUI ['"', 'a', '\\', '(', 'b', ')', '"'] = .substitution := by decide

end Widgetry.Source
