import Mathlib.Data.List.Forall2
import Widgetry.Proofs.Table
import Widgetry.View.Markup

/-!
# Reading markup back

A reader of markup goes through the characters once. It takes the value of an attribute and the text
between tags as they come, up to the closing quote and the next tag, and then resolves the references
to characters. From the markup of a tree it reads the tags of the tree, with the attributes and the
texts that the tree has.
-/

namespace Widgetry

open List

variable {c : Char} {cs : List Char} {m : Markup} {properties : Table String String}

namespace Markup

/-! ### The reader -/

inductive Node where
  | text (s : String)
  | element (tag : String) (attributes : List (String × String)) (content : List Node)

def isNameChar (c : Char) : Bool := c.isAlphanum || c == '-'

def isName (s : String) : Bool := !s.toList.isEmpty && s.toList.all isNameChar

def unescape : List Char → List Char
  | '&' :: 'a' :: 'm' :: 'p' :: ';' :: cs => '&' :: unescape cs
  | '&' :: 'l' :: 't' :: ';' :: cs => '<' :: unescape cs
  | '&' :: 'g' :: 't' :: ';' :: cs => '>' :: unescape cs
  | '&' :: 'q' :: 'u' :: 'o' :: 't' :: ';' :: cs => '"' :: unescape cs
  | c :: cs => c :: unescape cs
  | [] => []

/-- Text between tags, unless there is none. -/
def textNodes (cs : List Char) : List Node :=
  if cs.isEmpty then [] else [.text (String.ofList (unescape cs))]

/-- Where a reader stands: in text, after `<`, in a tag and its attributes, or in a closing tag. -/
inductive Mode where
  | text (cs : List Char)
  | start
  | opening (cs : List Char)
  | inside (tag : String) (attributes : List (String × String))
  | name (tag : String) (attributes : List (String × String)) (cs : List Char)
  | equals (tag : String) (attributes : List (String × String)) (name : String)
  | value (tag : String) (attributes : List (String × String)) (name : String) (cs : List Char)
  | slash (tag : String) (attributes : List (String × String))
  | closing (cs : List Char)

/-- An element that is not closed yet, with what stands before it in the element around it. -/
structure Frame where
  tag : String
  attributes : List (String × String)
  before : List Node

structure Reading where
  outer : List Frame
  content : List Node
  mode : Mode

namespace Reading

def start : Reading := ⟨[], [], .text []⟩

/-- Enters an element; in HTML a void tag makes one without content. -/
def enter (m : Markup) (r : Reading) (tag : String) (attributes : List (String × String)) :
    Reading :=
  if m = .html ∧ voidTags.contains tag then
    ⟨r.outer, r.content ++ [.element tag attributes []], .text []⟩
  else ⟨⟨tag, attributes, r.content⟩ :: r.outer, [], .text []⟩

/-- Leaves the innermost element, which must have the tag. -/
def leave? (r : Reading) (tag : String) : Option Reading :=
  match r.outer with
  | [] => none
  | frame :: outer =>
      if frame.tag = tag then
        some ⟨outer, frame.before ++ [.element tag frame.attributes r.content], .text []⟩
      else none

/-- Reads a character. HTML has attributes without value, XML has elements that close at once. -/
def step (m : Markup) (r : Reading) (c : Char) : Option Reading :=
  match r.mode with
  | .text cs =>
      if c = '<' then some ⟨r.outer, r.content ++ textNodes cs, .start⟩
      else some { r with mode := .text (cs ++ [c]) }
  | .start =>
      if c = '/' then some { r with mode := .closing [] }
      else if isNameChar c then some { r with mode := .opening [c] }
      else none
  | .opening cs =>
      if c = ' ' then some { r with mode := .inside (String.ofList cs) [] }
      else if c = '>' then some (r.enter m (String.ofList cs) [])
      else if isNameChar c then some { r with mode := .opening (cs ++ [c]) }
      else none
  | .inside tag attributes =>
      if c = ' ' then some r
      else if c = '>' then some (r.enter m tag attributes)
      else if c = '/' ∧ m = .xml then some { r with mode := .slash tag attributes }
      else if isNameChar c then some { r with mode := .name tag attributes [c] }
      else none
  | .name tag attributes cs =>
      if c = '=' then some { r with mode := .equals tag attributes (String.ofList cs) }
      else if isNameChar c then some { r with mode := .name tag attributes (cs ++ [c]) }
      else if m = .xml then none
      else if c = ' ' then some { r with mode := .inside tag (attributes ++ [(String.ofList cs, "")]) }
      else if c = '>' then some (r.enter m tag (attributes ++ [(String.ofList cs, "")]))
      else none
  | .equals tag attributes name =>
      if c = '"' then some { r with mode := .value tag attributes name [] } else none
  | .value tag attributes name cs =>
      if c = '"' then
        some { r with
          mode := .inside tag (attributes ++ [(name, String.ofList (unescape cs))]) }
      else some { r with mode := .value tag attributes name (cs ++ [c]) }
  | .slash tag attributes =>
      if c = '>' then some ⟨r.outer, r.content ++ [.element tag attributes []], .text []⟩ else none
  | .closing cs =>
      if c = '>' then r.leave? (String.ofList cs)
      else if isNameChar c then some { r with mode := .closing (cs ++ [c]) }
      else none

end Reading

/-- What a text says as markup, if all of its elements are closed. -/
def read (m : Markup) (s : String) : Option (List Node) :=
  match s.toList.foldlM (Reading.step m) .start with
  | some ⟨[], content, .text cs⟩ => some (content ++ textNodes cs)
  | _ => none

/-! ### What markup shows -/

/-- Whether this is nothing but blanks between tags. -/
def Node.isBlank : Node → Bool
  | .text s => s.toList.all fun c => c == ' ' || c == '\n'
  | .element _ _ _ => false

/-- Content without blanks between tags. -/
def solid (content : List Node) : List Node := content.filter fun n => !n.isBlank

/-- The declaration that a property is, if it is one. -/
def declaration? (p : String × String) : Option String :=
  (Text.dropPrefix? "style:".toList p.1.toList).map fun name =>
    String.ofList name ++ ": " ++ p.2

/-- The text that a view shows between its tags. -/
def text? (m : Markup) (properties : Table String String) : Option String :=
  if m = .html then properties.get? "textContent" else none

def isAttribute (m : Markup) (p : String × String) : Bool :=
  (declaration? p).isNone && !(m == .html && p.1 == "textContent")

/-- The attributes of a view: its properties in order, then its declarations as inline style. -/
def shownAttributes (m : Markup) (properties : Table String String) : List (String × String) :=
  let declarations := properties.filterMap declaration?
  properties.filter m.isAttribute ++
    if declarations.isEmpty then [] else [("style", Text.joinWith "; " declarations)]

/-- An element of markup that shows a view, its properties and all below it. -/
inductive Shows (m : Markup) (t : ViewTree) : Nat → Node → Prop
  | leaf {v : Nat} {x : View} (hx : t.view? v = some x) (hchildren : x.children = []) :
      Shows m t v (.element x.tag (m.shownAttributes x.properties)
        (((m.text? x.properties).filter (· ≠ "")).map Node.text).toList)
  | parent {v : Nat} {x : View} {content : List Node} (hx : t.view? v = some x)
      (hchildren : x.children ≠ []) (htext : m.text? x.properties = none)
      (hcontent : Forall₂ (Shows m t) x.children (solid content)) :
      Shows m t v (.element x.tag (m.shownAttributes x.properties) content)

/-! ### Escaped text -/

theorem unescape_cons (h : c ≠ '&') (cs : List Char) : unescape (c :: cs) = c :: unescape cs := by
  conv_lhs => unfold unescape
  split <;> simp_all

theorem unescape_escapeChar (c : Char) (cs : List Char) :
    unescape ((escapeChar c).toList ++ cs) = c :: unescape cs := by
  unfold escapeChar
  split
  · rfl
  · rfl
  · rfl
  · rfl
  · rename_i hamp _ _ _
    rw [String.toList_singleton, singleton_append]
    exact unescape_cons hamp cs

theorem toList_escape (s : String) :
    (escape s).toList = s.toList.flatMap fun c => (escapeChar c).toList := by
  rw [escape, String.toList_join, flatMap_map]

theorem unescape_escape (s : String) : String.ofList (unescape (escape s).toList) = s := by
  have hlist : ∀ cs : List Char,
      unescape (cs.flatMap fun c => (escapeChar c).toList) = cs := by
    intro cs
    induction cs with
    | nil => rfl
    | cons c cs ih => rw [flatMap_cons, unescape_escapeChar, ih]
  rw [toList_escape, hlist, String.ofList_toList]

theorem not_mem_escape (s : String) (h : c ∈ (escape s).toList) : c ≠ '<' ∧ c ≠ '"' := by
  rw [toList_escape, mem_flatMap] at h
  obtain ⟨d, -, hc⟩ := h
  unfold escapeChar at hc
  split at hc
  · exact (by simp : ∀ c ∈ "&amp;".toList, c ≠ '<' ∧ c ≠ '"') c hc
  · exact (by simp : ∀ c ∈ "&lt;".toList, c ≠ '<' ∧ c ≠ '"') c hc
  · exact (by simp : ∀ c ∈ "&gt;".toList, c ≠ '<' ∧ c ≠ '"') c hc
  · exact (by simp : ∀ c ∈ "&quot;".toList, c ≠ '<' ∧ c ≠ '"') c hc
  · rename_i hless _ hquote
    rw [String.toList_singleton, mem_singleton] at hc
    exact hc ▸ ⟨hless, hquote⟩

/-! ### Runs of the reader -/

/-- The reader gets over some characters. -/
def Passes (m : Markup) (cs : List Char) (r r' : Reading) : Prop :=
  cs.foldlM (Reading.step m) r = some r'

section Runs

variable {m : Markup} {outer : List Frame} {content : List Node} {tag : String}
  {attributes : List (String × String)}

theorem Passes.nil (m : Markup) (r : Reading) : Passes m [] r r := rfl

variable {r r' r'' : Reading} {s name : String}

theorem Passes.cons (h : r.step m c = some r') (hrest : Passes m cs r' r'') :
    Passes m (c :: cs) r r'' := by
  unfold Passes
  rw [foldlM_cons, h]
  exact hrest

theorem Passes.append {as bs : List Char} (h : Passes m as r r') (h' : Passes m bs r' r'') :
    Passes m (as ++ bs) r r'' := by
  unfold Passes at h ⊢
  rw [foldlM_append, h]
  exact h'

theorem Passes.join {s' : String} (h : Passes m s.toList r r') (h' : Passes m s'.toList r' r'') :
    Passes m (s ++ s').toList r r'' := by
  rw [String.toList_append]
  exact h.append h'

theorem Passes.single (h : r.step m c = some r') : Passes m [c] r r' := .cons h (.nil m r')

/-- Characters that a mode only gathers. -/
theorem passes_gather {f : List Char → Mode}
    (h : ∀ c ∈ cs, ∀ seen, Reading.step m ⟨outer, content, f seen⟩ c =
      some ⟨outer, content, f (seen ++ [c])⟩) (seen : List Char) :
    Passes m cs ⟨outer, content, f seen⟩ ⟨outer, content, f (seen ++ cs)⟩ := by
  induction cs generalizing seen with
  | nil =>
    rw [append_nil]
    exact .nil m _
  | cons c cs ih =>
    obtain ⟨hc, hcs⟩ := forall_mem_cons.mp h
    have hrest := ih hcs (seen ++ [c])
    rw [append_assoc, singleton_append] at hrest
    exact .cons (hc seen) hrest

theorem passes_text (h : ∀ c ∈ cs, c ≠ '<') (seen : List Char) :
    Passes m cs ⟨outer, content, .text seen⟩ ⟨outer, content, .text (seen ++ cs)⟩ :=
  passes_gather (fun c hc _ => by simp [Reading.step, h c hc]) seen

theorem passes_value (h : ∀ c ∈ cs, c ≠ '"') (name : String) :
    Passes m cs ⟨outer, content, .value tag attributes name []⟩
      ⟨outer, content, .value tag attributes name cs⟩ :=
  passes_gather (fun c hc _ => by simp [Reading.step, h c hc]) []

/-- What ends a name is no part of it. -/
theorem ne_of_isNameChar (h : isNameChar c = true) : c ≠ ' ' ∧ c ≠ '>' ∧ c ≠ '/' ∧ c ≠ '=' := by
  refine ⟨?_, ?_, ?_, ?_⟩ <;> rintro rfl <;> exact absurd h (by decide)

theorem isNameChar_of_isName (h : isName s = true) : ∀ c ∈ s.toList, isNameChar c = true := by
  simp only [isName, Bool.and_eq_true, all_eq_true] at h
  exact h.2

theorem exists_of_isName (h : isName s = true) :
    ∃ c cs, s.toList = c :: cs ∧ isNameChar c = true ∧ ∀ d ∈ cs, isNameChar d = true := by
  have hall := isNameChar_of_isName h
  cases hs : s.toList with
  | nil => simp [isName, hs] at h
  | cons c cs =>
    rw [hs] at hall
    obtain ⟨hc, hcs⟩ := forall_mem_cons.mp hall
    exact ⟨c, cs, rfl, hc, hcs⟩

theorem passes_tag (htag : isName tag = true) (seen : List Char) :
    Passes m ('<' :: tag.toList) ⟨outer, content, .text seen⟩
      ⟨outer, content ++ textNodes seen, .opening tag.toList⟩ := by
  obtain ⟨c, cs, hlist, hc, hcs⟩ := exists_of_isName htag
  rw [hlist]
  obtain ⟨-, -, hslash, -⟩ := ne_of_isNameChar hc
  have hless : Passes m ['<'] ⟨outer, content, .text seen⟩
      ⟨outer, content ++ textNodes seen, .start⟩ := .single rfl
  have hfirst : Passes m [c] ⟨outer, content ++ textNodes seen, .start⟩
      ⟨outer, content ++ textNodes seen, .opening [c]⟩ :=
    .single (by simp [Reading.step, hc, hslash])
  refine hless.append (hfirst.append (passes_gather (fun d hd _ => ?_) [c]))
  obtain ⟨hblank, hend, -, -⟩ := ne_of_isNameChar (hcs d hd)
  simp [Reading.step, hcs d hd, hblank, hend]

theorem passes_name (hname : isName name = true) :
    Passes m name.toList ⟨outer, content, .inside tag attributes⟩
      ⟨outer, content, .name tag attributes name.toList⟩ := by
  obtain ⟨c, cs, hlist, hc, hcs⟩ := exists_of_isName hname
  rw [hlist]
  obtain ⟨hblank, hend, hslash, -⟩ := ne_of_isNameChar hc
  have hfirst : Passes m [c] ⟨outer, content, .inside tag attributes⟩
      ⟨outer, content, .name tag attributes [c]⟩ :=
    .single (by simp [Reading.step, hc, hblank, hend, hslash])
  refine hfirst.append (passes_gather (fun d hd _ => ?_) [c])
  obtain ⟨-, -, -, hequals⟩ := ne_of_isNameChar (hcs d hd)
  simp [Reading.step, hcs d hd, hequals]

/-- A closing tag ends the element of its tag and the text in it. -/
theorem passes_close (htag : isName tag = true) (before : List Node) (seen : List Char) :
    Passes m ("</" ++ tag ++ ">").toList
      ⟨⟨tag, attributes, before⟩ :: outer, content, .text seen⟩
      ⟨outer, before ++ [.element tag attributes (content ++ textNodes seen)], .text []⟩ := by
  have hname := isNameChar_of_isName htag
  have hslash : Passes m ['<', '/'] ⟨⟨tag, attributes, before⟩ :: outer, content, .text seen⟩
      ⟨⟨tag, attributes, before⟩ :: outer, content ++ textNodes seen, .closing []⟩ := rfl
  have hend : Passes m ['>']
      ⟨⟨tag, attributes, before⟩ :: outer, content ++ textNodes seen, .closing tag.toList⟩
      ⟨outer, before ++ [.element tag attributes (content ++ textNodes seen)], .text []⟩ :=
    .single (by simp [Reading.step, Reading.leave?])
  rw [String.toList_append, String.toList_append, append_assoc]
  refine hslash.append (Passes.append (passes_gather (fun d hd _ => ?_) []) hend)
  obtain ⟨-, hend, -, -⟩ := ne_of_isNameChar (hname d hd)
  simp [Reading.step, hname d hd, hend]

/-- A mode in which a tag has some attributes and may have more. -/
inductive Heads (m : Markup) (tag : String) : List (String × String) → Mode → Prop
  | tag : Heads m tag [] (.opening tag.toList)
  | value (attributes : List (String × String)) : Heads m tag attributes (.inside tag attributes)
  | bare (attributes : List (String × String)) (name : String) (h : m = .html) :
      Heads m tag (attributes ++ [(name, "")]) (.name tag attributes name.toList)

theorem Heads.blank {mode : Mode} (h : Heads m tag attributes mode) :
    Passes m [' '] ⟨outer, content, mode⟩ ⟨outer, content, .inside tag attributes⟩ := by
  refine .single ?_
  cases h with
  | tag | value => simp [Reading.step]
  | bare attributes name h =>
    subst h
    simp [Reading.step, (by decide : isNameChar ' ' = false)]

theorem Heads.enter {mode : Mode} (h : Heads m tag attributes mode) :
    Passes m ['>'] ⟨outer, content, mode⟩
      (Reading.enter m ⟨outer, content, mode⟩ tag attributes) := by
  refine .single ?_
  cases h with
  | tag | value => simp [Reading.step]
  | bare attributes name h =>
    subst h
    simp [Reading.step, (by decide : isNameChar '>' = false)]

theorem Heads.attribute {mode : Mode} (h : Heads m tag attributes mode) (hname : isName name = true)
    (value : String) :
    Passes m (" " ++ name ++ "=\"" ++ escape value ++ "\"").toList ⟨outer, content, mode⟩
      ⟨outer, content, .inside tag (attributes ++ [(name, value)])⟩ := by
  have hequals : Passes m ['=', '"'] ⟨outer, content, .name tag attributes name.toList⟩
      ⟨outer, content, .value tag attributes name []⟩ := by
    simp [Passes, Reading.step]
  have hvalue : Passes m (escape value).toList ⟨outer, content, .value tag attributes name []⟩
      ⟨outer, content, .value tag attributes name (escape value).toList⟩ :=
    passes_value (fun c hc => (not_mem_escape value hc).2) name
  have hquote : Passes m ['"']
      ⟨outer, content, .value tag attributes name (escape value).toList⟩
      ⟨outer, content, .inside tag (attributes ++ [(name, value)])⟩ :=
    .single (by simp [Reading.step, unescape_escape])
  simp only [String.toList_append, append_assoc]
  exact h.blank.append ((passes_name hname).append (hequals.append (hvalue.append hquote)))

/-- An attribute without value. -/
theorem Heads.bareAttribute {mode : Mode} (h : Heads m tag attributes mode)
    (hname : isName name = true) :
    Passes m (" " ++ name).toList ⟨outer, content, mode⟩
      ⟨outer, content, .name tag attributes name.toList⟩ := by
  exact Passes.join h.blank (passes_name hname)

end Runs

/-! ### The head of an element -/

/-- A name of a declaration or of an attribute. -/
def IsPropertyName (name : String) : Prop :=
  (Text.dropPrefix? "style:".toList name.toList).isSome = true ∨ isName name = true

instance (name : String) : Decidable (IsPropertyName name) := inferInstanceAs (Decidable (_ ∨ _))

def Piece.attribute? : Piece → Option String
  | .attribute s => some s
  | _ => none

def Piece.declaration? : Piece → Option String
  | .declaration s => some s
  | _ => none

def Piece.body? : Piece → Option String
  | .body s => some s
  | _ => none

theorem attributes_eq (ps : List Piece) :
    attributes ps = String.join (ps.filterMap Piece.attribute?) ++
      (if (ps.filterMap Piece.declaration?).isEmpty then ""
        else " style=\"" ++ escape (Text.joinWith "; " (ps.filterMap Piece.declaration?)) ++ "\"") :=
  rfl

theorem declaration?_piece (m : Markup) (p : String × String) :
    (m.piece p.1 p.2).declaration? = declaration? p := by
  unfold piece Markup.declaration?
  cases Text.dropPrefix? "style:".toList p.1.toList with
  | some d => rfl
  | none =>
    simp only [Option.map_none]
    split
    · rfl
    · split <;> rfl

variable {p : String × String}

theorem isAttribute_iff :
    m.isAttribute p = true ↔ Text.dropPrefix? "style:".toList p.1.toList = none ∧
      ¬(m = .html ∧ p.1 = "textContent") := by
  unfold isAttribute Markup.declaration?
  generalize Text.dropPrefix? "style:".toList p.1.toList = d
  cases d <;> simp [imp_iff_not_or]

/-- A property that is no attribute by itself leaves no trace among the attributes. -/
theorem attribute?_piece_of_not_isAttribute (h : m.isAttribute p = false) :
    (m.piece p.1 p.2).attribute? = none := by
  rw [Bool.eq_false_iff, Ne, isAttribute_iff] at h
  unfold piece
  cases hd : Text.dropPrefix? "style:".toList p.1.toList with
  | some d => rfl
  | none =>
    have htext : m = .html ∧ p.1 = "textContent" := by
      by_contra htext
      exact h ⟨hd, htext⟩
    simp only [if_pos htext]
    rfl

theorem isName_of_isAttribute (hname : IsPropertyName p.1) (h : m.isAttribute p = true) :
    isName p.1 = true := by
  rcases hname with hstyle | hname
  · rw [(isAttribute_iff.mp h).1] at hstyle
    cases hstyle
  · exact hname

section Head

variable {m : Markup} {outer : List Frame} {content : List Node} {tag : String}
  {attributes : List (String × String)}

/-- The reader takes a property from its piece of markup. -/
theorem Heads.piece {mode : Mode} (h : Heads m tag attributes mode) (hname : IsPropertyName p.1)
    (hp : m.isAttribute p = true) :
    ∃ s mode', (m.piece p.1 p.2).attribute? = some s ∧
      Passes m s.toList ⟨outer, content, mode⟩ ⟨outer, content, mode'⟩ ∧
      Heads m tag (attributes ++ [p]) mode' := by
  have hword := isName_of_isAttribute hname hp
  obtain ⟨hd, htext⟩ := isAttribute_iff.mp hp
  unfold Markup.piece
  simp only [hd, if_neg htext]
  split
  · rename_i hempty
    obtain ⟨name, value⟩ := p
    obtain ⟨hm, rfl⟩ := hempty
    exact ⟨_, _, rfl, h.bareAttribute hword, .bare attributes name hm⟩
  · exact ⟨_, _, rfl, h.attribute hword p.2, .value _⟩

theorem Heads.pieces {mode : Mode} (h : Heads m tag attributes mode)
    {properties : Table String String} (hnames : ∀ p ∈ properties, IsPropertyName p.1) :
    ∃ mode', Passes m (String.join ((m.pieces properties).filterMap Piece.attribute?)).toList
        ⟨outer, content, mode⟩ ⟨outer, content, mode'⟩ ∧
      Heads m tag (attributes ++ properties.filter m.isAttribute) mode' := by
  induction properties generalizing attributes mode with
  | nil => exact ⟨mode, .nil m _, by simpa using h⟩
  | cons p properties ih =>
    obtain ⟨hname, hnames⟩ := forall_mem_cons.mp hnames
    rw [pieces, map_cons, ← pieces]
    cases hp : m.isAttribute p with
    | false =>
      rw [filterMap_cons_none (attribute?_piece_of_not_isAttribute hp),
        filter_cons_of_neg (by simp [hp])]
      exact ih h hnames
    | true =>
      obtain ⟨s, mode', hs, hpass, hheads⟩ := h.piece hname hp
      obtain ⟨mode'', hrest, hheads⟩ := ih hheads hnames
      rw [filterMap_cons_some hs, String.join_cons, String.toList_append,
        filter_cons_of_pos hp]
      rw [append_assoc, singleton_append] at hheads
      exact ⟨mode'', hpass.append hrest, hheads⟩

/-- The reader takes the tag and the attributes of a view from the head of its element. -/
theorem passes_head (htag : isName tag = true) (hnames : ∀ p ∈ properties, IsPropertyName p.1)
    (seen : List Char) :
    ∃ mode, Passes m ("<" ++ tag ++ Markup.attributes (m.pieces properties)).toList
        ⟨outer, content, .text seen⟩ ⟨outer, content ++ textNodes seen, mode⟩ ∧
      Heads m tag (m.shownAttributes properties) mode := by
  obtain ⟨mode, hplain, hheads⟩ := (Heads.tag : Heads m tag [] _).pieces hnames
  have hdeclared : (m.pieces properties).filterMap Piece.declaration? =
      properties.filterMap Markup.declaration? := by
    simp only [pieces, filterMap_map, Function.comp_def, declaration?_piece]
  have hstart : Passes m ("<" ++ tag).toList ⟨outer, content, .text seen⟩
      ⟨outer, content ++ textNodes seen, .opening tag.toList⟩ := by
    rw [String.toList_append]
    exact passes_tag htag seen
  rw [nil_append] at hheads
  rw [attributes_eq, hdeclared, shownAttributes]
  generalize properties.filterMap Markup.declaration? = declarations
  cases declarations with
  | nil =>
    simp only [isEmpty_nil, if_true, String.append_empty, append_nil]
    exact ⟨mode, hstart.join hplain, hheads⟩
  | cons d ds =>
    have hspelled : " style=\"" = " " ++ "style" ++ "=\"" := rfl
    simp only [isEmpty_cons, Bool.false_eq_true, if_false, hspelled]
    have hname : isName "style" = true := by decide
    exact ⟨_, hstart.join (hplain.join (hheads.attribute hname _)), .value _⟩

end Head

/-! ### Trees -/

theorem body?_piece (m : Markup) (p : String × String) :
    (m.piece p.1 p.2).body? = if m = .html ∧ p.1 = "textContent" then some p.2 else none := by
  have hnone : Text.dropPrefix? "style:".toList "textContent".toList = none := by decide
  unfold piece
  split
  · rename_i d hd
    rw [if_neg]
    · rfl
    · rintro ⟨-, hname⟩
      rw [hname, hnone] at hd
      cases hd
  · split
    · rfl
    · split <;> rfl

theorem body?_pieces (m : Markup) (properties : Table String String) :
    body? (m.pieces properties) = m.text? properties := by
  have hbody : body? (m.pieces properties) = (m.pieces properties).findSome? Piece.body? := rfl
  rw [hbody, text?]
  induction properties with
  | nil => simp [pieces, Table.get?]
  | cons p properties ih =>
    obtain ⟨name, value⟩ := p
    rw [pieces, map_cons, ← pieces, List.findSome?_cons, body?_piece, ih rfl]
    by_cases hm : m = .html
    · by_cases hname : name = "textContent"
      · subst hname
        simp [hm, Table.get?_cons_self]
      · simp [hm, hname, Table.get?_cons_of_ne (Ne.symm hname)]
    · simp [hm]

end Markup

/-- A view that can be written in markup and read back. -/
structure View.Tidy (x : View) : Prop where
  tag : Markup.isName x.tag = true
  names : ∀ p ∈ x.properties, Markup.IsPropertyName p.1
  void : x.tag ∈ Markup.voidTags → x.children = []
  texts : x.children ≠ [] ∨ x.tag ∈ Markup.voidTags → x.properties.get? "textContent" = none

variable {x : View}

theorem View.Tidy.text?_eq_none (h : x.Tidy) (hx : x.children ≠ [] ∨ x.tag ∈ Markup.voidTags)
    (m : Markup) : m.text? x.properties = none := by
  rw [Markup.text?, h.texts hx, ite_self]

/-- A tree of such views in which numbers grow from parents to children. -/
structure ViewTree.Tidy (t : ViewTree) : Prop where
  views : ∀ v x, t.view? v = some x → x.Tidy
  grows : ∀ v x, t.view? v = some x → ∀ c ∈ x.children, v < c ∧ c < t.size

namespace Markup

variable {depth fuel v : Nat} {t : ViewTree}

section Trees

variable {m : Markup} {outer : List Frame} {content : List Node} {tag : String}
  {attributes : List (String × String)}

theorem mem_indent (h : c ∈ (indent depth).toList) : c = ' ' := by
  rw [indent, String.toList_join] at h
  obtain ⟨s, hs, hc⟩ := mem_flatMap.mp h
  rw [eq_of_mem_replicate hs] at hc
  simpa using hc

theorem passes_indent (depth : Nat) (seen : List Char) :
    Passes m (indent depth).toList ⟨outer, content, .text seen⟩
      ⟨outer, content, .text (seen ++ (indent depth).toList)⟩ := by
  refine passes_text (fun c hc => ?_) seen
  rw [mem_indent hc]
  decide

/-- The reader gets over the head of an element with the blanks before it. -/
theorem passes_indented (m : Markup) (outer : List Frame) (content : List Node) (depth : Nat)
    (htag : isName tag = true) (hnames : ∀ p ∈ properties, IsPropertyName p.1) (seen : List Char) :
    ∃ mode, Passes m (indent depth ++ "<" ++ tag ++ Markup.attributes (m.pieces properties)).toList
        ⟨outer, content, .text seen⟩
        ⟨outer, content ++ textNodes (seen ++ (indent depth).toList), mode⟩ ∧
      Heads m tag (m.shownAttributes properties) mode := by
  obtain ⟨mode, hpass, hheads⟩ := passes_head htag hnames (seen ++ (indent depth).toList)
  refine ⟨mode, ?_, hheads⟩
  have hall := (passes_indent depth seen).join hpass
  simpa only [String.append_assoc] using hall

theorem passes_newline :
    Passes m "\n".toList ⟨outer, content, .text []⟩ ⟨outer, content, .text ['\n']⟩ := rfl

theorem passes_closeLine (htag : isName tag = true) (before : List Node) (seen : List Char) :
    Passes m ("</" ++ tag ++ ">\n").toList
      ⟨⟨tag, attributes, before⟩ :: outer, content, .text seen⟩
      ⟨outer, before ++ [.element tag attributes (content ++ textNodes seen)], .text ['\n']⟩ := by
  have hspelled : ">\n" = ">" ++ "\n" := rfl
  rw [hspelled, ← String.append_assoc]
  exact (passes_close htag before seen).join passes_newline

theorem Heads.selfClose {mode : Mode} (h : Heads .xml tag attributes mode) :
    Passes .xml " />\n".toList ⟨outer, content, mode⟩
      ⟨outer, content ++ [.element tag attributes []], .text ['\n']⟩ := by
  have hslash : Passes .xml ['/', '>', '\n'] ⟨outer, content, .inside tag attributes⟩
      ⟨outer, content ++ [.element tag attributes []], .text ['\n']⟩ := by
    simp [Passes, Reading.step]
  exact h.blank.append hslash

theorem Heads.enterVoid {mode : Mode} (h : Heads .html tag attributes mode)
    (hvoid : tag ∈ voidTags) :
    Passes .html ">\n".toList ⟨outer, content, mode⟩
      ⟨outer, content ++ [.element tag attributes []], .text ['\n']⟩ := by
  have henter : Passes .html ['>'] ⟨outer, content, mode⟩
      ⟨outer, content ++ [.element tag attributes []], .text []⟩ := by
    simpa [Reading.enter, hvoid] using h.enter
  exact henter.append passes_newline

theorem Heads.enterFrame {mode : Mode} (h : Heads m tag attributes mode)
    (hvoid : ¬(m = .html ∧ tag ∈ voidTags)) :
    Passes m ">".toList ⟨outer, content, mode⟩
      ⟨⟨tag, attributes, content⟩ :: outer, [], .text []⟩ := by
  have henter : Passes m ['>'] ⟨outer, content, mode⟩ _ := h.enter
  simp only [Reading.enter, contains_iff_mem, if_neg hvoid] at henter
  exact henter

theorem Heads.enterLine {mode : Mode} (h : Heads m tag attributes mode)
    (hvoid : ¬(m = .html ∧ tag ∈ voidTags)) :
    Passes m ">\n".toList ⟨outer, content, mode⟩
      ⟨⟨tag, attributes, content⟩ :: outer, [], .text ['\n']⟩ :=
  (h.enterFrame hvoid).append passes_newline

theorem textNodes_escape (s : String) :
    textNodes (escape s).toList = (((some s).filter (· ≠ "")).map Node.text).toList := by
  have hread := unescape_escape s
  unfold textNodes
  cases hlist : (escape s).toList with
  | nil =>
    rw [hlist] at hread
    subst hread
    rfl
  | cons c cs =>
    have hs : s ≠ "" := by
      rintro rfl
      cases hlist
    rw [hlist] at hread
    simp [hread, Option.filter, hs]

theorem solid_append (as bs : List Node) : solid (as ++ bs) = solid as ++ solid bs :=
  filter_append as bs

theorem blank_indented (h : ∀ c ∈ cs, c = ' ' ∨ c = '\n') (depth : Nat) :
    ∀ c ∈ cs ++ (indent depth).toList, c = ' ' ∨ c = '\n' := by
  intro c hc
  rcases mem_append.mp hc with hc | hc
  · exact h c hc
  · exact .inl (mem_indent hc)

theorem solid_textNodes (h : ∀ c ∈ cs, c = ' ' ∨ c = '\n') : solid (textNodes cs) = [] := by
  have hsame : unescape cs = cs := by
    induction cs with
    | nil => rfl
    | cons c cs ih =>
      obtain ⟨hc, hcs⟩ := forall_mem_cons.mp h
      rw [unescape_cons (by rcases hc with rfl | rfl <;> decide), ih hcs]
  unfold textNodes
  split
  · rfl
  · simpa [solid, Node.isBlank, hsame] using h

end Trees

/-- What the reader gets from a view: one element that shows it, and the blanks around. -/
def ReadsView (m : Markup) (t : ViewTree) (fuel depth v : Nat) : Prop :=
  ∃ node, Shows m t v node ∧ node.isBlank = false ∧
    ∀ outer content seen, Passes m (m.viewWithin t fuel depth v).toList
      ⟨outer, content, .text seen⟩
      ⟨outer, content ++ textNodes (seen ++ (indent depth).toList) ++ [node], .text ['\n']⟩

/-- What the reader gets from views one after the other; it depends on the blanks before only. -/
theorem passes_views {views : List Nat} (h : ∀ v ∈ views, ReadsView m t fuel depth v)
    {seen : List Char} (hseen : ∀ c ∈ seen, c = ' ' ∨ c = '\n') :
    ∃ read after, (∀ c ∈ after, c = ' ' ∨ c = '\n') ∧
      Forall₂ (Shows m t) views (solid read) ∧
      ∀ outer content, Passes m (String.join (views.map (m.viewWithin t fuel depth))).toList
        ⟨outer, content, .text seen⟩ ⟨outer, content ++ read, .text after⟩ := by
  induction views generalizing seen with
  | nil =>
    refine ⟨[], seen, hseen, .nil, fun outer content => ?_⟩
    rw [append_nil]
    exact .nil m _
  | cons v views ih =>
    obtain ⟨hv, hviews⟩ := forall_mem_cons.mp h
    obtain ⟨node, hshows, hsolid, hpass⟩ := hv
    have hline : ∀ c ∈ ['\n'], c = ' ' ∨ c = '\n' := by simp
    obtain ⟨read, after, hafter, hall, hrest⟩ := ih hviews hline
    refine ⟨textNodes (seen ++ (indent depth).toList) ++ [node] ++ read, after, hafter, ?_,
      fun outer content => ?_⟩
    · have hread : solid (textNodes (seen ++ (indent depth).toList) ++ [node] ++ read) =
          node :: solid read := by
        rw [solid_append, solid_append, solid_textNodes (blank_indented hseen depth)]
        simp [solid, hsolid]
      rw [hread]
      exact .cons hshows hall
    · rw [map_cons, String.join_cons]
      have hboth := (hpass outer content seen).join (hrest outer _)
      simpa only [append_assoc] using hboth

/-- The element of a tidy view without children shows it. -/
theorem readsView_leaf (hx : t.view? v = some x) (htidy : x.Tidy) (hchildren : x.children = [])
    (fuel depth : Nat) : ReadsView m t (fuel + 1) depth v := by
  refine ⟨_, .leaf hx hchildren, rfl, fun outer content seen => ?_⟩
  obtain ⟨mode, hpass, hheads⟩ := passes_indented m outer content depth htidy.tag
    htidy.names seen
  rw [viewWithin, hx]
  simp only [body?_pieces, contains_iff_mem, hchildren]
  by_cases hvoid : m = .html ∧ x.tag ∈ voidTags
  · obtain ⟨rfl, hvoid⟩ := hvoid
    rw [if_pos ⟨rfl, hvoid⟩, htidy.text?_eq_none (.inr hvoid)]
    exact hpass.join (hheads.enterVoid hvoid)
  · have henter := hpass.join (hheads.enterFrame hvoid)
    rw [if_neg hvoid]
    cases htext : m.text? x.properties with
    | none =>
      cases m with
      | xml => exact hpass.join hheads.selfClose
      | html => exact henter.join (passes_closeLine htidy.tag _ [])
    | some s =>
      rw [← textNodes_escape]
      exact (henter.join (passes_text (fun c hc => (not_mem_escape s hc).1) [])).join
        (passes_closeLine htidy.tag _ _)

/-- The element of a tidy view with children shows it, if those of its children do. -/
theorem readsView_parent (hx : t.view? v = some x) (htidy : x.Tidy) (hchildren : x.children ≠ [])
    (h : ∀ c ∈ x.children, ReadsView m t fuel (depth + 1) c) :
    ReadsView m t (fuel + 1) depth v := by
  have htext := htidy.text?_eq_none (.inl hchildren) m
  have hvoid : ¬(m = .html ∧ x.tag ∈ voidTags) := fun hvoid => hchildren (htidy.void hvoid.2)
  have hline : ∀ c ∈ ['\n'], c = ' ' ∨ c = '\n' := by simp
  obtain ⟨read, after, hafter, hall, hinner⟩ := passes_views h hline
  have hsolid : solid (read ++ textNodes (after ++ (indent depth).toList)) = solid read := by
    rw [solid_append, solid_textNodes (blank_indented hafter depth), append_nil]
  refine ⟨_, .parent hx hchildren htext (hsolid ▸ hall), rfl, fun outer content seen => ?_⟩
  obtain ⟨mode, hpass, hheads⟩ := passes_indented m outer content depth htidy.tag
    htidy.names seen
  rw [viewWithin, hx]
  simp only [body?_pieces, contains_iff_mem, if_neg hvoid, htext]
  split
  · rename_i hnil _
    exact absurd hnil hchildren
  · rename_i hsome
    cases hsome
  · rw [Option.map_none, Option.getD_none, String.append_empty]
    have hopened := hpass.join (hheads.enterLine hvoid)
    exact ((hopened.join (hinner _ [])).join (passes_indent depth after)).join
      (passes_closeLine htidy.tag _ _)

/-- The element of a tidy view shows it. The fuel suffices because numbers grow downwards. -/
theorem readsView (ht : t.Tidy) (fuel depth v : Nat) (hv : v < t.size) (hfuel : t.size ≤ fuel + v) :
    ReadsView m t fuel depth v := by
  induction fuel generalizing depth v with
  | zero => omega
  | succ fuel ih =>
    obtain ⟨x, hx⟩ : ∃ x, t.view? v = some x := ⟨_, Array.getElem?_eq_getElem hv⟩
    have htidy := ht.views v x hx
    by_cases hchildren : x.children = []
    · exact readsView_leaf hx htidy hchildren fuel depth
    · refine readsView_parent hx htidy hchildren fun c hc => ?_
      obtain ⟨hgrows, hsize⟩ := ht.grows v x hx c hc
      exact ih (depth + 1) c hsize (by omega)

/-- From the markup of a tidy tree the reader gets the tree. -/
theorem exists_read_markup (ht : t.Tidy) (m : Markup) (hv : v < t.size) :
    ∃ node, m.read (t.markup m v) = some [node, .text "\n"] ∧ Shows m t v node := by
  obtain ⟨node, hshows, -, hpass⟩ := readsView (m := m) ht t.size 0 v hv (by omega)
  refine ⟨node, ?_, hshows⟩
  have hrun : (t.markup m v).toList.foldlM (Reading.step m) .start = some ⟨[], [node], .text ['\n']⟩ :=
    hpass [] [] []
  rw [read, hrun]
  rfl

end Markup

end Widgetry
