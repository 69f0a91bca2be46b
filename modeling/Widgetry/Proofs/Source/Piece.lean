import Widgetry.Proofs.Source.Token

/-!
# Pieces of source text

A piece is a text that leads from some open brackets to others, calls no helpers but given ones and
speaks of nothing outside a scope, neither by a variable nor by a lookup. Pieces are put together end
to end; an atomic one leaves the brackets as it found them and hides its operators in brackets of its
own.
-/

namespace Widgetry.Source

open List

/-! ### Brackets -/

def closer? (square : Bool) (c : Char) : Option Char :=
  if c = '(' then some ')'
  else if c = '\x7b' then some '\x7d'
  else if square && c == '[' then some ']'
  else none

def isCloser (square : Bool) (c : Char) : Bool := c == ')' || c == '\x7d' || (square && c == ']')

def isOperatorSign (c : Char) : Bool := "+-*/%<>=!?:&|".toList.contains c

/-- Blanks and operators separate operands unless brackets hold them together. -/
def Token.separates : Token → Bool
  | .sign c => Text.isBlank c || isOperatorSign c
  | _ => false

/-- The brackets left to close after a token, the innermost first. A strict scan refuses what
separates operands outside all brackets; `square` says whether square brackets count. -/
def nest (square strict : Bool) (stack : List Char) (t : Token) : Option (List Char) :=
  if strict && stack.isEmpty && t.separates then none
  else match t with
    | .unclosed => none
    | .sign c =>
        match closer? square c with
        | some d => some (d :: stack)
        | none =>
            if isCloser square c then
              if stack.head? = some c then some stack.tail else none
            else some stack
    | _ => some stack

/-- A text that is one operand wherever it is put: whatever brackets are open before it are open after
it, its literals are closed, and no operator and no blank in it stands outside brackets of its own. -/
def Atomic (s : String) : Prop :=
  ∀ stack, (tokens false s).foldlM (nest false true) stack = some stack

variable {square strict : Bool} {p q w : List Char} {t : Token} {ts us : List Token} {s : String}

theorem nest_append (h : nest square strict p t = some q) (st : List Char) :
    nest square strict (p ++ st) t = some (q ++ st) := by
  unfold nest at h ⊢
  split at h
  · cases h
  · rename_i hbare
    rw [if_neg fun hst => hbare (by
      simp only [Bool.and_eq_true, List.isEmpty_iff, append_eq_nil_iff] at hst ⊢
      exact ⟨⟨hst.1.1, hst.1.2.1⟩, hst.2⟩)]
    cases t with
    | unclosed => cases h
    | word letters => rw [← Option.some.inj h]
    | literal => rw [← Option.some.inj h]
    | sign c =>
      simp only at h ⊢
      cases hc : closer? square c with
      | some d =>
        rw [hc] at h
        rw [← Option.some.inj h, cons_append]
      | none =>
        simp only [hc] at h ⊢
        by_cases hcloser : isCloser square c = true
        · rw [if_pos hcloser] at h ⊢
          split at h
          · rename_i hhead
            cases p with
            | nil => cases hhead
            | cons d rest =>
              rw [if_pos (by simpa using hhead), ← Option.some.inj h]
              rfl
          · cases h
        · rw [if_neg hcloser] at h ⊢
          rw [← Option.some.inj h]

theorem nest_lax (h : nest square true p t = some q) : nest square false p t = some q := by
  unfold nest at h ⊢
  split at h
  · cases h
  · simpa using h

theorem foldlM_nest_append (h : ts.foldlM (nest square strict) p = some q) (st : List Char) :
    ts.foldlM (nest square strict) (p ++ st) = some (q ++ st) := by
  induction ts generalizing p with
  | nil => rw [foldlM_nil] at h ⊢; rw [← Option.some.inj h]; rfl
  | cons t ts ih =>
    rw [foldlM_cons] at h ⊢
    obtain ⟨r, ht, hts⟩ := Option.bind_eq_some_iff.mp h
    rw [nest_append ht st]
    exact ih hts

theorem foldlM_nest_lax (h : ts.foldlM (nest square true) p = some q) :
    ts.foldlM (nest square false) p = some q := by
  induction ts generalizing p with
  | nil => exact h
  | cons t ts ih =>
    rw [foldlM_cons] at h ⊢
    obtain ⟨r, ht, hts⟩ := Option.bind_eq_some_iff.mp h
    rw [nest_lax ht]
    exact ih hts

/-! ### Calls and definitions -/

/-- The words in front of an opening parenthesis, unless a dot stands before them. -/
def calls : List Token → List (List Char)
  | .sign '.' :: .word _ :: rest => calls rest
  | .word w :: .sign '(' :: rest => w :: calls rest
  | _ :: rest => calls rest
  | [] => []

def nameAfter : List Token → List (List Char)
  | .sign ' ' :: .word w :: _ => [w]
  | _ => []

def defined (keyword : List Char) : List Token → List (List Char)
  | [] => []
  | t :: rest => (if t = .word keyword then nameAfter rest else []) ++ defined keyword rest

/-- No word is called across the seam. -/
def Parted (ts us : List Token) : Prop :=
  (∀ w, ts.getLast? ≠ some (.word w)) ∨ us.head? ≠ some (.sign '(')

theorem Parted.tail (h : Parted (t :: ts) us) : Parted ts us := by
  rcases h with h | h
  · left
    intro w hw
    cases ts with
    | nil => cases hw
    | cons u ts => exact h w (by rw [List.getLast?_cons_cons, hw])
  · exact .inr h

theorem calls_sign_subset (c : Char) (ts : List Token) : calls (.sign c :: ts) ⊆ calls ts := by
  by_cases hc : c = '.'
  · subst hc
    cases ts with
    | nil => exact fun _ h => h
    | cons t ts =>
      cases t with
      | word w =>
        intro v hv
        have hv' : v ∈ calls ts := hv
        cases ts with
        | nil => cases hv'
        | cons u ts =>
          by_cases hu : u = .sign '('
          · subst hu
            rw [calls]
            exact mem_cons_of_mem _ (by simpa [calls] using hv')
          · rw [calls]
            · exact hv'
            · simp
            · intro w' rest _ hrest
              exact hu (List.cons.inj hrest).1
      | _ => exact fun _ h => h
  · rw [calls]
    · exact fun _ h => h
    · intro w rest hdot _
      exact hc (Token.sign.inj hdot)
    · simp

theorem calls_append_subset (h : Parted ts us) : calls (ts ++ us) ⊆ calls ts ++ calls us := by
  fun_induction calls ts with
  | case1 w rest ih => exact ih h.tail.tail
  | case2 w rest ih =>
    intro v hv
    rcases mem_cons.mp hv with rfl | hv
    · exact mem_cons_self
    · exact mem_cons_of_mem _ (ih h.tail.tail hv)
  | case3 t rest hdot hcall ih =>
    cases rest with
    | nil =>
      cases t with
      | sign c => exact calls_sign_subset c us
      | word w =>
        rw [cons_append, nil_append, calls]
        · exact fun _ h => h
        · simp
        · rintro w' rest hw rfl
          rcases h with h | h
          · exact h w rfl
          · exact h rfl
      | _ => exact fun _ h => h
    | cons r rest =>
      rw [cons_append, cons_append, calls]
      · exact ih h.tail
      · intro w us' ht hus
        exact hdot w rest ht (by rw [(List.cons.inj hus).1])
      · intro w us' ht hus
        exact hcall w rest ht (by rw [(List.cons.inj hus).1])
  | case4 => exact fun _ h => h

/-! ### Words -/

def isLoopVariable (w : List Char) : Bool :=
  ["item", "index"].any fun stem =>
    match Text.dropPrefix? stem.toList w with
    | some digits => !digits.isEmpty && digits.all Char.isDigit
    | none => false

def startsDefinition (w : List Char) : Bool := w == "fun".toList || w == "func".toList

def lookupName : List Char := ['l', 'o', 'o', 'k', 'u', 'p']

/-- A word that neither starts a definition or a lookup nor looks like a variable of a loop. -/
def isOrdinary (w : List Char) : Bool :=
  !startsDefinition w && w != lookupName && !isLoopVariable w

/-- What a text may speak of: variables of loops, and lookups as they are written. -/
structure Scope where
  bound : List (List Char)
  lookups : List String

namespace Scope

def empty : Scope := ⟨[], []⟩

instance : LE Scope := ⟨fun a b => a.bound ⊆ b.bound ∧ a.lookups ⊆ b.lookups⟩

theorem le_refl (scope : Scope) : scope ≤ scope := ⟨Subset.refl _, Subset.refl _⟩

theorem empty_le (scope : Scope) : empty ≤ scope := ⟨nil_subset _, nil_subset _⟩

end Scope

/-- A word that may stand in a scope outside lookups. -/
def Known (scope : Scope) (w : List Char) : Prop :=
  isOrdinary w = true ∨ (isLoopVariable w = true ∧ w ∈ scope.bound)

variable {scope scope' : Scope}

theorem Known.mono (h : Known scope w) (hle : scope ≤ scope') : Known scope' w :=
  h.imp_right fun hw => ⟨hw.1, hle.1 hw.2⟩

theorem Known.startsDefinition (h : Known scope w) : startsDefinition w = false := by
  rcases h with h | ⟨h, -⟩
  · simp only [isOrdinary, Bool.and_eq_true, Bool.not_eq_true'] at h
    exact h.1.1
  · rw [← Bool.not_eq_true, Source.startsDefinition, Bool.or_eq_true, beq_iff_eq, beq_iff_eq]
    rintro (rfl | rfl) <;> exact absurd h (by decide)

/-- A text in which every lookup is written as its scope has it, and which has no variables of loops
elsewhere but those of its scope. -/
inductive Speaks (scope : Scope) : String → Prop
  | plain {s : String} (h : ∀ w, .word w ∈ tokens true s → Known scope w) : Speaks scope s
  | lookup {s : String} (h : s ∈ scope.lookups) : Speaks scope s
  | append {a b : String} (ha : Speaks scope a) (hb : Speaks scope b)
      (h : tokens true (a ++ b) = tokens true a ++ tokens true b) : Speaks scope (a ++ b)

theorem Speaks.mono (h : Speaks scope s) (hle : scope ≤ scope') : Speaks scope' s := by
  induction h with
  | plain h => exact .plain fun w hw => (h w hw).mono hle
  | lookup h => exact .lookup (hle.2 h)
  | append _ _ h iha ihb => exact .append iha ihb h

theorem Speaks.known_or_lookup (h : Speaks scope s) (hw : .word w ∈ tokens true s) :
    Known scope w ∨ ∃ l ∈ scope.lookups, .word w ∈ tokens true l := by
  induction h with
  | plain h => exact .inl (h w hw)
  | lookup h => exact .inr ⟨_, h, hw⟩
  | append _ _ h iha ihb =>
    rw [h] at hw
    rcases mem_append.mp hw with hw | hw
    · exact iha hw
    · exact ihb hw

/-! ### Pieces -/

/-- Tokens that lead from some open brackets to others. -/
structure Token.Leads (strict : Bool) (uses : List Helper) (p q : List Char) (ts : List Token) :
    Prop where
  nests : ∀ square, ts.foldlM (nest square strict) p = some q
  calls : ∀ h : Helper, h.name.toList ∈ Source.calls ts → h ∈ uses
  words : ∀ w, .word w ∈ ts → startsDefinition w = false

/-- A text on one line whose tokens lead from some open brackets to others. -/
def Fits (strict : Bool) (uses : List Helper) (p q : List Char) (s : String) : Prop :=
  '\n' ∉ s.toList ∧ ∃ ts, Spells s ts ∧ Token.Leads strict uses p q ts

variable {uses' : List Helper}

namespace Fits

variable {strict : Bool} {uses : List Helper} {p q r : List Char} {a b s : String}

theorem frame (h : Fits strict uses p q s) (st : List Char) :
    Fits strict uses (p ++ st) (q ++ st) s := by
  obtain ⟨hline, ts, hts, hleads⟩ := h
  exact ⟨hline, ts, hts, fun square => foldlM_nest_append (hleads.nests square) st, hleads.calls,
    hleads.words⟩

theorem lax (h : Fits true uses p q s) (strict : Bool) : Fits strict uses p q s := by
  obtain ⟨hline, ts, hts, hleads⟩ := h
  refine ⟨hline, ts, hts, fun square => ?_, hleads.calls, hleads.words⟩
  cases strict with
  | true => exact hleads.nests square
  | false => exact foldlM_nest_lax (hleads.nests square)

theorem mono (h : Fits strict uses p q s) (huses : uses ⊆ uses') : Fits strict uses' p q s := by
  obtain ⟨hline, ts, hts, hleads⟩ := h
  exact ⟨hline, ts, hts, hleads.nests, fun helper hcalled => huses (hleads.calls helper hcalled),
    hleads.words⟩

section

variable (ha : Fits strict uses p q a) (hb : Fits strict uses q r b)
  (h : endsApart a.toList = true ∨ startsApart b.toList = true)

include ha hb h

theorem append :
    Fits strict uses p r (a ++ b) := by
  obtain ⟨haline, ts, hts, hfirst⟩ := ha
  obtain ⟨hbline, us, hus, hsecond⟩ := hb
  have hparted : Parted ts us := by
    rcases h with h | h
    · exact .inl (hts.getLast?_ne_word h)
    · exact .inr (hus.head?_ne_paren h)
  refine ⟨by simp [haline, hbline], ts ++ us, hts.append hus h, ?_, ?_, ?_⟩
  · intro square
    rw [foldlM_append, hfirst.nests square]
    exact hsecond.nests square
  · intro helper hcalled
    rcases mem_append.mp (calls_append_subset hparted hcalled) with hmem | hmem
    · exact hfirst.calls helper hmem
    · exact hsecond.calls helper hmem
  · intro w hw
    rcases mem_append.mp hw with hw | hw
    · exact hfirst.words w hw
    · exact hsecond.words w hw

theorem tokens_append :
    tokens true (a ++ b) = tokens true a ++ tokens true b := by
  obtain ⟨-, ts, hts, -⟩ := ha
  obtain ⟨-, us, hus, -⟩ := hb
  rw [tokens_eq_of_spelling? ((hts.append hus h) true), tokens_eq_of_spelling? (hts true),
    tokens_eq_of_spelling? (hus true)]

end

end Fits

/-- A text that fits between brackets and speaks of what is in scope. -/
structure Piece (strict : Bool) (scope : Scope) (uses : List Helper) (p q : List Char) (s : String) :
    Prop where
  speaks : Speaks scope s
  fits : Fits strict uses p q s

theorem Helper.mem_all (h : Helper) : h ∈ Helper.all := by cases h <;> decide

def Helper.spelled : (h : Helper) → { letters : List Char // h.name = String.ofList letters }
  | .lookup => ⟨_, rfl⟩
  | .items => ⟨_, rfl⟩
  | .str => ⟨_, rfl⟩
  | .asNumber => ⟨_, rfl⟩
  | .asText => ⟨_, rfl⟩
  | .asFlag => ⟨_, rfl⟩
  | .truthy => ⟨_, rfl⟩
  | .same => ⟨_, rfl⟩
  | .present => ⟨_, rfl⟩
  | .colorHex => ⟨_, rfl⟩
  | .parseColor => ⟨_, rfl⟩
  | .asColor => ⟨_, rfl⟩
  | .formatNumber => ⟨_, rfl⟩
  | .substr => ⟨_, rfl⟩
  | .formatDate => ⟨_, rfl⟩
  | .rgba => ⟨_, rfl⟩
  | .mixColor => ⟨_, rfl⟩
  | .fontWeight => ⟨_, rfl⟩

theorem Helper.toList_name (h : Helper) : h.name.toList = h.spelled.1 :=
  (congrArg String.toList h.spelled.2).trans String.toList_ofList

theorem Helper.spelled_inj :
    Helper.all.all (fun g => Helper.all.all fun h => g.spelled.1 != h.spelled.1 || g == h) = true := by
  decide

variable {h : Helper}

theorem Helper.eq_of_letters {g : Helper} (hname : g.name.toList = h.name.toList) : g = h := by
  have hall := all_eq_true.mp (all_eq_true.mp Helper.spelled_inj g g.mem_all) h h.mem_all
  rw [toList_name, toList_name] at hname
  simpa [hname] using hall

/-- Whether calling a word calls no helper but given ones. -/
def isCallable (uses : List Helper) (w : List Char) : Bool :=
  Helper.all.all fun h => h.spelled.1 != w || uses.contains h

variable {uses : List Helper}

theorem mem_of_isCallable (hw : isCallable uses h.name.toList = true) : h ∈ uses := by
  simpa [Helper.toList_name] using all_eq_true.mp hw h h.mem_all

/-- Whether characters make a piece of any scope. -/
def isPiece (strict : Bool) (uses : List Helper) (p q : List Char) (cs : List Char) : Bool :=
  !cs.contains '\n' &&
    match spelling? true cs with
    | none => false
    | some ts =>
        spelling? false cs == some ts
          && [true, false].all (fun square => ts.foldlM (nest square strict) p == some q)
          && (calls ts).all (isCallable uses)
          && (ts.all fun
            | .word w => isOrdinary w
            | _ => true)

theorem piece_of_isPiece {cs : List Char} (h : isPiece strict uses p q cs = true) (scope : Scope) :
    Piece strict scope uses p q (String.ofList cs) := by
  unfold isPiece at h
  simp only [Bool.and_eq_true, Bool.not_eq_true', contains_eq_mem, decide_eq_false_iff_not] at h
  obtain ⟨hline, h⟩ := h
  split at h
  · cases h
  · rename_i ts hts
    simp only [Bool.and_eq_true, beq_iff_eq, all_eq_true] at h
    obtain ⟨⟨⟨hfalse, hnest⟩, hcalls⟩, hwords⟩ := h
    have hspells : Spells (String.ofList cs) ts := by
      intro comments
      rw [String.toList_ofList]
      cases comments
      · exact hfalse
      · exact hts
    have hknown : ∀ w, .word w ∈ ts → Known scope w := fun w hw => .inl (hwords _ hw)
    refine ⟨.plain ?_, by rwa [String.toList_ofList], ts, hspells, ?_, ?_, ?_⟩
    · rwa [tokens_eq_of_spelling? (hspells true)]
    · intro square
      exact hnest square (by cases square <;> decide)
    · intro helper hcalled
      exact mem_of_isCallable (hcalls _ hcalled)
    · exact fun w hw => (hknown w hw).startsDefinition

namespace Piece

variable {strict : Bool} {scope : Scope} {uses : List Helper} {p q r : List Char} {a b s : String}

theorem empty (strict : Bool) (scope : Scope) (uses : List Helper) (p : List Char) :
    Piece strict scope uses p p "" :=
  ⟨.plain nofun, by simp, [], fun _ => rfl, fun _ => rfl, nofun, nofun⟩

theorem frame (h : Piece strict scope uses p q s) (st : List Char) :
    Piece strict scope uses (p ++ st) (q ++ st) s :=
  ⟨h.speaks, h.fits.frame st⟩

theorem lax (h : Piece true scope uses p q s) (strict : Bool) : Piece strict scope uses p q s :=
  ⟨h.speaks, h.fits.lax strict⟩

theorem mono (h : Piece strict scope uses p q s) (hscope : scope ≤ scope') (huses : uses ⊆ uses') :
    Piece strict scope' uses' p q s :=
  ⟨h.speaks.mono hscope, h.fits.mono huses⟩

theorem append (ha : Piece strict scope uses p q a) (hb : Piece strict scope uses q r b)
    (h : endsApart a.toList = true ∨ startsApart b.toList = true) :
    Piece strict scope uses p r (a ++ b) :=
  ⟨.append ha.speaks hb.speaks (ha.fits.tokens_append hb.fits h), ha.fits.append hb.fits h⟩

end Piece

end Widgetry.Source
