import Widgetry.Proofs.Element.Grammar
import Widgetry.Proofs.Source.Operand
import Widgetry.Proofs.Source.Passage

/-!
# Variables of loops and their scope

The lines of an element speak of its own bindings, inside as many loops as there are templates around
it; the lines of a template stand in the block of its loop, behind the variables that this binds. So
every variable of a loop stands in the block of a loop that binds it.
-/

namespace Widgetry.Source

open List

def language : SourceTarget → Language
  | .glance => Kotlin.language
  | .swiftUI => Swift.language

/-- Whether the language of a target has a helper. -/
def has : SourceTarget → Helper → Bool
  | .glance => Kotlin.has
  | .swiftUI => Swift.has

theorem spelled_language (target : SourceTarget) : (language target).Spelled (has target) := by
  cases target with
  | glance => exact Kotlin.spelled_language
  | swiftUI => exact Swift.spelled_language

/-! ### Tokens without blanks -/

def Token.isSpace : Token → Bool
  | .sign c => c == ' ' || c == '\n'
  | _ => false

/-- The tokens of a text outside comments, but for blanks and line ends. -/
def solid (s : String) : List Token := (tokens true s).filter fun t => !t.isSpace

variable {a : String} {target : SourceTarget} {uses : List Helper} {p q : List Char}
  {names : List (List Char)} {ls : List String} {ts : List Token} {e : Element}

theorem solid_append {b : String} (h : tokens true (a ++ b) = tokens true a ++ tokens true b) :
    solid (a ++ b) = solid a ++ solid b := by
  rw [solid, h, filter_append]
  rfl

theorem nest_of_isSpace {t : Token} (h : t.isSpace = true) (stack : List Char) :
    nest true false stack t = some stack := by
  cases t with
  | sign c =>
    simp only [Token.isSpace, Bool.or_eq_true, beq_iff_eq] at h
    rcases h with rfl | rfl
    · exact nest_blank stack
    · exact nest_newline stack
  | word w => cases h
  | literal | unclosed => cases h

theorem foldlM_nest_filter (ts : List Token) (stack : List Char) :
    (ts.filter fun t => !t.isSpace).foldlM (nest true false) stack =
      ts.foldlM (nest true false) stack := by
  induction ts generalizing stack with
  | nil => rfl
  | cons t ts ih =>
    cases ht : t.isSpace with
    | true =>
      rw [filter_cons_of_neg (by simp [ht]), foldlM_cons, nest_of_isSpace ht]
      exact ih stack
    | false =>
      rw [filter_cons_of_pos (by simp [ht]), foldlM_cons, foldlM_cons]
      cases nest true false stack t with
      | none => rfl
      | some next => exact ih next

theorem Passes.foldlM_solid (h : Passes true target uses p q names ls) :
    (ls.flatMap solid).foldlM (nest true false) p = some q := by
  induction h with
  | nil p => rfl
  | cons hl _ ih =>
    obtain ⟨ts, hts, hnest, -⟩ := hl
    rw [flatMap_cons, solid, tokens_eq_of_spelling? hts, foldlM_append,
      foldlM_nest_filter, hnest]
    exact ih

/-! ### Written text without blanks -/

theorem solid_indented (level : Nat) (s : String) : solid (Writer.indented level s) = solid s := by
  have hblanks (t : String) : solid ("    " ++ t) = solid t := by
    rw [solid, tokens, String.toList_append]
    rfl
  unfold Writer.indented
  split
  · rename_i hempty
    rw [String.isEmpty_iff.mp hempty]
  · induction level with
    | zero => rw [replicate_zero, String.join_nil, String.empty_append]
    | succ level ih => rw [replicate_succ, String.join_cons, String.append_assoc, hblanks, ih]

theorem flatMap_solid_write (w : Writer) (text : String) :
    (w.write text).written.reverse.flatMap solid =
      w.written.reverse.flatMap solid ++ (Text.lines text).flatMap solid := by
  have hmap : ((Text.lines text).map (Writer.indented w.level)).flatMap solid =
      (Text.lines text).flatMap solid := by
    rw [flatMap_map]
    exact congrArg (List.flatMap · _) (funext (solid_indented w.level))
  unfold Writer.write
  rw [Writer.reverse_foldl_cons, flatMap_append, hmap]

theorem flatMap_solid_step (w : Writer) (d : Directive) :
    (w.step d).written.reverse.flatMap solid =
      w.written.reverse.flatMap solid ++ d.lines.flatMap solid := by
  cases d with
  | line s | enter s => exact flatMap_solid_write w s
  | leave s | reenter s => exact flatMap_solid_write { w with level := w.level - 1 } s
  | indent | dedent => exact (append_nil _).symm
  | blank =>
    refine Eq.trans ?_ (append_nil _).symm
    show w.writeBlank.written.reverse.flatMap solid = w.written.reverse.flatMap solid
    unfold Writer.writeBlank
    split
    · rfl
    · rfl
    · rw [reverse_cons, flatMap_append]
      exact append_nil _

theorem flatMap_solid_foldl (ds : List Directive) (w : Writer) :
    (ds.foldl Writer.step w).written.reverse.flatMap solid =
      w.written.reverse.flatMap solid ++ (ds.flatMap Directive.lines).flatMap solid := by
  induction ds generalizing w with
  | nil => exact (append_nil _).symm
  | cons d ds ih =>
    rw [foldl_cons, ih, flatMap_solid_step, flatMap_cons, flatMap_append,
      append_assoc]

theorem flatMap_solid_dropBlank (ls : List String) :
    (Writer.dropBlank ls).reverse.flatMap solid = ls.reverse.flatMap solid := by
  fun_induction Writer.dropBlank ls with
  | case1 line rest ih =>
    rw [ih, reverse_cons (a := ""), flatMap_append]
    exact (append_nil _).symm
  | case2 ls _ => rfl

/-- A line that ends in code is read apart from what follows it. -/
theorem tokens_append_newline {l : String} (h : spelling? true l.toList = some ts) (rest : String) :
    tokens true (l ++ "\n" ++ rest) = ts ++ .sign '\n' :: tokens true rest := by
  obtain ⟨us, letters, hread, rfl⟩ := spelling?_eq_some.mp h
  have hnewline : Reader.read true (.code letters) "\n".toList =
      (Reader.wordOf letters ++ [.sign '\n'], .code []) := by
    show (Reader.wordOf letters ++ [Token.sign '\n'] ++ [], Reader.code []) = _
    rw [append_nil]
  rw [tokens, tokens, String.toList_append, String.toList_append, Reader.read_append,
    Reader.read_append, hread, hnewline]
  simp only [append_assoc, cons_append, nil_append]

theorem Passes.solid_unlines (h : Passes true target uses p q names ls) (rest : String) :
    solid (unlines ls ++ rest) = ls.flatMap solid ++ solid rest := by
  induction h with
  | nil p =>
    have hnil : unlines [] ++ rest = rest := String.empty_append
    rw [hnil]
    rfl
  | @cons p q r names more l ls hl _ ih =>
    obtain ⟨ts, hts, -⟩ := hl
    have hcons : unlines (l :: ls) ++ rest = l ++ "\n" ++ (unlines ls ++ rest) := by
      rw [← String.append_assoc]
      exact congrArg (· ++ rest) String.join_cons
    rw [hcons, solid, tokens_append_newline hts, filter_append, flatMap_cons,
      append_assoc, ← ih, solid, solid, tokens_eq_of_spelling? hts]
    rfl

theorem solid_render {ds : List Directive}
    (h : Passes true target uses p q names (ds.flatMap Directive.lines)) :
    solid (render ds) = (ds.flatMap Directive.lines).flatMap solid := by
  have hlines := (Writer.passes_foldl_step (w := .start) (.nil p) h).dropBlank
  have hrender := hlines.solid_unlines ""
  rw [String.append_empty, flatMap_solid_dropBlank, flatMap_solid_foldl] at hrender
  exact hrender.trans (append_nil _)

/-! ### Blocks of loops -/

/-- A variable of a loop inside which there are a number of loops. -/
def IsVariable (k : Nat) (w : List Char) : Prop :=
  0 < k ∧ (w = (itemVariable k).toList ∨ w = (indexVariable k).toList)

/-- What stands in front of the variables of a loop, up to the brace that opens its block. -/
def opening : SourceTarget → List Token
  | .glance => [.sign '.', .word "forEachIndexed".toList, .sign '\x7b']
  | .swiftUI => [.sign '\\', .sign '.', .word "offset".toList, .sign ')', .sign '\x7b']

/-- What binds the variables of a loop at the start of its block. -/
def binder (target : SourceTarget) (k : Nat) : List Token :=
  [.word (indexVariable k).toList, .sign ',', .word (itemVariable k).toList] ++
    match target with
    | .glance => [.sign '-', .sign '>']
    | .swiftUI => [.word "in".toList]

/-- Between some tokens and others, the block of a loop with certain variables is open: it has been
opened, and no bracket after that closes it. -/
def InBlock (target : SourceTarget) (k : Nat) (before rest : List Token) : Prop :=
  ∃ outer inner, before = outer ++ opening target ++ inner ∧ binder target k <+: inner ++ rest ∧
    (inner.foldlM (nest true false) []).isSome = true

/-- Tokens in which every variable of a loop belongs to one of some loops around them or stands in the
block of a loop that binds it. -/
def Scoped (target : SourceTarget) (depth : Nat) (ts : List Token) : Prop :=
  ∀ before w after, ts = before ++ .word w :: after → isLoopVariable w = true →
    ∃ k, IsVariable k w ∧ (k ≤ depth ∨ InBlock target k before (.word w :: after))

section

variable {target : SourceTarget} {depth k : Nat} {ts us before rest : List Token}

theorem InBlock.extend (h : InBlock target k before rest) (ts us : List Token) :
    InBlock target k (ts ++ before) (rest ++ us) := by
  obtain ⟨outer, inner, rfl, hbinder, hopen⟩ := h
  refine ⟨ts ++ outer, inner, ?_, ?_, hopen⟩
  · simp only [append_assoc]
  · rw [← append_assoc]
    exact hbinder.trans (prefix_append _ _)

theorem scoped_of_words (h : ∀ w, .word w ∈ ts → isLoopVariable w = true →
    ∃ k, IsVariable k w ∧ k ≤ depth) : Scoped target depth ts := by
  rintro before w after rfl hw
  obtain ⟨k, hk, hle⟩ := h w (by simp) hw
  exact ⟨k, hk, .inl hle⟩

theorem scoped_of_quiet (h : ∀ w, .word w ∈ ts → isLoopVariable w = false) :
    Scoped target depth ts := by
  refine scoped_of_words fun w hw hloop => ?_
  rw [h w hw] at hloop
  cases hloop

theorem Scoped.append (hts : Scoped target depth ts) (hus : Scoped target depth us) :
    Scoped target depth (ts ++ us) := by
  intro before w after heq hw
  have hright : ∀ inner, before = ts ++ inner → us = inner ++ .word w :: after →
      ∃ k, IsVariable k w ∧ (k ≤ depth ∨ InBlock target k before (.word w :: after)) := by
    rintro inner rfl hrest
    obtain ⟨k, hk, hscope⟩ := hus inner w after hrest hw
    refine ⟨k, hk, hscope.imp_right fun hblock => ?_⟩
    simpa using hblock.extend ts []
  rcases append_eq_append_iff.mp heq with ⟨inner, hbefore, hrest⟩ | ⟨inner, hbefore, hrest⟩
  · exact hright inner hbefore hrest
  · cases inner with
    | nil => exact hright [] (by simpa using hbefore.symm) (by simpa using hrest.symm)
    | cons t inner =>
      obtain ⟨rfl, rfl⟩ := List.cons.inj hrest
      obtain ⟨k, hk, hscope⟩ := hts before w inner hbefore hw
      refine ⟨k, hk, hscope.imp_right fun hblock => ?_⟩
      simpa using hblock.extend [] us

theorem scoped_flatMap {α : Type} {f : α → List Token} {l : List α}
    (h : ∀ a ∈ l, Scoped target depth (f a)) : Scoped target depth (l.flatMap f) := by
  induction l with
  | nil => exact scoped_of_quiet nofun
  | cons a l ih =>
    rw [forall_mem_cons] at h
    rw [flatMap_cons]
    exact h.1.append (ih h.2)

theorem isSome_foldlM_of_append {f : List Char → Token → Option (List Char)}
    (h : ((ts ++ us).foldlM f p).isSome = true) : (ts.foldlM f p).isSome = true := by
  rw [foldlM_append] at h
  cases hts : ts.foldlM f p with
  | none =>
    rw [hts] at h
    cases h
  | some q => rfl

/-- A block takes the variables that it binds out of what has to be bound around it. -/
theorem Scoped.block (h : Scoped target (depth + 1) ts) (hbinder : binder target (depth + 1) <+: ts)
    (hopen : (ts.foldlM (nest true false) []).isSome = true) :
    Scoped target depth (opening target ++ ts) := by
  have hquiet : ∀ w, .word w ∈ opening target → isLoopVariable w = false := by
    intro w hw
    cases target <;>
      (simp only [opening, mem_cons, not_mem_nil, or_false, reduceCtorEq, false_or,
        Token.word.injEq] at hw; rw [hw]; decide)
  intro before w after heq hw
  have hinside : ∀ inner, before = opening target ++ inner → ts = inner ++ .word w :: after →
      ∃ k, IsVariable k w ∧ (k ≤ depth ∨ InBlock target k before (.word w :: after)) := by
    rintro inner rfl rfl
    obtain ⟨k, hk, hle | hblock⟩ := h inner w after rfl hw
    · refine ⟨k, hk, ?_⟩
      rcases Nat.lt_or_eq_of_le hle with hlt | rfl
      · exact .inl (Nat.le_of_lt_succ hlt)
      · exact .inr ⟨[], inner, by simp, hbinder, isSome_foldlM_of_append hopen⟩
    · exact ⟨k, hk, .inr (by simpa using hblock.extend (opening target) [])⟩
  rcases append_eq_append_iff.mp heq with ⟨inner, hbefore, hrest⟩ | ⟨inner, hbefore, hrest⟩
  · exact hinside inner hbefore hrest
  · cases inner with
    | nil => exact hinside [] (by simpa using hbefore.symm) (by simpa using hrest.symm)
    | cons t inner =>
      obtain ⟨rfl, -⟩ := List.cons.inj hrest
      have hfalse := hquiet w (by rw [hbefore]; simp)
      rw [hfalse] at hw
      cases hw

end

/-! ### Lines of elements -/

def ownBindings (e : Element) : List Binding := e.properties.flatMap fun f => f.2.bindings

theorem bindings_subset_ownBindings {p : Property} {v : PropertyValue} (h : e.get? p = some v) :
    v.bindings ⊆ ownBindings e :=
  fun _ hb => mem_flatMap.mpr ⟨_, Table.mem_of_get? h, hb⟩

/-- The scope of an element inside a number of templates: lookups of its own bindings, of which those
to the item start from the variable of the innermost loop. -/
def scopeOf (target : SourceTarget) (depth : Nat) (e : Element) : Scope :=
  (language target).scopeOf depth (ownBindings e)

/-- A scope in which the position in a loop is known too. -/
def Scope.counting (k : Nat) (scope : Scope) : Scope :=
  ⟨(indexVariable k).toList :: scope.bound, scope.lookups⟩

theorem Scope.le_counting (k : Nat) (scope : Scope) : scope ≤ scope.counting k :=
  ⟨subset_cons_self _ _, Subset.refl _⟩

def loopOpening : SourceTarget → String
  | .glance => ".forEachIndexed \x7b "
  | .swiftUI => ".enumerated()), id: \\.offset) \x7b "

def loopArrow : SourceTarget → String
  | .glance => " ->"
  | .swiftUI => " in"

def loopHead (target : SourceTarget) (k : Nat) : String :=
  loopOpening target ++ indexVariable k ++ ", " ++ itemVariable k ++ loopArrow target

/-- The lines that are written for an element inside a number of templates. They are lines of its own,
lines of its children and, if it is a loop, the block of that: the list it runs over and what stands
between its items are read outside its template, whose lines have one loop more around them. -/
inductive Emits (target : SourceTarget) : Nat → Element → List String → Prop
  | nil (depth : Nat) (e : Element) : Emits target depth e []
  | line {depth : Nat} {e : Element} {l : String} (h : Speaks (scopeOf target depth e) l) :
      Emits target depth e [l]
  | child {depth : Nat} {e c : Element} {ls : List String} (hkind : e.kind ≠ .forEach)
      (hc : c ∈ e.children) (h : Emits target depth c ls) : Emits target depth e ls
  | loop {depth : Nat} {e : Element} {list : String} {gaps body : List String}
      (hkind : e.kind = .forEach) (hlist : Speaks (scopeOf target depth e) list)
      (hseam : tokens true (list ++ loopHead target (depth + 1)) =
        tokens true list ++ tokens true (loopHead target (depth + 1)))
      (hgaps : ∀ l ∈ gaps, Speaks ((scopeOf target depth e).counting (depth + 1)) l)
      (hnone : e.children = [] → body = [])
      (hbody : ∀ t, e.children.head? = some t → Emits target (depth + 1) t body)
      (hnest : ((gaps ++ body).flatMap solid).foldlM (nest true false) [] = some []) :
      Emits target depth e ((list ++ loopHead target (depth + 1)) :: (gaps ++ body ++ ["\x7d"]))
  | append {depth : Nat} {e : Element} {ls ks : List String} (hls : Emits target depth e ls)
      (hks : Emits target depth e ks) : Emits target depth e (ls ++ ks)

section

variable {target : SourceTarget} {depth n : Nat} {scope : Scope} {s : String}

/-- Variables in a text are those of its scope and that of the innermost loop. -/
theorem scoped_of_speaks {bs : List Binding} (hle : depth ≤ n)
    (hvariables : ∀ w ∈ scope.bound, ∃ k, IsVariable k w ∧ k ≤ n)
    (hlookups : scope.lookups ⊆ (language target).lookups depth bs) (h : Speaks scope s) :
    Scoped target n (solid s) := by
  refine scoped_of_words fun w hw hloop => ?_
  have hknown : ∀ {scope : Scope}, Known scope w → w ∈ scope.bound := by
    rintro scope (hordinary | ⟨-, hmem⟩)
    · simp [isOrdinary, hloop] at hordinary
    · exact hmem
  rcases h.known_or_lookup (mem_filter.mp hw).1 with hw | ⟨l, hl, hw⟩
  · exact hvariables w (hknown hw)
  · obtain ⟨b, -, hlookup⟩ := mem_filterMap.mp (hlookups hl)
    have hmem : Helper.lookup ∈ [Helper.lookup] := mem_cons_self
    rcases (Language.fits_lookup (spelled_language target) hlookup hmem).2 w hw with rfl | hw
    · exact absurd hloop (by decide)
    · have hitem : w = (itemVariable depth).toList := by simpa using hknown hw
      refine ⟨depth, ⟨Nat.pos_of_ne_zero ?_, .inl hitem⟩, hle⟩
      rintro rfl
      rw [hitem] at hloop
      exact absurd hloop (by decide)

theorem scoped_line (h : Speaks (scopeOf target depth e) s) : Scoped target depth (solid s) :=
  scoped_of_speaks (Nat.le_refl depth) (fun _ hw => absurd hw not_mem_nil) (Subset.refl _) h

theorem scoped_gap (h : Speaks ((scopeOf target depth e).counting (depth + 1)) s) :
    Scoped target (depth + 1) (solid s) := by
  refine scoped_of_speaks (Nat.le_succ depth) ?_ (Subset.refl _) h
  intro w hw
  exact ⟨depth + 1, ⟨Nat.succ_pos depth, .inr (mem_singleton.mp hw)⟩, Nat.le_refl _⟩

variable {k : Nat}

theorem spells_itemVariable (hk : 0 < k) :
    Spells (itemVariable k) [.word (itemVariable k).toList] := by
  have hspells := spells_word (all_isWordChar_itemVariable k)
  have hne : (itemVariable k).toList ≠ [] := by
    rw [toList_itemVariable hk]
    exact append_ne_nil_of_left_ne_nil (by decide) _
  simpa [Reader.wordOf, hne] using hspells

theorem spells_indexVariable (k : Nat) :
    Spells (indexVariable k) [.word (indexVariable k).toList] := by
  have hword : (indexVariable k).toList.all isWordChar = true := by
    rw [toList_indexVariable, all_append, all_isWordChar_toString]
    decide
  have hne : (indexVariable k).toList ≠ [] := by
    rw [toList_indexVariable]
    exact append_ne_nil_of_left_ne_nil (by decide) _
  simpa [Reader.wordOf, hne] using spells_word hword

theorem solid_binding (hk : 0 < k) {c : String} {us : List Token} (ha : Spells a ts)
    (hc : Spells c us) (hends : endsApart a.toList = true) (hstarts : startsApart c.toList = true) :
    solid (a ++ indexVariable k ++ ", " ++ itemVariable k ++ c) =
      (ts.filter fun t => !t.isSpace) ++ [.word (indexVariable k).toList, .sign ',',
        .word (itemVariable k).toList] ++ us.filter fun t => !t.isSpace := by
  have hcomma : Spells ", " [.sign ',', .sign ' '] := fun comments => by cases comments <;> rfl
  have hfirst := (ha.append (spells_indexVariable k) (.inl hends)).append hcomma (.inr (by decide))
  have hsecond := hfirst.append (spells_itemVariable hk) (.inl (endsApart_constant (by decide) _))
  have hall := hsecond.append hc (.inr hstarts)
  rw [solid, tokens_eq_of_spelling? (hall true)]
  simp only [filter_append, append_assoc]
  rfl

/-- A line that opens a loop ends in its opening and what binds its variables. -/
theorem solid_loopHead (target : SourceTarget) (hk : 0 < k) :
    ∃ before, solid (loopHead target k) = before ++ (opening target ++ binder target k) ∧
      ∀ w, .word w ∈ before → isLoopVariable w = false := by
  cases target with
  | glance =>
    have hopen : Spells (loopOpening .glance)
        [.sign '.', .word "forEachIndexed".toList, .sign ' ', .sign '\x7b', .sign ' '] :=
      fun comments => by cases comments <;> rfl
    have hclose : Spells (loopArrow .glance) [.sign ' ', .sign '-', .sign '>'] :=
      fun comments => by cases comments <;> rfl
    refine ⟨[], ?_, nofun⟩
    rw [loopHead, solid_binding hk hopen hclose (by decide) (by decide)]
    rfl
  | swiftUI =>
    have hopen : Spells (loopOpening .swiftUI)
        [.sign '.', .word "enumerated".toList, .sign '(', .sign ')', .sign ')', .sign ',', .sign ' ',
          .word "id".toList, .sign ':', .sign ' ', .sign '\\', .sign '.', .word "offset".toList,
          .sign ')', .sign ' ', .sign '\x7b', .sign ' '] :=
      fun comments => by cases comments <;> rfl
    have hclose : Spells (loopArrow .swiftUI) [.sign ' ', .word "in".toList] :=
      fun comments => by cases comments <;> rfl
    refine ⟨[.sign '.', .word "enumerated".toList, .sign '(', .sign ')', .sign ')', .sign ',',
      .word "id".toList, .sign ':'], ?_, ?_⟩
    · rw [loopHead, solid_binding hk hopen hclose (by decide) (by decide)]
      rfl
    · intro w hw
      simp only [mem_cons, not_mem_nil, or_false, reduceCtorEq, false_or,
        Token.word.injEq] at hw
      rcases hw with rfl | rfl <;> decide

theorem scoped_binder (target : SourceTarget) (hk : 0 < k) : Scoped target k (binder target k) := by
  refine scoped_of_words fun w hw hloop => ⟨k, ?_, Nat.le_refl k⟩
  cases target <;>
    simp only [binder, mem_append, mem_cons, not_mem_nil, or_false, reduceCtorEq,
      false_or, Token.word.injEq] at hw
  · exact ⟨hk, hw.symm⟩
  · rcases hw with (rfl | rfl) | rfl
    · exact ⟨hk, .inr rfl⟩
    · exact ⟨hk, .inl rfl⟩
    · exact absurd hloop (by decide)

/-- The brackets that the line of a loop has open where its head starts. -/
def listBrackets : SourceTarget → List Char
  | .glance => []
  | .swiftUI => [')', ')']

theorem fits_loopHead (target : SourceTarget) (hk : 0 < k) :
    Fits false uses (listBrackets target) ['\x7d'] (loopHead target k) := by
  have hfillings : Fillings ⟨[(indexVariable k).toList, (itemVariable k).toList], []⟩ uses
      [indexVariable k, itemVariable k] :=
    .cons (piece_indexVariable (by simp)) (.cons (piece_itemVariable hk (by simp)) .nil)
  cases target with
  | glance | swiftUI => exact (piece_fill _ [_, _] [_, _] (by decide) hfillings).fits

theorem startsApart_loopHead (target : SourceTarget) (k : Nat) :
    startsApart (loopHead target k).toList = true := by
  simp only [loopHead, String.append_assoc]
  rw [String.toList_append, startsApart_append (by cases target <;> decide)]
  cases target <;> decide

theorem foldlM_nest_binder (target : SourceTarget) (k : Nat) (p : List Char) :
    (binder target k).foldlM (nest true false) p = some p := by
  cases target <;> rfl

/-- The lines of an element have no variables but those of the loops around it and, in blocks of loops
of their own, those that these bind. -/
theorem Emits.scoped (h : Emits target depth e ls) : Scoped target depth (ls.flatMap solid) := by
  induction h with
  | nil => exact scoped_of_quiet nofun
  | line h =>
    rw [flatMap_singleton]
    exact scoped_line h
  | child _ _ _ ih => exact ih
  | append _ _ ihls ihks =>
    rw [flatMap_append]
    exact ihls.append ihks
  | @loop depth e list gaps body _ hlist hseam hgaps hnone _ hnest ih =>
    obtain ⟨before, hhead, hquiet⟩ := solid_loopHead target (Nat.succ_pos depth)
    have hbody : Scoped target (depth + 1) (body.flatMap solid) := by
      cases hchildren : e.children with
      | nil =>
        rw [hnone hchildren]
        exact scoped_of_quiet nofun
      | cons t rest => exact ih t (by rw [hchildren]; rfl)
    have hinside : Scoped target (depth + 1)
        (binder target (depth + 1) ++ (gaps ++ body).flatMap solid) := by
      rw [flatMap_append]
      exact (scoped_binder target (Nat.succ_pos depth)).append
        ((scoped_flatMap fun l hl => scoped_gap (hgaps l hl)).append hbody)
    have hblock := hinside.block (prefix_append _ _) (by
      rw [foldlM_append, foldlM_nest_binder]
      exact Option.isSome_of_eq_some hnest)
    have hclose : Scoped target depth [.sign '\x7d'] := scoped_of_quiet (by simp)
    have htokens : ((list ++ loopHead target (depth + 1)) :: (gaps ++ body ++ ["\x7d"])).flatMap solid =
        solid list ++ before ++ (opening target ++
          (binder target (depth + 1) ++ (gaps ++ body).flatMap solid)) ++ [.sign '\x7d'] := by
      have hbrace : solid "\x7d" = [.sign '\x7d'] := by decide
      rw [flatMap_cons, solid_append hseam, hhead, flatMap_append, flatMap_singleton,
        hbrace]
      simp only [append_assoc]
    rw [htokens]
    exact (((scoped_line hlist).append (scoped_of_quiet hquiet)).append hblock).append hclose

end

/-! ### Properties of lines -/

/-- A property of lines that lines put together have if their parts have it. -/
class Gathers (Q : List String → Prop) : Prop where
  nil : Q []
  append {ls ks : List String} : Q ls → Q ks → Q (ls ++ ks)

instance : Gathers fun _ => True := ⟨trivial, fun _ _ => trivial⟩

instance (target : SourceTarget) (depth : Nat) (e : Element) : Gathers (Emits target depth e) :=
  ⟨.nil depth e, .append⟩

/-- Lines that speak of what is in scope. -/
def Says (scope : Scope) (ls : List String) : Prop := ∀ l ∈ ls, Speaks scope l

instance (scope : Scope) : Gathers (Says scope) :=
  ⟨nofun, fun hls hks => forall_mem_append.mpr ⟨hls, hks⟩⟩

theorem Says.emits {depth : Nat} (h : Says (scopeOf target depth e) ls) :
    Emits target depth e ls := by
  induction ls with
  | nil => exact .nil depth e
  | cons l ls ih =>
    obtain ⟨hl, hls⟩ := forall_mem_cons.mp h
    exact (Emits.line hl).append (ih hls)

/-- Lines without variables of loops. -/
def Quiet (ls : List String) : Prop :=
  ∀ l ∈ ls, ∀ w, .word w ∈ tokens true l → isLoopVariable w = false

instance : Gathers Quiet :=
  ⟨nofun, fun hls hks => forall_mem_append.mpr ⟨hls, hks⟩⟩

theorem Says.quiet (h : Says .empty ls) : Quiet ls := by
  intro l hl w hw
  rcases (h l hl).known_or_lookup hw with (hordinary | ⟨-, hmem⟩) | ⟨_, hmem, -⟩
  · simp only [isOrdinary, Bool.and_eq_true, Bool.not_eq_true'] at hordinary
    exact hordinary.2
  · cases hmem
  · cases hmem

/-- Lines outside all loops. -/
def Settled (target : SourceTarget) (ls : List String) : Prop := Scoped target 0 (ls.flatMap solid)

instance (target : SourceTarget) : Gathers (Settled target) :=
  ⟨scoped_of_quiet nofun, fun hls hks => by
    rw [Settled, flatMap_append]
    exact hls.append hks⟩

theorem Quiet.settled (h : Quiet ls) : Settled target ls :=
  scoped_flatMap fun l hl => scoped_of_quiet fun w hw => h l hl w (mem_filter.mp hw).1

end Widgetry.Source
