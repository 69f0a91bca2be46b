import Widgetry.Proofs.Source.Literal

/-!
# Passages of source text

A passage is a text of any number of lines of which is known which brackets it opens and closes, which
helpers it calls and which names it defines. Directives that are written one after the other make
one passage: indentation and blank lines change nothing of it. Beside the brackets stands the level
of indentation, which no directive may take below zero.
-/

namespace Widgetry.Source

open List

def definer : SourceTarget → List Char
  | .glance => ['f', 'u', 'n']
  | .swiftUI => ['f', 'u', 'n', 'c']

variable {uses' : List Helper} {d : Directive} {ds : List Directive}

section

variable {comments : Bool} {target : SourceTarget} {uses : List Helper}
  {p q r : List Char} {names more : List (List Char)} {a b s : String}

/-- A text that leads from some open brackets to others, calls given helpers only and defines certain
names, each with a parenthesis behind it; `comments` says that comments are passed over. -/
def Passage (comments : Bool) (target : SourceTarget) (uses : List Helper) (p q : List Char)
    (names : List (List Char)) (s : String) : Prop :=
  ∃ ts, spelling? comments s.toList = some ts ∧ ts.foldlM (nest true false) p = some q ∧
    (∀ h : Helper, h.name.toList ∈ calls ts → h ∈ uses) ∧ defined (definer target) ts = names ∧
    names ⊆ calls ts

namespace Passage

theorem empty (comments : Bool) (target : SourceTarget) (uses : List Helper) (p : List Char) :
    Passage comments target uses p p [] "" :=
  ⟨[], rfl, rfl, nofun, rfl, nil_subset _⟩

theorem eq_of_empty (h : Passage comments target uses p q names "") : p = q ∧ names = [] := by
  obtain ⟨ts, hts, hnest, -, hnames, -⟩ := h
  obtain rfl : ts = [] := (Option.some.inj hts).symm
  exact ⟨Option.some.inj hnest, hnames.symm⟩

theorem mono (h : Passage comments target uses p q names s) (hsub : uses ⊆ uses') :
    Passage comments target uses' p q names s := by
  obtain ⟨ts, hts, hnest, hcalls, hnames⟩ := h
  exact ⟨ts, hts, hnest, fun g hg => hsub (hcalls g hg), hnames⟩

theorem frame (h : Passage comments target uses p q names s) (st : List Char) :
    Passage comments target uses (p ++ st) (q ++ st) names s := by
  obtain ⟨ts, hts, hnest, hcalls, hnames⟩ := h
  exact ⟨ts, hts, foldlM_nest_append hnest st, hcalls, hnames⟩

end Passage

/-! ### Pieces -/

theorem defined_eq_nil {keyword : List Char} {ts : List Token} (h : .word keyword ∉ ts) :
    defined keyword ts = [] := by
  induction ts with
  | nil => rfl
  | cons t ts ih =>
    rw [mem_cons, not_or] at h
    rw [defined, if_neg (Ne.symm h.1), ih h.2]
    rfl

theorem startsDefinition_definer (target : SourceTarget) :
    startsDefinition (definer target) = true := by
  cases target <;> rfl

theorem Fits.passage (h : Fits false uses p q s) (comments : Bool) (target : SourceTarget) :
    Passage comments target uses p q [] s := by
  obtain ⟨-, ts, hts, hleads⟩ := h
  have hdefiner : .word (definer target) ∉ ts := by
    intro hmem
    have hordinary := hleads.words _ hmem
    rw [startsDefinition_definer] at hordinary
    cases hordinary
  exact ⟨ts, hts comments, hleads.nests true, hleads.calls, defined_eq_nil hdefiner,
    nil_subset _⟩

/-! ### Lines put together -/

theorem nest_newline (stack : List Char) : nest true false stack (.sign '\n') = some stack := rfl

theorem nest_blank (stack : List Char) : nest true false stack (.sign ' ') = some stack := rfl

theorem nameAfter_append_newline (ts us : List Token) :
    nameAfter (ts ++ .sign '\n' :: us) = nameAfter ts := by
  cases ts with
  | nil => rfl
  | cons t ts =>
    cases t with
    | word w => rfl
    | literal | unclosed => rfl
    | sign c =>
      by_cases hc : c = ' '
      · subst hc
        cases ts with
        | nil => rfl
        | cons u ts => cases u <;> rfl
      · simp [nameAfter, hc]

theorem defined_append_newline (keyword : List Char) (ts us : List Token) :
    defined keyword (ts ++ .sign '\n' :: us) = defined keyword ts ++ defined keyword us := by
  induction ts with
  | nil => rfl
  | cons t ts ih =>
    rw [cons_append, defined, defined, nameAfter_append_newline, ih, append_assoc]

theorem calls_append_newline (ts us : List Token) :
    calls (ts ++ .sign '\n' :: us) = calls ts ++ calls us := by
  have hnewline : calls (.sign '\n' :: us) = calls us := rfl
  fun_induction calls ts with
  | case1 w rest ih => exact ih
  | case2 w rest ih => exact congrArg (w :: ·) ih
  | case3 t rest hdot hcall ih =>
    rw [cons_append, calls]
    · exact ih
    · intro w rest' ht hrest
      cases rest with
      | nil => cases (List.cons.inj hrest).1
      | cons r rest => exact hdot w rest ht (by rw [(List.cons.inj hrest).1])
    · intro w rest' ht hrest
      cases rest with
      | nil => exact absurd (Token.sign.inj (List.cons.inj hrest).1) (by decide)
      | cons r rest => exact hcall w rest ht (by rw [(List.cons.inj hrest).1])
  | case4 => exact hnewline

/-- Two passages with a line end between them. -/
theorem Passage.append_newline (ha : Passage comments target uses p q names a)
    (hb : Passage comments target uses q r more b) :
    Passage comments target uses p r (names ++ more) (a ++ "\n" ++ b) := by
  obtain ⟨ts, hts, htsnest, htscalls, rfl, htsnames⟩ := ha
  obtain ⟨us, hus, husnest, huscalls, rfl, husnames⟩ := hb
  refine ⟨ts ++ .sign '\n' :: us, ?_, ?_, ?_, defined_append_newline _ ts us, ?_⟩
  · have hnewline : spelling? comments ['\n'] = some [.sign '\n'] := by cases comments <;> rfl
    rw [String.toList_append, String.toList_append, append_assoc]
    exact spelling?_append hts (spelling?_append hnewline hus (.inl rfl)) (.inr rfl)
  · rw [foldlM_append, htsnest]
    exact husnest
  · intro h hmem
    rw [calls_append_newline] at hmem
    rcases mem_append.mp hmem with hmem | hmem
    · exact htscalls h hmem
    · exact huscalls h hmem
  · rw [calls_append_newline]
    exact append_subset.mpr ⟨fun w hw => mem_append_left _ (htsnames hw),
      fun w hw => mem_append_right _ (husnames hw)⟩

theorem Passage.blank (h : Passage comments target uses p q names s) :
    Passage comments target uses p q names (" " ++ s) := by
  obtain ⟨ts, hts, hnest, hcalls, hnames⟩ := h
  refine ⟨.sign ' ' :: ts, ?_, ?_, hcalls, hnames⟩
  · have hblank : spelling? comments [' '] = some [.sign ' '] := by cases comments <;> rfl
    rw [String.toList_append]
    exact spelling?_append hblank hts (.inl rfl)
  · rw [foldlM_cons, nest_blank]
    exact hnest

theorem Passage.indented (h : Passage comments target uses p q names s) (level : Nat) :
    Passage comments target uses p q names (Writer.indented level s) := by
  unfold Writer.indented
  split
  · rename_i hempty
    obtain rfl : s = "" := String.isEmpty_iff.mp hempty
    exact h
  · induction level with
    | zero => simpa using h
    | succ level ih =>
      rw [replicate_succ, String.join_cons, String.append_assoc]
      exact ih.blank.blank.blank.blank

end

/-! ### Lists of lines -/

/-- Lines that make one passage. -/
inductive Passes (comments : Bool) (target : SourceTarget) (uses : List Helper) :
    List Char → List Char → List (List Char) → List String → Prop
  | nil (p : List Char) : Passes comments target uses p p [] []
  | cons {p q r : List Char} {names more : List (List Char)} {l : String} {ls : List String}
      (hl : Passage comments target uses p q names l)
      (hls : Passes comments target uses q r more ls) :
      Passes comments target uses p r (names ++ more) (l :: ls)

namespace Passes

variable {comments : Bool} {target : SourceTarget} {uses : List Helper} {p q r : List Char}
  {names more : List (List Char)} {ls ks : List String}

theorem single {l : String} (h : Passage comments target uses p q names l) :
    Passes comments target uses p q names [l] := by
  rw [← append_nil names]
  exact .cons h (.nil q)

theorem append (hls : Passes comments target uses p q names ls)
    (hks : Passes comments target uses q r more ks) :
    Passes comments target uses p r (names ++ more) (ls ++ ks) := by
  induction hls with
  | nil => exact hks
  | cons hl _ ih =>
    rw [append_assoc, cons_append]
    exact .cons hl (ih hks)

theorem of_append (h : Passes comments target uses p r names (ls ++ ks)) :
    ∃ q before after, names = before ++ after ∧ Passes comments target uses p q before ls ∧
      Passes comments target uses q r after ks := by
  induction ls generalizing p names with
  | nil => exact ⟨p, [], names, rfl, .nil p, h⟩
  | cons l ls ih =>
    cases h with
    | cons hl hrest =>
      obtain ⟨q, before, after, rfl, hls, hks⟩ := ih hrest
      exact ⟨q, _, after, (append_assoc _ _ _).symm, .cons hl hls, hks⟩

section

variable (h : Passes comments target uses p q names ls)

include h

theorem mono (hsub : uses ⊆ uses') :
    Passes comments target uses' p q names ls := by
  induction h with
  | nil p => exact .nil p
  | cons hl _ ih => exact .cons (hl.mono hsub) ih

theorem frame (st : List Char) :
    Passes comments target uses (p ++ st) (q ++ st) names ls := by
  induction h with
  | nil p => exact .nil _
  | cons hl _ ih => exact .cons (hl.frame st) ih

theorem indented (level : Nat) :
    Passes comments target uses p q names (ls.map (Writer.indented level)) := by
  induction h with
  | nil p => exact .nil p
  | cons hl _ ih => exact .cons (hl.indented level) ih

theorem passage_unlines {rest : String} (hrest : Passage comments target uses q r more rest) :
    Passage comments target uses p r (names ++ more) (unlines ls ++ rest) := by
  induction h with
  | nil p =>
    have hnil : unlines [] ++ rest = rest := String.empty_append
    rw [hnil]
    exact hrest
  | @cons p q' q names names' l ls hl _ ih =>
    have hcons : unlines (l :: ls) ++ rest = l ++ "\n" ++ (unlines ls ++ rest) := by
      rw [← String.append_assoc]
      exact congrArg (· ++ rest) String.join_cons
    rw [hcons, append_assoc]
    exact hl.append_newline (ih hrest)

end

theorem dropLast_empty (h : Passes comments target uses p q names (ls ++ [""])) :
    Passes comments target uses p q names ls := by
  obtain ⟨r, before, after, rfl, hls, hlast⟩ := of_append h
  cases hlast with
  | cons hl hrest =>
    obtain ⟨rfl, rfl⟩ := hl.eq_of_empty
    cases hrest
    rwa [append_nil, append_nil]

theorem dropBlank (h : Passes comments target uses p q names ls.reverse) :
    Passes comments target uses p q names (Writer.dropBlank ls).reverse := by
  fun_induction Writer.dropBlank ls with
  | case1 line rest ih =>
    rw [reverse_cons] at h
    exact ih h.dropLast_empty
  | case2 ls _ => exact h

end Passes

/-! ### Directives -/

namespace Directive

def text? : Directive → Option String
  | .line s | .enter s | .leave s | .reenter s => some s
  | .indent | .dedent | .blank => none

def lines (d : Directive) : List String :=
  match d.text? with
  | some s => Text.lines s
  | none => []

/-- Whether a directive ends an indentation. -/
def closes : Directive → Bool
  | .leave _ | .reenter _ | .dedent => true
  | _ => false

/-- The level of indentation after a directive; there is none where it would fall below zero. -/
def level? (level : Nat) : Directive → Option Nat
  | .line _ | .blank => some level
  | .enter _ | .indent => some (level + 1)
  | .leave _ | .dedent => if level = 0 then none else some (level - 1)
  | .reenter _ => if level = 0 then none else some level

theorem level?_zero (h : d.closes = true) : d.level? 0 = none := by
  cases d with
  | leave s | reenter s => rfl
  | dedent => rfl
  | line s | enter s => cases h
  | indent | blank => cases h

variable {w : Writer} {n : Nat}

theorem level_step (h : d.level? w.level = some n) : (w.step d).level = n := by
  cases d with
  | line s | enter s => exact Option.some.inj h
  | indent => exact Option.some.inj h
  | leave s =>
    rw [level?] at h
    split at h
    · cases h
    · exact Option.some.inj h
  | reenter s =>
    rw [level?] at h
    split at h
    · cases h
    · have hn := Option.some.inj h
      show w.level - 1 + 1 = n
      omega
  | dedent =>
    rw [level?] at h
    split at h
    · cases h
    · exact Option.some.inj h
  | blank =>
    rw [← Option.some.inj h]
    show w.writeBlank.level = w.level
    unfold Writer.writeBlank
    split <;> rfl

theorem level_foldl (h : ds.foldlM level? w.level = some n) :
    (ds.foldl Writer.step w).level = n := by
  induction ds generalizing w with
  | nil => exact Option.some.inj h
  | cons d ds ih =>
    rw [foldlM_cons] at h
    obtain ⟨m, hm, hrest⟩ := Option.bind_eq_some_iff.mp h
    rw [← level_step hm] at hrest
    exact ih hrest

theorem level?_add {m : Nat} (h : d.level? m = some n) (k : Nat) :
    d.level? (m + k) = some (n + k) := by
  cases d with
  | line s => rw [← Option.some.inj h]; rfl
  | blank => rw [← Option.some.inj h]; rfl
  | enter s => rw [← Option.some.inj h, Nat.add_right_comm]; rfl
  | indent => rw [← Option.some.inj h, Nat.add_right_comm]; rfl
  | leave s | dedent | reenter s =>
    simp only [level?] at h ⊢
    split at h
    · cases h
    · have hn := Option.some.inj h
      rw [if_neg (by omega)]
      congr 1
      omega

theorem foldlM_level?_add {m : Nat} (h : ds.foldlM level? m = some n) (k : Nat) :
    ds.foldlM level? (m + k) = some (n + k) := by
  induction ds generalizing m with
  | nil => rw [foldlM_nil] at h ⊢; rw [Option.some.inj h]; rfl
  | cons d ds ih =>
    rw [foldlM_cons] at h ⊢
    obtain ⟨l, hl, hrest⟩ := Option.bind_eq_some_iff.mp h
    rw [level?_add hl k]
    exact ih hrest

end Directive

/-- Directives that end an indentation only where there is one, and that end all they start. -/
def Steady (ds : List Directive) : Prop :=
  (∀ before d after, ds = before ++ d :: after → d.closes = true →
    1 ≤ (before.foldl Writer.step .start).level) ∧
  (ds.foldl Writer.step .start).level = 0

theorem steady_of_level? (h : ds.foldlM Directive.level? 0 = some 0) : Steady ds := by
  refine ⟨?_, Directive.level_foldl (w := .start) h⟩
  rintro before d after rfl hcloses
  rw [foldlM_append] at h
  obtain ⟨m, hm, hrest⟩ := Option.bind_eq_some_iff.mp h
  rw [foldlM_cons] at hrest
  obtain ⟨n, hn, -⟩ := Option.bind_eq_some_iff.mp hrest
  have hlevel : (before.foldl Writer.step .start).level = m := Directive.level_foldl (w := .start) hm
  rw [hlevel, Nat.one_le_iff_ne_zero]
  rintro rfl
  rw [Directive.level?_zero hcloses] at hn
  cases hn

/-! ### Written text -/

namespace Writer

variable {comments : Bool} {target : SourceTarget} {uses : List Helper} {p q r : List Char}
  {names more : List (List Char)} {w : Writer}

theorem reverse_foldl_cons {α β : Type} (f : α → β) (l : List α) (acc : List β) :
    (l.foldl (fun bs a => f a :: bs) acc).reverse = acc.reverse ++ l.map f := by
  induction l generalizing acc with
  | nil => rw [map_nil, append_nil]; rfl
  | cons a l ih => rw [foldl_cons, ih, reverse_cons, append_assoc]; rfl

section

variable (hw : Passes comments target uses p q names w.written.reverse)

include hw

theorem passes_write {text : String}
    (htext : Passes comments target uses q r more (Text.lines text)) :
    Passes comments target uses p r (names ++ more) (w.write text).written.reverse := by
  unfold write
  rw [reverse_foldl_cons]
  exact hw.append (htext.indented w.level)

theorem passes_writeBlank :
    Passes comments target uses p q names w.writeBlank.written.reverse := by
  unfold writeBlank
  split
  · exact hw
  · exact hw
  · rw [reverse_cons, ← append_nil names]
    exact hw.append (.single (.empty comments target uses q))

theorem passes_step (hd : Passes comments target uses q r more d.lines) :
    Passes comments target uses p r (names ++ more) (w.step d).written.reverse := by
  cases d with
  | line s | enter s => exact passes_write hw hd
  | leave s | reenter s => exact passes_write (w := { w with level := w.level - 1 }) hw hd
  | indent | dedent =>
    cases hd
    rwa [append_nil]
  | blank =>
    cases hd
    rw [append_nil]
    exact passes_writeBlank hw

theorem passes_foldl_step
    (hds : Passes comments target uses q r more (ds.flatMap Directive.lines)) :
    Passes comments target uses p r (names ++ more) (ds.foldl step w).written.reverse := by
  induction ds generalizing w q names more with
  | nil =>
    cases hds
    rwa [append_nil]
  | cons d ds ih =>
    rw [flatMap_cons] at hds
    obtain ⟨_, before, after, rfl, hd, hrest⟩ := hds.of_append
    rw [← append_assoc]
    exact ih (passes_step hw hd) hrest

end

end Writer

theorem passage_render {comments : Bool} {target : SourceTarget} {uses : List Helper}
    {p q : List Char} {names : List (List Char)}
    (h : Passes comments target uses p q names (ds.flatMap Directive.lines)) :
    Passage comments target uses p q names (render ds) := by
  have hlines := (Writer.passes_foldl_step (w := .start) (.nil p) h).dropBlank
  have hrender := hlines.passage_unlines (.empty comments target uses q)
  rw [append_nil, String.append_empty] at hrender
  exact hrender

end Widgetry.Source
