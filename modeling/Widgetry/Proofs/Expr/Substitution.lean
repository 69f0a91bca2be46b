import Widgetry.Proofs.Canvas
import Widgetry.Proofs.Expr.Backend

/-!
# Templates as substitution

A text with placeholders shows its literal text as it stands and, for each placeholder, the text of
the value it names. A placeholder by itself is compiled as a binding and any other template as a
concatenation; both give the same text and fail for the same placeholder.
-/

namespace Widgetry

open List

/-! ### Text that is no binding -/

variable {cs : List Char} {b : Binding} {s : String}

namespace Binding

theorem not_mem_identifier (h : Text.isIdentifierList cs = true) : '\x7b' ∉ cs :=
  fun hbrace => absurd (Text.isWord_of_isIdentifierList h hbrace) (by decide)

theorem not_mem_segment {segment : Segment} (h : segment? cs = some segment) : '\x7b' ∉ cs := by
  intro hbrace
  unfold segment? at h
  split at h
  · rename_i hdigits
    simp only [Bool.and_eq_true, all_eq_true] at hdigits
    exact absurd (hdigits.2 _ hbrace) (by decide)
  · split at h
    · rename_i hname
      exact not_mem_identifier hname hbrace
    · cases h

theorem not_mem_scope {scope : Scope} (h : scope? cs = some scope) : '\x7b' ∉ cs := by
  unfold scope? at h
  split at h
  · subst_vars
    decide
  · split at h
    · subst_vars
      decide
    · split at h
      · subst_vars
        decide
      · cases h

variable {pieces : List (List Char)}

theorem not_mem_mapM_segment {segments : List Segment} (h : pieces.mapM segment? = some segments) :
    ∀ piece ∈ pieces, '\x7b' ∉ piece := by
  induction pieces generalizing segments with
  | nil => exact forall_mem_nil _
  | cons piece pieces ih =>
    rw [mapM_cons] at h
    obtain ⟨segment, hsegment, h⟩ := Option.bind_eq_some_iff.mp h
    obtain ⟨more, hmore, _⟩ := Option.bind_eq_some_iff.mp h
    exact forall_mem_cons.mpr ⟨not_mem_segment hsegment, ih hmore⟩

theorem not_mem_pieces (h : ofPieces? pieces = some b) : ∀ piece ∈ pieces, '\x7b' ∉ piece := by
  fun_cases ofPieces? pieces with
  | case1 scope piece pieces =>
    obtain ⟨found, hscope, h⟩ := Option.bind_eq_some_iff.mp h
    obtain ⟨segments, hsegments, _⟩ := Option.bind_eq_some_iff.mp h
    exact forall_mem_cons.mpr ⟨not_mem_scope hscope, not_mem_mapM_segment hsegments⟩
  | case2 => simp_all [ofPieces?]

theorem parse?_eq_none (h : '\x7b' ∈ s.toList) : parse? s = none := by
  cases hparse : parse? s with
  | none => rfl
  | some b =>
    obtain ⟨piece, hpiece, hbrace⟩ := Text.exists_mem_splitOn '.' (by decide) h
    exact absurd hbrace (not_mem_pieces hparse piece hpiece)

theorem settingKey?_eq_none (h : '\x7b' ∈ s.toList) : settingKey? s = none := by
  unfold settingKey?
  split
  · rename_i key hdrop
    refine if_neg fun hkey => ?_
    rw [Text.dropPrefix?_eq_some hdrop, mem_append] at h
    exact h.elim (by decide) (not_mem_identifier hkey)
  · rfl

end Binding

/-! ### Placeholders and what they show -/

def Size.along (size : Size) : SizeAxis → Float
  | .width => size.width
  | .height => size.height

/-- The value that a binding names: what stands in the data or the settings unless it is null, or a
side of the canvas. -/
def Binding.value? (size : Size) (item : List Segment) (c : Context) (b : Binding) :
    Option Value :=
  match b.absolute? item with
  | some path => ((c.lookup? path).map Value.ofJson).filter Value.isPresent
  | none => b.axis?.map fun axis => .number (size.along axis)

theorem Binding.isSome_value?_of_size (hscope : b.scope = .size) (h : b.isStraySize = false)
    (size : Size) (item : List Segment) (c : Context) : (b.value? size item c).isSome = true := by
  simp only [isStraySize, hscope, beq_self_eq_true, Bool.true_and, Option.isNone_eq_false_iff] at h
  simp only [value?, absolute?, hscope, Option.isSome_map, h]

namespace Template

/-- A stretch of a template: text, or what stands between pairs of braces. -/
inductive Span where
  | text (cs : List Char)
  | hole (cs : List Char)
deriving DecidableEq, Repr

/-- How a text is read from left to right: the next pair of opening braces starts a placeholder, and
the pair of closing braces that follows ends it. -/
inductive Spans : List Char → List Span → Prop where
  | text {cs : List Char} (h : ¬['\x7b', '\x7b'] <:+: cs) : Spans cs [.text cs]
  | hole {before inner rest : List Char} {spans : List Span}
      (hopen : ¬['\x7b', '\x7b'] <:+: before ++ ['\x7b'])
      (hclose : ¬['\x7d', '\x7d'] <:+: inner ++ ['\x7d']) (hrest : Spans rest spans) :
      Spans (before ++ '\x7b' :: '\x7b' :: (inner ++ '\x7d' :: '\x7d' :: rest))
        (.text before :: .hole inner :: spans)

namespace Span

/-- The binding in a placeholder, with blanks around it. -/
def binding? : Span → Option Binding
  | .text _ => none
  | .hole cs => Binding.parseLoose? (Text.trim (String.ofList cs))

/-- What is shown for a stretch: its text, or the text of the value that the placeholder names. -/
def shown? (size : Size) (item : List Segment) (c : Context) : Span → Option String
  | .text cs => some (String.ofList cs)
  | .hole cs => ((Span.hole cs).binding?.bind (Binding.value? size item c)).map Value.display

def parts : Span → List TemplatePart
  | .text cs => textPart cs
  | .hole cs => ((Span.hole cs).binding?.map .placeholder).toList

end Span

theorem Spans.unique {spans others : List Span} (h : Spans cs spans) (h' : Spans cs others) :
    others = spans := by
  induction h generalizing others with
  | text hnone =>
    cases h' with
    | text _ => rfl
    | hole hopen _ _ => exact absurd ⟨_, _, append_assoc _ _ _⟩ hnone
  | @hole before inner rest spans hopen hclose _ ih =>
    have hcut := Text.breakOnPair_append (inner ++ '\x7d' :: '\x7d' :: rest) hopen
    generalize hcs : before ++ '\x7b' :: '\x7b' :: (inner ++ '\x7d' :: '\x7d' :: rest) = cs at h' hcut
    cases h' with
    | text hnone =>
      rw [Text.breakOnPair_eq_none_iff.mpr hnone] at hcut
      cases hcut
    | @hole before' inner' rest' spans' hopen' hclose' hrest' =>
      rw [Text.breakOnPair_append _ hopen'] at hcut
      obtain ⟨rfl, hafter⟩ := Prod.mk.inj (Option.some.inj hcut)
      have hinner := Text.breakOnPair_append rest' hclose'
      rw [hafter, Text.breakOnPair_append rest hclose] at hinner
      obtain ⟨rfl, rfl⟩ := Prod.mk.inj (Option.some.inj hinner)
      rw [ih hrest']

/-- The parts of a template are those of its stretches, and every placeholder is a binding. -/
theorem exists_spans_of_partsFrom {whole : String} {fuel : Nat} {parts : List TemplatePart}
    (hfuel : cs.length ≤ fuel) (h : partsFrom whole fuel cs = .ok parts) :
    ∃ spans, Spans cs spans ∧ parts = spans.flatMap Span.parts ∧
      ∀ inner, Span.hole inner ∈ spans → (Span.hole inner).binding?.isSome = true := by
  induction fuel generalizing cs parts with
  | zero =>
    obtain rfl := length_eq_zero_iff.mp (Nat.le_zero.mp hfuel)
    cases h
    exact ⟨[.text []], .text (by simp), rfl, by simp⟩
  | succ fuel ih =>
    rw [partsFrom] at h
    cases hopen : Text.breakOnPair '\x7b' cs with
    | none =>
      rw [hopen] at h
      cases h
      exact ⟨[.text cs], .text (Text.breakOnPair_eq_none_iff.mp hopen), by simp [Span.parts], by simp⟩
    | some found =>
      obtain ⟨before, after⟩ := found
      cases hclose : Text.breakOnPair '\x7d' after with
      | none => simp [hopen, hclose] at h
      | some found =>
        obtain ⟨inner, rest⟩ := found
        have hopened := Text.eq_of_breakOnPair hopen
        have hclosed := Text.eq_of_breakOnPair hclose
        cases hbinding : Binding.parseLoose? (Text.trim (String.ofList inner)) with
        | none => simp [hopen, hclose, hbinding] at h
        | some b =>
          simp only [hopen, hclose, hbinding] at h
          obtain ⟨more, hmore, hparts⟩ := exists_of_bind_eq_ok h
          have hroom : rest.length ≤ fuel := by
            rw [hopened.1, hclosed.1] at hfuel
            simp only [length_append, length_cons] at hfuel
            omega
          obtain ⟨spans, hspans, rfl, hnamed⟩ := ih hroom hmore
          refine ⟨.text before :: .hole inner :: spans, ?_, ?_, ?_⟩
          · rw [hopened.1, hclosed.1]
            exact .hole hopened.2 hclosed.2 hspans
          · cases hparts
            simp [Span.parts, Span.binding?, hbinding]
          · intro cs hcs
            simp only [mem_cons, reduceCtorEq, Span.hole.injEq, false_or] at hcs
            rcases hcs with rfl | hcs
            · rw [Span.binding?, hbinding]
              rfl
            · exact hnamed cs hcs

end Template

/-! ### Parts as terms -/

/-- The text of a part, or the fault of a placeholder that names no value. -/
def TemplatePart.outcome (size : Size) (item : List Segment) (c : Context) :
    TemplatePart → Except Fault String
  | .text s => .ok s
  | .placeholder b =>
      match b.value? size item c with
      | some v => .ok v.display
      | none => .error (.missing b.render)

namespace Elaboration

variable {env : Env} {place place' : Location} {b : Binding} {t u : Term}

/-- A term that gives the text of a part. -/
def Shows (env : Env) (item : List Segment) (c : Context) (p : TemplatePart) (t : Term) : Prop :=
  t.eval item c = (p.outcome env.size item c).map .string

variable {want : Option ValueType}

theorem get_cases (h : get env want false place b none = .ok t) :
    (∃ axis, b.scope = .size ∧ b.axis? = some axis ∧
        t = .literal (.number (env.size.along axis))) ∨
      b.scope ≠ .size ∧ t = .read b (want.getD .any) .zero := by
  unfold get at h
  split at h
  · rename_i hsize
    split at h
    · rename_i haxis
      cases h
      exact .inl ⟨.width, hsize, haxis, rfl⟩
    · rename_i haxis
      cases h
      exact .inl ⟨.height, hsize, haxis, rfl⟩
    · cases h
  · rename_i hsize
    cases h
    exact .inr ⟨hsize, rfl⟩

theorem fit_string_type {t u : Term} (h : t.fit place .string = .ok u) : u.type = .string := by
  unfold Term.fit at h
  split at h
  · cases h
    assumption
  · split at h
    · cases h
      rfl
    · cases h

theorem fit_of_type {t : Term} (h : t.type = .string) : t.fit place .string = .ok t := if_pos h

/-- A placeholder read as text or as anything, and then brought to text. -/
theorem shows_placeholder (hwant : want = none ∨ want = some .string)
    (hget : get env want false place b none = .ok t) (hfit : t.fit place' .string = .ok u)
    (item : List Segment) (c : Context) : Shows env item c (.placeholder b) u := by
  unfold Shows TemplatePart.outcome Binding.value?
  rcases get_cases hget with ⟨axis, hscope, haxis, rfl⟩ | ⟨hscope, rfl⟩
  · cases hfit
    simp only [Binding.absolute?, hscope, haxis, Option.map_some, Term.eval]
    rfl
  · obtain ⟨path, hpath⟩ : ∃ path, b.absolute? item = some path := by
      unfold Binding.absolute?
      cases hb : b.scope <;> simp_all
    rcases hwant with rfl | rfl
    · cases hfit
      simp only [Term.eval, Term.readBinding, hpath, Fallback.value?]
      cases ((c.lookup? path).map Value.ofJson).filter Value.isPresent <;> rfl
    · cases hfit
      simp only [Term.eval, Term.readBinding, hpath, Fallback.value?]
      cases ((c.lookup? path).map Value.ofJson).filter Value.isPresent <;> rfl

def partExpr (place : Location) : TemplatePart → Expr
  | .text s => .literal place (.string s)
  | .placeholder b => .op place .toString [.get place b none]

theorem shows_part {p : TemplatePart} (hexpr : expr env (some .string) (partExpr place p) = .ok t)
    (hfit : t.fit place' .string = .ok u) (item : List Segment) (c : Context) :
    Shows env item c p u := by
  cases p with
  | text s =>
    rw [partExpr, expr] at hexpr
    cases hexpr
    cases hfit
    rw [Shows, Term.eval]
    rfl
  | placeholder b =>
    rw [partExpr, expr, if_neg (by simp [Operator.arity, Arity.exactly, Arity.admits, Arity.inBounds,
      Arity.hasParity]), if_neg (by decide)] at hexpr
    obtain ⟨label, hlabel, hexpr⟩ := exists_of_bind_eq_ok hexpr
    obtain ⟨terms, hterms, hexpr⟩ := exists_of_bind_eq_ok hexpr
    rw [operands] at hterms
    obtain ⟨read, hread, hterms⟩ := exists_of_bind_eq_ok hterms
    obtain ⟨none', hnone, hterms⟩ := exists_of_bind_eq_ok hterms
    rw [operands] at hnone
    cases hnone
    cases hterms
    rw [expr] at hread
    have hshown : read.fit place .string = .ok t := hexpr
    rw [fit_of_type (fit_string_type hshown)] at hfit
    cases hfit
    exact shows_placeholder (.inl rfl) hread hshown item c

theorem evalAll_parts {parts : List TemplatePart} {label : ValueType} {count i : Nat}
    {terms : List Term}
    (h : operands env (mode .concat (some .string) label count) i (parts.map (partExpr place)) =
      .ok terms) (item : List Segment) (c : Context) :
    Term.evalAll item c terms = parts.map fun p => (p.outcome env.size item c).map .string := by
  induction parts generalizing i terms with
  | nil =>
    rw [map_nil, operands] at h
    cases h
    rw [Term.evalAll, map_nil]
  | cons p parts ih =>
    rw [map_cons, operands] at h
    obtain ⟨t, hexpr, h⟩ := exists_of_bind_eq_ok h
    obtain ⟨u, hfit, h⟩ := exists_of_bind_eq_ok h
    obtain ⟨us, hus, h⟩ := exists_of_bind_eq_ok h
    cases h
    have hshows : u.eval item c = _ := shows_part hexpr hfit item c
    rw [Term.evalAll, hshows, ih hus, map_cons]

theorem concat_apply_texts {parts : List TemplatePart} (f : TemplatePart → Except Fault String) :
    Operator.concat.apply (parts.map fun p => (f p).map .string) =
      (parts.mapM f).map fun texts => .string (String.join texts) := by
  have htexts : (parts.map fun p => (f p).map Value.string).mapM (fun a => a.map Value.display) =
      parts.mapM f := by
    rw [mapM_map]
    congr 1
    funext p
    rw [Function.comp_apply]
    cases f p <;> rfl
  rw [Operator.apply, htexts]
  cases parts.mapM f <;> rfl

theorem ofTemplate_eq {parts : List TemplatePart} (h : ∀ b, parts = [.placeholder b] → False) :
    PropertyValue.ofTemplate place parts =
      .expression (.op place .concat (parts.map (partExpr place))) := by
  rw [PropertyValue.ofTemplate]
  · refine congrArg (fun es => PropertyValue.expression (.op place .concat es))
      (map_congr_left fun p _ => ?_)
    cases p <;> rfl
  · exact h

theorem eval_concat {parts : List TemplatePart}
    (h : property env .string place' (.expression (.op place .concat (parts.map (partExpr place)))) =
      .ok t) (item : List Segment) (c : Context) :
    t.eval item c = (parts.mapM (TemplatePart.outcome env.size item c)).map fun texts =>
      .string (String.join texts) := by
  obtain ⟨u, hexpr, hfit⟩ := exists_of_bind_eq_ok h
  rw [expr] at hexpr
  split at hexpr
  · cases hexpr
  · rw [if_neg (by decide)] at hexpr
    obtain ⟨label, _, hexpr⟩ := exists_of_bind_eq_ok hexpr
    obtain ⟨terms, hterms, hexpr⟩ := exists_of_bind_eq_ok hexpr
    cases hexpr
    cases hfit
    rw [Term.eval, evalAll_parts hterms, concat_apply_texts]

/-- A template evaluates to the texts of its parts, in both of its forms. -/
theorem eval_template {parts : List TemplatePart}
    (h : property env .string place' (.ofTemplate place parts) = .ok t) (item : List Segment)
    (c : Context) :
    t.eval item c = (parts.mapM (TemplatePart.outcome env.size item c)).map fun texts =>
      .string (String.join texts) := by
  by_cases hlone : ∃ b, parts = [.placeholder b]
  · obtain ⟨b, rfl⟩ := hlone
    obtain ⟨read, hread, hfit⟩ := exists_of_bind_eq_ok h
    rw [shows_placeholder (.inr rfl) hread hfit item c, mapM_cons, mapM_nil]
    cases (TemplatePart.placeholder b).outcome env.size item c with
    | error e => rfl
    | ok s => simp [Except.map]
  · rw [ofTemplate_eq fun b hb => hlone ⟨b, hb⟩] at h
    exact eval_concat h item c

end Elaboration

/-! ### Stretches of text and their parts -/

namespace Template

variable {size : Size} {item : List Segment} {c : Context} {spans : List Span}

theorem mapM_parts_of_shown {x : Span} (h : x.shown? size item c = some s) :
    ∃ texts, x.parts.mapM (TemplatePart.outcome size item c) = .ok texts ∧
      String.join texts = s := by
  cases x with
  | text cs =>
    cases h
    rw [Span.parts, textPart]
    split
    · rename_i hempty
      rw [isEmpty_iff.mp hempty]
      exact ⟨[], rfl, rfl⟩
    · exact ⟨[String.ofList cs], by rw [mapM_cons]; rfl, by simp⟩
  | hole cs =>
    rw [Span.shown?, Option.map_eq_some_iff] at h
    obtain ⟨v, hv, rfl⟩ := h
    rw [Option.bind_eq_some_iff] at hv
    obtain ⟨b, hb, hvalue⟩ := hv
    refine ⟨[v.display], ?_, by simp⟩
    rw [Span.parts, hb, Option.map_some, Option.toList_some, mapM_cons, TemplatePart.outcome,
      hvalue]
    rfl

theorem mapM_flatMap_of_shown {texts : List String}
    (h : spans.mapM (Span.shown? size item c) = some texts) :
    ∃ pieces, (spans.flatMap Span.parts).mapM (TemplatePart.outcome size item c) = .ok pieces ∧
      String.join pieces = String.join texts := by
  induction spans generalizing texts with
  | nil =>
    cases h
    exact ⟨[], rfl, rfl⟩
  | cons x spans ih =>
    rw [mapM_cons] at h
    obtain ⟨s, hs, h⟩ := Option.bind_eq_some_iff.mp h
    obtain ⟨rest, hrest, h⟩ := Option.bind_eq_some_iff.mp h
    cases h
    obtain ⟨first, hfirst, rfl⟩ := mapM_parts_of_shown hs
    obtain ⟨pieces, hpieces, hjoin⟩ := ih hrest
    refine ⟨first ++ pieces, ?_, ?_⟩
    · rw [flatMap_cons, mapM_append, hfirst, hpieces]
      rfl
    · rw [String.join_append, String.join_cons, hjoin]

theorem exists_mapM_of_isSome (h : ∀ x ∈ spans, (x.shown? size item c).isSome = true) :
    ∃ texts, spans.mapM (Span.shown? size item c) = some texts := by
  induction spans with
  | nil => exact ⟨[], rfl⟩
  | cons x spans ih =>
    obtain ⟨hx, hspans⟩ := forall_mem_cons.mp h
    obtain ⟨s, hs⟩ := Option.isSome_iff_exists.mp hx
    obtain ⟨texts, htexts⟩ := ih hspans
    exact ⟨s :: texts, by rw [mapM_cons, hs, htexts]; rfl⟩

theorem exists_mapM_of_resolved
    (hholes : ∀ inner, Span.hole inner ∈ spans →
      ∃ b, (Span.hole inner).binding? = some b ∧ b.isStraySize = false)
    (hresolve : ∀ inner b, Span.hole inner ∈ spans → (Span.hole inner).binding? = some b →
      b.scope ≠ .size → (b.value? size item c).isSome = true) :
    ∃ texts, spans.mapM (Span.shown? size item c) = some texts := by
  refine exists_mapM_of_isSome fun x hx => ?_
  cases x with
  | text cs => rfl
  | hole inner =>
    obtain ⟨b, hb, hstray⟩ := hholes inner hx
    rw [Span.shown?, hb, Option.bind_some, Option.isSome_map]
    by_cases hscope : b.scope = .size
    · exact b.isSome_value?_of_size hscope hstray size item c
    · exact hresolve inner b hx hb hscope

/-- The first placeholder without a value is the one that is reported. -/
theorem mapM_flatMap_of_missing {before after : List Span} {inner : List Char}
    (hbefore : ∀ x ∈ before, (x.shown? size item c).isSome = true)
    (hb : (Span.hole inner).binding? = some b) (hvalue : b.value? size item c = none) :
    ((before ++ .hole inner :: after).flatMap Span.parts).mapM
      (TemplatePart.outcome size item c) = .error (.missing b.render) := by
  obtain ⟨texts, htexts⟩ := exists_mapM_of_isSome hbefore
  obtain ⟨pieces, hpieces, _⟩ := mapM_flatMap_of_shown htexts
  rw [flatMap_append, mapM_append, hpieces, flatMap_cons, mapM_append,
    Span.parts, hb, Option.map_some, Option.toList_some, mapM_cons, TemplatePart.outcome, hvalue]
  rfl

theorem eq_ofTemplate_of_readString {place : Location} {v : PropertyValue}
    (hbraces : ['\x7b', '\x7b'] <:+: s.toList)
    (h : PropertyValue.readString .string place s = .ok v) :
    ∃ parts, partsFrom s s.length s.toList = .ok parts ∧ v = .ofTemplate place parts := by
  have hbrace : '\x7b' ∈ s.toList := hbraces.subset mem_cons_self
  rw [PropertyValue.readString, Binding.settingKey?_eq_none hbrace, Binding.parse?_eq_none hbrace] at h
  simp only [if_true, parse] at h
  cases hcut : Text.breakOnPair '\x7b' s.toList with
  | none => exact absurd hbraces (Text.breakOnPair_eq_none_iff.mp hcut)
  | some found =>
    rw [hcut] at h
    cases hparts : partsFrom s s.length s.toList with
    | error e => simp [hparts, Except.map] at h
    | ok parts =>
      simp only [hparts, Except.map, Except.ok.injEq] at h
      exact ⟨parts, rfl, h.symm⟩

/-- A template that is read and compiled shows its text with each placeholder replaced by the text
of the value it names, or fails for the first placeholder that names none. Its text is read in one
way, and every placeholder is a binding, to the canvas only if it names a side of it. -/
theorem run_template {env : Env} {place place' : Location} {s : String} {v : PropertyValue}
    {item : List Segment} {thunk : Closure} {type : ValueType} {item' : List Segment}
    (hbraces : ['\x7b', '\x7b'] <:+: s.toList)
    (hread : PropertyValue.readString .string place s = .ok v)
    (hcompile : Backend.closure.compile env .string place' v item = .ok ((thunk, type), item')) :
    ∃ spans, Spans s.toList spans ∧ (∀ others, Spans s.toList others → others = spans) ∧
      (∀ inner, Span.hole inner ∈ spans →
        ∃ b, (Span.hole inner).binding? = some b ∧ b.isStraySize = false) ∧
      ∀ c : Context,
        ((∀ inner b, Span.hole inner ∈ spans → (Span.hole inner).binding? = some b →
            b.scope ≠ .size → (b.value? env.size item c).isSome = true) →
          ∃ texts, spans.mapM (Span.shown? env.size item c) = some texts ∧
            thunk.run c = .ok (.string (String.join texts))) ∧
        ∀ before inner after b, spans = before ++ .hole inner :: after →
          (∀ x ∈ before, (x.shown? env.size item c).isSome = true) →
          (Span.hole inner).binding? = some b → b.value? env.size item c = none →
          thunk.run c = .error (.missing b.render) := by
  obtain ⟨parts, hparts, rfl⟩ := eq_ofTemplate_of_readString hbraces hread
  obtain ⟨spans, hspans, rfl, hnamed⟩ :=
    exists_spans_of_partsFrom (Nat.le_of_eq String.length_toList) hparts
  have hwrites := Backend.closure.writes.run_property item env .string place'
    (.ofTemplate place (spans.flatMap Span.parts))
  obtain ⟨t, ht, hpair⟩ := exists_of_map_eq_ok (hwrites.symm.trans hcompile)
  cases hpair
  have heval (c : Context) := Elaboration.eval_template ht item c
  have hholes : ∀ inner, Span.hole inner ∈ spans →
      ∃ b, (Span.hole inner).binding? = some b ∧ b.isStraySize = false := by
    intro inner hinner
    obtain ⟨b, hb⟩ := Option.isSome_iff_exists.mp (hnamed inner hinner)
    have hpart : .placeholder b ∈ spans.flatMap Span.parts :=
      mem_flatMap.mpr ⟨_, hinner, by simp [Span.parts, hb]⟩
    refine ⟨b, hb, Bool.eq_false_iff.mpr fun hstray => ?_⟩
    exact Elaboration.not_succeeds_ofTemplate hpart hstray env .string place' ⟨t, ht⟩
  refine ⟨spans, hspans, fun others hothers => hspans.unique hothers, hholes, fun c => ⟨?_, ?_⟩⟩
  · intro hresolve
    obtain ⟨texts, htexts⟩ := exists_mapM_of_resolved hholes hresolve
    refine ⟨texts, htexts, ?_⟩
    obtain ⟨pieces, hpieces, hjoin⟩ := mapM_flatMap_of_shown htexts
    have hrun := heval c
    rw [hpieces] at hrun
    exact hrun.trans (congrArg (fun s => Except.ok (Value.string s)) hjoin)
  · rintro before inner after b rfl hbefore hb hvalue
    have hrun := heval c
    rw [mapM_flatMap_of_missing hbefore hb hvalue] at hrun
    exact hrun

theorem run_template_weather :
    let s := "\x7b\x7bcity\x7d\x7d: \x7b\x7b data.sky \x7d\x7d"
    let fair : Context := ⟨.object [("city", .string "Oslo"), ("sky", .string "clear")], []⟩
    let dark : Context := ⟨.object [("city", .string "Oslo"), ("sky", .null)], []⟩
    ∃ v thunk, PropertyValue.readString .string .root s = .ok v ∧
      Backend.closure.compile ⟨.builtin, .glance, ⟨110, 110⟩⟩ .string .root v ([] : List Segment) =
        .ok ((thunk, .string), ([] : List Segment)) ∧
      (thunk : Closure).run fair = .ok (.string "Oslo: clear") ∧
      thunk.run dark = .error (.missing "data.sky") := by
  intro s fair dark
  let city : Binding := ⟨.item, [.key "city"]⟩
  let sky : Binding := ⟨.data, [.key "sky"]⟩
  let v := PropertyValue.ofTemplate .root [.placeholder city, .text ": ", .placeholder sky]
  let term : Term := .apply .concat [.coerce (.read city .any .zero) .string, .literal (.string ": "),
    .coerce (.read sky .any .zero) .string] .string
  have hparts : Template.parse s =
      .ok (some [.placeholder city, .text ": ", .placeholder sky]) := by decide +kernel
  have hread : PropertyValue.readString .string .root s = .ok v := by
    have hbrace : '\x7b' ∈ s.toList := by decide
    rw [PropertyValue.readString, Binding.settingKey?_eq_none hbrace,
      Binding.parse?_eq_none hbrace]
    simp only [if_true, hparts, v]
  have hcompile : Backend.closure.compile ⟨.builtin, .glance, ⟨110, 110⟩⟩ .string .root v
      ([] : List Segment) = .ok ((Closure.ofFormula ⟨[], term⟩, .string), ([] : List Segment)) := rfl
  let spans : List Span :=
    [.text [], .hole "city".toList, .text ": ".toList, .hole " data.sky ".toList, .text []]
  have hcity : (Span.hole "city".toList).binding? = some city := by decide +kernel
  have hsky : (Span.hole " data.sky ".toList).binding? = some sky := by decide +kernel
  have hspans : Spans s.toList spans := by
    have hs : s.toList = [] ++ '\x7b' :: '\x7b' :: ("city".toList ++ '\x7d' :: '\x7d' ::
        (": ".toList ++ '\x7b' :: '\x7b' :: (" data.sky ".toList ++ '\x7d' :: '\x7d' :: []))) := by
      decide
    rw [hs]
    exact .hole (by decide) (by decide) (.hole (by decide) (by decide) (.text (by decide)))
  have hbraces : ['\x7b', '\x7b'] <:+: s.toList := by decide
  obtain ⟨found, -, hunique, -, hrun⟩ := run_template hbraces hread hcompile
  obtain rfl := hunique spans hspans
  refine ⟨v, _, hread, hcompile, ?_, ?_⟩
  · have hresolve : ∀ inner b, Span.hole inner ∈ spans → (Span.hole inner).binding? = some b →
        b.scope ≠ .size → (b.value? ⟨110, 110⟩ [] fair).isSome = true := by
      intro inner b hinner hb _
      simp only [spans, mem_cons, reduceCtorEq, Span.hole.injEq, not_mem_nil, false_or,
        or_false] at hinner
      rcases hinner with rfl | rfl
      · rw [hcity] at hb
        cases hb
        decide +kernel
      · rw [hsky] at hb
        cases hb
        decide +kernel
    obtain ⟨texts, htexts, hfair⟩ := (hrun fair).1 hresolve
    rw [show spans.mapM (Span.shown? ⟨110, 110⟩ [] fair) = some ["", "Oslo", ": ", "clear", ""] by
      decide +kernel] at htexts
    cases htexts
    exact hfair
  · exact (hrun dark).2 [.text [], .hole "city".toList, .text ": ".toList] " data.sky ".toList _ sky rfl
      (by decide +kernel) hsky (by decide +kernel)

end Template

end Widgetry
