import Widgetry.Proofs.Expr.Selection

/-!
# Coalescing

`coalesce` evaluates as its first operand that is present. A read that finds nothing gives way to the
operand after it, except where text is expected and the default of the read is no text: there the
read becomes an empty text, which is present.
-/

namespace Widgetry

open List

namespace Operator

theorem firstPresent_cons (last last' x : Outcome) (xs : List Outcome) :
    firstPresent last (x :: xs) = firstPresent last' (x :: xs) := by
  cases x with
  | ok v => rfl
  | error fault => cases fault <;> rfl

variable {ys : List Outcome}

theorem firstPresent_append_congr {zs : List Outcome}
    (h : ∀ last, firstPresent last ys = firstPresent last zs) (last : Outcome) (xs : List Outcome) :
    firstPresent last (xs ++ ys) = firstPresent last (xs ++ zs) := by
  induction xs generalizing last with
  | nil => exact h last
  | cons x xs ih =>
    rw [cons_append, cons_append]
    cases x with
    | ok v => simp only [firstPresent, ih]
    | error fault =>
      cases fault with
      | missing shown => simp only [firstPresent, ih]
      | mismatch text => rfl
      | noOperand => rfl

/-- Null is passed over wherever another operand follows. -/
theorem firstPresent_append_null (last : Outcome) (xs : List Outcome) (hys : ys ≠ []) :
    firstPresent last (xs ++ .ok .null :: ys) = firstPresent last (xs ++ ys) := by
  obtain ⟨y, ys, rfl⟩ := exists_cons_of_ne_nil hys
  refine firstPresent_append_congr (fun last => ?_) last xs
  exact firstPresent_cons (.ok .null) last y ys

/-- What follows a present operand is not looked at. -/
theorem firstPresent_append_present (last : Outcome) (xs : List Outcome) {v : Value}
    (hv : v.isPresent = true) (ys : List Outcome) :
    firstPresent last (xs ++ .ok v :: ys) = firstPresent last (xs ++ [.ok v]) := by
  refine firstPresent_append_congr (fun last => ?_) last xs
  simp only [firstPresent, hv, if_true]

end Operator

namespace ValueType

theorem converts_self (type : ValueType) : type.converts type = true := by
  cases type <;> rfl

theorem converts_any (type : ValueType) : type.converts .any = true := by
  cases type <;> rfl

/-- Only to text and between texts and colors is a literal brought to another type. -/
theorem eq_of_literal_converts {type : ValueType} {l : Literal} (h : l.type.converts type = true)
    (hcolor : ¬(type = .color ∧ l.type = .string)) (hstring : ¬(type = .string ∧ l.type ≠ .string)) :
    l.type = type ∨ type = .any := by
  cases l <;> cases type <;> simp_all [Literal.type, ValueType.converts]

end ValueType

variable {ts us : List Term}

namespace Term

/-- The outcome of an operand where a type is expected. -/
def outcomeAt (type : ValueType) (item : List Segment) (c : Context) (t : Term) : Outcome :=
  if t.type = type ∨ type = .any then t.eval item c
  else t.eval item c >>= fun v => v.convert type

variable {type : ValueType} {t u : Term}

theorem eval_coerce_any (item : List Segment) (c : Context) :
    eval item c (.coerce t .any) = eval item c t := by
  rw [eval]
  cases eval item c t <;> rfl

theorem Fits.converts (h : t.Fits type u) : t.type.converts type = true := by
  have hfit := h .root
  unfold fit at hfit
  split at hfit
  · rename_i hsame
    rw [hsame, ValueType.converts_self]
  · split at hfit
    · assumption
    · cases hfit

theorem exists_fits (h : t.type.converts type = true) : ∃ u, t.Fits type u := by
  by_cases hsame : t.type = type
  · exact ⟨t, fun place => if_pos hsame⟩
  · refine ⟨.coerce t type, fun place => ?_⟩
    rw [fit, if_neg hsame, if_pos h]

theorem Fits.eval_eq (h : t.Fits type u) (item : List Segment) (c : Context) :
    u.eval item c = t.outcomeAt type item c := by
  have hfit := h .root
  unfold fit at hfit
  unfold outcomeAt
  split at hfit
  · rename_i hsame
    rw [if_pos (.inl hsame), Except.ok.inj hfit]
  · rename_i hsame
    split at hfit
    · obtain rfl := Except.ok.inj hfit
      by_cases hany : type = .any
      · subst hany
        rw [if_pos (.inr rfl), eval_coerce_any]
      · rw [if_neg (not_or.mpr ⟨hsame, hany⟩), eval]
    · cases hfit

theorem common_any (ht : t ∈ ts) :
    t.type = common (some .any) ts ∨ common (some .any) ts = .any := by
  cases ts with
  | nil => simp at ht
  | cons u us =>
    rw [common]
    split
    · rename_i hall
      rcases mem_cons.mp ht with rfl | ht
      · exact .inl rfl
      · exact .inl (eq_of_beq (all_eq_true.mp hall t ht))
    · exact .inr rfl

/-- Terms brought to the type that is common to them have the outcomes that they have at the wanted
type. -/
theorem outcomeAt_common (ht : t ∈ ts) (item : List Segment) (c : Context) :
    t.outcomeAt (common (some type) ts) item c = t.outcomeAt type item c := by
  by_cases hany : type = .any
  · subst hany
    rw [outcomeAt, outcomeAt, if_pos (common_any ht), if_pos (.inr rfl)]
  · rw [common_some hany]

theorem converts_common (ht : t ∈ ts) (h : t.type.converts type = true) :
    t.type.converts (common (some type) ts) = true := by
  by_cases hany : type = .any
  · subst hany
    rcases common_any ht with hsame | hcommon
    · rw [← hsame, ValueType.converts_self]
    · rw [hcommon, ValueType.converts_any]
  · rw [common_some hany]
    exact h

/-- All terms that convert to a type can be brought to the type that is common to them. -/
theorem exists_fits_common (h : ∀ t ∈ us, t ∈ ts ∧ t.type.converts type = true) :
    ∃ vs, Forall₂ (Fits (common (some type) ts)) us vs := by
  induction us with
  | nil => exact ⟨[], .nil⟩
  | cons t us ih =>
    rw [forall_mem_cons] at h
    obtain ⟨v, hv⟩ := exists_fits (converts_common h.1.1 h.1.2)
    obtain ⟨vs, hvs⟩ := ih h.2
    exact ⟨v :: vs, .cons hv hvs⟩

end Term

namespace Elaboration

open Operator (firstPresent)

variable {env : Env} {type : ValueType} {e : Expr} {t : Term} {es : List Expr} {place : Location}
  {b : Binding} {item : List Segment} {path : DataPath} {c : Context} {d : Option Literal}

/-- Operands of which only the last one is elaborated in a mode of its own. -/
theorem operands_concat_eq_ok_iff {modeAt : Nat → Mode} {each final : Mode} {i : Nat}
    (heach : ∀ j < es.length, modeAt (i + j) = each) (hfinal : modeAt (i + es.length) = final) :
    operands env modeAt i (es ++ [e]) = .ok ts ↔ ∃ us u,
      Forall₂ (fun e t => operand env each e = .ok t) es us ∧ operand env final e = .ok u ∧
        ts = us ++ [u] := by
  induction es generalizing i ts with
  | nil =>
    rw [nil_append, operands_cons_eq_ok_iff, show modeAt i = final from hfinal]
    constructor
    · rintro ⟨u, us, hu, hus, rfl⟩
      cases hus
      exact ⟨[], u, .nil, hu, rfl⟩
    · rintro ⟨us, u, hus, hu, rfl⟩
      cases hus
      exact ⟨u, [], hu, rfl, rfl⟩
  | cons x es ih =>
    have hrest : ∀ j < es.length, modeAt (i + 1 + j) = each := by
      intro j hj
      rw [Nat.add_assoc, Nat.add_comm 1 j]
      exact heach (j + 1) (Nat.succ_lt_succ hj)
    have hend : modeAt (i + 1 + es.length) = final := by
      rw [Nat.add_assoc, Nat.add_comm 1]
      exact hfinal
    rw [cons_append, operands_cons_eq_ok_iff,
      show modeAt i = each from heach 0 (Nat.zero_lt_succ _)]
    constructor
    · rintro ⟨v, vs, hv, hvs, rfl⟩
      obtain ⟨us, u, hus, hu, rfl⟩ := (ih hrest hend).mp hvs
      exact ⟨v :: us, u, .cons hv hus, hu, rfl⟩
    · rintro ⟨us, u, hus, hu, rfl⟩
      obtain ⟨v, vs, hv, hvs, rfl⟩ := forall₂_cons_left_iff.mp hus
      exact ⟨v, vs ++ [u], hv, (ih hrest hend).mpr ⟨vs, u, hvs, hu, rfl⟩, rfl⟩

/-- The terms of the operands of a `coalesce`, all but the last one nullable, before they are brought
to one type. -/
def Offers (env : Env) (type : ValueType) (es : List Expr) (e : Expr) (us : List Term) (u : Term) :
    Prop :=
  Forall₂ (fun e t => operand env (.nullable (some type)) e = .ok t) es us ∧
    operand env (.offer (some type)) e = .ok u ∧ ∀ t ∈ us ++ [u], t.type.converts type = true

theorem expr_coalesce (place : Location) (es : List Expr) (e : Expr) :
    expr env (some type) (.op place .coalesce (es ++ [e])) =
      operands env (mode .coalesce (some type) .any (es ++ [e]).length) 0 (es ++ [e]) >>= fun ts =>
        Term.fitAll (Term.common (some type) ts) ((es ++ [e]).map Expr.place) ts >>= fun us =>
          .ok (.apply .coalesce us (Term.common (some type) ts)) := by
  have harity : Operator.coalesce.arity.admits (es ++ [e]).length = true := by
    rw [length_append]
    simp [Operator.arity, Arity.admits, Arity.inBounds, Arity.hasParity, Arity.atLeast]
  rw [expr_op harity (by decide)]
  rfl

theorem operands_coalesce_eq_ok_iff {label : ValueType} :
    operands env (mode .coalesce (some type) label (es ++ [e]).length) 0 (es ++ [e]) = .ok ts ↔
      ∃ us u, Forall₂ (fun e t => operand env (.nullable (some type)) e = .ok t) es us ∧
        operand env (.offer (some type)) e = .ok u ∧ ts = us ++ [u] := by
  have hlen : (es ++ [e]).length = es.length + 1 := by simp
  refine operands_concat_eq_ok_iff (fun j hj => ?_) ?_
  · rw [mode, hlen, if_pos (by omega)]
  · rw [mode, hlen, if_neg (by omega)]

theorem exists_offers (h : Compiles env type (.op place .coalesce (es ++ [e])) t) :
    ∃ us u, Offers env type es e us u := by
  obtain ⟨v, hv, -⟩ := compiles_iff.mp h
  rw [expr_coalesce] at hv
  obtain ⟨ts, hts, hv⟩ := exists_of_bind_eq_ok hv
  obtain ⟨vs, hvs, -⟩ := exists_of_bind_eq_ok hv
  obtain ⟨us, u, hus, hu, rfl⟩ := operands_coalesce_eq_ok_iff.mp hts
  have hlen : ((es ++ [e]).map Expr.place).length = (us ++ [u]).length := by
    simp [hus.length_eq]
  have hfits := (Term.fitAll_eq_ok_iff hlen).mp hvs
  refine ⟨us, u, hus, hu, fun t ht => ?_⟩
  by_cases hany : type = .any
  · rw [hany, ValueType.converts_any]
  · rw [Term.common_some hany] at hfits
    obtain ⟨w, -, hw⟩ := exists_mem_of_forall₂ hfits.flip ht
    exact Term.Fits.converts hw

/-- Operands that can be brought to a type are compiled to the first of them that is present. -/
theorem Offers.compiles {u : Term} (h : Offers env type es e us u) (place : Location) :
    ∃ t, Compiles env type (.op place .coalesce (es ++ [e])) t ∧ ∀ item c, t.eval item c =
      firstPresent (.error (.missing "coalesce")) ((us ++ [u]).map (Term.outcomeAt type item c)) := by
  obtain ⟨hus, hu, hconverts⟩ := h
  obtain ⟨vs, hvs⟩ := Term.exists_fits_common fun t ht => ⟨ht, hconverts t ht⟩
  have hlen : ((es ++ [e]).map Expr.place).length = (us ++ [u]).length := by
    simp [hus.length_eq]
  have hexpr : expr env (some type) (.op place .coalesce (es ++ [e])) =
      .ok (.apply .coalesce vs (Term.common (some type) (us ++ [u]))) := by
    rw [expr_coalesce, bind_eq_ok_iff]
    refine ⟨_, operands_coalesce_eq_ok_iff.mpr ⟨us, u, hus, hu, rfl⟩, bind_eq_ok_iff.mpr ?_⟩
    exact ⟨vs, (Term.fitAll_eq_ok_iff hlen).mpr hvs, rfl⟩
  have hcommon : Term.common (some type) (us ++ [u]) = type ∨ type = .any := by
    by_cases hany : type = .any
    · exact .inr hany
    · exact .inl (Term.common_some hany _)
  have hfit : (Term.apply .coalesce vs (Term.common (some type) (us ++ [u]))).type.converts type =
      true := by
    change (Term.common (some type) (us ++ [u])).converts type = true
    rcases hcommon with hsame | hany
    · rw [hsame, ValueType.converts_self]
    · rw [hany, ValueType.converts_any]
  obtain ⟨t, ht⟩ := Term.exists_fits hfit
  refine ⟨t, compiles_iff.mpr ⟨_, hexpr, ht⟩, fun item c => ?_⟩
  have houtcomes : (us ++ [u]).map (Term.outcomeAt type item c) = vs.map (Term.eval item c) := by
    rw [← forall₂_eq_eq_eq, forall₂_map_left_iff, forall₂_map_right_iff]
    refine ((forall₂_and_left _ _).mpr ⟨fun t ht => ht, hvs⟩).imp fun t v h => ?_
    rw [h.2.eval_eq, Term.outcomeAt_common h.1]
  have heval : t.eval item c =
      Term.eval item c (.apply .coalesce vs (Term.common (some type) (us ++ [u]))) :=
    (ht.eval_eq item c).trans (if_pos hcommon)
  rw [heval, Term.eval, Term.evalAll_eq_map, houtcomes]
  rfl

/-- An operand before the last one may be left out, and those before it may be ended by another one. -/
theorem Offers.cut {before later : List Expr} {e' : Expr} {u : Term}
    (h : Offers env type (before ++ e' :: later) e us u) :
    ∃ xs x ys, us = xs ++ x :: ys ∧ operand env (.nullable (some type)) e' = .ok x ∧
      x.type.converts type = true ∧ Offers env type (before ++ later) e (xs ++ ys) u ∧
      ∀ last v, operand env (.offer (some type)) last = .ok v → v.type.converts type = true →
        Offers env type before last xs v := by
  obtain ⟨hus, hu, hconverts⟩ := h
  obtain ⟨xs, rest, hxs, hrest, rfl⟩ := forall₂_append_left_iff.mp hus
  obtain ⟨x, ys, hx, hys, rfl⟩ := forall₂_cons_left_iff.mp hrest
  have hfewer := ((sublist_cons_self x ys).append_left xs).append_right [u]
  refine ⟨xs, x, ys, rfl, hx, hconverts x (by simp), ⟨?_, hu, ?_⟩, fun last v hlast hv => ?_⟩
  · exact forall₂_append_left_iff.mpr ⟨xs, ys, hxs, hys, rfl⟩
  · exact fun t ht => hconverts t (hfewer.subset ht)
  · refine ⟨hxs, hlast, fun t ht => ?_⟩
    rcases mem_append.mp ht with ht | ht
    · exact hconverts t (by simp [ht])
    · rwa [mem_singleton.mp ht]

theorem Compiles.unique {t' : Term} (h : Compiles env type e t) (h' : Compiles env type e t') :
    t = t' := Except.ok.inj ((h .root).symm.trans (h' .root))

/-- A nullable read of what is not there is null, whatever its default. -/
theorem eval_read_null (hb : b.absolute? item = some path)
    (hc : c.lookup? path = none ∨ c.lookup? path = some .null) (want : ValueType) :
    Term.eval item c (.read b want .null) = .ok .null := by
  rw [Term.eval, Term.readBinding, hb]
  rcases hc with hc | hc <;> simp only [hc] <;> rfl

theorem get_nullable (hscope : b.scope ≠ .size) (h : get env (some type) true place b d = .ok t) :
    ∃ want, t = .read b want .null ∧ (want = type ∧ (d = none ∨ type = .color) ∨
      ∃ l, d = some l ∧ want = l.type ∧ ¬(type = .color ∧ l.type = .string)) := by
  rw [get, if_neg hscope] at h
  obtain ⟨d', hd', h⟩ := exists_of_bind_eq_ok h
  cases d with
  | none =>
    obtain rfl := Except.ok.inj hd'
    exact ⟨type, (Except.ok.inj h).symm, .inl ⟨rfl, .inl rfl⟩⟩
  | some l =>
    by_cases hcolor : type = .color ∧ l.type = .string
    · obtain ⟨rfl, hl⟩ := hcolor
      obtain ⟨s, rfl⟩ : ∃ s, l = .string s := by
        cases l with
        | string s => exact ⟨s, rfl⟩
        | _ => cases hl
      rw [default?, if_pos rfl] at hd'
      split at hd'
      · obtain rfl := Except.ok.inj hd'
        exact ⟨.color, (Except.ok.inj h).symm, .inl ⟨rfl, .inr rfl⟩⟩
      · cases hd'
    · have hkept : default? env (some type) place (some l) = .ok (some l) := by
        cases l with
        | string s =>
          have htype : ¬ some type = some ValueType.color := fun h =>
            hcolor ⟨Option.some.inj h, rfl⟩
          rw [default?, if_neg htype]
        | _ => rfl
      obtain rfl := Except.ok.inj (hkept.symm.trans hd')
      exact ⟨l.type, (Except.ok.inj h).symm, .inr ⟨l, rfl, rfl, hcolor⟩⟩

/-- A nullable operand that finds nothing is null where a type is expected. When it is brought to text
from the type of its default, it is the empty text. -/
theorem outcomeAt_get_missing (hb : b.absolute? item = some path)
    (hc : c.lookup? path = none ∨ c.lookup? path = some .null)
    (h : get env (some type) true place b d = .ok t) (hconv : t.type.converts type = true) :
    (¬(type = .string ∧ ∃ l, d = some l ∧ l.type ≠ .string) →
      t.outcomeAt type item c = .ok .null) ∧
    ((type = .string ∧ ∃ l, d = some l ∧ l.type ≠ .string) →
      t.outcomeAt type item c = .ok (.string "")) := by
  have hscope : b.scope ≠ .size := by
    intro hsize
    rw [Binding.absolute?, hsize] at hb
    cases hb
  obtain ⟨want, rfl, hwant⟩ := get_nullable hscope h
  have hnull := eval_read_null hb hc want
  constructor
  · intro hplain
    have hwanted : want = type ∨ type = .any := by
      rcases hwant with ⟨rfl, -⟩ | ⟨l, rfl, rfl, hcolor⟩
      · exact .inl rfl
      · exact ValueType.eq_of_literal_converts hconv hcolor fun hstring =>
          hplain ⟨hstring.1, l, rfl, hstring.2⟩
    exact (if_pos hwanted).trans hnull
  · rintro ⟨rfl, l, rfl, hl⟩
    have hne : want ≠ .string := by
      rcases hwant with ⟨-, hnone⟩ | ⟨l', hd, rfl, -⟩
      · simp at hnone
      · rwa [← Option.some.inj hd]
    have hcoerced : ¬(want = .string ∨ ValueType.string = .any) := by simpa using hne
    refine (if_neg hcoerced).trans ?_
    rw [hnull]
    rfl

/-- An operand that finds nothing is skipped by `coalesce`, whatever the expected type, unless text is
expected and the operand has a default that is no text. Then it is the empty text that the operands
before it give way to, and no operand after it is looked at. -/
theorem coalesce_skips {place here q : Location} {before after : List Expr} {b : Binding}
    {d : Option Literal} {item : List Segment} {path : DataPath} {c : Context}
    (h : property env type place
      (.expression (.op here .coalesce (before ++ .get q b d :: after))) = .ok t)
    (hafter : after ≠ []) (hb : b.absolute? item = some path)
    (hc : c.lookup? path = none ∨ c.lookup? path = some .null) :
    (¬(type = .string ∧ ∃ l, d = some l ∧ l.type ≠ .string) →
      ∃ u, Compiles env type (.op here .coalesce (before ++ after)) u ∧
        t.eval item c = u.eval item c) ∧
    ((type = .string ∧ ∃ l, d = some l ∧ l.type ≠ .string) →
      ∃ u, Compiles env type (.op here .coalesce (before ++ [.literal q (.string "")])) u ∧
        t.eval item c = u.eval item c) := by
  -- the last operand is elaborated in a mode of its own, so it is kept apart from the others
  obtain ⟨later, last, rfl⟩ : ∃ later last, after = later ++ [last] :=
    ⟨_, _, (dropLast_append_getLast hafter).symm⟩
  rw [← cons_append, ← append_assoc] at h
  obtain ⟨us, u, hoffers⟩ := exists_offers (property_eq_ok_iff.mp h)
  obtain ⟨t', ht', heval⟩ := hoffers.compiles here
  obtain rfl := ht'.unique (property_eq_ok_iff.mp h)
  obtain ⟨xs, x, ys, rfl, hx, hconv, hreduced, hended⟩ := hoffers.cut
  obtain ⟨hnull, hempty⟩ := outcomeAt_get_missing hb hc hx hconv
  simp only [append_assoc, cons_append, map_append, map_cons] at heval
  constructor
  · intro hplain
    obtain ⟨v, hv, hveval⟩ := hreduced.compiles here
    refine ⟨v, by rwa [← append_assoc], ?_⟩
    rw [heval, hveval, hnull hplain, Operator.firstPresent_append_null _ _ (by simp),
      map_append, map_append, append_assoc]
    rfl
  · rintro ⟨rfl, hdefault⟩
    have hliteral := hended (.literal q (.string "")) (.literal (.string "")) rfl rfl
    obtain ⟨v, hv, hveval⟩ := hliteral.compiles here
    refine ⟨v, hv, ?_⟩
    rw [heval, hveval, hempty ⟨rfl, hdefault⟩, Operator.firstPresent_append_present _ _ rfl,
      map_append]
    rfl

/-- A count that is not there hides the name after it, because its default is a number; without the
count the name is shown. -/
theorem coalesce_skips_not_count :
    let env : Env := ⟨.builtin, .html, ⟨110, 110⟩⟩
    let c : Context := ⟨.object [("name", .string "Ada")], []⟩
    let count : Expr := .get .root ⟨.item, [.key "count"]⟩ (some (.number 0))
    let name : Expr := .get .root ⟨.item, [.key "name"]⟩ none
    ∃ t u, property env .string .root (.expression (.op .root .coalesce [count, name])) = .ok t ∧
      property env .string .root (.expression (.op .root .coalesce [name])) = .ok u ∧
      c.lookup? ⟨.data, [.key "count"]⟩ = none ∧
      t.eval [] c = .ok (.string "") ∧ u.eval [] c = .ok (.string "Ada") := by
  intro env c count name
  have ht : property env .string .root (.expression (.op .root .coalesce ([] ++ count :: [name]))) =
      .ok (.apply .coalesce [.coerce (.read ⟨.item, [.key "count"]⟩ .number .null) .string,
        .read ⟨.item, [.key "name"]⟩ .string .zero] .string) := rfl
  have hu : property env .string .root (.expression (.op .root .coalesce [name])) =
      .ok (.apply .coalesce [.read ⟨.item, [.key "name"]⟩ .string .zero] .string) := rfl
  have hempty : property env .string .root
      (.expression (.op .root .coalesce [.literal .root (.string "")])) =
        .ok (.apply .coalesce [.literal (.string "")] .string) := rfl
  have hlookup : c.lookup? ⟨.data, [.key "count"]⟩ = none := by decide +kernel
  have hpath : Binding.absolute? [] ⟨.item, [.key "count"]⟩ = some ⟨.data, [.key "count"]⟩ := rfl
  obtain ⟨v, hv, heval⟩ := (coalesce_skips ht (by simp) hpath (.inl hlookup)).2
    ⟨rfl, _, rfl, by decide⟩
  obtain rfl := hv.unique (property_eq_ok_iff.mp hempty)
  exact ⟨_, _, ht, hu, hlookup, heval, by decide +kernel⟩

end Elaboration

end Widgetry
