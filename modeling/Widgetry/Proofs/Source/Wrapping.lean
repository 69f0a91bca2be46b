import Mathlib.Data.List.Basic
import Widgetry.Source.Code

/-!
# Text in parentheses

Code whose parentheses are nested and closed, and whose string literals are closed, is given by a
grammar. On such code one pass finds out whether the first parenthesis is closed by the last
character, so code is put in parentheses at most once.
-/

namespace Widgetry.Source

open List

/-- What stands in a string literal: a backslash takes the next character along. -/
inductive LiteralBody : List Char → Prop where
  | nil : LiteralBody []
  | plain {c : Char} {cs : List Char} (hquote : c ≠ '"') (hslash : c ≠ '\\') (h : LiteralBody cs) :
      LiteralBody (c :: cs)
  | escape (c : Char) {cs : List Char} : LiteralBody cs → LiteralBody ('\\' :: c :: cs)

/-- Code whose parentheses outside of string literals are nested and closed, and whose literals are
closed. -/
inductive WellNested : List Char → Prop where
  | nil : WellNested []
  | plain {c : Char} {cs : List Char} (hopen : c ≠ '(') (hclose : c ≠ ')') (hquote : c ≠ '"')
      (h : WellNested cs) : WellNested (c :: cs)
  | literal {body cs : List Char} (hbody : LiteralBody body) (h : WellNested cs) :
      WellNested ('"' :: body ++ '"' :: cs)
  | parens {inner cs : List Char} (hinner : WellNested inner) (h : WellNested cs) :
      WellNested ('(' :: inner ++ ')' :: cs)

/-- The first character opens a parenthesis and the one at a position closes it. -/
def ClosedAt (cs : List Char) (i : Nat) : Prop :=
  ∃ inner rest, WellNested inner ∧ cs = '(' :: inner ++ ')' :: rest ∧ i = inner.length + 1

/-- One pair of parentheses encloses the code: its last character closes the first one. -/
def Enclosed (cs : List Char) : Prop := cs.head? = some '(' ∧ ClosedAt cs (cs.length - 1)

variable {cs inner body : List Char} {s : String}

theorem closesAtEnd_literalBody (h : LiteralBody body) (depth : Nat) (rest : List Char) :
    closesAtEnd .inside depth (body ++ '"' :: rest) = closesAtEnd .outside depth rest := by
  induction h with
  | nil => simp [closesAtEnd]
  | plain hquote hslash _ ih => simp [closesAtEnd, hquote, hslash, ih]
  | escape c _ ih => simp [closesAtEnd, ih]

/-- Well nested code within a parenthesis is passed over. -/
theorem closesAtEnd_nested (h : WellNested cs) (depth : Nat) (rest : List Char) :
    closesAtEnd .outside (depth + 1) (cs ++ rest) = closesAtEnd .outside (depth + 1) rest := by
  induction h generalizing depth rest with
  | nil => rfl
  | plain hopen hclose hquote _ ih => simp [closesAtEnd, hopen, hclose, hquote, ih]
  | literal hbody _ ih => simp [closesAtEnd, closesAtEnd_literalBody hbody, ih]
  | parens _ _ hinner hrest => simp [closesAtEnd, hinner, hrest]

theorem closesAtEnd_parens (h : WellNested inner) (rest : List Char) :
    closesAtEnd .outside 0 ('(' :: inner ++ ')' :: rest) = rest.isEmpty := by
  have hopen : closesAtEnd .outside 0 ('(' :: inner ++ ')' :: rest) =
      closesAtEnd .outside (0 + 1) (inner ++ ')' :: rest) := by simp [closesAtEnd]
  rw [hopen, closesAtEnd_nested h]
  cases rest <;> simp [closesAtEnd]

theorem WellNested.ne_append_close {mid : List Char} (hcs : WellNested cs) (h : WellNested inner) :
    inner ≠ cs ++ ')' :: mid := by
  rintro rfl
  have hlast := closesAtEnd_parens h []
  have hearly := closesAtEnd_parens hcs (mid ++ [')'])
  simp only [append_assoc, cons_append] at hlast hearly
  simp [hearly] at hlast

theorem ClosedAt.unique {i j : Nat} (hi : ClosedAt cs i) (hj : ClosedAt cs j) : i = j := by
  obtain ⟨inner, rest, hinner, rfl, rfl⟩ := hi
  obtain ⟨inner', rest', hinner', hcs, rfl⟩ := hj
  rw [cons_append, cons_append, cons.injEq, append_eq_append_iff] at hcs
  obtain ⟨-, ⟨_ | ⟨c, mid⟩, hsame, hrest⟩ | ⟨_ | ⟨c, mid⟩, hsame, hrest⟩⟩ := hcs
  · rw [hsame, append_nil]
  · obtain ⟨rfl, -⟩ := List.cons.inj hrest
    exact absurd hsame (hinner.ne_append_close hinner')
  · rw [hsame, append_nil]
  · obtain ⟨rfl, -⟩ := List.cons.inj hrest
    exact absurd hsame (hinner'.ne_append_close hinner)

theorem exists_closedAt (hcs : WellNested cs) (h : cs.head? = some '(') : ∃ i, ClosedAt cs i := by
  cases hcs with
  | nil => cases h
  | plain hopen => exact absurd (Option.some.inj h) hopen
  | literal => cases h
  | parens hinner => exact ⟨_, _, _, hinner, rfl, rfl⟩

theorem fullyWrapped_of_parens {rest : List Char} (hinner : WellNested inner)
    (h : s.toList = '(' :: inner ++ ')' :: rest) : fullyWrapped s = rest.isEmpty := by
  have hclosed := closesAtEnd_parens hinner rest
  rw [← h] at hclosed
  rw [fullyWrapped, hclosed, h]
  cases rest with
  | nil =>
    rw [getLast?_concat]
    simp
  | cons => simp

theorem fullyWrapped_iff (hs : WellNested s.toList) :
    fullyWrapped s = true ↔ Enclosed s.toList := by
  constructor
  · intro h
    have hopen : s.toList.head? = some '(' := by
      simp only [fullyWrapped, Bool.and_eq_true, beq_iff_eq] at h
      exact h.1.1
    obtain ⟨i, inner, rest, hinner, hcs, rfl⟩ := exists_closedAt hs hopen
    rw [fullyWrapped_of_parens hinner hcs, List.isEmpty_iff] at h
    subst h
    exact ⟨hopen, inner, [], hinner, hcs, by simp [hcs]⟩
  · rintro ⟨-, inner, rest, hinner, hcs, hlast⟩
    rw [fullyWrapped_of_parens hinner hcs, List.isEmpty_iff, ← length_eq_zero_iff]
    simp only [hcs, length_append, length_cons] at hlast
    omega

theorem fullyWrapped_parens (hs : WellNested s.toList) : fullyWrapped ("(" ++ s ++ ")") = true := by
  have hparens : ("(" ++ s ++ ")").toList = '(' :: s.toList ++ [')'] := by simp
  rw [fullyWrapped_of_parens hs hparens, List.isEmpty_nil]

theorem parens_ne_self (s : String) : "(" ++ s ++ ")" ≠ s := by
  intro h
  have hlength := congrArg String.length h
  rw [String.length_append, String.length_append] at hlength
  have hone : "(".length = 1 := rfl
  omega

theorem group_of_single (h : (Decimal.parse? s).isSome = true ∨ fullyWrapped s = true) :
    group s = s := if_pos (Bool.or_eq_true_iff.mpr h)

theorem group_of_not_single (h : ¬((Decimal.parse? s).isSome = true ∨ fullyWrapped s = true)) :
    group s = "(" ++ s ++ ")" := if_neg (mt Bool.or_eq_true_iff.mp h)

/-- Code is put in parentheses unless it is a number or one pair of parentheses encloses it; a
single pass decides the latter, and nothing is put in parentheses twice. -/
theorem group_wraps_once (s : String) (hs : WellNested s.toList) :
    (s.toList.head? = some '(' → ∃! i, ClosedAt s.toList i) ∧
    (fullyWrapped s = true ↔ Enclosed s.toList) ∧
    (group s = s ↔ (Decimal.parse? s).isSome = true ∨ Enclosed s.toList) ∧
    (group s ≠ s → group s = "(" ++ s ++ ")") ∧
    group (group s) = group s := by
  have hmatch : s.toList.head? = some '(' → ∃! i, ClosedAt s.toList i := by
    intro hopen
    obtain ⟨i, hi⟩ := exists_closedAt hs hopen
    exact ⟨i, hi, fun j hj => hj.unique hi⟩
  refine ⟨hmatch, fullyWrapped_iff hs, ?_⟩
  rw [← fullyWrapped_iff hs]
  by_cases hsingle : (Decimal.parse? s).isSome = true ∨ fullyWrapped s = true
  · have hself := group_of_single hsingle
    exact ⟨iff_of_true hself hsingle, fun hne => absurd hself hne, by rw [hself, hself]⟩
  · have hparens := group_of_not_single hsingle
    rw [hparens, group_of_single (.inr (fullyWrapped_parens hs))]
    exact ⟨iff_of_false (parens_ne_self s) hsingle, fun _ => rfl, rfl⟩

theorem group_wraps_once_sum :
    WellNested "(\"a\\\\\") + (b)".toList ∧ fullyWrapped "(\"a\\\\\") + (b)" = false ∧
      group (group "(\"a\\\\\") + (b)") = group "(\"a\\\\\") + (b)" := by
  have hliteral : WellNested ('"' :: ['a', '\\', '\\'] ++ ['"']) :=
    .literal (.plain (by decide) (by decide) (.escape '\\' .nil)) .nil
  have hlast : WellNested ('(' :: ['b'] ++ [')']) :=
    .parens (.plain (by decide) (by decide) (by decide) .nil) .nil
  have hplus : WellNested (' ' :: '+' :: ' ' :: ('(' :: ['b'] ++ [')'])) := by
    repeat apply WellNested.plain (by decide) (by decide) (by decide)
    exact hlast
  have hsum : WellNested "(\"a\\\\\") + (b)".toList := .parens hliteral hplus
  exact ⟨hsum, by decide, (group_wraps_once _ hsum).2.2.2.2⟩

end Widgetry.Source
