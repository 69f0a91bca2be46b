import Mathlib.Data.List.Infix
import Widgetry.Text.Basic

/-!
# Pieces of text

What splitting text and searching in it gives.
-/

namespace Widgetry.Text

open List

/-! ### Leading parts -/

theorem dropPrefix?_append (ps cs : List Char) : dropPrefix? ps (ps ++ cs) = some cs := by
  induction ps with
  | nil => cases cs <;> rfl
  | cons c ps ih => rw [cons_append, dropPrefix?, if_pos rfl, ih]

theorem dropPrefix?_eq_some {ps cs rest : List Char} (h : dropPrefix? ps cs = some rest) :
    cs = ps ++ rest := by
  induction ps generalizing cs with
  | nil => exact Option.some.inj h
  | cons c ps ih =>
    cases cs with
    | nil => cases h
    | cons d cs =>
      rw [dropPrefix?] at h
      split at h
      · rename_i hcd
        rw [hcd, ih h, cons_append]
      · cases h

/-! ### Separators -/

theorem splitOn_ne_nil (c : Char) (cs : List Char) : splitOn c cs ≠ [] := by
  fun_cases splitOn c cs <;> simp

theorem splitOn_cons_self (c : Char) (cs : List Char) : splitOn c (c :: cs) = [] :: splitOn c cs :=
  if_pos rfl

variable {c : Char}

/-- A character that does not separate goes to the first piece. -/
theorem exists_splitOn_cons {d : Char} (hd : d ≠ c) (cs : List Char) : ∃ piece pieces,
    splitOn c cs = piece :: pieces ∧ splitOn c (d :: cs) = (d :: piece) :: pieces := by
  rcases hsplit : splitOn c cs with _ | ⟨piece, pieces⟩
  · exact absurd hsplit (splitOn_ne_nil c cs)
  · refine ⟨piece, pieces, rfl, ?_⟩
    rw [splitOn, if_neg hd, hsplit]

theorem splitOn_of_notMem {cs : List Char} (h : c ∉ cs) : splitOn c cs = [cs] := by
  induction cs with
  | nil => rfl
  | cons d cs ih =>
    rw [mem_cons, not_or] at h
    obtain ⟨piece, pieces, hsplit, hcons⟩ := exists_splitOn_cons (Ne.symm h.1) cs
    rw [ih h.2] at hsplit
    obtain ⟨rfl, rfl⟩ := List.cons.inj hsplit
    exact hcons

theorem splitOn_append (c : Char) (cs ds : List Char) :
    splitOn c (cs ++ c :: ds) = splitOn c cs ++ splitOn c ds := by
  induction cs with
  | nil => exact splitOn_cons_self c ds
  | cons d cs ih =>
    rw [cons_append]
    by_cases hd : d = c
    · subst hd
      rw [splitOn_cons_self, splitOn_cons_self, ih, cons_append]
    · obtain ⟨piece, pieces, hsplit, hcons⟩ := exists_splitOn_cons hd cs
      obtain ⟨first, rest, hwhole, hcons'⟩ := exists_splitOn_cons hd (cs ++ c :: ds)
      rw [ih, hsplit, cons_append] at hwhole
      obtain ⟨rfl, rfl⟩ := List.cons.inj hwhole
      rw [hcons, hcons', cons_append]

theorem splitOn_append_cons {cs : List Char} (h : c ∉ cs) (ds : List Char) :
    splitOn c (cs ++ c :: ds) = cs :: splitOn c ds := by
  rw [splitOn_append, splitOn_of_notMem h, singleton_append]

theorem notMem_of_mem_splitOn {cs piece : List Char} (h : piece ∈ splitOn c cs) : c ∉ piece := by
  induction cs generalizing piece with
  | nil =>
    rw [mem_singleton.mp h]
    exact not_mem_nil
  | cons d cs ih =>
    by_cases hd : d = c
    · subst hd
      rw [splitOn_cons_self] at h
      rcases mem_cons.mp h with rfl | h
      · exact not_mem_nil
      · exact ih h
    · obtain ⟨first, pieces, hsplit, hcons⟩ := exists_splitOn_cons hd cs
      rw [hsplit] at ih
      rw [hcons] at h
      rcases mem_cons.mp h with rfl | h
      · have hfirst := ih mem_cons_self
        simp [hfirst, Ne.symm hd]
      · exact ih (mem_cons_of_mem first h)

theorem exists_mem_splitOn (separator : Char) {cs : List Char} (hc : c ≠ separator) (h : c ∈ cs) :
    ∃ piece ∈ splitOn separator cs, c ∈ piece := by
  induction cs with
  | nil => cases h
  | cons d cs ih =>
    by_cases hd : d = separator
    · subst hd
      rw [splitOn_cons_self]
      obtain ⟨piece, hpiece, hmem⟩ := ih ((mem_cons.mp h).resolve_left hc)
      exact ⟨piece, mem_cons_of_mem _ hpiece, hmem⟩
    · obtain ⟨piece, pieces, hsplit, hcons⟩ := exists_splitOn_cons hd cs
      rw [hsplit] at ih
      rw [hcons]
      rcases mem_cons.mp h with rfl | h
      · exact ⟨c :: piece, mem_cons_self, mem_cons_self⟩
      · obtain ⟨found, hfound, hmem⟩ := ih h
        rcases mem_cons.mp hfound with rfl | hfound
        · exact ⟨d :: found, mem_cons_self, mem_cons_of_mem d hmem⟩
        · exact ⟨found, mem_cons_of_mem _ hfound, hmem⟩

/-- Pieces that are joined by a separator that none of them has are found again. -/
theorem splitOn_joinWith {ls : List String} (hne : ls ≠ []) (h : ∀ l ∈ ls, c ∉ l.toList) :
    (splitOn c (joinWith (String.singleton c) ls).toList).map String.ofList = ls := by
  unfold joinWith
  induction ls with
  | nil => exact absurd rfl hne
  | cons l ls ih =>
    obtain ⟨hl, hls⟩ := forall_mem_cons.mp h
    cases ls with
    | nil => rw [String.intercalate_singleton, splitOn_of_notMem hl, map_singleton, String.ofList_toList]
    | cons l' ls =>
      rw [String.intercalate_cons_cons, String.toList_append, String.toList_append,
        String.toList_singleton, append_assoc, singleton_append, splitOn_append_cons hl,
        map_cons, ih (cons_ne_nil _ _) hls, String.ofList_toList]

/-! ### Identifiers -/

theorem isWord_of_isIdentifierList {cs : List Char} (h : isIdentifierList cs = true) (hc : c ∈ cs) :
    (c.isAlphanum || c == '_') = true := by
  cases cs with
  | nil => cases hc
  | cons d cs =>
    obtain ⟨hfirst, hothers⟩ := Bool.and_eq_true_iff.mp h
    rcases mem_cons.mp hc with rfl | hc
    · rcases Bool.or_eq_true_iff.mp hfirst with hletter | hunderscore
      · simp [Char.isAlphanum, show c.isAlpha = true from hletter]
      · simp [hunderscore]
    · exact all_eq_true.mp hothers c hc

/-! ### Pairs of marks -/

variable {mark : Char} {cs before after : List Char}

theorem pair_infix_cons_cons_iff {a b : Char} :
    [mark, mark] <:+: a :: b :: cs ↔ (a = mark ∧ b = mark) ∨ [mark, mark] <:+: b :: cs := by
  rw [infix_cons_iff, cons_prefix_cons, cons_prefix_cons]
  simp only [and_true, nil_prefix, eq_comm]

theorem breakOnPair_eq_none_iff : breakOnPair mark cs = none ↔ ¬[mark, mark] <:+: cs := by
  fun_induction breakOnPair mark cs with
  | case1 => simp
  | case2 c => simp [infix_cons_iff]
  | case3 a b cs h => simp [pair_infix_cons_cons_iff, h]
  | case4 a b cs h ih => rw [Option.map_eq_none_iff, ih, pair_infix_cons_cons_iff, or_iff_right h]

/-- Text is cut at the first pair: the text before it makes no pair, not even with the first mark. -/
theorem eq_of_breakOnPair (h : breakOnPair mark cs = some (before, after)) :
    cs = before ++ mark :: mark :: after ∧ ¬[mark, mark] <:+: before ++ [mark] := by
  fun_induction breakOnPair mark cs generalizing before after with
  | case1 => cases h
  | case2 c => cases h
  | case3 a b cs hpair =>
    cases h
    exact ⟨by rw [hpair.1, hpair.2, nil_append], by simp [infix_cons_iff]⟩
  | case4 a b cs hpair ih =>
    obtain ⟨⟨before, _⟩, hrest, hcut⟩ := Option.map_eq_some_iff.mp h
    cases hcut
    obtain ⟨hcs, hnone⟩ := ih hrest
    refine ⟨congrArg (List.cons a) hcs, ?_⟩
    -- The text before the pair goes on with `b`, which may be the first mark.
    cases before with
    | nil =>
      cases hcs
      simp_all [pair_infix_cons_cons_iff]
    | cons d before =>
      cases hcs
      simp_all [pair_infix_cons_cons_iff]

theorem breakOnPair_append (after : List Char) (h : ¬[mark, mark] <:+: before ++ [mark]) :
    breakOnPair mark (before ++ mark :: mark :: after) = some (before, after) := by
  induction before with
  | nil => simp [breakOnPair]
  | cons c before ih =>
    cases before with
    | nil =>
      rw [cons_append, nil_append, pair_infix_cons_cons_iff, not_or] at h
      have hc : c ≠ mark := fun hc => h.1 ⟨hc, rfl⟩
      simp [breakOnPair, hc]
    | cons d before =>
      rw [cons_append, cons_append, pair_infix_cons_cons_iff, not_or] at h
      have htail := ih h.2
      rw [cons_append] at htail
      simp [breakOnPair, h.1, htail]

end Widgetry.Text
