import Widgetry.Binding.Basic
import Widgetry.Proofs.Alignment
import Widgetry.Proofs.Text

/-!
# Bindings as text

The bindings that the grammar yields are those whose segments are identifiers and indices within 64
bits, with exactly one key below the settings. Each of them is read back from the text it is written
as, though it may be written in other ways too.
-/

namespace Widgetry

open List

variable {cs : List Char}

namespace Segment

/-- A segment that can be written: an identifier, or an index within 64 bits. -/
def IsSpelled : Segment → Prop
  | .key name => Text.isIdentifier name = true
  | .index i => i < UInt64.size

/-- The texts of a segment: an identifier, or a run of digits whose value is within 64 bits. -/
inductive Spells : List Char → Segment → Prop
  | key {cs : List Char} (h : Text.isIdentifierList cs = true) : Spells cs (.key (String.ofList cs))
  | index {cs : List Char} (hne : cs ≠ []) (hdigits : ∀ c ∈ cs, c.isDigit = true)
      (hsize : Nat.ofDigitChars 10 cs 0 < UInt64.size) :
      Spells cs (.index (Nat.ofDigitChars 10 cs 0))

/-- Digits without the zeros in front, of which the last one stays if nothing else does. -/
def significant : List Char → List Char
  | '0' :: c :: cs => significant (c :: cs)
  | cs => cs

variable {s : Segment}

theorem isDigit_eq_false_of_isIdentifierList {c : Char} (h : Text.isIdentifierList (c :: cs) = true) :
    c.isDigit = false := by
  rcases Bool.or_eq_true_iff.mp (Bool.and_eq_true_iff.mp h).1 with hletter | hunderscore
  · have hcode : (decide (c.val ≥ 'A'.val ∧ c.val ≤ 'Z'.val) ||
        (decide (c.val ≥ 'a'.val) && decide (c.val ≤ 'z'.val))) = true := hletter
    simp only [Char.isDigit]
    grind
  · rw [beq_iff_eq.mp hunderscore]
    decide

/-- An identifier starts with no digit, so it is not taken for an index. -/
theorem segment?_eq_some_iff : Binding.segment? cs = some s ↔ Spells cs s := by
  constructor
  · intro h
    simp only [Binding.segment?] at h
    split at h
    · rename_i hdigits
      simp only [Bool.and_eq_true, Bool.not_eq_true', isEmpty_eq_false_iff,
        all_eq_true] at hdigits
      split at h
      · rename_i hsize
        cases h
        exact .index hdigits.1 hdigits.2 hsize
      · cases h
    · split at h
      · rename_i hname
        cases h
        exact .key hname
      · cases h
  · intro h
    cases h with
    | key h =>
      cases cs with
      | nil => cases h
      | cons c cs => simp [Binding.segment?, isDigit_eq_false_of_isIdentifierList h, h]
    | index hne hdigits hsize =>
      have hrun : (!cs.isEmpty && cs.all Char.isDigit) = true := by simpa [hne] using hdigits
      rw [Binding.segment?, if_pos hrun]
      exact if_pos hsize

theorem Spells.isSpelled (h : Spells cs s) : s.IsSpelled := by
  cases h with
  | key h => rwa [IsSpelled, Text.isIdentifier, String.toList_ofList]
  | index _ _ hsize => exact hsize

theorem Spells.dot_notMem (h : Spells cs s) : '.' ∉ cs := by
  intro hdot
  cases h with
  | key h => exact absurd (Text.isWord_of_isIdentifierList h hdot) (by decide)
  | index _ hdigits _ => exact absurd (hdigits _ hdot) (by decide)

theorem toList_render_index (i : Nat) : (Segment.index i).render.toList = Nat.toDigits 10 i := by
  rw [render, Nat.toString_eq_repr, Nat.toList_repr]

theorem spells_render (h : s.IsSpelled) : Spells s.render.toList s := by
  cases s with
  | key name =>
    have hspells := Spells.key h
    rwa [String.ofList_toList] at hspells
  | index i =>
    have hvalue : Nat.ofDigitChars 10 (Nat.toDigits 10 i) 0 = i :=
      Nat.ofDigitChars_toDigits (by decide) (by decide)
    have hspells := Spells.index Nat.toDigits_ne_nil
      (fun c hc => Nat.isDigit_of_mem_toDigits (n := i) (by decide) (by decide) hc) (hvalue.symm ▸ h)
    rwa [hvalue, ← toList_render_index] at hspells

theorem digit_of_isDigit {c : Char} (h : c.isDigit = true) :
    c.toNat - '0'.toNat < 10 ∧ Nat.digitChar (c.toNat - '0'.toNat) = c := by
  have hcode : 48 ≤ c.toNat ∧ c.toNat ≤ 57 := Char.isDigit_iff_toNat.mp h
  have hlt : c.toNat - '0'.toNat < 10 := show c.toNat - 48 < 10 by omega
  refine ⟨hlt, Char.toNat_inj.mp ?_⟩
  rw [Nat.toNat_digitChar_of_lt_ten hlt]
  exact Nat.add_sub_of_le hcode.1

/-- Digits that go on with a positive number are its last digits. -/
theorem toDigits_ofDigitChars {n : Nat} (hn : 0 < n) (h : ∀ c ∈ cs, c.isDigit = true) :
    Nat.toDigits 10 (Nat.ofDigitChars 10 cs n) = Nat.toDigits 10 n ++ cs := by
  induction cs generalizing n with
  | nil => rw [append_nil]; rfl
  | cons c cs ih =>
    obtain ⟨hc, hcs⟩ := forall_mem_cons.mp h
    obtain ⟨hlt, hdigit⟩ := digit_of_isDigit hc
    rw [Nat.ofDigitChars_cons, ih (by omega) hcs, ← Nat.toDigits_append_toDigits (by decide) hn hlt,
      Nat.toDigits_of_lt_base hlt, hdigit, append_assoc, singleton_append]

/-- A segment is displayed as it was written, less the zeros in front of an index. -/
theorem Spells.toList_render (h : Spells cs s) : s.render.toList = significant cs := by
  cases h with
  | key h =>
    rw [render, String.toList_ofList]
    fun_cases significant cs with
    | case1 => exact absurd h (by simp [Text.isIdentifierList, Text.isAsciiLetter])
    | case2 => rfl
  | index hne hdigits hsize =>
    rw [toList_render_index]
    clear hsize
    fun_induction significant cs with
    | case1 c cs ih =>
      exact ih (cons_ne_nil _ _) fun d hd => hdigits d (mem_cons_of_mem _ hd)
    | case2 cs hone =>
      obtain ⟨c, cs, rfl⟩ := exists_cons_of_ne_nil hne
      obtain ⟨hc, hcs⟩ := forall_mem_cons.mp hdigits
      obtain ⟨hlt, hdigit⟩ := digit_of_isDigit hc
      rw [Nat.ofDigitChars_cons, Nat.mul_zero, Nat.zero_add]
      rcases Nat.eq_zero_or_pos (c.toNat - '0'.toNat) with hzero | hpos
      · rw [hzero] at hdigit
        subst hdigit
        cases cs with
        | nil => rfl
        | cons d cs => exact absurd rfl (hone d cs)
      · rw [toDigits_ofDigitChars hpos hcs, Nat.toDigits_of_lt_base hlt, hdigit, singleton_append]

end Segment

namespace Binding

/-- A binding that can be written. -/
structure IsSpelled (b : Binding) : Prop where
  nonempty : b.segments ≠ []
  segments : ∀ s ∈ b.segments, s.IsSpelled
  setting : b.scope = .settings → ∃ key, b.segments = [.key key]

/-- Pieces with a dot in front of each. -/
def dotted (pieces : List (List Char)) : List Char := pieces.flatMap ('.' :: ·)

/-- A text is a scope that can be written alone with one or more segments behind it. -/
structure Spells (pieces : List (List Char)) (s : String) (b : Binding) : Prop where
  scope : b.scope ≠ .settings
  nonempty : pieces ≠ []
  segments : Forall₂ Segment.Spells pieces b.segments
  text : s.toList = (scopeText b.scope).toList ++ dotted pieces

variable {s key : String} {segments : List Segment} {b : Binding} {pieces : List (List Char)}

theorem mapM_segment?_eq_some_iff :
    pieces.mapM segment? = some segments ↔ Forall₂ Segment.Spells pieces segments := by
  induction pieces generalizing segments with
  | nil => simp [eq_comm]
  | cons piece pieces ih =>
    simp [mapM_cons, Option.bind_eq_some_iff, forall₂_cons_left_iff, ih,
      Segment.segment?_eq_some_iff, @eq_comm _ segments]

theorem scope?_eq_some_iff {scope : Scope} :
    scope? cs = some scope ↔ scope ≠ .settings ∧ cs = (scopeText scope).toList := by
  constructor
  · intro h
    unfold scope? at h
    repeat' split at h
    all_goals cases h
    all_goals exact ⟨by decide, by assumption⟩
  · rintro ⟨hopen, rfl⟩
    cases scope <;> first | rfl | exact absurd rfl hopen

theorem splitOn_dotted (hcs : '.' ∉ cs) (h : ∀ piece ∈ pieces, '.' ∉ piece) :
    Text.splitOn '.' (cs ++ dotted pieces) = cs :: pieces := by
  induction pieces generalizing cs with
  | nil => exact (congrArg _ (append_nil cs)).trans (Text.splitOn_of_notMem hcs)
  | cons piece pieces ih =>
    obtain ⟨hpiece, hpieces⟩ := forall_mem_cons.mp h
    rw [dotted, flatMap_cons, cons_append, Text.splitOn_append_cons hcs]
    exact congrArg _ (ih hpiece hpieces)

theorem eq_dotted_of_splitOn {first : List Char} (h : Text.splitOn '.' cs = first :: pieces) :
    cs = first ++ dotted pieces := by
  induction cs generalizing first pieces with
  | nil =>
    obtain ⟨rfl, rfl⟩ := List.cons.inj h
    rfl
  | cons c cs ih =>
    by_cases hc : c = '.'
    · subst hc
      rw [Text.splitOn_cons_self] at h
      obtain ⟨rfl, rfl⟩ := List.cons.inj h
      obtain ⟨piece, rest, hsplit⟩ := exists_cons_of_ne_nil (Text.splitOn_ne_nil '.' cs)
      rw [hsplit, dotted, flatMap_cons]
      exact congrArg _ (ih hsplit)
    · obtain ⟨piece, rest, hsplit, hcons⟩ := Text.exists_splitOn_cons hc cs
      rw [hcons] at h
      obtain ⟨rfl, rfl⟩ := List.cons.inj h
      exact congrArg _ (ih hsplit)

theorem parse?_eq_some_iff : parse? s = some b ↔ ∃ pieces, Spells pieces s b := by
  constructor
  · intro h
    unfold parse? ofPieces? at h
    split at h
    · rename_i first piece pieces hsplit
      obtain ⟨scope, hscope, h⟩ := Option.bind_eq_some_iff.mp h
      obtain ⟨segments, hsegments, h⟩ := Option.bind_eq_some_iff.mp h
      cases h
      obtain ⟨hopen, rfl⟩ := scope?_eq_some_iff.mp hscope
      exact ⟨_, hopen, cons_ne_nil _ _, mapM_segment?_eq_some_iff.mp hsegments,
        eq_dotted_of_splitOn hsplit⟩
    · cases h
  · rintro ⟨pieces, hscope, hne, hsegments, htext⟩
    have hdot : '.' ∉ (scopeText b.scope).toList := by
      cases hb : b.scope <;> first | decide | exact absurd hb hscope
    have hpieces : ∀ piece ∈ pieces, '.' ∉ piece := by
      intro piece hpiece
      obtain ⟨s, -, hs⟩ := exists_mem_of_forall₂ hsegments.flip hpiece
      exact hs.dot_notMem
    obtain ⟨piece, rest, rfl⟩ := exists_cons_of_ne_nil hne
    rw [parse?, htext, splitOn_dotted hdot hpieces, ofPieces?, scope?_eq_some_iff.mpr ⟨hscope, rfl⟩,
      Option.bind_eq_bind, Option.bind_some, mapM_segment?_eq_some_iff.mpr hsegments]
    rfl

theorem toList_render (b : Binding) : b.render.toList =
    (scopeText b.scope).toList ++ dotted (b.segments.map (·.render.toList)) := by
  rw [render, String.toList_append, renderSegments, dotted]
  induction b.segments with
  | nil => rfl
  | cons s segments ih =>
    rw [map_cons, String.join_cons, String.toList_append, String.toList_append]
    simpa using ih

theorem Spells.toList_render (h : Spells pieces s b) : b.render.toList =
    (scopeText b.scope).toList ++ dotted (pieces.map Segment.significant) := by
  have hpieces : Forall₂ (· = ·) (b.segments.map (·.render.toList))
      (pieces.map Segment.significant) := by
    rw [forall₂_map_left_iff, forall₂_map_right_iff]
    exact h.segments.flip.imp fun _ _ hs => hs.toList_render
  rw [forall₂_eq_eq_eq] at hpieces
  rw [Binding.toList_render, hpieces]

theorem isSpelled_of_parse? (h : parse? s = some b) : b.IsSpelled := by
  obtain ⟨pieces, hscope, hne, hsegments, -⟩ := parse?_eq_some_iff.mp h
  refine ⟨?_, fun s hs => ?_, fun hsettings => absurd hsettings hscope⟩
  · exact fun hnil => hne (forall₂_nil_right_iff.mp (hnil ▸ hsegments))
  · obtain ⟨piece, -, hpiece⟩ := exists_mem_of_forall₂ hsegments hs
    exact hpiece.isSpelled

theorem isSpelled_of_settingKey? (h : settingKey? s = some key) : (setting key).IsSpelled := by
  unfold settingKey? at h
  split at h
  · split at h
    · rename_i hname
      cases h
      exact ⟨cons_ne_nil _ _, forall_mem_singleton.mpr (Segment.Spells.key hname).isSpelled,
        fun _ => ⟨_, rfl⟩⟩
    · cases h
  · cases h

theorem isSpelled_of_parsePath? (h : parsePath? s = some b) : b.IsSpelled := by
  unfold parsePath? at h
  split at h
  · rename_i key hkey
    cases h
    exact isSpelled_of_settingKey? hkey
  · exact isSpelled_of_parse? h

/-! ### Reading back -/

theorem parse?_render (h : b.IsSpelled) (hscope : b.scope ≠ .settings) :
    parse? b.render = some b := by
  refine parse?_eq_some_iff.mpr ⟨_, hscope, ?_, ?_, toList_render b⟩
  · exact fun hnil => h.nonempty (map_eq_nil_iff.mp hnil)
  · rw [forall₂_map_left_iff, forall₂_same]
    exact fun s hs => Segment.spells_render (h.segments s hs)

theorem settingKey?_render (hscope : b.scope ≠ .settings) : settingKey? b.render = none := by
  have hdrop : Text.dropPrefix? "config.settings.".toList b.render.toList = none := by
    rw [render, String.toList_append]
    cases hb : b.scope <;> first | rfl | exact absurd hb hscope
  rw [settingKey?, hdrop]

theorem settingKey?_render_setting (h : (Segment.key key).IsSpelled) :
    settingKey? (setting key).render = some key := by
  have hrender : (setting key).render.toList = "config.settings.".toList ++ key.toList := by
    have hstem : "config.settings.".toList = "config.settings".toList ++ ['.'] := by decide
    rw [toList_render, hstem, append_assoc]
    simp [setting, dotted, Segment.render, scopeText]
  rw [settingKey?, hrender, Text.dropPrefix?_append]
  simp only [String.ofList_toList]
  exact if_pos h

theorem parsePath?_render (h : b.IsSpelled) : parsePath? b.render = some b := by
  by_cases hscope : b.scope = .settings
  · obtain ⟨scope, segments⟩ := b
    obtain ⟨key, hkey⟩ := h.setting hscope
    cases hscope
    cases hkey
    rw [parsePath?, show (⟨.settings, [.key key]⟩ : Binding) = setting key from rfl,
      settingKey?_render_setting (h.segments _ mem_cons_self)]
  · rw [parsePath?, settingKey?_render hscope]
    exact parse?_render h hscope

theorem exists_parsePath?_iff : (∃ s, parsePath? s = some b) ↔ b.IsSpelled := by
  constructor
  · rintro ⟨s, h⟩
    exact isSpelled_of_parsePath? h
  · intro h
    exact ⟨b.render, parsePath?_render h⟩

theorem isSpelled_of_parseLoose? (h : parseLoose? s = some b) : b.IsSpelled := by
  rcases Option.or_eq_some_iff.mp h with h | ⟨-, h⟩
  · exact isSpelled_of_parsePath? h
  · exact isSpelled_of_parse? h

theorem parseLoose?_render (h : b.IsSpelled) : parseLoose? b.render = some b := by
  rw [parseLoose?, parsePath?_render h, Option.some_or]

end Binding

end Widgetry
