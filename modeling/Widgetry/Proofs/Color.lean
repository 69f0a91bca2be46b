import Widgetry.Expr.Evaluation

/-!
# The text of a color

A color is written with two hexadecimal digits for each channel, the last channel only where it is
not full. Such a text is read back to its color, in either case of its letters and with white space
around it, so the text of a color is as good as the color.
-/

namespace Widgetry

open List

namespace Text

variable {c : Char} {n : Nat}

/-! ### Hexadecimal digits -/

theorem hexValue?_eq (c : Char) : hexValue? c =
    if 48 ≤ c.toNat ∧ c.toNat ≤ 57 then some (c.toNat - 48)
    else if 97 ≤ c.toNat ∧ c.toNat ≤ 102 then some (c.toNat - 87)
    else if 65 ≤ c.toNat ∧ c.toNat ≤ 70 then some (c.toNat - 55)
    else none := by
  unfold hexValue?
  simp only [Char.le_def, UInt32.le_iff_toNat_le]
  grind [Char.toNat]

theorem toNat_toUpper (c : Char) :
    c.toUpper.toNat = if 97 ≤ c.toNat ∧ c.toNat ≤ 122 then c.toNat - 32 else c.toNat := by
  have hadd := UInt32.toNat_add c.val ('A'.val - 'a'.val)
  have hback : ('A'.val - 'a'.val).toNat = 4294967264 := rfl
  unfold Char.toUpper
  simp only [UInt32.le_iff_toNat_le]
  split <;> grind [Char.toNat]

theorem hexValue?_toUpper (c : Char) : hexValue? c.toUpper = hexValue? c := by
  rw [hexValue?_eq, hexValue?_eq, toNat_toUpper]
  grind

theorem hexValue?_digitChar (hn : n < 16) : hexValue? n.digitChar = some n := by
  decide +revert

theorem hexValue?_of_toUpper (hn : n < 16) (h : c.toUpper = n.digitChar.toUpper) :
    hexValue? c = some n := by
  rw [← hexValue?_toUpper, h, hexValue?_toUpper, hexValue?_digitChar hn]

theorem toUpper_digitChar_mem (hn : n < 16) : n.digitChar.toUpper ∈ "0123456789ABCDEF".toList := by
  decide +revert

theorem isBlank_of_hexValue? (h : hexValue? c = some n) : isBlank c = false := by
  have hbounds : 48 ≤ c.toNat ∧ c.toNat ≤ 102 := by
    rw [hexValue?_eq] at h
    grind
  simp [isBlank]
  omega

theorem toList_hexUpper_two (h : n < 256) :
    (hexUpper 2 n).toList = [(n / 16).digitChar.toUpper, (n % 16).digitChar.toUpper] := by
  rw [hexUpper, String.toList_ofList]
  by_cases hn : n < 16
  · rw [Nat.toDigits_of_lt_base hn, Nat.div_eq_of_lt hn, Nat.mod_eq_of_lt hn]
    rfl
  · rw [Nat.toDigits_of_base_le (by decide) (by omega), Nat.toDigits_of_lt_base (by omega)]
    rfl

/-! ### White space -/

variable {before cs after : List Char} (hcs : ∀ c ∈ cs, isBlank c = false) (hne : cs ≠ [])
include hcs hne

theorem dropWhile_isBlank_append (rest : List Char) :
    (cs ++ rest).dropWhile isBlank = cs ++ rest := by
  cases cs with
  | nil => exact absurd rfl hne
  | cons c cs => rw [cons_append, dropWhile_cons_of_neg (by simp [hcs])]

theorem trimEnd_trimStart_append (hbefore : ∀ c ∈ before, isBlank c = true)
    (hafter : ∀ c ∈ after, isBlank c = true) :
    trimEnd (trimStart (before ++ cs ++ after)) = cs := by
  have hstart : trimStart (before ++ cs ++ after) = cs ++ after := by
    rw [trimStart, append_assoc, dropWhile_append_of_pos hbefore, dropWhile_isBlank_append hcs hne]
  have hend : (after.reverse ++ cs.reverse).dropWhile isBlank = cs.reverse := by
    rw [dropWhile_append_of_pos (by simpa using hafter), ← append_nil cs.reverse,
      dropWhile_isBlank_append (by simpa using hcs) (by simpa using hne)]
  rw [hstart, trimEnd, reverse_append, hend, reverse_reverse]

end Text

namespace Color

open Text (hexValue? isBlank)

variable {c : Color}

/-- The channels that are written: the last one only where it is not full. -/
def written (c : Color) : List UInt8 :=
  if c.a = 255 then [c.r, c.g, c.b] else [c.r, c.g, c.b, c.a]

def digits (c : Color) : List Nat := c.written.flatMap fun x => [x.toNat / 16, x.toNat % 16]

theorem lt_of_mem_digits {n : Nat} (h : n ∈ c.digits) : n < 16 := by
  obtain ⟨x, -, hn⟩ := mem_flatMap.mp h
  have hx := x.toNat_lt
  simp only [mem_cons, not_mem_nil, or_false] at hn
  omega

theorem toList_toHex (c : Color) :
    c.toHex.toList = '#' :: c.digits.map fun n => n.digitChar.toUpper := by
  have hpair (x : UInt8) := Text.toList_hexUpper_two x.toNat_lt
  unfold toHex digits written
  split <;> simp [hpair]

theorem ofDigits_digits (c : Color) : ofDigits c.digits = some c := by
  have hwhole (x : UInt8) : UInt8.ofNat (16 * (x.toNat / 16) + x.toNat % 16) = x := by
    rw [Nat.div_add_mod, UInt8.ofNat_toNat]
  unfold digits written
  split
  · rename_i ha
    simp [ofDigits, hwhole, ← ha]
  · simp [ofDigits, hwhole]

/-- Digits in either case of their letters are read to their values. -/
theorem mapM_hexValue? {cs : List Char} {ns : List Nat} (hns : ∀ n ∈ ns, n < 16)
    (h : cs.map Char.toUpper = ns.map fun n => n.digitChar.toUpper) :
    cs.mapM hexValue? = some ns ∧ ∀ c ∈ cs, isBlank c = false := by
  induction ns generalizing cs with
  | nil =>
    obtain rfl := map_eq_nil_iff.mp h
    exact ⟨rfl, forall_mem_nil _⟩
  | cons n ns ih =>
    obtain ⟨c, cs, rfl, hc, hcs⟩ := map_eq_cons_iff.mp h
    obtain ⟨hn, hns⟩ := forall_mem_cons.mp hns
    obtain ⟨hvalues, hsolid⟩ := ih hns hcs
    have hvalue := Text.hexValue?_of_toUpper hn hc
    refine ⟨?_, forall_mem_cons.mpr ⟨Text.isBlank_of_hexValue? hvalue, hsolid⟩⟩
    rw [mapM_cons, hvalue, hvalues]
    rfl

theorem parse?_spelled {before spelled after : List Char} (hbefore : ∀ x ∈ before, isBlank x = true)
    (hafter : ∀ x ∈ after, isBlank x = true) (h : spelled.map Char.toUpper = c.toHex.toList) :
    parse? (String.ofList (before ++ spelled ++ after)) = some c := by
  rw [toList_toHex] at h
  obtain ⟨mark, cs, rfl, hmark, hcs⟩ := map_eq_cons_iff.mp h
  obtain ⟨hvalues, hsolid⟩ := mapM_hexValue? (fun _ => lt_of_mem_digits) hcs
  -- No letter has the number sign as its capital.
  obtain rfl : mark = '#' := by
    have hsign := Text.toNat_toUpper mark
    rw [hmark, show '#'.toNat = 35 from rfl] at hsign
    apply Char.toNat_inj.mp
    grind
  rw [parse?, String.toList_ofList, Text.trimEnd_trimStart_append
    (forall_mem_cons.mpr ⟨rfl, hsolid⟩) (cons_ne_nil _ _) hbefore hafter]
  simp only [hvalues, Option.bind_some, ofDigits_digits]

theorem parse?_toHex (c : Color) : parse? c.toHex = some c := by
  have hcapital : ∀ x ∈ "0123456789ABCDEF".toList, x.toUpper = x := by simp
  have hupper : c.toHex.toList.map Char.toUpper = c.toHex.toList := by
    rw [toList_toHex, map_cons, map_map]
    refine congrArg ('#' :: ·) (map_congr_left fun n hn => ?_)
    exact hcapital _ (Text.toUpper_digitChar_mem (lt_of_mem_digits hn))
  simpa using parse?_spelled (forall_mem_nil _) (forall_mem_nil _) hupper

theorem argb_lt (c : Color) : c.argb < UInt32.size := by
  have hr := c.r.toNat_lt
  have hg := c.g.toNat_lt
  have hb := c.b.toNat_lt
  have ha := c.a.toNat_lt
  simp only [argb, Nat.shiftLeft_eq, UInt32.size]
  omega

theorem argb_injective : Function.Injective argb := by
  intro c d h
  have hr := c.r.toNat_lt
  have hg := c.g.toNat_lt
  have hb := c.b.toNat_lt
  have hr' := d.r.toNat_lt
  have hg' := d.g.toNat_lt
  have hb' := d.b.toNat_lt
  simp only [argb, Nat.shiftLeft_eq] at h
  have hchannels : c.r.toNat = d.r.toNat ∧ c.g.toNat = d.g.toNat ∧ c.b.toNat = d.b.toNat ∧
      c.a.toNat = d.a.toNat := by omega
  simp only [UInt8.toNat_inj] at hchannels
  cases c
  cases d
  simp_all

/-- The text of a color keeps the color, and so does its packed form. -/
theorem text_keeps_color (c : Color) :
    parse? c.toHex = some c ∧
    (∀ before spelled after : List Char, (∀ x ∈ before, isBlank x = true) →
      (∀ x ∈ after, isBlank x = true) → spelled.map Char.toUpper = c.toHex.toList →
        parse? (String.ofList (before ++ spelled ++ after)) = some c) ∧
    (∃ text, (Value.color c).convert .string = .ok text ∧ text.convert .color = .ok (.color c)) ∧
    (∃ ds, c.toHex.toList = '#' :: ds ∧ ds.length = (if c.a = 255 then 6 else 8) ∧
      ∀ d ∈ ds, d ∈ "0123456789ABCDEF".toList) ∧
    c.argb < UInt32.size ∧
    ∀ d, d ≠ c → d.toHex ≠ c.toHex ∧ d.argb ≠ c.argb := by
  refine ⟨parse?_toHex c, fun _ _ _ => parse?_spelled, ?_, ?_, argb_lt c, ?_⟩
  · refine ⟨.string c.toHex, rfl, ?_⟩
    simp only [Value.convert, Value.toColor, Value.color?, parse?_toHex]
    rfl
  · refine ⟨_, toList_toHex c, ?_, ?_⟩
    · rw [length_map, digits, written]
      split <;> rfl
    · intro d hd
      obtain ⟨n, hn, rfl⟩ := mem_map.mp hd
      exact Text.toUpper_digitChar_mem (lt_of_mem_digits hn)
  · intro d hne
    refine ⟨fun htext => hne ?_, fun hpacked => hne (argb_injective hpacked)⟩
    exact Option.some.inj (by rw [← parse?_toHex, htext, parse?_toHex])

theorem text_keeps_color_divider :
    "#caC4d04D".toList.map Char.toUpper = divider.toHex.toList ∧
      parse? (String.ofList ([' ', '\t'] ++ "#caC4d04D".toList ++ ['\n'])) = some divider := by
  have hspelled : "#caC4d04D".toList.map Char.toUpper = divider.toHex.toList := by
    rw [toList_toHex]
    decide
  refine ⟨hspelled, (text_keeps_color divider).2.1 _ _ _ ?_ ?_ hspelled⟩
  all_goals simp [isBlank]

end Color

end Widgetry
