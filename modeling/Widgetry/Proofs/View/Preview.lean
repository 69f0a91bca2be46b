import Widgetry.Proofs.Json.Equality
import Widgetry.Proofs.Json.Rewording
import Widgetry.Proofs.Source.Literal
import Widgetry.Proofs.View.Orderly
import Widgetry.View.Preview

/-!
# Scripts in preview pages

A preview page carries its context in a script. Whatever the layout, the data and the style say, the
page has one end of a script, its own, and the text of the script is a document that holds the
context.
-/

namespace Widgetry.Preview

open List

/-! ### Ends of scripts -/

/-- What ends a script, in small letters. -/
def scriptEnd : List Char := "</script".toList

/-- Whether a text goes along with a pattern, in any case of letters, as far as both go. -/
def startsLike : List Char → List Char → Bool
  | [], _ => true
  | _ :: _, [] => true
  | p :: ps, c :: cs => c.toLower == p && startsLike ps cs

/-- Whether no end of a script starts in a text, whatever follows it. -/
def isHarmless : List Char → Bool
  | [] => true
  | c :: cs => !startsLike scriptEnd (c :: cs) && isHarmless cs

variable {as bs before found after cs : List Char} {c : Char} {s t : String} {ss : List String}
  {m : Markup}

theorem startsLike_of_append {ps : List Char} (h : startsLike ps (as ++ bs) = true) :
    startsLike ps as = true := by
  fun_induction startsLike ps as with
  | case1 => rfl
  | case2 => rfl
  | case3 p ps c cs ih =>
    simp only [cons_append, startsLike, Bool.and_eq_true] at h
    rw [Bool.and_eq_true]
    exact ⟨h.1, ih h.2⟩

theorem startsLike_of_map_toLower (found after : List Char) :
    startsLike (found.map Char.toLower) (found ++ after) = true := by
  induction found with
  | nil => rfl
  | cons c found ih =>
    simp only [map_cons, cons_append, startsLike, beq_self_eq_true, Bool.true_and, ih]

theorem isHarmless_append (has : isHarmless as = true) (hbs : isHarmless bs = true) :
    isHarmless (as ++ bs) = true := by
  induction as with
  | nil => exact hbs
  | cons a as ih =>
    simp only [isHarmless, Bool.and_eq_true, Bool.not_eq_true'] at has
    rw [cons_append, isHarmless, Bool.and_eq_true, Bool.not_eq_true', ← cons_append]
    refine ⟨Bool.eq_false_iff.mpr fun h => ?_, ih has.2⟩
    rw [startsLike_of_append h] at has
    cases has.1

/-- An end of a script stands after every harmless text. -/
theorem exists_of_isHarmless (has : isHarmless as = true)
    (hfound : found.map Char.toLower = scriptEnd) (h : as ++ bs = before ++ (found ++ after)) :
    ∃ rest, before = as ++ rest ∧ bs = rest ++ (found ++ after) := by
  induction as generalizing before with
  | nil => exact ⟨before, rfl, h⟩
  | cons a as ih =>
    simp only [isHarmless, Bool.and_eq_true, Bool.not_eq_true'] at has
    cases before with
    | nil =>
      have hstarts := startsLike_of_map_toLower found after
      rw [hfound, ← nil_append (found ++ after), ← h] at hstarts
      rw [startsLike_of_append hstarts] at has
      cases has.1
    | cons b before =>
      obtain ⟨rfl, htail⟩ := List.cons.inj h
      obtain ⟨rest, rfl, hbs⟩ := ih has.2 htail
      exact ⟨rest, rfl, hbs⟩

theorem eq_of_toLower {x : Char} (hx : x.val.toNat < 97) (h : c.toLower = x) : c = x := by
  unfold Char.toLower at h
  split at h
  · rename_i hupper
    have hlow : 65 ≤ c.val.toNat := UInt32.le_iff_toNat_le.mp hupper.1
    have hhigh : c.val.toNat ≤ 90 := UInt32.le_iff_toNat_le.mp hupper.2
    have hshift : ('a'.val - 'A'.val).toNat = 32 := rfl
    subst h
    rw [UInt32.toNat_add, hshift] at hx
    omega
  · exact h

theorem startsLike_scriptEnd (h : startsLike scriptEnd (c :: cs) = true) :
    c = '<' ∧ (cs = [] ∨ cs.head? = some '/') := by
  have hpattern : scriptEnd = '<' :: '/' :: "script".toList := by decide
  rw [hpattern, startsLike, Bool.and_eq_true, beq_iff_eq] at h
  refine ⟨eq_of_toLower (by decide) h.1, ?_⟩
  cases cs with
  | nil => exact .inl rfl
  | cons d ds =>
    have hslash := h.2
    rw [startsLike, Bool.and_eq_true, beq_iff_eq] at hslash
    rw [List.head?_cons, eq_of_toLower (by decide) hslash.1]
    exact .inr rfl

/-- A character may start the end of a script only if it is a `<` before a slash. -/
theorem isHarmless_cons (h : c = '<' → cs ≠ [] ∧ cs.head? ≠ some '/') (hcs : isHarmless cs = true) :
    isHarmless (c :: cs) = true := by
  rw [isHarmless, Bool.and_eq_true, Bool.not_eq_true']
  refine ⟨Bool.eq_false_iff.mpr fun hstarts => ?_, hcs⟩
  obtain ⟨hc, hnext⟩ := startsLike_scriptEnd hstarts
  exact hnext.elim (h hc).1 (h hc).2

theorem isHarmless_of_not_mem (h : '<' ∉ cs) : isHarmless cs = true := by
  induction cs with
  | nil => rfl
  | cons c cs ih =>
    rw [mem_cons, not_or] at h
    exact isHarmless_cons (fun hc => absurd hc.symm h.1) (ih h.2)

/-- A text in which no end of a script starts. -/
def Harmless (s : String) : Prop := isHarmless s.toList = true

instance (s : String) : Decidable (Harmless s) := inferInstanceAs (Decidable (_ = _))

/-- A text without a tag. -/
def Tagless (s : String) : Prop := '<' ∉ s.toList

instance (s : String) : Decidable (Tagless s) := inferInstanceAs (Decidable (¬_))

theorem Tagless.harmless (h : Tagless s) : Harmless s := isHarmless_of_not_mem h

theorem Tagless.append (hs : Tagless s) (ht : Tagless t) : Tagless (s ++ t) := by
  rw [Tagless, String.toList_append, mem_append, not_or]
  exact ⟨hs, ht⟩

theorem Harmless.append (hs : Harmless s) (ht : Harmless t) : Harmless (s ++ t) := by
  rw [Harmless, String.toList_append]
  exact isHarmless_append hs ht

theorem Harmless.join (h : ∀ s ∈ ss, Harmless s) : Harmless (String.join ss) := by
  induction ss with
  | nil => rfl
  | cons s ss ih =>
    obtain ⟨hs, hss⟩ := forall_mem_cons.mp h
    rw [String.join_cons]
    exact hs.append (ih hss)

theorem Tagless.join (h : ∀ s ∈ ss, Tagless s) : Tagless (String.join ss) := by
  induction ss with
  | nil => decide
  | cons s ss ih =>
    obtain ⟨hs, hss⟩ := forall_mem_cons.mp h
    rw [String.join_cons]
    exact hs.append (ih hss)

/-! ### Numbers and colors -/

theorem tagless_of_digits (h : ∀ c ∈ s.toList, c.isDigit = true) : Tagless s :=
  fun hc => absurd (h _ hc) (by decide)

theorem tagless_toString (n : Nat) : Tagless (toString n) :=
  tagless_of_digits fun _ => Source.isDigit_of_mem_toString

theorem tagless_toString_int (n : Int) : Tagless (toString n) := by
  cases n with
  | ofNat n => exact tagless_toString n
  | negSucc n => exact Tagless.append (s := "-") (by decide) (tagless_toString (n + 1))

theorem tagless_placePoint {text : String} (h : Tagless text) (keepPoint : Bool) (exponent : Int) :
    Tagless (Decimal.placePoint keepPoint text exponent) := by
  have hzeros (n : Nat) : Tagless (Decimal.zeros n) :=
    tagless_of_digits fun _ => Source.isDigit_of_mem_zeros
  cases exponent with
  | ofNat k =>
    refine (h.append (hzeros k)).append ?_
    split <;> decide
  | negSucc k =>
    unfold Decimal.placePoint
    dsimp only
    split
    · refine Tagless.append (Tagless.append ?_ (by decide)) ?_
      · rw [Tagless, String.toList_ofList]
        exact fun hc => h (mem_of_mem_take hc)
      · rw [Tagless, String.toList_ofList]
        exact fun hc => h (mem_of_mem_drop hc)
    · exact Tagless.append (Tagless.append (by decide) (hzeros _)) h

theorem tagless_showNumber (x : Float) : Tagless (showNumber x) := by
  unfold showNumber
  split
  · decide
  · split
    · exact tagless_toString_int _
    · unfold Decimal.render
      split
      · decide
      · split <;> decide
      · refine Tagless.append ?_ (tagless_placePoint (tagless_toString _) _ _)
        split <;> decide

theorem tagless_hexUpper (width n : Nat) : Tagless (Text.hexUpper width n) := fun hc =>
  absurd (all_eq_true.mp (Source.all_isWordChar_hexUpper width n) _ hc) (by decide)

theorem tagless_toHex (c : Color) : Tagless c.toHex := by
  have hrgb := ((tagless_hexUpper 2 c.r.toNat).append (tagless_hexUpper 2 c.g.toNat)).append
    (tagless_hexUpper 2 c.b.toNat)
  have hsharp : Tagless "#" := by decide
  unfold Color.toHex
  dsimp only
  split
  · exact hsharp.append hrgb
  · exact (hsharp.append hrgb).append (tagless_hexUpper 2 c.a.toNat)

theorem tagless_escape (s : String) : Tagless (Markup.escape s) := fun hc =>
  absurd rfl (Markup.not_mem_escape s hc).1

/-! ### Markup -/

theorem tagless_of_isName (h : Markup.isName s = true) : Tagless s := fun hc =>
  absurd (Markup.isNameChar_of_isName h _ hc) (by decide)

theorem tagless_attribute {p : String × String} (hname : Markup.IsPropertyName p.1)
    (h : (m.piece p.1 p.2).attribute? = some s) : Tagless s := by
  have hblank : Tagless " " := by decide
  unfold Markup.piece at h
  cases hstyle : Text.dropPrefix? "style:".toList p.1.toList with
  | some d =>
    rw [hstyle] at h
    cases h
  | none =>
    have hname : Markup.isName p.1 = true := hname.resolve_left (by rw [hstyle]; decide)
    have hplain := hblank.append (tagless_of_isName hname)
    simp only [hstyle] at h
    split at h
    · cases h
    · split at h
      · cases h
        exact hplain
      · cases h
        exact ((hplain.append (by decide)).append (tagless_escape p.2)).append (by decide)

theorem tagless_attributes {properties : Table String String}
    (h : ∀ p ∈ properties, Markup.IsPropertyName p.1) :
    Tagless (Markup.attributes (m.pieces properties)) := by
  rw [Markup.attributes_eq]
  refine Tagless.append (Tagless.join fun s hs => ?_) ?_
  · obtain ⟨piece, hpiece, hs⟩ := mem_filterMap.mp hs
    obtain ⟨p, hp, rfl⟩ := mem_map.mp hpiece
    exact tagless_attribute (h p hp) hs
  · split
    · decide
    · exact (Tagless.append (by decide) (tagless_escape _)).append (by decide)

theorem tagless_indent (depth : Nat) : Tagless (Markup.indent depth) := fun hc =>
  absurd (Markup.mem_indent hc) (by decide)

theorem harmless_opening : ∀ tag ∈ viewTags, Harmless ("<" ++ tag) := by decide

theorem harmless_closing : ∀ tag ∈ viewTags, Harmless ("</" ++ tag ++ ">\n") := by decide

theorem harmless_textLine (depth : Nat) (text : Option String) :
    Harmless ((text.map fun s => Markup.indent depth ++ "  " ++ Markup.escape s ++ "\n").getD "") := by
  cases text with
  | none => rfl
  | some s =>
    have hblank : Tagless "  " := by decide
    have hend : Tagless "\n" := by decide
    exact ((((tagless_indent depth).append hblank).append (tagless_escape s)).append hend).harmless

/-- The markup of an orderly tree has no end of a script, whatever the texts in it are. -/
theorem harmless_viewWithin {t : ViewTree} (ht : t.Orderly) (m : Markup) (fuel depth v : Nat) :
    Harmless (m.viewWithin t fuel depth v) := by
  induction fuel generalizing depth v with
  | zero => rfl
  | succ fuel ih =>
    rw [Markup.viewWithin]
    cases hview : t.view? v with
    | none => rfl
    | some x =>
      have hx := ht.views v x hview
      have hpad := (tagless_indent depth).harmless
      have hclose := harmless_closing x.tag hx.tag
      have hhead : Harmless (Markup.indent depth ++ "<" ++ x.tag ++
          Markup.attributes (m.pieces x.properties)) := by
        rw [show Markup.indent depth ++ "<" ++ x.tag = Markup.indent depth ++ ("<" ++ x.tag) from
          String.append_assoc]
        exact (hpad.append (harmless_opening x.tag hx.tag)).append
          (tagless_attributes fun p hp => (hx.names p hp).1).harmless
      dsimp only
      split
      · exact hhead.append (by decide)
      · split
        · split
          · exact hhead.append (by decide)
          · exact (hhead.append (by decide)).append hclose
        · exact ((hhead.append (by decide)).append (tagless_escape _).harmless).append hclose
        · refine ((((hhead.append (by decide)).append (harmless_textLine depth _)).append
            (Harmless.join ?_)).append hpad).append hclose
          intro s hs
          obtain ⟨w, _, rfl⟩ := mem_map.mp hs
          exact ih (depth + 1) w

/-! ### The context -/

theorem head?_shieldChars (cs : List Char) : (shieldChars cs).head? = cs.head? := by
  fun_cases shieldChars cs <;> rfl

theorem isHarmless_shieldChars (cs : List Char) : isHarmless (shieldChars cs ++ ['\n']) = true := by
  fun_induction shieldChars cs with
  | case1 cs ih =>
    refine isHarmless_cons (fun _ => ⟨by simp, by simp⟩) ?_
    refine isHarmless_cons (by simp) (isHarmless_cons (by simp) ih)
  | case2 c cs hslash ih =>
    rw [cons_append]
    refine isHarmless_cons (fun hc => ⟨by simp, ?_⟩) ih
    rw [List.head?_append, head?_shieldChars]
    cases cs with
    | nil => decide
    | cons d cs =>
      rintro ⟨⟩
      exact hslash cs hc rfl
  | case3 => decide

theorem rewords_shieldChars (cs : List Char) : Json.Rewords cs (shieldChars cs ++ ['\n']) := by
  fun_induction shieldChars cs with
  | case1 cs ih => exact .slash ih
  | case2 c cs hslash ih => exact .step ih
  | case3 => exact .done (by simp [Json.Cursor.isSpace])

/-! ### The page -/

def head (style : Style) (l : Layout) (size : Size) (r : Rendering) : String :=
  "<!DOCTYPE html>\n<html>\n<head>\n<meta charset=\"utf-8\">\n<title>"
    ++ Markup.escape l.displayName ++ " preview</title>\n<style>\n"
    ++ String.join ((rules style size).map (· ++ "\n"))
    ++ "</style>\n</head>\n<body>\n<div class=\"widget\" data-widget=\"" ++ Markup.escape l.name
    ++ "\">\n" ++ r.tree.markup .html r.root ++ "</div>\n"

theorem harmless_rules (style : Style) (size : Size) : ∀ s ∈ rules style size, Harmless s := by
  have hcolor (token : String) (fallback : Color) : Tagless (themeText style token fallback) :=
    tagless_toHex _
  rw [rules, forall_mem_cons, forall_mem_singleton]
  refine ⟨by decide, ?_⟩
  exact (((((((Tagless.append (by decide) (tagless_showNumber _)).append (by decide)).append
    (tagless_showNumber _)).append (by decide)).append (hcolor _ _)).append (by decide)).append
    (hcolor _ _)).append (by decide) |>.harmless

theorem harmless_head (style : Style) (l : Layout) (size : Size) {r : Rendering} (hr : r.Orderly) :
    Harmless (head style l size r) := by
  have hrules : Harmless (String.join ((rules style size).map (· ++ "\n"))) := by
    refine Harmless.join fun s hs => ?_
    obtain ⟨rule, hrule, rfl⟩ := mem_map.mp hs
    exact (harmless_rules style size rule hrule).append (by decide)
  have hmarkup : Harmless (r.tree.markup .html r.root) := harmless_viewWithin hr.tree _ _ _ _
  exact ((((((Harmless.append (by decide) (tagless_escape _).harmless).append (by decide)).append
    hrules).append (by decide)).append (tagless_escape _).harmless).append (by decide)).append
    hmarkup |>.append (by decide)

theorem split_script (before text : String) :
    before ++ "</div>\n<script type=\"application/json\" id=\"widget-context\">\n" ++ text
        ++ "\n</script>\n</body>\n</html>\n" =
      before ++ "</div>\n" ++ "<script type=\"application/json\" id=\"widget-context\">"
        ++ ("\n" ++ text ++ "\n") ++ "</script>\n</body>\n</html>\n" := by
  have hopening : "</div>\n<script type=\"application/json\" id=\"widget-context\">\n" =
      "</div>\n" ++ ("<script type=\"application/json\" id=\"widget-context\">" ++ "\n") := by decide
  have hclosing : "\n</script>\n</body>\n</html>\n" = "\n" ++ "</script>\n</body>\n</html>\n" := by
    decide
  rewrite [hopening, hclosing]
  simp only [String.append_assoc, -String.reduceAppend]

theorem exists_rendering_of_page {style : Style} {l : Layout} {size : Size} {c : Context}
    (h : page style l size c = .ok s) :
    ∃ r : Rendering, r.Orderly ∧ s = head style l size r
      ++ "<script type=\"application/json\" id=\"widget-context\">"
      ++ ("\n" ++ shield (document c).pretty ++ "\n") ++ "</script>\n</body>\n</html>\n" := by
  obtain ⟨⟨r, log⟩, hrender, hs⟩ := exists_of_bind_eq_ok h
  refine ⟨r, Renderer.orderly_of_render hrender, ?_⟩
  cases hs
  exact split_script _ _

theorem harmless_shield (s : String) : Harmless ("\n" ++ shield s ++ "\n") := by
  rw [String.append_assoc]
  refine Harmless.append (by decide) ?_
  rw [Harmless, String.toList_append, shield, String.toList_ofList]
  exact isHarmless_shieldChars s.toList

/-- The text of the script holds what the context is written as. -/
theorem parse_shield {limit : Nat} {v : Json} (h : Json.parse limit s = .ok v) :
    Json.parse limit ("\n" ++ shield s ++ "\n") = .ok v := by
  refine Json.parse_of_rewords ['\n'] h (by simp [Json.Cursor.isSpace])
    (rewords_shieldChars s.toList) ?_
  simp [shield]

/-- An end of a script that stands after a harmless text stands right after it, if the rest has no
other one. -/
theorem eq_of_scriptEnd (has : isHarmless as = true) (hbs : isHarmless bs.tail = true)
    (hfound : found.map Char.toLower = scriptEnd) (h : as ++ bs = before ++ (found ++ after)) :
    before = as := by
  obtain ⟨rest, rfl, hrest⟩ := exists_of_isHarmless has hfound h
  cases rest with
  | nil => exact append_nil as
  | cons r rest =>
    rw [hrest, cons_append, tail_cons] at hbs
    obtain ⟨more, hmore, _⟩ := exists_of_isHarmless hbs hfound (append_nil _)
    have hlength := congrArg List.length hmore
    have hpattern : found.length = scriptEnd.length := by rw [← hfound, length_map]
    have hlong : scriptEnd.length = 8 := by decide
    simp only [length_append] at hlength
    omega

/-- Whatever the layout, the context, the size and the style, the page ends one script, its own: an end
of a script, in any case of letters, stands nowhere but after the text of the script. Where the context
is read back from what it is written as, it is read back from that text too. -/
theorem page_ends_one_script {style : Style} {l : Layout} {size : Size} {c : Context} {s : String}
    (h : page style l size c = .ok s) :
    ∃ before text, s = before ++ "<script type=\"application/json\" id=\"widget-context\">" ++ text
        ++ "</script>\n</body>\n</html>\n" ∧
      (∀ start found rest : List Char, s.toList = start ++ (found ++ rest) →
        found.map Char.toLower = "</script".toList →
        start = (before ++ "<script type=\"application/json\" id=\"widget-context\">" ++ text).toList) ∧
      ∀ limit, Json.parse limit (document c).pretty = .ok (document c) →
        Json.parse limit text = .ok (document c) := by
  obtain ⟨r, hr, rfl⟩ := exists_rendering_of_page h
  refine ⟨_, _, rfl, ?_, fun _ => parse_shield⟩
  intro start found rest hs hfound
  rw [String.toList_append] at hs
  refine eq_of_scriptEnd ?_ (by decide) hfound hs
  exact ((harmless_head style l size hr).append (by decide)).append (harmless_shield _)

theorem page_ends_one_script_caption : ∃ s before text,
    page .builtin Renderer.captionLayout ⟨100, 100⟩
      (Renderer.captionContext "a.png" "</SCRIPT><b>\\</") = .ok s ∧
    s = before ++ "<script type=\"application/json\" id=\"widget-context\">" ++ text
      ++ "</script>\n</body>\n</html>\n" ∧
    (∀ start found rest : List Char, s.toList = start ++ (found ++ rest) →
      found.map Char.toLower = "</script".toList →
      start = (before ++ "<script type=\"application/json\" id=\"widget-context\">" ++ text).toList) ∧
    Json.parse Json.depthLimit text =
      .ok (document (Renderer.captionContext "a.png" "</SCRIPT><b>\\</")) := by
  let c := Renderer.captionContext "a.png" "</SCRIPT><b>\\</"
  have hpage : Succeeds (page .builtin Renderer.captionLayout ⟨100, 100⟩ c) := by
    rw [succeeds_iff_isOk]
    decide +kernel
  have hsame : (Json.parse Json.depthLimit (document c).pretty).toOption.map (fun v =>
      v.same (document c) && v.unsignedZeros && (document c).unsignedZeros) = some true := by
    decide +kernel
  have hwritten : Json.parse Json.depthLimit (document c).pretty = .ok (document c) := by
    obtain ⟨v, hread, hall⟩ := exists_of_toOption_map hsame
    simp only [Bool.and_eq_true] at hall
    rw [hread, Json.eq_of_same hall.1.1 hall.1.2 hall.2]
  obtain ⟨s, hs⟩ := hpage
  obtain ⟨before, text, hpage, hends, htext⟩ := page_ends_one_script hs
  exact ⟨s, before, text, hs, hpage, hends, htext _ hwritten⟩

end Widgetry.Preview
