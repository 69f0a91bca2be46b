import Widgetry.Layout.Reader
import Widgetry.Proofs.Source.HelperText
import Widgetry.Proofs.Source.KotlinSheet
import Widgetry.Proofs.Source.SwiftSheet

/-!
# Files put together

A file is a header, what it imports, the functions of its sizes and the helpers that these call. Each
part closes what it opens, and the names that the parts define add up: each helper that is called
anywhere is defined once.
-/

namespace Widgetry.Source

open List

variable {comments : Bool} {target : SourceTarget} {uses : List Helper} {k m n : Nat}
  {p q : List Char} {names more : List (List Char)}

/-! ### Directives of constant text -/

variable {ds : List Directive} {ls : List String} {h : Helper} {keyword c d cs : List Char}
  {w rest name contents : String} {l : Layout} {helpers : List Helper} {s : SizeClass}
  {sizes : List SizeClass}

theorem lays_of_paragraph (hlevels : ds.foldlM Directive.level? m = some n)
    (h : Paragraph target uses p q names (ds.filterMap Directive.text?)) :
    Lays Quiet target uses m n p q names ds := by
  have hlines : ds.flatMap Directive.lines = ds.filterMap Directive.text? := by
    have hsingle := h.lines
    clear h hlevels
    induction ds with
    | nil => rfl
    | cons d ds ih =>
      rw [flatMap_cons, Directive.lines]
      cases htext : d.text? with
      | none =>
        rw [filterMap_cons_none htext] at hsingle ⊢
        exact ih hsingle
      | some s =>
        rw [filterMap_cons_some htext] at hsingle ⊢
        obtain ⟨hs, hrest⟩ := forall_mem_cons.mp hsingle
        rw [ih hrest]
        simp only [lines_of_notMem hs, singleton_append]
  refine ⟨hlevels, ?_, ?_⟩
  · rw [hlines]
    exact h.passes
  · rw [hlines]
    exact h.quiet

theorem Lays.quiet (h : Lays (Says .empty) target uses m n p q names ds) :
    Lays Quiet target uses m n p q names ds :=
  h.imp fun _ => Says.quiet

theorem Lays.settled (h : Lays Quiet target uses m n p q names ds) :
    Lays (Settled target) target uses m n p q names ds :=
  h.imp fun _ => Quiet.settled

/-- A closing brace outside all loops. -/
theorem lays_brace (m : Nat) (p : List Char) :
    Lays Quiet target uses (m + 1) m ('\x7d' :: p) p [] [.leave "\x7d"] := by
  have hbrace : Piece false .empty uses ['\x7d'] [] "\x7d" := piece_constant (by decide)
  exact (Lays.text rfl rfl (hbrace.frame p)).quiet

theorem lines_joinWith (hne : ls ≠ []) (h : ∀ l ∈ ls, '\n' ∉ l.toList) :
    Text.lines (Text.joinWith "\n" ls) = ls := Text.splitOn_joinWith hne h

theorem lays_definition (hls : Definition target h ls) (hclosed : Closed target uses)
    (hmem : h ∈ uses) (m : Nat) (p : List Char) :
    ∃ names, Defines [h] names ∧
      Lays Quiet target uses m m p p names [.blank, .line (Text.joinWith "\n" ls)] := by
  obtain ⟨hne, names, hparagraph, hnames⟩ := hls
  have hsub : h :: (language target).needs h ⊆ uses :=
    cons_subset.mpr ⟨hmem, (hclosed h hmem).2⟩
  have hlines : [Directive.blank, .line (Text.joinWith "\n" ls)].flatMap Directive.lines = ls :=
    (List.append_nil _).trans (lines_joinWith hne hparagraph.lines)
  refine ⟨names, hnames, rfl, fun comments => ?_, ?_⟩
  · rw [hlines]
    exact ((hparagraph.passes comments).mono hsub).frame p
  · rw [hlines]
    exact hparagraph.quiet

theorem lays_definitions (text : Helper → List String) {hs : List Helper}
    (htext : ∀ h ∈ hs, Definition target h (text h)) (hclosed : Closed target uses)
    (hsub : hs ⊆ uses) (m : Nat) (p : List Char) :
    ∃ names, Defines hs names ∧ Lays Quiet target uses m m p p names
      (hs.flatMap fun h => [.blank, .line (Text.joinWith "\n" (text h))]) := by
  induction hs with
  | nil => exact ⟨[], fun g => rfl, .nil m p⟩
  | cons h hs ih =>
    obtain ⟨hmem, hrest⟩ := cons_subset.mp hsub
    obtain ⟨names, hnames, hlays⟩ :=
      lays_definition (htext h mem_cons_self) hclosed hmem m p
    obtain ⟨more, hmore, hlaysMore⟩ := ih (fun g hg => htext g (mem_cons_of_mem _ hg)) hrest
    exact ⟨names ++ more, hnames.append hmore, hlays.append hlaysMore⟩

theorem pieces_of_constants {css : List (List Char)} (h : Constants css ls)
    (hcss : css.all (isPiece false [] [] []) = true) :
    ∀ s ∈ ls, Piece false .empty uses [] [] s := by
  induction h with
  | nil => exact forall_mem_nil _
  | cons _ ih =>
    rw [all_cons, Bool.and_eq_true] at hcss
    exact forall_mem_cons.mpr ⟨piece_constant hcss.1, ih hcss.2⟩

/-! ### Parts of a file -/

/-- A sheet outside all loops that closes what it opens and defines certain names. -/
structure Sheet.Part (target : SourceTarget) (names : List (List Char)) (sheet : Sheet) : Prop where
  closed : Closed target sheet.uses
  lays : Lays (Settled target) target sheet.uses 0 0 [] [] names sheet.directives

theorem Sheet.Part.append {a b : Sheet} (ha : a.Part target names) (hb : b.Part target more) :
    (a ++ b).Part target (names ++ more) :=
  ⟨ha.closed.append hb.closed, (ha.lays.mono (subset_append_left _ _)).append
    (hb.lays.mono (subset_append_right _ _))⟩

variable {body : Sheet}

/-- A sound sheet between lines that are counted as using nothing. -/
theorem Sheet.part_of_sound {before after : List Directive} {e : Element}
    (hbody : body.Sound target 0 e []) (hbefore : Lays Quiet target [] 0 m [] p names before)
    (hafter : Lays Quiet target [] m 0 p [] [] after) :
    (Sheet.plain before ++ body ++ .plain after).Part target names := by
  have huses : (Sheet.plain before ++ body ++ .plain after).uses = body.uses := List.append_nil _
  refine ⟨?_, ?_⟩
  · rw [huses]
    exact hbody.closed
  · rw [huses]
    have hsettled := (hbody.leads [] m p).lays.imp fun _ => Emits.scoped
    have hlays := ((hbefore.settled.mono (List.nil_subset body.uses)).append hsettled).append
      (hafter.settled.mono (List.nil_subset _))
    rw [List.append_nil, List.append_nil] at hlays
    exact hlays

theorem Dialect.part_sizes {σ : Type} {D : Dialect σ} {Good : σ → Prop} (hD : D.Sound target Good)
    (hplatform : D.platform = target.platform) (houter : Good (D.outer l))
    {defined : SizeClass → List (List Char)}
    (hpart : ∀ s body, Sheet.Sound target 0 l.root [] body → (D.part s body).Part target (defined s))
    {sheet : Sheet} (h : D.sizes .builtin l sizes = .ok sheet) :
    sheet.Part target (sizes.flatMap defined) := by
  induction sizes generalizing sheet with
  | nil =>
    rw [← Except.ok.inj h]
    exact ⟨Language.closed_nil _ _, .nil 0 []⟩
  | cons s sizes ih =>
    obtain ⟨first, hfirst, h⟩ := exists_of_bind_eq_ok h
    obtain ⟨rest, hrest, h⟩ := exists_of_bind_eq_ok h
    rw [← Except.ok.inj h]
    have hsound := (hD.yields_element rfl hplatform 0 .overlay houter l.root).of_ok hfirst
    exact (hpart s first hsound).append (ih hrest)

/-! ### Words of a file -/

theorem all_isWordChar_of_isIdentifier {s : String} (h : Text.isIdentifier s = true) :
    s.toList.all isWordChar = true :=
  all_eq_true.mpr fun _ hc => Text.isWord_of_isIdentifierList h hc

theorem toNat_lt_of_isWordChar {c : Char} (h : isWordChar c = true) : c.val.toNat < 128 := by
  rcases Bool.or_eq_true_iff.mp h with h | h
  · rcases Bool.or_eq_true_iff.mp h with h | h
    · rcases Bool.or_eq_true_iff.mp h with h | h
      · have hupper := toNat_of_isUpper h
        omega
      · have hhigh := UInt32.le_iff_toNat_le.mp (of_decide_eq_true (Bool.and_eq_true_iff.mp h).2)
        have hz : 'z'.val.toNat = 122 := rfl
        omega
    · have hdigit := toNat_of_isDigit h
      omega
  · rw [beq_iff_eq.mp h]
    decide

theorem isWordChar_toUpper {c : Char} (hc : isWordChar c = true) : isWordChar c.toUpper = true := by
  have hall : ∀ k : Fin 128, isWordChar (Char.ofNat k) = true →
      isWordChar (Char.ofNat k).toUpper = true := by decide
  have hk := hall ⟨c.toNat, toNat_lt_of_isWordChar hc⟩
  rw [Char.ofNat_toNat] at hk
  exact hk hc

theorem all_isWordChar_pascal (s : String) : (Text.pascal s).toList.all isWordChar = true := by
  have hfrom : ∀ (cs : List Char) (fresh : Bool), (Text.pascalFrom fresh cs).all isWordChar = true := by
    intro cs
    induction cs with
    | nil => exact fun _ => rfl
    | cons c cs ih =>
      intro fresh
      rw [Text.pascalFrom]
      split
      · rename_i hc
        have hword : isWordChar c = true := by
          rw [isWordChar, Bool.or_eq_true]
          exact .inl hc
        rw [all_cons, ih, Bool.and_true]
        split
        · exact isWordChar_toUpper hword
        · exact hword
      · exact ih true
  rw [Text.pascal, String.toList_ofList]
  exact hfrom _ _

/-! ### The header -/

/-- A word or a sign that is no bracket. -/
def Token.isFlat : Token → Bool
  | .word _ => true
  | .sign c => (closer? true c).isNone && !isCloser true c
  | _ => false

variable {ts : List Token}

theorem foldlM_nest_flat (h : ∀ t ∈ ts, t.isFlat = true) (p : List Char) :
    ts.foldlM (nest true false) p = some p := by
  induction ts with
  | nil => rfl
  | cons t ts ih =>
    obtain ⟨ht, hts⟩ := forall_mem_cons.mp h
    have hstep : nest true false p t = some p := by
      cases t with
      | word w => rfl
      | literal => rfl
      | unclosed => cases ht
      | sign c =>
        simp only [Token.isFlat, Bool.and_eq_true, Option.isNone_iff_eq_none, Bool.not_eq_true'] at ht
        simp [nest, ht]
    rw [foldlM_cons, hstep]
    exact ih hts

theorem defined_append_of_notMem (h : .word keyword ∉ ts) (us : List Token) :
    defined keyword (ts ++ us) = defined keyword us := by
  induction ts with
  | nil => rfl
  | cons t ts ih =>
    rw [mem_cons, not_or] at h
    rw [cons_append, defined, if_neg (Ne.symm h.1), ih h.2]
    rfl

theorem defined_wordOf_append {letters : List Char} {us : List Token} (h : .word keyword ∉ us)
    (hafter : nameAfter us = []) : defined keyword (Reader.wordOf letters ++ us) = [] := by
  unfold Reader.wordOf
  split
  · exact defined_eq_nil h
  · rw [singleton_append, defined, hafter, defined_eq_nil h]
    split <;> rfl

/-- Whether constants around a word hold no brackets and define nothing, whatever the word is. -/
def isRemark (target : SourceTarget) (c d : List Char) : Bool :=
  endsApart c && startsApart d &&
    match spelling? false c, spelling? false d with
    | some ts, some us =>
        (ts ++ us).all Token.isFlat && !ts.contains (.word (definer target))
          && !us.contains (.word (definer target)) && (nameAfter us).isEmpty
    | _, _ => false

theorem passage_remark (h : isRemark target c d = true) (hw : w.toList.all isWordChar = true) :
    Passage false target uses p p [] (String.ofList c ++ w ++ String.ofList d) := by
  simp only [isRemark, Bool.and_eq_true] at h
  obtain ⟨⟨hends, hstarts⟩, h⟩ := h
  split at h
  · rename_i ts us hts hus
    simp only [Bool.and_eq_true, List.isEmpty_iff, Bool.not_eq_true', List.contains_eq_mem,
      decide_eq_false_iff_not] at h
    obtain ⟨⟨⟨hflat, htsDefiner⟩, husDefiner⟩, hafter⟩ := h
    have hword := spells_word hw false
    rw [String.ofList_toList] at hword
    have hspells := spelling?_append (spelling?_append hts hword (.inl hends)) hus (.inr hstarts)
    have hall : ∀ t ∈ ts ++ Reader.wordOf w.toList.reverse ++ us, t.isFlat = true := by
      intro t ht
      rw [List.append_assoc, mem_append, mem_append] at ht
      rcases ht with ht | ht | ht
      · exact all_eq_true.mp hflat t (mem_append_left _ ht)
      · unfold Reader.wordOf at ht
        split at ht
        · cases ht
        · rw [mem_singleton.mp ht]
          rfl
      · exact all_eq_true.mp hflat t (mem_append_right _ ht)
    refine ⟨ts ++ Reader.wordOf w.toList.reverse ++ us, ?_, foldlM_nest_flat hall p, ?_, ?_,
      List.nil_subset _⟩
    · rw [String.toList_append, String.toList_append, String.toList_ofList, String.toList_ofList]
      exact hspells
    · intro g hg
      rw [calls_eq_nil fun hparen => absurd (hall _ hparen) (by decide)] at hg
      cases hg
    · rw [List.append_assoc, defined_append_of_notMem htsDefiner]
      exact defined_wordOf_append husDefiner hafter
  · cases h

theorem read_comment (h : '\n' ∉ cs) : Reader.read true .comment cs = ([], .comment) := by
  induction cs with
  | nil => rfl
  | cons c cs ih =>
    rw [mem_cons, not_or] at h
    rw [Reader.read_cons]
    simp only [Reader.step, if_neg (Ne.symm h.1), ih h.2]
    rfl

theorem read_comment_newline (h : '\n' ∉ cs) (ds : List Char) :
    Reader.read true (.code []) ('/' :: '/' :: cs ++ '\n' :: ds) =
      (.sign '\n' :: (Reader.read true (.code []) ds).1, (Reader.read true (.code []) ds).2) := by
  have hslashes : Reader.read true (.code []) ['/', '/'] = ([], .comment) := rfl
  have hnewline : Reader.step true .comment '\n' = ([.sign '\n'], .code []) := rfl
  have hsplit : '/' :: '/' :: cs ++ '\n' :: ds = ['/', '/'] ++ (cs ++ '\n' :: ds) := rfl
  rw [hsplit, Reader.read_append, hslashes, Reader.read_append, read_comment h, Reader.read_cons,
    hnewline]
  rfl

theorem spelling?_comment {ds : List Char} (h : '\n' ∉ cs) (hts : spelling? true ds = some ts) :
    spelling? true ('/' :: '/' :: cs ++ '\n' :: ds) = some (.sign '\n' :: ts) := by
  obtain ⟨us, letters, hread, rfl⟩ := spelling?_eq_some.mp hts
  rw [spelling?_eq_some, read_comment_newline h, hread]
  exact ⟨.sign '\n' :: us, letters, rfl, rfl⟩

theorem toList_comment (c d : List Char) (w rest : String) :
    (String.ofList ('/' :: '/' :: c) ++ w ++ String.ofList d ++ "\n" ++ rest).toList =
      '/' :: '/' :: (c ++ w.toList ++ d) ++ '\n' :: rest.toList := by
  simp

theorem newline_notMem_comment (hc : '\n' ∉ c) (hd : '\n' ∉ d) (hw : w.toList.all isWordChar = true) :
    '\n' ∉ c ++ w.toList ++ d := by
  rw [mem_append, mem_append, not_or, not_or]
  exact ⟨⟨hc, newline_notMem hw⟩, hd⟩

theorem solid_comment (h : (!c.contains '\n' && !d.contains '\n') = true)
    (hw : w.toList.all isWordChar = true) (rest : String) :
    solid (String.ofList ('/' :: '/' :: c) ++ w ++ String.ofList d ++ "\n" ++ rest) = solid rest := by
  simp only [Bool.and_eq_true, Bool.not_eq_true', List.contains_eq_mem, decide_eq_false_iff_not] at h
  rw [solid, tokens, toList_comment, read_comment_newline (newline_notMem_comment h.1 h.2 hw)]
  rfl

theorem Passage.comment
    (h : (isRemark target ('/' :: '/' :: c) d && !c.contains '\n' && !d.contains '\n') = true)
    (hw : w.toList.all isWordChar = true) (hrest : Passage comments target uses p q names rest) :
    Passage comments target uses p q names
      (String.ofList ('/' :: '/' :: c) ++ w ++ String.ofList d ++ "\n" ++ rest) := by
  simp only [Bool.and_eq_true, Bool.not_eq_true', List.contains_eq_mem, decide_eq_false_iff_not] at h
  obtain ⟨⟨hremark, hc⟩, hd⟩ := h
  cases comments with
  | false => exact (passage_remark hremark hw).append_newline hrest
  | true =>
    obtain ⟨ts, hts, hnest, hcalls, hnames⟩ := hrest
    refine ⟨.sign '\n' :: ts, ?_, ?_, hcalls, hnames⟩
    · rw [toList_comment]
      exact spelling?_comment (newline_notMem_comment hc hd hw) hts
    · rw [foldlM_cons, nest_newline]
      exact hnest

theorem all_isWordChar_fingerprint (fingerprint : UInt64) :
    (Fingerprint.render fingerprint).toList.all isWordChar = true := by
  rw [all_eq_true]
  intro c hc
  rw [Fingerprint.render, String.toList_ofList] at hc
  rcases mem_append.mp hc with h | h
  · rw [eq_of_mem_replicate h]
    decide
  · obtain ⟨k, rfl⟩ := exists_digitChar_of_mem_toDigits h
    have hdigit : ∀ k : Fin 16, isWordChar (Nat.digitChar k) = true := by decide
    exact hdigit k

theorem unlines_header_append (l : Layout) (rest : String) : unlines (header l) ++ rest =
    "// Auto-generated from " ++ l.name ++ ".json - DO NOT EDIT MANUALLY" ++ "\n" ++
      ("// Generator: widgetc " ++ "0" ++ ".1.0" ++ "\n" ++
        ("// Layout fingerprint: " ++ Fingerprint.render l.fingerprint ++ "" ++ "\n" ++ rest)) := by
  rw [← String.toList_inj]
  simp [header, unlines]

theorem solid_header (hname : l.name.toList.all isWordChar = true) (rest : String) :
    solid (unlines (header l) ++ rest) = solid rest := by
  rw [unlines_header_append]
  refine (solid_comment ?_ hname _).trans ((solid_comment ?_ (by decide) _).trans
    (solid_comment ?_ (all_isWordChar_fingerprint _) rest)) <;> decide

theorem passage_header (hname : l.name.toList.all isWordChar = true)
    (hrest : Passage comments target uses p q names rest) :
    Passage comments target uses p q names (unlines (header l) ++ rest) := by
  rw [unlines_header_append]
  refine .comment ?_ hname (.comment ?_ (by decide) (.comment ?_ (all_isWordChar_fingerprint _) hrest))
  · cases target <;> decide
  · cases target <;> decide
  · cases target <;> decide

/-! ### Files -/

/-- A file whose directives never end an indentation that they did not start, and whose text closes its
brackets, defines once each helper that it calls and has the variables of loops in their blocks only. -/
structure Whole (target : SourceTarget) (ds : List Directive) (contents : String) : Prop where
  levels : ds.foldlM Directive.level? 0 = some 0
  text : ∃ preamble, contents = preamble ++ render ds
  passage : ∃ helpers names, helpers.Nodup ∧ Defines helpers names ∧
    ∀ comments, Passage comments target helpers [] [] names contents
  scoping : Scoped target 0 (solid contents)

theorem whole_of_lays (hname : l.name.toList.all isWordChar = true) {imports : List String}
    (himports : ∀ s ∈ imports, Piece false .empty [] [] [] s) (hnodup : helpers.Nodup)
    (hnames : Defines helpers names)
    (hlays : Lays (Settled target) target helpers 0 0 [] [] names ds) :
    Whole target ds (fileText l imports ds) := by
  have hlines := paragraph_of_pieces target himports
  refine ⟨hlays.levels, ⟨unlines (header l) ++ unlines imports, String.append_assoc.symm⟩,
    ⟨helpers, names, hnodup, hnames, fun comments => ?_⟩, ?_⟩
  · exact passage_header hname (((hlines.passes comments).mono
      (List.nil_subset helpers)).passage_unlines (passage_render (hlays.passes comments)))
  · rw [fileText, solid_header hname, (hlines.passes true).solid_unlines, solid_render (hlays.passes true)]
    exact hlines.quiet.settled.append hlays.lines

theorem Helper.mem_sort {uses : List Helper} : h ∈ Helper.sort uses ↔ h ∈ uses := by
  rw [Helper.sort, mem_filter, contains_iff_mem]
  exact and_iff_right h.mem_all

theorem Helper.nodup_sort (uses : List Helper) : (Helper.sort uses).Nodup := by
  have hall : Helper.all.Nodup := by decide
  exact hall.filter _

theorem Closed.sort (h : Closed target uses) : Closed target (Helper.sort uses) := by
  intro g hg
  obtain ⟨hhas, hneeds⟩ := h g (Helper.mem_sort.mp hg)
  exact ⟨hhas, fun k hk => Helper.mem_sort.mpr (hneeds hk)⟩

variable {sheet : Sheet} {title : String} {content : List Directive}

theorem piece_title {c : Char} (hname : name.toList.all isWordChar = true)
    (h : (cs.all isWordChar && c.isUpper && cs.contains c) = true) :
    Piece false .empty uses [] [] (name ++ String.ofList cs) := by
  simp only [Bool.and_eq_true, contains_iff_mem] at h
  refine piece_word ?_ (.inl (isOrdinary_of_mem h.1.2 ?_))
  · rw [String.toList_append, String.toList_ofList, all_append, hname, h.1.1]
    rfl
  · rw [String.toList_append, String.toList_ofList]
    exact mem_append_right _ h.2

/-- The part of a file that holds the content function and those of the sizes. -/
theorem lays_block (htitle : ∀ uses, Piece false .empty uses [] ['\x7d'] title)
    (hcontent : ∀ uses, Lays Quiet target uses 0 0 [] [] names content)
    (hpart : sheet.Part target more) :
    Lays (Settled target) target (Helper.sort sheet.uses) 0 1 [] ['\x7d'] (names ++ more)
      ([.enter title] ++ content ++ sheet.directives) := by
  have hopen : Lays Quiet target (Helper.sort sheet.uses) 0 1 [] ['\x7d'] [] [.enter title] :=
    (Lays.text rfl rfl (htitle _)).quiet
  have hsizes := (hpart.lays.mono fun g hg => Helper.mem_sort.mpr hg).frame 1 ['\x7d']
  exact (hopen.append ((hcontent _).frame 1 ['\x7d'])).settled.append hsizes

theorem all_isWordChar_append_pascal {start : String} (h : start.toList.all isWordChar = true)
    (id : String) : (start ++ Text.pascal id).toList.all isWordChar = true := by
  rw [String.toList_append, all_append, all_isWordChar_pascal, h]
  rfl

namespace Kotlin

theorem all_isWordChar_sizeName (s : SizeClass) : (sizeName s).toList.all isWordChar = true :=
  all_isWordChar_append_pascal (by decide) s.id

theorem sizeName_ne_nil (s : SizeClass) : (sizeName s).toList ≠ [] := by
  rw [sizeName, String.toList_append]
  exact append_ne_nil_of_left_ne_nil (by decide) _

theorem isOrdinary_sizeName (s : SizeClass) : isOrdinary (sizeName s).toList = true := by
  refine isOrdinary_of_mem (c := 'S') (by decide) ?_
  rw [sizeName, String.toList_append]
  exact mem_append_left _ (by decide)

theorem name_ne_sizeName (h : Helper) (s : SizeClass) : h.name.toList ≠ (sizeName s).toList := by
  have hhead : (sizeName s).toList.head? = some 'S' := by
    rw [sizeName, String.toList_append]
    rfl
  intro heq
  rw [← heq] at hhead
  cases h <;> exact absurd hhead (by decide)

theorem piece_sizeCall (s : SizeClass) : Piece false .empty uses [] [] (sizeCall s) := by
  refine .call ?_ (pieces_of_constants (by repeat constructor) (by decide))
  refine piece_calling (all_isWordChar_sizeName s) (sizeName_ne_nil s)
    (.inl (isOrdinary_sizeName s)) ?_
  exact fun h heq => absurd heq (name_ne_sizeName h s)

theorem lays_dispatch (sizes : List SizeClass) (m : Nat) (p : List Char) :
    Lays (Says .empty) .glance uses m m p p [] (dispatch sizes) := by
  fun_induction dispatch sizes with
  | case1 => exact .nil m p
  | case2 s =>
    have hline : Piece false .empty uses [] [] ("else -> " ++ sizeCall s) :=
      piece_lead (by decide) (piece_sizeCall s)
    exact .text rfl rfl (hline.frame p)
  | case3 s rest _ ih =>
    have hdp (x : Float) : Piece false .empty uses [] [] (dp (numberLiteral x)) :=
      (operand_dp (operand_numberLiteral x)).piece
    have hline : Piece false .empty uses [] [] ("size.width >= " ++ dp (numberLiteral s.width) ++
        " && size.height >= " ++ dp (numberLiteral s.height) ++ " -> " ++ sizeCall s) :=
      ((piece_lead (by decide) (hdp s.width)).behind (by decide) (hdp s.height)).behind (by decide)
        (piece_sizeCall s)
    exact .append (.text rfl rfl (hline.frame p)) ih

theorem spells_sizeFunction (s : SizeClass) : Spells ("private fun " ++ (sizeName s ++ "("))
    ([.word ['p', 'r', 'i', 'v', 'a', 't', 'e'], .sign ' ', .word (definer .glance), .sign ' '] ++
      [.word (sizeName s).toList, .sign '(']) := by
  have hwords : Spells "private fun "
      [.word ['p', 'r', 'i', 'v', 'a', 't', 'e'], .sign ' ', .word (definer .glance), .sign ' '] :=
    fun comments => by cases comments <;> decide
  exact hwords.append (spells_calling (all_isWordChar_sizeName s) (sizeName_ne_nil s))
    (.inl (by decide))

theorem paragraph_sizeFunction (s : SizeClass) :
    Paragraph .glance uses [] [')'] [(sizeName s).toList] ["private fun " ++ sizeName s ++ "("] := by
  rw [String.append_assoc]
  refine .single ?_ (fun comments => ?_) ?_
  · rw [String.toList_append, String.toList_append, mem_append, mem_append]
    rintro (h | h | h)
    · exact absurd h (by decide)
    · exact newline_notMem (all_isWordChar_sizeName s) h
    · exact absurd h (by decide)
  · refine ⟨_, spells_sizeFunction s comments, rfl, ?_, ?_, Subset.refl _⟩
    · intro h hmem
      exact absurd (mem_singleton.mp hmem) (name_ne_sizeName h s)
    · simp [defined, nameAfter, definer]
  · intro w hw
    rw [tokens_eq_of_spelling? (spells_sizeFunction s true)] at hw
    simp only [mem_append, mem_cons, not_mem_nil, or_false, reduceCtorEq, false_or,
      Token.word.injEq] at hw
    rcases hw with (rfl | rfl) | rfl
    · decide
    · decide
    · have hordinary := isOrdinary_sizeName s
      simp only [isOrdinary, Bool.and_eq_true, Bool.not_eq_true'] at hordinary
      exact hordinary.2

theorem piece_rootModifier (l : Layout) : Piece false .empty [] [] [] (rootModifier l) := by
  unfold rootModifier
  split
  · exact piece_fill _ [_] [_] (by decide) (.cons (operand_dp (operand_numberLiteral _)).piece .nil)
  · exact piece_constant (by decide)

theorem part_sizeFunction (s : SizeClass) {body : Sheet} (h : body.Sound .glance 0 l.root []) :
    (sizeFunction s body).Part .glance [(sizeName s).toList] := by
  refine Sheet.part_of_sound (m := 1) (p := ['\x7d']) h ?_ (lays_brace 0 [])
  have hmark : Lays Quiet .glance [] 0 0 [] [] [] [.blank, .line "@Composable"] :=
    lays_of_paragraph rfl (paragraph_of_scan (by repeat constructor) (by decide))
  have hopen : Lays Quiet .glance [] 0 1 [] [')'] [(sizeName s).toList]
      [.enter ("private fun " ++ sizeName s ++ "(")] :=
    lays_of_paragraph rfl (paragraph_sizeFunction s)
  have hparameters : Lays Quiet .glance [] 1 1 [')'] ['\x7d'] []
      [.line "data: Map<String, Any?>,", .line "settings: Map<String, Any?>,",
        .line "images: (String) -> ImageProvider,", .line "modifier: GlanceModifier,",
        .reenter ") \x7b"] :=
    lays_of_paragraph rfl (paragraph_of_scan (by repeat constructor) (by decide))
  exact (hmark.append hopen).append hparameters

theorem defines_sizeNames (sizes : List SizeClass) :
    Defines [] (sizes.flatMap fun s => [(sizeName s).toList]) := by
  refine defines_nil fun g hg => ?_
  obtain ⟨s, -, hs⟩ := mem_flatMap.mp hg
  exact name_ne_sizeName g s (mem_singleton.mp hs)

def contentName : List Char := ['C', 'o', 'n', 't', 'e', 'n', 't']

theorem lays_contentFunction (uses : List Helper) (sizes : List SizeClass) :
    Lays Quiet .glance uses 0 0 [] [] [contentName] (contentFunction sizes) := by
  have hopen : Lays Quiet .glance [] 0 2 [] ['\x7d', '\x7d'] [contentName]
      [.line "@Composable", .enter "fun Content(", .line "data: Map<String, Any?>,",
       .line "settings: Map<String, Any?>,", .line "size: DpSize,",
       .line "images: (String) -> ImageProvider,",
       .line "modifier: GlanceModifier = GlanceModifier,", .reenter ") \x7b", .enter "when \x7b"] :=
    lays_of_paragraph rfl (paragraph_of_scan (by repeat constructor) (by decide))
  exact ((hopen.mono (List.nil_subset _)).append (lays_dispatch sizes 2 _).quiet).append
    ((lays_brace 1 _).append (lays_brace 0 []))

theorem lays_object (hname : l.name.toList.all isWordChar = true)
    (h : object .builtin l = .ok (ds, helpers)) :
    helpers.Nodup ∧ ∃ names, Defines helpers names ∧
      Lays (Settled .glance) .glance helpers 0 0 [] [] names ds := by
  obtain ⟨functions, hfunctions, heq⟩ := exists_of_bind_eq_ok h
  rw [Dialect.start_emitSizes] at hfunctions
  obtain ⟨rfl, rfl⟩ := Prod.mk.inj (Except.ok.inj heq)
  have hpart := Dialect.part_sizes sound_dialect rfl (piece_rootModifier l)
    (fun s _ => part_sizeFunction s) hfunctions
  have hclosed : Closed .glance (Helper.sort functions.uses) := hpart.closed.sort
  obtain ⟨names, hnames, htexts⟩ := lays_definitions (helper .builtin)
    (fun g hg => definition_helper (hclosed g hg).1) hclosed (Subset.refl _) 1 ['\x7d']
  have hcontent : Defines [] [contentName] := defines_nil fun g => by cases g <;> decide
  refine ⟨Helper.nodup_sort _, _, (hcontent.append (defines_sizeNames l.sizesByArea)).append hnames,
    ?_⟩
  have htitle (uses : List Helper) : Piece false .empty uses [] ['\x7d']
      ("object " ++ (l.name ++ "Content") ++ " \x7b") := piece_fill _ [_] [_] (by decide)
    (.cons (piece_title (c := 'C') hname (by decide)) .nil)
  have hblock := lays_block htitle
    (fun uses => lays_contentFunction uses l.sizesByArea) hpart
  have hall := (hblock.append htexts.settled).append (lays_brace 0 []).settled
  rw [List.append_nil] at hall
  exact hall

theorem piece_import (h : name ∈ importNames helpers) :
    Piece false .empty [] [] [] ("import " ++ name) := by
  have hconstants : ∀ s ∈ baseImports ++ Helper.all.flatMap imports, Piece false .empty [] [] [] s :=
    pieces_of_constants (by repeat constructor) (by decide)
  obtain ⟨entry, hentry, rfl⟩ := mem_map.mp h
  obtain ⟨name, hname, heq⟩ := mem_map.mp (Table.mem_of_mem_ofList hentry)
  rw [← heq]
  refine piece_lead (by decide) (hconstants name ?_)
  rcases mem_append.mp hname with hname | hname
  · exact mem_append_left _ hname
  · obtain ⟨g, -, hg⟩ := mem_flatMap.mp hname
    exact mem_append_right _ (mem_flatMap.mpr ⟨g, g.mem_all, hg⟩)

theorem whole_file (hname : l.name.toList.all isWordChar = true)
    (h : file .builtin defaultPackage l = .ok contents) :
    ∃ ds helpers, object .builtin l = .ok (ds, helpers) ∧ Whole .glance ds contents := by
  obtain ⟨⟨ds, helpers⟩, hobject, heq⟩ := exists_of_bind_eq_ok h
  refine ⟨ds, helpers, hobject, ?_⟩
  obtain ⟨hnodup, names, hnames, hlays⟩ := lays_object hname hobject
  have himports : ∀ s ∈ ["", "package com.akylas.weather.widgets.generated", ""] ++
      (importNames helpers).map ("import " ++ ·) ++ [""], Piece false .empty [] [] [] s := by
    intro s hs
    rcases mem_append.mp hs with hs | hs
    · rcases mem_append.mp hs with hs | hs
      · exact pieces_of_constants (by repeat constructor) (by decide) s hs
      · obtain ⟨name, hmem, rfl⟩ := mem_map.mp hs
        exact piece_import hmem
    · exact pieces_of_constants (by repeat constructor) (by decide) s hs
  rw [← Except.ok.inj heq]
  exact whole_of_lays hname himports hnodup hnames hlays

end Kotlin

namespace Swift

theorem piece_sizeName (s : SizeClass) : Piece false .empty uses p p (sizeName s) := by
  refine piece_word (all_isWordChar_append_pascal (by decide) s.id) (.inl ?_)
  rw [sizeName, String.toList_append]
  exact isOrdinary_cons (by decide) _

theorem piece_fits (s : SizeClass) : Piece false .empty uses [] [] (fits s) :=
  (piece_lead (by decide) (operand_numberLiteral _).piece).behind (by decide)
    (operand_numberLiteral _).piece

theorem lays_laterBranches (sizes : List SizeClass) (m : Nat) (p : List Char) :
    Lays (Says .empty) .swiftUI uses (m + 1) (m + 1) ('\x7d' :: p) ('\x7d' :: p) []
      (laterBranches sizes) := by
  fun_induction laterBranches sizes with
  | case1 => exact .nil _ _
  | case2 s =>
    have helse : Piece false .empty uses ['\x7d'] ['\x7d'] "\x7d else \x7b" := piece_constant (by decide)
    exact .append (.text rfl rfl (helse.frame p)) (.text rfl rfl (piece_sizeName s))
  | case3 s rest _ ih =>
    have hbranch : Piece false .empty uses ['\x7d'] ['\x7d'] ("\x7d else if " ++ fits s ++ " \x7b") :=
      piece_fill _ [_] [_] (by decide) (.cons (piece_fits s) .nil)
    exact .append (.append (.text rfl rfl (hbranch.frame p)) (.text rfl rfl (piece_sizeName s))) ih

theorem lays_dispatch (sizes : List SizeClass) (m : Nat) (p : List Char) :
    Lays (Says .empty) .swiftUI uses m m p p [] (dispatch sizes) := by
  unfold dispatch
  split
  · exact .nil m p
  · exact .text rfl rfl (piece_sizeName _)
  · rename_i s rest _
    have hif : Piece false .empty uses [] ['\x7d'] ("if " ++ fits s ++ " \x7b") :=
      piece_fill _ [_] [_] (by decide) (.cons (piece_fits s) .nil)
    have hbrace : Piece false .empty uses ['\x7d'] [] "\x7d" := piece_constant (by decide)
    exact .append (.append (.append (.text rfl rfl (hif.frame p)) (.text rfl rfl (piece_sizeName s)))
      (lays_laterBranches rest m p)) (.text rfl rfl (hbrace.frame p))

theorem fillings_rootLines (l : Layout) : Fillings .empty [] (rootLines l) :=
  .toList fun p _ => piece_fill _ [_] [_] (by decide) (.cons (operand_numberLiteral p).piece .nil)

theorem part_sizeProperty (s : SizeClass) {body : Sheet} (h : body.Sound .swiftUI 0 l.root []) :
    (sizeProperty s body).Part .swiftUI [] := by
  refine Sheet.part_of_sound (m := 1) (p := ['\x7d']) h ?_ (lays_brace 0 [])
  have hmark : Lays Quiet .swiftUI [] 0 0 [] [] [] [.blank, .line "@ViewBuilder"] :=
    lays_of_paragraph rfl (paragraph_of_scan (by repeat constructor) (by decide))
  have hline : Piece false .empty [] [] ['\x7d'] ("private var " ++ sizeName s ++ ": some View \x7b") :=
    piece_fill _ [_] [_] (by decide) (.cons (piece_sizeName s) .nil)
  exact hmark.append (Lays.text rfl rfl hline).quiet

def contentName : List Char := ['c', 'o', 'n', 't', 'e', 'n', 't']

theorem lays_contentFunction (uses : List Helper) (sizes : List SizeClass) :
    Lays Quiet .swiftUI uses 0 0 [] [] [contentName] (contentFunction sizes) := by
  have hopen : Lays Quiet .swiftUI [] 0 1 [] ['\x7d'] [contentName]
      [.line "let data: [String: Any]", .line "let settings: [String: Any]", .blank,
       .enter "var body: some View \x7b", .enter "GeometryReader \x7b geo in",
       .line "content(for: geo.size)", .leave "\x7d", .leave "\x7d", .blank, .line "@ViewBuilder",
       .enter "private func content(for size: CGSize) -> some View \x7b"] :=
    lays_of_paragraph rfl (paragraph_of_scan (by repeat constructor) (by decide))
  exact ((hopen.mono (List.nil_subset _)).append (lays_dispatch sizes 1 _).quiet).append
    (lays_brace 0 [])

theorem lays_view (hname : l.name.toList.all isWordChar = true) (h : view .builtin l = .ok ds) :
    ∃ helpers names, helpers.Nodup ∧ Defines helpers names ∧
      Lays (Settled .swiftUI) .swiftUI helpers 0 0 [] [] names ds := by
  obtain ⟨properties, hproperties, heq⟩ := exists_of_bind_eq_ok h
  rw [Dialect.start_emitSizes] at hproperties
  obtain rfl := Except.ok.inj heq
  have hpart := Dialect.part_sizes sound_dialect rfl (fillings_rootLines l)
    (fun s _ => part_sizeProperty s) hproperties
  rw [flatMap_eq_nil_iff.mpr fun _ _ => rfl] at hpart
  have hclosed : Closed .swiftUI (Helper.sort properties.uses) := hpart.closed.sort
  obtain ⟨names, hnames, htexts⟩ := lays_definitions (helper .builtin)
    (fun g _ => definition_helper g) hclosed (Subset.refl _) 0 []
  have hcontent : Defines [] [contentName] := defines_nil fun g => by cases g <;> decide
  refine ⟨_, _, Helper.nodup_sort _, hcontent.append hnames, ?_⟩
  have htitle (uses : List Helper) : Piece false .empty uses [] ['\x7d']
      ("struct " ++ (l.name ++ "View") ++ ": View \x7b") := piece_fill _ [_] [_] (by decide)
    (.cons (piece_title (c := 'V') hname (by decide)) .nil)
  have hblock := lays_block htitle
    (fun uses => lays_contentFunction uses l.sizesByArea) hpart
  exact (hblock.append (lays_brace 0 []).settled).append htexts.settled

theorem whole_file (hname : l.name.toList.all isWordChar = true)
    (h : file .builtin l = .ok contents) :
    ∃ ds, view .builtin l = .ok ds ∧ Whole .swiftUI ds contents := by
  obtain ⟨ds, hview, heq⟩ := exists_of_bind_eq_ok h
  refine ⟨ds, hview, ?_⟩
  obtain ⟨helpers, names, hnodup, hnames, hlays⟩ := lays_view hname hview
  rw [← Except.ok.inj heq]
  exact whole_of_lays hname (pieces_of_constants (by repeat constructor) (by decide)) hnodup hnames
    hlays

end Swift

end Widgetry.Source
