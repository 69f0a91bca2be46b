import Widgetry.Proofs.Source.Template
import Widgetry.Proofs.Text
import Widgetry.Source.KotlinCode
import Widgetry.Source.SwiftCode

/-!
# Words and literals

Names, variables, numbers and quoted text in generated code are pieces whatever they are made from: a
number has no sign outside its own parentheses, and a quoted text is one literal.
-/

namespace Widgetry

open List

/-! ### Signs of numbers -/

namespace Decimal

open Float.Model

theorem msb_packComponents_positive (e : BitVec Format.binary64.exponentBits)
    (m : BitVec Format.binary64.mantissaBitsWithoutImplicit) :
    (UnpackedFloat.packComponents Format.binary64 .positive e m).msb = false := by
  unfold UnpackedFloat.packComponents
  rw [BitVec.msb_append, if_neg (by decide), BitVec.msb_append, if_neg (by decide)]
  rfl

theorem msb_pack_abs (x : UnpackedFloat) :
    (UnpackedFloat.pack Format.binary64 x.abs).msb = false := by
  cases x with
  | notANumber => rfl
  | infinity s | zero s => exact msb_packComponents_positive _ _
  | finite s m e hm =>
    unfold UnpackedFloat.abs UnpackedFloat.pack
    dsimp only
    split
    · exact msb_packComponents_positive _ _
    · split
      · exact msb_packComponents_positive _ _
      · exact msb_packComponents_positive _ _

theorem isNegative_abs (x : Float) : isNegative x.abs = false := by
  have hmsb : x.abs.toBits.toBitVec.msb = false := msb_pack_abs x.toModel.unpack
  have hlt : x.abs.toBits.toNat < 9223372036854775808 := by
    have h := BitVec.msb_eq_false_iff_two_mul_lt.mp hmsb
    rw [UInt64.toNat_toBitVec] at h
    omega
  unfold isNegative
  rw [Nat.shiftRight_eq_div_pow, Nat.div_eq_of_lt hlt]
  rfl

theorem ofFloat_abs (x : Float) :
    Binary.ofFloat x.abs = .nan ∨ Binary.ofFloat x.abs = .infinite false ∨
      ∃ m q, Binary.ofFloat x.abs = .finite false m q := by
  have hsign : (x.abs.toBits.toNat >>> 63 % 2 == 1) = false := isNegative_abs x
  unfold Binary.ofFloat Binary.ofBits
  rw [hsign]
  simp only
  split
  · split
    · exact .inr (.inl rfl)
    · exact .inl rfl
  · split
    · exact .inr (.inr ⟨_, _, rfl⟩)
    · exact .inr (.inr ⟨_, _, rfl⟩)

theorem toInt64_abs_nonneg (x : Float) : 0 ≤ toInt64 x.abs := by
  have hmax : (0 : Int) ≤ Int64.maxValue.toInt := by decide
  unfold toInt64 truncate
  rcases ofFloat_abs x with h | h | ⟨m, q, h⟩
  · simp only [h, Int.le_refl]
  · simp only [h, Bool.false_eq_true, if_false, hmax]
  · simp only [h, Bool.false_eq_true, if_false]
    have hwhole : (0 : Int) ≤ Int.ofNat (wholePart m q) := Int.natCast_nonneg _
    omega

end Decimal

namespace Source

/-! ### Words -/

variable {w : List Char} {ts : List Token} {s : String} {c : Char} {n k : Nat}
  {escape : Char → String}

theorem Reader.read_word (comments : Bool) (hw : w.all isWordChar = true) (letters : List Char) :
    read comments (.code letters) w = ([], .code (w.reverse ++ letters)) := by
  induction w generalizing letters with
  | nil => rfl
  | cons c w ih =>
    rw [all_cons, Bool.and_eq_true] at hw
    rw [read_cons]
    simp only [step, codeStep, hw.1, if_true, ih hw.2, nil_append, reverse_cons,
      append_assoc, cons_append]

theorem newline_notMem (hw : w.all isWordChar = true) : '\n' ∉ w := by
  intro h
  exact absurd (all_eq_true.mp hw _ h) (by decide)

variable {strict : Bool} {scope : Scope} {uses : List Helper} {p : List Char}

theorem calls_eq_nil (h : .sign '(' ∉ ts) : calls ts = [] := by
  fun_induction calls ts with
  | case1 w rest ih => exact ih fun ht => h (by simp [ht])
  | case2 w rest ih => exact absurd (by simp) h
  | case3 t rest _ _ ih => exact ih fun ht => h (mem_cons_of_mem _ ht)
  | case4 => rfl

/-- Tokens that are neither brackets nor operators leave everything as it is. -/
theorem piece_of_plain (hline : '\n' ∉ s.toList) (hts : Spells s ts)
    (h : ∀ t ∈ ts, t = .literal ∨ t = .sign '.' ∨ ∃ w, t = .word w ∧ Known scope w) :
    Piece strict scope uses p p s := by
  have hparen : .sign '(' ∉ ts := by
    intro ht
    rcases h _ ht with h | h | ⟨w, h, -⟩ <;> simp at h
  have hknown : ∀ w, .word w ∈ ts → Known scope w := by
    intro w hw
    rcases h _ hw with h | h | ⟨v, h, hv⟩
    · cases h
    · cases h
    · rw [Token.word.inj h]
      exact hv
  refine ⟨.plain ?_, hline, ts, hts, ?_, ?_, fun w hw => (hknown w hw).startsDefinition⟩
  · rwa [tokens_eq_of_spelling? (hts true)]
  · intro square
    clear hparen hknown hts
    induction ts with
    | nil => rfl
    | cons t ts ih =>
      have hstep : nest square strict p t = some p := by
        rcases h t mem_cons_self with rfl | rfl | ⟨w, rfl, -⟩
        · simp [nest, Token.separates]
        · cases square <;> simp [nest, Token.separates, Text.isBlank, isOperatorSign, closer?, isCloser]
        · simp [nest, Token.separates]
      rw [foldlM_cons, hstep]
      exact ih fun u hu => h u (mem_cons_of_mem _ hu)
  · intro helper hcalled
    rw [calls_eq_nil hparen] at hcalled
    cases hcalled

theorem spells_word (hw : w.all isWordChar = true) :
    Spells (String.ofList w) (Reader.wordOf w.reverse) := by
  intro comments
  rw [spelling?_eq_some, String.toList_ofList, Reader.read_word comments hw, append_nil]
  exact ⟨[], _, rfl, rfl⟩

section

variable (hs : s.toList.all isWordChar = true)

include hs

theorem piece_word (hknown : Known scope s.toList) :
    Piece strict scope uses p p s := by
  have hspells := spells_word hs
  rw [String.ofList_toList] at hspells
  refine piece_of_plain (newline_notMem hs) hspells ?_
  intro t ht
  unfold Reader.wordOf at ht
  split at ht
  · cases ht
  · rw [mem_singleton.mp ht, reverse_reverse]
    exact .inr (.inr ⟨_, rfl, hknown⟩)

theorem spells_calling (hne : s.toList ≠ []) :
    Spells (s ++ "(") [.word s.toList, .sign '('] := by
  intro comments
  rw [spelling?_eq_some, String.toList_append, Reader.read_append, Reader.read_word comments hs]
  refine ⟨[.word s.toList, .sign '('], [], ?_, rfl⟩
  cases comments <;> simp [Reader.read, Reader.step, Reader.codeStep, Reader.wordOf, isWordChar, hne]

theorem fits_calling (hne : s.toList ≠ []) (hdefinition : startsDefinition s.toList = false)
    (huses : ∀ h : Helper, h.name.toList = s.toList → h ∈ uses) :
    Fits strict uses p (')' :: p) (s ++ "(") := by
  refine ⟨?_, _, spells_calling hs hne, ?_, ?_, ?_⟩
  · rw [String.toList_append, mem_append]
    rintro (h | h)
    · exact newline_notMem hs h
    · exact absurd h (by decide)
  · intro square
    simp [nest, Token.separates, Text.isBlank, isOperatorSign, closer?]
  · intro h hcalled
    simp only [calls, mem_singleton] at hcalled
    exact huses h hcalled
  · intro w hw
    simp only [mem_cons, Token.word.injEq, not_mem_nil, or_false, reduceCtorEq] at hw
    rw [hw]
    exact hdefinition

theorem piece_calling (hne : s.toList ≠ []) (hknown : Known scope s.toList)
    (huses : ∀ h : Helper, h.name.toList = s.toList → h ∈ uses) :
    Piece strict scope uses p (')' :: p) (s ++ "(") := by
  refine ⟨.plain ?_, fits_calling hs hne hknown.startsDefinition huses⟩
  intro w hw
  rw [tokens_eq_of_spelling? (spells_calling hs hne true)] at hw
  simp only [mem_cons, Token.word.injEq, not_mem_nil, or_false, reduceCtorEq] at hw
  rw [hw]
  exact hknown

end

/-- Whether letters make a word that is no helper and may be called. -/
def isCallee (w : List Char) : Bool :=
  !w.isEmpty && w.all isWordChar && isOrdinary w && isCallable [] w

theorem piece_callee (hw : isCallee w = true) :
    Piece strict scope uses p (')' :: p) (String.ofList w ++ "(") := by
  simp only [isCallee, Bool.and_eq_true, Bool.not_eq_true', isEmpty_eq_false_iff] at hw
  obtain ⟨⟨⟨hne, hword⟩, hordinary⟩, hcallable⟩ := hw
  refine piece_calling ?_ ?_ (.inl ?_) ?_
  · rwa [String.toList_ofList]
  · rwa [String.toList_ofList]
  · rwa [String.toList_ofList]
  · intro h hname
    rw [String.toList_ofList] at hname
    rw [← hname] at hcallable
    exact absurd (mem_of_isCallable hcallable) (by simp)

theorem piece_block (hw : isCallee w = true) :
    Piece false scope uses [] ['\x7d'] (String.ofList w ++ " \x7b") := by
  simp only [isCallee, Bool.and_eq_true] at hw
  have hbrace : Piece false scope uses [] ['\x7d'] " \x7b" := piece_constant (by decide)
  refine Piece.append (piece_word ?_ (.inl ?_)) hbrace (.inr (by decide))
  · rw [String.toList_ofList]
    exact hw.1.1.2
  · rw [String.toList_ofList]
    exact hw.1.2

theorem toNat_of_isUpper (h : c.isUpper = true) : 65 ≤ c.val.toNat ∧ c.val.toNat ≤ 90 := by
  obtain ⟨hlow, hhigh⟩ : c.val ≥ 'A'.val ∧ c.val ≤ 'Z'.val := of_decide_eq_true h
  exact ⟨UInt32.le_iff_toNat_le.mp hlow, UInt32.le_iff_toNat_le.mp hhigh⟩

theorem toNat_of_isDigit (h : c.isDigit = true) : 48 ≤ c.val.toNat ∧ c.val.toNat ≤ 57 := by
  obtain ⟨hlow, hhigh⟩ := Bool.and_eq_true_iff.mp h
  exact ⟨UInt32.le_iff_toNat_le.mp (of_decide_eq_true hlow),
    UInt32.le_iff_toNat_le.mp (of_decide_eq_true hhigh)⟩

/-- Loop variables and the keywords of definitions are made of small letters and digits. -/
theorem isOrdinary_of_mem (hc : c.isUpper = true) (hw : c ∈ w) : isOrdinary w = true := by
  have hstem : ∀ stem : String, stem.toList.all (fun d => !d.isUpper) = true → ∀ digits : List Char,
      digits.all Char.isDigit = true → w ≠ stem.toList ++ digits := by
    rintro stem hlower digits hdigits rfl
    rcases mem_append.mp hw with h | h
    · have := all_eq_true.mp hlower c h
      rw [hc] at this
      cases this
    · have hupper := toNat_of_isUpper hc
      have hdigit := toNat_of_isDigit (all_eq_true.mp hdigits c h)
      omega
  have hvariable : isLoopVariable w = false := by
    rw [isLoopVariable, any_eq_false]
    intro stem hmem hloop
    split at hloop
    · rename_i digits hdrop
      rw [Bool.and_eq_true] at hloop
      refine hstem stem ?_ digits hloop.2 (Text.dropPrefix?_eq_some hdrop)
      simp only [mem_cons, not_mem_nil, or_false] at hmem
      rcases hmem with rfl | rfl <;> decide
    · cases hloop
  have hfun : w ≠ "fun".toList := by simpa using hstem "fun" (by decide) [] rfl
  have hfunc : w ≠ "func".toList := by simpa using hstem "func" (by decide) [] rfl
  have hlookup : w ≠ lookupName := by simpa [lookupName] using hstem "lookup" (by decide) [] rfl
  simp only [isOrdinary, startsDefinition, hvariable, Bool.not_false, Bool.and_true, Bool.and_eq_true,
    Bool.not_eq_true', Bool.or_eq_false_iff, beq_eq_false_iff_ne, bne_iff_ne]
  exact ⟨⟨hfun, hfunc⟩, hlookup⟩

theorem isOrdinary_cons (hc : c ∉ ['f', 'i', 'l']) (w : List Char) :
    isOrdinary (c :: w) = true := by
  simp only [mem_cons, not_mem_nil, or_false, not_or] at hc
  obtain ⟨hf, hi, hl⟩ := hc
  simp [isOrdinary, startsDefinition, lookupName, isLoopVariable, Text.dropPrefix?, hf, hl, Ne.symm hi]

/-! ### Digits -/

theorem isDigit_of_mem_toString (h : c ∈ (toString n).toList) : c.isDigit = true := by
  rw [Nat.toString_eq_repr, Nat.toList_repr] at h
  exact Nat.isDigit_of_mem_toDigits (by decide) (by decide) h

theorem isWordChar_of_isDigit (h : c.isDigit = true) : isWordChar c = true := by
  simp [isWordChar, Char.isAlphanum, h]

theorem all_isWordChar_toString (n : Nat) : (toString n).toList.all isWordChar = true :=
  all_eq_true.mpr fun _ h => isWordChar_of_isDigit (isDigit_of_mem_toString h)

theorem toList_itemVariable (hk : 0 < k) :
    (itemVariable k).toList = "item".toList ++ (toString k).toList := by
  rw [itemVariable, if_neg (Nat.ne_of_gt hk), String.toList_append]

theorem toList_indexVariable (k : Nat) :
    (indexVariable k).toList = "index".toList ++ (toString k).toList := by
  rw [indexVariable, String.toList_append]

theorem isLoopVariable_append {stem : String} (hstem : stem ∈ ["item", "index"]) (k : Nat) :
    isLoopVariable (stem.toList ++ (toString k).toList) = true := by
  refine any_eq_true.mpr ⟨stem, hstem, ?_⟩
  simp only [Text.dropPrefix?_append, Bool.and_eq_true, Bool.not_eq_true', all_eq_true]
  refine ⟨isEmpty_eq_false_iff.mpr ?_, fun c hc => isDigit_of_mem_toString hc⟩
  rw [Nat.toString_eq_repr, Nat.toList_repr]
  exact Nat.toDigits_ne_nil

theorem isLoopVariable_itemVariable (hk : 0 < k) :
    isLoopVariable (itemVariable k).toList = true := by
  rw [toList_itemVariable hk]
  exact isLoopVariable_append mem_cons_self k

theorem isLoopVariable_indexVariable (k : Nat) :
    isLoopVariable (indexVariable k).toList = true := by
  rw [toList_indexVariable]
  exact isLoopVariable_append (mem_cons_of_mem _ mem_cons_self) k

theorem all_isWordChar_itemVariable (k : Nat) : (itemVariable k).toList.all isWordChar = true := by
  unfold itemVariable
  split
  · decide
  · rw [String.toList_append, all_append, all_isWordChar_toString]
    decide

theorem piece_itemVariable (hk : 0 < k) (h : (itemVariable k).toList ∈ scope.bound) :
    Piece strict scope uses p p (itemVariable k) :=
  piece_word (all_isWordChar_itemVariable k) (.inr ⟨isLoopVariable_itemVariable hk, h⟩)

theorem piece_indexVariable (h : (indexVariable k).toList ∈ scope.bound) :
    Piece strict scope uses p p (indexVariable k) := by
  refine piece_word ?_ (.inr ⟨isLoopVariable_indexVariable k, h⟩)
  rw [toList_indexVariable, all_append, all_isWordChar_toString]
  decide

/-! ### Numbers -/

theorem piece_digits (hs : ∀ c ∈ s.toList, c.isDigit = true) : Piece strict scope uses p p s := by
  refine piece_word (all_eq_true.mpr fun c hc => isWordChar_of_isDigit (hs c hc)) (.inl ?_)
  cases hcs : s.toList with
  | nil => decide
  | cons c cs =>
    have hc : c.isDigit = true := hs c (hcs ▸ mem_cons_self)
    refine isOrdinary_cons ?_ cs
    intro hmem
    have hletters : ∀ d ∈ ['f', 'i', 'l'], d.isDigit = false := by simp
    rw [hletters c hmem] at hc
    cases hc

theorem piece_zero : Piece strict scope uses p p "0" := by
  refine piece_digits ?_
  intro c hc
  have hzero : "0".toList = ['0'] := rfl
  rw [hzero, mem_singleton] at hc
  rw [hc]
  rfl

theorem Piece.point {t : String} (hs : Piece strict scope uses p p s)
    (ht : Piece strict scope uses p p t) : Piece strict scope uses p p (s ++ "." ++ t) := by
  have hsign : Spells "." [.sign '.'] := fun comments => by cases comments <;> rfl
  have hpoint : Piece strict scope uses p p "." := piece_of_plain (by decide) hsign (by simp)
  exact (hs.append hpoint (.inr (by decide))).append ht
    (.inl (endsApart_constant (by decide) s))

theorem isDigit_of_mem_zeros (h : c ∈ (Decimal.zeros n).toList) : c.isDigit = true := by
  rw [Decimal.zeros, String.toList_ofList] at h
  rw [eq_of_mem_replicate h]
  decide

theorem piece_placePoint (n : Nat) (exponent : Int) :
    Piece strict scope uses p p (Decimal.placePoint false (toString n) exponent) := by
  have hdigits : ∀ c ∈ (toString n).toList, c.isDigit = true := fun _ => isDigit_of_mem_toString
  cases exponent with
  | ofNat k =>
    refine piece_digits ?_
    intro c hc
    simp only [Decimal.placePoint, Bool.false_eq_true, if_false, String.append_empty,
      String.toList_append] at hc
    rcases mem_append.mp hc with h | h
    · exact hdigits c h
    · exact isDigit_of_mem_zeros h
  | negSucc k =>
    simp only [Decimal.placePoint]
    split
    · refine (piece_digits ?_).point (piece_digits ?_)
      · intro c hc
        rw [String.toList_ofList] at hc
        exact hdigits c (mem_of_mem_take hc)
      · intro c hc
        rw [String.toList_ofList] at hc
        exact hdigits c (mem_of_mem_drop hc)
    · rw [show "0." = "0" ++ "." from rfl, String.append_assoc]
      refine piece_zero.point (piece_digits ?_)
      intro c hc
      rw [String.toList_append] at hc
      rcases mem_append.mp hc with h | h
      · exact isDigit_of_mem_zeros h
      · exact hdigits c h

theorem piece_render_abs (x : Float) :
    Piece strict scope uses p p (Decimal.render .plain x.abs) := by
  unfold Decimal.render
  rcases Decimal.ofFloat_abs x with h | h | ⟨m, q, h⟩
  · rw [h]
    exact piece_word (by decide) (.inl (by decide))
  · rw [h]
    exact piece_word (by decide) (.inl (by decide))
  · rw [h]
    simp only [Bool.false_eq_true, if_false, String.empty_append]
    exact piece_placePoint _ _

theorem piece_toString_toInt64_abs (x : Float) :
    Piece strict scope uses p p (toString (Decimal.toInt64 x.abs)) := by
  obtain ⟨n, hn⟩ := Int.eq_ofNat_of_zero_le (Decimal.toInt64_abs_nonneg x)
  rw [hn]
  exact piece_digits fun _ => isDigit_of_mem_toString

/-- Text that is one operand. -/
def Operand (scope : Scope) (uses : List Helper) (s : String) : Prop := Piece true scope uses [] [] s

theorem operand_numberLiteral (x : Float) : Operand scope uses (numberLiteral x) := by
  have hzero : ".0" = "." ++ "0" := rfl
  have hpoint {s : String} (hs : Piece true scope uses [] [] s) :
      Piece true scope uses [] [] (s ++ ".0") := by
    rw [hzero, ← String.append_assoc]
    exact hs.point piece_zero
  have hbody : Operand scope uses
      (if Decimal.isWhole x && x.abs < 1e15 then toString (Decimal.toInt64 x.abs) ++ ".0"
        else if (Decimal.render .plain x.abs).toList.contains '.' then Decimal.render .plain x.abs
        else Decimal.render .plain x.abs ++ ".0") := by
    split
    · exact hpoint (piece_toString_toInt64_abs x)
    · split
      · exact piece_render_abs x
      · exact hpoint (piece_render_abs x)
  unfold numberLiteral
  simp only
  split
  · exact piece_fill _ [_] [_] (by decide) (.cons (hbody.lax false) .nil)
  · exact hbody

/-! ### Quoted text -/

/-- Text that is escaped character by character stays inside its quotes. -/
theorem read_escaped {comments : Bool}
    (hescape : ∀ c, Reader.read comments .literal (escape c).toList = ([], .literal))
    (cs : List Char) :
    Reader.read comments .literal (String.join (cs.map escape)).toList = ([], .literal) := by
  induction cs with
  | nil => rfl
  | cons c cs ih =>
    rw [map_cons, String.join_cons, String.toList_append, Reader.read_append, hescape, ih]
    rfl

theorem newline_notMem_escaped (hescape : ∀ c, '\n' ∉ (escape c).toList) (cs : List Char) :
    '\n' ∉ (String.join (cs.map escape)).toList := by
  induction cs with
  | nil => simp
  | cons c cs ih =>
    rw [map_cons, String.join_cons, String.toList_append, mem_append]
    rintro (h | h)
    · exact hescape c h
    · exact ih h

theorem operand_quoted
    (hread : ∀ comments c, Reader.read comments .literal (escape c).toList = ([], .literal))
    (hline : ∀ c, '\n' ∉ (escape c).toList) (s : String) :
    Operand scope uses ("\"" ++ String.join (s.toList.map escape) ++ "\"") := by
  have hspells : Spells ("\"" ++ String.join (s.toList.map escape) ++ "\"") [.literal] := by
    intro comments
    rw [spelling?_eq_some]
    refine ⟨[.literal], [], ?_, by simp [Reader.wordOf]⟩
    rw [String.toList_append, String.toList_append, append_assoc, Reader.read_append,
      Reader.read_append, show Reader.read comments (.code []) "\"".toList = ([], .literal) from rfl]
    rw [read_escaped (hread comments) s.toList]
    rfl
  refine piece_of_plain ?_ hspells (by simp)
  rw [String.toList_append, String.toList_append, mem_append, mem_append]
  rintro ((h | h) | h)
  · exact absurd h (by decide)
  · exact newline_notMem_escaped hline s.toList h
  · exact absurd h (by decide)

theorem read_literal_singleton (comments : Bool) (hescape : c ≠ '\\') (hquote : c ≠ '"') :
    Reader.read comments .literal (String.singleton c).toList = ([], .literal) := by
  rw [String.toList_singleton, Reader.read_cons]
  simp only [Reader.step, if_neg hescape, if_neg hquote]
  rfl

theorem Kotlin.operand_quote (s : String) : Operand scope uses (Kotlin.quote s) := by
  refine operand_quoted ?_ ?_ s
  · intro comments c
    unfold Kotlin.escape
    split
    iterate 6 rfl
    · exact read_literal_singleton comments ‹_› ‹_›
  · intro c
    unfold Kotlin.escape
    split
    iterate 6 decide
    · rw [String.toList_singleton, mem_singleton]
      exact Ne.symm ‹_›

theorem Swift.operand_quote (s : String) : Operand scope uses (Swift.quote s) := by
  refine operand_quoted ?_ ?_ s
  · intro comments c
    unfold Swift.escape
    split
    iterate 5 rfl
    · exact read_literal_singleton comments ‹_› ‹_›
  · intro c
    unfold Swift.escape
    split
    iterate 5 decide
    · rw [String.toList_singleton, mem_singleton]
      exact Ne.symm ‹_›

/-! ### Hexadecimal digits -/

theorem exists_digitChar_of_mem_toDigits (h : c ∈ Nat.toDigits 16 n) :
    ∃ d : Fin 16, c = Nat.digitChar d := by
  induction n using Nat.strongRecOn with
  | _ n ih =>
    rw [Nat.toDigits_eq_if (by decide)] at h
    split at h
    · rename_i hn
      exact ⟨⟨n, hn⟩, mem_singleton.mp h⟩
    · rename_i hn
      rcases mem_append.mp h with h | h
      · exact ih (n / 16) (by omega) h
      · exact ⟨⟨n % 16, by omega⟩, mem_singleton.mp h⟩

theorem all_isWordChar_hexUpper (width n : Nat) :
    (Text.hexUpper width n).toList.all isWordChar = true := by
  rw [all_eq_true]
  intro c hc
  rw [Text.hexUpper, String.toList_ofList] at hc
  rcases mem_append.mp hc with h | h
  · rw [eq_of_mem_replicate h]
    decide
  · obtain ⟨d, hd, rfl⟩ := mem_map.mp h
    obtain ⟨k, rfl⟩ := exists_digitChar_of_mem_toDigits hd
    have hdigit : ∀ k : Fin 16, isWordChar (Nat.digitChar k).toUpper = true := by decide
    exact hdigit k

theorem piece_hexUpper (width n : Nat) :
    Piece strict scope uses p p ("0x" ++ Text.hexUpper width n) := by
  rw [show "0x" = String.ofList ['0', 'x'] from rfl]
  refine piece_word ?_ (.inl ?_)
  · rw [String.toList_append, all_append, all_isWordChar_hexUpper]
    decide
  · rw [String.toList_append, String.toList_ofList]
    exact isOrdinary_cons (by decide) _

theorem Kotlin.operand_color (c : Color) : Operand scope uses (Kotlin.color c) := by
  have htext : Kotlin.color c = "Color(" ++ ("0x" ++ Text.hexUpper 8 c.argb) ++ ")" := by
    rw [← String.append_assoc]
    rfl
  rw [htext]
  exact piece_fill _ [_] [_] (by decide) (.cons (piece_hexUpper 8 c.argb) .nil)

theorem Swift.operand_color (c : Color) : Operand scope [.colorHex] (Swift.color c) := by
  have htext : Swift.color c = "colorHex(" ++ ("0x" ++ Text.hexUpper 8 c.argb) ++ ")" := by
    rw [← String.append_assoc]
    rfl
  rw [htext]
  exact piece_fill_calling [.colorHex] _ [_] [_] (Subset.refl _) (by decide)
    (.cons (piece_hexUpper 8 c.argb) .nil)

end Source

end Widgetry
