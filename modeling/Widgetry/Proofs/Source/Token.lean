import Widgetry.Source.Sheet

/-!
# Tokens of source text

Source text is read from left to right into words, string literals and single signs. What stands in a
literal is passed over, and so, if that is asked for, is a comment up to the end of its line.

Texts that are put together are read apart: where no word runs over the seam, the tokens of the whole
are those of its parts.
-/

namespace Widgetry.Source

open List

/-- A literal that does not end is `unclosed`. -/
inductive Token where
  | word (letters : List Char)
  | sign (c : Char)
  | literal
  | unclosed
deriving DecidableEq

def isWordChar (c : Char) : Bool := c.isAlphanum || c == '_'

/-- Where a reader stands: in code, having read the given letters of a word, the last one first; in
code after a slash; in a comment; in a literal; in a literal after a backslash. -/
inductive Reader where
  | code (letters : List Char)
  | slash
  | comment
  | literal
  | escape
deriving DecidableEq

namespace Reader

def wordOf (letters : List Char) : List Token :=
  if letters.isEmpty then [] else [.word letters.reverse]

def codeStep (comments : Bool) (letters : List Char) (c : Char) : List Token × Reader :=
  if isWordChar c then ([], .code (c :: letters))
  else if c = '"' then (wordOf letters, .literal)
  else if comments && c == '/' then (wordOf letters, .slash)
  else (wordOf letters ++ [.sign c], .code [])

def step (comments : Bool) : Reader → Char → List Token × Reader
  | .code letters, c => codeStep comments letters c
  | .slash, c =>
      if c = '/' then ([], .comment)
      else (.sign '/' :: (codeStep comments [] c).1, (codeStep comments [] c).2)
  | .comment, c => if c = '\n' then ([.sign c], .code []) else ([], .comment)
  | .literal, c =>
      if c = '\\' then ([], .escape)
      else if c = '"' then ([.literal], .code [])
      else ([], .literal)
  | .escape, _ => ([], .literal)

def read (comments : Bool) : Reader → List Char → List Token × Reader
  | r, [] => ([], r)
  | r, c :: cs =>
      let (ts, r') := step comments r c
      let (us, r'') := read comments r' cs
      (ts ++ us, r'')

def pending : Reader → List Token
  | .code letters => wordOf letters
  | .slash => [.sign '/']
  | .comment => []
  | .literal => [.unclosed]
  | .escape => [.unclosed]

theorem read_cons (comments : Bool) (r : Reader) (c : Char) (cs : List Char) :
    read comments r (c :: cs) =
      ((step comments r c).1 ++ (read comments (step comments r c).2 cs).1,
        (read comments (step comments r c).2 cs).2) := rfl

theorem read_append (comments : Bool) (r : Reader) (cs ds : List Char) :
    read comments r (cs ++ ds) =
      ((read comments r cs).1 ++ (read comments (read comments r cs).2 ds).1,
        (read comments (read comments r cs).2 ds).2) := by
  induction cs generalizing r with
  | nil => rfl
  | cons c cs ih =>
    rw [cons_append, read_cons, ih, read_cons]
    simp only [append_assoc]

end Reader

def tokens (comments : Bool) (s : String) : List Token :=
  let (ts, r) := Reader.read comments (.code []) s.toList
  ts ++ r.pending

def spelling? (comments : Bool) (cs : List Char) : Option (List Token) :=
  match Reader.read comments (.code []) cs with
  | (ts, .code letters) => some (ts ++ Reader.wordOf letters)
  | _ => none

/-- A text that ends in code has certain tokens, whether or not comments are passed over. -/
def Spells (s : String) (ts : List Token) : Prop :=
  ∀ comments, spelling? comments s.toList = some ts

def endsApart (cs : List Char) : Bool :=
  match cs.getLast? with
  | some c => !isWordChar c
  | none => true

/-- Neither a word nor the operands of a call go on in front of the characters. -/
def startsApart (cs : List Char) : Bool :=
  match cs.head? with
  | some c => !isWordChar c && c != '('
  | none => true

variable {comments : Bool} {cs : List Char} {ts us : List Token} {s : String}

theorem spelling?_eq_some :
    spelling? comments cs = some ts ↔ ∃ us letters,
      Reader.read comments (.code []) cs = (us, .code letters) ∧
        ts = us ++ Reader.wordOf letters := by
  unfold spelling?
  constructor
  · intro h
    split at h
    · rename_i us letters hread
      exact ⟨us, letters, hread, (Option.some.inj h).symm⟩
    · cases h
  · rintro ⟨us, letters, hread, rfl⟩
    simp only [hread]

theorem tokens_eq_of_spelling? (h : spelling? comments s.toList = some ts) :
    tokens comments s = ts := by
  obtain ⟨us, letters, hread, rfl⟩ := spelling?_eq_some.mp h
  simp only [tokens, hread, Reader.pending]

namespace Reader

variable {comments : Bool}

theorem codeStep_of_apart {c : Char} (hc : isWordChar c = false) (letters : List Char) :
    codeStep comments letters c =
      (wordOf letters ++ (codeStep comments [] c).1, (codeStep comments [] c).2) := by
  simp only [codeStep, hc, Bool.false_eq_true, if_false]
  split
  · simp [wordOf]
  · split
    · simp [wordOf]
    · simp [wordOf]

/-- A word ends where a text follows that starts with no letter. -/
theorem read_code_of_startsApart (hcs : startsApart cs = true) (letters : List Char)
    {last : List Char} (h : read comments (.code []) cs = (us, .code last)) :
    ∃ vs last', read comments (.code letters) cs = (vs, .code last') ∧
      vs ++ wordOf last' = wordOf letters ++ (us ++ wordOf last) := by
  unfold startsApart at hcs
  cases cs with
  | nil =>
    obtain ⟨rfl, hlast⟩ := Prod.mk.inj h
    obtain rfl := Reader.code.inj hlast
    exact ⟨[], letters, rfl, by simp [wordOf]⟩
  | cons c cs =>
    have hc : isWordChar c = false := by
      simp only [List.head?_cons, Bool.and_eq_true, Bool.not_eq_true'] at hcs
      exact hcs.1
    rw [read_cons] at h ⊢
    simp only [step] at h ⊢
    rw [codeStep_of_apart hc]
    obtain ⟨rfl, hlast⟩ := Prod.mk.inj h
    refine ⟨_, last, by rw [hlast], ?_⟩
    simp only [append_assoc]

variable {r : Reader} {letters : List Char}

/-- What a sign leaves behind when it ends in code: no letters, and a last token that is no word. -/
theorem step_apart {c : Char} (hc : isWordChar c = false)
    (h : (step comments r c).2 = .code letters) :
    letters = [] ∧ ∃ ts t, (step comments r c).1 = ts ++ [t] ∧ ∀ w, t ≠ .word w := by
  have hcode : ∀ ls, (codeStep comments ls c).2 = .code letters →
      letters = [] ∧ (codeStep comments ls c).1 = wordOf ls ++ [.sign c] := by
    intro ls hls
    simp only [codeStep, hc, Bool.false_eq_true, if_false] at hls ⊢
    split at hls
    · cases hls
    · split at hls
      · cases hls
      · rename_i hquote hslash
        rw [if_neg hquote, if_neg hslash]
        exact ⟨(Reader.code.inj hls).symm, rfl⟩
  cases r with
  | code ls =>
    obtain ⟨hletters, htokens⟩ := hcode ls h
    exact ⟨hletters, _, _, htokens, nofun⟩
  | slash =>
    simp only [step] at h ⊢
    split at h
    · cases h
    · rename_i hslash
      obtain ⟨hletters, htokens⟩ := hcode [] h
      rw [if_neg hslash, htokens]
      exact ⟨hletters, .sign '/' :: wordOf [], .sign c, rfl, nofun⟩
  | comment =>
    simp only [step] at h ⊢
    split at h
    · rename_i hnewline
      rw [if_pos hnewline]
      exact ⟨(Reader.code.inj h).symm, [], _, rfl, nofun⟩
    · cases h
  | literal =>
    simp only [step] at h ⊢
    split at h
    · cases h
    · split at h
      · rename_i hescape hquote
        rw [if_neg hescape, if_pos hquote]
        exact ⟨(Reader.code.inj h).symm, [], _, rfl, nofun⟩
      · cases h
  | escape => cases h

theorem read_of_endsApart (hcs : endsApart cs = true)
    (h : read comments (.code []) cs = (us, .code letters)) :
    letters = [] ∧ ∀ w, us.getLast? ≠ some (.word w) := by
  unfold endsApart at hcs
  rcases eq_nil_or_concat cs with rfl | ⟨cs, c, rfl⟩
  · obtain ⟨rfl, hletters⟩ := Prod.mk.inj h
    exact ⟨(Reader.code.inj hletters).symm, nofun⟩
  · rw [concat_eq_append] at h hcs
    have hc : isWordChar c = false := by simpa using hcs
    rw [read_append] at h
    obtain ⟨rfl, hletters⟩ := Prod.mk.inj h
    obtain ⟨hnil, ts, t, hts, ht⟩ := step_apart hc hletters
    refine ⟨hnil, ?_⟩
    intro w hw
    simp only [hts, read, append_nil, ← append_assoc,
      List.getLast?_concat] at hw
    exact ht w (Option.some.inj hw)

theorem head?_read_literal (comments : Bool) (cs : List Char) (hr : r = .literal ∨ r = .escape) :
    (read comments r cs).1.head? = none ∨ (read comments r cs).1.head? = some .literal := by
  induction cs generalizing r with
  | nil => exact .inl rfl
  | cons c cs ih =>
    rw [read_cons]
    rcases hr with rfl | rfl
    · simp only [step]
      split
      · exact ih (.inr rfl)
      · split
        · exact .inr rfl
        · exact ih (.inl rfl)
    · exact ih (.inl rfl)

end Reader

theorem spelling?_append {ds : List Char} (hcs : spelling? comments cs = some ts)
    (hds : spelling? comments ds = some us) (h : endsApart cs = true ∨ startsApart ds = true) :
    spelling? comments (cs ++ ds) = some (ts ++ us) := by
  obtain ⟨vs, letters, hread, rfl⟩ := spelling?_eq_some.mp hcs
  obtain ⟨ws, last, hnext, rfl⟩ := spelling?_eq_some.mp hds
  rw [spelling?_eq_some, Reader.read_append, hread]
  rcases h with h | h
  · obtain ⟨rfl, -⟩ := Reader.read_of_endsApart h hread
    refine ⟨vs ++ ws, last, by rw [hnext], ?_⟩
    simp [Reader.wordOf]
  · obtain ⟨xs, last', hxs, hsame⟩ := Reader.read_code_of_startsApart h letters hnext
    refine ⟨vs ++ xs, last', by rw [hxs], ?_⟩
    rw [append_assoc, append_assoc, hsame]

theorem Spells.append {a b : String} (ha : Spells a ts) (hb : Spells b us)
    (h : endsApart a.toList = true ∨ startsApart b.toList = true) : Spells (a ++ b) (ts ++ us) := by
  intro comments
  rw [String.toList_append]
  exact spelling?_append (ha comments) (hb comments) h

theorem Spells.getLast?_ne_word (h : Spells s ts) (hs : endsApart s.toList = true) (w : List Char) :
    ts.getLast? ≠ some (.word w) := by
  obtain ⟨us, letters, hread, rfl⟩ := spelling?_eq_some.mp (h false)
  obtain ⟨rfl, hlast⟩ := Reader.read_of_endsApart hs hread
  simpa [Reader.wordOf] using hlast w

theorem Spells.head?_ne_paren (h : Spells s ts) (hs : startsApart s.toList = true) :
    ts.head? ≠ some (.sign '(') := by
  obtain ⟨us, letters, hread, rfl⟩ := spelling?_eq_some.mp (h false)
  have hword : (Reader.wordOf letters).head? ≠ some (.sign '(') := by
    unfold Reader.wordOf
    split <;> simp
  unfold startsApart at hs
  cases hcs : s.toList with
  | nil =>
    rw [hcs] at hread
    obtain ⟨rfl, -⟩ := Prod.mk.inj hread
    exact hword
  | cons c cs =>
    rw [hcs] at hread hs
    simp only [List.head?_cons, Bool.and_eq_true, Bool.not_eq_true', bne_iff_ne] at hs
    obtain ⟨hc, hparen⟩ := hs
    rw [Reader.read_cons] at hread
    obtain ⟨rfl, -⟩ := Prod.mk.inj hread
    simp only [Reader.step, Reader.codeStep, hc, Bool.false_eq_true, if_false, Bool.false_and]
    split
    · -- a literal comes first, if it is closed at all
      rcases Reader.head?_read_literal false cs (.inl rfl) with hnone | hsome
      · rw [List.head?_eq_none_iff] at hnone
        simpa [hnone, Reader.wordOf] using hword
      · simp [Reader.wordOf, List.head?_append, hsome]
    · simpa [Reader.wordOf] using hparen

end Widgetry.Source
