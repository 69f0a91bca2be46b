import Mathlib.Data.List.Basic
import Widgetry.Proofs.Computation
import Widgetry.Expr.Elaboration
import Widgetry.Expr.Evaluation
import Widgetry.Proofs.Expr.Typing

/-!
# Date patterns, read and written

What the texts of a pattern are, and that the `strftime` text of a pattern is read back as it.
-/

namespace Widgetry

open List

namespace Date

open Text (isAsciiLetter)

/-- Text with every quote written twice. -/
def doubled (cs : List Char) : List Char := cs.flatMap fun c => if c = '\'' then ['\'', '\''] else [c]

/-- The texts of a pattern, read from the left. -/
inductive Spells : List Char → Pattern → Prop
  | nil : Spells [] []
  | quote {cs : List Char} {p : Pattern} (h : Spells cs p) :
      Spells ('\'' :: '\'' :: cs) (.literal '\'' :: p)
  | quoted {c : Char} {body cs : List Char} {p : Pattern} (hopen : c ≠ '\'')
      (hclose : cs.head? ≠ some '\'') (h : Spells cs p) :
      Spells ('\'' :: doubled (c :: body) ++ '\'' :: cs) ((c :: body).map .literal ++ p)
  | run {letter : Char} {n : Nat} {f : Field} {cs : List Char} {p : Pattern}
      (hletter : isAsciiLetter letter = true) (hfield : field? letter n = some f)
      (hmaximal : cs.head? ≠ some letter) (h : Spells cs p) :
      Spells (List.replicate n letter ++ cs) (.field f :: p)
  | other {c : Char} {cs : List Char} {p : Pattern} (hquote : c ≠ '\'')
      (hletter : isAsciiLetter c = false) (hplain : c ∉ ['[', ']', '\x7b', '\x7d', '#'])
      (h : Spells cs p) : Spells (c :: cs) (.literal c :: p)

section Quoted

theorem doubled_cons (c : Char) (cs : List Char) :
    doubled (c :: cs) = (if c = '\'' then ['\'', '\''] else [c]) ++ doubled cs := rfl

attribute [local simp] readFrom in
theorem readFrom_quoted_pair (cs : List Char) : readFrom .quoted ('\'' :: '\'' :: cs) =
    (readFrom .quoted cs).map (.literal '\'' :: ·) := by
  simp

theorem readFrom_quoted_close {cs : List Char} (h : cs.head? ≠ some '\'') :
    readFrom .quoted ('\'' :: cs) = readFrom .plain cs := by
  rw [readFrom]
  rintro cs rfl
  exact h rfl

theorem readFrom_quoted_cons {c : Char} (h : c ≠ '\'') (cs : List Char) :
    readFrom .quoted (c :: cs) = (readFrom .quoted cs).map (.literal c :: ·) := by
  rw [readFrom]
  · rintro _ rfl
    exact absurd rfl h
  · exact h

theorem readFrom_quoted_doubled {cs : List Char} {p : Pattern} (hclose : cs.head? ≠ some '\'')
    (h : readFrom .plain cs = .ok p) (body : List Char) :
    readFrom .quoted (doubled body ++ '\'' :: cs) = .ok (body.map .literal ++ p) := by
  induction body with
  | nil => rw [doubled, flatMap_nil, nil_append, readFrom_quoted_close hclose, h]; rfl
  | cons c body ih =>
    rw [doubled_cons]
    by_cases hc : c = '\''
    · subst hc
      rw [if_pos rfl, append_assoc]
      exact (readFrom_quoted_pair _).trans (congrArg _ ih)
    · rw [if_neg hc, append_assoc]
      exact (readFrom_quoted_cons hc _).trans (congrArg _ ih)

theorem exists_of_readFrom_quoted {cs : List Char} {p : Pattern} (h : readFrom .quoted cs = .ok p) :
    ∃ body rest q, cs = doubled body ++ '\'' :: rest ∧ rest.head? ≠ some '\'' ∧
      p = body.map .literal ++ q ∧ readFrom .plain rest = .ok q := by
  -- a doubled quote takes two characters at once
  induction hn : cs.length using Nat.strongRecOn generalizing cs p with
  | ind n ih =>
    subst hn
    cases cs with
    | nil => cases h
    | cons c cs =>
      by_cases hc : c = '\''
      · subst hc
        by_cases hclose : cs.head? = some '\''
        · obtain ⟨cs, rfl⟩ := List.head?_eq_some_iff.mp hclose
          rw [readFrom_quoted_pair] at h
          obtain ⟨p, hp, rfl⟩ := exists_of_map_eq_ok h
          obtain ⟨body, rest, q, rfl, hrest, rfl, hq⟩ := ih _ (by simp only [length_cons]; omega) hp rfl
          exact ⟨'\'' :: body, rest, q, rfl, hrest, rfl, hq⟩
        · exact ⟨[], cs, p, rfl, hclose, rfl, readFrom_quoted_close hclose ▸ h⟩
      · rw [readFrom_quoted_cons hc] at h
        obtain ⟨p, hp, rfl⟩ := exists_of_map_eq_ok h
        obtain ⟨body, rest, q, rfl, hrest, rfl, hq⟩ := ih _ (by simp) hp rfl
        refine ⟨c :: body, rest, q, ?_, hrest, rfl, hq⟩
        rw [doubled_cons, if_neg hc]
        rfl

end Quoted

section Unquoted

variable {mode : Mode} {letter c : Char} {cs : List Char}

theorem readFrom_pair (h : mode ≠ .quoted) (cs : List Char) : readFrom mode ('\'' :: '\'' :: cs) =
    mode.flush >>= fun done => (readFrom .plain cs).map (done ++ .literal '\'' :: ·) := by
  rw [readFrom]
  · rfl
  · exact h

theorem readFrom_open (h : mode ≠ .quoted) (hopen : cs.head? ≠ some '\'') :
    readFrom mode ('\'' :: cs) =
      mode.flush >>= fun done => (readFrom .quoted cs).map (done ++ ·) := by
  rw [readFrom]
  · rfl
  · rintro cs rfl
    exact absurd rfl hopen
  · rintro cs - rfl
    exact hopen rfl
  · exact h

theorem readFrom_other (h : mode ≠ .quoted) (hquote : c ≠ '\'') (hletter : isAsciiLetter c = false)
    (cs : List Char) : readFrom mode (c :: cs) =
      mode.flush >>= fun done =>
        if isReserved c then .error (.unquoted c)
        else (readFrom .plain cs).map (done ++ .literal c :: ·) := by
  have hcont : ∀ done, (do
      if isReserved c then throw (.unquoted c)
      let rest ← readFrom .plain cs
      return done ++ .literal c :: rest : Except PatternError Pattern) =
        if isReserved c then .error (.unquoted c)
        else (readFrom .plain cs).map (done ++ .literal c :: ·) := by
    intro done
    cases isReserved c <;> rfl
  simp only [← hcont]
  cases mode with
  | quoted => exact absurd rfl h
  | plain | run letter n =>
    rw [readFrom, if_neg (by simp [hletter])]
    all_goals simp_all

theorem ne_quote_of_isAsciiLetter (h : isAsciiLetter c = true) : c ≠ '\'' := by
  rintro rfl
  exact absurd h (by decide)

theorem readFrom_plain_letter (h : isAsciiLetter c = true) (cs : List Char) :
    readFrom .plain (c :: cs) = readFrom (.run c 1) cs := by
  have hquote := ne_quote_of_isAsciiLetter h
  rw [readFrom]
  · rw [if_pos h]
  all_goals simp_all

theorem readFrom_run_letter (h : isAsciiLetter c = true) (letter : Char) (n : Nat) (cs : List Char) :
    readFrom (.run letter n) (c :: cs) =
      if c = letter then readFrom (.run letter (n + 1)) cs
      else Mode.flush (.run letter n) >>= fun done =>
        (readFrom (.run c 1) cs).map (done ++ ·) := by
  have hquote := ne_quote_of_isAsciiLetter h
  rw [readFrom]
  · rw [if_pos h]
    rfl
  all_goals simp_all

theorem readFrom_run_stop {n : Nat} (h : cs.head? ≠ some letter) :
    readFrom (.run letter n) cs = Mode.flush (.run letter n) >>= fun done =>
      (readFrom .plain cs).map (done ++ ·) := by
  have hmode : Mode.run letter n ≠ .quoted := by simp
  have hplain : Mode.plain ≠ .quoted := by simp
  cases cs with
  | nil =>
    change Mode.flush (.run letter n) = _
    cases Mode.flush (.run letter n) with
    | error e => rfl
    | ok done => exact congrArg Except.ok (append_nil done).symm
  | cons c cs =>
    by_cases hquote : c = '\''
    · subst hquote
      by_cases hopen : cs.head? = some '\''
      · obtain ⟨cs, rfl⟩ := List.head?_eq_some_iff.mp hopen
        rw [readFrom_pair hmode, readFrom_pair hplain]
        congr 1
        funext done
        cases readFrom .plain cs <;> rfl
      · rw [readFrom_open hmode hopen, readFrom_open hplain hopen]
        congr 1
        funext done
        cases readFrom .quoted cs <;> rfl
    · by_cases hletter : isAsciiLetter c = true
      · rw [readFrom_run_letter hletter, readFrom_plain_letter hletter, if_neg (by simpa using h)]
      · rw [Bool.not_eq_true] at hletter
        rw [readFrom_other hmode hquote hletter, readFrom_other hplain hquote hletter]
        congr 1
        funext done
        cases isReserved c <;> cases readFrom .plain cs <;> rfl

theorem readFrom_run_replicate {f : Field} {n : Nat} {p : Pattern} (hletter : isAsciiLetter letter = true)
    (hmaximal : cs.head? ≠ some letter) (h : readFrom .plain cs = .ok p) (k : Nat)
    (hfield : field? letter (n + k) = some f) :
    readFrom (.run letter n) (List.replicate k letter ++ cs) = .ok (.field f :: p) := by
  induction k generalizing n with
  | zero =>
    rw [replicate_zero, nil_append, readFrom_run_stop hmaximal, h, Mode.flush]
    rw [Nat.add_zero] at hfield
    rw [hfield]
    rfl
  | succ k ih =>
    rw [replicate_succ, cons_append, readFrom_run_letter hletter, if_pos rfl]
    exact ih (by rwa [Nat.add_right_comm, Nat.add_assoc])

theorem exists_of_readFrom_stop {n : Nat} {p : Pattern} (hstop : cs.head? ≠ some letter)
    (h : readFrom (.run letter n) cs = .ok p) :
    ∃ f q, field? letter n = some f ∧ p = .field f :: q ∧ readFrom .plain cs = .ok q := by
  rw [readFrom_run_stop hstop, Mode.flush] at h
  cases hf : field? letter n with
  | none =>
    rw [hf] at h
    cases h
  | some f =>
    rw [hf] at h
    obtain ⟨q, hq, rfl⟩ := exists_of_map_eq_ok h
    exact ⟨f, q, rfl, rfl, hq⟩

theorem exists_of_readFrom_run {n : Nat} {p : Pattern} (hletter : isAsciiLetter letter = true)
    (h : readFrom (.run letter n) cs = .ok p) :
    ∃ k rest f q, cs = List.replicate k letter ++ rest ∧ rest.head? ≠ some letter ∧
      field? letter (n + k) = some f ∧ p = .field f :: q ∧ readFrom .plain rest = .ok q := by
  induction cs generalizing n with
  | nil =>
    obtain ⟨f, q, hf, rfl, hq⟩ := exists_of_readFrom_stop (by simp) h
    exact ⟨0, [], f, q, rfl, by simp, hf, rfl, hq⟩
  | cons c cs ih =>
    by_cases hc : c = letter
    · subst hc
      rw [readFrom_run_letter hletter, if_pos rfl] at h
      obtain ⟨k, rest, f, q, rfl, hrest, hf, rfl, hq⟩ := ih h
      exact ⟨k + 1, rest, f, q, rfl, hrest, by rwa [Nat.add_comm k, ← Nat.add_assoc], rfl, hq⟩
    · have hstop : (c :: cs).head? ≠ some letter := by simpa using hc
      obtain ⟨f, q, hf, rfl, hq⟩ := exists_of_readFrom_stop hstop h
      exact ⟨0, c :: cs, f, q, rfl, hstop, hf, rfl, hq⟩

theorem field?_zero (letter : Char) : field? letter 0 = none := by
  unfold field?
  split <;> simp_all

end Unquoted

theorem isReserved_eq_false_iff {c : Char} :
    isReserved c = false ↔ c ∉ ['[', ']', '\x7b', '\x7d', '#'] := by
  simp [isReserved, and_assoc]

theorem readFrom_plain_eq_ok_iff {cs : List Char} {p : Pattern} :
    readFrom .plain cs = .ok p ↔ Spells cs p := by
  constructor
  · intro h
    induction hn : cs.length using Nat.strongRecOn generalizing cs p with
    | ind n ih =>
      subst hn
      cases cs with
      | nil =>
        cases h
        exact .nil
      | cons c cs =>
        by_cases hquote : c = '\''
        · subst hquote
          by_cases hopen : cs.head? = some '\''
          · obtain ⟨cs, rfl⟩ := List.head?_eq_some_iff.mp hopen
            rw [readFrom_pair (by simp)] at h
            obtain ⟨q, hq, rfl⟩ := exists_of_map_eq_ok h
            exact .quote (ih _ (by simp only [length_cons]; omega) hq rfl)
          · rw [readFrom_open (by simp) hopen] at h
            obtain ⟨r, hr, rfl⟩ := exists_of_map_eq_ok h
            obtain ⟨body, rest, q, rfl, hclose, rfl, hq⟩ := exists_of_readFrom_quoted hr
            have hq := ih _ (by simp only [length_cons, length_append]; omega) hq rfl
            cases body with
            | nil => exact absurd rfl hopen
            | cons c body =>
              refine .quoted ?_ hclose hq
              rintro rfl
              exact hopen rfl
        · by_cases hletter : isAsciiLetter c = true
          · rw [readFrom_plain_letter hletter] at h
            obtain ⟨k, rest, f, q, rfl, hrest, hf, rfl, hq⟩ := exists_of_readFrom_run hletter h
            rw [Nat.add_comm] at hf
            exact .run (n := k + 1) hletter hf hrest (ih _ (by
              simp only [length_cons, length_append]
              omega) hq rfl)
          · rw [Bool.not_eq_true] at hletter
            rw [readFrom_other (by simp) hquote hletter] at h
            cases hreserved : isReserved c with
            | true =>
              rw [hreserved] at h
              cases h
            | false =>
              rw [hreserved] at h
              obtain ⟨q, hq, rfl⟩ := exists_of_map_eq_ok h
              exact .other hquote hletter (isReserved_eq_false_iff.mp hreserved)
                (ih _ (by simp) hq rfl)
  · intro h
    induction h with
    | nil => rfl
    | quote h ih => rw [readFrom_pair (by simp), ih]; rfl
    | quoted hopen hclose h ih =>
      rw [cons_append, readFrom_open (by simp), readFrom_quoted_doubled hclose ih]
      · rfl
      · rw [doubled_cons, if_neg hopen]
        simpa using hopen
    | @run letter n f cs p hletter hfield hmaximal h ih =>
      cases n with
      | zero => rw [field?_zero] at hfield; cases hfield
      | succ n =>
        rw [replicate_succ, cons_append, readFrom_plain_letter hletter]
        exact readFrom_run_replicate hletter hmaximal ih n (by rwa [Nat.add_comm])
    | other hquote hletter hplain h ih =>
      rw [readFrom_other (by simp) hquote hletter, isReserved_eq_false_iff.mpr hplain, ih]
      rfl

theorem readStrftime_flatMap (p : Pattern) : readStrftime (p.flatMap Token.strftime) = p := by
  induction p with
  | nil => rfl
  | cons token p ih =>
    rw [flatMap_cons]
    cases token with
    | literal c =>
      by_cases hc : c = '%'
      · subst hc
        exact congrArg _ ih
      · simp [Token.strftime, hc, readStrftime, ih]
    | field f => cases f <;> exact congrArg _ ih

end Date

theorem Operator.apply_formatDate {s : String} {p : Date.Pattern} (h : Date.Pattern.parse s = .ok p)
    (o : Outcome) :
    apply .formatDate [o, .ok (.string s)] = o.map fun v => .string (v.formatDate p) := by
  have htext : textAt [o, .ok (.string s)] 1 = .ok s := rfl
  simp only [apply, htext, bind, Except.bind, h]
  cases o <;> rfl

namespace Elaboration

variable {env : Env} {want : Option ValueType} {place : Location} {args : List Expr} {t : Term}

theorem exists_of_precheck_formatDate {label : ValueType} (hlen : args.length = 2)
    (h : precheck .formatDate args = .ok label) : ∃ value q s p,
      args = [value, .literal q (.string s)] ∧ Date.Pattern.parse s = .ok p := by
  obtain ⟨value, pattern, rfl⟩ := length_eq_two.mp hlen
  simp only [precheck] at h
  split at h
  · split at h
    · exact ⟨_, _, _, _, rfl, ‹_›⟩
    · cases h
  · cases h

/-- The term of a date format has the value of its first operand, written in a pattern known from the
expression: nothing of the pattern is left to fail. -/
theorem eval_formatDate (h : expr env want (.op place .formatDate args) = .ok t) :
    ∃ value q s p u, args = [value, .literal q (.string s)] ∧ Date.Pattern.parse s = .ok p ∧
      expr env none value = .ok u ∧
        ∀ item c, t.eval item c = (u.eval item c).map fun v => .string (v.formatDate p) := by
  rw [expr] at h
  split at h
  · cases h
  rename_i harity
  rw [if_neg (by decide)] at h
  have hadmits : Operator.formatDate.arity.admits args.length = true := by simpa using harity
  have hlen : args.length = 2 := Arity.eq_of_exactly hadmits
  obtain ⟨label, hlabel, h⟩ := exists_of_bind_eq_ok h
  obtain ⟨value, q, s, p, rfl, hp⟩ := exists_of_precheck_formatDate hlen hlabel
  obtain ⟨terms, hterms, h⟩ := exists_of_bind_eq_ok h
  cases h
  rw [operands] at hterms
  obtain ⟨u, hu, hterms⟩ := exists_of_bind_eq_ok hterms
  have hterms : terms = [u, .literal (.string s)] := (Except.ok.inj hterms).symm
  refine ⟨value, q, s, p, u, rfl, hp, hu, fun item c => ?_⟩
  rw [hterms, Term.eval, Term.evalAll, Term.evalAll, Term.evalAll, Term.eval]
  exact Operator.apply_formatDate hp _

end Elaboration

/-- The texts that are read as patterns, what their `strftime` texts are read as and written with, and
the value of a date format that was elaborated. -/
theorem Date.Pattern.reads_and_writes :
    (∀ (s : String) (p : Pattern), parse s = .ok p ↔ Spells s.toList p) ∧
    (∀ p : Pattern, readStrftime p.strftime.toList = p) ∧
    (∀ (p : Pattern) (i : Instant), p.render i = String.join (p.map (Token.render i))) ∧
    ∀ (env : Env) (want : Option ValueType) (place : Location) (args : List Expr) (t : Term),
      Elaboration.expr env want (.op place .formatDate args) = .ok t →
        ∃ value q s p u, args = [value, .literal q (.string s)] ∧ Spells s.toList p ∧
          Elaboration.expr env none value = .ok u ∧
            ∀ item c, t.eval item c = (u.eval item c).map fun v => .string (v.formatDate p) := by
  have hread : ∀ p : Pattern, readStrftime p.strftime.toList = p := fun p => by
    rw [strftime, String.toList_ofList, readStrftime_flatMap]
  refine ⟨fun s p => readFrom_plain_eq_ok_iff, hread, fun p i => ?_, fun env want place args t h => ?_⟩
  · rw [render, format, hread]
  · obtain ⟨value, q, s, p, u, hargs, hp, hu, heval⟩ := Elaboration.eval_formatDate h
    exact ⟨value, q, s, p, u, hargs, readFrom_plain_eq_ok_iff.mp hp, hu, heval⟩

example : (Date.Pattern.parse "h 'o''clock' 100%").toOption.map Date.Pattern.strftime =
    some "%-I o'clock 100%%" := by decide

end Widgetry
