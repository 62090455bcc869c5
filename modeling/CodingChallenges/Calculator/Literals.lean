import CodingChallenges.Calculator.Tokenizer
import CodingChallenges.Library.Runs

/-!
# Number Literals

What a number may look like, and which of these the tokenizer reads as a whole.

A literal has an integer part and may have a fraction and an exponent. Each part is a
run of digits with something in front of it, so each parser stops where the run does,
and the parts stand next to each other because every parser starts where the last one
stopped. What follows a literal is not read with it if it does not go on with another
digit or another part.

The parser of the exponent is called only behind a fraction. Of a literal with an
exponent and no fraction the first part alone is read, and the mark of the exponent is
taken for the name of a function.

## Main definitions

* `IsInteger`, `ExponentPart`, `Literal`: The parts of a number, and a number.
* `Literal.Stops`: What may follow a literal.

## Theorems

* `parseNumber_integer`, `parseNumber_fraction`: What is read without a fraction, and with one.
* `parseNumber_literal`: A literal is read up to its end.
* `exists_literal`: Where a digit stands, a literal is read.
* `tokenize_literal_iff`: Which literals are read whole.
-/

namespace CodingChallenges

namespace Calculator

open Token

/-- A zero, or a digit that is not zero and digits behind it. -/
inductive IsInteger : List UInt8 → Prop
  | zero : IsInteger [48]
  | digits {d : UInt8} {ds : List UInt8} :
      49 ≤ d → d ≤ 57 → (∀ c ∈ ds, isDigit c = true) → IsInteger (d :: ds)

/-- An exponent: its mark, its sign if it has one, and its digits. -/
structure ExponentPart where
  mark : UInt8
  sign : Option UInt8
  digits : List UInt8
  mark_eq : mark = 101 ∨ mark = 69
  sign_eq : ∀ c ∈ sign, c = 45 ∨ c = 43
  digits_ne_nil : digits ≠ []
  isDigit_digits : ∀ c ∈ digits, isDigit c = true

/-- How an exponent is written. -/
def ExponentPart.text (x : ExponentPart) : List UInt8 :=
  x.mark :: (x.sign.toList ++ x.digits)

/-- A number: its integer part, the digits of its fraction if it has one, and its exponent
    if it has one. -/
structure Literal where
  integer : List UInt8
  fraction : Option (List UInt8)
  exponent : Option ExponentPart
  isInteger : IsInteger integer
  fraction_ne_nil : ∀ f ∈ fraction, f ≠ []
  isDigit_fraction : ∀ f ∈ fraction, ∀ c ∈ f, isDigit c = true

namespace Literal

/-- How the fraction is written, with its point. -/
def fractionText (l : Literal) : List UInt8 :=
  l.fraction.elim [] fun f => 46 :: f

/-- How the exponent is written, if there is one. -/
def exponentText (l : Literal) : List UInt8 :=
  l.exponent.elim [] ExponentPart.text

/-- How a literal is written. -/
def text (l : Literal) : List UInt8 :=
  l.integer ++ (l.fractionText ++ l.exponentText)

/-- The exponent stands where the parser looks for it. -/
def Read (l : Literal) : Prop :=
  l.fraction = none → l.exponent = none

/-- The text does not begin with a fraction. -/
def NoFraction (v : List UInt8) : Prop :=
  ∀ d v', v = 46 :: d :: v' → isDigit d = false

/-- The text does not begin with an exponent. -/
def NoExponent (v : List UInt8) : Prop :=
  ∀ (x : ExponentPart) v', v ≠ x.text ++ v'

/-- The text does not go on with the last part of the literal, nor with the next. -/
structure Stops (l : Literal) (v : List UInt8) : Prop where
  outside : l.integer ≠ [48] ∨ l.fraction ≠ none → Outside isDigit v
  noFraction : l.fraction = none → NoFraction v
  noExponent : l.fraction ≠ none → l.exponent = none → NoExponent v

end Literal

theorem isDigit_iff {c : UInt8} : isDigit c = true ↔ 48 ≤ c ∧ c ≤ 57 := by
  rw [isDigit, Bool.and_eq_true, decide_eq_true_iff, decide_eq_true_iff]

theorem getElem?_length_append (before v : List UInt8) :
    (before ++ v)[before.length]? = v.head? := by
  rw [List.getElem?_append_right (Nat.le_refl _), Nat.sub_self, List.head?_eq_getElem?]

/-- The digits that are skipped are those of the run that starts at the index. -/
theorem skipDigits_run (before : List UInt8) {u v : List UInt8}
    (hu : ∀ c ∈ u, isDigit c = true) (hv : Outside isDigit v) :
    skipDigits (before ++ (u ++ v)) before.length = before.length + u.length := by
  rw [skipDigits, List.drop_left, takeWhile_run hu hv]

/-- The integer part is a zero or the run of digits. -/
theorem parseIntegerPart_text (before : List UInt8) {u v : List UInt8} (hu : IsInteger u)
    (hv : u ≠ [48] → Outside isDigit v) :
    parseIntegerPart (before ++ (u ++ v)) before.length = (before.length, u.length) := by
  rw [parseIntegerPart, getElem?_length_append]
  cases hu with
  | zero => rfl
  | @digits d ds hlow hhigh hds =>
      have hne : d ≠ 48 := by
        rintro rfl
        exact absurd hlow (by decide)
      have hskip := skipDigits_run (before ++ [d]) hds
        (hv fun h => hne (List.cons.inj h).1)
      rw [List.append_assoc, List.length_append] at hskip
      simp only [List.cons_append, List.head?_cons, if_neg hne, if_pos (And.intro hlow hhigh)]
      simp only [List.singleton_append, List.length_singleton] at hskip
      rw [hskip, List.length_cons]
      simp only [Prod.mk.injEq, true_and]
      omega

theorem parseFractionalPart_run (before : List UInt8) {u v : List UInt8}
    (hu : ∀ c ∈ u, isDigit c = true) (hv : Outside isDigit v) :
    parseFractionalPart (before ++ (u ++ v)) before.length = (before.length, u.length) := by
  rw [parseFractionalPart, skipDigits_run before hu hv, Nat.add_sub_cancel_left]

/-- A digit is not skipped as a sign. -/
theorem skipSign_digit (before : List UInt8) {d : UInt8} (v : List UInt8)
    (hd : isDigit d = true) : skipSign (before ++ d :: v) before.length = before.length := by
  rw [skipSign, getElem?_length_append]
  have hne : ¬(d = 45 ∨ d = 43) := by
    rintro (rfl | rfl) <;> exact absurd hd (by decide)
  simp only [List.head?_cons, if_neg hne]

theorem skipSign_sign (before : List UInt8) {c : UInt8} (v : List UInt8) (hc : c = 45 ∨ c = 43) :
    skipSign (before ++ c :: v) before.length = (before ++ [c]).length := by
  rw [skipSign, getElem?_length_append, List.length_append]
  simp only [List.head?_cons, if_pos hc, List.length_singleton]

/-- Behind its mark an exponent is read up to its end. -/
theorem parseExponentPart_text (before : List UInt8) (x : ExponentPart) {v : List UInt8}
    (hv : Outside isDigit v) :
    parseExponentPart (before ++ (x.sign.toList ++ x.digits ++ v)) before.length =
      (before.length, (x.sign.toList ++ x.digits).length) := by
  rcases List.exists_cons_of_ne_nil x.digits_ne_nil with ⟨d, ds, hdigits⟩
  have hall := x.isDigit_digits
  rw [hdigits, List.forall_mem_cons] at hall
  rw [hdigits, parseExponentPart]
  cases hsign : x.sign with
  | none =>
      have hskip := skipDigits_run (before ++ [d]) hall.2 hv
      simp only [List.append_assoc, List.singleton_append, List.length_append,
        List.length_singleton] at hskip
      simp only [Option.toList_none, List.nil_append, List.cons_append]
      rw [skipSign_digit before _ hall.1, getElem?_length_append, List.head?_cons]
      simp only [if_pos hall.1, hskip, List.length_cons, Prod.mk.injEq, true_and]
      omega
  | some c =>
      have hskip := skipDigits_run (before ++ [c] ++ [d]) hall.2 hv
      have hindex := getElem?_length_append (before ++ [c]) (d :: ds ++ v)
      simp only [List.append_assoc, List.cons_append, List.nil_append, List.length_append,
        List.length_cons, List.length_nil] at hskip hindex
      simp only [Option.toList_some, List.cons_append, List.nil_append]
      rw [skipSign_sign before _ (x.sign_eq c hsign)]
      simp only [List.length_append, List.length_cons, List.length_nil, hindex, List.head?_cons,
        if_pos hall.1]
      rw [hskip]
      simp only [Prod.mk.injEq, true_and]
      omega

/-- Behind a mark with which no exponent begins nothing is read. -/
theorem parseExponentPart_none (before : List UInt8) {m : UInt8} {w : List UInt8}
    (hm : m = 101 ∨ m = 69) (h : Literal.NoExponent (m :: w)) :
    (parseExponentPart (before ++ w) before.length).2 = 0 := by
  -- A digit behind the mark, or behind a sign there, would be an exponent.
  have hdigit : ∀ d w', w = d :: w' → isDigit d = false := by
    intro d w' hw
    by_contra hd
    have hdigits : ∀ c ∈ [d], isDigit c = true :=
      List.forall_mem_singleton.mpr (eq_true_of_ne_false hd)
    exact h ⟨m, none, [d], hm, nofun, List.cons_ne_nil _ _, hdigits⟩ w' (by rw [hw]; rfl)
  have hsigned : ∀ c d w', w = c :: d :: w' → c = 45 ∨ c = 43 → isDigit d = false := by
    intro c d w' hw hc
    by_contra hd
    have hdigits : ∀ c ∈ [d], isDigit c = true :=
      List.forall_mem_singleton.mpr (eq_true_of_ne_false hd)
    exact h ⟨m, some c, [d], hm, by rintro _ ⟨⟩; exact hc, List.cons_ne_nil _ _, hdigits⟩ w'
      (by rw [hw]; rfl)
  rw [parseExponentPart]
  cases w with
  | nil =>
      have hskip : skipSign (before ++ []) before.length = before.length := by
        rw [skipSign, getElem?_length_append]
        rfl
      rw [hskip, getElem?_length_append]
      rfl
  | cons c w' =>
      by_cases hc : c = 45 ∨ c = 43
      · rw [skipSign_sign before w' hc]
        have hindex := getElem?_length_append (before ++ [c]) w'
        rw [List.append_assoc, List.singleton_append] at hindex
        rw [hindex]
        cases w' with
        | nil => rfl
        | cons d w'' =>
            simp only [List.head?_cons, hsigned c d w'' rfl hc, Bool.false_eq_true, if_false]
      · have hskip : skipSign (before ++ c :: w') before.length = before.length := by
          rw [skipSign, getElem?_length_append]
          simp only [List.head?_cons, if_neg hc]
        rw [hskip, getElem?_length_append]
        simp only [List.head?_cons, hdigit c w' rfl, Bool.false_eq_true, if_false]

theorem outside_mark (x : ExponentPart) (v : List UInt8) : Outside isDigit (x.text ++ v) := by
  rw [ExponentPart.text, List.cons_append, outside_cons]
  rcases x.mark_eq with h | h
  · rw [h]
    decide
  · rw [h]
    decide

/-- An integer part begins with a digit. -/
theorem isInteger_cons {u : List UInt8} (h : IsInteger u) :
    ∃ d ds, u = d :: ds ∧ isDigit d = true := by
  cases h with
  | zero => exact ⟨48, [], rfl, rfl⟩
  | digits hlow hhigh _ =>
      refine ⟨_, _, rfl, ?_⟩
      rw [isDigit_iff]
      grind

theorem length_integer_ne_zero {u : List UInt8} (h : IsInteger u) : u.length ≠ 0 := by
  rcases isInteger_cons h with ⟨d, ds, rfl, -⟩
  exact Nat.succ_ne_zero _

/-- Without a fraction behind it the integer part is all that is read. A dot without a digit
    behind it is not a fraction. -/
theorem parseNumber_integer (before : List UInt8) {u v : List UInt8} (hu : IsInteger u)
    (hv : u ≠ [48] → Outside isDigit v) (hfraction : Literal.NoFraction v) :
    parseNumber (before ++ (u ++ v)) before.length = (before.length, u.length) := by
  have hindex := getElem?_length_append (before ++ u) v
  rw [List.append_assoc, List.length_append] at hindex
  rw [parseNumber]
  simp only [parseIntegerPart_text before hu hv, if_neg (length_integer_ne_zero hu), hindex]
  by_cases hdot : v.head? = some 46
  · rcases List.head?_eq_some_iff.mp hdot with ⟨v', rfl⟩
    have hnone : Outside isDigit v' := by
      intro d hd
      rcases List.head?_eq_some_iff.mp hd with ⟨v'', rfl⟩
      exact hfraction d v'' rfl
    have hrun := parseFractionalPart_run (before ++ u ++ [46]) (u := []) nofun hnone
    simp only [List.append_assoc, List.length_append, List.singleton_append,
      List.length_singleton, List.nil_append] at hrun
    rw [if_pos hdot, Nat.add_assoc, hrun]
    rfl
  · rw [if_neg hdot]

/-- Behind a fraction there may be an exponent. -/
theorem parseNumber_fraction (before : List UInt8) {u f w : List UInt8} (hu : IsInteger u)
    (hne : f ≠ []) (hf : ∀ c ∈ f, isDigit c = true) (hw : Outside isDigit w) :
    parseNumber (before ++ (u ++ 46 :: (f ++ w))) before.length =
      (before.length,
        if w.head? = some 101 ∨ w.head? = some 69 then
          let e := parseExponentPart (before ++ u ++ 46 :: f ++ w)
            ((before ++ u ++ 46 :: f).length + 1)
          if e.2 = 0 then (u ++ 46 :: f).length else e.1 + e.2 - before.length
        else (u ++ 46 :: f).length) := by
  have hinteger := parseIntegerPart_text before hu
    (v := 46 :: (f ++ w)) fun _ => outside_cons.mpr (by decide)
  have hindex := getElem?_length_append (before ++ u) (46 :: (f ++ w))
  have hfractional := parseFractionalPart_run (before ++ u ++ [46]) hf hw
  simp only [List.append_assoc, List.length_append, List.singleton_append,
    List.length_singleton, List.head?_cons] at hindex hfractional
  rw [← Nat.add_assoc] at hfractional
  have hlength : f.length ≠ 0 := by
    rw [Ne, List.length_eq_zero_iff]
    exact hne
  -- What is left to be read stands behind the digits of the fraction.
  have hbehind := getElem?_length_append (before ++ u ++ 46 :: f) w
  have hinput : before ++ u ++ 46 :: f ++ w = before ++ (u ++ 46 :: (f ++ w)) := by
    simp only [List.append_assoc, List.cons_append]
  have hend : before.length + u.length + 1 + f.length = (before ++ u ++ 46 :: f).length := by
    simp only [List.length_append, List.length_cons]
    omega
  have hspan : (before ++ u ++ 46 :: f).length - before.length = (u ++ 46 :: f).length := by
    simp only [List.length_append]
    omega
  rw [hinput] at hbehind
  rw [parseNumber, hinput]
  simp only [hinteger, if_neg (length_integer_ne_zero hu), hindex, if_true, hfractional,
    if_neg hlength, hend, hbehind, hspan]
  split_ifs <;> rfl

/-- A fraction with no exponent behind it. -/
theorem parseNumber_noExponent (before : List UInt8) {u f v : List UInt8} (hu : IsInteger u)
    (hne : f ≠ []) (hf : ∀ c ∈ f, isDigit c = true) (hv : Outside isDigit v)
    (hexponent : Literal.NoExponent v) :
    parseNumber (before ++ (u ++ 46 :: (f ++ v))) before.length =
      (before.length, (u ++ 46 :: f).length) := by
  rw [parseNumber_fraction before hu hne hf hv]
  by_cases hmark : v.head? = some 101 ∨ v.head? = some 69
  · -- A mark without digits behind it is not an exponent.
    obtain ⟨m, w, rfl, hm⟩ : ∃ m w, v = m :: w ∧ (m = 101 ∨ m = 69) := by
      rcases hmark with hmark | hmark
      · rcases List.head?_eq_some_iff.mp hmark with ⟨w, rfl⟩
        exact ⟨_, w, rfl, Or.inl rfl⟩
      · rcases List.head?_eq_some_iff.mp hmark with ⟨w, rfl⟩
        exact ⟨_, w, rfl, Or.inr rfl⟩
    have hnone := parseExponentPart_none (before ++ u ++ 46 :: f ++ [m]) hm hexponent
    rw [List.append_assoc _ [m], List.singleton_append, List.length_append,
      List.length_singleton] at hnone
    dsimp only
    rw [if_pos hmark, if_pos hnone]
  · rw [if_neg hmark]

/-- A fraction with an exponent behind it. -/
theorem parseNumber_exponent (before : List UInt8) {u f v : List UInt8} (hu : IsInteger u)
    (hne : f ≠ []) (hf : ∀ c ∈ f, isDigit c = true) (x : ExponentPart)
    (hv : Outside isDigit v) :
    parseNumber (before ++ (u ++ 46 :: (f ++ (x.text ++ v)))) before.length =
      (before.length, (u ++ 46 :: (f ++ x.text)).length) := by
  have hexponent := parseExponentPart_text (before ++ u ++ 46 :: f ++ [x.mark]) x hv
  rw [List.append_assoc _ [x.mark], List.singleton_append, List.length_append,
    List.length_singleton, ← List.cons_append, ← ExponentPart.text] at hexponent
  have hmark : (x.text ++ v).head? = some 101 ∨ (x.text ++ v).head? = some 69 := by
    rcases x.mark_eq with h | h
    · exact Or.inl (congrArg some h)
    · exact Or.inr (congrArg some h)
  have hlength : (x.sign.toList ++ x.digits).length ≠ 0 := by
    rw [Ne, List.length_eq_zero_iff]
    exact List.append_ne_nil_of_right_ne_nil _ x.digits_ne_nil
  rw [parseNumber_fraction before hu hne hf (outside_mark x v)]
  dsimp only
  rw [if_pos hmark, hexponent, if_neg hlength]
  simp only [List.length_append, ExponentPart.text, List.length_cons, Prod.mk.injEq, true_and]
  omega

/-- A literal is read up to its end. -/
theorem parseNumber_literal (before : List UInt8) (l : Literal) {v : List UInt8} (hread : l.Read)
    (hstops : l.Stops v) :
    parseNumber (before ++ (l.text ++ v)) before.length = (before.length, l.text.length) := by
  rw [Literal.text, Literal.fractionText, Literal.exponentText]
  cases hfraction : l.fraction with
  | none =>
      rw [hread hfraction, Option.elim_none, Option.elim_none, List.append_nil, List.append_nil]
      exact parseNumber_integer before l.isInteger (fun h => hstops.outside (Or.inl h))
        (hstops.noFraction hfraction)
  | some f =>
      have hne := l.fraction_ne_nil f hfraction
      have hf := l.isDigit_fraction f hfraction
      have hsome : l.fraction ≠ none := by
        rw [hfraction]
        exact Option.some_ne_none f
      have houtside := hstops.outside (Or.inr hsome)
      cases hexponent : l.exponent with
      | none =>
          have hnumber := parseNumber_noExponent before l.isInteger hne hf houtside
            (hstops.noExponent hsome hexponent)
          simpa only [Option.elim_some, Option.elim_none, List.append_nil, List.append_assoc,
            List.cons_append] using hnumber
      | some x =>
          have hnumber := parseNumber_exponent before l.isInteger hne hf x houtside
          simpa only [Option.elim_some, List.append_assoc, List.cons_append] using hnumber

/-- Where a digit stands, there is an integer part, and as much of it as there is. -/
theorem exists_integer {c : UInt8} (hc : isDigit c = true) (rest : List UInt8) :
    ∃ u v, c :: rest = u ++ v ∧ IsInteger u ∧ (u ≠ [48] → Outside isDigit v) := by
  by_cases hzero : c = 48
  · rw [hzero]
    exact ⟨[48], rest, rfl, .zero, fun h => absurd rfl h⟩
  · rcases exists_run isDigit rest with ⟨ds, v, rfl, hds, hv⟩
    rw [isDigit_iff] at hc
    have hlow : 49 ≤ c := by grind
    exact ⟨c :: ds, v, rfl, .digits hlow hc.2 hds, fun _ => hv⟩

/-- Where a digit stands, a literal is read, and as much of it as there is. -/
theorem exists_literal {c : UInt8} (hc : isDigit c = true) (rest : List UInt8) :
    ∃ (l : Literal) (v : List UInt8), c :: rest = l.text ++ v ∧ l.Read ∧ l.Stops v := by
  rcases exists_integer hc rest with ⟨u, v, hsplit, hu, hv⟩
  by_cases hfraction : Literal.NoFraction v
  · refine ⟨⟨u, none, none, hu, nofun, nofun⟩, v, ?_, fun _ => rfl, ?_, fun _ => hfraction, ?_⟩
    · rw [hsplit, Literal.text, Literal.fractionText, Literal.exponentText]
      simp only [Option.elim_none, List.append_nil]
    · rintro (h | h)
      · exact hv h
      · exact absurd rfl h
    · intro h
      exact absurd rfl h
  · obtain ⟨d, v', hdot, hd⟩ : ∃ d v', v = 46 :: d :: v' ∧ isDigit d = true := by
      simpa [Literal.NoFraction] using hfraction
    rcases exists_run isDigit v' with ⟨ds, w, rfl, hds, hw⟩
    have hf : ∀ c ∈ d :: ds, isDigit c = true := List.forall_mem_cons.mpr ⟨hd, hds⟩
    by_cases hexponent : Literal.NoExponent w
    · refine ⟨⟨u, some (d :: ds), none, hu, by rintro _ ⟨⟩; exact List.cons_ne_nil _ _,
        by rintro _ ⟨⟩; exact hf⟩, w, ?_, fun h => absurd h (Option.some_ne_none _),
        fun _ => hw, fun h => absurd h (Option.some_ne_none _), fun _ _ => hexponent⟩
      rw [hsplit, hdot, Literal.text, Literal.fractionText, Literal.exponentText]
      simp only [Option.elim_some, Option.elim_none, List.append_nil, List.append_assoc,
        List.cons_append]
    · obtain ⟨x, w', hmark⟩ : ∃ (x : ExponentPart) (w' : List UInt8), w = x.text ++ w' := by
        simpa only [Literal.NoExponent, ne_eq, not_forall, Decidable.not_not] using hexponent
      -- What is read of the exponent are all its digits.
      rcases exists_run isDigit w' with ⟨es, w'', rfl, hes, hw''⟩
      refine ⟨⟨u, some (d :: ds), some ⟨x.mark, x.sign, x.digits ++ es, x.mark_eq, x.sign_eq,
          List.append_ne_nil_of_left_ne_nil x.digits_ne_nil es,
          List.forall_mem_append.mpr ⟨x.isDigit_digits, hes⟩⟩, hu,
        by rintro _ ⟨⟩; exact List.cons_ne_nil _ _, by rintro _ ⟨⟩; exact hf⟩, w'', ?_,
        fun h => absurd h (Option.some_ne_none _), fun _ => hw'',
        fun h => absurd h (Option.some_ne_none _), fun _ h => absurd h (Option.some_ne_none _)⟩
      rw [hsplit, hdot, hmark, Literal.text, Literal.fractionText, Literal.exponentText]
      simp only [Option.elim_some, ExponentPart.text, List.append_assoc, List.cons_append]

/-- A digit starts a number. -/
theorem readToken_digit (input : List UInt8) (index : Nat) (tokens : List Token) {c : UInt8}
    (hc : isDigit c = true) :
    readToken input index tokens c =
      some (tokens ++ [ofOperand
        (substr input (parseNumber input index).1 (parseNumber input index).2)],
        (parseNumber input index).2 - 1) := by
  have hspace : isSpace c = false := by
    rw [isDigit_iff] at hc
    rw [isSpace]
    grind
  unfold readToken
  rw [hspace]
  simp only [Bool.false_eq_true, if_false]
  split
  case h_13 => rw [if_pos hc]
  all_goals exact absurd hc (by decide)

/-- A literal begins with a digit. -/
theorem head_literal (l : Literal) : ∃ d ds, l.text = d :: ds ∧ isDigit d = true := by
  rcases isInteger_cons l.isInteger with ⟨d, ds, hinteger, hd⟩
  exact ⟨d, ds ++ (l.fractionText ++ l.exponentText), by rw [Literal.text, hinteger]; rfl, hd⟩

/-- The loop reads the whole of a literal in one round. -/
theorem tokenizeFrom_literal (before : List UInt8) (l : Literal) {v : List UInt8}
    (tokens : List Token) (hread : l.Read) (hstops : l.Stops v) :
    tokenizeFrom (before ++ (l.text ++ v)) before.length tokens =
      tokenizeFrom (before ++ (l.text ++ v)) (before.length + l.text.length)
        (tokens ++ [ofOperand l.text]) := by
  rcases head_literal l with ⟨d, ds, htext, hd⟩
  have hlt : before.length < (before ++ (l.text ++ v)).length := by
    simp only [htext, List.length_append, List.length_cons]
    omega
  have hget : (before ++ (l.text ++ v))[before.length] = d := by
    apply Option.some.inj
    rw [← List.getElem?_eq_getElem hlt, getElem?_length_append, htext]
    rfl
  have hnumber := parseNumber_literal before l hread hstops
  have hsubstr : substr (before ++ (l.text ++ v)) before.length l.text.length = l.text := by
    rw [substr, List.drop_left, List.take_left]
  have hround := readToken_digit (before ++ (l.text ++ v)) before.length tokens hd
  rw [hnumber, hsubstr, ← hget] at hround
  have hpos : 0 < l.text.length := by
    rw [htext]
    exact Nat.succ_pos _
  have hindex : before.length + (l.text.length - 1) + 1 = before.length + l.text.length := by omega
  rw [tokenizeFrom_read hlt hround, hindex]

/-- Behind its mark an exponent does not go on like the name of a function. -/
theorem ExponentPart.second_ne (x : ExponentPart) (v : List UInt8) :
    (x.text ++ v)[1]? ≠ some 120 := by
  intro h
  cases hsign : x.sign with
  | some c =>
      rw [ExponentPart.text, hsign] at h
      cases h
      rcases x.sign_eq 120 hsign with h | h <;> exact absurd h (by decide)
  | none =>
      rcases List.exists_cons_of_ne_nil x.digits_ne_nil with ⟨d, ds, hdigits⟩
      rw [ExponentPart.text, hsign, hdigits] at h
      cases h
      exact absurd (x.isDigit_digits 120 (by rw [hdigits]; exact List.mem_cons_self)) (by decide)

/-- The mark of an exponent does not start a token: no function has a name that goes on
    with a sign or a digit. -/
theorem readToken_mark (before : List UInt8) (x : ExponentPart) (tokens : List Token) :
    readToken (before ++ x.text) before.length tokens x.mark = none := by
  rcases x.mark_eq with hmark | hmark
  · have hcheck : checkSubtring (before ++ x.text) before.length [101, 120, 112] = false := by
      rw [checkSubtring, substr, List.drop_left, beq_eq_false_iff_ne]
      intro h
      have hsecond := congrArg (fun text => text[1]?) h
      have hne := x.second_ne []
      rw [List.append_nil] at hne
      exact hne (by simpa using hsecond)
    have hround : readToken (before ++ x.text) before.length tokens 101 =
        readFunction (before ++ x.text) before.length tokens [101, 120, 112] .exponentiation := rfl
    rw [hmark, hround, readFunction, hcheck]
    rfl
  · rw [hmark]
    rfl

/-- A literal is read whole exactly if it has no exponent or has a fraction too. -/
theorem tokenize_literal_iff (l : Literal) :
    tokenize l.text = [ofOperand l.text] ↔ l.Read := by
  constructor
  · intro h hfraction
    by_contra hexponent
    rcases Option.ne_none_iff_exists'.mp hexponent with ⟨x, hx⟩
    -- Only the integer part is read, and behind it stands the mark.
    have hstops : Literal.Stops ⟨l.integer, none, none, l.isInteger, nofun, nofun⟩ x.text := by
      have houtside := outside_mark x []
      rw [List.append_nil] at houtside
      refine ⟨fun _ => houtside, fun _ d v' hdot => ?_, fun h => absurd rfl h⟩
      rw [ExponentPart.text, List.cons.injEq] at hdot
      rcases x.mark_eq with hmark | hmark <;> rw [hmark] at hdot <;> exact absurd hdot.1 (by decide)
    have hround := tokenizeFrom_literal [] _ [] (fun _ => rfl) hstops
    simp only [Literal.text, Literal.fractionText, Literal.exponentText, Option.elim_none,
      List.append_nil, List.nil_append, List.length_nil, Nat.zero_add] at hround
    have htext : l.text = l.integer ++ x.text := by
      rw [Literal.text, Literal.fractionText, Literal.exponentText, hfraction, hx]
      rfl
    have hlt : l.integer.length < (l.integer ++ x.text).length := by
      simp only [ExponentPart.text, List.length_append, List.length_cons]
      omega
    have hget : (l.integer ++ x.text)[l.integer.length] = x.mark := by
      apply Option.some.inj
      rw [← List.getElem?_eq_getElem hlt, getElem?_length_append]
      rfl
    have hmark := readToken_mark l.integer x [ofOperand l.integer]
    rw [← hget] at hmark
    rw [tokenize, htext, hround, tokenizeFrom_error hlt hmark] at h
    cases h
  · intro hread
    have hstops : l.Stops [] := by
      refine ⟨fun _ => outside_nil, fun _ => nofun, fun _ _ x v' h => ?_⟩
      cases h
    have hround := tokenizeFrom_literal [] l [] hread hstops
    simp only [List.nil_append, List.append_nil, List.length_nil, Nat.zero_add] at hround
    rw [tokenize, hround, tokenizeFrom_done _ (Nat.le_refl _)]
    rfl

/-- `1e5` -/
def exponentOnly : Literal :=
  ⟨[49], none, some ⟨101, none, [53], Or.inl rfl, nofun, List.cons_ne_nil _ _,
    List.forall_mem_singleton.mpr rfl⟩, .digits (by decide) (by decide) nofun, nofun, nofun⟩

/-- Of `1e5` there are no tokens at all. -/
theorem not_tokenize_literal : ¬∀ l : Literal, tokenize l.text = [ofOperand l.text] := by
  intro h
  have htokens : tokenize exponentOnly.text ≠ [ofOperand exponentOnly.text] := by decide +kernel
  exact htokens (h exponentOnly)

end Calculator

end CodingChallenges
