import CodingChallenges.Json.Handlers

/-!
# Looking One Byte Ahead

A handler that has seen the end of its token has read nothing behind the byte it hands
back, so it does the same whatever follows. A handler that looks ahead and has come to
the end of the input instead is not settled in this way: with more input it might have
gone on. This happens in the middle of whitespace and of a number only, and what is
then handed back is no byte to go on with.

## Main definitions

* `Reading.append`: The same with more behind it.
* `isNumberEnd`: What may be handed back when the input ends with a number.

## Theorems

* `handleString_append`, `handleBoolean_append`, `handleNull_append`: The handlers that do
  not look ahead.
* `readWhile_settles`, `handleNumeric_settles`: The handlers that do.
* `readToken_settles`: Any token.
-/

namespace CodingChallenges

namespace Json

/-- A handler that has seen the end of its token does the same whatever follows. -/
def Reading.append (r : Reading) (t : List UInt8) : Reading :=
  { r with rest := r.rest ++ t }

/-- The characters at which a number may break off when the input ends. -/
def isNumberEnd (c : UInt8) : Bool :=
  c = byte '.' || c = byte 'e' || c = byte 'E' || c = byte '+' || c = byte '-' || isDigit c

theorem handleString_append {n : Nat} {is s value rest : List UInt8}
    (h : handleString n is s = some (value, rest)) (t : List UInt8) :
    handleString n (is ++ t) s = some (value, rest ++ t) ∧ rest <:+ is := by
  -- Only the closing quotation mark ends a string, and it is the last byte that is read.
  fun_induction handleString n is s with
  | case1 => cases h
  | case2 s n c is hdigit ih =>
      rcases ih h with ⟨happend, hsuffix⟩
      refine ⟨?_, hsuffix.trans (List.suffix_cons _ _)⟩
      rw [List.cons_append, handleString, if_pos hdigit, happend]
  | case3 => cases h
  | case4 is s =>
      cases h
      refine ⟨?_, List.suffix_cons _ _⟩
      rw [List.cons_append]
      unfold handleString
      rw [if_pos rfl]
  | case5 => cases h
  | case6 => cases h
  | case7 s nextChar is hescape hquote hspace ih =>
      rcases ih h with ⟨happend, hsuffix⟩
      refine ⟨?_, (hsuffix.trans (List.suffix_cons _ _)).trans (List.suffix_cons _ _)⟩
      rw [List.cons_append, List.cons_append]
      unfold handleString
      simp only [if_neg hquote, if_neg hspace, if_true, if_pos hescape, happend]
  | case8 => cases h
  | case9 c is s hquote hspace hbackslash ih =>
      rcases ih h with ⟨happend, hsuffix⟩
      refine ⟨?_, hsuffix.trans (List.suffix_cons _ _)⟩
      rw [List.cons_append]
      unfold handleString
      simp only [if_neg hquote, if_neg hspace, if_neg hbackslash, happend]

theorem readWhile_settles (kind : UInt8 → Bool) (is s : List UInt8) (l : UInt8) :
    (∀ t, readWhile kind (is ++ t) s l = (readWhile kind is s l).append t) ∧
        (readWhile kind is s l).lastReadChar :: (readWhile kind is s l).rest <:+ is ∨
      (readWhile kind is s l).rest = [] ∧ (readWhile kind is s l).lastReadChar = l := by
  induction is generalizing s with
  | nil => exact Or.inr ⟨rfl, rfl⟩
  | cons c is ih =>
      by_cases hkind : kind c = true
      · simp only [List.cons_append, readWhile, if_pos hkind]
        rcases ih (s ++ [c]) with ⟨happend, hsuffix⟩ | hend
        · exact Or.inl ⟨happend, hsuffix.trans (List.suffix_cons c is)⟩
        · exact Or.inr hend
      · simp only [List.cons_append, readWhile, if_neg hkind]
        exact Or.inl ⟨fun t => rfl, List.suffix_refl _⟩

theorem readDigitsAfterSign_settles {first : Bool} {is s : List UInt8} {l : UInt8} {r : Reading}
    (h : readDigitsAfterSign first is s l = some r) :
    (∀ t, readDigitsAfterSign first (is ++ t) s l = some (r.append t)) ∧
        r.lastReadChar :: r.rest <:+ is ∨
      r.rest = [] ∧ r.lastReadChar = l := by
  fun_induction readDigitsAfterSign first is s l with
  -- The input has ended among the digits.
  | case1 =>
      cases h
      exact Or.inr ⟨rfl, rfl⟩
  | case2 => cases h
  | case3 s l c' is' =>
      cases h
      refine Or.inl ⟨fun t => ?_, List.suffix_cons _ _⟩
      simp only [List.cons_append, readDigitsAfterSign, if_true, Reading.append]
  | case4 first is s l hfirst ih =>
      rcases ih h with ⟨happend, hsuffix⟩ | hend
      · refine Or.inl ⟨fun t => ?_, hsuffix.trans (List.suffix_cons _ _)⟩
        rw [List.cons_append]
        unfold readDigitsAfterSign
        simp only [if_true, if_neg hfirst, happend]
      · exact Or.inr hend
  | case5 first c is s l hzero hdigit ih =>
      rcases ih h with ⟨happend, hsuffix⟩ | hend
      · refine Or.inl ⟨fun t => ?_, hsuffix.trans (List.suffix_cons _ _)⟩
        rw [List.cons_append]
        unfold readDigitsAfterSign
        simp only [if_neg hzero, if_pos hdigit, happend]
      · exact Or.inr hend
  -- What comes behind the digits is read as well, so nothing that follows it matters.
  | case6 first c is s l hzero hdigit =>
      cases h
      refine Or.inl ⟨fun t => ?_, List.suffix_refl _⟩
      rw [List.cons_append]
      unfold readDigitsAfterSign
      simp only [if_neg hzero, if_neg hdigit, Reading.append]

theorem readExponent_settles {sign digit : Bool} {is s : List UInt8} {l : UInt8} {r : Reading}
    (hl : isNumberEnd l = true) (h : readExponent sign digit is s l = some r) :
    (∀ t, readExponent sign digit (is ++ t) s l = some (r.append t)) ∧
        r.lastReadChar :: r.rest <:+ is ∨
      r.rest = [] ∧ isNumberEnd r.lastReadChar = true := by
  -- Whatever is read before the end is a digit or a sign, and so it can end a number.
  fun_induction readExponent sign digit is s l with
  | case1 =>
      cases h
      exact Or.inr ⟨rfl, hl⟩
  | case2 sign digit c is s l hsign ih =>
      have hc : isNumberEnd c = true := by
        rw [Bool.and_eq_true, Bool.or_eq_true] at hsign
        rcases hsign.2 with hminus | hplus
        · simp only [isNumberEnd, ↓Char.isValue, hminus, Bool.or_true, Bool.true_or]
        · simp only [isNumberEnd, ↓Char.isValue, hplus, Bool.or_true, Bool.true_or]
      rcases ih hc h with ⟨happend, hsuffix⟩ | hend
      · refine Or.inl ⟨fun t => ?_, hsuffix.trans (List.suffix_cons _ _)⟩
        rw [List.cons_append, readExponent, if_pos hsign, happend]
      · exact Or.inr hend
  | case3 => cases h
  | case4 sign digit c is s l hsign hsigns hdigit ih =>
      have hc : isNumberEnd c = true := by
        rw [isNumberEnd, hdigit, Bool.or_true]
      rcases ih hc h with ⟨happend, hsuffix⟩ | hend
      · refine Or.inl ⟨fun t => ?_, hsuffix.trans (List.suffix_cons _ _)⟩
        rw [List.cons_append, readExponent, if_neg hsign, if_neg hsigns, if_pos hdigit, happend]
      · exact Or.inr hend
  | case5 => cases h
  | case6 sign digit c is s l hsign hsigns hdigit hmissing =>
      cases h
      refine Or.inl ⟨fun t => ?_, List.suffix_refl _⟩
      rw [List.cons_append, readExponent, if_neg hsign, if_neg hsigns, if_neg hdigit,
        if_neg hmissing, Reading.append]

theorem handleInteger_settles {c : UInt8} {is : List UInt8} {r : Reading}
    (h : handleInteger c is = some r) :
    (∀ t, handleInteger c (is ++ t) = some (r.append t)) ∧ r.lastReadChar :: r.rest <:+ is ∨
      r.rest = [] ∧ r.lastReadChar = 0 := by
  unfold handleInteger at h ⊢
  by_cases hminus : c = byte '-'
  · simp only [if_pos hminus] at h ⊢
    exact readDigitsAfterSign_settles h
  simp only [if_neg hminus] at h ⊢
  by_cases hdigit : (decide (byte '1' ≤ c) && decide (c ≤ byte '9')) = true
  · simp only [if_pos hdigit, Option.some.injEq] at h ⊢
    subst h
    exact readWhile_settles isDigit is [c] 0
  simp only [if_neg hdigit] at h ⊢
  by_cases hzero : c = byte '0'
  · simp only [if_pos hzero] at h ⊢
    cases is with
    | nil => cases h
    | cons c' is =>
        cases h
        exact Or.inl ⟨fun t => rfl, List.suffix_refl _⟩
  · simp only [if_neg hzero] at h
    cases h

/-- The fraction starts where the integer has ended. -/
theorem handleFraction_settles {r r' : Reading} (h : handleFraction r = some r') :
    (∀ t, handleFraction (r.append t) = some (r'.append t)) ∧
        r'.lastReadChar :: r'.rest <:+ r.lastReadChar :: r.rest ∨
      r.lastReadChar = byte '.' ∧ r'.rest = [] ∧ r'.lastReadChar = byte '.' := by
  unfold handleFraction at h ⊢
  by_cases hexponent :
      (decide (r.lastReadChar = byte 'e') || decide (r.lastReadChar = byte 'E')) = true
  · rw [if_pos hexponent] at h
    cases h
    exact Or.inl ⟨fun t => if_pos hexponent, List.suffix_refl _⟩
  rw [if_neg hexponent] at h
  by_cases hpoint : r.lastReadChar ≠ byte '.'
  · rw [if_pos hpoint] at h
    cases h
    exact Or.inl ⟨fun t => (if_neg hexponent).trans (if_pos hpoint), List.suffix_refl _⟩
  rw [if_neg hpoint] at h
  cases h
  rcases readWhile_settles isDigit r.rest (r.stringToken ++ [r.lastReadChar]) r.lastReadChar with
    ⟨happend, hsuffix⟩ | ⟨hrest, hlast⟩
  · refine Or.inl ⟨fun t => ?_, hsuffix.trans (List.suffix_cons _ _)⟩
    exact (if_neg hexponent).trans ((if_neg hpoint).trans (congrArg some (happend t)))
  · have heq := Decidable.not_not.mp hpoint
    exact Or.inr ⟨heq, hrest, hlast.trans heq⟩

theorem handleExponent_settles {r r' : Reading} (h : handleExponent r = some r') :
    (∀ t, handleExponent (r.append t) = some (r'.append t)) ∧
        r'.lastReadChar :: r'.rest <:+ r.lastReadChar :: r.rest ∨
      (r.lastReadChar = byte 'e' ∨ r.lastReadChar = byte 'E') ∧
        r'.rest = [] ∧ isNumberEnd r'.lastReadChar = true := by
  unfold handleExponent at h ⊢
  by_cases hexponent :
      (decide (r.lastReadChar = byte 'e') || decide (r.lastReadChar = byte 'E')) = true
  · rw [if_pos hexponent] at h
    have hletter : r.lastReadChar = byte 'e' ∨ r.lastReadChar = byte 'E' := by
      simpa only [↓Char.isValue, Bool.or_eq_true, decide_eq_true_eq] using hexponent
    have hend : isNumberEnd r.lastReadChar = true := by
      rcases hletter with hletter | hletter
      · rw [hletter]; rfl
      · rw [hletter]; rfl
    rcases readExponent_settles hend h with ⟨happend, hsuffix⟩ | hended
    · exact Or.inl ⟨fun t => (if_pos hexponent).trans (happend t),
        hsuffix.trans (List.suffix_cons _ _)⟩
    · exact Or.inr ⟨hletter, hended⟩
  · rw [if_neg hexponent] at h
    cases h
    exact Or.inl ⟨fun t => if_neg hexponent, List.suffix_refl _⟩

/-- Either a number has its end within the input, or the input has ended with it. -/
theorem handleNumeric_settles {c : UInt8} {is : List UInt8} {r : Reading}
    (h : handleNumeric c is = some r) :
    (∀ t, handleNumeric c (is ++ t) = some (r.append t)) ∧ r.lastReadChar :: r.rest <:+ is ∨
      r.rest = [] ∧ (r.lastReadChar = 0 ∨ is ≠ [] ∧ isNumberEnd r.lastReadChar = true) := by
  rw [handleNumeric, Option.bind_eq_some_iff] at h
  rcases h with ⟨r₂, h, hexponent⟩
  rw [Option.bind_eq_some_iff] at h
  rcases h with ⟨r₁, hinteger, hfraction⟩
  rcases handleInteger_settles hinteger with ⟨happend₁, hsuffix₁⟩ | ⟨hrest₁, hlast₁⟩
  · have hne : is ≠ [] := by
      rintro rfl
      cases List.suffix_nil.mp hsuffix₁
    rcases handleFraction_settles hfraction with ⟨happend₂, hsuffix₂⟩ | ⟨-, hrest₂, hlast₂⟩
    · rcases handleExponent_settles hexponent with ⟨happend, hsuffix⟩ | ⟨-, hrest, hlast⟩
      · refine Or.inl ⟨fun t => ?_, (hsuffix.trans hsuffix₂).trans hsuffix₁⟩
        rw [handleNumeric, happend₁, Option.bind_some, happend₂, Option.bind_some, happend]
      · exact Or.inr ⟨hrest, Or.inr ⟨hne, hlast⟩⟩
    · -- After a point at the end of the input there is nothing left for an exponent.
      rw [handleExponent, hlast₂, if_neg (by decide)] at hexponent
      cases hexponent
      exact Or.inr ⟨hrest₂, Or.inr ⟨hne, by rw [hlast₂]; rfl⟩⟩
  · rw [handleFraction, hlast₁, if_neg (by decide), if_pos (by decide)] at hfraction
    cases hfraction
    rw [handleExponent, hlast₁, if_neg (by decide)] at hexponent
    cases hexponent
    exact Or.inr ⟨hrest₁, Or.inl hlast₁⟩

theorem readRemaining_append {remaining is s value rest : List UInt8}
    (h : readRemaining remaining is s = some (value, rest)) (t : List UInt8) :
    readRemaining remaining (is ++ t) s = some (value, rest ++ t) ∧ rest <:+ is := by
  unfold readRemaining at h ⊢
  by_cases hread : is.take remaining.length = remaining
  · rw [if_pos hread] at h
    cases h
    have hlength : remaining.length ≤ is.length := by
      have hlength := congrArg List.length hread
      rw [List.length_take] at hlength
      omega
    rw [List.take_append_of_le_length hlength, if_pos hread,
      List.drop_append_of_le_length hlength]
    exact ⟨rfl, List.drop_suffix _ _⟩
  · rw [if_neg hread] at h
    cases h

theorem handleBoolean_append {c : UInt8} {is value rest : List UInt8}
    (h : handleBoolean c is = some (value, rest)) (t : List UInt8) :
    handleBoolean c (is ++ t) = some (value, rest ++ t) ∧ rest <:+ is := by
  unfold handleBoolean at h ⊢
  by_cases htrue : c = byte 't'
  · simp only [if_pos htrue] at h ⊢
    exact readRemaining_append h t
  simp only [if_neg htrue] at h ⊢
  by_cases hfalse : c = byte 'f'
  · simp only [if_pos hfalse] at h ⊢
    exact readRemaining_append h t
  · rw [if_neg hfalse] at h
    cases h

theorem handleNull_append {c : UInt8} {is value rest : List UInt8}
    (h : handleNull c is = some (value, rest)) (t : List UInt8) :
    handleNull c (is ++ t) = some (value, rest ++ t) ∧ rest <:+ is := by
  unfold handleNull at h ⊢
  by_cases hnull : c = byte 'n'
  · simp only [if_pos hnull] at h ⊢
    exact readRemaining_append h t
  · rw [if_neg hnull] at h
    cases h

/-- A reader that does not look ahead, with the tokens that are made of what it has read. -/
theorem map_settles (reader : List UInt8 → Option (List UInt8 × List UInt8))
    (tokensOf : List UInt8 → List Token) {is rest : List UInt8} {new : List Token}
    (hreader : ∀ {value rest}, reader is = some (value, rest) →
      ∀ t, reader (is ++ t) = some (value, rest ++ t) ∧ rest <:+ is)
    (h : (reader is).map (fun p => (tokensOf p.1, p.2)) = some (new, rest)) :
    (∀ t, (reader (is ++ t)).map (fun p => (tokensOf p.1, p.2)) = some (new, rest ++ t)) ∧
      rest <:+ is := by
  rcases Option.map_eq_some_iff.mp h with ⟨⟨value, rest'⟩, hread, heq⟩
  cases heq
  refine ⟨fun t => ?_, (hreader hread []).2⟩
  rw [(hreader hread t).1, Option.map_some]

/-- A token has its end within the input, unless the input has ended in the middle of
    whitespace or of a number. -/
theorem readToken_settles {c : UInt8} {is rest : List UInt8} {new : List Token}
    (h : readToken c is = some (new, rest)) :
    (∀ t, readToken c (is ++ t) = some (new, rest ++ t)) ∧ rest <:+ is ∨
      isWhitespace c = true ∧ rest = [0] ∨
      ∃ s l, new = [⟨.numericValue, s⟩] ∧ rest = [l] ∧
        (l = 0 ∨ is ≠ [] ∧ isNumberEnd l = true) := by
  unfold readToken at h ⊢
  cases htype : charType c with
  | some type =>
      rw [htype] at h
      cases h
      exact Or.inl ⟨fun t => rfl, List.suffix_refl _⟩
  | none =>
      simp only [htype] at h ⊢
      by_cases hquote : c = byte '"'
      · simp only [if_pos hquote] at h ⊢
        exact Or.inl (map_settles (handleString 0 · [])
          (fun s => [⟨.dblQuote, [c]⟩, ⟨.stringValue, s⟩, ⟨.dblQuote, [c]⟩])
          handleString_append h)
      simp only [if_neg hquote] at h ⊢
      by_cases hspace : isWhitespace c = true
      · simp only [if_pos hspace] at h ⊢
        cases h
        -- Whitespace and numbers are read until something else comes.
        rcases readWhile_settles isWhitespace is [c] 0 with ⟨happend, hsuffix⟩ | ⟨hrest, hlast⟩
        · refine Or.inl ⟨fun t => ?_, hsuffix⟩
          rw [handleWhitespace, happend]
          rfl
        · exact Or.inr (Or.inl ⟨hspace, by rw [handleWhitespace, hrest, hlast]⟩)
      simp only [if_neg hspace] at h ⊢
      by_cases hnumeric : (decide (c = byte '-') || isDigit c) = true
      · simp only [if_pos hnumeric] at h ⊢
        rcases Option.map_eq_some_iff.mp h with ⟨r, hnumber, heq⟩
        cases heq
        rcases handleNumeric_settles hnumber with ⟨happend, hsuffix⟩ | ⟨hrest, hlast⟩
        · refine Or.inl ⟨fun t => ?_, hsuffix⟩
          rw [happend, Option.map_some]
          rfl
        · exact Or.inr (Or.inr ⟨_, _, rfl, by rw [hrest], hlast⟩)
      simp only [if_neg hnumeric] at h ⊢
      by_cases hboolean : (decide (c = byte 't') || decide (c = byte 'f')) = true
      · simp only [if_pos hboolean] at h ⊢
        exact Or.inl (map_settles (handleBoolean c) (fun s => [⟨.booleanValue, s⟩])
          handleBoolean_append h)
      simp only [if_neg hboolean] at h ⊢
      by_cases hnull : c = byte 'n'
      · simp only [if_pos hnull] at h ⊢
        exact Or.inl (map_settles (handleNull c) (fun s => [⟨.nullValue, s⟩])
          handleNull_append h)
      · rw [if_neg hnull] at h
        cases h

end Json

end CodingChallenges
