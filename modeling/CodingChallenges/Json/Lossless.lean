import CodingChallenges.Json.Numerals
import CodingChallenges.Json.Strings

/-!
# What the Tokenizer Keeps of the Input

The values of the tokens, one after the other, are the input, if no round of the loop
goes wrong. There are three ways for a round to do so, and each of them shows in what
remains of the input at its beginning.

* It begins with a zero byte. The loop takes it for the end of the input and drops it
  together with all that follows.
* It begins with a negative integer with a zero behind the first digit. Each of these
  zeros is appended twice.
* It is a number with an exponent, up to the end of the input. The byte that is handed
  back is then the last one of the number, and it is read once more.

What is lost or repeated in one round is not made up for by another: behind the digits
of an integer no digit follows, so the zeros are too many, and a round that hands back
a byte of a number gives one more token or fails.

## Main definitions

* `values`: The text of the tokens.
* `DoublesZeros`, `EndsInExponent`, `Safe`: Where a round goes wrong, and where it does not.
* `Remaining`: What remains of the input at the beginning of a round.

## Theorems

* `round_of_scan`: What a round makes of what remains.
* `values_tokenizeFrom_iff`: The rounds from a point on.
* `values_tokenize_iff`: When the tokens keep the input.
-/

namespace CodingChallenges

namespace Json

/-- The text of the tokens. -/
def values (tokens : List Token) : List UInt8 :=
  tokens.flatMap Token.value

/-- A negative integer with a zero behind its first digit. -/
def DoublesZeros (m : List UInt8) : Prop :=
  ∃ d ds t, m = byte '-' :: d :: (ds ++ t) ∧ isDigit d = true ∧ d ≠ byte '0' ∧ IsDigits ds ∧
    byte '0' ∈ ds

/-- A number with an exponent, and nothing behind it. -/
def EndsInExponent (m : List UInt8) : Prop :=
  ∃ i f e, m = i ++ (f ++ e) ∧ (IsInteger i ∨ i = [byte '-']) ∧
    (IsFraction f ∨ f = [byte '.']) ∧ IsExponentStart e

/-- A round that begins here does not go wrong. -/
structure Safe (m : List UInt8) : Prop where
  nul : m.head? ≠ some 0
  zeros : ¬ DoublesZeros m
  exponent : ¬ EndsInExponent m

/-- What remains of the input at the beginning of a round, if only bytes of the input do. -/
inductive Remaining : List UInt8 → List UInt8 → Prop
  | start (input : List UInt8) : Remaining input input
  | next {input rest m : List UInt8} {new : List Token} :
      scan input = .read new rest → rest <:+ input → Remaining rest m → Remaining input m

variable {c l : UInt8} {i is ds t input rest value s m : List UInt8} {new tokens : List Token}
  {r : Reading}

theorem values_append (tokens tokens' : List Token) :
    values (tokens ++ tokens') = values tokens ++ values tokens' :=
  List.flatMap_append

theorem values_singleton (token : Token) : values [token] = token.value :=
  List.append_nil _

/-! ### Tokens that are not numbers -/

theorem readRemaining_eq_some {remaining : List UInt8}
    (h : readRemaining remaining is s = some (value, rest)) :
    value = s ++ remaining ∧ is = remaining ++ rest := by
  unfold readRemaining at h
  by_cases hread : is.take remaining.length = remaining
  · rw [if_pos hread] at h
    cases h
    refine ⟨rfl, ?_⟩
    calc
      is = is.take remaining.length ++ is.drop remaining.length := by rw [List.take_append_drop]
      _ = remaining ++ is.drop remaining.length := by rw [hread]
  · rw [if_neg hread] at h
    cases h

theorem handleBoolean_eq_some (h : handleBoolean c is = some (value, rest)) :
    c :: is = value ++ rest := by
  unfold handleBoolean at h
  by_cases htrue : c = byte 't'
  · rw [if_pos htrue] at h
    rcases readRemaining_eq_some h with ⟨rfl, rfl⟩
    rfl
  rw [if_neg htrue] at h
  by_cases hfalse : c = byte 'f'
  · rw [if_pos hfalse] at h
    rcases readRemaining_eq_some h with ⟨rfl, rfl⟩
    rfl
  · rw [if_neg hfalse] at h
    cases h

theorem handleNull_eq_some (h : handleNull c is = some (value, rest)) :
    c :: is = value ++ rest := by
  unfold handleNull at h
  by_cases hnull : c = byte 'n'
  · rw [if_pos hnull] at h
    rcases readRemaining_eq_some h with ⟨rfl, rfl⟩
    rfl
  · rw [if_neg hnull] at h
    cases h

/-- A token that is not a number has the bytes that were read as its text. -/
theorem readToken_values (hc : ¬ (decide (c = byte '-') || isDigit c) = true)
    (h : readToken c is = some (new, rest)) :
    c :: is = values new ++ rest ∨
      c :: is = values new ∧ (∀ b ∈ c :: is, isWhitespace b = true) ∧ rest = [0] := by
  unfold readToken at h
  cases htype : charType c with
  | some type =>
      rw [htype] at h
      cases h
      exact Or.inl rfl
  | none =>
      simp only [htype] at h
      by_cases hquote : c = byte '"'
      · rw [if_pos hquote] at h
        rcases Option.map_eq_some_iff.mp h with ⟨⟨value, rest'⟩, hstring, heq⟩
        cases heq
        rcases handleString_eq_some hstring with ⟨digits, t, hlength, -, rfl, rfl, -⟩
        rw [List.length_eq_zero_iff.mp hlength, hquote]
        exact Or.inl (by simp [values])
      rw [if_neg hquote] at h
      by_cases hspace : isWhitespace c = true
      · rw [if_pos hspace] at h
        cases h
        rcases readWhile_eq isWhitespace is [c] 0 rfl with ⟨u, hu, htoken, htook⟩
        rw [values_singleton, handleWhitespace, htoken]
        cases htook with
        | found heq _ => exact Or.inl (congrArg (c :: ·) heq)
        -- At the end of the input a byte is made up that was not read.
        | ended heq hrest hlast =>
            refine Or.inr ⟨congrArg (c :: ·) heq, List.forall_mem_cons.mpr ⟨hspace, ?_⟩, ?_⟩
            · rwa [heq]
            · rw [hrest, hlast]
      -- A number is excluded, so that only the two kinds of words are left.
      rw [if_neg hspace, if_neg hc] at h
      by_cases hboolean : (decide (c = byte 't') || decide (c = byte 'f')) = true
      · rw [if_pos hboolean] at h
        rcases Option.map_eq_some_iff.mp h with ⟨⟨value, rest'⟩, hword, heq⟩
        cases heq
        exact Or.inl (by rw [values_singleton, handleBoolean_eq_some hword])
      rw [if_neg hboolean] at h
      by_cases hnull : c = byte 'n'
      · rw [if_pos hnull] at h
        rcases Option.map_eq_some_iff.mp h with ⟨⟨value, rest'⟩, hword, heq⟩
        cases heq
        exact Or.inl (by rw [values_singleton, handleNull_eq_some hword])
      · rw [if_neg hnull] at h
        cases h

theorem integer_head (h : IsInteger (c :: i) ∨ c :: i = [byte '-']) :
    (decide (c = byte '-') || isDigit c) = true :=
  integer_chars h c List.mem_cons_self

/-- No round goes wrong with another token than a number. -/
theorem safe_of_not_numeric (hnul : c ≠ 0) (hc : ¬ (decide (c = byte '-') || isDigit c) = true)
    (is : List UInt8) : Safe (c :: is) := by
  refine ⟨fun hhead => hnul (Option.some.inj hhead), ?_, ?_⟩
  · rintro ⟨d, ds, t, heq, -⟩
    rw [List.cons.injEq] at heq
    rw [heq.1] at hc
    exact hc rfl
  · rintro ⟨i, f, e, heq, hi, -⟩
    cases i with
    | nil => exact integer_ne_nil hi rfl
    | cons d i =>
        rw [List.cons_append, List.cons.injEq] at heq
        rw [heq.1] at hc
        exact hc (integer_head hi)

/-! ### Numbers -/

theorem length_doubleZeros (ds : List UInt8) :
    (doubleZeros ds).length = ds.length + ds.count (byte '0') := by
  induction ds with
  | nil => rfl
  | cons c ds ih =>
      rw [doubleZeros_cons, List.length_append, ih, List.count_cons]
      by_cases hc : c = byte '0'
      · simp only [hc, ↓Char.isValue, ↓reduceIte, List.length_cons, List.length_nil, zero_add,
          Nat.reduceAdd, BEq.rfl]
        omega
      · simp only [↓Char.isValue, hc, ↓reduceIte, List.length_cons, List.length_nil, zero_add,
          beq_iff_eq, add_zero]
        omega

theorem isDigits_doubleZeros {ds : List UInt8} (h : IsDigits ds) : IsDigits (doubleZeros ds) := by
  induction ds with
  | nil => exact h
  | cons c ds ih =>
      rcases List.forall_mem_cons.mp h with ⟨hc, hds⟩
      rw [doubleZeros_cons]
      refine List.forall_mem_append.mpr ⟨?_, ih hds⟩
      by_cases hzero : c = byte '0'
      · rw [if_pos hzero]
        exact List.forall_mem_cons.mpr ⟨hc, List.forall_mem_singleton.mpr hc⟩
      · rw [if_neg hzero]
        exact List.forall_mem_singleton.mpr hc

/-- Text that was written with doubled zeros differs from what was read, whatever
    follows it, because no digit does follow what was read. -/
theorem doubleZeros_append_ne {ds z : List UInt8} (hds : IsDigits ds) (hzero : byte '0' ∈ ds)
    (ht : Outside isDigit t) : doubleZeros ds ++ z ≠ ds ++ t := by
  intro heq
  have hle := (run_within (isDigits_doubleZeros hds) ht heq).length_le
  have hpos := List.count_pos_iff.mpr hzero
  rw [length_doubleZeros] at hle
  omega

theorem doubleZeros_of_not_mem {ds : List UInt8} (h : byte '0' ∉ ds) : doubleZeros ds = ds := by
  induction ds with
  | nil => rfl
  | cons c ds ih =>
      rw [List.mem_cons, not_or] at h
      rw [doubleZeros_cons, if_neg (Ne.symm h.1), ih h.2]
      rfl

theorem length_le_respell (i : List UInt8) : i.length ≤ (respell i).length := by
  unfold respell
  split
  · split
    · simp only [List.length_cons, length_doubleZeros]
      omega
    · exact Nat.le_refl _
  · exact Nat.le_refl _

/-- Either an integer is kept, or its zeros are doubled and nothing that follows makes up
    for it. -/
theorem respell_cases (hi : IsInteger i ∨ i = [byte '-'])
    (ht : IsZero i ∨ Outside isDigit t) :
    respell i = i ∧ ¬ DoublesZeros (i ++ t) ∨
      DoublesZeros (i ++ t) ∧ ∀ z, respell i ++ z ≠ i ++ t := by
  rcases hi with (hnatural | ⟨ds, rfl, rfl | ⟨d, ds, rfl, hd, hzero, hds⟩⟩) | rfl
  · cases i with
    | nil => exact absurd rfl (integer_ne_nil (Or.inl (Or.inl hnatural)))
    | cons c i =>
        have hc : c ≠ byte '-' := by
          rintro rfl
          cases hnatural.digits _ List.mem_cons_self
        refine Or.inl ⟨respell_of_ne hc i, ?_⟩
        rintro ⟨d, ds, t', heq, -⟩
        rw [List.cons_append, List.cons.injEq] at heq
        exact hc heq.1
  · refine Or.inl ⟨rfl, ?_⟩
    rintro ⟨d, ds, t', heq, -, hzero, -⟩
    cases heq
    exact hzero rfl
  · have houtside := ht.resolve_left (by simp [IsZero, hzero])
    rw [respell_minus]
    -- Behind the first digit of a negative integer a zero is written twice.
    by_cases hmem : byte '0' ∈ ds
    · refine Or.inr ⟨⟨d, ds, t, rfl, hd, hzero, hds, hmem⟩, fun z heq => ?_⟩
      simp only [List.cons_append, List.cons.injEq, true_and] at heq
      exact doubleZeros_append_ne hds hmem houtside heq
    · refine Or.inl ⟨by rw [doubleZeros_of_not_mem hmem], ?_⟩
      rintro ⟨d', ds', t', heq, -, -, hds', hmem'⟩
      simp only [List.cons_append, List.cons.injEq, true_and] at heq
      exact hmem ((run_within hds' houtside heq.2.symm).subset hmem')
  · refine Or.inl ⟨rfl, ?_⟩
    rintro ⟨d, ds, t', heq, hd, -⟩
    have houtside : Outside isDigit t := by
      refine ht.resolve_left ?_
      rintro (h | h)
      · cases h
      · cases h
    rw [List.singleton_append, List.cons.injEq] at heq
    rw [heq.2, outside_cons, hd] at houtside
    cases houtside

/-- The characters of an exponent at the end of the input are all taken, and the last of
    them is handed back. -/
theorem readExponent_end {sign digit : Bool} (hs : ∀ c ∈ is, isDigit c = true ∨ IsSign c)
    (hl : isNumberEnd l = true) (h : readExponent sign digit is s l = some r) :
    r.stringToken = s ++ is ∧ r.rest = [] ∧ isNumberEnd r.lastReadChar = true := by
  fun_induction readExponent sign digit is s l with
  | case1 =>
      cases h
      exact ⟨(List.append_nil _).symm, rfl, hl⟩
  | case2 sign digit c is s l hsign ih =>
      rw [List.forall_mem_cons] at hs
      rw [Bool.and_eq_true, isSign_iff] at hsign
      rcases ih hs.2 hsign.2.isNumberEnd h with ⟨htoken, hrest, hlast⟩
      exact ⟨htoken.trans (List.append_cons ..).symm, hrest, hlast⟩
  | case3 => cases h
  | case4 sign digit c is s l hsign hsigns hdigit ih =>
      rw [List.forall_mem_cons] at hs
      rcases ih hs.2 (isNumberEnd_of_digit hdigit) h with ⟨htoken, hrest, hlast⟩
      exact ⟨htoken.trans (List.append_cons ..).symm, hrest, hlast⟩
  | case5 => cases h
  | case6 sign digit c is s l hsign hsigns hdigit hmissing =>
      rcases (List.forall_mem_cons.mp hs).1 with hc | hc
      · exact absurd hc hdigit
      · rw [isSign_iff.mpr hc] at hsign hsigns
        cases sign
        · exact absurd rfl hsign
        · exact absurd rfl hsigns

/-- What a round makes of what remains of the input. -/
inductive RoundOf (input : List UInt8) (new : List Token) (rest : List UInt8) : Prop
  /-- The round has kept what it has read. -/
  | whole (hsafe : Safe input) (heq : input = values new ++ rest)
  /-- It has, and has handed back the zero for the end of the input. -/
  | last (hsafe : Safe input) (heq : input = values new) (hnul : 0 ∉ input) (hrest : rest = [0])
  /-- The input has ended with a point, which no token begins with. -/
  | point (hrest : rest = [byte '.'])
  | zeros (hzeros : DoublesZeros input) (hne : ∀ z, values new ++ z ≠ input)
  | exponent (hend : EndsInExponent input) (hle : input.length ≤ (values new).length)
      (hrest : ∃ l, rest = [l] ∧ isNumberEnd l = true)

/-- A number with an exponent, and nothing behind it. -/
theorem handleNumeric_end (hend : EndsInExponent (c :: is)) (h : handleNumeric c is = some r) :
    (c :: is).length ≤ r.stringToken.length ∧ r.rest = [] ∧
      isNumberEnd r.lastReadChar = true := by
  rcases hend with ⟨i, f, e, heq, hi, hf, mark, x, rfl, hmark, hx⟩
  cases i with
  | nil => exact absurd rfl (integer_ne_nil hi)
  | cons d i =>
      rw [List.cons_append, List.cons.injEq] at heq
      have hpoint : mark ≠ byte '.' := by
        rcases hmark with rfl | rfl <;> decide
      rw [heq.1, heq.2, handleNumeric, handleFraction_of_integer hi hf hmark.not_digit hpoint,
        Option.bind_some, handleExponent, if_pos (isMark_iff.mpr hmark)] at h
      rcases readExponent_end hx hmark.isNumberEnd h with ⟨htoken, hrest, hlast⟩
      refine ⟨?_, hrest, hlast⟩
      have hle := length_le_respell (d :: i)
      rw [htoken, heq.1, heq.2]
      simp only [List.length_append, List.length_cons] at hle ⊢
      omega

theorem round_of_numeric (hc : (decide (c = byte '-') || isDigit c) = true)
    (h : handleNumeric c is = some r) :
    RoundOf (c :: is) [⟨.numericValue, r.stringToken⟩] (r.lastReadChar :: r.rest) := by
  by_cases hend : EndsInExponent (c :: is)
  · rcases handleNumeric_end hend h with ⟨hle, hrest, hlast⟩
    refine .exponent hend ?_ ⟨_, by rw [hrest], hlast⟩
    rwa [values_singleton]
  have hnul : (c :: is).head? ≠ some 0 := by
    rintro hhead
    cases hhead
    cases hc
  rcases handleNumeric_eq_some h with ⟨i, f, e, t, hi, hf, htoken, heq, ht, htook⟩
  rcases respell_cases hi ht with ⟨hkept, hzeros⟩ | ⟨hzeros, hne⟩
  · rw [← heq] at hzeros
    rw [hkept] at htoken
    cases htook with
    | found hrest _ =>
        refine .whole ⟨hnul, hzeros, hend⟩ ?_
        rw [values_singleton, htoken, heq, hrest]
        simp only [List.append_assoc]
    -- At the end of the input the byte that is handed back depends on the part that was read
    -- last.
    | ended hrest hnil hlast =>
        rw [hrest] at heq
        rcases hlast with ⟨rfl, hlast | hlast⟩ | he
        · have hvalues : c :: is = values [⟨.numericValue, r.stringToken⟩] := by
            rw [values_singleton, htoken, heq, List.append_assoc]
          refine .last ⟨hnul, hzeros, hend⟩ hvalues (fun hmem => ?_) (by rw [hnil, hlast])
          rw [heq] at hmem
          cases numeral_chars hi hf (Or.inl rfl) 0 hmem
        · exact .point (by rw [hnil, hlast])
        · exact absurd ⟨i, f, e, heq, hi, hf, he⟩ hend
  -- Doubled zeros cannot be made up for by anything behind them.
  · rw [← heq] at hzeros hne
    refine .zeros hzeros fun z hz => hne (f ++ e ++ z) ?_
    rw [values_singleton, htoken] at hz
    rw [← hz]
    simp only [List.append_assoc]

theorem round_of_scan (h : scan input = .read new rest) : RoundOf input new rest := by
  rcases scan_eq_read h with ⟨c, is, rfl, hnul, hread⟩
  by_cases hc : (decide (c = byte '-') || isDigit c) = true
  · rw [readToken_numeric hc, Option.map_eq_some_iff] at hread
    rcases hread with ⟨r, hnumber, heq⟩
    cases heq
    exact round_of_numeric hc hnumber
  · have hsafe := safe_of_not_numeric hnul hc is
    rcases readToken_values hc hread with heq | ⟨heq, hspace, hrest⟩
    · exact .whole hsafe heq
    · refine .last hsafe heq (fun hmem => ?_) hrest
      cases hspace 0 hmem

/-! ### The loop -/

/-- Unless there is an error, the tokens so far stay. -/
theorem prefix_tokenizeFrom (h : tokenizeFrom tokens input ≠ []) :
    tokens <+: tokenizeFrom tokens input := by
  fun_induction tokenizeFrom tokens input with
  | case1 tokens input hscan => exact List.prefix_refl tokens
  | case2 tokens input hscan => exact absurd rfl h
  | case3 tokens input new rest hscan ih => exact (List.prefix_append tokens new).trans (ih h)

theorem handleNumeric_pos (h : handleNumeric c is = some r) : 0 < r.stringToken.length := by
  rcases handleNumeric_eq_some h with ⟨i, f, e, t, hi, -, htoken, -⟩
  have hpos := List.length_pos_iff.mpr (integer_ne_nil hi)
  have hle := length_le_respell i
  rw [htoken, List.length_append, List.length_append]
  omega

/-- A byte of a number that is handed back at the end of the input is one too many. -/
theorem length_lt_of_numberEnd (hl : isNumberEnd l = true) (h : tokenizeFrom tokens [l] ≠ []) :
    (values tokens).length < (values (tokenizeFrom tokens [l])).length := by
  by_cases hnumeric : (decide (l = byte '-') || isDigit l) = true
  · have hnul : l ≠ 0 := by
      rintro rfl
      cases hl
    cases hnumber : handleNumeric l [] with
    | none =>
        have hread := readToken_numeric hnumeric []
        rw [hnumber, Option.map_none] at hread
        exact absurd (tokenizeFrom_fail tokens (scan_of_readToken_eq_none hnul hread)) h
    | some r =>
        have hread := readToken_numeric hnumeric []
        rw [hnumber, Option.map_some] at hread
        rw [tokenizeFrom_read tokens (scan_of_readToken hnul hread)] at h ⊢
        rcases prefix_tokenizeFrom h with ⟨more, hmore⟩
        have hpos : 0 < (values [⟨.numericValue, r.stringToken⟩]).length := by
          rw [values_singleton]
          exact handleNumeric_pos hnumber
        rw [← hmore, values_append, values_append, List.length_append, List.length_append]
        omega
  · exact absurd (tokenizeFrom_fail tokens (scan_numberEnd hl hnumeric [])) h

theorem scan_eq_stop (h : scan input = .stop) : input = [] ∨ input.head? = some 0 := by
  cases input with
  | nil => exact Or.inl rfl
  | cons c is =>
      by_cases hnul : c = 0
      · exact Or.inr (congrArg some hnul)
      · rw [scan, if_neg hnul] at h
        cases hread : readToken c is with
        | none =>
            rw [hread] at h
            cases h
        | some result =>
            rw [hread] at h
            cases h

theorem safe_nil : Safe [] := by
  refine ⟨nofun, ?_, ?_⟩
  · rintro ⟨d, ds, t, heq, -⟩
    cases heq
  · rintro ⟨i, f, e, heq, hi, -⟩
    exact integer_ne_nil hi (List.append_eq_nil_iff.mp heq.symm).1

theorem remaining_of_not_read (hscan : ∀ new rest, scan input = .read new rest → ¬ rest <:+ input) :
    Remaining input m ↔ m = input := by
  constructor
  · intro h
    cases h with
    | start => rfl
    | next hscan' hsuffix _ => exact absurd hsuffix (hscan _ _ hscan')
  · rintro rfl
    exact .start m

theorem remaining_whole (hscan : scan input = .read new rest) (hsuffix : rest <:+ input) :
    Remaining input m ↔ m = input ∨ Remaining rest m := by
  constructor
  · intro h
    cases h with
    | start => exact Or.inl rfl
    | next hscan' _ hrest =>
        rw [hscan] at hscan'
        cases hscan'
        exact Or.inr hrest
  · rintro (rfl | h)
    · exact .start m
    · exact .next hscan hsuffix h

/-- The rounds from a point on keep what remains if none of them goes wrong. -/
theorem values_tokenizeFrom_iff (h : tokenizeFrom tokens input ≠ []) :
    values (tokenizeFrom tokens input) = values tokens ++ input ↔
      ∀ m, Remaining input m → Safe m := by
  fun_induction tokenizeFrom tokens input with
  | case1 tokens input hscan =>
      -- What remains when the loop is left is lost, if it is not empty.
      have honly : ∀ m, Remaining input m ↔ m = input := by
        intro m
        refine remaining_of_not_read fun new rest hread => ?_
        rw [hscan] at hread
        cases hread
      simp only [honly, forall_eq]
      rcases scan_eq_stop hscan with rfl | hhead
      · exact iff_of_true (List.append_nil _).symm safe_nil
      · refine iff_of_false (fun heq => ?_) fun hsafe => hsafe.nul hhead
        rw [List.self_eq_append_right.mp heq] at hhead
        cases hhead
  | case2 tokens input hscan => exact absurd rfl h
  | case3 tokens input new rest hscan ih =>
      cases round_of_scan hscan with
      | whole hsafe heq =>
          -- The round keeps its part, so the other rounds decide.
          have hsuffix : rest <:+ input := ⟨values new, heq.symm⟩
          have hih := ih h
          rw [values_append, List.append_assoc, ← heq] at hih
          rw [hih]
          constructor
          · intro hrest m hm
            rcases (remaining_whole hscan hsuffix).mp hm with rfl | hm
            · exact hsafe
            · exact hrest m hm
          · intro hall m hm
            exact hall m ((remaining_whole hscan hsuffix).mpr (Or.inr hm))
      | last hsafe heq hnul hrest =>
          -- The zero that is handed back is not one of the input, and the loop stops at it.
          have honly : ∀ m, Remaining input m ↔ m = input := by
            intro m
            refine remaining_of_not_read fun new' rest' hread hsuffix => ?_
            rw [hscan] at hread
            cases hread
            rw [hrest] at hsuffix
            exact hnul (hsuffix.subset List.mem_cons_self)
          simp only [honly, forall_eq]
          refine iff_of_true ?_ hsafe
          rw [hrest, tokenizeFrom_stop _ rfl, values_append, ← heq]
      | point hrest =>
          rw [hrest] at h
          exact absurd (tokenizeFrom_fail _ rfl) h
      | zeros hzeros hne =>
          refine iff_of_false (fun heq => ?_) fun hall => (hall input (.start input)).zeros hzeros
          -- No tokens behind these make up for the zeros.
          rcases prefix_tokenizeFrom h with ⟨more, hmore⟩
          rw [← hmore, values_append, values_append, List.append_assoc] at heq
          exact hne _ (List.append_cancel_left heq)
      | exponent hend hle hrest =>
          rcases hrest with ⟨l, rfl, hl⟩
          refine iff_of_false (fun heq => ?_) fun hall => (hall input (.start input)).exponent hend
          have hlt := length_lt_of_numberEnd hl h
          rw [heq, values_append, List.length_append, List.length_append] at hlt
          omega

/-- The tokens keep the input if none of the rounds goes wrong. -/
theorem values_tokenize_iff (h : tokenize input ≠ []) :
    values (tokenize input) = input ↔ ∀ m, Remaining input m → Safe m :=
  values_tokenizeFrom_iff h

/-- The input of a document with a negative number. -/
theorem tokenize_minusTen : tokenize (inArray [byte '-', byte '1', byte '0']) =
    [⟨.openingSquareBrace, [byte '[']⟩, ⟨.numericValue, [byte '-', byte '1', byte '0', byte '0']⟩,
      ⟨.closingSquareBrace, [byte ']']⟩] := by
  rw [tokenize, tokenizeFrom_read _ rfl, tokenizeFrom_read _ rfl, tokenizeFrom_read _ rfl,
    tokenizeFrom_stop _ rfl]
  rfl

/-- A document with a string and a number, all of which is kept. -/
theorem values_tokenize_iff_string_number :
    let input := inArray [byte '"', byte 'a', byte '"', byte ',', byte ' ', byte '-', byte '7']
    tokenize input ≠ [] ∧ values (tokenize input) = input ∧ ∀ m, Remaining input m → Safe m := by
  intro input
  have htokens : tokenize input = [⟨.openingSquareBrace, [byte '[']⟩,
      ⟨.dblQuote, [byte '"']⟩, ⟨.stringValue, [byte 'a']⟩, ⟨.dblQuote, [byte '"']⟩,
      ⟨.comma, [byte ',']⟩, ⟨.whitespace, [byte ' ']⟩,
      ⟨.numericValue, [byte '-', byte '7']⟩, ⟨.closingSquareBrace, [byte ']']⟩] := by
    rw [tokenize, tokenizeFrom_read _ rfl, tokenizeFrom_read _ rfl, tokenizeFrom_read _ rfl,
      tokenizeFrom_read _ rfl, tokenizeFrom_read _ rfl, tokenizeFrom_read _ rfl,
      tokenizeFrom_stop _ rfl]
    rfl
  have hne : tokenize input ≠ [] := htokens ▸ List.cons_ne_nil _ _
  have hkept : values (tokenize input) = input := by
    rw [htokens]
    rfl
  exact ⟨hne, hkept, (values_tokenize_iff hne).mp hkept⟩

/-- A zero of a negative number is repeated. -/
theorem not_values_tokenize :
    ¬ ∀ input : List UInt8, (input.head? = some (byte '{') ∨ input.head? = some (byte '[')) →
      tokenize input ≠ [] → values (tokenize input) = input := by
  intro h
  have hne : tokenize (inArray [byte '-', byte '1', byte '0']) ≠ [] := by
    rw [tokenize_minusTen]
    exact List.cons_ne_nil _ _
  have heq := h _ (Or.inr rfl) hne
  rw [tokenize_minusTen] at heq
  exact absurd heq (by decide)

end Json

end CodingChallenges
