import CodingChallenges.Json.Suffix
import CodingChallenges.Library.Runs

/-!
# How Numbers Are Read

The text of a number has three parts, and there is a handler for each of them. Here is
what each handler takes and what it makes of it, in both directions: which texts a
handler can have taken, and that it takes them.

The handlers take more than there are numbers. The integer may be a minus sign alone,
the fraction a point alone, and the sign of the exponent may stand behind some of its
digits. And `handle_integer` does not always keep what it takes: behind a minus sign it
appends each zero twice, apart from the first digit.

## Main definitions

* `IsInteger`, `IsFraction`, `IsExponent`: The parts of a number.
* `SignAmongDigits`, `IsNumeral`: What is taken for them as well.
* `respell`: What `handle_integer` makes of what it takes.

## Theorems

* `IsNumeral.unique`: There is only one way to see the parts in a text.
* `handleNumeric_eq_some`: What is taken for a number.
* `handleNumeric_of_numeral`: What is taken up to a byte that belongs to no number.
-/

namespace CodingChallenges

namespace Json

/-- Nothing but digits. -/
def IsDigits (ds : List UInt8) : Prop :=
  ∀ c ∈ ds, isDigit c = true

/-- A zero, or digits that do not begin with one. -/
def IsNatural (ds : List UInt8) : Prop :=
  ds = [byte '0'] ∨ ∃ d ds', ds = d :: ds' ∧ isDigit d = true ∧ d ≠ byte '0' ∧ IsDigits ds'

/-- A natural number, with or without a minus. -/
def IsInteger (i : List UInt8) : Prop :=
  IsNatural i ∨ ∃ ds, i = byte '-' :: ds ∧ IsNatural ds

/-- The integers behind which the handler does not look for more digits. -/
def IsZero (i : List UInt8) : Prop :=
  i = [byte '0'] ∨ i = [byte '-', byte '0']

/-- Nothing, or a point with digits behind it. -/
def IsFraction (f : List UInt8) : Prop :=
  f = [] ∨ ∃ ds, f = byte '.' :: ds ∧ ds ≠ [] ∧ IsDigits ds

/-- What an exponent begins with. -/
def IsMark (c : UInt8) : Prop :=
  c = byte 'e' ∨ c = byte 'E'

/-- What may stand in front of the digits of an exponent. -/
def IsSign (c : UInt8) : Prop :=
  c = byte '+' ∨ c = byte '-'

/-- Nothing, or a mark with digits behind it. -/
def IsExponent (e : List UInt8) : Prop :=
  e = [] ∨ ∃ mark sign ds, e = mark :: (sign ++ ds) ∧ IsMark mark ∧
    (sign = [] ∨ ∃ c, sign = [c] ∧ IsSign c) ∧ ds ≠ [] ∧ IsDigits ds

/-- An exponent with the sign behind some of the digits. -/
def SignAmongDigits (e : List UInt8) : Prop :=
  ∃ mark ds sign ds', e = mark :: (ds ++ sign :: ds') ∧ IsMark mark ∧ ds ≠ [] ∧ IsDigits ds ∧
    IsSign sign ∧ IsDigits ds'

/-- A mark with only digits and signs behind it. -/
def IsExponentStart (e : List UInt8) : Prop :=
  ∃ mark x, e = mark :: x ∧ IsMark mark ∧ ∀ c ∈ x, isDigit c = true ∨ IsSign c

/-- Three parts that are taken for those of a number. -/
structure IsNumeral (i f e : List UInt8) : Prop where
  integer : IsInteger i ∨ i = [byte '-']
  fraction : IsFraction f ∨ f = [byte '.']
  exponent : IsExponent e ∨ SignAmongDigits e

/-- Every zero twice. -/
def doubleZeros (ds : List UInt8) : List UInt8 :=
  ds.flatMap fun c => if c = byte '0' then [c, c] else [c]

/-- What `handle_integer` makes of an integer. -/
def respell : List UInt8 → List UInt8
  | c :: d :: ds => if c = byte '-' then c :: d :: doubleZeros ds else c :: d :: ds
  | i => i

variable {c d : UInt8} {s i f e is ds t : List UInt8} {r r' : Reading}

/-! ### The characters of the parts -/

theorem isDigits_nil : IsDigits [] :=
  List.forall_mem_nil _

theorem IsNatural.digits (h : IsNatural ds) : IsDigits ds := by
  rcases h with rfl | ⟨d, ds', rfl, hd, -, hds'⟩
  · intro c hc
    rw [List.mem_singleton.mp hc]
    rfl
  · exact List.forall_mem_cons.mpr ⟨hd, hds'⟩

/-- Digits with a symbol in front of them. -/
theorem symbol_chars (hds : IsDigits ds) (b : UInt8) :
    ∀ c ∈ b :: ds, (decide (c = b) || isDigit c) = true := by
  intro c hc
  rcases List.mem_cons.mp hc with rfl | hmem
  · rw [decide_eq_true rfl, Bool.true_or]
  · rw [hds c hmem, Bool.or_true]

/-- The characters of an integer. -/
theorem integer_chars (h : IsInteger i ∨ i = [byte '-']) :
    ∀ c ∈ i, (decide (c = byte '-') || isDigit c) = true := by
  rcases h with (hnatural | ⟨ds, rfl, hnatural⟩) | rfl
  · intro c hc
    rw [hnatural.digits c hc, Bool.or_true]
  · exact symbol_chars hnatural.digits (byte '-')
  · exact symbol_chars isDigits_nil (byte '-')

theorem integer_ne_nil (h : IsInteger i ∨ i = [byte '-']) : i ≠ [] := by
  rintro rfl
  rcases h with ((h | ⟨d, ds, h, -⟩) | ⟨ds, h, -⟩) | h
  · cases h
  · cases h
  · cases h
  · cases h

/-- The characters of a fraction. -/
theorem fraction_chars (h : IsFraction f ∨ f = [byte '.']) :
    ∀ c ∈ f, (decide (c = byte '.') || isDigit c) = true := by
  rcases h with (rfl | ⟨ds, rfl, -, hds⟩) | rfl
  · exact List.forall_mem_nil _
  · exact symbol_chars hds (byte '.')
  · exact symbol_chars isDigits_nil (byte '.')

theorem IsMark.not_digit (h : IsMark c) : isDigit c = false := by
  rcases h with rfl | rfl <;> rfl

theorem IsSign.not_digit (h : IsSign c) : isDigit c = false := by
  rcases h with rfl | rfl <;> rfl

theorem IsMark.isNumberEnd (h : IsMark c) : isNumberEnd c = true := by
  rcases h with rfl | rfl <;> rfl

theorem IsSign.isNumberEnd (h : IsSign c) : isNumberEnd c = true := by
  rcases h with rfl | rfl <;> rfl

theorem isMark_iff : (decide (c = byte 'e') || decide (c = byte 'E')) = true ↔ IsMark c := by
  rw [Bool.or_eq_true, decide_eq_true_eq, decide_eq_true_eq, IsMark]

theorem isSign_iff : (decide (c = byte '-') || decide (c = byte '+')) = true ↔ IsSign c := by
  rw [Bool.or_eq_true, decide_eq_true_eq, decide_eq_true_eq, IsSign, or_comm]

/-- The characters of an exponent. -/
theorem exponent_chars (h : IsExponent e ∨ SignAmongDigits e) : e = [] ∨ IsExponentStart e := by
  rcases h with (rfl | ⟨mark, sign, ds, rfl, hmark, hsign, -, hds⟩) |
    ⟨mark, ds, sign, ds', rfl, hmark, -, hds, hsign, hds'⟩
  · exact Or.inl rfl
  · have hdigits : ∀ c ∈ ds, isDigit c = true ∨ IsSign c := fun c hc => Or.inl (hds c hc)
    refine Or.inr ⟨mark, _, rfl, hmark, List.forall_mem_append.mpr ⟨?_, hdigits⟩⟩
    rcases hsign with rfl | ⟨c, rfl, hsign⟩
    · exact List.forall_mem_nil _
    · exact List.forall_mem_singleton.mpr (Or.inr hsign)
  · have hdigits : ∀ c ∈ ds, isDigit c = true ∨ IsSign c := fun c hc => Or.inl (hds c hc)
    refine Or.inr ⟨mark, _, rfl, hmark, List.forall_mem_append.mpr ⟨hdigits, ?_⟩⟩
    exact List.forall_mem_cons.mpr ⟨Or.inr hsign, fun c hc => Or.inl (hds' c hc)⟩

theorem isNumberEnd_of_digit (h : isDigit c = true) : isNumberEnd c = true := by
  rw [isNumberEnd, h, Bool.or_true]

theorem isNumberEnd_of_symbol {b : UInt8} (hb : isNumberEnd b = true)
    (h : (decide (c = b) || isDigit c) = true) : isNumberEnd c = true := by
  rw [Bool.or_eq_true, decide_eq_true_eq] at h
  rcases h with rfl | hdigit
  · exact hb
  · exact isNumberEnd_of_digit hdigit

/-- All of them are characters of numbers. -/
theorem numeral_chars (hi : IsInteger i ∨ i = [byte '-']) (hf : IsFraction f ∨ f = [byte '.'])
    (he : e = [] ∨ IsExponentStart e) : ∀ c ∈ i ++ (f ++ e), isNumberEnd c = true := by
  refine List.forall_mem_append.mpr ⟨?_, List.forall_mem_append.mpr ⟨?_, ?_⟩⟩
  · exact fun c hc => isNumberEnd_of_symbol rfl (integer_chars hi c hc)
  · exact fun c hc => isNumberEnd_of_symbol rfl (fraction_chars hf c hc)
  · rcases he with rfl | ⟨mark, x, rfl, hmark, hx⟩
    · exact List.forall_mem_nil _
    refine List.forall_mem_cons.mpr ⟨hmark.isNumberEnd, fun c hc => ?_⟩
    rcases hx c hc with hdigit | hsign
    · exact isNumberEnd_of_digit hdigit
    · exact hsign.isNumberEnd

theorem exponent_outside {kind : UInt8 → Bool} (he : IsExponent e ∨ SignAmongDigits e)
    (hkind : ∀ c, IsMark c → kind c = false) : Outside kind e := by
  rcases exponent_chars he with rfl | ⟨mark, x, rfl, hmark, -⟩
  · exact outside_nil
  · exact outside_cons.mpr (hkind mark hmark)

theorem fraction_outside {kind : UInt8 → Bool} (hf : IsFraction f ∨ f = [byte '.'])
    (hpoint : kind (byte '.') = false) (hv : Outside kind t) : Outside kind (f ++ t) := by
  rcases hf with (rfl | ⟨ds, rfl, -⟩) | rfl
  · exact hv
  · exact outside_cons.mpr hpoint
  · exact outside_cons.mpr hpoint

/-- There is only one way to see the parts in a text. -/
theorem IsNumeral.unique {i' f' e' : List UInt8} (h : IsNumeral i f e) (h' : IsNumeral i' f' e')
    (heq : i ++ f ++ e = i' ++ f' ++ e') : i = i' ∧ f = f' ∧ e = e' := by
  have hexponent : ∀ {f e}, (IsFraction f ∨ f = [byte '.']) →
      (IsExponent e ∨ SignAmongDigits e) →
      Outside (fun c => decide (c = byte '-') || isDigit c) (f ++ e) := by
    intro f e hf he
    refine fraction_outside hf rfl (exponent_outside he fun c hc => ?_)
    rcases hc with rfl | rfl <;> rfl
  have hmark : ∀ c, IsMark c → (decide (c = byte '.') || isDigit c) = false := by
    rintro c (rfl | rfl) <;> rfl
  rw [List.append_assoc, List.append_assoc] at heq
  rcases run_append_inj (integer_chars h.integer) (integer_chars h'.integer)
    (hexponent h.fraction h.exponent) (hexponent h'.fraction h'.exponent) heq with ⟨hi, hrest⟩
  exact ⟨hi, run_append_inj (fraction_chars h.fraction) (fraction_chars h'.fraction)
    (exponent_outside h.exponent hmark) (exponent_outside h'.exponent hmark) hrest⟩

/-! ### What the handlers have taken -/

/-- A handler has taken a text from an input: up to the byte that it hands back, or up to
    the end of the input. -/
inductive Reading.Took (r : Reading) (found ended : UInt8 → Prop) (input text : List UInt8) : Prop
  | found (heq : input = text ++ r.lastReadChar :: r.rest) (hlast : found r.lastReadChar)
  | ended (heq : input = text) (hrest : r.rest = []) (hlast : ended r.lastReadChar)

theorem Reading.Took.append {found ended : UInt8 → Prop} (h : r.Took found ended is t)
    (u : List UInt8) : r.Took found ended (u ++ is) (u ++ t) := by
  cases h with
  | found heq hlast => exact .found (by rw [heq, List.append_assoc]) hlast
  | ended heq hrest hlast => exact .ended (by rw [heq]) hrest hlast

theorem Reading.Took.imp {found found' ended ended' : UInt8 → Prop} (h : r.Took found ended is t)
    (hfound : found r.lastReadChar → found' r.lastReadChar)
    (hended : ended r.lastReadChar → ended' r.lastReadChar) : r.Took found' ended' is t := by
  cases h with
  | found heq hlast => exact .found heq (hfound hlast)
  | ended heq hrest hlast => exact .ended heq hrest (hended hlast)

/-- The characters of the kind are taken. -/
theorem readWhile_eq (kind : UInt8 → Bool) (is s : List UInt8) (l : UInt8) {r : Reading}
    (h : readWhile kind is s l = r) :
    ∃ u, (∀ c ∈ u, kind c = true) ∧ r.stringToken = s ++ u ∧
      r.Took (kind · = false) (· = l) is u := by
  induction is generalizing s with
  | nil =>
      cases h
      exact ⟨[], List.forall_mem_nil _, (List.append_nil s).symm, .ended rfl rfl rfl⟩
  | cons c is ih =>
      by_cases hkind : kind c = true
      · rw [readWhile, if_pos hkind] at h
        rcases ih (s ++ [c]) h with ⟨u, hu, htoken, htook⟩
        refine ⟨c :: u, List.forall_mem_cons.mpr ⟨hkind, hu⟩, ?_, htook.append [c]⟩
        rw [htoken]
        exact (List.append_cons s c u).symm
      · rw [readWhile, if_neg hkind] at h
        cases h
        refine ⟨[], List.forall_mem_nil _, (List.append_nil s).symm, .found rfl ?_⟩
        simpa only [Bool.not_eq_true] using hkind

theorem doubleZeros_cons (c : UInt8) (ds : List UInt8) :
    doubleZeros (c :: ds) = (if c = byte '0' then [c, c] else [c]) ++ doubleZeros ds :=
  List.flatMap_cons

theorem readDigitsAfterSign_digit (hc : isDigit c = true) (is s : List UInt8) (l : UInt8) :
    readDigitsAfterSign false (c :: is) s l =
      readDigitsAfterSign false is (s ++ if c = byte '0' then [c, c] else [c]) l := by
  rw [readDigitsAfterSign.eq_def]
  by_cases hzero : c = byte '0'
  · simp only [hzero, ↓Char.isValue, ↓reduceIte, Bool.false_eq_true, List.append_assoc,
      List.cons_append, List.nil_append]
  · simp only [↓Char.isValue, hzero, ↓reduceIte, hc]

theorem readDigitsAfterSign_other (first : Bool) (hc : isDigit c = false) (is s : List UInt8)
    (l : UInt8) : readDigitsAfterSign first (c :: is) s l = some ⟨s, c, is⟩ := by
  have hzero : c ≠ byte '0' := by
    rintro rfl
    cases hc
  unfold readDigitsAfterSign
  rw [if_neg hzero, if_neg (by rw [hc]; decide)]

/-- Behind the first digit every digit is taken, and the zeros are doubled. -/
theorem readDigitsAfterSign_eq {l : UInt8} (h : readDigitsAfterSign false is s l = some r) :
    ∃ u, IsDigits u ∧ r.stringToken = s ++ doubleZeros u ∧
      r.Took (isDigit · = false) (· = l) is u := by
  induction is generalizing s with
  | nil =>
      cases h
      exact ⟨[], isDigits_nil, (List.append_nil s).symm, .ended rfl rfl rfl⟩
  | cons c is ih =>
      by_cases hdigit : isDigit c = true
      · rw [readDigitsAfterSign_digit hdigit] at h
        rcases ih h with ⟨u, hu, htoken, htook⟩
        refine ⟨c :: u, List.forall_mem_cons.mpr ⟨hdigit, hu⟩, ?_, htook.append [c]⟩
        rw [htoken, doubleZeros_cons, List.append_assoc]
      · rw [Bool.not_eq_true] at hdigit
        rw [readDigitsAfterSign_other false hdigit] at h
        cases h
        exact ⟨[], isDigits_nil, (List.append_nil s).symm, .found rfl hdigit⟩

theorem respell_minus (d : UInt8) (ds : List UInt8) :
    respell (byte '-' :: d :: ds) = byte '-' :: d :: doubleZeros ds := by
  rw [respell, if_pos rfl]

theorem respell_of_ne (hc : c ≠ byte '-') (t : List UInt8) : respell (c :: t) = c :: t := by
  cases t with
  | nil => rfl
  | cons d t => rw [respell, if_neg hc]

/-- Behind a minus sign. -/
theorem handleInteger_minus (h : readDigitsAfterSign true is [byte '-'] 0 = some r) :
    ∃ i, (IsInteger i ∨ i = [byte '-']) ∧ r.stringToken = respell i ∧
      r.Took (isDigit · = true → IsZero i) (· = 0) (byte '-' :: is) i := by
  cases is with
  | nil =>
      cases h
      exact ⟨[byte '-'], Or.inr rfl, rfl, .ended rfl rfl rfl⟩
  | cons c is =>
      unfold readDigitsAfterSign at h
      by_cases hzero : c = byte '0'
      · -- The byte behind a zero is read with it, and may be a digit.
        rw [if_pos hzero, if_pos rfl] at h
        cases is with
        | nil => cases h
        | cons c' is =>
            cases h
            rw [hzero]
            exact ⟨_, Or.inl (Or.inr ⟨_, rfl, Or.inl rfl⟩), rfl, .found rfl fun _ => Or.inr rfl⟩
      rw [if_neg hzero] at h
      by_cases hdigit : isDigit c = true
      · rw [if_pos hdigit] at h
        rcases readDigitsAfterSign_eq h with ⟨u, hu, htoken, htook⟩
        have hi : IsInteger (byte '-' :: c :: u) :=
          Or.inr ⟨_, rfl, Or.inr ⟨c, u, rfl, hdigit, hzero, hu⟩⟩
        refine ⟨_, Or.inl hi, ?_, ?_⟩
        · rw [htoken, respell_minus]
          rfl
        · -- All the digits were taken, so what is handed back is none.
          refine (htook.append [byte '-', c]).imp (fun hlast hdigit' => ?_) id
          rw [hlast] at hdigit'
          cases hdigit'
      · rw [if_neg hdigit] at h
        cases h
        exact ⟨[byte '-'], Or.inr rfl, rfl, .found rfl fun hdigit' => absurd hdigit' hdigit⟩

theorem range_iff : (decide (byte '1' ≤ c) && decide (c ≤ byte '9')) = true ↔
    isDigit c = true ∧ c ≠ byte '0' := by
  have hzero : (byte '0').toNat = 48 := rfl
  have hone : (byte '1').toNat = 49 := rfl
  simp only [isDigit, Bool.and_eq_true, decide_eq_true_eq, UInt8.le_iff_toNat_le, ne_eq,
    ← UInt8.toNat_inj, hzero, hone]
  omega

/-- What is taken for an integer. -/
theorem handleInteger_eq_some (h : handleInteger c is = some r) :
    ∃ i, (IsInteger i ∨ i = [byte '-']) ∧ r.stringToken = respell i ∧
      r.Took (isDigit · = true → IsZero i) (· = 0) (c :: is) i := by
  unfold handleInteger at h
  by_cases hminus : c = byte '-'
  · rw [if_pos hminus] at h
    rw [hminus] at h ⊢
    exact handleInteger_minus h
  rw [if_neg hminus] at h
  by_cases hrange : (decide (byte '1' ≤ c) && decide (c ≤ byte '9')) = true
  · rw [if_pos hrange, Option.some.injEq] at h
    rcases range_iff.mp hrange with ⟨hdigit, hzero⟩
    rcases readWhile_eq isDigit is [c] 0 h with ⟨u, hu, htoken, htook⟩
    refine ⟨c :: u, Or.inl (Or.inl (Or.inr ⟨c, u, rfl, hdigit, hzero, hu⟩)), ?_, ?_⟩
    · rw [htoken, respell_of_ne hminus]
      rfl
    · refine (htook.append [c]).imp (fun hlast hdigit' => ?_) id
      rw [hlast] at hdigit'
      cases hdigit'
  rw [if_neg hrange] at h
  by_cases hzero : c = byte '0'
  · rw [if_pos hzero] at h
    cases is with
    -- A zero needs a byte behind it, and it is not looked at.
    | nil => cases h
    | cons c' is =>
        cases h
        rw [hzero]
        exact ⟨_, Or.inl (Or.inl (Or.inl rfl)), rfl, .found rfl fun _ => Or.inl rfl⟩
  · rw [if_neg hzero] at h
    cases h

theorem fraction_of_digits (hds : IsDigits ds) :
    IsFraction (byte '.' :: ds) ∨ byte '.' :: ds = [byte '.'] := by
  cases ds with
  | nil => exact Or.inr rfl
  | cons d ds => exact Or.inl (Or.inr ⟨d :: ds, rfl, List.cons_ne_nil d ds, hds⟩)

/-- What is taken for a fraction. -/
theorem handleFraction_eq_some (h : handleFraction r = some r') :
    ∃ f, (IsFraction f ∨ f = [byte '.']) ∧ r'.stringToken = r.stringToken ++ f ∧
      r'.Took (fun _ => True) (· = byte '.') (r.lastReadChar :: r.rest) f := by
  unfold handleFraction at h
  by_cases hpoint : r.lastReadChar = byte '.'
  · rw [hpoint, if_neg (by decide), if_neg (by decide), Option.some.injEq] at h
    rcases readWhile_eq isDigit r.rest _ _ h with ⟨u, hu, htoken, htook⟩
    refine ⟨byte '.' :: u, fraction_of_digits hu, ?_, ?_⟩
    · rw [htoken]
      exact (List.append_cons ..).symm
    · rw [hpoint]
      exact (htook.append [byte '.']).imp (fun _ => trivial) id
  · have hsame : r = r' := by
      rw [if_pos hpoint] at h
      split_ifs at h <;> exact Option.some.inj h
    rw [hsame]
    exact ⟨[], Or.inl (Or.inl rfl), (List.append_nil _).symm, .found rfl trivial⟩

/-- What the loop of `handle_exponent` takes: digits, and one sign among them if there was
    none before. -/
def IsExponentTail (sign : Bool) (x : List UInt8) : Prop :=
  IsDigits x ∨ sign = false ∧ ∃ ds c ds', x = ds ++ c :: ds' ∧ IsDigits ds ∧ IsSign c ∧ IsDigits ds'

theorem IsExponentTail.cons {sign : Bool} {x : List UInt8} (h : IsExponentTail sign x)
    (hc : isDigit c = true) : IsExponentTail sign (c :: x) := by
  rcases h with h | ⟨hsign, ds, c', ds', rfl, hds, hc', hds'⟩
  · exact Or.inl (List.forall_mem_cons.mpr ⟨hc, h⟩)
  · exact Or.inr ⟨hsign, c :: ds, c', ds', rfl, List.forall_mem_cons.mpr ⟨hc, hds⟩, hc', hds'⟩

theorem readExponent_eq_some {sign digit : Bool} {l : UInt8}
    (h : readExponent sign digit is s l = some r) :
    ∃ x, IsExponentTail sign x ∧ r.stringToken = s ++ x ∧
      r.Took (fun _ => digit = true ∨ ∃ c ∈ x, isDigit c = true) (fun _ => True) is x := by
  fun_induction readExponent sign digit is s l with
  | case1 =>
      cases h
      exact ⟨[], Or.inl isDigits_nil, (List.append_nil _).symm, .ended rfl rfl trivial⟩
  | case2 sign digit c is s l hsign ih =>
      rcases ih h with ⟨x, hx, htoken, htook⟩
      -- There is no second sign.
      have hdigits : IsDigits x := by
        rcases hx with hx | ⟨hfalse, -⟩
        · exact hx
        · cases hfalse
      rw [Bool.and_eq_true, Bool.not_eq_true', isSign_iff] at hsign
      refine ⟨c :: x, Or.inr ⟨hsign.1, [], c, x, rfl, isDigits_nil, hsign.2, hdigits⟩, ?_, ?_⟩
      · rw [htoken]
        exact (List.append_cons s c x).symm
      · refine (htook.append [c]).imp (Or.imp id ?_) id
        rintro ⟨d, hd, hdigit⟩
        exact ⟨d, List.mem_cons_of_mem c hd, hdigit⟩
  | case3 => cases h
  | case4 sign digit c is s l hsign hsigns hdigit ih =>
      rcases ih h with ⟨x, hx, htoken, htook⟩
      refine ⟨c :: x, hx.cons hdigit, ?_, ?_⟩
      · rw [htoken]
        exact (List.append_cons s c x).symm
      · exact (htook.append [c]).imp (fun _ => Or.inr ⟨c, List.mem_cons_self, hdigit⟩) id
  | case5 => cases h
  | case6 sign digit c is s l hsign hsigns hdigit hmissing =>
      -- Without a digit before it, this byte would have been an error.
      cases h
      refine ⟨[], Or.inl isDigits_nil, (List.append_nil _).symm, .found rfl (Or.inl ?_)⟩
      cases sign <;> simp_all

theorem IsExponentTail.chars {x : List UInt8} (h : IsExponentTail false x) :
    ∀ c ∈ x, isDigit c = true ∨ IsSign c := by
  rcases h with h | ⟨-, ds, c, ds', rfl, hds, hc, hds'⟩
  · exact fun c hc => Or.inl (h c hc)
  · refine List.forall_mem_append.mpr ⟨fun c hc => Or.inl (hds c hc), ?_⟩
    exact List.forall_mem_cons.mpr ⟨Or.inr hc, fun c hc => Or.inl (hds' c hc)⟩

theorem exponent_of_tail {mark : UInt8} {x : List UInt8} (hmark : IsMark mark)
    (hx : IsExponentTail false x) (hdigit : ∃ c ∈ x, isDigit c = true) :
    IsExponent (mark :: x) ∨ SignAmongDigits (mark :: x) := by
  rcases hdigit with ⟨d, hd, hdigit⟩
  rcases hx with hx | ⟨-, ds, c, ds', rfl, hds, hc, hds'⟩
  · exact Or.inl (Or.inr ⟨mark, [], x, rfl, hmark, Or.inl rfl, List.ne_nil_of_mem hd, hx⟩)
  by_cases hnil : ds = []
  · -- The sign is the first character, so it is not the digit that there is.
    rw [hnil, List.nil_append, List.mem_cons] at hd
    have hne : ds' ≠ [] := by
      rcases hd with rfl | hmem
      · rw [hc.not_digit] at hdigit
        cases hdigit
      · exact List.ne_nil_of_mem hmem
    rw [hnil]
    exact Or.inl (Or.inr ⟨mark, [c], ds', rfl, hmark, Or.inr ⟨c, rfl, hc⟩, hne, hds'⟩)
  · exact Or.inr ⟨mark, ds, c, ds', rfl, hmark, hnil, hds, hc, hds'⟩

/-- What is taken for an exponent. -/
theorem handleExponent_eq_some (h : handleExponent r = some r') :
    ∃ e, r'.stringToken = r.stringToken ++ e ∧
      r'.Took (fun _ => IsExponent e ∨ SignAmongDigits e) (fun _ => IsExponentStart e)
        (r.lastReadChar :: r.rest) e := by
  unfold handleExponent at h
  by_cases hmark : IsMark r.lastReadChar
  · rw [if_pos (isMark_iff.mpr hmark)] at h
    rcases readExponent_eq_some h with ⟨x, hx, htoken, htook⟩
    refine ⟨r.lastReadChar :: x, ?_, ?_⟩
    · rw [htoken]
      exact (List.append_cons ..).symm
    · refine (htook.append [r.lastReadChar]).imp (fun hdigit => ?_)
        fun _ => ⟨_, x, rfl, hmark, hx.chars⟩
      exact exponent_of_tail hmark hx (hdigit.resolve_left Bool.false_ne_true)
  · rw [if_neg (isMark_iff.not.mpr hmark)] at h
    cases h
    exact ⟨[], (List.append_nil _).symm, .found rfl (Or.inl (Or.inl rfl))⟩

/-- What is taken for a number. Where the input has ended behind it, there is nothing to
    hand back, and what is handed back instead differs with the part it has ended in. -/
theorem handleNumeric_eq_some (h : handleNumeric c is = some r) :
    ∃ i f e t, (IsInteger i ∨ i = [byte '-']) ∧ (IsFraction f ∨ f = [byte '.']) ∧
      r.stringToken = respell i ++ f ++ e ∧ c :: is = i ++ t ∧
      (IsZero i ∨ Outside isDigit t) ∧
      r.Took (fun _ => IsExponent e ∨ SignAmongDigits e)
        (fun l => e = [] ∧ (l = 0 ∨ l = byte '.') ∨ IsExponentStart e) t (f ++ e) := by
  rw [handleNumeric, Option.bind_eq_some_iff] at h
  rcases h with ⟨r₂, h, hexponent⟩
  rw [Option.bind_eq_some_iff] at h
  rcases h with ⟨r₁, hinteger, hfraction⟩
  rcases handleInteger_eq_some hinteger with ⟨i, hi, htoken₁, htook₁⟩
  cases htook₁ with
  | ended heq hrest hlast =>
      -- The zero that is handed back begins neither of the other parts.
      rw [handleFraction, hlast, if_neg (by decide), if_pos (by decide)] at hfraction
      cases hfraction
      rw [handleExponent, hlast, if_neg (by decide)] at hexponent
      cases hexponent
      refine ⟨i, [], [], [], hi, Or.inl (Or.inl rfl), by simpa only [List.append_nil] using htoken₁,
        by simpa only [List.append_nil] using heq, Or.inr outside_nil,
        .ended rfl hrest (Or.inl ⟨rfl, Or.inl hlast⟩)⟩
  | found heq hlast =>
      have houtside : IsZero i ∨ Outside isDigit (r₁.lastReadChar :: r₁.rest) := by
        by_cases hdigit : isDigit r₁.lastReadChar = true
        · exact Or.inl (hlast hdigit)
        · exact Or.inr (outside_cons.mpr (by simpa only [Bool.not_eq_true] using hdigit))
      rcases handleFraction_eq_some hfraction with ⟨f, hf, htoken₂, htook₂⟩
      cases htook₂ with
      | ended heq₂ hrest₂ hlast₂ =>
          rw [handleExponent, hlast₂, if_neg (by decide)] at hexponent
          cases hexponent
          refine ⟨i, f, [], _, hi, hf, ?_, heq, houtside, ?_⟩
          · rw [htoken₂, htoken₁, List.append_nil]
          · rw [List.append_nil]
            exact .ended heq₂ hrest₂ (Or.inl ⟨rfl, Or.inr hlast₂⟩)
      | found heq₂ _ =>
          rcases handleExponent_eq_some hexponent with ⟨e, htoken, htook⟩
          refine ⟨i, f, e, _, hi, hf, ?_, heq, houtside, ?_⟩
          · rw [htoken, htoken₂, htoken₁]
          · rw [heq₂]
            exact (htook.append f).imp id Or.inr

/-! ### What the handlers take -/

theorem readWhile_run {kind : UInt8 → Bool} {u : List UInt8} (hu : ∀ c ∈ u, kind c = true)
    (hc : kind c = false) (s : List UInt8) (l : UInt8) :
    readWhile kind (u ++ c :: is) s l = ⟨s ++ u, c, is⟩ := by
  induction u generalizing s with
  | nil =>
      rw [List.nil_append, readWhile, if_neg (by rw [hc]; decide), List.append_nil]
  | cons d u ih =>
      rw [List.forall_mem_cons] at hu
      rw [List.cons_append, readWhile, if_pos hu.1, ih hu.2, List.append_cons s d u]

theorem readDigitsAfterSign_run {u : List UInt8} (hu : IsDigits u) (hc : isDigit c = false)
    (s : List UInt8) (l : UInt8) :
    readDigitsAfterSign false (u ++ c :: is) s l = some ⟨s ++ doubleZeros u, c, is⟩ := by
  induction u generalizing s with
  | nil =>
      rw [List.nil_append, readDigitsAfterSign_other false hc, doubleZeros, List.flatMap_nil,
        List.append_nil]
  | cons d u ih =>
      rcases List.forall_mem_cons.mp hu with ⟨hd, hu⟩
      rw [List.cons_append, readDigitsAfterSign_digit hd, ih hu, doubleZeros_cons,
        List.append_assoc]

/-- An integer is taken if no digit follows. -/
theorem handleInteger_of_integer (hi : IsInteger (c :: i) ∨ c :: i = [byte '-'])
    (hd : isDigit d = false) :
    handleInteger c (i ++ d :: is) = some ⟨respell (c :: i), d, is⟩ := by
  rcases hi with (h | ⟨ds, h, hds⟩) | h
  · rcases h with h | ⟨d', ds, h, hdigit, hzero, hds⟩
    · cases h
      rfl
    · cases h
      have hminus : c ≠ byte '-' := by
        rintro rfl
        cases hdigit
      unfold handleInteger
      rw [if_neg hminus, if_pos (range_iff.mpr ⟨hdigit, hzero⟩), readWhile_run hds hd,
        respell_of_ne hminus]
      rfl
  · cases h
    unfold handleInteger
    rw [if_pos rfl]
    -- Behind the sign the first digit decides whether others are read.
    rcases hds with rfl | ⟨d', ds, rfl, hdigit, hzero, hds⟩
    · rfl
    · rw [List.cons_append]
      unfold readDigitsAfterSign
      rw [if_neg hzero, if_pos hdigit, readDigitsAfterSign_run hds hd, respell_minus]
      rfl
  · cases h
    unfold handleInteger
    rw [if_pos rfl, List.nil_append, readDigitsAfterSign_other true hd]
    rfl

/-- A fraction is taken if no digit follows. -/
theorem handleFraction_of_fraction (hf : IsFraction f ∨ f = [byte '.']) (hd : isDigit d = false)
    (hpoint : d ≠ byte '.') (heq : r.lastReadChar :: r.rest = f ++ d :: is) :
    handleFraction r = some ⟨r.stringToken ++ f, d, is⟩ := by
  have hdigits : ∀ ds, IsDigits ds → f = byte '.' :: ds →
      handleFraction r = some ⟨r.stringToken ++ f, d, is⟩ := by
    rintro ds hds rfl
    rw [List.cons_append, List.cons.injEq] at heq
    rw [handleFraction, heq.1, heq.2, if_neg (by decide), if_neg (by decide), readWhile_run hds hd]
    simp only [↓Char.isValue, List.append_assoc, List.cons_append, List.nil_append]
  rcases hf with (rfl | ⟨ds, rfl, -, hds⟩) | rfl
  · cases r
    cases heq
    rw [handleFraction, if_pos hpoint, ite_self, List.append_nil]
  · exact hdigits ds hds rfl
  · exact hdigits [] isDigits_nil rfl

theorem readExponent_digit (hc : isDigit c = true) (sign digit : Bool) (is s : List UInt8)
    (l : UInt8) :
    readExponent sign digit (c :: is) s l = readExponent sign true is (s ++ [c]) c := by
  have hsign : (decide (c = byte '-') || decide (c = byte '+')) = false := by
    rw [Bool.eq_false_iff, ne_eq, isSign_iff]
    intro hsign
    rw [hsign.not_digit] at hc
    cases hc
  rw [readExponent, hsign, Bool.and_false, Bool.and_false, if_neg Bool.false_ne_true,
    if_neg Bool.false_ne_true, if_pos hc]

theorem readExponent_sign (hc : IsSign c) (digit : Bool) (is s : List UInt8) (l : UInt8) :
    readExponent false digit (c :: is) s l = readExponent true digit is (s ++ [c]) c := by
  rw [readExponent, isSign_iff.mpr hc, Bool.not_false, Bool.and_true, if_pos rfl]

theorem readExponent_stop (hdigit : isDigit c = false) (hsign : ¬ IsSign c) (sign : Bool)
    (is s : List UInt8) (l : UInt8) : readExponent sign true (c :: is) s l = some ⟨s, c, is⟩ := by
  have hsign : (decide (c = byte '-') || decide (c = byte '+')) = false := by
    rwa [Bool.eq_false_iff, ne_eq, isSign_iff]
  rw [readExponent, hsign, Bool.and_false, Bool.and_false, if_neg Bool.false_ne_true,
    if_neg Bool.false_ne_true, hdigit, if_neg Bool.false_ne_true]
  simp only [Bool.not_true, Bool.and_false, Bool.or_self, Bool.false_eq_true, ↓reduceIte]

theorem readExponent_run {sign digit : Bool} (hds : IsDigits ds) (hne : digit = true ∨ ds ≠ [])
    (c : UInt8) (is s : List UInt8) (l l' : UInt8) :
    readExponent sign digit (ds ++ c :: is) s l =
      readExponent sign true (c :: is) (s ++ ds) l' := by
  induction ds generalizing s digit l with
  | nil =>
      rw [hne.resolve_right (by simp), List.nil_append, List.append_nil]
      simp only [readExponent]
  | cons d ds ih =>
      rcases List.forall_mem_cons.mp hds with ⟨hd, hds⟩
      rw [List.cons_append, readExponent_digit hd, ih hds (Or.inl rfl), List.append_cons s d ds]

/-- An exponent is taken if no digit or sign follows, nor a mark if there is none yet. -/
theorem handleExponent_of_exponent (he : IsExponent e ∨ SignAmongDigits e)
    (hd : isDigit d = false) (hmark : ¬ IsMark d) (hsign : ¬ IsSign d)
    (heq : r.lastReadChar :: r.rest = e ++ d :: is) :
    handleExponent r = some ⟨r.stringToken ++ e, d, is⟩ := by
  rcases he with (rfl | ⟨mark, sign, ds, rfl, hmark', hsign', hne, hds⟩) |
    ⟨mark, ds, sign, ds', rfl, hmark', hne, hds, hsign', hds'⟩
  · cases r
    cases heq
    rw [handleExponent, if_neg (isMark_iff.not.mpr hmark), List.append_nil]
  · rw [List.cons_append, List.cons.injEq] at heq
    rw [handleExponent, heq.1, heq.2, if_pos (isMark_iff.mpr hmark')]
    rcases hsign' with rfl | ⟨c, rfl, hc⟩
    · rw [List.nil_append, readExponent_run hds (Or.inr hne) d is _ _ 0,
        readExponent_stop hd hsign]
      simp only [List.append_assoc, List.cons_append, List.nil_append]
    · rw [List.append_assoc, List.singleton_append, readExponent_sign hc,
        readExponent_run hds (Or.inr hne) d is _ _ 0, readExponent_stop hd hsign]
      simp only [List.append_assoc, List.cons_append, List.nil_append]
  · rw [List.cons_append, List.cons.injEq] at heq
    rw [handleExponent, heq.1, heq.2, if_pos (isMark_iff.mpr hmark'), List.append_assoc,
      List.cons_append, readExponent_run hds (Or.inr hne) sign _ _ _ 0, readExponent_sign hsign',
      readExponent_run hds' (Or.inl rfl) d is _ _ 0, readExponent_stop hd hsign]
    simp only [List.append_assoc, List.cons_append, List.nil_append]

/-- An integer and a fraction are taken up to what belongs to neither. -/
theorem handleFraction_of_integer (hi : IsInteger (c :: i) ∨ c :: i = [byte '-'])
    (hf : IsFraction f ∨ f = [byte '.']) (hd : isDigit d = false) (hpoint : d ≠ byte '.') :
    (handleInteger c (i ++ (f ++ d :: is))).bind handleFraction =
      some ⟨respell (c :: i) ++ f, d, is⟩ := by
  -- Behind the integer comes the point or the byte behind the fraction, but no digit.
  have houtside : Outside isDigit (f ++ d :: is) := fraction_outside hf rfl (outside_cons.mpr hd)
  cases hrest : f ++ d :: is with
  | nil => exact absurd hrest (List.append_ne_nil_of_right_ne_nil f (List.cons_ne_nil d is))
  | cons x y =>
      rw [hrest] at houtside
      rw [handleInteger_of_integer hi (outside_cons.mp houtside), Option.bind_some]
      exact handleFraction_of_fraction hf hd hpoint hrest.symm

/-- A number is taken up to a byte that belongs to none. -/
theorem handleNumeric_of_numeral (h : IsNumeral (c :: i) f e) (hd : isNumberEnd d = false) :
    handleNumeric c (i ++ (f ++ (e ++ d :: is))) = some ⟨respell (c :: i) ++ f ++ e, d, is⟩ := by
  have hdigit : isDigit d = false ∧ d ≠ byte '.' ∧ ¬ IsMark d ∧ ¬ IsSign d := by
    simp only [isNumberEnd, ↓Char.isValue, Bool.or_eq_false_iff, decide_eq_false_iff_not] at hd
    simp only [hd, ↓Char.isValue, ne_eq, not_false_eq_true, IsMark, or_self, IsSign, and_self]
  rcases hdigit with ⟨hdigit, hpoint, hmark, hsign⟩
  have hchars : ∀ c, IsMark c → isDigit c = false ∧ c ≠ byte '.' := by
    rintro c (rfl | rfl) <;> decide
  -- Behind the fraction comes the mark or the byte behind the number.
  cases hrest : e ++ d :: is with
  | nil => exact absurd hrest (List.append_ne_nil_of_right_ne_nil e (List.cons_ne_nil d is))
  | cons x y =>
      have hx : isDigit x = false ∧ x ≠ byte '.' := by
        rcases exponent_chars h.exponent with rfl | ⟨mark, t, rfl, hmark, -⟩
        · cases hrest
          exact ⟨hdigit, hpoint⟩
        · cases hrest
          exact hchars x hmark
      rw [handleNumeric, handleFraction_of_integer h.integer h.fraction hx.1 hx.2, Option.bind_some]
      exact handleExponent_of_exponent h.exponent hdigit hmark hsign hrest.symm

end Json

end CodingChallenges
