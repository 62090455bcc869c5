import CodingChallenges.Library.Utf8Ranges

/-!
# The Decoder

`UTF8Decoder` of `word_count_v2.cpp`, an automaton that reads one code point at a time.

The state of the automaton tells how many bytes are still to come, and in which range the
next of them is. A byte outside of its range ends the code point, and the replacement
character stands for all that was read of it, this byte included. So the automaton cuts every
input into units: first bytes with as many of the bytes that belong to them as there are, and
the one that does not, if there is one.

The index of the decoder has 32 bits. Of an input that has more bytes it never sees the end: it
begins anew.

## Main definitions

* `UTF8Decoder`, `getNextCodepoint`: The decoder.
* `Reads`: Which bytes are read.
* `IsUnit`, `unitCodepoint`: The bytes that one call reads, and what is made of them.

## Theorems

* `decodeByte_first`, `decodeByte_has`, `decodeByte_not_has`: What a byte does.
* `getNextCodepoint_eq_some_iff`: What one call does.
-/

namespace CodingChallenges

namespace WordCount

/-- A text, and how far it was read. -/
structure UTF8Decoder where
  buffer : List UInt8
  bufferIndex : Nat
deriving DecidableEq, Repr

namespace UTF8Decoder

/-- Nothing was read yet. -/
def new (inputString : List UInt8) : UTF8Decoder :=
  ⟨inputString, 0⟩

/-- The next byte. The index is an `unsigned int`. -/
def getNextCharacter (d : UTF8Decoder) : Option (UInt8 × UTF8Decoder) :=
  match d.buffer[d.bufferIndex]? with
  | some c => some (c, { d with bufferIndex := (d.bufferIndex + 1) % 2 ^ 32 })
  | none => none

end UTF8Decoder

open UTF8Decoder

/-- What stands for bytes that are no character. -/
def utfReplacementCharacter : Nat := 0xFFFD

/-- A byte behind the first one: the bits of a byte within the range are joined to the code
    point, and any other leads to the state for errors. -/
def join (low high : UInt8) (next codepoint : Nat) (c : UInt8) : Nat × Nat :=
  if low ≤ c ∧ c ≤ high then (next, codepoint <<< 6 ||| (c.toNat &&& 0x3f)) else (8, codepoint)

/-- The state and the code point after a byte. -/
def decodeByte (state codepoint : Nat) (c : UInt8) : Nat × Nat :=
  match state with
  | 0 =>
    if c ≤ 0x7f then (0, c.toNat)
    else if 0xc2 ≤ c ∧ c ≤ 0xdf then (1, c.toNat &&& 0x1f)
    -- The second byte is restricted, as less than 0x800 needs no third byte.
    else if c = 0xe0 then (4, c.toNat &&& 0xf)
    else if 0xe1 ≤ c ∧ c ≤ 0xef then (2, c.toNat &&& 0xf)
    -- The same for less than 0x10000 and a fourth byte.
    else if c = 0xf0 then (5, c.toNat &&& 0x7)
    else if 0xf1 ≤ c ∧ c ≤ 0xf3 then (3, c.toNat &&& 0x7)
    -- There are no code points from 0x110000 on.
    else if c = 0xf4 then (6, c.toNat &&& 0x7)
    else (8, codepoint)
  | 1 => join 0x80 0xbf 0 codepoint c
  | 2 => join 0x80 0xbf 1 codepoint c
  | 3 => join 0x80 0xbf 2 codepoint c
  | 4 => join 0xa0 0xbf 1 codepoint c
  | 5 => join 0x90 0xbf 2 codepoint c
  | 6 => join 0x80 0x8f 2 codepoint c
  | _ => (8, codepoint)

open ByteRange in
/-- The ranges of the bytes that a state waits for. -/
def awaited : Nat → List ByteRange
  | 1 => [tail]
  | 2 => [tail, tail]
  | 3 => [tail, tail, tail]
  | 4 => [⟨0xa0, 0xbf⟩, tail]
  | 5 => [⟨0x90, 0xbf⟩, tail, tail]
  | 6 => [⟨0x80, 0x8f⟩, tail, tail]
  | _ => []

/-- A byte that a state waits for leads to a state that waits for the bytes behind it. -/
theorem decodeByte_has {state : Nat} (codepoint : Nat) {c : UInt8} {r : ByteRange}
    {ranges : List ByteRange} (hstate : awaited state = r :: ranges) (hc : r.Has c) :
    ∃ next, decodeByte state codepoint c = (next, codepoint <<< 6 ||| (c.toNat &&& 0x3f)) ∧
      awaited next = ranges ∧ next ≠ 8 ∧ (next = 0 ↔ ranges = []) := by
  unfold awaited at hstate
  split at hstate <;> cases hstate
  · exact ⟨0, if_pos hc, rfl, by decide, by decide⟩
  · exact ⟨1, if_pos hc, rfl, by decide, by decide⟩
  · exact ⟨2, if_pos hc, rfl, by decide, by decide⟩
  · exact ⟨1, if_pos hc, rfl, by decide, by decide⟩
  · exact ⟨2, if_pos hc, rfl, by decide, by decide⟩
  · exact ⟨2, if_pos hc, rfl, by decide, by decide⟩

/-- Any other byte is an error. -/
theorem decodeByte_not_has {state codepoint : Nat} {c : UInt8} {r : ByteRange}
    {ranges : List ByteRange} (hstate : awaited state = r :: ranges) (hc : ¬ r.Has c) :
    decodeByte state codepoint c = (8, codepoint) := by
  unfold awaited at hstate
  split at hstate <;> cases hstate <;> exact if_neg hc

theorem decodeByte_done {state codepoint : Nat} {c : UInt8} (hstate : awaited state = [])
    (hne : state ≠ 0) : decodeByte state codepoint c = (8, codepoint) := by
  unfold awaited at hstate
  split at hstate
  case h_7 => unfold decodeByte; split <;> first | rfl | contradiction
  all_goals cases hstate

/-- The bytes behind a first byte that are awaited. Those of a surrogate are too. -/
def expected (a : UInt8) : Option (List ByteRange) :=
  if a = 0xED then some [ByteRange.tail, ByteRange.tail] else utf8Ranges a

/-- The bits of a first byte that belong to the code point. -/
def firstBits (a : UInt8) (length : Nat) : Nat :=
  match length with
  | 0 => a.toNat
  | 1 => a.toNat &&& 0x1f
  | 2 => a.toNat &&& 0xf
  | _ => a.toNat &&& 0x7

theorem decodeByte_first_none {a : UInt8} (codepoint : Nat) (h : expected a = none) :
    decodeByte 0 codepoint a = (8, codepoint) := by
  unfold expected utf8Ranges at h
  unfold decodeByte
  simp only [UInt8.le_iff_toNat_le, ← UInt8.toNat_inj, UInt8.reduceToNat] at *
  split_ifs at h
  all_goals
    rw [if_neg (by omega), if_neg (by omega), if_neg (by omega), if_neg (by omega),
      if_neg (by omega), if_neg (by omega), if_neg (by omega)]

theorem utf8Second_eq_tail {a : UInt8} (h : a ≠ 0xE0 ∧ a ≠ 0xED ∧ a ≠ 0xF0 ∧ a ≠ 0xF4) :
    utf8Second a = ByteRange.tail := by
  rw [utf8Second, if_neg h.1, if_neg h.2.1, if_neg h.2.2.1, if_neg h.2.2.2]

/-- A first byte leads to the state that waits for the bytes behind it. -/
theorem decodeByte_first {a : UInt8} {ranges : List ByteRange} (codepoint : Nat)
    (h : expected a = some ranges) :
    ∃ next, decodeByte 0 codepoint a = (next, firstBits a ranges.length) ∧
      awaited next = ranges ∧ next ≠ 8 ∧ (next = 0 ↔ ranges = []) := by
  by_cases hsurrogate : a = 0xED
  · subst hsurrogate
    cases h
    exact ⟨2, rfl, rfl, by decide, by decide⟩
  rw [expected, if_neg hsurrogate] at h
  by_cases he0 : a = 0xE0
  · subst he0
    cases h
    exact ⟨4, rfl, rfl, by decide, by decide⟩
  by_cases hf0 : a = 0xF0
  · subst hf0
    cases h
    exact ⟨5, rfl, rfl, by decide, by decide⟩
  by_cases hf4 : a = 0xF4
  · subst hf4
    cases h
    exact ⟨6, rfl, rfl, by decide, by decide⟩
  -- Behind the other first bytes no range is restricted.
  unfold utf8Ranges at h
  rw [utf8Second_eq_tail ⟨he0, hsurrogate, hf0, hf4⟩] at h
  unfold decodeByte
  simp only [UInt8.le_iff_toNat_le, ← UInt8.toNat_inj, UInt8.reduceToNat] at *
  split_ifs at h with hone hstray htwo hthree hfour <;> cases h
  · exact ⟨0, if_pos hone, rfl, by decide, by decide⟩
  · refine ⟨1, ?_, rfl, by decide, by decide⟩
    rw [if_neg hone, if_pos (by omega)]
    rfl
  · refine ⟨2, ?_, rfl, by decide, by decide⟩
    rw [if_neg hone, if_neg (by omega), if_neg he0, if_pos (by omega)]
    rfl
  · refine ⟨3, ?_, rfl, by decide, by decide⟩
    rw [if_neg hone, if_neg (by omega), if_neg he0, if_neg (by omega), if_neg hf0,
      if_pos (by omega)]
    rfl

theorem length_expected {a : UInt8} {ranges : List ByteRange} (h : expected a = some ranges) :
    ranges.length ≤ 3 := by
  unfold expected utf8Ranges at h
  split_ifs at h <;> cases h <;> simp only [List.length_cons, List.length_nil] <;> omega

/-- How many bytes are still read in a state, at most. -/
def bytesLeft (state : Nat) : Nat :=
  if state = 0 then 4 else (awaited state).length

theorem bytesLeft_decodeByte (state codepoint : Nat) (c : UInt8)
    (h : (decodeByte state codepoint c).1 ≠ 0) (h' : (decodeByte state codepoint c).1 ≠ 8) :
    bytesLeft (decodeByte state codepoint c).1 < bytesLeft state := by
  by_cases hfirst : state = 0
  · subst hfirst
    cases hc : expected c with
    | none =>
        rw [decodeByte_first_none codepoint hc] at h'
        exact absurd rfl h'
    | some ranges =>
        rcases decodeByte_first codepoint hc with ⟨next, hnext, hawaited, -, -⟩
        -- A first byte is followed by three others at most.
        have hlength := length_expected hc
        rw [hnext] at h ⊢
        rw [bytesLeft, bytesLeft, if_neg h, if_pos rfl, hawaited]
        omega
  · cases hstate : awaited state with
    | nil =>
        rw [decodeByte_done hstate hfirst] at h'
        exact absurd rfl h'
    | cons r ranges =>
        by_cases hc : r.Has c
        · rcases decodeByte_has codepoint hstate hc with ⟨next, hnext, hawaited, -, -⟩
          rw [hnext] at h ⊢
          rw [bytesLeft, bytesLeft, if_neg h, if_neg hfirst, hawaited, hstate, List.length_cons]
          exact Nat.lt_succ_self _
        · rw [decodeByte_not_has hstate hc] at h'
          exact absurd rfl h'

/-- The loop of `get_next_codepoint`. -/
def decodeFrom (d : UTF8Decoder) (state codepoint : Nat) : Option (Nat × UTF8Decoder) :=
  match getNextCharacter d with
  | none => none
  | some (c, d') =>
    let next := decodeByte state codepoint c
    if next.1 ≠ 0 ∧ next.1 ≠ 8 then decodeFrom d' next.1 next.2
    else some (if next.1 = 8 then utfReplacementCharacter else next.2, d')
termination_by bytesLeft state
decreasing_by
  rename_i h
  exact bytesLeft_decodeByte state codepoint c h.1 h.2

/-- The code point is only used behind a first byte, which sets it. -/
def getNextCodepoint (d : UTF8Decoder) : Option (Nat × UTF8Decoder) :=
  decodeFrom d 0 0

/-- The decoder reads bytes one after the other. -/
def Reads : UTF8Decoder → List UInt8 → UTF8Decoder → Prop
  | d, [], d' => d' = d
  | d, c :: w, d'' => ∃ d', getNextCharacter d = some (c, d') ∧ Reads d' w d''

/-- The bytes behind a first byte that are read: those that are awaited, up to one that is
    not in its range. -/
inductive UnitTail : List ByteRange → List UInt8 → Prop
  | whole : UnitTail [] []
  | broken {r : ByteRange} {ranges : List ByteRange} {b : UInt8} :
      ¬ r.Has b → UnitTail (r :: ranges) [b]
  | more {r : ByteRange} {ranges : List ByteRange} {b : UInt8} {w : List UInt8} :
      r.Has b → UnitTail ranges w → UnitTail (r :: ranges) (b :: w)

/-- The bytes that are read for one code point. -/
inductive IsUnit : List UInt8 → Prop
  | stray {a : UInt8} : expected a = none → IsUnit [a]
  | lead {a : UInt8} {ranges : List ByteRange} {w : List UInt8} :
      expected a = some ranges → UnitTail ranges w → IsUnit (a :: w)

/-- What is made of the bytes behind a first byte. -/
def tailCodepoint : List ByteRange → Nat → List UInt8 → Nat
  | [], codepoint, _ => codepoint
  | r :: ranges, codepoint, b :: w =>
    if r.Has b then tailCodepoint ranges (codepoint <<< 6 ||| (b.toNat &&& 0x3f)) w
    else utfReplacementCharacter
  | _ :: _, _, [] => utfReplacementCharacter

/-- What is made of the bytes of a unit. -/
def unitCodepoint : List UInt8 → Nat
  | [] => utfReplacementCharacter
  | a :: w =>
    match expected a with
    | none => utfReplacementCharacter
    | some ranges => tailCodepoint ranges (firstBits a ranges.length) w

section Loop

variable {d d' d'' : UTF8Decoder} {state codepoint x : Nat} {c : UInt8}

theorem decodeFrom_none (h : getNextCharacter d = none) : decodeFrom d state codepoint = none := by
  rw [decodeFrom, h]

theorem decodeFrom_error (h : getNextCharacter d = some (c, d'))
    (hbyte : decodeByte state codepoint c = (8, codepoint)) :
    decodeFrom d state codepoint = some (utfReplacementCharacter, d') := by
  rw [decodeFrom, h]
  simp only [hbyte, ne_eq, not_true_eq_false, and_false, if_false, if_true]

theorem decodeFrom_last {codepoint' : Nat} (h : getNextCharacter d = some (c, d'))
    (hbyte : decodeByte state codepoint c = (0, codepoint')) :
    decodeFrom d state codepoint = some (codepoint', d') := by
  rw [decodeFrom, h]
  simp only [hbyte, ne_eq, not_true_eq_false, false_and, if_false, OfNat.zero_ne_ofNat]

/-- Behind the last byte of a unit nothing more is read. -/
theorem decodeFrom_last_iff {codepoint' : Nat} (h : getNextCharacter d = some (c, d'))
    (hbyte : decodeByte state codepoint c = (0, codepoint')) :
    decodeFrom d state codepoint = some (x, d'') ↔
      ∃ w, UnitTail [] w ∧ Reads d' w d'' ∧ x = tailCodepoint [] codepoint' w := by
  rw [decodeFrom_last h hbyte, Option.some.injEq, Prod.mk.injEq]
  constructor
  · rintro ⟨rfl, rfl⟩
    exact ⟨[], .whole, rfl, rfl⟩
  · rintro ⟨w, hw, hreads, hx⟩
    cases hw
    exact ⟨hx.symm, hreads.symm⟩

theorem decodeFrom_next {next codepoint' : Nat} (h : getNextCharacter d = some (c, d'))
    (hbyte : decodeByte state codepoint c = (next, codepoint')) (hnext : next ≠ 0 ∧ next ≠ 8) :
    decodeFrom d state codepoint = decodeFrom d' next codepoint' := by
  rw [decodeFrom, h]
  simp only [hbyte]
  rw [if_pos hnext]

theorem reads_cons_iff {b : UInt8} {w : List UInt8} (h : getNextCharacter d = some (c, d')) :
    Reads d (b :: w) d'' ↔ b = c ∧ Reads d' w d'' := by
  rw [Reads, h]
  simp only [Option.some.injEq, Prod.mk.injEq]
  constructor
  · rintro ⟨d₁, ⟨rfl, rfl⟩, hreads⟩
    exact ⟨rfl, hreads⟩
  · rintro ⟨rfl, hreads⟩
    exact ⟨d', ⟨rfl, rfl⟩, hreads⟩

/-- What is read behind a first byte, taken apart at its own first byte. -/
theorem unitTail_has_iff {r : ByteRange} {ranges : List ByteRange}
    (h : getNextCharacter d = some (c, d')) (hc : r.Has c) :
    (∃ w, UnitTail (r :: ranges) w ∧ Reads d w d'' ∧
        x = tailCodepoint (r :: ranges) codepoint w) ↔
      ∃ w, UnitTail ranges w ∧ Reads d' w d'' ∧
        x = tailCodepoint ranges (codepoint <<< 6 ||| (c.toNat &&& 0x3f)) w := by
  constructor
  · rintro ⟨w, hw, hreads, hx⟩
    cases hw with
    | broken hb =>
        rcases (reads_cons_iff h).mp hreads with ⟨rfl, -⟩
        exact absurd hc hb
    | more hb hw =>
        rcases (reads_cons_iff h).mp hreads with ⟨rfl, hreads'⟩
        rw [tailCodepoint, if_pos hc] at hx
        exact ⟨_, hw, hreads', hx⟩
  · rintro ⟨w, hw, hreads, hx⟩
    refine ⟨c :: w, .more hc hw, (reads_cons_iff h).mpr ⟨rfl, hreads⟩, ?_⟩
    rw [tailCodepoint, if_pos hc]
    exact hx

theorem unitTail_not_has_iff {r : ByteRange} {ranges : List ByteRange}
    (h : getNextCharacter d = some (c, d')) (hc : ¬ r.Has c) :
    (∃ w, UnitTail (r :: ranges) w ∧ Reads d w d'' ∧
        x = tailCodepoint (r :: ranges) codepoint w) ↔
      d'' = d' ∧ x = utfReplacementCharacter := by
  constructor
  · rintro ⟨w, hw, hreads, hx⟩
    cases hw with
    | broken hb =>
        rcases (reads_cons_iff h).mp hreads with ⟨rfl, hreads'⟩
        rw [tailCodepoint, if_neg hc] at hx
        exact ⟨hreads', hx⟩
    | more hb hw =>
        rcases (reads_cons_iff h).mp hreads with ⟨rfl, -⟩
        exact absurd hb hc
  · rintro ⟨rfl, rfl⟩
    refine ⟨[c], .broken hc, (reads_cons_iff h).mpr ⟨rfl, rfl⟩, ?_⟩
    rw [tailCodepoint, if_neg hc]

/-- A state that waits for bytes reads them, up to one that is not in its range. -/
theorem decodeFrom_eq_some_iff {ranges : List ByteRange} (hne : ranges ≠ [])
    (hstate : awaited state = ranges) :
    decodeFrom d state codepoint = some (x, d'') ↔
      ∃ w, UnitTail ranges w ∧ Reads d w d'' ∧ x = tailCodepoint ranges codepoint w := by
  -- Each byte is in the first range, and the state waits for the others behind it, or it ends
  -- the unit.
  induction ranges generalizing d state codepoint with
  | nil => exact absurd rfl hne
  | cons r ranges ih =>
      cases hread : getNextCharacter d with
      | none =>
          rw [decodeFrom_none hread]
          refine iff_of_false (fun h => nomatch h) ?_
          rintro ⟨w, hw, hreads, -⟩
          cases hw <;>
            · rcases hreads with ⟨d₁, hsome, -⟩
              rw [hread] at hsome
              cases hsome
      | some next =>
          rcases next with ⟨c, d'⟩
          by_cases hc : r.Has c
          · rcases decodeByte_has codepoint hstate hc with
              ⟨next, hbyte, hawaited, herror, hlast⟩
            rw [unitTail_has_iff hread hc]
            by_cases hranges : ranges = []
            · subst hranges
              rw [hlast.mpr rfl] at hbyte
              exact decodeFrom_last_iff hread hbyte
            · have hnext : next ≠ 0 ∧ next ≠ 8 := ⟨fun hzero => hranges (hlast.mp hzero), herror⟩
              rw [decodeFrom_next hread hbyte hnext]
              exact ih hranges hawaited
          · rw [unitTail_not_has_iff hread hc,
              decodeFrom_error hread (decodeByte_not_has hstate hc), Option.some.injEq,
              Prod.mk.injEq, eq_comm, and_comm, eq_comm (a := d')]

/-- A unit, taken apart at its first byte. -/
theorem unit_iff {ranges : List ByteRange} (h : getNextCharacter d = some (c, d'))
    (hc : expected c = some ranges) :
    (∃ w, IsUnit w ∧ Reads d w d'' ∧ x = unitCodepoint w) ↔
      ∃ w, UnitTail ranges w ∧ Reads d' w d'' ∧
        x = tailCodepoint ranges (firstBits c ranges.length) w := by
  constructor
  · rintro ⟨w, hw, hreads, hx⟩
    cases hw with
    | stray ha =>
        rcases (reads_cons_iff h).mp hreads with ⟨rfl, -⟩
        rw [hc] at ha
        cases ha
    | lead ha hw =>
        rcases (reads_cons_iff h).mp hreads with ⟨rfl, hreads'⟩
        rw [hc] at ha
        cases ha
        rw [unitCodepoint, hc] at hx
        exact ⟨_, hw, hreads', hx⟩
  · rintro ⟨w, hw, hreads, hx⟩
    refine ⟨c :: w, .lead hc hw, (reads_cons_iff h).mpr ⟨rfl, hreads⟩, ?_⟩
    rw [unitCodepoint, hc]
    exact hx

theorem stray_iff (h : getNextCharacter d = some (c, d')) (hc : expected c = none) :
    (∃ w, IsUnit w ∧ Reads d w d'' ∧ x = unitCodepoint w) ↔
      d'' = d' ∧ x = utfReplacementCharacter := by
  constructor
  · rintro ⟨w, hw, hreads, hx⟩
    cases hw with
    | stray ha =>
        rcases (reads_cons_iff h).mp hreads with ⟨rfl, hreads'⟩
        rw [unitCodepoint, hc] at hx
        exact ⟨hreads', hx⟩
    | lead ha hw =>
        rcases (reads_cons_iff h).mp hreads with ⟨rfl, -⟩
        rw [hc] at ha
        cases ha
  · rintro ⟨rfl, rfl⟩
    refine ⟨[c], .stray hc, (reads_cons_iff h).mpr ⟨rfl, rfl⟩, ?_⟩
    rw [unitCodepoint, hc]

theorem IsUnit.ne_nil {w : List UInt8} (h : IsUnit w) : w ≠ [] := by
  cases h <;> exact List.cons_ne_nil _ _

/-- One call reads a unit, and returns what is made of it. -/
theorem getNextCodepoint_eq_some_iff :
    getNextCodepoint d = some (x, d'') ↔
      ∃ w, IsUnit w ∧ Reads d w d'' ∧ x = unitCodepoint w := by
  rw [getNextCodepoint]
  cases hread : getNextCharacter d with
  | none =>
      rw [decodeFrom_none hread]
      refine iff_of_false (fun h => nomatch h) ?_
      rintro ⟨w, hw, hreads, -⟩
      cases w with
      | nil => exact hw.ne_nil rfl
      | cons b w =>
          rcases hreads with ⟨d₁, hsome, -⟩
          rw [hread] at hsome
          cases hsome
  | some next =>
      rcases next with ⟨c, d'⟩
      cases hc : expected c with
      | none =>
          rw [stray_iff hread hc, decodeFrom_error hread (decodeByte_first_none 0 hc),
            Option.some.injEq, Prod.mk.injEq, eq_comm, and_comm, eq_comm (a := d')]
      | some ranges =>
          rw [unit_iff hread hc]
          rcases decodeByte_first 0 hc with ⟨next, hbyte, hawaited, herror, hlast⟩
          by_cases hranges : ranges = []
          -- A byte that is followed by none is a unit of its own.
          · rw [hlast.mpr hranges] at hbyte
            subst hranges
            exact decodeFrom_last_iff hread hbyte
          · have hnext : next ≠ 0 ∧ next ≠ 8 := ⟨fun hzero => hranges (hlast.mp hzero), herror⟩
            rw [decodeFrom_next hread hbyte hnext]
            exact decodeFrom_eq_some_iff hranges hawaited

end Loop

end WordCount

end CodingChallenges
