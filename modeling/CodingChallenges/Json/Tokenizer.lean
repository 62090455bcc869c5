import CodingChallenges.Json.LookAhead

/-!
# The Tokenizer of JSON Text

The loop of `tokenize` in `Tokenizer.cpp`, and the check of a text as a whole,
`parse_json` of `json_parser.cpp`.

The loop ends because every round takes bytes away from the input. A round that hands
a byte back at the end of the input takes none away, but what it hands back is the
zero at which the next round stops.

## Main definitions

* `scan`: One round of the loop.
* `weight`: What every round makes smaller.
* `tokenize`: The tokenizer.
* `parseText`: The check of a text.

## Theorems

* `scan_weight`: Every round takes the loop nearer to its end.
-/

namespace CodingChallenges

namespace Json

/-- How a round of the loop ends. -/
inductive Round where
  /-- The loop is left, with the tokens so far. -/
  | stop
  /-- An error, after which there are no tokens at all. -/
  | fail
  | read (tokens : List Token) (rest : List UInt8)
deriving DecidableEq, Repr

/-- A round of the loop in `tokenize`. -/
def scan : List UInt8 → Round
  | [] => .stop
  | c :: is =>
    -- The zero that a handler hands back at the end of the input is not told from one in it.
    if c = 0x00 then .stop
    else
      match readToken c is with
      | some (new, rest) => .read new rest
      | none => .fail

/-- A round reads a token from a byte that is not zero. -/
theorem scan_eq_read {input rest : List UInt8} {new : List Token}
    (h : scan input = .read new rest) :
    ∃ c is, input = c :: is ∧ c ≠ 0 ∧ readToken c is = some (new, rest) := by
  cases input with
  | nil => cases h
  | cons c is =>
      rw [scan] at h
      by_cases hnul : c = 0
      · rw [if_pos hnul] at h
        cases h
      rw [if_neg hnul] at h
      cases hread : readToken c is with
      | none =>
          rw [hread] at h
          cases h
      | some result =>
          rw [hread] at h
          cases h
          exact ⟨c, is, rfl, hnul, hread⟩

theorem scan_of_readToken {c : UInt8} {is rest : List UInt8} {new : List Token} (hnul : c ≠ 0)
    (h : readToken c is = some (new, rest)) : scan (c :: is) = .read new rest := by
  rw [scan, if_neg hnul, h]

theorem scan_of_readToken_eq_none {c : UInt8} {is : List UInt8} (hnul : c ≠ 0)
    (h : readToken c is = none) : scan (c :: is) = .fail := by
  rw [scan, if_neg hnul, h]

/-- How much is left to do: a byte that ends the loop counts only once. -/
def weight (input : List UInt8) : Nat :=
  input.length + if input.head? = some 0 then 0 else 1

/-- Every round takes the loop nearer to its end, also one that hands back a byte. -/
theorem scan_weight {input rest : List UInt8} {new : List Token}
    (h : scan input = .read new rest) : weight rest < weight input := by
  rcases scan_eq_read h with ⟨c, is, rfl, hnul, hread⟩
  have hweight : weight (c :: is) = is.length + 2 := by
    simp only [weight, List.length_cons, List.head?_cons, Option.some.injEq, hnul, ↓reduceIte]
  have hle : weight rest ≤ rest.length + 1 := by
    unfold weight
    split <;> omega
  rcases readToken_settles hread with ⟨-, hsuffix⟩ | ⟨-, rfl⟩ | ⟨s, l, -, rfl, hlast⟩
  · have hlength := hsuffix.length_le
    omega
  · rw [hweight]
    exact Nat.succ_lt_succ (Nat.succ_pos _)
  · rcases hlast with rfl | ⟨hne, -⟩
    · rw [hweight]
      exact Nat.succ_lt_succ (Nat.succ_pos _)
    · have hpos := List.length_pos_iff.mpr hne
      simp only [List.length_singleton] at hle
      omega

/-- The loop of `tokenize`. -/
def tokenizeFrom (tokens : List Token) (input : List UInt8) : List Token :=
  match _ : scan input with
  | .stop => tokens
  | .fail => []
  | .read new rest => tokenizeFrom (tokens ++ new) rest
termination_by weight input
decreasing_by exact scan_weight ‹_›

theorem tokenizeFrom_stop {input : List UInt8} (tokens : List Token)
    (h : scan input = .stop) : tokenizeFrom tokens input = tokens := by
  rw [tokenizeFrom]
  split <;> simp_all

theorem tokenizeFrom_fail {input : List UInt8} (tokens : List Token)
    (h : scan input = .fail) : tokenizeFrom tokens input = [] := by
  rw [tokenizeFrom]
  split <;> simp_all

theorem tokenizeFrom_read {input rest : List UInt8} {new : List Token}
    (tokens : List Token) (h : scan input = .read new rest) :
    tokenizeFrom tokens input = tokenizeFrom (tokens ++ new) rest := by
  rw [tokenizeFrom]
  split <;> simp_all

/-- `tokenize`, from the start of the input. -/
def tokenize (input : List UInt8) : List Token :=
  tokenizeFrom [] input

/-- `parse_json` of `json_parser.cpp`. -/
def parseText (input : List UInt8) : Bool :=
  if tokenize input = [] then false else parse (tokenize input)

end Json

end CodingChallenges
