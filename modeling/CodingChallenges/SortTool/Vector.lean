import CodingChallenges.Library.ArrayRange
import CodingChallenges.Library.Fuel
import Mathlib.Data.List.Lex
import Mathlib.Order.Lattice
import Mathlib.Algebra.Ring.Nat
import Mathlib.Algebra.Ring.Int.Defs

/-!
# Vectors of Strings

What the sorting algorithms of the sort tool work on: `std::vector<std::string>` with the
order of `std::string`.

An index is a signed number here, whatever its type in the source: an `int` may be
negative, and a `std::size_t` that would be is far behind the end of every vector. An
access with an index that is not within the vector is a fault, and so is a loop that
does not end.

The order of strings is the lexicographic order of their bytes, taken as numbers from 0 to
255, with a string before its extensions. The algorithms only compare, so they are modelled
for the elements of any linear order.

## Main definitions

* `Text`: A string.
* `Fault`: What can go wrong.
* `readAt`, `writeAt`, `swap`: The accesses to a vector.
* `toInt`: The conversion to `int`.

## Theorems

* `readAt_natCast`, `writeAt_natCast`, `swap_natCast`: Accesses within a vector.
* `forRange_write`: A loop that writes the elements of a range.
-/

namespace CodingChallenges

namespace SortTool

scoped instance instLinearOrderUInt8 : LinearOrder UInt8 where
  le_refl := UInt8.le_refl
  le_trans _ _ _ := UInt8.le_trans
  lt_iff_le_not_ge a b := by
    rw [UInt8.not_le]
    exact ⟨fun h => ⟨UInt8.le_of_lt h, h⟩, fun h => h.2⟩
  le_antisymm _ _ := UInt8.le_antisymm
  le_total := UInt8.le_total
  toDecidableLE := inferInstance
  toDecidableLT := inferInstance

/-- The bytes of a string. -/
abbrev Text := List UInt8

/-- How an access to an array can go wrong. -/
inductive Fault where
  | outOfRange
  | outOfFuel
deriving DecidableEq, Repr

section Accesses

variable {α : Type}

/-- `array[index]`, read. -/
def readAt (array : List α) (index : Int) : Except Fault α :=
  if index < 0 then .error .outOfRange
  else match array[index.toNat]? with
    | some x => .ok x
    | none => .error .outOfRange

/-- `array[index]`, written. -/
def writeAt (array : List α) (index : Int) (x : α) : Except Fault (List α) :=
  if 0 ≤ index ∧ index.toNat < array.length then .ok (array.set index.toNat x)
  else .error .outOfRange

/-- `std::swap` of two elements. -/
def swap (array : List α) (i j : Int) : Except Fault (List α) := do
  let x ← readAt array i
  let y ← readAt array j
  let array ← writeAt array i y
  writeAt array j x

end Accesses

/-- The conversion of a number to `int`, which has 32 bits. -/
def toInt (n : Int) : Int :=
  n.bmod (2 ^ 32)

theorem toInt_eq {n : Int} (hlow : -2 ^ 31 ≤ n) (hhigh : n < 2 ^ 31) : toInt n = n := by
  rw [toInt, Int.bmod_eq_iff (by decide)]
  omega

section Accesses

variable {α : Type} {array : List α}

theorem readAt_natCast {i : Nat} {x : α} (h : array[i]? = some x) : readAt array i = .ok x := by
  rw [readAt, if_neg (by omega), Int.toNat_natCast, h]

theorem writeAt_natCast {i : Nat} (x : α) (h : i < array.length) :
    writeAt array i x = .ok (array.set i x) := by
  rw [writeAt, if_pos (by omega), Int.toNat_natCast]

theorem swap_natCast {i j : Nat} (hi : i < array.length) (hj : j < array.length) :
    swap array i j = .ok (swapAt array i j) := by
  rw [swap, readAt_natCast (List.getElem?_eq_getElem hi), ok_bind,
    readAt_natCast (List.getElem?_eq_getElem hj), ok_bind, writeAt_natCast _ hi, ok_bind,
    writeAt_natCast _ (by rwa [List.length_set]), swapAt_eq hi hj]

/-- How many rounds a loop over a range makes whose end is given by its last index. -/
theorem rounds_eq (lo hi : Nat) : ((hi : Int) - 1 + 1 - lo).toNat = hi - lo := by
  omega

/-- A loop that writes the elements of a range one after the other. -/
theorem forRange_write (body : Int → List α → Except Fault (List α)) {lo hi : Nat}
    (value : Nat → Option α) (hlo : lo ≤ hi) (hhi : hi ≤ array.length)
    (hbody : ∀ (i : Nat) (a : List α), lo ≤ i → i < hi → a.length = array.length →
      ∃ x, value i = some x ∧ body i a = .ok (a.set i x)) :
    ∃ a, forRange body lo (hi - lo) array = .ok a ∧ a.length = array.length ∧
      (∀ i, i < lo ∨ hi ≤ i → a[i]? = array[i]?) ∧
      ∀ i, lo ≤ i → i < hi → a[i]? = value i := by
  -- Up to the index the values are written, and from there on the array is as it was.
  rcases forRange_invariant body (fun index a => a.length = array.length ∧
      (∀ i, i < lo ∨ index ≤ i → a[i]? = array[i]?) ∧ ∀ i, lo ≤ i → i < index → a[i]? = value i)
    lo (hi - lo) ⟨rfl, fun i _ => rfl, fun i hle hlt => absurd hlt (Nat.not_lt_of_le hle)⟩
    (by
      intro i a hle hlt hinv
      rcases hinv with ⟨hlength, houtside, hwritten⟩
      rcases hbody i a hle (by omega) hlength with ⟨x, hvalue, hstep⟩
      refine ⟨a.set i x, hstep, ?_, fun j hj => ?_, fun j hj hj' => ?_⟩
      · rw [List.length_set]
        exact hlength
      · rw [List.getElem?_set_ne (by omega)]
        exact houtside j (by omega)
      · by_cases hsame : i = j
        · subst hsame
          rw [List.getElem?_set_self (by omega), hvalue]
        · rw [List.getElem?_set_ne hsame]
          exact hwritten j hj (by omega)) with ⟨a, hloop, hlength, houtside, hwritten⟩
  have hend : lo + (hi - lo) = hi := by omega
  rw [hend] at houtside hwritten
  exact ⟨a, hloop, hlength, houtside, hwritten⟩

end Accesses

end SortTool

end CodingChallenges
