import Mathlib.Data.Bool.Basic

/-!
# Words

The words of a text: its maximal runs of elements that are not separators.

The words are the pieces between the separators, but for the empty ones. A program that
reads the text once does not see the pieces. It knows of the elements so far only whether
the last of them belongs to a word, and counts a word when the separator behind it comes. What
it has counted at the end are the words that have ended, so one is missing if the text
ends inside a word.

## Main definitions

* `words`: The words of a text.
* `endedWords`, `insideWord`: What has been counted when a text has been read, and whether it
  ends inside a word.

## Theorems

* `length_words_cons`: How the words are counted from the front.
* `length_words`: The words that have ended, and the one that has not, are all.
* `insideWord_false`: A text ends inside a word if its last element is no separator.
-/

namespace CodingChallenges

variable {α : Type} (sep : α → Bool)

/-- The maximal runs of elements that are not separators. -/
def words (text : List α) : List (List α) :=
  (text.splitOnP sep).filter fun piece => !piece.isEmpty

/-- How many words end within a text, if a word goes on at its beginning or not. -/
def endedWords : Bool → List α → Nat
  | _, [] => 0
  | inside, x :: text =>
    if sep x then inside.toNat + endedWords false text else endedWords true text

/-- Whether a word goes on at the end of a text. -/
def insideWord (inside : Bool) (text : List α) : Bool :=
  match text.getLast? with
  | some x => !sep x
  | none => inside

/-- A text begins with a word. -/
def StartsWord (text : List α) : Prop :=
  ∃ x ∈ text.head?, sep x = false

instance (text : List α) : Decidable (StartsWord sep text) :=
  inferInstanceAs (Decidable (∃ x ∈ text.head?, sep x = false))

variable {sep}

theorem words_cons_sep {x : α} (text : List α) (hx : sep x = true) :
    words sep (x :: text) = words sep text := by
  rw [words, List.splitOnP_cons_eq_if_modifyHead, if_pos hx]
  rfl

/-- The first piece is empty unless the text begins with a word. -/
theorem exists_pieces (sep : α → Bool) (text : List α) :
    ∃ piece pieces, text.splitOnP sep = piece :: pieces ∧ (piece = [] ↔ ¬ StartsWord sep text) := by
  cases text with
  | nil => exact ⟨[], [], rfl, iff_of_true rfl (fun h => nomatch h)⟩
  | cons x text =>
      rcases List.exists_cons_of_ne_nil (List.splitOnP_ne_nil sep text) with
        ⟨piece, pieces, hpieces⟩
      rw [List.splitOnP_cons_eq_if_modifyHead, hpieces]
      cases hx : sep x with
      | true =>
          refine ⟨[], piece :: pieces, if_pos rfl, iff_of_true rfl fun h => ?_⟩
          rcases h with ⟨y, hy, hword⟩
          cases hy
          rw [hx] at hword
          cases hword
      -- The element is put in front of the first piece, which it makes a word.
      | false =>
          refine ⟨x :: piece, pieces, if_neg Bool.false_ne_true, ?_⟩
          exact iff_of_false (List.cons_ne_nil x piece) (not_not.mpr ⟨x, rfl, hx⟩)

/-- An element of a word begins a new one unless the word goes on behind it. -/
theorem length_words_cons {x : α} (text : List α) (hx : sep x = false) :
    (words sep (x :: text)).length =
      (words sep text).length + if StartsWord sep text then 0 else 1 := by
  rcases exists_pieces sep text with ⟨piece, pieces, hpieces, hstarts⟩
  rw [words, words, List.splitOnP_cons_eq_if_modifyHead, hx, if_neg Bool.false_ne_true, hpieces,
    List.modifyHead_cons]
  cases piece with
  | nil =>
      rw [if_neg (hstarts.mp rfl)]
      rfl
  | cons y piece =>
      have hword : StartsWord sep text := by
        by_contra hnot
        exact absurd (hstarts.mpr hnot) (List.cons_ne_nil y piece)
      rw [if_pos hword]
      rfl

theorem insideWord_cons (inside : Bool) (x : α) (text : List α) :
    insideWord sep inside (x :: text) = insideWord sep (!sep x) text := by
  rw [insideWord, insideWord, List.getLast?_cons]
  cases text.getLast? <;> rfl

/-- The words that have ended and the one that has not are those of the text, and the one
    that went on at its beginning if the text does not go on with it. -/
theorem endedWords_add (sep : α → Bool) (inside : Bool) (text : List α) :
    endedWords sep inside text + (insideWord sep inside text).toNat =
      (words sep text).length +
        if inside = true ∧ ¬ StartsWord sep text then 1 else 0 := by
  induction text generalizing inside with
  | nil =>
      cases inside with
      | false => rfl
      | true => rfl
  | cons x text ih =>
      rw [endedWords, insideWord_cons]
      cases hx : sep x with
      | true =>
          -- A separator ends the word that went on at the beginning, if one did.
          have hstarts : ¬ StartsWord sep (x :: text) := by
            rintro ⟨y, hy, hword⟩
            cases hy
            rw [hx] at hword
            cases hword
          have hrest := ih false
          simp only [Bool.false_eq_true, false_and, if_false, Nat.add_zero] at hrest
          rw [if_pos rfl, words_cons_sep text hx, Nat.add_assoc, Bool.not_true, hrest]
          cases inside with
          | false =>
              simp only [Bool.toNat_false, Bool.false_eq_true, false_and, if_false]
              omega
          | true =>
              simp only [Bool.toNat_true, hstarts, not_false_eq_true, and_self, if_true]
              omega
      | false =>
          -- An element of a word begins one or goes on with one, and none ends with it.
          have hstarts : StartsWord sep (x :: text) := ⟨x, rfl, hx⟩
          have hrest := ih true
          rw [if_neg Bool.false_ne_true, Bool.not_false, hrest, length_words_cons text hx]
          simp only [hstarts, not_true_eq_false, and_false, if_false, true_and, ite_not,
            Nat.add_zero]

/-- From its beginning on a text has the words that have ended, and one more if it ends
    inside a word. -/
theorem length_words (text : List α) :
    (words sep text).length = endedWords sep false text + (insideWord sep false text).toNat := by
  have h := endedWords_add sep false text
  rw [if_neg fun hnot => Bool.false_ne_true hnot.1, Nat.add_zero] at h
  exact h.symm

/-- Not more words end than there are elements. -/
theorem endedWords_le (sep : α → Bool) (inside : Bool) (text : List α) :
    endedWords sep inside text ≤ text.length := by
  induction text generalizing inside with
  | nil => exact Nat.le_refl 0
  | cons x text ih =>
      have hinside := Bool.toNat_le inside
      rw [endedWords, List.length_cons]
      split_ifs with hx
      · have hrest := ih false
        omega
      · exact Nat.le_succ_of_le (ih true)

theorem insideWord_false (text : List α) :
    insideWord sep false text = false ↔ ∀ x ∈ text.getLast?, sep x = true := by
  rw [insideWord]
  cases text.getLast? with
  | none => exact iff_of_true rfl (fun x h => nomatch h)
  | some x =>
      simp only [Bool.not_eq_false', Option.mem_def, Option.some.injEq, forall_eq']

end CodingChallenges
