import Mathlib.Data.List.Infix

/-!
# Searching for a Delimiter

Where a delimiter first occurs in a text, and how content is framed by it.

A text that is followed by a delimiter it does not contain is found again by
searching for the delimiter, provided the delimiter does not overlap itself:
otherwise an occurrence could begin inside the content and end inside the
delimiter. For the same reason no shortened copy of the framed content contains
the delimiter, so a reader that sees only a part of it keeps waiting.

## Main definitions

* `find`, `findFrom`: The first occurrence of a delimiter.
* `Unbordered`: A delimiter that does not overlap itself.

## Theorems

* `find_eq_some_iff`, `find_eq_none_iff`: What the search finds.
* `find_take`: There is no delimiter in front of the first one.
* `find_append_of_not_mem`, `find_singleton`, `findFrom_cons`: The search goes past what the
  delimiter does not begin with.
* `flatMap_terminated`, `of_mem_splitOn`, `splitOn_prefix_iff`, `mem_intercalate`,
  `intercalate_cons`: Pieces and the delimiters between them.
* `splitOn_of_find`, `length_splitOn_le`: A search cuts off one piece after the other.
* `find_framed`, `framed_unique`: Content is found in front of its delimiter.
* `find_truncated`: A shortened frame has no delimiter.
-/

namespace CodingChallenges

namespace Delimiter

variable {α : Type} [DecidableEq α]

/-- The first position at which the delimiter occurs. -/
def find (delimiter : List α) : List α → Option Nat
  | [] => if delimiter = [] then some 0 else none
  | a :: text =>
    if delimiter.isPrefixOf (a :: text) then some 0
    else (find delimiter text).map (· + 1)

/-- The first position from `start` on at which the delimiter occurs. -/
def findFrom (delimiter text : List α) (start : Nat) : Option Nat :=
  (find delimiter (text.drop start)).map (start + ·)

/-- No end of the delimiter is a beginning of it. -/
def Unbordered (delimiter : List α) : Prop :=
  ∀ k, 0 < k → k < delimiter.length → ¬ delimiter.drop k <+: delimiter

variable {delimiter text : List α}

theorem find_of_isPrefix (h : delimiter <+: text) : find delimiter text = some 0 := by
  cases text with
  | nil => exact if_pos (List.prefix_nil.mp h)
  | cons a text => exact if_pos (List.isPrefixOf_iff_prefix.mpr h)

theorem find_cons_of_not_isPrefix {a : α} (h : ¬ delimiter <+: a :: text) :
    find delimiter (a :: text) = (find delimiter text).map (· + 1) :=
  if_neg (mt List.isPrefixOf_iff_prefix.mp h)

/-- The search finds the first of the positions at which the delimiter is. -/
theorem find_eq_some_iff {i : Nat} :
    find delimiter text = some i ↔
      i ≤ text.length ∧ delimiter <+: text.drop i ∧ ∀ j < i, ¬ delimiter <+: text.drop j := by
  induction text generalizing i with
  | nil =>
      by_cases hnil : delimiter = []
      · subst hnil
        refine ⟨fun h => ?_, fun h => ?_⟩
        · cases h
          exact ⟨Nat.le_refl 0, List.nil_prefix, fun j hj => absurd hj (Nat.not_lt_zero j)⟩
        · rw [Nat.le_zero.mp h.1]
          exact find_of_isPrefix List.nil_prefix
      · refine iff_of_false (fun h => ?_) (fun h => ?_)
        · rw [find, if_neg hnil] at h
          cases h
        · rw [List.drop_nil] at h
          exact hnil (List.prefix_nil.mp h.2.1)
  | cons a text ih =>
      by_cases hhead : delimiter <+: a :: text
      · rw [find_of_isPrefix hhead, Option.some.injEq]
        refine ⟨fun h => ?_, fun h => ?_⟩
        · subst h
          exact ⟨Nat.zero_le _, hhead, fun j hj => absurd hj (Nat.not_lt_zero j)⟩
        · by_contra hne
          exact h.2.2 0 (Nat.pos_of_ne_zero fun hi => hne hi.symm) hhead
      · -- The occurrence is behind the first element, where the rest is searched.
        rw [find_cons_of_not_isPrefix hhead, Option.map_eq_some_iff]
        constructor
        · intro h
          rcases h with ⟨i, hi, rfl⟩
          rcases ih.mp hi with ⟨hle, hat, hbefore⟩
          refine ⟨Nat.succ_le_succ hle, hat, fun j hj => ?_⟩
          cases j with
          | zero => exact hhead
          | succ j => exact hbefore j (Nat.lt_of_succ_lt_succ hj)
        · intro h
          rcases h with ⟨hle, hat, hbefore⟩
          cases i with
          | zero => exact absurd hat hhead
          | succ i =>
              refine ⟨i, ih.mpr ⟨Nat.le_of_succ_le_succ hle, hat, fun j hj => ?_⟩, rfl⟩
              exact hbefore (j + 1) (Nat.succ_lt_succ hj)

omit [DecidableEq α] in
theorem isInfix_iff_drop : delimiter <:+: text ↔ ∃ i ≤ text.length, delimiter <+: text.drop i := by
  constructor
  · intro h
    rcases h with ⟨before, after, rfl⟩
    refine ⟨before.length, ?_, after, ?_⟩
    · simp only [List.length_append]
      omega
    · rw [List.append_assoc, List.drop_left]
  · intro h
    rcases h with ⟨i, -, hat⟩
    exact hat.isInfix.trans (List.drop_suffix i text).isInfix

/-- Nothing is found in a text that does not contain the delimiter. -/
theorem find_eq_none_iff : find delimiter text = none ↔ ¬ delimiter <:+: text := by
  induction text with
  | nil =>
      rw [List.infix_nil]
      by_cases hnil : delimiter = []
      · rw [hnil]
        exact iff_of_false (fun h => by cases h) (fun h => h rfl)
      · exact iff_of_true (if_neg hnil) hnil
  | cons a text ih =>
      by_cases hhead : delimiter <+: a :: text
      · rw [find_of_isPrefix hhead]
        exact iff_of_false (fun h => by cases h) (fun h => h hhead.isInfix)
      · rw [find_cons_of_not_isPrefix hhead, Option.map_eq_none_iff, ih, List.infix_cons_iff,
          not_or]
        exact ⟨fun h => ⟨hhead, h⟩, fun h => h.2⟩

/-- The delimiter that is found ends inside the text. -/
theorem find_le {i : Nat} (h : find delimiter text = some i) :
    i + delimiter.length ≤ text.length := by
  rcases find_eq_some_iff.mp h with ⟨hle, hat, -⟩
  have hend := hat.length_le
  rw [List.length_drop] at hend
  omega

/-- In front of the delimiter that is found there is none. -/
theorem find_take {i : Nat} (hpos : 0 < delimiter.length) (h : find delimiter text = some i) :
    ¬ delimiter <:+: text.take i := by
  intro hoccurs
  rcases isInfix_iff_drop.mp hoccurs with ⟨j, hj, hat⟩
  have hend := hat.length_le
  rw [List.length_drop, List.length_take] at hend
  rw [List.drop_take] at hat
  exact (find_eq_some_iff.mp h).2.2 j (by omega) (hat.trans (List.take_prefix _ _))

/-- The delimiter that is found from a position on lies behind it. -/
theorem findFrom_le {start pos : Nat} (h : findFrom delimiter text start = some pos)
    (hne : delimiter ≠ []) : start ≤ pos ∧ pos + delimiter.length ≤ text.length := by
  rw [findFrom, Option.map_eq_some_iff] at h
  rcases h with ⟨i, hi, rfl⟩
  have hle := find_le hi
  have hpos := List.length_pos_iff.mpr hne
  rw [List.length_drop] at hle
  omega

theorem findFrom_append (front rest : List α) :
    findFrom delimiter (front ++ rest) front.length =
      (find delimiter rest).map (front.length + ·) := by
  rw [findFrom, List.drop_left]

/-- The delimiter does not begin within what its first element is not in. -/
theorem find_append_of_not_mem {a : α} {front rest : List α} (h : a ∉ front) :
    find (a :: delimiter) (front ++ rest) =
      (find (a :: delimiter) rest).map (front.length + ·) := by
  induction front with
  | nil =>
      cases hfind : find (a :: delimiter) rest with
      | none => exact hfind
      | some i =>
          rw [List.nil_append, hfind, Option.map_some, List.length_nil, Nat.zero_add]
  | cons b front ih =>
      rw [List.mem_cons, not_or] at h
      have hnot : ¬ a :: delimiter <+: b :: (front ++ rest) := by
        intro hprefix
        exact h.1 (List.cons_prefix_cons.mp hprefix).1
      rw [List.cons_append, find_cons_of_not_isPrefix hnot, ih h.2, Option.map_map]
      refine Option.map_congr fun i _ => ?_
      rw [Function.comp_apply, List.length_cons]
      omega

/-- A single element is found where it first is. -/
theorem find_singleton {a : α} {front rest : List α} (h : a ∉ front) :
    find [a] (front ++ a :: rest) = some front.length := by
  have hhead : find [a] (a :: rest) = some 0 :=
    find_of_isPrefix (List.cons_prefix_cons.mpr ⟨rfl, List.nil_prefix⟩)
  rw [find_append_of_not_mem h, hhead]
  rfl

/-- The search goes past another element. -/
theorem findFrom_cons {a b : α} (front rest : List α) (h : b ≠ a) :
    findFrom [a] (front ++ b :: rest) front.length =
      findFrom [a] ((front ++ [b]) ++ rest) (front ++ [b]).length := by
  have hskip : find [a] ([b] ++ rest) = (find [a] rest).map ([b].length + ·) :=
    find_append_of_not_mem fun hmem => h (List.mem_singleton.mp hmem).symm
  rw [List.singleton_append, List.length_singleton] at hskip
  rw [findFrom_append, findFrom_append, hskip, Option.map_map, List.length_append]
  refine Option.map_congr fun i _ => ?_
  rw [Function.comp_apply, List.length_singleton]
  omega

theorem findFrom_singleton {a : α} (front rest : List α) :
    findFrom [a] (front ++ a :: rest) front.length = some front.length := by
  have hhead : find [a] (a :: rest) = some 0 :=
    find_of_isPrefix (List.cons_prefix_cons.mpr ⟨rfl, List.nil_prefix⟩)
  rw [findFrom_append, hhead]
  rfl

theorem find_singleton_eq_none {a : α} (h : a ∉ text) : find [a] text = none := by
  rw [find_eq_none_iff, List.singleton_infix_iff]
  exact h

omit [DecidableEq α] in
/-- Pieces that are each followed by a delimiter have one between them, and one behind. -/
theorem flatMap_terminated (delimiter : List α) {pieces : List (List α)} (hne : pieces ≠ []) :
    pieces.flatMap (fun piece => piece ++ delimiter) =
      List.intercalate delimiter pieces ++ delimiter := by
  induction pieces with
  | nil => exact absurd rfl hne
  | cons piece pieces ih =>
      cases pieces with
      | nil =>
          rw [List.flatMap_cons, List.flatMap_nil, List.append_nil, List.intercalate_singleton]
      | cons piece' pieces =>
          rw [List.flatMap_cons, ih (List.cons_ne_nil _ _), List.intercalate_cons_cons,
            List.append_assoc, List.append_assoc, List.append_assoc]

omit [DecidableEq α] in
/-- The delimiter stands in front of all pieces but the first one. -/
theorem intercalate_cons (delimiter piece : List α) (pieces : List (List α)) :
    List.intercalate delimiter (piece :: pieces) =
      piece ++ pieces.flatMap (fun piece => delimiter ++ piece) := by
  induction pieces generalizing piece with
  | nil => rw [List.intercalate_singleton, List.flatMap_nil, List.append_nil]
  | cons piece' pieces ih =>
      rw [List.intercalate_cons_cons, ih, List.flatMap_cons, List.append_assoc, List.append_assoc]

/-- The first piece ends at the delimiter that is found. -/
theorem splitOn_of_find {a : α} {pos : Nat} (h : find [a] text = some pos) :
    text.splitOn a = text.take pos :: (text.drop (pos + 1)).splitOn a := by
  rcases find_eq_some_iff.mp h with ⟨hle, ⟨rest, hat⟩, -⟩
  have hfree : a ∉ text.take pos := by
    rw [← List.singleton_infix_iff]
    exact find_take Nat.zero_lt_one h
  have hrest : text.drop (pos + 1) = rest := by
    rw [← List.drop_drop, ← hat]
    rfl
  have hsplit : text = text.take pos ++ a :: rest := by
    rw [show a :: rest = [a] ++ rest from rfl, hat, List.take_append_drop]
  rw [hrest]
  conv_lhs => rw [hsplit]
  exact List.splitOn_append_cons_self_of_not_mem hfree rest

theorem length_splitOn_le (a : α) (text : List α) :
    (text.splitOn a).length ≤ text.length + 1 := by
  induction text with
  | nil => rw [List.splitOn_nil]; exact Nat.le_refl 1
  | cons b text ih =>
      rw [List.splitOn_cons_eq_if_modifyHead, List.length_cons]
      split
      · rw [List.length_cons]
        exact Nat.succ_le_succ ih
      · rw [List.length_modifyHead]
        exact Nat.le_succ_of_le ih

/-- The pieces between the delimiters are parts of the text, and free of the delimiter. -/
theorem of_mem_splitOn {a : α} {piece : List α} (h : piece ∈ text.splitOn a) :
    a ∉ piece ∧ piece ⊆ text := by
  induction hn : text.length using Nat.strongRecOn generalizing text with
  | _ n ih =>
      by_cases ha : a ∈ text
      · rcases List.eq_append_cons_of_mem ha with ⟨front, rest, rfl, hfree⟩
        rw [List.splitOn_append_cons_self_of_not_mem hfree, List.mem_cons] at h
        rcases h with rfl | h
        · exact ⟨hfree, List.subset_append_left _ _⟩
        · have hshorter : rest.length < n := by
            rw [← hn, List.length_append, List.length_cons]
            omega
          rcases ih _ hshorter h rfl with ⟨hpiece, hsub⟩
          have hbehind : rest ⊆ front ++ a :: rest :=
            List.Subset.trans (List.subset_cons_self _ _) (List.subset_append_right _ _)
          exact ⟨hpiece, List.Subset.trans hsub hbehind⟩
      · rw [List.splitOn_eq_singleton ha, List.mem_singleton] at h
        rw [h]
        exact ⟨ha, List.Subset.refl _⟩

omit [DecidableEq α] in
theorem mem_intercalate {delimiter : List α} {pieces : List (List α)} {x : α}
    (h : x ∈ List.intercalate delimiter pieces) : x ∈ delimiter ∨ ∃ piece ∈ pieces, x ∈ piece := by
  by_cases hnil : pieces = []
  · rw [hnil] at h
    cases h
  · have hmem : x ∈ pieces.flatMap fun piece => piece ++ delimiter := by
      rw [flatMap_terminated delimiter hnil]
      exact List.mem_append_left _ h
    rcases List.mem_flatMap.mp hmem with ⟨piece, hpiece, hx⟩
    rcases List.mem_append.mp hx with hx | hx
    · exact Or.inr ⟨piece, hpiece, hx⟩
    · exact Or.inl hx

section Framed

variable {content rest : List α}

omit [DecidableEq α] in
/-- An occurrence cannot begin inside content that does not contain it. -/
theorem not_isPrefix_framed (hunbordered : Unbordered delimiter)
    (hfree : ¬ delimiter <:+: content) {j : Nat} (hj : j < content.length) :
    ¬ delimiter <+: (content ++ (delimiter ++ rest)).drop j := by
  intro hat
  rw [List.drop_append_of_le_length (Nat.le_of_lt hj)] at hat
  have hlen : (content.drop j).length = content.length - j := List.length_drop
  by_cases hinside : delimiter.length ≤ content.length - j
  · -- It would end inside the content.
    have hcontent : delimiter <+: content.drop j :=
      List.prefix_of_prefix_length_le hat (List.prefix_append _ _) (by omega)
    exact hfree (isInfix_iff_drop.mpr ⟨j, Nat.le_of_lt hj, hcontent⟩)
  · -- It would end inside the delimiter behind the content, and overlap with it.
    have hbegins : content.drop j <+: delimiter :=
      List.prefix_of_prefix_length_le (List.prefix_append _ _) hat (by omega)
    rcases hbegins with ⟨back, hback⟩
    rw [← hback, List.prefix_append_right_inj, hback] at hat
    have hdrop : delimiter.drop (content.length - j) = back := by
      rw [← hback, ← hlen, List.drop_left]
    refine hunbordered (content.length - j) (by omega) (by omega) ?_
    rw [hdrop]
    refine List.prefix_of_prefix_length_le hat (List.prefix_append _ _) ?_
    rw [← hback, List.length_append]
    omega

/-- Content without the delimiter is found in front of it. -/
theorem find_framed (hunbordered : Unbordered delimiter) (hfree : ¬ delimiter <:+: content) :
    find delimiter (content ++ (delimiter ++ rest)) = some content.length := by
  rw [find_eq_some_iff]
  refine ⟨?_, ?_, fun j hj => not_isPrefix_framed hunbordered hfree hj⟩
  · rw [List.length_append]
    omega
  · rw [List.drop_left]
    exact List.prefix_append _ _

/-- A text is cut at its first delimiter in one way only. -/
theorem framed_unique {content' rest' : List α} (hunbordered : Unbordered delimiter)
    (hfree : ¬ delimiter <:+: content) (hfree' : ¬ delimiter <:+: content')
    (heq : content ++ (delimiter ++ rest) = content' ++ (delimiter ++ rest')) :
    content = content' ∧ rest = rest' := by
  have hfind : find delimiter (content ++ (delimiter ++ rest)) = some content.length :=
    find_framed hunbordered hfree
  rw [heq, find_framed hunbordered hfree', Option.some.injEq] at hfind
  rcases List.append_inj heq hfind.symm with ⟨hcontent, hrest⟩
  exact ⟨hcontent, List.append_cancel_left hrest⟩

/-- A shortened frame has no delimiter in it. -/
theorem find_truncated (hunbordered : Unbordered delimiter) (hfree : ¬ delimiter <:+: content)
    {part : List α} (hpart : part <+: content ++ delimiter)
    (hlt : part.length < content.length + delimiter.length) : find delimiter part = none := by
  rw [find_eq_none_iff, isInfix_iff_drop]
  intro h
  rcases h with ⟨j, hj, hat⟩
  have hend := hat.length_le
  rw [List.length_drop] at hend
  rcases hpart with ⟨missing, hwhole⟩
  have hinside : j < content.length := by omega
  have hnot : ¬ delimiter <+: (content ++ (delimiter ++ [])).drop j :=
    not_isPrefix_framed hunbordered hfree hinside
  rw [List.append_nil, ← hwhole, List.drop_append_of_le_length hj] at hnot
  exact hnot (hat.trans (List.prefix_append _ _))

end Framed

end Delimiter

end CodingChallenges
