import CodingChallenges.Grep.Parser

/-!
# The Concrete Grammar

Which byte strings spell a tree.

This is the notation of patterns, stated without the parser: a tree and a byte
string are related if the string is one way to write the tree down. The
relation says nothing about which of several trees a string is read as. A
literal may be spelled by any bytes that decode to it, a special character
included, since that is what the parser falls back to where the special reading
fails.

A spelling has at least one alternative, and each alternative at least one
item, so the trees that can be spelled at all are not empty, and their
quantifiers and character ranges are in order.

## Main definitions

* `SpellsNumber`, `SpellsQuantifier`, `SpellsChar`, `SpellsCharacterGroup`,
  `SpellsMatch`, `SpellsAnchor`, `SpellsBackreference`: Leaves.
* `Expression.Spells`, `Group.Spells`, `Regex.Spells`: Trees.
* `Expression.NonEmpty`: Every list of alternatives and of items has a member.
* `ordered`: Quantifiers and character ranges are in order.

## Theorems

* `Expression.Spells.nonEmpty`, `Expression.Spells.ordered`: What can be
  spelled is well formed.
-/

namespace CodingChallenges

namespace Grep

/-- A number is spelled by its digits, with any zeros in front. -/
def SpellsNumber (number : Nat) (w : List Byte) : Prop :=
  w ≠ [] ∧ (∀ d ∈ w, isDecimalDigit d = true) ∧ decimalValue w = number

/-- The three forms of a range quantifier. -/
inductive SpellsRangeQuantifier : RangeQuantifier → List Byte → Prop where
  | exactly {number : Nat} {w : List Byte} (h : SpellsNumber number w) :
      SpellsRangeQuantifier { exactlyLowerBoundTimes := true, lowerBound := number }
        (byte '{' :: w ++ [byte '}'])
  | atLeast {number : Nat} {w : List Byte} (h : SpellsNumber number w) :
      SpellsRangeQuantifier { lowerBound := number } (byte '{' :: w ++ [byte ',', byte '}'])
  | between {lower upper : Nat} {u v : List Byte} (hl : SpellsNumber lower u)
      (hu : SpellsNumber upper v) (hle : lower ≤ upper) :
      SpellsRangeQuantifier { lowerBound := lower, upperBound := some upper }
        (byte '{' :: u ++ byte ',' :: v ++ [byte '}'])

/-- The question mark of a lazy quantifier. -/
def lazySuffix (lazyModifier : Bool) : List Byte :=
  if lazyModifier then [byte '?'] else []

/-- The spellings of a quantifier. -/
inductive SpellsQuantifier : Quantifier → List Byte → Prop where
  | zeroOrMore (lazyModifier : Bool) :
      SpellsQuantifier { type := .zeroOrMore, lazyModifier } (byte '*' :: lazySuffix lazyModifier)
  | oneOrMore (lazyModifier : Bool) :
      SpellsQuantifier { type := .oneOrMore, lazyModifier } (byte '+' :: lazySuffix lazyModifier)
  | zeroOrOne (lazyModifier : Bool) :
      SpellsQuantifier { type := .zeroOrOne, lazyModifier } (byte '?' :: lazySuffix lazyModifier)
  | range {range : RangeQuantifier} {w : List Byte} (h : SpellsRangeQuantifier range w)
      (lazyModifier : Bool) :
      SpellsQuantifier { type := .range, rangeQuantifier := some range, lazyModifier }
        (w ++ lazySuffix lazyModifier)

/-- A quantifier that may be absent. -/
def SpellsOptionalQuantifier : Option Quantifier → List Byte → Prop
  | none, w => w = []
  | some quantifier, w => SpellsQuantifier quantifier w

/-- A literal is spelled by any bytes that decode to it. -/
def SpellsChar (c : Nat) (w : List Byte) : Prop :=
  parseChar w = .ok ⟨c, []⟩

/-- The letter behind the backslash. -/
def CharacterClassType.letter : CharacterClassType → Byte
  | .anyWord => byte 'w'
  | .anyWordInverted => byte 'W'
  | .anyDecimalDigit => byte 'd'
  | .anyDecimalDigitInverted => byte 'D'
  | .anyWhitespace => byte 's'
  | .anyWhitespaceInverted => byte 'S'

/-- A class is a backslash and its letter. -/
def SpellsCharacterClass (c : CharacterClass) (w : List Byte) : Prop :=
  w = [byte '\\', c.type.letter]

/-- A category is its name in braces behind `\p`. -/
def SpellsUnicodeCategory (c : CharacterClassFromUnicodeCategory) (w : List Byte) : Prop :=
  c.categoryName.letters ≠ [] ∧ (∀ l ∈ c.categoryName.letters, isLetter l = true) ∧
    w = [byte '\\', byte 'p', byte '{'] ++ c.categoryName.letters ++ [byte '}']

/-- A range of characters, or one character standing for itself. -/
inductive SpellsCharacterRange : CharacterRange → List Byte → Prop where
  | single {start : Nat} {w : List Byte} (h : SpellsChar start w) :
      SpellsCharacterRange { start } w
  | between {start last : Nat} {u v : List Byte} (hs : SpellsChar start u)
      (hl : SpellsChar last v) (hle : start ≤ last) :
      SpellsCharacterRange { start, endChar := some last } (u ++ byte '-' :: v)

/-- The spellings of one item between brackets. -/
def SpellsCharacterGroupItem : CharacterGroupItem → List Byte → Prop
  | .characterClass c, w => SpellsCharacterClass c w
  | .unicodeCategory c, w => SpellsUnicodeCategory c w
  | .characterRange r, w => SpellsCharacterRange r w
  | .character c, w => SpellsChar c w

/-- Items one behind the other. -/
def SpellsCharacterGroupItems : List CharacterGroupItem → List Byte → Prop
  | [], w => w = []
  | item :: rest, w =>
    ∃ u v, w = u ++ v ∧ SpellsCharacterGroupItem item u ∧ SpellsCharacterGroupItems rest v

/-- A group of characters is its items in brackets, with a `^` in front if it is negated. -/
def SpellsCharacterGroup (g : CharacterGroup) (w : List Byte) : Prop :=
  ∃ u, w = byte '[' :: (if g.negativeModifier then [byte '^'] else []) ++ u ++ [byte ']'] ∧
    SpellsCharacterGroupItems g.characterGroupItems u

/-- The spellings of what matches one character. -/
def SpellsMatchItem : MatchItem → List Byte → Prop
  | .anyCharacter, w => w = [byte '.']
  | .characterClass (.characterGroup g), w => SpellsCharacterGroup g w
  | .characterClass (.characterClass c), w => SpellsCharacterClass c w
  | .characterClass (.unicodeCategory c), w => SpellsUnicodeCategory c w
  | .character c, w => SpellsChar c w

/-- An item and its quantifier, if it has one. -/
def SpellsMatch (m : Match) (w : List Byte) : Prop :=
  ∃ u v, w = u ++ v ∧ SpellsMatchItem m.matchItem u ∧ SpellsOptionalQuantifier m.quantifier v

/-- The one spelling of an anchor. -/
def SpellsAnchor : Anchor → List Byte → Prop
  | ⟨.endOfString⟩, w => w = [byte '$']
  | ⟨.wordBoundary⟩, w => w = [byte '\\', byte 'b']
  | ⟨.nonWordBoundary⟩, w => w = [byte '\\', byte 'B']
  | ⟨.startOfStringOnly⟩, w => w = [byte '\\', byte 'A']
  | ⟨.endOfStringOnlyNotNewline⟩, w => w = [byte '\\', byte 'z']
  | ⟨.endOfStringOnly⟩, w => w = [byte '\\', byte 'Z']
  | ⟨.previousMatchEnd⟩, w => w = [byte '\\', byte 'G']

/-- A backslash and a number. -/
def SpellsBackreference (number : Nat) (w : List Byte) : Prop :=
  ∃ u, w = byte '\\' :: u ∧ SpellsNumber number u

/-- The opening of a group. -/
def groupOpening (nonCapturingModifier : Bool) : List Byte :=
  if nonCapturingModifier then [byte '(', byte '?', byte ':'] else [byte '(']

mutual

/-- Alternatives joined by bars. -/
def Expression.Spells : Expression → List Byte → Prop
  | .mk alternatives => Expression.SpellsAlternatives alternatives

/-- The first alternative, and the others behind it. -/
def Expression.SpellsAlternatives : List SubExpression → List Byte → Prop
  | [], _ => False
  | alternative :: rest, w =>
    ∃ u v, w = u ++ v ∧ alternative.Spells u ∧ Expression.SpellsMoreAlternatives rest v

/-- The alternatives after the first, each behind its bar. -/
def Expression.SpellsMoreAlternatives : List SubExpression → List Byte → Prop
  | [], w => w = []
  | alternative :: rest, w =>
    ∃ u v, w = byte '|' :: u ++ v ∧ alternative.Spells u ∧
      Expression.SpellsMoreAlternatives rest v

/-- Items concatenated. -/
def SubExpression.Spells : SubExpression → List Byte → Prop
  | .mk [], _ => False
  | .mk (item :: rest), w =>
    ∃ u v, w = u ++ v ∧ item.Spells u ∧ SubExpression.SpellsMoreItems rest v

/-- The items from one on. -/
def SubExpression.SpellsMoreItems : List SubExpressionItem → List Byte → Prop
  | [], w => w = []
  | item :: rest, w => ∃ u v, w = u ++ v ∧ item.Spells u ∧ SubExpression.SpellsMoreItems rest v

/-- The spellings of an item of a sequence. -/
def SubExpressionItem.Spells : SubExpressionItem → List Byte → Prop
  -- Which of these an item is read as is not the grammar's business.
  | .singleMatch m, w => SpellsMatch m w
  | .group g, w => g.Spells w
  | .anchor a, w => SpellsAnchor a w
  | .backreference b, w => SpellsBackreference b w

/-- An expression in parentheses. -/
def Group.Spells : Group → List Byte → Prop
  -- The source's type allows a group without an expression, but no pattern makes one.
  | .mk _ none _, _ => False
  | .mk nonCapturingModifier (some expression) quantifier, w =>
    ∃ u v, w = groupOpening nonCapturingModifier ++ u ++ byte ')' :: v ∧ expression.Spells u ∧
      SpellsOptionalQuantifier quantifier v

end

/-- An optional circumflex and an expression. -/
def Regex.Spells (regex : Regex) (w : List Byte) : Prop :=
  ∃ u, w = (if regex.startOfStringAnchor then [byte '^'] else []) ++ u ∧ regex.expression.Spells u

mutual

/-- There is an alternative, and no list of items is empty. -/
def Expression.NonEmpty : Expression → Prop
  | .mk alternatives => alternatives ≠ [] ∧ Expression.NonEmptyAlternatives alternatives

/-- No alternative has an empty part. -/
def Expression.NonEmptyAlternatives : List SubExpression → Prop
  | [] => True
  | alternative :: rest => alternative.NonEmpty ∧ Expression.NonEmptyAlternatives rest

/-- The sequence has an item, and none with an empty part. -/
def SubExpression.NonEmpty : SubExpression → Prop
  | .mk items => items ≠ [] ∧ SubExpression.NonEmptyItems items

/-- No item has an empty part. -/
def SubExpression.NonEmptyItems : List SubExpressionItem → Prop
  | [] => True
  | item :: rest => item.NonEmpty ∧ SubExpression.NonEmptyItems rest

/-- A group has no empty part. -/
def SubExpressionItem.NonEmpty : SubExpressionItem → Prop
  | .group g => g.NonEmpty
  | _ => True

/-- The expression in the group has no empty part. -/
def Group.NonEmpty : Group → Prop
  | .mk _ none _ => True
  | .mk _ (some expression) _ => expression.NonEmpty

end

/-- A range of characters does not end before it starts. -/
def CharacterRange.Ordered (r : CharacterRange) : Prop :=
  ∀ last, r.endChar = some last → r.start ≤ last

/-- All ranges of a bracket group are in order. -/
def MatchItem.Ordered : MatchItem → Prop
  | .characterClass (.characterGroup g) =>
    ∀ r, .characterRange r ∈ g.characterGroupItems → r.Ordered
  | _ => True

/-- Quantifiers have one of the parser's shapes, and all ranges are in order. -/
def ordered : NodePredicate :=
  { onMatchItem := MatchItem.Ordered, onQuantifier := Quantifier.WellShaped }

theorem SpellsQuantifier.wellShaped {quantifier : Quantifier} {w : List Byte}
    (h : SpellsQuantifier quantifier w) : quantifier.WellShaped := by
  intro hrange
  cases h with
  | zeroOrMore _ => cases hrange
  | oneOrMore _ => cases hrange
  | zeroOrOne _ => cases hrange
  -- Each of the three forms gives its range one of the shapes.
  | @range range _ h _ =>
      refine ⟨range, rfl, ?_⟩
      cases h with
      | exactly _ => trivial
      | atLeast _ => trivial
      | between _ _ hle => exact ⟨rfl, hle⟩

theorem SpellsOptionalQuantifier.ordered {quantifier : Option Quantifier} {w : List Byte}
    (h : SpellsOptionalQuantifier quantifier w) :
    Grep.ordered.onOptionalQuantifier quantifier := by
  cases quantifier with
  | none => trivial
  | some quantifier => exact SpellsQuantifier.wellShaped h

theorem SpellsCharacterGroupItems.ordered {items : List CharacterGroupItem} {w : List Byte}
    (h : SpellsCharacterGroupItems items w) :
    ∀ r, .characterRange r ∈ items → r.Ordered := by
  induction items generalizing w with
  | nil =>
      intro r hr
      exact absurd hr List.not_mem_nil
  | cons item rest ih =>
      rcases h with ⟨u, v, -, hitem, hrest⟩
      intro r hr
      rcases List.mem_cons.mp hr with rfl | hr
      · intro last hlast
        cases hitem with
        | single _ => cases hlast
        | between _ _ hle =>
            cases hlast
            exact hle
      · exact ih hrest r hr

theorem SpellsMatchItem.ordered {item : MatchItem} {w : List Byte}
    (h : SpellsMatchItem item w) : item.Ordered := by
  rcases item with _ | (g | _ | _) | _
  · trivial
  · rcases h with ⟨u, -, hitems⟩
    exact hitems.ordered
  · trivial
  · trivial
  · trivial

mutual

/-- What can be spelled has an alternative, and no list of items is empty. -/
theorem Expression.Spells.nonEmpty : ∀ {expression : Expression} {w : List Byte},
    expression.Spells w → expression.NonEmpty
  | .mk [], _, h => absurd h id
  | .mk (alternative :: rest), _, h => by
      rcases h with ⟨u, v, -, hfirst, hrest⟩
      exact ⟨List.cons_ne_nil alternative rest, SubExpression.Spells.nonEmpty hfirst,
        Expression.SpellsMoreAlternatives.nonEmpty hrest⟩

theorem Expression.SpellsMoreAlternatives.nonEmpty :
    ∀ {alternatives : List SubExpression} {w : List Byte},
      Expression.SpellsMoreAlternatives alternatives w →
        Expression.NonEmptyAlternatives alternatives
  | [], _, _ => trivial
  | _ :: _, _, h => by
      rcases h with ⟨u, v, -, hfirst, hrest⟩
      exact ⟨SubExpression.Spells.nonEmpty hfirst,
        Expression.SpellsMoreAlternatives.nonEmpty hrest⟩

theorem SubExpression.Spells.nonEmpty : ∀ {subExpression : SubExpression} {w : List Byte},
    subExpression.Spells w → subExpression.NonEmpty
  | .mk [], _, h => absurd h id
  | .mk (item :: rest), _, h => by
      rcases h with ⟨u, v, -, hfirst, hrest⟩
      exact ⟨List.cons_ne_nil item rest, SubExpressionItem.Spells.nonEmpty hfirst,
        SubExpression.SpellsMoreItems.nonEmpty hrest⟩

theorem SubExpression.SpellsMoreItems.nonEmpty :
    ∀ {items : List SubExpressionItem} {w : List Byte},
      SubExpression.SpellsMoreItems items w → SubExpression.NonEmptyItems items
  | [], _, _ => trivial
  | _ :: _, _, h => by
      rcases h with ⟨u, v, -, hfirst, hrest⟩
      exact ⟨SubExpressionItem.Spells.nonEmpty hfirst,
        SubExpression.SpellsMoreItems.nonEmpty hrest⟩

theorem SubExpressionItem.Spells.nonEmpty : ∀ {item : SubExpressionItem} {w : List Byte},
    item.Spells w → item.NonEmpty
  | .singleMatch _, _, _ => trivial
  | .group _, _, h => Group.Spells.nonEmpty h
  | .anchor _, _, _ => trivial
  | .backreference _, _, _ => trivial

theorem Group.Spells.nonEmpty : ∀ {group : Group} {w : List Byte},
    group.Spells w → group.NonEmpty
  | .mk _ none _, _, _ => trivial
  | .mk _ (some _) _, _, h => by
      rcases h with ⟨u, v, -, hexpression, -⟩
      exact Expression.Spells.nonEmpty hexpression

end

mutual

/-- What can be spelled has its quantifiers and ranges in order. -/
theorem Expression.Spells.ordered : ∀ {expression : Expression} {w : List Byte},
    expression.Spells w → expression.Forall ordered
  | .mk [], _, h => absurd h id
  | .mk (_ :: _), _, h => by
      rcases h with ⟨u, v, -, hfirst, hrest⟩
      exact ⟨SubExpression.Spells.ordered hfirst, Expression.SpellsMoreAlternatives.ordered hrest⟩

theorem Expression.SpellsMoreAlternatives.ordered :
    ∀ {alternatives : List SubExpression} {w : List Byte},
      Expression.SpellsMoreAlternatives alternatives w →
        Expression.ForallAlternatives ordered alternatives
  | [], _, _ => trivial
  | _ :: _, _, h => by
      rcases h with ⟨u, v, -, hfirst, hrest⟩
      exact ⟨SubExpression.Spells.ordered hfirst, Expression.SpellsMoreAlternatives.ordered hrest⟩

theorem SubExpression.Spells.ordered : ∀ {subExpression : SubExpression} {w : List Byte},
    subExpression.Spells w → subExpression.Forall ordered
  | .mk [], _, h => absurd h id
  | .mk (_ :: _), _, h => by
      rcases h with ⟨u, v, -, hfirst, hrest⟩
      exact ⟨SubExpressionItem.Spells.ordered hfirst, SubExpression.SpellsMoreItems.ordered hrest⟩

theorem SubExpression.SpellsMoreItems.ordered :
    ∀ {items : List SubExpressionItem} {w : List Byte},
      SubExpression.SpellsMoreItems items w → SubExpression.ForallItems ordered items
  | [], _, _ => trivial
  | _ :: _, _, h => by
      rcases h with ⟨u, v, -, hfirst, hrest⟩
      exact ⟨SubExpressionItem.Spells.ordered hfirst, SubExpression.SpellsMoreItems.ordered hrest⟩

theorem SubExpressionItem.Spells.ordered : ∀ {item : SubExpressionItem} {w : List Byte},
    item.Spells w → item.Forall ordered
  | .singleMatch _, _, h => by
      rcases h with ⟨u, v, -, hitem, hquantifier⟩
      exact ⟨hitem.ordered, hquantifier.ordered⟩
  | .group _, _, h => Group.Spells.ordered h
  | .anchor _, _, _ => trivial
  | .backreference _, _, _ => trivial

theorem Group.Spells.ordered : ∀ {group : Group} {w : List Byte},
    group.Spells w → group.Forall ordered
  | .mk _ none _, _, h => absurd h id
  | .mk _ (some _) _, _, h => by
      rcases h with ⟨u, v, -, hexpression, hquantifier⟩
      exact ⟨Expression.Spells.ordered hexpression, hquantifier.ordered⟩

end

end Grep

end CodingChallenges
