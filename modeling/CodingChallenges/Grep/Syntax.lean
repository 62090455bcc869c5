import CodingChallenges.Library.Bytes
import Mathlib.Algebra.Ring.Nat
import Mathlib.Data.List.Basic

/-!
# Regex Syntax Trees

The value types the regex engine's parser builds and its automaton builder
consumes, one Lean type for each type of `parser_types.hpp`.

A `std::variant` becomes an inductive type with one constructor per
alternative, and an optional of an empty struct (`LazyModifier`,
`GroupNonCapturingModifier`, `CharacterGroupNegativeModifier`,
`StartOfStringAnchor`) becomes a flag, since its presence is all it says. The
`NodeRef` of a group may be null, so its expression stays optional. Code points
(`char32_t`) and the numbers in a pattern are natural numbers.

Expressions, sub-expressions, items, and groups contain one another, so the
four types are declared together.

## Main definitions

* `Quantifier`: A repetition suffix, greedy or lazy.
* `MatchItem`: The leaf a quantifier applies to.
* `Expression`, `SubExpression`, `SubExpressionItem`, `Group`: The tree.
* `Regex`: A tree with its optional leading anchor.
* `NodePredicate`: One predicate for each kind of leaf and for quantifiers.
* `Expression.Forall`: A node predicate holds all over a tree.
* `Quantifier.WellShaped`: The shapes the parser builds.

## Theorems

* `Expression.forall_default`: Nothing is asked of any tree by default.
* `Expression.forall_imp`: A stronger predicate implies a weaker one.
-/

namespace CodingChallenges

namespace Grep

/-- One `char` of a pattern or of a line, before decoding. -/
abbrev Byte := UInt8

/-- The code point of a character, for the characters the source spells out. -/
abbrev codePoint (c : Char) : Nat := c.toNat

/-- The numbers in braces of a range quantifier. -/
structure RangeQuantifier where
  exactlyLowerBoundTimes : Bool := false
  lowerBound : Nat
  upperBound : Option Nat := none
deriving DecidableEq, Repr

/-- The four kinds of quantifier. -/
inductive QuantifierType where
  | zeroOrMore
  | oneOrMore
  | zeroOrOne
  | range
deriving DecidableEq, Repr

/-- A repetition suffix. -/
structure Quantifier where
  type : QuantifierType
  rangeQuantifier : Option RangeQuantifier := none
  lazyModifier : Bool := false
deriving DecidableEq, Repr

/-- The escapes that stand for a set of characters. -/
inductive CharacterClassType where
  | anyWord
  | anyWordInverted
  | anyDecimalDigit
  | anyDecimalDigitInverted
  | anyWhitespace
  | anyWhitespaceInverted
deriving DecidableEq, Repr

/-- A character class escape. -/
structure CharacterClass where
  type : CharacterClassType
deriving DecidableEq, Repr

/-- The letters between the braces of a unicode category escape. -/
structure UnicodeCategoryName where
  letters : List Byte
deriving DecidableEq, Repr

/-- A unicode category escape. -/
structure CharacterClassFromUnicodeCategory where
  categoryName : UnicodeCategoryName
deriving DecidableEq, Repr

/-- An item of a bracket group: one character, or a range of them. -/
structure CharacterRange where
  start : Nat
  endChar : Option Nat := none
deriving DecidableEq, Repr

/-- What may stand between the brackets of a character group. -/
inductive CharacterGroupItem where
  | characterClass (c : CharacterClass)
  | unicodeCategory (c : CharacterClassFromUnicodeCategory)
  | characterRange (r : CharacterRange)
  | character (c : Nat)
deriving DecidableEq, Repr

/-- A bracket group. -/
structure CharacterGroup where
  negativeModifier : Bool := false
  characterGroupItems : List CharacterGroupItem := []
deriving DecidableEq, Repr

/-- The leaves that match a set of characters. -/
inductive MatchCharacterClass where
  | characterGroup (g : CharacterGroup)
  | characterClass (c : CharacterClass)
  | unicodeCategory (c : CharacterClassFromUnicodeCategory)
deriving DecidableEq, Repr

/-- The leaves a quantifier may follow. -/
inductive MatchItem where
  | anyCharacter
  | characterClass (c : MatchCharacterClass)
  | character (c : Nat)
deriving DecidableEq, Repr

/-- A leaf with its quantifier. -/
structure Match where
  matchItem : MatchItem
  quantifier : Option Quantifier := none
deriving DecidableEq, Repr

/-- The zero-width escapes and the dollar sign. -/
inductive AnchorType where
  | wordBoundary
  | nonWordBoundary
  | startOfStringOnly
  | endOfStringOnlyNotNewline
  | endOfStringOnly
  | previousMatchEnd
  | endOfString
deriving DecidableEq, Repr

/-- A zero-width item. -/
structure Anchor where
  type : AnchorType
deriving DecidableEq, Repr

mutual

/-- Alternatives separated by bars. -/
inductive Expression where
  | mk (alternatives : List SubExpression)

/-- Items written one after the other. -/
inductive SubExpression where
  | mk (subExpressionItems : List SubExpressionItem)

/-- One item of a sub-expression. -/
inductive SubExpressionItem where
  | singleMatch (m : Match)
  | group (g : Group)
  | anchor (a : Anchor)
  | backreference (number : Nat)

/-- A parenthesised expression, capturing unless the modifier is set. -/
inductive Group where
  | mk (nonCapturingModifier : Bool) (expression : Option Expression)
      (quantifier : Option Quantifier)

end

/-- A whole pattern: the optional leading anchor and the expression. -/
structure Regex where
  startOfStringAnchor : Bool := false
  expression : Expression

/-- One predicate for each kind of leaf, and one for quantifiers. -/
structure NodePredicate where
  onMatchItem : MatchItem → Prop := fun _ => True
  onAnchor : Anchor → Prop := fun _ => True
  onBackreference : Nat → Prop := fun _ => True
  onQuantifier : Quantifier → Prop := fun _ => True

/-- A quantifier, if there is one, satisfies the predicate. -/
def NodePredicate.onOptionalQuantifier (P : NodePredicate) : Option Quantifier → Prop
  | none => True
  | some q => P.onQuantifier q

mutual

/-- The predicate holds at every leaf and quantifier of an expression. -/
def Expression.Forall (P : NodePredicate) : Expression → Prop
  | .mk alternatives => Expression.ForallAlternatives P alternatives

/-- The predicate holds all over a list of alternatives. -/
def Expression.ForallAlternatives (P : NodePredicate) : List SubExpression → Prop
  | [] => True
  | s :: rest => SubExpression.Forall P s ∧ Expression.ForallAlternatives P rest

/-- The predicate holds at every leaf and quantifier of a sub-expression. -/
def SubExpression.Forall (P : NodePredicate) : SubExpression → Prop
  | .mk items => SubExpression.ForallItems P items

/-- The predicate holds all over a list of items. -/
def SubExpression.ForallItems (P : NodePredicate) : List SubExpressionItem → Prop
  | [] => True
  | i :: rest => SubExpressionItem.Forall P i ∧ SubExpression.ForallItems P rest

/-- The predicate holds at every leaf and quantifier of an item. -/
def SubExpressionItem.Forall (P : NodePredicate) : SubExpressionItem → Prop
  | .singleMatch m => P.onMatchItem m.matchItem ∧ P.onOptionalQuantifier m.quantifier
  | .group g => Group.Forall P g
  | .anchor a => P.onAnchor a
  | .backreference n => P.onBackreference n

/-- The predicate holds at every leaf and quantifier of a group. -/
def Group.Forall (P : NodePredicate) : Group → Prop
  | .mk _ none q => P.onOptionalQuantifier q
  | .mk _ (some e) q => Expression.Forall P e ∧ P.onOptionalQuantifier q

end

theorem onOptionalQuantifier_default (quantifier : Option Quantifier) :
    NodePredicate.onOptionalQuantifier {} quantifier := by
  cases quantifier <;> trivial

mutual

/-- The predicate that asks for nothing holds all over every tree. -/
theorem Expression.forall_default : ∀ expression : Expression, expression.Forall {}
  | .mk alternatives => Expression.forallAlternatives_default alternatives

theorem Expression.forallAlternatives_default :
    ∀ alternatives : List SubExpression, Expression.ForallAlternatives {} alternatives
  | [] => trivial
  | alternative :: rest =>
      ⟨SubExpression.forall_default alternative, Expression.forallAlternatives_default rest⟩

theorem SubExpression.forall_default : ∀ subExpression : SubExpression, subExpression.Forall {}
  | .mk items => SubExpression.forallItems_default items

theorem SubExpression.forallItems_default :
    ∀ items : List SubExpressionItem, SubExpression.ForallItems {} items
  | [] => trivial
  | item :: rest =>
      ⟨SubExpressionItem.forall_default item, SubExpression.forallItems_default rest⟩

theorem SubExpressionItem.forall_default : ∀ item : SubExpressionItem, item.Forall {}
  | .singleMatch m => ⟨trivial, onOptionalQuantifier_default m.quantifier⟩
  | .group g => Group.forall_default g
  | .anchor _ => trivial
  | .backreference _ => trivial

theorem Group.forall_default : ∀ group : Group, group.Forall {}
  | .mk _ none quantifier => onOptionalQuantifier_default quantifier
  | .mk _ (some expression) quantifier =>
      ⟨Expression.forall_default expression, onOptionalQuantifier_default quantifier⟩

end

/-- What the one predicate asks of a node implies what the other one asks of it. -/
structure NodePredicate.Stronger (P Q : NodePredicate) : Prop where
  matchItem : ∀ item, P.onMatchItem item → Q.onMatchItem item
  anchor : ∀ a, P.onAnchor a → Q.onAnchor a
  backreference : ∀ b, P.onBackreference b → Q.onBackreference b
  quantifier : ∀ q, P.onQuantifier q → Q.onQuantifier q

section Stronger

variable {P Q : NodePredicate}

theorem NodePredicate.Stronger.onOptionalQuantifier (h : P.Stronger Q)
    {quantifier : Option Quantifier} (hquantifier : P.onOptionalQuantifier quantifier) :
    Q.onOptionalQuantifier quantifier := by
  cases quantifier with
  | none => trivial
  | some quantifier => exact h.quantifier quantifier hquantifier

mutual

/-- What holds all over a tree implies what is weaker at every node. -/
theorem Expression.forall_imp (hPQ : P.Stronger Q) : ∀ expression : Expression,
    expression.Forall P → expression.Forall Q
  | .mk alternatives, h => Expression.forallAlternatives_imp hPQ alternatives h

theorem Expression.forallAlternatives_imp (hPQ : P.Stronger Q) :
    ∀ alternatives : List SubExpression,
      Expression.ForallAlternatives P alternatives → Expression.ForallAlternatives Q alternatives
  | [], _ => trivial
  | alternative :: rest, h =>
      ⟨SubExpression.forall_imp hPQ alternative h.1,
        Expression.forallAlternatives_imp hPQ rest h.2⟩

theorem SubExpression.forall_imp (hPQ : P.Stronger Q) : ∀ subExpression : SubExpression,
    subExpression.Forall P → subExpression.Forall Q
  | .mk items, h => SubExpression.forallItems_imp hPQ items h

theorem SubExpression.forallItems_imp (hPQ : P.Stronger Q) : ∀ items : List SubExpressionItem,
    SubExpression.ForallItems P items → SubExpression.ForallItems Q items
  | [], _ => trivial
  | item :: rest, h =>
      ⟨SubExpressionItem.forall_imp hPQ item h.1, SubExpression.forallItems_imp hPQ rest h.2⟩

theorem SubExpressionItem.forall_imp (hPQ : P.Stronger Q) : ∀ item : SubExpressionItem,
    item.Forall P → item.Forall Q
  | .singleMatch m, h => ⟨hPQ.matchItem m.matchItem h.1, hPQ.onOptionalQuantifier h.2⟩
  | .group g, h => Group.forall_imp hPQ g h
  | .anchor a, h => hPQ.anchor a h
  | .backreference b, h => hPQ.backreference b h

theorem Group.forall_imp (hPQ : P.Stronger Q) : ∀ group : Group,
    group.Forall P → group.Forall Q
  | .mk _ none _, h => hPQ.onOptionalQuantifier h
  | .mk _ (some expression) _, h =>
      ⟨Expression.forall_imp hPQ expression h.1, hPQ.onOptionalQuantifier h.2⟩

end

end Stronger

/-- The numbers in braces are `{n}`, `{n,}`, or `{n,m}` with `n` at most `m`. -/
def RangeQuantifier.WellShaped (range : RangeQuantifier) : Prop :=
  match range.upperBound with
  | some upperBound => range.exactlyLowerBoundTimes = false ∧ range.lowerBound ≤ upperBound
  | none => True

/-- A range quantifier has its numbers, in one of the three shapes. -/
def Quantifier.WellShaped (quantifier : Quantifier) : Prop :=
  quantifier.type = .range →
    ∃ range, quantifier.rangeQuantifier = some range ∧ range.WellShaped

/-- All quantifiers are well shaped. -/
def wellShaped : NodePredicate := { onQuantifier := Quantifier.WellShaped }

/-- There are no backreferences. -/
def noBackreference : NodePredicate := { onBackreference := fun _ => False }

end Grep

end CodingChallenges
