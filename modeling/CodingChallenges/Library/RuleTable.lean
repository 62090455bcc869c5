import Mathlib.Init

/-!
# Grammars Given by a Table of Rules

Context-free grammars in which a terminal of a rule may be optional, and what they
derive within a limit of depth.

A derivation tree is built from the root down. Every node for a nonterminal has a
depth, that of the root being given, and the limit is on these depths; terminals do
not count. The derivations of a sequence of symbols are those of its symbols one
after the other, all at the same depth.

To show that whatever is derived has some property it is enough that the property is
kept by every rule. Such a property is an interpretation of the nonterminals: it says
of each nonterminal, at each depth, which sequences it allows.

## Main definitions

* `RulePart`: What a rule consists of.
* `Derives`: The sequences that symbols derive.
* `Matches`: The sequences that symbols allow in an interpretation.

## Theorems

* `Derives.cons`: Derivations one after the other.
* `Derives.matches`: What is derived is allowed by every interpretation that the rules
  keep.
* `matches_single`, `matches_terminal`, `matches_bracketed`: What rules of some shapes
  allow.
-/

namespace CodingChallenges

namespace RuleTable

/-- A part of a rule. An optional terminal may be missing. -/
inductive RulePart (N T : Type) where
  | nonTerminal (n : N)
  | terminal (t : T) (optional : Bool)
deriving DecidableEq, Repr

variable {N T : Type}

/-- The sequences that symbols at a depth derive, with no nonterminal deeper than the
    limit. -/
inductive Derives (rules : N → List (List (RulePart N T))) (limit : Nat) :
    Nat → List (RulePart N T) → List T → Prop
  | nil (depth : Nat) : Derives rules limit depth [] []
  | expand {depth : Nat} {n : N} {rule rest : List (RulePart N T)} {u v : List T} :
      depth ≤ limit → rule ∈ rules n → Derives rules limit (depth + 1) rule u →
      Derives rules limit depth rest v →
      Derives rules limit depth (.nonTerminal n :: rest) (u ++ v)
  | terminal {depth : Nat} {t : T} {optional : Bool} {rest : List (RulePart N T)} {v : List T} :
      Derives rules limit depth rest v →
      Derives rules limit depth (.terminal t optional :: rest) (t :: v)
  | skip {depth : Nat} {t : T} {rest : List (RulePart N T)} {v : List T} :
      Derives rules limit depth rest v → Derives rules limit depth (.terminal t true :: rest) v

/-- The sequences that symbols allow if each nonterminal allows what it is interpreted
    as. -/
def Matches (allows : N → List T → Prop) : List (RulePart N T) → List T → Prop
  | [], w => w = []
  | .nonTerminal n :: rest, w => ∃ u v, w = u ++ v ∧ allows n u ∧ Matches allows rest v
  | .terminal t optional :: rest, w =>
    (∃ v, w = t :: v ∧ Matches allows rest v) ∨ (optional = true ∧ Matches allows rest w)

variable {rules : N → List (List (RulePart N T))} {limit depth : Nat}
  {symbols : List (RulePart N T)} {w : List T}

/-- A single nonterminal derives what one of its rules does. -/
theorem Derives.single {n : N} {rule : List (RulePart N T)} (hdepth : depth ≤ limit)
    (hrule : rule ∈ rules n) (h : Derives rules limit (depth + 1) rule w) :
    Derives rules limit depth [.nonTerminal n] w := by
  have hexpand := Derives.expand hdepth hrule h (.nil depth)
  rwa [List.append_nil] at hexpand

/-- A nonterminal in front of symbols, derived on its own. -/
theorem Derives.cons {n : N} {rest : List (RulePart N T)} {u v : List T}
    (hfirst : Derives rules limit depth [.nonTerminal n] u)
    (hrest : Derives rules limit depth rest v) :
    Derives rules limit depth (.nonTerminal n :: rest) (u ++ v) := by
  cases hfirst with
  | expand hdepth hrule hbody hnil =>
      cases hnil
      rw [List.append_nil]
      exact Derives.expand hdepth hrule hbody hrest

/-- If every rule keeps an interpretation, then what is derived is allowed by it. -/
theorem Derives.matches (allows : Nat → N → List T → Prop)
    (hrules : ∀ depth n rule w, depth ≤ limit → rule ∈ rules n →
      Matches (allows (depth + 1)) rule w → allows depth n w)
    (h : Derives rules limit depth symbols w) : Matches (allows depth) symbols w := by
  induction h with
  | nil depth => rfl
  | expand hdepth hrule _ _ ihbody ihrest =>
      exact ⟨_, _, rfl, hrules _ _ _ _ hdepth hrule ihbody, ihrest⟩
  | terminal _ ih => exact Or.inl ⟨_, rfl, ih⟩
  | skip _ ih => exact Or.inr ⟨rfl, ih⟩

section shapes

variable {allows : N → List T → Prop} {rest : List (RulePart N T)}

theorem matches_single {n : N} : Matches allows [.nonTerminal n] w ↔ allows n w := by
  constructor
  · rintro ⟨u, v, rfl, hu, rfl⟩
    rwa [List.append_nil]
  · intro hw
    exact ⟨w, [], (List.append_nil w).symm, hw, rfl⟩

/-- A terminal that has to be there. -/
theorem matches_terminal {t : T} :
    Matches allows (.terminal t false :: rest) w ↔ ∃ v, w = t :: v ∧ Matches allows rest v := by
  constructor
  · intro h
    exact h.resolve_right fun hskip => Bool.false_ne_true hskip.1
  · exact Or.inl

theorem matches_bracketed {opening closing : T} {n : N} :
    Matches allows [.terminal opening false, .nonTerminal n, .terminal closing false] w ↔
      ∃ u, w = opening :: u ++ [closing] ∧ allows n u := by
  rw [matches_terminal]
  constructor
  · rintro ⟨v, rfl, u, rest, rfl, hu, hclosing⟩
    rcases matches_terminal.mp hclosing with ⟨v, rfl, rfl⟩
    exact ⟨u, rfl, hu⟩
  · rintro ⟨u, rfl, hu⟩
    exact ⟨u ++ [closing], rfl, u, [closing], rfl, hu, matches_terminal.mpr ⟨[], rfl, rfl⟩⟩

end shapes

end RuleTable

end CodingChallenges
