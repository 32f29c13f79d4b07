/-!
# Actions

What a pattern does beside matching is up to the caller.  An action is a value of a type `α`, and
`Actions α σ` says what happens for each of them, in terms of a store `σ` that the caller owns.

Asking an action whether a match is welcome happens at once, also for matches that are given up
later; backtracking does not take back what that did to the store.  Committing happens after the
whole match has succeeded, and for the actions in it only.
-/

set_option autoImplicit false

namespace PegMachine

/-- What actions from `α` do to a store. -/
structure Actions (α σ : Type) where
  /-- Told of a match of the given subject between two positions, answers with the position where
  matching goes on, or with none if the match is to fail. -/
  onMatch : α → Array Char → Nat → Nat → σ → Option Nat × σ
  /-- Told of a match, from where it started to where matching went on, that is part of the
  whole. -/
  onCommit : α → Array Char → Nat → Nat → σ → σ

namespace Actions

variable {α β σ τ : Type}

/-- Actions of two sorts side by side, each with a store of its own. -/
def sum (a : Actions α σ) (b : Actions β τ) : Actions (α ⊕ β) (σ × τ) where
  onMatch
    | .inl x, subject, start, stop, (s, t) =>
      let (answer, s) := a.onMatch x subject start stop s
      (answer, s, t)
    | .inr y, subject, start, stop, (s, t) =>
      let (answer, t) := b.onMatch y subject start stop t
      (answer, s, t)
  onCommit
    | .inl x, subject, start, stop, (s, t) => (a.onCommit x subject start stop s, t)
    | .inr y, subject, start, stop, (s, t) => (s, b.onCommit y subject start stop t)

end Actions
end PegMachine
