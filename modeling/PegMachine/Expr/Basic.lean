import PegMachine.CharSet.Basic

/-!
# Parsing expressions

The trees that patterns are made of, over a type `α` of actions.  A tree says what is matched and
nothing about how: matching, analysis and compilation are functions on it.

A rule can be called in two ways.  An *open call* is an index into the list of names of the pattern
that holds the tree, and stands for whatever rule will get that name.  A *rule call* is an index
into the rules of the nearest enclosing grammar.  The rules of a grammar therefore mean the same
wherever the grammar is put, and neither renumbering nor binding of open calls goes into them.
-/

set_option autoImplicit false

namespace PegMachine

mutual

/-- A parsing expression with actions from `α`. -/
inductive Expr (α : Type) where
  /-- One given character. -/
  | char (c : Char)
  /-- Any character of a set. -/
  | set (s : CharSet)
  /-- Any character. -/
  | any
  /-- The empty string, which always matches. -/
  | empty
  /-- No string at all. -/
  | fail
  /-- One expression, then another. -/
  | seq (first second : Expr α)
  /-- The first expression, or the second where the first fails. -/
  | choice (first second : Expr α)
  /-- As many repetitions as match one after the other. -/
  | star (body : Expr α)
  /-- Matches where `body` fails, and consumes nothing. -/
  | not (body : Expr α)
  /-- Matches where `body` does, and consumes nothing. -/
  | and (body : Expr α)
  /-- Matches `body` against the `width` characters before the current position. -/
  | behind (width : Nat) (body : Expr α)
  /-- Invokes an action when `body` matches. -/
  | action (a : α) (body : Expr α)
  /-- Calls a rule that is known by its place in the list of names of the pattern. -/
  | openCall (index : Nat)
  /-- Calls a rule of the enclosing grammar. -/
  | ruleCall (index : Nat)
  /-- Matches the first of the rules. -/
  | grammar (rules : List (Rule α))

/-- A rule of a grammar.  Calls know it by its place among the rules. -/
structure Rule (α : Type) where
  /-- The name by which references found the rule. -/
  name : String
  /-- What the rule matches. -/
  body : Expr α

end

namespace Expr

variable {α : Type}

instance : Inhabited (Expr α) := ⟨empty⟩

/-- Induction on an expression, which goes into the rules of a grammar. -/
@[induction_eliminator]
theorem induct {motive : Expr α → Prop} (char : ∀ c, motive (char c))
    (set : ∀ s, motive (set s)) (any : motive any) (empty : motive empty) (fail : motive fail)
    (seq : ∀ first second, motive first → motive second → motive (seq first second))
    (choice : ∀ first second, motive first → motive second → motive (choice first second))
    (star : ∀ body, motive body → motive (star body))
    (not : ∀ body, motive body → motive (not body))
    (and : ∀ body, motive body → motive (and body))
    (behind : ∀ width body, motive body → motive (behind width body))
    (action : ∀ a body, motive body → motive (action a body))
    (openCall : ∀ i, motive (openCall i)) (ruleCall : ∀ i, motive (ruleCall i))
    (grammar : ∀ rules, (∀ r ∈ rules, motive r.body) → motive (grammar rules)) (e : Expr α) :
    motive e := by
  refine @Expr.rec α motive (fun r => motive r.body) (fun rules => ∀ r ∈ rules, motive r.body)
    char set any empty fail seq choice star not and behind action openCall ruleCall grammar
    (fun _ _ h => h) (by simp) ?_ e
  intro r rest hr hrest
  simpa using ⟨hr, hrest⟩

/-- The set of characters that an expression stands for, if it is a plain class. -/
def class? : Expr α → Option CharSet
  | char c => some (.ofChar c)
  | set s => some s
  | any => some .full
  | _ => none

/-- The simplest expression for the characters of a set. -/
def ofSet (s : CharSet) : Expr α :=
  match s.extent with
  | .one c => char c
  | .all => any
  | .none | .several => set s

/-- `body` repeated `n` times in front of `rest`. -/
def seqTimes (body : Expr α) : Nat → Expr α → Expr α
  | 0, rest => rest
  | n + 1, rest => seq body (seqTimes body n rest)

end Expr
end PegMachine
