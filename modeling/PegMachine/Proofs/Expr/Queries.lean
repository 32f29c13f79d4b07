import PegMachine.Expr.Meaning
import PegMachine.Proofs.Expr.Lookbehind

/-!
# Unfolding the answers about an expression

`PegMachine.Expr.Queries` answers questions about an expression without matching it, and for that
unfolds the answers for the rules that it calls.  Here are the lemmas that unfold an answer once,
and what follows for the first of the questions: `Eval.not_failed_of_noFail` says that what is said
not to fail does not.  A definite answer is right for any rules, left recursive ones included.  What
is claimed holds of every depth, so the induction is on the evaluation alone, and a call just uses
the depth below.
-/

set_option autoImplicit false

namespace PegMachine

variable {α : Type}

/-! ## Unfolding answers -/

theorem unfold_succ {β : Type} {careful missing : β} {bodies : List ((Nat → β) → β)} {i : Nat}
    {body : (Nat → β) → β} (h : bodies[i]? = some body) (d : Nat) :
    unfold careful missing bodies (d + 1) i = body (unfold careful missing bodies d) := by
  rw [unfold, h]

theorem unfoldLength_succ {bodies : List (Nat → (Nat → Option Nat) → Option Nat)} {i : Nat}
    {body : Nat → (Nat → Option Nat) → Option Nat} (h : bodies[i]? = some body) (d : Nat) :
    unfoldLength bodies (d + 1) i = body d (unfoldLength bodies d) := by
  rw [unfoldLength, h]

namespace Expr

theorem nullableRules_eq_map (rules : List (Rule α)) :
    nullableRules rules = rules.map fun r => nullable r.body := by
  induction rules with
  | nil => rfl
  | cons r rest ih =>
    obtain ⟨name, body⟩ := r
    rw [nullableRules, ih]
    rfl

theorem noFailRules_eq_map (rules : List (Rule α)) :
    noFailRules rules = rules.map fun r => noFail r.body := by
  induction rules with
  | nil => rfl
  | cons r rest ih =>
    obtain ⟨name, body⟩ := r
    rw [noFailRules, ih]
    rfl

theorem fixedLengthRules_eq_map (rules : List (Rule α)) :
    fixedLengthRules rules = rules.map fun r => fixedLength r.body := by
  induction rules with
  | nil => rfl
  | cons r rest ih =>
    obtain ⟨name, body⟩ := r
    rw [fixedLengthRules, ih]
    rfl

theorem nullableRules_get {rules : List (Rule α)} {i : Nat} {r : Rule α} (h : rules[i]? = some r) :
    (nullableRules rules)[i]? = some (nullable r.body) := by
  rw [nullableRules_eq_map, List.getElem?_map, h]
  rfl

theorem noFailRules_get {rules : List (Rule α)} {i : Nat} {r : Rule α} (h : rules[i]? = some r) :
    (noFailRules rules)[i]? = some (noFail r.body) := by
  rw [noFailRules_eq_map, List.getElem?_map, h]
  rfl

theorem fixedLengthRules_get {rules : List (Rule α)} {i : Nat} {r : Rule α}
    (h : rules[i]? = some r) : (fixedLengthRules rules)[i]? = some (fixedLength r.body) := by
  rw [fixedLengthRules_eq_map, List.getElem?_map, h]
  rfl

/-- The fixed length of a grammar is that of its first rule. -/
theorem fixedLength_grammar {rules : List (Rule α)} {entry : Rule α} (h : rules[0]? = some entry)
    (b : Nat) (call : Nat → Option Nat) :
    (grammar rules).fixedLength b call
      = entry.body.fixedLength b (unfoldLength (fixedLengthRules rules) b) := by
  cases rules with
  | nil => cases h
  | cons r rest =>
    obtain ⟨name, body⟩ := r
    cases h
    simp only [fixedLength, fixedLengthRules]

/-! ## Classes -/

theorem class?_eq_some {e : Expr α} {s : CharSet} (h : e.class? = some s) :
    (∃ c, e = char c ∧ s = .ofChar c) ∨ e = set s ∨ (e = any ∧ s = .full) := by
  cases e with
  | char c => cases h; exact .inl ⟨c, rfl, rfl⟩
  | set s => cases h; exact .inr (.inl rfl)
  | any => cases h; exact .inr (.inr ⟨rfl, rfl⟩)
  | _ => cases h

theorem fixedLength_of_class? {e : Expr α} {s : CharSet} (h : e.class? = some s) (b : Nat)
    (call : Nat → Option Nat) : e.fixedLength b call = some 1 := by
  rcases class?_eq_some h with ⟨c, rfl, -⟩ | rfl | ⟨rfl, -⟩ <;> rfl

theorem noFail_of_class? {e : Expr α} {s : CharSet} (h : e.class? = some s) (call : Nat → Bool) :
    e.noFail call = false := by
  rcases class?_eq_some h with ⟨c, rfl, -⟩ | rfl | ⟨rfl, -⟩ <;> rfl

end Expr

open PegMachine.Expr

variable {S : Setting α} {rules : List (Rule α)} {e : Expr α} {pos : Nat} {t : List (Firing α)}
  {r : Result α}

/-! ## Never failing -/

theorem Eval.noFail_aux (h : Eval S rules e pos t r) :
    r = .failed → ∀ d, e.noFail (unfold false false (noFailRules rules) d) = false := by
  induction h with
  | class_fail he =>
    intro _ d
    exact noFail_of_class? he _
  | seq_fail_first _ ih =>
    intro _ d
    rw [noFail, ih rfl d, Bool.false_and]
  | seq_fail_second _ _ _ ih =>
    intro _ d
    rw [noFail, ih rfl d, Bool.and_false]
  | choice_second _ _ ih₁ ih₂ =>
    intro heq d
    rw [noFail, ih₁ rfl d, ih₂ heq d]
    rfl
  | and_fail _ ih =>
    intro _ d
    rw [noFail]
    exact ih rfl d
  | ruleCall hrule _ ih =>
    intro heq d
    cases d with
    | zero => rfl
    | succ d =>
      rw [noFail, unfold_succ (noFailRules_get hrule)]
      exact ih heq d
  | grammar hentry _ ih =>
    intro heq d
    rw [noFail, unfold_succ (noFailRules_get hentry)]
    exact ih heq _
  | fail | not_fail | behind | behind_short | action_refused | action_fail | openCall =>
    exact fun _ _ => rfl
  | _ => rintro ⟨⟩

/-- **What is said not to fail does not fail**, to whatever depth calls are unfolded. -/
theorem Eval.not_failed_of_noFail (h : Eval S rules e pos t .failed) (d : Nat) :
    e.noFail (unfold false false (noFailRules rules) d) = false :=
  h.noFail_aux rfl d

end PegMachine
