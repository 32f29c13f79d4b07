import PegMachine.Expr.Binding
import PegMachine.Expr.Queries

/-!
# Putting something in the place of open calls

Renumbering open calls and binding them to rules are both the same thing: every open call is
replaced by another call, and the rest of the expression stays as it is.  `substCalls` does that for
any replacement, so that what it leaves alone has to be shown only once.

* `shift_eq_substCalls` — renumbering as a replacement.
* `bindCalls_eq` — binding either replaces all open calls, each by a call of the rule of its name,
  or reports the first name from the left that is no rule.
* `eq_of_bindCalls_nil` — without rules around, binding succeeds only where there is nothing to
  bind.
* `substCalls_congr`, `substCalls_substCalls` — a replacement matters at the open calls only, and
  one after the other is a replacement again.
-/

set_option autoImplicit false

namespace PegMachine.Expr

variable {α : Type}

/-! ## Open calls and what can stand for them -/

/-- The open calls of an expression, from left to right.  Those in a grammar would not be its own,
and there are none. -/
def openCalls : Expr α → List Nat
  | seq first second => openCalls first ++ openCalls second
  | choice first second => openCalls first ++ openCalls second
  | star body => openCalls body
  | not body => openCalls body
  | and body => openCalls body
  | behind _ body => openCalls body
  | action _ body => openCalls body
  | openCall i => [i]
  | ruleCall _ => []
  | grammar _ => []
  | char _ => []
  | set _ => []
  | any => []
  | empty => []
  | fail => []

/-- Puts an expression in the place of each open call. -/
def substCalls (f : Nat → Expr α) : Expr α → Expr α
  | seq first second => seq (substCalls f first) (substCalls f second)
  | choice first second => choice (substCalls f first) (substCalls f second)
  | star body => star (substCalls f body)
  | not body => not (substCalls f body)
  | and body => and (substCalls f body)
  | behind width body => behind width (substCalls f body)
  | action a body => action a (substCalls f body)
  | openCall i => f i
  | ruleCall i => ruleCall i
  | grammar rules => grammar rules
  | char c => char c
  | set s => set s
  | any => any
  | empty => empty
  | fail => fail

-- the equations are made here once, and not anew in every proof that unfolds by them
attribute [grind =] openCalls substCalls

theorem substCalls_congr {f g : Nat → Expr α} {e : Expr α} (h : ∀ i ∈ e.openCalls, f i = g i) :
    e.substCalls f = e.substCalls g := by
  induction e with
  | seq first second ih₁ ih₂ | choice first second ih₁ ih₂ =>
    rw [openCalls, List.forall_mem_append] at h
    simp only [substCalls, ih₁ h.1, ih₂ h.2]
  | star body ih | not body ih | and body ih | behind width body ih | action a body ih =>
    simp only [substCalls, ih h]
  | openCall i => exact h i (List.mem_singleton.2 rfl)
  | _ => rfl

theorem substCalls_openCall (e : Expr α) : e.substCalls openCall = e := by
  induction e with
  | seq first second ih₁ ih₂ | choice first second ih₁ ih₂ => rw [substCalls, ih₁, ih₂]
  | star body ih | not body ih | and body ih | behind width body ih | action a body ih =>
    rw [substCalls, ih]
  | _ => rfl

theorem substCalls_substCalls (f g : Nat → Expr α) (e : Expr α) :
    (e.substCalls f).substCalls g = e.substCalls fun i => (f i).substCalls g := by
  induction e with
  | seq first second ih₁ ih₂ | choice first second ih₁ ih₂ => simp only [substCalls, ih₁, ih₂]
  | star body ih | not body ih | and body ih | behind width body ih | action a body ih =>
    simp only [substCalls, ih]
  | _ => rfl

/-- Where there are no open calls, nothing is replaced. -/
theorem substCalls_eq_self {e : Expr α} (h : e.openCalls = []) (f : Nat → Expr α) :
    e.substCalls f = e := by
  refine (substCalls_congr fun i hi => ?_).trans (substCalls_openCall e)
  rw [h] at hi
  cases hi

/-- Renumbering puts open calls in the place of open calls. -/
theorem shift_eq_substCalls (n : Nat) (e : Expr α) :
    shift n e = e.substCalls fun i => openCall (i + n) := by
  induction e with
  | seq first second ih₁ ih₂ | choice first second ih₁ ih₂ => rw [shift, ih₁, ih₂, substCalls]
  | star body ih | not body ih | and body ih | behind width body ih | action a body ih =>
    rw [shift, ih, substCalls]
  | _ => rfl

@[simp] theorem openCalls_shift (n : Nat) (e : Expr α) :
    (shift n e).openCalls = e.openCalls.map (· + n) := by
  induction e with
  | seq first second ih₁ ih₂ | choice first second ih₁ ih₂ =>
    simp only [shift, openCalls, ih₁, ih₂, List.map_append]
  | star body ih | not body ih | and body ih | behind width body ih | action a body ih =>
    simp only [shift, openCalls, ih]
  | _ => rfl

/-! ## What is not changed

Open calls are no classes, are not said to be empty, not to fail never, nor to have a length, and
write no action.  Whatever has none of this either can stand for them unnoticed. -/

variable {f : Nat → Expr α}

theorem substCalls_eq_fail_iff (hf : ∀ i, f i ≠ fail) {e : Expr α} :
    e.substCalls f = fail ↔ e = fail := by
  cases e with
  | openCall i => simpa [substCalls] using hf i
  | _ => simp [substCalls]

theorem substCalls_eq_empty_iff (hf : ∀ i, f i ≠ empty) {e : Expr α} :
    e.substCalls f = empty ↔ e = empty := by
  cases e with
  | openCall i => simpa [substCalls] using hf i
  | _ => simp [substCalls]

theorem class?_substCalls (hf : ∀ i, (f i).class? = none) (e : Expr α) :
    (e.substCalls f).class? = e.class? := by
  cases e with
  | openCall i => exact hf i
  | _ => rfl

theorem nullable_substCalls {call : Nat → Bool} (hf : ∀ i, (f i).nullable call = false)
    (e : Expr α) : (e.substCalls f).nullable call = e.nullable call := by
  induction e with
  | seq first second ih₁ ih₂ | choice first second ih₁ ih₂ =>
    simp only [substCalls, nullable, ih₁, ih₂]
  | action a body ih => exact ih
  | openCall i => exact hf i
  | _ => rfl

theorem noFail_substCalls {call : Nat → Bool} (hf : ∀ i, (f i).noFail call = false) (e : Expr α) :
    (e.substCalls f).noFail call = e.noFail call := by
  induction e with
  | seq first second ih₁ ih₂ | choice first second ih₁ ih₂ =>
    simp only [substCalls, noFail, ih₁, ih₂]
  | and body ih => exact ih
  | openCall i => exact hf i
  | _ => rfl

theorem fixedLength_substCalls {budget : Nat} {call : Nat → Option Nat}
    (hf : ∀ i, (f i).fixedLength budget call = none) (e : Expr α) :
    (e.substCalls f).fixedLength budget call = e.fixedLength budget call := by
  induction e with
  | seq first second ih₁ ih₂ | choice first second ih₁ ih₂ =>
    simp only [substCalls, fixedLength, ih₁, ih₂]
  | openCall i => exact hf i
  | _ => rfl

theorem writesAction_substCalls (hf : ∀ i, (f i).writesAction = false) (e : Expr α) :
    (e.substCalls f).writesAction = e.writesAction := by
  induction e with
  | seq first second ih₁ ih₂ | choice first second ih₁ ih₂ =>
    simp only [substCalls, writesAction, ih₁, ih₂]
  | star body ih | not body ih | and body ih | behind width body ih => exact ih
  | openCall i => exact hf i
  | _ => rfl

theorem calls_substCalls (hf : ∀ i, (f i).calls = []) (e : Expr α) :
    (e.substCalls f).calls = e.calls := by
  induction e with
  | seq first second ih₁ ih₂ | choice first second ih₁ ih₂ =>
    simp only [substCalls, calls, ih₁, ih₂]
  | star body ih | not body ih | and body ih | behind width body ih | action a body ih => exact ih
  | openCall i => exact hf i
  | _ => rfl

/-! ## Binding -/

/-- The name that an open call stands for, when `refs` are the names that the pattern refers to. -/
def nameOf (refs : List String) (i : Nat) : String := (refs[i]?).getD ""

theorem ruleOf_eq (refs names : List String) (i : Nat) :
    ruleOf refs names i = if nameOf refs i ∈ names then .ok (names.idxOf (nameOf refs i))
      else .error (.undefinedRule (nameOf refs i)) := by
  rw [ruleOf]
  rw [← nameOf]
  split
  · next rule hrule =>
    obtain ⟨hlt, hname, -⟩ := List.idxOf?_eq_some_iff.1 hrule
    have hidx : names.idxOf (nameOf refs i) = rule :=
      (List.findIdx?_eq_some_iff_findIdx_eq.1 hrule).2
    rw [if_pos (hname ▸ List.getElem_mem hlt), hidx]
  · next hnone => rw [if_neg (List.idxOf?_eq_none_iff.1 hnone)]

/-- Binding replaces each open call by a call of the rule with its name, unless there is a name that
is no rule: then it reports the first of these. -/
theorem bindCalls_eq (refs names : List String) (e : Expr α) :
    bindCalls refs names e =
      match (e.openCalls.map (nameOf refs)).find? (· ∉ names) with
      | some name => .error (.undefinedRule name)
      | none => .ok (e.substCalls fun i => ruleCall (names.idxOf (nameOf refs i))) := by
  induction e with
  | seq first second ih₁ ih₂ | choice first second ih₁ ih₂ =>
    rw [bindCalls, ih₁, ih₂, openCalls, List.map_append, List.find?_append]
    cases (first.openCalls.map (nameOf refs)).find? (· ∉ names) with
    | some name => rfl
    | none => cases (second.openCalls.map (nameOf refs)).find? (· ∉ names) <;> rfl
  | star body ih | not body ih | and body ih | behind width body ih | action a body ih =>
    rw [bindCalls, ih, openCalls]
    cases (body.openCalls.map (nameOf refs)).find? (· ∉ names) <;> rfl
  | openCall i =>
    rw [bindCalls, ruleOf_eq, openCalls, List.map_singleton, List.find?_singleton]
    by_cases h : nameOf refs i ∈ names
    · rw [if_pos h, if_neg (by simpa using h)]
      rfl
    · rw [if_neg h, if_pos (by simpa using h)]
      rfl
  | _ => rfl

/-- What binding succeeds with. -/
theorem of_bindCalls {refs names : List String} {e e' : Expr α}
    (h : bindCalls refs names e = .ok e') :
    (∀ i ∈ e.openCalls, nameOf refs i ∈ names) ∧
      e' = e.substCalls fun i => ruleCall (names.idxOf (nameOf refs i)) := by
  rw [bindCalls_eq] at h
  split at h
  · cases h
  · next hnone =>
    cases h
    exact ⟨by simpa using hnone, rfl⟩

/-- Without rules around, there is nothing to bind calls to. -/
theorem eq_of_bindCalls_nil {refs : List String} {e e' : Expr α}
    (h : bindCalls refs [] e = .ok e') : e' = e := by
  obtain ⟨hnames, rfl⟩ := of_bindCalls h
  refine substCalls_eq_self (List.eq_nil_iff_forall_not_mem.2 fun i hi => ?_) _
  cases hnames i hi

end PegMachine.Expr
