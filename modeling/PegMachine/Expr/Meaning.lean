import PegMachine.Expr.Basic

/-!
# What expressions mean

This file says what it is for an expression to match, without any machine: `Eval` relates an
expression and a position to the result of matching there.  It is the rule that compiled programs
are measured against, and it is not meant to be run.

A match depends on the subject, on the position where the whole match started (a lookbehind sees
nothing before it), and on what actions answer.  An action is asked about every match of its
expression, whether or not the match is given up later; `Eval` keeps the list of what was asked, and
a successful result keeps the list of the actions that are part of it.

* `Eval` — the relation, for the rules of an enclosing grammar.
* `Eval.unique` — an expression has at most one result at a position, and asks one list of things.

An expression that goes round in circles without consuming anything has no result, nor has one whose
action answers with a position that it must not go to.
-/

set_option autoImplicit false

namespace PegMachine

/-- An action with the part of the subject that it is about. -/
structure Firing (α : Type) where
  /-- The action. -/
  action : α
  /-- Where the part starts. -/
  start : Nat
  /-- Where it ends. -/
  stop : Nat
deriving DecidableEq

/-- How a match of an expression at a position comes out. -/
inductive Result (α : Type) where
  /-- It fails. -/
  | failed
  /-- It ends at the given position, with the given actions in it, in the order in which they
  started; each with the position where matching went on after it. -/
  | matched (stop : Nat) (fired : List (Firing α))
deriving DecidableEq

/-- What a match depends on, beside the expression. -/
structure Setting (α : Type) where
  /-- The subject. -/
  subject : Array Char
  /-- Where the whole match started. -/
  start : Nat
  /-- What an action answers when asked about a match between two positions. -/
  answer : α → Nat → Nat → Option Nat
  /-- What open calls mean: how call `i` comes out at a position, and what is asked on the way. -/
  opened : Nat → Nat → List (Firing α) → Result α → Prop := fun _ _ _ _ => False

/-- `Eval S rules e pos asked result`: matching `e` at `pos`, where the rules of the enclosing
grammar are `rules`, comes out as `result`, and the actions asked on the way are `asked`. -/
inductive Eval {α : Type} (S : Setting α) :
    List (Rule α) → Expr α → Nat → List (Firing α) → Result α → Prop
  | class_ok {rules e pos s c} : e.class? = some s → S.subject[pos]? = some c →
      s.contains c.toNat = true → Eval S rules e pos [] (.matched (pos + 1) [])
  | class_fail {rules e pos s} : e.class? = some s →
      (∀ c, S.subject[pos]? = some c → s.contains c.toNat = false) → Eval S rules e pos [] .failed
  | empty {rules pos} : Eval S rules .empty pos [] (.matched pos [])
  | fail {rules pos} : Eval S rules .fail pos [] .failed
  | seq_ok {rules e₁ e₂ pos mid stop t₁ t₂ fs₁ fs₂} :
      Eval S rules e₁ pos t₁ (.matched mid fs₁) → Eval S rules e₂ mid t₂ (.matched stop fs₂) →
      Eval S rules (.seq e₁ e₂) pos (t₁ ++ t₂) (.matched stop (fs₁ ++ fs₂))
  | seq_fail_first {rules e₁ e₂ pos t₁} : Eval S rules e₁ pos t₁ .failed →
      Eval S rules (.seq e₁ e₂) pos t₁ .failed
  | seq_fail_second {rules e₁ e₂ pos mid t₁ t₂ fs₁} :
      Eval S rules e₁ pos t₁ (.matched mid fs₁) → Eval S rules e₂ mid t₂ .failed →
      Eval S rules (.seq e₁ e₂) pos (t₁ ++ t₂) .failed
  | choice_first {rules e₁ e₂ pos stop t₁ fs₁} : Eval S rules e₁ pos t₁ (.matched stop fs₁) →
      Eval S rules (.choice e₁ e₂) pos t₁ (.matched stop fs₁)
  | choice_second {rules e₁ e₂ pos t₁ t₂ r} : Eval S rules e₁ pos t₁ .failed →
      Eval S rules e₂ pos t₂ r → Eval S rules (.choice e₁ e₂) pos (t₁ ++ t₂) r
  | star_done {rules e pos t} : Eval S rules e pos t .failed →
      Eval S rules (.star e) pos t (.matched pos [])
  | star_more {rules e pos mid stop t₁ t₂ fs₁ fs₂} : Eval S rules e pos t₁ (.matched mid fs₁) →
      Eval S rules (.star e) mid t₂ (.matched stop fs₂) →
      Eval S rules (.star e) pos (t₁ ++ t₂) (.matched stop (fs₁ ++ fs₂))
  | not_ok {rules e pos t} : Eval S rules e pos t .failed →
      Eval S rules (.not e) pos t (.matched pos [])
  | not_fail {rules e pos stop t fs} : Eval S rules e pos t (.matched stop fs) →
      Eval S rules (.not e) pos t .failed
  | and_ok {rules e pos stop t fs} : Eval S rules e pos t (.matched stop fs) →
      Eval S rules (.and e) pos t (.matched pos [])
  | and_fail {rules e pos t} : Eval S rules e pos t .failed → Eval S rules (.and e) pos t .failed
  | behind {rules width e pos t r} : width ≤ pos - S.start → Eval S rules e (pos - width) t r →
      Eval S rules (.behind width e) pos t r
  | behind_short {rules width e pos} : pos - S.start < width →
      Eval S rules (.behind width e) pos [] .failed
  | action_ok {rules a e pos mid stop t fs} : Eval S rules e pos t (.matched mid fs) →
      S.answer a pos mid = some stop → mid ≤ stop → stop ≤ S.subject.size →
      Eval S rules (.action a e) pos (t ++ [⟨a, pos, mid⟩]) (.matched stop (⟨a, pos, stop⟩ :: fs))
  | action_refused {rules a e pos mid t fs} : Eval S rules e pos t (.matched mid fs) →
      S.answer a pos mid = none → Eval S rules (.action a e) pos (t ++ [⟨a, pos, mid⟩]) .failed
  | action_fail {rules a e pos t} : Eval S rules e pos t .failed →
      Eval S rules (.action a e) pos t .failed
  | openCall {rules i pos t r} : S.opened i pos t r → Eval S rules (.openCall i) pos t r
  | ruleCall {rules i rule pos t r} : rules[i]? = some rule → Eval S rules rule.body pos t r →
      Eval S rules (.ruleCall i) pos t r
  | grammar {rules inner entry pos t r} : inner[0]? = some entry →
      Eval S inner entry.body pos t r → Eval S rules (.grammar inner) pos t r

namespace Eval

variable {α : Type} {S : Setting α}

/-- An expression comes out in one way only, if that holds of the open calls. -/
theorem unique (hS : ∀ i pos t t' r r', S.opened i pos t r → S.opened i pos t' r' →
      t = t' ∧ r = r')
    {rules : List (Rule α)} {e : Expr α} {pos : Nat} {t t' : List (Firing α)} {r r' : Result α}
    (h : Eval S rules e pos t r) (h' : Eval S rules e pos t' r') : t = t' ∧ r = r' := by
  induction h generalizing t' r' with
  | class_ok he hc hs =>
    cases h' with
    | class_ok => exact ⟨rfl, rfl⟩
    | class_fail he' hnot =>
      rw [he] at he'
      cases he'
      rw [hnot _ hc] at hs
      cases hs
    | _ => cases he
  | class_fail he hnot =>
    cases h' with
    | class_ok he' hc hs =>
      rw [he] at he'
      cases he'
      rw [hnot _ hc] at hs
      cases hs
    | class_fail => exact ⟨rfl, rfl⟩
    | _ => cases he
  | empty | fail =>
    cases h' with
    | class_ok he | class_fail he => cases he
    | _ => exact ⟨rfl, rfl⟩
  | seq_ok _ _ ih₁ ih₂ =>
    cases h' with
    | class_ok he | class_fail he => cases he
    | seq_ok h₁ h₂ =>
      obtain ⟨rfl, hr⟩ := ih₁ h₁
      cases hr
      obtain ⟨rfl, hr⟩ := ih₂ h₂
      cases hr
      exact ⟨rfl, rfl⟩
    | seq_fail_first h₁ => cases (ih₁ h₁).2
    | seq_fail_second h₁ h₂ =>
      obtain ⟨rfl, hr⟩ := ih₁ h₁
      cases hr
      cases (ih₂ h₂).2
  | seq_fail_first _ ih =>
    cases h' with
    | class_ok he | class_fail he => cases he
    | seq_ok h₁ _ => cases (ih h₁).2
    | seq_fail_first h₁ => exact ⟨(ih h₁).1, rfl⟩
    | seq_fail_second h₁ _ => cases (ih h₁).2
  | seq_fail_second _ _ ih₁ ih₂ =>
    cases h' with
    | class_ok he | class_fail he => cases he
    | seq_ok h₁ h₂ =>
      obtain ⟨rfl, hr⟩ := ih₁ h₁
      cases hr
      cases (ih₂ h₂).2
    | seq_fail_first h₁ => cases (ih₁ h₁).2
    | seq_fail_second h₁ h₂ =>
      obtain ⟨rfl, hr⟩ := ih₁ h₁
      cases hr
      obtain ⟨rfl, -⟩ := ih₂ h₂
      exact ⟨rfl, rfl⟩
  | choice_first _ ih =>
    cases h' with
    | class_ok he | class_fail he => cases he
    | choice_first h₁ => exact ih h₁
    | choice_second h₁ _ => cases (ih h₁).2
  | choice_second _ _ ih₁ ih₂ =>
    cases h' with
    | class_ok he | class_fail he => cases he
    | choice_first h₁ => cases (ih₁ h₁).2
    | choice_second h₁ h₂ =>
      obtain ⟨rfl, -⟩ := ih₁ h₁
      obtain ⟨rfl, rfl⟩ := ih₂ h₂
      exact ⟨rfl, rfl⟩
  | star_done _ ih =>
    cases h' with
    | class_ok he | class_fail he => cases he
    | star_done h => exact ⟨(ih h).1, rfl⟩
    | star_more h _ => cases (ih h).2
  | star_more _ _ ih₁ ih₂ =>
    cases h' with
    | class_ok he | class_fail he => cases he
    | star_done h => cases (ih₁ h).2
    | star_more h₁ h₂ =>
      obtain ⟨rfl, hr⟩ := ih₁ h₁
      cases hr
      obtain ⟨rfl, hr⟩ := ih₂ h₂
      cases hr
      exact ⟨rfl, rfl⟩
  | not_ok _ ih =>
    cases h' with
    | class_ok he | class_fail he => cases he
    | not_ok h => exact ⟨(ih h).1, rfl⟩
    | not_fail h => cases (ih h).2
  | not_fail _ ih =>
    cases h' with
    | class_ok he | class_fail he => cases he
    | not_ok h => cases (ih h).2
    | not_fail h => exact ⟨(ih h).1, rfl⟩
  | and_ok _ ih =>
    cases h' with
    | class_ok he | class_fail he => cases he
    | and_ok h => exact ⟨(ih h).1, rfl⟩
    | and_fail h => cases (ih h).2
  | and_fail _ ih =>
    cases h' with
    | class_ok he | class_fail he => cases he
    | and_ok h => cases (ih h).2
    | and_fail h => exact ih h
  | behind hwidth _ ih =>
    cases h' with
    | class_ok he | class_fail he => cases he
    | behind _ h => exact ih h
    | behind_short hshort => exact absurd hwidth (Nat.not_le.2 hshort)
  | behind_short hshort =>
    cases h' with
    | class_ok he | class_fail he => cases he
    | behind hwidth _ => exact absurd hwidth (Nat.not_le.2 hshort)
    | behind_short => exact ⟨rfl, rfl⟩
  | action_ok _ hanswer _ _ ih =>
    cases h' with
    | class_ok he | class_fail he => cases he
    | action_ok h hanswer' _ _ =>
      obtain ⟨rfl, hr⟩ := ih h
      cases hr
      rw [hanswer] at hanswer'
      cases hanswer'
      exact ⟨rfl, rfl⟩
    | action_refused h hanswer' =>
      obtain ⟨rfl, hr⟩ := ih h
      cases hr
      rw [hanswer] at hanswer'
      cases hanswer'
    | action_fail h => cases (ih h).2
  | action_refused _ hanswer ih =>
    cases h' with
    | class_ok he | class_fail he => cases he
    | action_ok h hanswer' _ _ =>
      obtain ⟨rfl, hr⟩ := ih h
      cases hr
      rw [hanswer] at hanswer'
      cases hanswer'
    | action_refused h hanswer' =>
      obtain ⟨rfl, hr⟩ := ih h
      cases hr
      exact ⟨rfl, rfl⟩
    | action_fail h => cases (ih h).2
  | action_fail _ ih =>
    cases h' with
    | class_ok he | class_fail he => cases he
    | action_ok h _ _ _ => cases (ih h).2
    | action_refused h _ => cases (ih h).2
    | action_fail h => exact ih h
  | openCall h =>
    cases h' with
    | class_ok he | class_fail he => cases he
    | openCall h' => exact hS _ _ _ _ _ _ h h'
  | ruleCall hrule _ ih =>
    cases h' with
    | class_ok he | class_fail he => cases he
    | ruleCall hrule' h =>
      rw [hrule] at hrule'
      cases hrule'
      exact ih h
  | grammar hentry _ ih =>
    cases h' with
    | class_ok he | class_fail he => cases he
    | grammar hentry' h =>
      rw [hentry] at hentry'
      cases hentry'
      exact ih h

end Eval
end PegMachine
