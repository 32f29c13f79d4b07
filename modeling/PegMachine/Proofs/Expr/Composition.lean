import PegMachine.Proofs.Expr.Queries

/-!
# What an expression means is made of what its parts mean

`Eval` says what the matches of an expression are by going through the expression.  Here it is taken
apart: the meaning of an expression is a relation between positions and results, and each kind of
expression combines those of its parts.  A sequence for instance only has to know what its operands
come out as, not what they look like.

* `Meaning` — what can be known of an expression without looking at it, and the ways to combine
  meanings.
* `eval_seq`, `eval_choice` and so on — what combines the meanings of the parts.
* `chains_eval` — nesting to the right keeps the meaning.
* `eval_closed` — it does not matter what open calls mean, where there are none.
* `eval_substCalls` — replacing open calls is the same as giving them a meaning.
-/

set_option autoImplicit false

namespace PegMachine

open PegMachine.Expr

variable {α : Type}

/-- What is known of an expression once it has been matched everywhere: how it comes out at each
position, and what is asked on the way. -/
abbrev Meaning (α : Type) : Type := Nat → List (Firing α) → Result α → Prop

namespace Meaning

/-- Matches everywhere, and consumes nothing. -/
inductive Empty : Meaning α
  | ok {pos} : Empty pos [] (.matched pos [])

/-- Matches nowhere. -/
inductive Fail : Meaning α
  | fail {pos} : Fail pos [] .failed

/-- Consumes a character of the set. -/
inductive OneOf (subject : Array Char) (s : CharSet) : Meaning α
  | ok {pos c} : subject[pos]? = some c → s.contains c.toNat = true →
      OneOf subject s pos [] (.matched (pos + 1) [])
  | fail {pos} : (∀ c, subject[pos]? = some c → s.contains c.toNat = false) →
      OneOf subject s pos [] .failed

/-- Matches the first and then the second. -/
inductive Seq (m₁ m₂ : Meaning α) : Meaning α
  | ok {pos mid stop t₁ t₂ fs₁ fs₂} : m₁ pos t₁ (.matched mid fs₁) →
      m₂ mid t₂ (.matched stop fs₂) → Seq m₁ m₂ pos (t₁ ++ t₂) (.matched stop (fs₁ ++ fs₂))
  | fail_first {pos t₁} : m₁ pos t₁ .failed → Seq m₁ m₂ pos t₁ .failed
  | fail_second {pos mid t₁ t₂ fs₁} : m₁ pos t₁ (.matched mid fs₁) → m₂ mid t₂ .failed →
      Seq m₁ m₂ pos (t₁ ++ t₂) .failed

/-- Matches the first, or the second where the first fails. -/
inductive Choice (m₁ m₂ : Meaning α) : Meaning α
  | first {pos stop t₁ fs₁} : m₁ pos t₁ (.matched stop fs₁) →
      Choice m₁ m₂ pos t₁ (.matched stop fs₁)
  | second {pos t₁ t₂ r} : m₁ pos t₁ .failed → m₂ pos t₂ r → Choice m₁ m₂ pos (t₁ ++ t₂) r

/-- Matches as often as it can. -/
inductive Star (m : Meaning α) : Meaning α
  | done {pos t} : m pos t .failed → Star m pos t (.matched pos [])
  | more {pos mid stop t₁ t₂ fs₁ fs₂} : m pos t₁ (.matched mid fs₁) →
      Star m mid t₂ (.matched stop fs₂) → Star m pos (t₁ ++ t₂) (.matched stop (fs₁ ++ fs₂))

/-- Succeeds where there is a match, and consumes nothing. -/
inductive Test (m : Meaning α) : Meaning α
  | ok {pos stop t fs} : m pos t (.matched stop fs) → Test m pos t (.matched pos [])
  | fail {pos t} : m pos t .failed → Test m pos t .failed

/-- Succeeds where there is no match, and consumes nothing. -/
inductive TestNot (m : Meaning α) : Meaning α
  | ok {pos t} : m pos t .failed → TestNot m pos t (.matched pos [])
  | fail {pos stop t fs} : m pos t (.matched stop fs) → TestNot m pos t .failed

/-- Matches from some characters before, if there are so many since the start. -/
inductive Behind (start width : Nat) (m : Meaning α) : Meaning α
  | back {pos t r} : width ≤ pos - start → m (pos - width) t r → Behind start width m pos t r
  | short {pos} : pos - start < width → Behind start width m pos [] .failed

/-- Asks the action about each match. -/
inductive Act (S : Setting α) (a : α) (m : Meaning α) : Meaning α
  | ok {pos mid stop t fs} : m pos t (.matched mid fs) → S.answer a pos mid = some stop →
      mid ≤ stop → stop ≤ S.subject.size →
      Act S a m pos (t ++ [⟨a, pos, mid⟩]) (.matched stop (⟨a, pos, stop⟩ :: fs))
  | refused {pos mid t fs} : m pos t (.matched mid fs) → S.answer a pos mid = none →
      Act S a m pos (t ++ [⟨a, pos, mid⟩]) .failed
  | fail {pos t} : m pos t .failed → Act S a m pos t .failed

theorem eq_of_iff {m m' : Meaning α} (h : ∀ pos t r, m pos t r ↔ m' pos t r) : m = m' :=
  funext fun pos => funext fun t => funext fun r => propext (h pos t r)

/-! ## Chains -/

variable {m m₁ m₂ m₃ : Meaning α}

theorem seq_assoc : Seq (Seq m₁ m₂) m₃ = Seq m₁ (Seq m₂ m₃) := by
  refine eq_of_iff fun pos t r => ⟨fun h => ?_, fun h => ?_⟩
  · cases h with
    | ok h₁₂ h₃ =>
      cases h₁₂ with
      | ok h₁ h₂ =>
        rw [List.append_assoc, List.append_assoc]
        exact .ok h₁ (.ok h₂ h₃)
    | fail_first h₁₂ =>
      cases h₁₂ with
      | fail_first h₁ => exact .fail_first h₁
      | fail_second h₁ h₂ => exact .fail_second h₁ (.fail_first h₂)
    | fail_second h₁₂ h₃ =>
      cases h₁₂ with
      | ok h₁ h₂ =>
        rw [List.append_assoc]
        exact .fail_second h₁ (.fail_second h₂ h₃)
  · cases h with
    | ok h₁ h₂₃ =>
      cases h₂₃ with
      | ok h₂ h₃ =>
        rw [← List.append_assoc, ← List.append_assoc]
        exact .ok (.ok h₁ h₂) h₃
    | fail_first h₁ => exact .fail_first (.fail_first h₁)
    | fail_second h₁ h₂₃ =>
      cases h₂₃ with
      | fail_first h₂ => exact .fail_first (.fail_second h₁ h₂)
      | fail_second h₂ h₃ =>
        rw [← List.append_assoc]
        exact .fail_second (.ok h₁ h₂) h₃

theorem choice_assoc : Choice (Choice m₁ m₂) m₃ = Choice m₁ (Choice m₂ m₃) := by
  refine eq_of_iff fun pos t r => ⟨fun h => ?_, fun h => ?_⟩
  · cases h with
    | first h₁₂ =>
      cases h₁₂ with
      | first h₁ => exact .first h₁
      | second h₁ h₂ => exact .second h₁ (.first h₂)
    | second h₁₂ h₃ =>
      cases h₁₂ with
      | second h₁ h₂ =>
        rw [List.append_assoc]
        exact .second h₁ (.second h₂ h₃)
  · cases h with
    | first h₁ => exact .first (.first h₁)
    | second h₁ h₂₃ =>
      cases h₂₃ with
      | first h₂ => exact .first (.second h₁ h₂)
      | second h₂ h₃ =>
        rw [← List.append_assoc]
        exact .second (.second h₁ h₂) h₃

theorem seq_empty : Seq m Empty = m := by
  refine eq_of_iff fun pos t r => ⟨fun h => ?_, fun h => ?_⟩
  · cases h with
    | ok h₁ h₂ =>
      cases h₂
      simpa using h₁
    | fail_first h₁ => exact h₁
    | fail_second _ h₂ => cases h₂
  · cases r with
    | failed => exact .fail_first h
    | matched stop fs => simpa using Seq.ok h (Empty.ok : Empty stop [] (.matched stop []))

theorem empty_seq : Seq Empty m = m := by
  refine eq_of_iff fun pos t r => ⟨fun h => ?_, fun h => ?_⟩
  · cases h with
    | ok h₁ h₂ =>
      cases h₁
      exact h₂
    | fail_first h₁ => cases h₁
    | fail_second h₁ h₂ =>
      cases h₁
      exact h₂
  · cases r with
    | failed => exact .fail_second Empty.ok h
    | matched stop fs => exact .ok Empty.ok h

theorem fail_seq : Seq Fail m = Fail := by
  refine eq_of_iff fun pos t r => ⟨fun h => ?_, fun h => ?_⟩
  · cases h with
    | ok h₁ => cases h₁
    | fail_first h₁ => exact h₁
    | fail_second h₁ => cases h₁
  · cases h
    exact .fail_first Fail.fail

theorem fail_choice : Choice Fail m = m := by
  refine eq_of_iff fun pos t r => ⟨fun h => ?_, fun h => .second Fail.fail h⟩
  cases h with
  | first h₁ => cases h₁
  | second h₁ h₂ =>
    cases h₁
    exact h₂

/-- A second alternative that never matches adds nothing, -/
theorem choice_fail : Choice m Fail = m := by
  refine eq_of_iff fun pos t r => ⟨fun h => ?_, fun h => ?_⟩
  · cases h with
    | first h₁ => exact h₁
    | second h₁ h₂ =>
      cases h₂
      simpa using h₁
  · cases r with
    | failed => simpa using Choice.second h (Fail.fail : Fail pos [] .failed)
    | matched stop fs => exact .first h

/-- and neither does one behind a first alternative that never fails. -/
theorem choice_eq_first (h : ∀ pos t, ¬ m₁ pos t .failed) : Choice m₁ m₂ = m₁ := by
  refine eq_of_iff fun pos t r => ⟨fun hr => ?_, fun hr => ?_⟩
  · cases hr with
    | first h₁ => exact h₁
    | second h₁ _ => exact absurd h₁ (h _ _)
  · cases r with
    | failed => exact absurd hr (h pos t)
    | matched stop fs => exact .first hr

end Meaning

/-! ## The kinds of expressions -/

section Parts

variable (S : Setting α) (rules : List (Rule α))

theorem eval_class {e : Expr α} {s : CharSet} (h : e.class? = some s) :
    Eval S rules e = Meaning.OneOf S.subject s := by
  refine Meaning.eq_of_iff fun pos t r => ⟨fun he => ?_, fun hr => ?_⟩
  · rcases class?_eq_some h with ⟨c, rfl, rfl⟩ | rfl | ⟨rfl, rfl⟩
    all_goals
      cases he with
      | class_ok hs hc hin =>
        cases hs
        exact .ok hc hin
      | class_fail hs hout =>
        cases hs
        exact .fail hout
  · cases hr with
    | ok hc hin => exact .class_ok h hc hin
    | fail hout => exact .class_fail h hout

theorem eval_empty : Eval S rules .empty = Meaning.Empty := by
  refine Meaning.eq_of_iff fun pos t r => ⟨fun h => ?_, fun h => ?_⟩
  · cases h with
    | class_ok he | class_fail he => cases he
    | empty => exact .ok
  · cases h
    exact .empty

theorem eval_fail : Eval S rules .fail = Meaning.Fail := by
  refine Meaning.eq_of_iff fun pos t r => ⟨fun h => ?_, fun h => ?_⟩
  · cases h with
    | class_ok he | class_fail he => cases he
    | fail => exact .fail
  · cases h
    exact .fail

theorem eval_seq (e₁ e₂ : Expr α) :
    Eval S rules (.seq e₁ e₂) = Meaning.Seq (Eval S rules e₁) (Eval S rules e₂) := by
  refine Meaning.eq_of_iff fun pos t r => ⟨fun h => ?_, fun h => ?_⟩
  · cases h with
    | class_ok he | class_fail he => cases he
    | seq_ok h₁ h₂ => exact .ok h₁ h₂
    | seq_fail_first h₁ => exact .fail_first h₁
    | seq_fail_second h₁ h₂ => exact .fail_second h₁ h₂
  · cases h with
    | ok h₁ h₂ => exact .seq_ok h₁ h₂
    | fail_first h₁ => exact .seq_fail_first h₁
    | fail_second h₁ h₂ => exact .seq_fail_second h₁ h₂

theorem eval_choice (e₁ e₂ : Expr α) :
    Eval S rules (.choice e₁ e₂) = Meaning.Choice (Eval S rules e₁) (Eval S rules e₂) := by
  refine Meaning.eq_of_iff fun pos t r => ⟨fun h => ?_, fun h => ?_⟩
  · cases h with
    | class_ok he | class_fail he => cases he
    | choice_first h₁ => exact .first h₁
    | choice_second h₁ h₂ => exact .second h₁ h₂
  · cases h with
    | first h₁ => exact .choice_first h₁
    | second h₁ h₂ => exact .choice_second h₁ h₂

theorem eval_star (e : Expr α) : Eval S rules (.star e) = Meaning.Star (Eval S rules e) := by
  refine Meaning.eq_of_iff fun pos t r => ⟨fun h => ?_, fun h => ?_⟩
  · generalize he : Expr.star e = e' at h
    induction h with
    | class_ok hs | class_fail hs =>
      subst he
      cases hs
    | star_done h =>
      cases he
      exact .done h
    | star_more h _ _ ih =>
      cases he
      exact .more h (ih rfl)
    | _ => cases he
  · induction h with
    | done h => exact .star_done h
    | more h _ ih => exact .star_more h ih

theorem eval_and (e : Expr α) : Eval S rules (.and e) = Meaning.Test (Eval S rules e) := by
  refine Meaning.eq_of_iff fun pos t r => ⟨fun h => ?_, fun h => ?_⟩
  · cases h with
    | class_ok he | class_fail he => cases he
    | and_ok h => exact .ok h
    | and_fail h => exact .fail h
  · cases h with
    | ok h => exact .and_ok h
    | fail h => exact .and_fail h

theorem eval_not (e : Expr α) : Eval S rules (.not e) = Meaning.TestNot (Eval S rules e) := by
  refine Meaning.eq_of_iff fun pos t r => ⟨fun h => ?_, fun h => ?_⟩
  · cases h with
    | class_ok he | class_fail he => cases he
    | not_ok h => exact .ok h
    | not_fail h => exact .fail h
  · cases h with
    | ok h => exact .not_ok h
    | fail h => exact .not_fail h

theorem eval_behind (width : Nat) (e : Expr α) :
    Eval S rules (.behind width e) = Meaning.Behind S.start width (Eval S rules e) := by
  refine Meaning.eq_of_iff fun pos t r => ⟨fun h => ?_, fun h => ?_⟩
  · cases h with
    | class_ok he | class_fail he => cases he
    | behind hwidth h => exact .back hwidth h
    | behind_short hshort => exact .short hshort
  · cases h with
    | back hwidth h => exact .behind hwidth h
    | short hshort => exact .behind_short hshort

theorem eval_action (a : α) (e : Expr α) :
    Eval S rules (.action a e) = Meaning.Act S a (Eval S rules e) := by
  refine Meaning.eq_of_iff fun pos t r => ⟨fun h => ?_, fun h => ?_⟩
  · cases h with
    | class_ok he | class_fail he => cases he
    | action_ok h hanswer hmid hstop => exact .ok h hanswer hmid hstop
    | action_refused h hanswer => exact .refused h hanswer
    | action_fail h => exact .fail h
  · cases h with
    | ok h hanswer hmid hstop => exact .action_ok h hanswer hmid hstop
    | refused h hanswer => exact .action_refused h hanswer
    | fail h => exact .action_fail h

theorem eval_openCall (i : Nat) : Eval S rules (.openCall i) = S.opened i := by
  refine Meaning.eq_of_iff fun pos t r => ⟨fun h => ?_, .openCall⟩
  cases h with
  | class_ok he | class_fail he => cases he
  | openCall h => exact h

/-- The meaning of a call is that of the rule. -/
theorem eval_ruleCall {i : Nat} {r : Rule α} (hr : rules[i]? = some r) :
    Eval S rules (.ruleCall i) = Eval S rules r.body := by
  refine Meaning.eq_of_iff fun pos t res => ⟨fun h => ?_, .ruleCall hr⟩
  cases h with
  | class_ok he | class_fail he => cases he
  | ruleCall hr' h =>
    rw [hr] at hr'
    cases hr'
    exact h

/-- The meaning of a grammar is that of its first rule. -/
theorem eval_grammar {inner : List (Rule α)} {entry : Rule α} (he : inner[0]? = some entry) :
    Eval S rules (.grammar inner) = Eval S inner entry.body := by
  refine Meaning.eq_of_iff fun pos t r => ⟨fun h => ?_, .grammar he⟩
  cases h with
  | class_ok he | class_fail he => cases he
  | grammar he' h =>
    rw [he] at he'
    cases he'
    exact h

/-- Nesting to the right does not change the meaning. -/
theorem chains_eval : Chains (fun e => Eval S rules e) Meaning.Seq Meaning.Choice where
  seq := eval_seq S rules
  choice := eval_choice S rules
  seq_assoc _ _ _ := Meaning.seq_assoc
  choice_assoc _ _ _ := Meaning.choice_assoc
  star e h := by
    have h : Eval S rules e.rightNest = Eval S rules e := h
    rw [eval_star, eval_star, h]
  not e h := by
    have h : Eval S rules e.rightNest = Eval S rules e := h
    rw [eval_not, eval_not, h]
  and e h := by
    have h : Eval S rules e.rightNest = Eval S rules e := h
    rw [eval_and, eval_and, h]
  behind width e h := by
    have h : Eval S rules e.rightNest = Eval S rules e := h
    rw [eval_behind, eval_behind, h]
  action a e h := by
    have h : Eval S rules e.rightNest = Eval S rules e := h
    rw [eval_action, eval_action, h]

end Parts

/-! ## Open calls -/

/-- The same setting, in which open calls mean something else. -/
def Setting.opening (S : Setting α) (opened : Nat → Meaning α) : Setting α :=
  { S with opened := opened }

@[simp] theorem Setting.opened_opening (S : Setting α) (opened : Nat → Meaning α) :
    (S.opening opened).opened = opened := rfl

theorem Meaning.act_opening (S : Setting α) (opened : Nat → Meaning α) (a : α) (m : Meaning α) :
    Meaning.Act (S.opening opened) a m = Meaning.Act S a m := by
  refine eq_of_iff fun pos t r => ⟨fun h => ?_, fun h => ?_⟩
  · cases h with
    | ok h hanswer hmid hstop => exact .ok h hanswer hmid hstop
    | refused h hanswer => exact .refused h hanswer
    | fail h => exact .fail h
  · cases h with
    | ok h hanswer hmid hstop => exact .ok h hanswer hmid hstop
    | refused h hanswer => exact .refused h hanswer
    | fail h => exact .fail h

variable {S : Setting α} {rules rules' : List (Rule α)} {e : Expr α}

/-- A match that finds no open calls does not depend on what they mean. -/
theorem Eval.of_closed {pos : Nat} {t : List (Firing α)} {r : Result α}
    (h : Eval S rules e pos t r) (he : e.inScope False rules.length)
    (hrules : inScopeRules rules.length rules) (opened : Nat → Meaning α) :
    Eval (S.opening opened) rules e pos t r := by
  induction h with
  | class_ok hs hc hin => exact .class_ok hs hc hin
  | class_fail hs hout => exact .class_fail hs hout
  | empty => exact .empty
  | fail => exact .fail
  | seq_ok _ _ ih₁ ih₂ => exact .seq_ok (ih₁ he.1 hrules) (ih₂ he.2 hrules)
  | seq_fail_first _ ih => exact .seq_fail_first (ih he.1 hrules)
  | seq_fail_second _ _ ih₁ ih₂ => exact .seq_fail_second (ih₁ he.1 hrules) (ih₂ he.2 hrules)
  | choice_first _ ih => exact .choice_first (ih he.1 hrules)
  | choice_second _ _ ih₁ ih₂ => exact .choice_second (ih₁ he.1 hrules) (ih₂ he.2 hrules)
  | star_done _ ih => exact .star_done (ih he hrules)
  | star_more _ _ ih₁ ih₂ => exact .star_more (ih₁ he hrules) (ih₂ he hrules)
  | not_ok _ ih => exact .not_ok (ih he hrules)
  | not_fail _ ih => exact .not_fail (ih he hrules)
  | and_ok _ ih => exact .and_ok (ih he hrules)
  | and_fail _ ih => exact .and_fail (ih he hrules)
  | behind hwidth _ ih => exact .behind hwidth (ih he hrules)
  | behind_short hshort => exact .behind_short hshort
  | action_ok _ hanswer hmid hstop ih => exact .action_ok (ih he hrules) hanswer hmid hstop
  | action_refused _ hanswer ih => exact .action_refused (ih he hrules) hanswer
  | action_fail _ ih => exact .action_fail (ih he hrules)
  | openCall => exact he.elim
  | ruleCall hr _ ih =>
    exact .ruleCall hr (ih (inScopeRules_iff.1 hrules _ (List.mem_of_getElem? hr)) hrules)
  | grammar hentry _ ih =>
    exact .grammar hentry (ih (inScopeRules_iff.1 he.2 _ (List.mem_of_getElem? hentry)) he.2)

theorem eval_closed (he : e.inScope False rules.length) (hrules : inScopeRules rules.length rules)
    (opened : Nat → Meaning α) : Eval (S.opening opened) rules e = Eval S rules e :=
  Meaning.eq_of_iff fun _ _ _ =>
    ⟨fun h => h.of_closed he hrules S.opened, fun h => h.of_closed he hrules opened⟩

/-- A grammar brings its rules along, so that it means the same everywhere. -/
theorem eval_grammar_closed {inner : List (Rule α)} {size : Nat} {opens : Prop}
    (he : (Expr.grammar inner).inScope opens size) (opened : Nat → Meaning α) :
    Eval (S.opening opened) rules (.grammar inner) = Eval S rules' (.grammar inner) := by
  obtain ⟨entry, hentry⟩ : ∃ entry, inner[0]? = some entry :=
    ⟨_, List.getElem?_eq_getElem (List.length_pos_iff.2 he.1)⟩
  rw [eval_grammar _ _ hentry, eval_grammar _ _ hentry]
  exact eval_closed (inScopeRules_iff.1 he.2 _ (List.mem_of_getElem? hentry)) he.2 opened

/-- **Replacing the open calls of an expression is the same as giving them a meaning**: that of what
they are replaced by. -/
theorem eval_substCalls {f : Nat → Expr α} {opened : Nat → Meaning α} (he : e.inScope True 0)
    (hf : ∀ i ∈ e.openCalls, Eval S rules (f i) = opened i) :
    Eval S rules (e.substCalls f) = Eval (S.opening opened) rules' e := by
  induction e with
  | char c | set s | any => rw [substCalls, eval_class S rules rfl, eval_class _ _ rfl]; rfl
  | empty => rw [substCalls, eval_empty, eval_empty]
  | fail => rw [substCalls, eval_fail, eval_fail]
  | seq first second ih₁ ih₂ =>
    rw [openCalls, List.forall_mem_append] at hf
    rw [substCalls, eval_seq, eval_seq, ih₁ he.1 hf.1, ih₂ he.2 hf.2]
  | choice first second ih₁ ih₂ =>
    rw [openCalls, List.forall_mem_append] at hf
    rw [substCalls, eval_choice, eval_choice, ih₁ he.1 hf.1, ih₂ he.2 hf.2]
  | star body ih => rw [substCalls, eval_star, eval_star, ih he hf]
  | not body ih => rw [substCalls, eval_not, eval_not, ih he hf]
  | and body ih => rw [substCalls, eval_and, eval_and, ih he hf]
  | behind width body ih => rw [substCalls, eval_behind, eval_behind, ih he hf]; rfl
  | action a body ih =>
    rw [substCalls, eval_action, eval_action, ih he hf, Meaning.act_opening]
  | openCall i =>
    rw [substCalls, hf i (List.mem_singleton.2 rfl), eval_openCall]
    rfl
  | ruleCall i => exact absurd he (Nat.not_lt_zero i)
  | grammar inner => exact (eval_grammar_closed he opened).symm

/-- What open calls mean matters only for those that there are. -/
theorem eval_opening_congr {opened opened' : Nat → Meaning α} (he : e.inScope True 0)
    (h : ∀ i ∈ e.openCalls, opened i = opened' i) :
    Eval (S.opening opened) rules e = Eval (S.opening opened') rules' e := by
  have hself : Eval (S.opening opened) rules (e.substCalls .openCall)
      = Eval ((S.opening opened).opening opened') rules' e :=
    eval_substCalls he fun i hi => (eval_openCall _ _ i).trans (h i hi)
  rwa [substCalls_openCall] at hself

end PegMachine
