import PegMachine.Proofs.Progress

/-!
# Where matching has a result

There are expressions that never come to a result: those that go round in circles, and those whose
actions answer with a position that they must not go to.  Where neither is the case, matching comes
to a result at every position of the subject.

What an expression may come to call, and where, is all that has to be known about its calls
(`MayCall`): those that lead it are made at the position where it starts, all others at later ones.
So the rules of a grammar have results by induction on what is left of the subject, and at one
position along leading calls, of which there are no circles.

* `hasResult_of_mayCall` — an expression has a result if the calls that it may make do.
* `hasResult` — all expressions among rules that are not left recursive have one.
* `LooksBack.not_eval` — a rule that calls itself from a lookbehind may have none.
-/

set_option autoImplicit false

namespace PegMachine

open PegMachine.Expr

variable {α : Type}

/-- No action answers with a position that it must not go to. -/
def Setting.Proper (S : Setting α) : Prop :=
  ∀ a i j k, j ≤ S.subject.size → S.answer a i j = some k → j ≤ k ∧ k ≤ S.subject.size

/-- Matching the expression at the position comes to a result. -/
def HasResult (S : Setting α) (rules : List (Rule α)) (e : Expr α) (p : Nat) : Prop :=
  ∃ t r, Eval S rules e p t r

namespace Expr

/-- Matched from `p` on, the expression may come to make a call at a position. -/
inductive MayCall (rules : List (Rule α)) (e : Expr α) (p : Nat) : Nat → Nat → Prop
  | leading {j} : Leading (Nullable rules) e (.ruleCall j) → MayCall rules e p j p
  | later {j q} : j ∈ e.calls → p < q → MayCall rules e p j q

variable {rules : List (Rule α)} {e e₁ e₂ : Expr α} {p q m j : Nat}

theorem MayCall.mem_calls (h : MayCall rules e p j q) : j ∈ e.calls := by
  cases h with
  | leading hlead => exact hlead.mem_calls rfl
  | later hmem => exact hmem

theorem MayCall.of_le (h : MayCall rules e q j m) (hpq : p ≤ q) : MayCall rules e p j m := by
  cases h with
  | leading hlead =>
    rcases Nat.eq_or_lt_of_le hpq with rfl | hlt
    · exact .leading hlead
    · exact .later (hlead.mem_calls rfl) hlt
  | later hmem hlt => exact .later hmem (Nat.lt_of_le_of_lt hpq hlt)

theorem MayCall.of_part (h : MayCall rules e₁ p j q) (hcalls : e₁.calls ⊆ e.calls)
    (hleading : ∀ {part}, Leading (Nullable rules) e₁ part → Leading (Nullable rules) e part) :
    MayCall rules e p j q := by
  cases h with
  | leading hlead => exact .leading (hleading hlead)
  | later hmem hlt => exact .later (hcalls hmem) hlt

/-- Behind the first part of a sequence, the calls in the second one lead the sequence unless
something has been consumed. -/
theorem MayCall.second (h : MayCall rules e₂ m j q) (hle : p ≤ m)
    (hnull : p = m → Nullable rules e₁) : MayCall rules (.seq e₁ e₂) p j q := by
  cases h with
  | leading hlead =>
    rcases Nat.eq_or_lt_of_le hle with rfl | hlt
    · exact .leading (.seq_second (hnull rfl) hlead)
    · exact .later (List.mem_append_right _ (hlead.mem_calls rfl)) hlt
  | later hmem hlt => exact .later (List.mem_append_right _ hmem) (Nat.lt_of_le_of_lt hle hlt)

end Expr

section

variable {S : Setting α} {rules : List (Rule α)} {e : Expr α} {p : Nat}

theorem hasResult_class {s : CharSet} (he : e.class? = some s) : HasResult S rules e p := by
  by_cases h : ∃ c, S.subject[p]? = some c ∧ s.contains c.toNat = true
  · obtain ⟨c, hc, hs⟩ := h
    exact ⟨_, _, .class_ok he hc hs⟩
  · simp only [not_exists, not_and, Bool.not_eq_true] at h
    exact ⟨_, _, .class_fail he h⟩

/-- A repetition has a result if every round does and consumes something. -/
theorem hasResult_star (hS : S.Closed) (hr : fittedRules rules) (he : e.fitted)
    (hnull : ¬ Nullable rules e) (hp : p ≤ S.subject.size)
    (h : ∀ q, p ≤ q → q ≤ S.subject.size → HasResult S rules e q) :
    HasResult S rules (.star e) p := by
  -- by induction on what is left of the subject
  induction hleft : S.subject.size - p using Nat.strongRecOn generalizing p with
  | ind left ih =>
    obtain ⟨t, r, hround⟩ := h p (Nat.le_refl p) hp
    cases r with
    | failed => exact ⟨_, _, .star_done hround⟩
    | matched m fs =>
      have hle := hround.forward hS hr he
      have hm := (hround.way hS).le_size hp
      have hne : p ≠ m := by
        rintro rfl
        exact hnull ((hround.way hS).nullable hr he)
      obtain ⟨t', r', hrest⟩ :=
        ih (S.subject.size - m) (by omega) hm (fun q hq => h q (by omega)) rfl
      cases r' with
      | failed => cases hrest.not_failed_of_noFail 0
      | matched stop fs' => exact ⟨_, _, .star_more hround hrest⟩

/-- The rules of a grammar that is not left recursive have results, if each of them does as far as
the calls that it may make do. -/
theorem hasResult_ruleCall (hrules : inScopeRules rules.length rules) (hrec : ¬ LeftRecursive rules)
    (h : ∀ r ∈ rules, ∀ p ≤ S.subject.size,
      (∀ j q, q ≤ S.subject.size → MayCall rules r.body p j q → HasResult S rules (.ruleCall j) q) →
        HasResult S rules r.body p) (hp : p ≤ S.subject.size) :
    ∀ i < rules.length, HasResult S rules (.ruleCall i) p := by
  induction hleft : S.subject.size - p using Nat.strongRecOn generalizing p with
  | ind left ih =>
    refine forall_of_leftCalls hrec fun i hi hcalls => ?_
    have hget : rules[i]? = some rules[i] := List.getElem?_eq_getElem hi
    have hmem := List.mem_of_getElem? hget
    have hscope := inScopeRules_iff.1 hrules _ hmem
    obtain ⟨t, r, hbody⟩ := h _ hmem p hp fun j q hq hmay => by
      cases hmay with
      | leading hlead =>
        exact hcalls j (lt_of_mem_calls hscope (hlead.mem_calls rfl)) ⟨_, hget, hlead⟩
      | later hj hlt =>
        exact ih (S.subject.size - q) (by omega) hq rfl j (lt_of_mem_calls hscope hj)
    exact ⟨t, r, .ruleCall hget hbody⟩

/-- **An expression has a result if the calls that it may make have one.** -/
theorem hasResult_of_mayCall (hS : S.Closed) (hproper : S.Proper) (hr : fittedRules rules)
    (he : e.fitted) (hscope : e.inScope False rules.length) (hprog : e.progresses rules)
    (hp : p ≤ S.subject.size)
    (hcalls : ∀ j q, q ≤ S.subject.size → MayCall rules e p j q →
      HasResult S rules (.ruleCall j) q) :
    HasResult S rules e p := by
  induction e generalizing rules p with
  | char | set | any => exact hasResult_class rfl
  | empty => exact ⟨_, _, .empty⟩
  | fail => exact ⟨_, _, .fail⟩
  | seq first second ih₁ ih₂ =>
    obtain ⟨t₁, r₁, h₁⟩ := ih₁ hr he.1 hscope.1 hprog.1 hp fun j q hq hmay =>
      hcalls j q hq (hmay.of_part (List.subset_append_left _ _) .seq_first)
    cases r₁ with
    | failed => exact ⟨_, _, .seq_fail_first h₁⟩
    | matched m fs₁ =>
      have hnull : p = m → Nullable rules first := by
        rintro rfl
        exact (h₁.way hS).nullable hr he.1
      obtain ⟨t₂, r₂, h₂⟩ := ih₂ hr he.2 hscope.2 hprog.2 ((h₁.way hS).le_size hp)
        fun j q hq hmay => hcalls j q hq (hmay.second (h₁.forward hS hr he.1) hnull)
      cases r₂ with
      | failed => exact ⟨_, _, .seq_fail_second h₁ h₂⟩
      | matched stop fs₂ => exact ⟨_, _, .seq_ok h₁ h₂⟩
  | choice first second ih₁ ih₂ =>
    obtain ⟨t₁, r₁, h₁⟩ := ih₁ hr he.1 hscope.1 hprog.1 hp fun j q hq hmay =>
      hcalls j q hq (hmay.of_part (List.subset_append_left _ _) .choice_first)
    cases r₁ with
    | matched stop fs₁ => exact ⟨_, _, .choice_first h₁⟩
    | failed =>
      obtain ⟨t₂, r₂, h₂⟩ := ih₂ hr he.2 hscope.2 hprog.2 hp fun j q hq hmay =>
        hcalls j q hq (hmay.of_part (List.subset_append_right _ _) .choice_second)
      exact ⟨_, _, .choice_second h₁ h₂⟩
  | star body ih =>
    refine hasResult_star hS hr he hprog.1 hp fun m hpm hm => ?_
    exact ih hr he hscope hprog.2 hm fun j q hq hmay =>
      hcalls j q hq ((hmay.of_le hpm).of_part (List.Subset.refl _) .star)
  | not body ih =>
    obtain ⟨t, r, h⟩ := ih hr he hscope hprog hp fun j q hq hmay =>
      hcalls j q hq (hmay.of_part (List.Subset.refl _) .not)
    cases r with
    | failed => exact ⟨_, _, .not_ok h⟩
    | matched stop fs => exact ⟨_, _, .not_fail h⟩
  | and body ih =>
    obtain ⟨t, r, h⟩ := ih hr he hscope hprog hp fun j q hq hmay =>
      hcalls j q hq (hmay.of_part (List.Subset.refl _) .and)
    cases r with
    | failed => exact ⟨_, _, .and_fail h⟩
    | matched stop fs => exact ⟨_, _, .and_ok h⟩
  | behind width body ih =>
    by_cases hwidth : width ≤ p - S.start
    · obtain ⟨hnone, hprog⟩ := hprog
      obtain ⟨t, r, h⟩ := ih hr he.2 hscope hprog (Nat.le_trans (Nat.sub_le p width) hp)
        fun j q _ hmay => by
          have hmem := hmay.mem_calls
          rw [hnone] at hmem
          cases hmem
      exact ⟨_, _, .behind hwidth h⟩
    · exact ⟨_, _, .behind_short (Nat.not_le.1 hwidth)⟩
  | action a body ih =>
    obtain ⟨t, r, h⟩ := ih hr he hscope hprog hp fun j q hq hmay =>
      hcalls j q hq (hmay.of_part (List.Subset.refl _) .action)
    cases r with
    | failed => exact ⟨_, _, .action_fail h⟩
    | matched m fs =>
      cases hanswer : S.answer a p m with
      | none => exact ⟨_, _, .action_refused h hanswer⟩
      | some stop =>
        obtain ⟨hmid, hstop⟩ := hproper a p m stop ((h.way hS).le_size hp) hanswer
        exact ⟨_, _, .action_ok h hanswer hmid hstop⟩
  | openCall i => exact hscope.elim
  | ruleCall i => exact hcalls i p hp (.leading .refl)
  | grammar inner ih =>
    obtain ⟨hne, hinner⟩ := hscope
    obtain ⟨hrec, hprog⟩ := hprog
    have hfitted : fittedRules inner := he
    have hbodies : ∀ r ∈ inner, ∀ p ≤ S.subject.size,
        (∀ j q, q ≤ S.subject.size → MayCall inner r.body p j q →
          HasResult S inner (.ruleCall j) q) → HasResult S inner r.body p :=
      fun r hmem p hp => ih r hmem hfitted (fittedRules_iff.1 hfitted r hmem)
        (inScopeRules_iff.1 hinner r hmem) (progressesRules_iff.1 hprog r hmem) hp
    obtain ⟨t, r, h⟩ := hasResult_ruleCall hinner hrec hbodies hp 0 (List.length_pos_iff.2 hne)
    cases h with
    | class_ok he | class_fail he => cases he
    | ruleCall hentry h => exact ⟨t, r, .grammar hentry h⟩

/-- **Every expression has a result** among rules that are not left recursive, if repetitions
consume something in each round and lookbehinds contain no calls. -/
theorem hasResult (hS : S.Closed) (hproper : S.Proper) (hr : fittedRules rules)
    (hrules : inScopeRules rules.length rules) (hrec : ¬ LeftRecursive rules)
    (hall : progressesRules rules rules) (he : e.fitted) (hscope : e.inScope False rules.length)
    (hprog : e.progresses rules) (hp : p ≤ S.subject.size) : HasResult S rules e p := by
  have hbodies : ∀ r ∈ rules, ∀ p ≤ S.subject.size,
      (∀ j q, q ≤ S.subject.size → MayCall rules r.body p j q →
        HasResult S rules (.ruleCall j) q) → HasResult S rules r.body p :=
    fun r hmem p => hasResult_of_mayCall hS hproper hr (fittedRules_iff.1 hr r hmem)
      (inScopeRules_iff.1 hrules r hmem) (progressesRules_iff.1 hall r hmem)
  exact hasResult_of_mayCall hS hproper hr he hscope hprog hp fun j q hq hmay =>
    hasResult_ruleCall hrules hrec hbodies hq j (lt_of_mem_calls hscope hmay.mem_calls)

/-! ## Where there is no result -/

/-- Where a match comes to from a call of a rule that looks back at the character in front of `p`,
and then ahead to itself. -/
inductive LooksBack (i : Nat) (c : Char) (rest : Expr α) (p : Nat) : Expr α → Nat → Prop
  | call : LooksBack i c rest p (.ruleCall i) p
  | body : LooksBack i c rest p (.seq (.behind 1 (.seq (.char c) (.and (.ruleCall i)))) rest) p
  | behind : LooksBack i c rest p (.behind 1 (.seq (.char c) (.and (.ruleCall i)))) p
  | back : LooksBack i c rest p (.seq (.char c) (.and (.ruleCall i))) (p - 1)
  | ahead : LooksBack i c rest p (.and (.ruleCall i)) p

/-- **A rule that looks back and then ahead to itself has no result** behind the character that it
looks for. -/
theorem LooksBack.not_eval {i : Nat} {c : Char} {rest : Expr α} {name : String}
    (hrule : rules[i]? = some ⟨name, .seq (.behind 1 (.seq (.char c) (.and (.ruleCall i)))) rest⟩)
    (hstart : S.start < p) (hc : S.subject[p - 1]? = some c) {q : Nat}
    (h : LooksBack i c rest p e q) {asked : List (Firing α)} {r : Result α} :
    ¬ Eval S rules e q asked r := by
  have hbehind : p - 1 + 1 = p := by omega
  -- a result of one of these expressions takes a result of the next, and the last calls the first
  intro heval
  induction heval with
  | class_ok he | class_fail he => cases h <;> cases he
  | seq_ok h₁ _ ih₁ ih₂ | seq_fail_second h₁ _ ih₁ ih₂ =>
    cases h with
    | body => exact ih₁ hrule .behind
    | back =>
      obtain ⟨rfl, -⟩ := h₁.of_class rfl
      exact ih₂ hrule (hbehind.symm ▸ .ahead)
  | seq_fail_first h₁ ih₁ =>
    cases h with
    | body => exact ih₁ hrule .behind
    | back =>
      have hnot := h₁.not_contains_of_class rfl hc
      rw [CharSet.contains_ofChar, beq_self_eq_true] at hnot
      cases hnot
  | and_ok _ ih | and_fail _ ih =>
    cases h
    exact ih hrule .call
  | behind _ _ ih =>
    cases h
    exact ih hrule .back
  | behind_short hshort =>
    cases h
    omega
  | ruleCall hbody _ ih =>
    cases h
    rw [hrule] at hbody
    cases hbody
    exact ih hrule .body
  | _ => cases h

end
end PegMachine
