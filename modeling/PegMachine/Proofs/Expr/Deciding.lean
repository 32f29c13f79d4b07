import PegMachine.Proofs.Expr.HeadSet

/-!
# What the next character decides

Of an expression with `headFail`, `PegMachine.Proofs.Expr.HeadSet` says that it does not have the
next character in its head where it fails.  Here is the other direction: it fails where it does not
have the next character in its head, or where there is no next character.  That is more than that
it does not match there, as there are expressions that never come to any result.

* `total_head_of_noFail` — before a follow set of all characters, what never fails has all of them
  in its head.  So the second part of a sequence takes nothing from the head of the first one, which
  is where failure is decided.
* `exists_failed_of_headFailIn` — where the expression fails.
* `failed_iff_of_headFailIn` — both directions.

Both inductions are on the expression.  What is known of calls is a hypothesis, and for the rules of
a grammar it follows by induction on the depth to which calls are unfolded.
-/

set_option autoImplicit false

namespace PegMachine

variable {α : Type}

/-- Every character is in the set. -/
def CharSet.Total (s : CharSet) : Prop := ∀ c : Char, s.contains c.toNat = true

theorem CharSet.total_full : CharSet.full.Total := CharSet.contains_full_char

open PegMachine.Expr

namespace Expr

/-! ## What never fails -/

/-- The rules that are said never to fail have all characters in their heads. -/
def HeadsTotal (never : Nat → Bool) (call : Nat → CharSet → Head) : Prop :=
  ∀ i, never i = true → ∀ follow : CharSet, follow.Total → (call i follow).chars.Total

/-- So it is with the rules of a grammar, if it is with each body as far as with its calls. -/
theorem headsTotal_rules {rules : List (Rule α)} {n : Nat}
    (h : ∀ r ∈ rules, ∀ never call, HeadsTotal never call → r.body.noFail never = true →
      ∀ follow : CharSet, follow.Total →
        (r.body.head (unfold true false (nullableRules rules) n) call follow).chars.Total)
    (m d : Nat) : HeadsTotal (unfold false false (noFailRules rules) m) (headCall rules n d) := by
  intro i hi follow hfollow
  induction d generalizing m i follow with
  | zero => exact CharSet.total_full
  | succ d ih =>
    cases m with
    | zero => cases hi
    | succ m =>
      cases hr : rules[i]? with
      | none =>
        rw [headCall, unfold, headRules_eq_map, List.getElem?_map, hr]
        exact CharSet.total_full
      | some r =>
        rw [unfold_succ (noFailRules_get hr)] at hi
        rw [headCall, unfold_succ (headRules_get hr _)]
        exact h r (List.mem_of_getElem? hr) _ _ (fun j hj => ih m j hj) hi follow hfollow

theorem total_head_of_noFail (e : Expr α) :
    ∀ null never call, HeadsTotal never call → e.noFail never = true →
      ∀ follow : CharSet, follow.Total → (e.head null call follow).chars.Total := by
  induction e with
  | empty => exact fun _ _ _ _ _ follow hfollow => hfollow
  | seq first second ih₁ ih₂ =>
    intro null never call hcall h follow hfollow
    rw [noFail, Bool.and_eq_true] at h
    cases hnull : first.nullable null with
    | false =>
      rw [head_seq_of_not_nullable hnull]
      exact ih₁ null never call hcall h.1 _ CharSet.total_full
    | true =>
      rw [head_seq_chars hnull]
      exact ih₁ null never call hcall h.1 _ (ih₂ null never call hcall h.2 follow hfollow)
  | choice first second ih₁ ih₂ =>
    intro null never call hcall h follow hfollow c
    rw [noFail, Bool.or_eq_true] at h
    rw [head, CharSet.contains_union, Bool.or_eq_true]
    rcases h with h | h
    · exact .inr (ih₂ null never call hcall h follow hfollow c)
    · exact .inl (ih₁ null never call hcall h follow hfollow c)
  | star body =>
    intro null never call _ _ follow hfollow c
    rw [head, Head.emptyOr, CharSet.contains_union, Bool.or_eq_true]
    exact .inr (hfollow c)
  | and body ih =>
    intro null never call hcall h follow hfollow c
    rw [head, CharSet.contains_inter, Bool.and_eq_true]
    exact ⟨ih null never call hcall h follow hfollow c, hfollow c⟩
  | ruleCall i => exact fun _ _ _ hcall h follow hfollow => hcall i h follow hfollow
  | grammar rules ih =>
    intro null never call _ h follow hfollow
    exact headsTotal_rules (fun r hr => ih r hr _) _ _ 0 h follow hfollow
  | _ => exact fun _ _ _ _ h => by cases h

/-- **What never fails can stand before any character** that can follow. -/
theorem headsTotal_headCall (rules : List (Rule α)) (m n d : Nat) :
    HeadsTotal (unfold false false (noFailRules rules) m) (headCall rules n d) :=
  headsTotal_rules (fun r _ => total_head_of_noFail r.body _) m d

/-! ## What fails -/

/-- There is no next character in the set. -/
def NoneNext (S : Setting α) (pos : Nat) (s : CharSet) : Prop :=
  ∀ c, S.subject[pos]? = some c → s.contains c.toNat = false

variable {S : Setting α} {pos : Nat} {rules : List (Rule α)}

/-- The rules that the next character is said to decide fail where it is not in their heads. -/
def FailByHead (S : Setting α) (rules : List (Rule α)) (pos : Nat) (decided : Nat → Bool)
    (call : Nat → CharSet → Head) : Prop :=
  ∀ i, decided i = true → ∀ follow : CharSet, follow.Total → NoneNext S pos (call i follow).chars →
    ∃ t, Eval S rules (.ruleCall i) pos t .failed

/-- So it is with the rules of a grammar, if it is with each body as far as with its calls. -/
theorem failByHead_rules
    (h : ∀ r ∈ rules, ∀ decided call, HeadsTotal (noFailCall rules) call →
      FailByHead S rules pos decided call → r.body.headFail (noFailCall rules) decided = true →
      ∀ follow : CharSet, follow.Total →
        NoneNext S pos (r.body.head (unfold true false (nullableRules rules) rules.length) call
          follow).chars →
        ∃ t, Eval S rules r.body pos t .failed) (d : Nat) :
    FailByHead S rules pos (unfold false false (headFailRules rules (noFailCall rules)) d)
      (headCall rules rules.length d) := by
  intro i hi follow hfollow hnone
  induction d generalizing i follow with
  | zero => cases hi
  | succ d ih =>
    cases hr : rules[i]? with
    | none =>
      rw [unfold, headFailRules_none hr] at hi
      cases hi
    | some r =>
      rw [unfold_succ (headFailRules_get hr _)] at hi
      rw [headCall, unfold_succ (headRules_get hr _)] at hnone
      obtain ⟨t, ht⟩ := h r (List.mem_of_getElem? hr) _ _
        (headsTotal_headCall rules rules.length rules.length d) ih hi follow hfollow hnone
      exact ⟨t, .ruleCall hr ht⟩

theorem exists_failed_of_headFail (e : Expr α) :
    ∀ rules null never decided call, HeadsTotal never call →
      FailByHead S rules pos decided call → e.headFail never decided = true →
      ∀ follow : CharSet, follow.Total → NoneNext S pos (e.head null call follow).chars →
        ∃ t, Eval S rules e pos t .failed := by
  induction e with
  | char | set | any =>
    exact fun _ _ _ _ _ _ _ _ _ _ hnone => ⟨_, .class_fail rfl hnone⟩
  | fail => exact fun _ _ _ _ _ _ _ _ _ _ _ => ⟨_, .fail⟩
  | seq first second ih₁ _ =>
    intro rules null never decided call hnever hcall h follow hfollow hnone
    rw [headFail, Bool.and_eq_true] at h
    suffices hfirst : ∃ t, Eval S rules first pos t .failed by
      obtain ⟨t, ht⟩ := hfirst
      exact ⟨t, .seq_fail_first ht⟩
    cases hnull : first.nullable null with
    | false =>
      rw [head_seq_of_not_nullable hnull] at hnone
      exact ih₁ rules null never decided call hnever hcall h.2 _ CharSet.total_full hnone
    | true =>
      -- the second part never fails, and so it leaves all characters to the first
      rw [head_seq_chars hnull] at hnone
      exact ih₁ rules null never decided call hnever hcall h.2 _
        (total_head_of_noFail second null never call hnever h.1 follow hfollow) hnone
  | choice first second ih₁ ih₂ =>
    intro rules null never decided call hnever hcall h follow hfollow hnone
    rw [headFail, Bool.and_eq_true] at h
    simp only [NoneNext, head, CharSet.contains_union, Bool.or_eq_false_iff] at hnone
    obtain ⟨t₁, ht₁⟩ := ih₁ rules null never decided call hnever hcall h.1 follow hfollow
      fun c hc => (hnone c hc).1
    obtain ⟨t₂, ht₂⟩ := ih₂ rules null never decided call hnever hcall h.2 follow hfollow
      fun c hc => (hnone c hc).2
    exact ⟨_, .choice_second ht₁ ht₂⟩
  | and body ih =>
    intro rules null never decided call hnever hcall h follow hfollow hnone
    have hbody : NoneNext S pos (body.head null call follow).chars := by
      intro c hc
      have := hnone c hc
      rwa [head, CharSet.contains_inter, hfollow c, Bool.and_true] at this
    obtain ⟨t, ht⟩ := ih rules null never decided call hnever hcall h follow hfollow hbody
    exact ⟨t, .and_fail ht⟩
  | ruleCall i => exact fun _ _ _ _ _ _ hcall h => hcall i h
  | grammar inner ih =>
    intro rules null never decided call _ _ h follow hfollow hnone
    obtain ⟨t, ht⟩ := failByHead_rules (fun r hr => ih r hr inner _ _) (inner.length + 1) 0 h
      follow hfollow hnone
    cases ht with
    | class_fail he => cases he
    | ruleCall hentry ht => exact ⟨t, .grammar hentry ht⟩
  | _ => exact fun _ _ _ _ _ _ _ h => by cases h

/-- **What the next character decides fails where it is not in the head**, and where there is no
next character. -/
theorem exists_failed_of_headFailIn {e : Expr α} (h : e.headFailIn rules = true)
    (hnone : NoneNext S pos (e.headIn rules .full).chars) : ∃ t, Eval S rules e pos t .failed :=
  exists_failed_of_headFail e rules _ _ _ _
    (headsTotal_headCall rules rules.length rules.length rules.length)
    (failByHead_rules (fun r _ => exists_failed_of_headFail r.body rules _ _) rules.length) h _
    CharSet.total_full hnone

/-- **And it fails nowhere else.** -/
theorem failed_iff_of_headFailIn {e : Expr α} (h : e.headFailIn rules = true) :
    (∃ t, Eval S rules e pos t .failed) ↔ NoneNext S pos (e.headIn rules .full).chars :=
  ⟨fun ⟨_, ht⟩ _ hc => ht.not_contains_head_of_headFail h .full hc, exists_failed_of_headFailIn h⟩

end Expr
end PegMachine
