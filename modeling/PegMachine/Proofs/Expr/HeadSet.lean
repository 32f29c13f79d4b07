import PegMachine.Expr.HeadSet
import PegMachine.Proofs.CharClass
import PegMachine.Proofs.Expr.Ways

/-!
# Heads tell what can come next

The head of an expression before a follow set is meant as a necessary condition for a match: the
next character is in it, unless the match is empty and the next character is not in the follow set
either, which is for what follows to deal with.  If the head says that a character is needed, there
is no match at the end of the subject.

* `Eval.head_contains`, `Eval.exists_next_of_needsChar` — the two halves of that.
* `Eval.not_contains_head_of_headFail` — where the next character decides if the expression fails,
  the condition is sufficient as well: what fails does not have the next character in its head.
* `needsChar_of_headFail` — and such an expression needs a character.

As for the other answers about expressions, the depth to which calls are unfolded does not matter,
and the induction is on the evaluation.  It is on the expression only for the last statement, which
is not about matching.
-/

set_option autoImplicit false

namespace PegMachine

open PegMachine.Expr

variable {α : Type}

namespace Expr

/-- The heads of the rules, with calls unfolded to the depth `d`, and to the depth `n` where it is
asked what may be empty. -/
def headCall (rules : List (Rule α)) (n d : Nat) : Nat → CharSet → Head :=
  unfold (fun _ => Head.unknown) (fun _ => Head.emptyOr .full)
    (headRules rules (unfold true false (nullableRules rules) n)) d

/-- The head of an expression, with calls unfolded to the depths given. -/
def headAt (rules : List (Rule α)) (n d : Nat) (e : Expr α) (follow : CharSet) : Head :=
  e.head (unfold true false (nullableRules rules) n) (headCall rules n d) follow

/-- Whether the next character decides, with calls unfolded to the depth `d`, and to the depth `m`
where it is asked what never fails. -/
def headFailAt (rules : List (Rule α)) (m d : Nat) (e : Expr α) : Bool :=
  e.headFail (unfold false false (noFailRules rules) m)
    (unfold false false (headFailRules rules (unfold false false (noFailRules rules) m)) d)

theorem headRules_eq_map (rules : List (Rule α)) (null : Nat → Bool) :
    headRules rules null = rules.map fun r => head r.body null := by
  induction rules with
  | nil => rfl
  | cons r rest ih =>
    obtain ⟨name, body⟩ := r
    rw [headRules, ih]
    rfl

theorem headFailRules_eq_map (rules : List (Rule α)) (never : Nat → Bool) :
    headFailRules rules never = rules.map fun r => headFail r.body never := by
  induction rules with
  | nil => rfl
  | cons r rest ih =>
    obtain ⟨name, body⟩ := r
    rw [headFailRules, ih]
    rfl

theorem headRules_get {rules : List (Rule α)} {i : Nat} {r : Rule α} (h : rules[i]? = some r)
    (null : Nat → Bool) : (headRules rules null)[i]? = some (head r.body null) := by
  rw [headRules_eq_map, List.getElem?_map, h]
  rfl

theorem headFailRules_get {rules : List (Rule α)} {i : Nat} {r : Rule α} (h : rules[i]? = some r)
    (never : Nat → Bool) : (headFailRules rules never)[i]? = some (headFail r.body never) := by
  rw [headFailRules_eq_map, List.getElem?_map, h]
  rfl

theorem headFailRules_none {rules : List (Rule α)} {i : Nat} (h : rules[i]? = none)
    (never : Nat → Bool) : (headFailRules rules never)[i]? = none := by
  rw [headFailRules_eq_map, List.getElem?_map, h]
  rfl

theorem headAt_ruleCall {rules : List (Rule α)} {i : Nat} {r : Rule α} (h : rules[i]? = some r)
    (n d : Nat) (follow : CharSet) :
    headAt rules n (d + 1) (ruleCall i) follow = headAt rules n d r.body follow := by
  rw [headAt, head, headCall, unfold_succ (headRules_get h _)]
  rfl

theorem headAt_grammar {rules inner : List (Rule α)} {r : Rule α} (h : inner[0]? = some r)
    (n d : Nat) (follow : CharSet) :
    headAt rules n d (grammar inner) follow
      = headAt inner inner.length inner.length r.body follow := by
  rw [headAt, head, unfold_succ (headRules_get h _)]
  rfl

theorem headFailAt_ruleCall {rules : List (Rule α)} {i : Nat} {r : Rule α} (h : rules[i]? = some r)
    (m d : Nat) : headFailAt rules m (d + 1) (ruleCall i) = headFailAt rules m d r.body := by
  rw [headFailAt, headFail, unfold_succ (headFailRules_get h _)]
  rfl

theorem headFailAt_grammar {rules inner : List (Rule α)} {r : Rule α} (h : inner[0]? = some r)
    (m d : Nat) :
    headFailAt rules m d (grammar inner) = headFailAt inner inner.length inner.length r.body := by
  rw [headFailAt, headFail, unfold_succ (headFailRules_get h _)]
  rfl

theorem head_of_class? {e : Expr α} {s : CharSet} (h : e.class? = some s) (null : Nat → Bool)
    (call : Nat → CharSet → Head) (follow : CharSet) : e.head null call follow = .needs s := by
  rcases class?_eq_some h with ⟨c, rfl, rfl⟩ | rfl | ⟨rfl, rfl⟩ <;> rfl

/-! ## The head of a sequence -/

/-- The characters in the head of a sequence whose first part may be empty are those of the first
part before the head of the second, -/
theorem head_seq_chars {null : Nat → Bool} {call : Nat → CharSet → Head} {e₁ e₂ : Expr α}
    {follow : CharSet} (h : e₁.nullable null = true) :
    ((seq e₁ e₂).head null call follow).chars
      = (e₁.head null call (e₂.head null call follow).chars).chars := by
  simp only [head, h, if_true]
  split
  · rfl
  · split <;> rfl

/-- and else those of the first part before all characters. -/
theorem head_seq_of_not_nullable {null : Nat → Bool} {call : Nat → CharSet → Head} {e₁ e₂ : Expr α}
    {follow : CharSet} (h : e₁.nullable null = false) :
    (seq e₁ e₂).head null call follow = e₁.head null call .full := by
  simp only [head, h]
  rfl

/-- Such a sequence needs a character only if one of its parts does. -/
theorem needsChar_of_headAt_seq {rules : List (Rule α)} {n d : Nat} {e₁ e₂ : Expr α}
    {follow : CharSet} (h : e₁.nullable (unfold true false (nullableRules rules) n) = true)
    (hn : (headAt rules n d (seq e₁ e₂) follow).needsChar = true) :
    (headAt rules n d e₁ (headAt rules n d e₂ follow).chars).needsChar = true
      ∨ (headAt rules n d e₂ follow).needsChar = true := by
  simp only [headAt, head, h, if_true] at hn ⊢
  split at hn
  · next h₁ => exact .inl h₁
  · split at hn
    · simp [Head.needsChar] at hn
    · exact .inr hn

end Expr

variable {S : Setting α} {rules : List (Rule α)} {e : Expr α} {pos stop : Nat}
  {t fs : List (Firing α)} {r : Result α}

theorem Eval.char_ok {c : Char} (hc : S.subject[pos]? = some c) :
    Eval S rules (.char c) pos [] (.matched (pos + 1) []) :=
  .class_ok rfl hc (by rw [CharSet.contains_ofChar, beq_self_eq_true])

theorem Eval.char_fail {c d : Char} (hd : S.subject[pos]? = some d) (hne : d ≠ c) :
    Eval S rules (.char c) pos [] .failed := by
  refine .class_fail rfl fun c' hc' => ?_
  rw [hd] at hc'
  cases hc'
  rw [CharSet.contains_ofChar, beq_eq_false_iff_ne]
  exact hne

/-- A class fails where the next character is not in it. -/
theorem Eval.not_contains_of_class (h : Eval S rules e pos t .failed) {s : CharSet}
    (he : e.class? = some s) {c : Char} (hc : S.subject[pos]? = some c) :
    s.contains c.toNat = false := by
  have hfail : ∀ {s' : CharSet}, e.class? = some s' →
      (∀ c, S.subject[pos]? = some c → s'.contains c.toNat = false) →
      s.contains c.toNat = false := by
    intro s' he' h
    rw [he] at he'
    cases he'
    exact h c hc
  rcases class?_eq_some he with ⟨c', rfl, -⟩ | rfl | ⟨rfl, -⟩
  all_goals
    cases h with
    | class_fail he' h => exact hfail he' h

/-- A class consumes a character that is in it, and nothing else. -/
theorem Eval.of_class (h : Eval S rules e pos t (.matched stop fs)) {s : CharSet}
    (he : e.class? = some s) :
    stop = pos + 1 ∧ fs = [] ∧ ∃ c, S.subject[pos]? = some c ∧ s.contains c.toNat = true := by
  have hmatch : ∀ {s' : CharSet} {c : Char}, e.class? = some s' → S.subject[pos]? = some c →
      s'.contains c.toNat = true → ∃ c, S.subject[pos]? = some c ∧ s.contains c.toNat = true := by
    intro s' c he' hc hs
    rw [he] at he'
    cases he'
    exact ⟨c, hc, hs⟩
  rcases class?_eq_some he with ⟨c', rfl, -⟩ | rfl | ⟨rfl, -⟩
  all_goals
    cases h with
    | class_ok he' hc hs => exact ⟨rfl, rfl, hmatch he' hc hs⟩

/-- A class asks nothing. -/
theorem Eval.asked_eq_nil_of_class (h : Eval S rules e pos t r) {s : CharSet}
    (he : e.class? = some s) : t = [] := by
  rcases class?_eq_some he with ⟨c', rfl, -⟩ | rfl | ⟨rfl, -⟩
  all_goals
    cases h with
    | class_ok | class_fail => rfl

/-! ## The condition is necessary -/

theorem Eval.head_aux (hS : S.Closed) (h : Eval S rules e pos t r) :
    fittedRules rules → e.fitted → ∀ stop fs, r = .matched stop fs → ∀ n d follow,
      ((headAt rules n d e follow).needsChar = true → pos < S.subject.size) ∧
      ∀ c, S.subject[pos]? = some c → pos < stop ∨ follow.contains c.toNat = true →
        (headAt rules n d e follow).chars.contains c.toNat = true := by
  induction h with
  | @class_ok _ _ _ _ c' he hc hs =>
    rintro - - _ _ ⟨⟩ n d follow
    rw [headAt, head_of_class? he]
    refine ⟨fun _ => (Array.getElem?_eq_some_iff.1 hc).1, fun c hc' _ => ?_⟩
    rw [hc] at hc'
    cases hc'
    exact hs
  | empty =>
    rintro - - _ _ ⟨⟩ n d follow
    exact ⟨fun hn => (by cases hn), fun c _ hor => hor.resolve_left (Nat.lt_irrefl _)⟩
  | @seq_ok rules e₁ e₂ pos mid stop _ _ _ _ h₁ h₂ ih₁ ih₂ =>
    rintro hr hf _ _ ⟨⟩ n d follow
    have hle₁ := h₁.forward hS hr hf.1
    have hle₂ := h₂.forward hS hr hf.2
    cases hnull : e₁.nullable (unfold true false (nullableRules rules) n) with
    | false =>
      rw [headAt, head_seq_of_not_nullable hnull]
      obtain ⟨hn, hc⟩ := ih₁ hr hf.1 _ _ rfl n d .full
      exact ⟨hn, fun c hpos _ => hc c hpos (.inr (by simp))⟩
    | true =>
      obtain ⟨hn₂, hc₂⟩ := ih₂ hr hf.2 _ _ rfl n d follow
      obtain ⟨hn₁, hc₁⟩ := ih₁ hr hf.1 _ _ rfl n d (headAt rules n d e₂ follow).chars
      rw [headAt, head_seq_chars hnull]
      constructor
      · intro hn
        rcases needsChar_of_headAt_seq hnull hn with hn | hn
        · exact hn₁ hn
        · exact Nat.lt_of_le_of_lt hle₁ (hn₂ hn)
      · intro c hpos hor
        apply hc₁ c hpos
        rcases Nat.eq_or_lt_of_le hle₁ with rfl | hlt
        · exact .inr (hc₂ c hpos hor)
        · exact .inl hlt
  | choice_first _ ih =>
    rintro hr hf _ _ ⟨⟩ n d follow
    obtain ⟨hn, hc⟩ := ih hr hf.1 _ _ rfl n d follow
    constructor
    · intro h
      simp only [headAt, head, Head.needsChar, Bool.not_or, Bool.and_eq_true] at h hn
      exact hn ⟨h.1.1, h.2.1⟩
    · intro c hpos hor
      simp only [headAt, head, CharSet.contains_union, Bool.or_eq_true]
      exact .inl (hc c hpos hor)
  | choice_second _ _ _ ih =>
    intro hr hf stop fs heq n d follow
    obtain ⟨hn, hc⟩ := ih hr hf.2 stop fs heq n d follow
    constructor
    · intro h
      simp only [headAt, head, Head.needsChar, Bool.not_or, Bool.and_eq_true] at h hn
      exact hn ⟨h.1.2, h.2.2⟩
    · intro c hpos hor
      simp only [headAt, head, CharSet.contains_union, Bool.or_eq_true]
      exact .inr (hc c hpos hor)
  | star_done _ _ =>
    rintro - - _ _ ⟨⟩ n d follow
    refine ⟨fun hn => (by cases hn), fun c _ hor => ?_⟩
    simp only [headAt, head, Head.emptyOr, CharSet.contains_union, Bool.or_eq_true]
    exact .inr (hor.resolve_left (Nat.lt_irrefl _))
  | @star_more _ e pos mid stop _ _ _ _ h₁ _ ih₁ ih₂ =>
    rintro hr hf _ _ ⟨⟩ n d follow
    refine ⟨fun hn => (by cases hn), fun c hpos hor => ?_⟩
    rcases Nat.eq_or_lt_of_le (h₁.forward hS hr hf) with rfl | hlt
    · exact (ih₂ hr hf _ _ rfl n d follow).2 c hpos hor
    · simp only [headAt, head, Head.emptyOr, CharSet.contains_union, Bool.or_eq_true]
      exact .inl ((ih₁ hr hf _ _ rfl n d follow).2 c hpos (.inl hlt))
  | @not_ok _ e pos _ h _ =>
    rintro - - _ _ ⟨⟩ n d follow
    simp only [headAt, head]
    split
    · next s hs =>
      refine ⟨fun hn => (by cases hn), fun c hpos _ => ?_⟩
      rw [Head.emptyOr, CharSet.contains_complement, h.not_contains_of_class hs hpos]
      rfl
    · refine ⟨fun hn => ?_, fun c _ hor => hor.resolve_left (Nat.lt_irrefl _)⟩
      simp [Head.needsChar] at hn
  | and_ok _ ih =>
    rintro hr hf _ _ ⟨⟩ n d follow
    obtain ⟨hn, hc⟩ := ih hr hf _ _ rfl n d follow
    refine ⟨hn, fun c hpos hor => ?_⟩
    have hfollow := hor.resolve_left (Nat.lt_irrefl _)
    simp only [headAt, head, CharSet.contains_inter, Bool.and_eq_true]
    exact ⟨hc c hpos (.inr hfollow), hfollow⟩
  | behind hw h _ =>
    intro hr hf stop fs heq n d follow
    subst heq
    have hstop := (Eval.behind hw h).stop_of_fixedLength hS hr hf rfl
    refine ⟨fun hn => (by simp [headAt, head, Head.needsChar] at hn), fun c _ hor => ?_⟩
    exact hor.resolve_left (by omega)
  | action_ok _ _ _ _ ih =>
    rintro hr hf _ _ ⟨⟩ n d follow
    obtain ⟨hn, hc⟩ := ih hr hf _ _ rfl n d .full
    constructor
    · intro h
      simp only [headAt, head, Head.needsChar, Bool.not_or, Bool.and_eq_true] at h hn
      exact hn h.2
    · intro c hpos _
      exact hc c hpos (.inr (by simp))
  | openCall ho => exact absurd ho (hS _ _ _ _)
  | ruleCall hrule _ ih =>
    intro hr _ stop fs heq n d follow
    cases d with
    | zero => exact ⟨fun hn => (by cases hn), fun c _ _ => CharSet.contains_full_char c⟩
    | succ d =>
      rw [headAt_ruleCall hrule]
      exact ih hr (hr.body hrule) stop fs heq n d follow
  | grammar hentry _ ih =>
    intro _ hf stop fs heq n d follow
    rw [headAt_grammar hentry]
    exact ih hf (fittedRules.body hf hentry) stop fs heq _ _ follow
  | _ => rintro - - _ _ ⟨⟩

/-- **The next character is in the head** of what matches, unless the match is empty and the next
character cannot follow. -/
theorem Eval.head_contains (hS : S.Closed) (h : Eval S rules e pos t (.matched stop fs))
    (hr : fittedRules rules) (he : e.fitted) {follow : CharSet} {c : Char}
    (hc : S.subject[pos]? = some c) (hor : pos < stop ∨ follow.contains c.toNat = true) :
    (e.headIn rules follow).chars.contains c.toNat = true :=
  (h.head_aux hS hr he _ _ rfl _ _ follow).2 c hc hor

/-- What needs a character does not match at the end of the subject. -/
theorem Eval.exists_next_of_needsChar (hS : S.Closed)
    (h : Eval S rules e pos t (.matched stop fs)) (hr : fittedRules rules) (he : e.fitted)
    {follow : CharSet} (hn : (e.headIn rules follow).needsChar = true) :
    ∃ c, S.subject[pos]? = some c := by
  have hlt := (h.head_aux hS hr he _ _ rfl _ _ follow).1 hn
  exact ⟨_, Array.getElem?_eq_getElem hlt⟩

/-- If all characters may follow, what needs a character matches only before one of its head. -/
theorem Eval.exists_head (hS : S.Closed) (h : Eval S rules e pos t (.matched stop fs))
    (hr : fittedRules rules) (he : e.fitted) (hn : (e.headIn rules .full).needsChar = true) :
    ∃ c, S.subject[pos]? = some c ∧ (e.headIn rules .full).chars.contains c.toNat = true := by
  obtain ⟨c, hc⟩ := h.exists_next_of_needsChar hS hr he hn
  exact ⟨c, hc, h.head_contains hS hr he hc (.inr (CharSet.contains_full_char c))⟩

/-- What matches before a character that is not in the head matches the empty string, and the
character cannot follow, to whatever depths calls are unfolded. -/
theorem Eval.stays_of_not_headAt (hS : S.Closed) (h : Eval S rules e pos t (.matched stop fs))
    (hr : fittedRules rules) (he : e.fitted) {n d : Nat} {follow : CharSet} {c : Char}
    (hc : S.subject[pos]? = some c)
    (hn : (headAt rules n d e follow).chars.contains c.toNat = false) :
    stop = pos ∧ follow.contains c.toNat = false := by
  have hor : ¬ (pos < stop ∨ follow.contains c.toNat = true) := by
    intro hor
    rw [(h.head_aux hS hr he _ _ rfl n d follow).2 c hc hor] at hn
    cases hn
  rw [not_or, Bool.not_eq_true] at hor
  exact ⟨Nat.le_antisymm (Nat.not_lt.1 hor.1) (h.forward hS hr he), hor.2⟩

theorem Eval.stays_of_not_head (hS : S.Closed) (h : Eval S rules e pos t (.matched stop fs))
    (hr : fittedRules rules) (he : e.fitted) {follow : CharSet} {c : Char}
    (hc : S.subject[pos]? = some c)
    (hn : (e.headIn rules follow).chars.contains c.toNat = false) :
    stop = pos ∧ follow.contains c.toNat = false :=
  h.stays_of_not_headAt hS hr he hc hn

/-! ## Where it is sufficient -/

theorem Eval.headFail_aux (h : Eval S rules e pos t r) :
    r = .failed → ∀ m n d follow, headFailAt rules m d e = true →
      ∀ c, S.subject[pos]? = some c →
        (headAt rules n d e follow).chars.contains c.toNat = false := by
  induction h with
  | class_fail he hs =>
    intro _ m n d follow _ c hc
    rw [headAt, head_of_class? he]
    exact hs c hc
  | fail => exact fun _ _ _ _ _ _ _ _ => rfl
  | @seq_fail_first rules e₁ e₂ _ _ _ ih =>
    intro _ m n d follow hf c hc
    simp only [headFailAt, headFail, Bool.and_eq_true] at hf
    cases hnull : e₁.nullable (unfold true false (nullableRules rules) n) with
    | false =>
      rw [headAt, head_seq_of_not_nullable hnull]
      exact ih rfl m n d _ hf.2 c hc
    | true =>
      rw [headAt, head_seq_chars hnull]
      exact ih rfl m n d _ hf.2 c hc
  | seq_fail_second _ h₂ _ _ =>
    intro _ m n d follow hf
    simp only [headFailAt, headFail, Bool.and_eq_true] at hf
    rw [h₂.not_failed_of_noFail] at hf
    cases hf.1
  | choice_second _ _ ih₁ ih₂ =>
    intro heq m n d follow hf c hc
    simp only [headFailAt, headFail, Bool.and_eq_true] at hf
    simp only [headAt, head, CharSet.contains_union, Bool.or_eq_false_iff]
    exact ⟨ih₁ rfl m n d follow hf.1 c hc, ih₂ heq m n d follow hf.2 c hc⟩
  | and_fail _ ih =>
    intro _ m n d follow hf c hc
    have hbody := ih rfl m n d follow hf c hc
    simp only [headAt, head, CharSet.contains_inter, Bool.and_eq_false_iff]
    exact .inl hbody
  | ruleCall hrule _ ih =>
    intro heq m n d follow hf c hc
    cases d with
    | zero => cases hf
    | succ d =>
      rw [headFailAt_ruleCall hrule] at hf
      rw [headAt_ruleCall hrule]
      exact ih heq m n d follow hf c hc
  | grammar hentry _ ih =>
    intro heq m n d follow hf c hc
    rw [headFailAt_grammar hentry] at hf
    rw [headAt_grammar hentry]
    exact ih heq _ _ _ follow hf c hc
  | not_fail | behind | behind_short | action_refused | action_fail | openCall =>
    intro _ m n d follow hf
    cases hf
  | _ => rintro ⟨⟩

/-- **Where the next character decides, what fails does not have it in its head.** -/
theorem Eval.not_contains_head_of_headFail (h : Eval S rules e pos t .failed)
    (hf : e.headFailIn rules = true) (follow : CharSet) {c : Char}
    (hc : S.subject[pos]? = some c) :
    (e.headIn rules follow).chars.contains c.toNat = false :=
  h.headFail_aux rfl _ _ _ follow hf c hc

namespace Expr

/-- The answer for a call, if that for the rule called is known from those for its own calls. -/
theorem needsChar_of_headFail_rules {rules : List (Rule α)} {never : Nat → Bool}
    (h : ∀ r ∈ rules, ∀ (hf : Nat → Bool) (call : Nat → CharSet → Head),
      (∀ i, hf i = true → ∀ follow, (call i follow).needsChar = true) →
      r.body.headFail never hf = true → ∀ follow,
        (r.body.head (unfold true false (nullableRules rules) rules.length) call follow).needsChar
          = true) (d i : Nat)
    (hi : unfold false false (headFailRules rules never) d i = true) (follow : CharSet) :
    (headCall rules rules.length d i follow).needsChar = true := by
  induction d generalizing i follow with
  | zero => cases hi
  | succ d ih =>
    cases hr : rules[i]? with
    | none =>
      rw [unfold, headFailRules_none hr] at hi
      cases hi
    | some r =>
      rw [unfold_succ (headFailRules_get hr _)] at hi
      rw [headCall, unfold_succ (headRules_get hr _)]
      exact h r (List.mem_of_getElem? hr) _ _ ih hi follow

theorem needsChar_of_headFail_aux (e : Expr α) :
    ∀ (never null : Nat → Bool) (hf : Nat → Bool) (call : Nat → CharSet → Head),
      (∀ i, hf i = true → ∀ follow, (call i follow).needsChar = true) →
      e.headFail never hf = true → ∀ follow, (e.head null call follow).needsChar = true := by
  induction e with
  | char | set | any | fail => exact fun _ _ _ _ _ _ _ => rfl
  | seq first second ih₁ _ =>
    intro never null hf call hcall h follow
    rw [headFail, Bool.and_eq_true] at h
    rw [head]
    split
    · simp only [ih₁ never null hf call hcall h.2, if_true]
      rfl
    · exact ih₁ never null hf call hcall h.2 _
  | choice first second ih₁ ih₂ =>
    intro never null hf call hcall h follow
    rw [headFail, Bool.and_eq_true] at h
    have h₁ := ih₁ never null hf call hcall h.1 follow
    have h₂ := ih₂ never null hf call hcall h.2 follow
    simp only [Head.needsChar, Bool.and_eq_true, Bool.not_eq_true'] at h₁ h₂
    simp [head, Head.needsChar, h₁, h₂]
  | and body ih =>
    intro never null hf call hcall h follow
    exact ih never null hf call hcall h follow
  | ruleCall i =>
    intro never null hf call hcall h follow
    exact hcall i h follow
  | grammar rules ih =>
    intro never null hf call _ h follow
    exact needsChar_of_headFail_rules (fun r hr => ih r hr _ _) _ 0 h follow
  | _ => exact fun _ _ _ _ _ h => by cases h

/-- **Where the next character decides, one is needed.** -/
theorem needsChar_of_headFail {rules : List (Rule α)} {e : Expr α}
    (h : e.headFailIn rules = true) (follow : CharSet) :
    (e.headIn rules follow).needsChar = true :=
  needsChar_of_headFail_aux e _ _ _ _
    (needsChar_of_headFail_rules (fun r _ => needsChar_of_headFail_aux r.body _ _) _) h follow

theorem needsChar_of_toldByNext {rules : List (Rule α)} {e : Expr α} {others : CharSet}
    (h : e.toldByNext rules others = true) : (e.headIn rules .full).needsChar = true := by
  simp only [toldByNext, Bool.or_eq_true, Bool.and_eq_true] at h
  rcases h with h | h
  · exact needsChar_of_headFail h .full
  · exact h.1

end Expr

/-- **Where the next character tells if there is any use in trying an expression**, and the
expression is tried and fails, the next character is not one of the others. -/
theorem Eval.not_others_of_toldByNext {others : CharSet} (h : Eval S rules e pos t .failed)
    (htold : e.toldByNext rules others = true) {c : Char} (hc : S.subject[pos]? = some c)
    (hhead : (e.headIn rules .full).chars.contains c.toNat = true) :
    others.contains c.toNat = false := by
  simp only [toldByNext, Bool.or_eq_true, Bool.and_eq_true, Bool.not_eq_true'] at htold
  rcases htold with hf | ⟨-, hdisjoint⟩
  · rw [h.not_contains_head_of_headFail hf .full hc] at hhead
    cases hhead
  · exact CharSet.not_contains_of_not_intersects hdisjoint hhead

end PegMachine
