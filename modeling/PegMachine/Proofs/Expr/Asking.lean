import PegMachine.Proofs.Expr.HeadSet

/-!
# Where nothing is asked

An action is asked about every match of its expression, even if that comes to nothing.  So where the
next character is looked at to save trying an expression, it is not enough that the expression would
not have matched: it might have asked an action before it failed.

Heads are made with that in mind, and tell whether an action may run before anything is consumed.
They do not always tell: the head of a repetition is silent about its body, and the heads of
lookaheads and lookbehinds hold only characters that can follow, whatever their bodies ask about.

* `candid` — whether the head of an expression can be relied on in this.
* `Eval.asked_eq_nil` — without actions in reach, nothing is asked.
* `Eval.asked_eq_nil_of_not_head` — nothing is asked before a character that is not in the head, if
  that is candid.
* `Eval.asked_eq_nil_of_needsChar` — nor is anything where a test for the head fails.

The last two are proved at once, by induction on the evaluation, and for calls that are unfolded to
any depths: one for the head, and one for the question if heads are candid.
-/

set_option autoImplicit false

namespace PegMachine

namespace Expr

variable {α : Type}

mutual

/-- Whether the head of the expression tells where an action may be asked, from the answers for its
calls. -/
def candid : Expr α → List (Rule α) → (Nat → Bool) → Bool
  | seq first second, rules, call =>
    candid first rules call && (!first.nullableIn rules || candid second rules call)
  | choice first second, rules, call => candid first rules call && candid second rules call
  | star body, rules, call => candid body rules call && !(body.headIn rules .full).mayAct
  | not body, rules, _ => !body.hasActionsIn rules
  | and body, rules, _ => !body.hasActionsIn rules
  | behind _ body, rules, _ => !body.hasActionsIn rules
  | action _ body, rules, call => candid body rules call
  | ruleCall i, _, call => call i
  | grammar rules, _, _ => unfold false true (candidRules rules rules) (rules.length + 1) 0
  | char _, _, _ => true
  | set _, _, _ => true
  | any, _, _ => true
  | empty, _, _ => true
  | fail, _, _ => true
  | openCall _, _, _ => true

/-- `candid` for the body of each rule. -/
def candidRules : List (Rule α) → List (Rule α) → List ((Nat → Bool) → Bool)
  | [], _ => []
  | ⟨_, body⟩ :: rest, rules => candid body rules :: candidRules rest rules

end

attribute [grind =] candid

/-- Whether the head is candid, with calls unfolded to the given depth. -/
def candidAt (rules : List (Rule α)) (d : Nat) (e : Expr α) : Bool :=
  e.candid rules (unfold false true (candidRules rules rules) d)

/-- Whether the head of the expression tells where an action may be asked, among the given rules. -/
def candidIn (rules : List (Rule α)) (e : Expr α) : Bool := candidAt rules rules.length e

theorem candidRules_eq_map (rules all : List (Rule α)) :
    candidRules rules all = rules.map fun r => candid r.body all := by
  induction rules with
  | nil => rfl
  | cons r rest ih =>
    obtain ⟨name, body⟩ := r
    rw [candidRules, ih]
    rfl

theorem candidRules_get {rules all : List (Rule α)} {i : Nat} {r : Rule α}
    (h : rules[i]? = some r) : (candidRules rules all)[i]? = some (candid r.body all) := by
  rw [candidRules_eq_map, List.getElem?_map, h]
  rfl

theorem candidAt_ruleCall {rules : List (Rule α)} {i : Nat} {r : Rule α} (h : rules[i]? = some r)
    (d : Nat) : candidAt rules (d + 1) (ruleCall i) = candidAt rules d r.body := by
  rw [candidAt, candid, unfold_succ (candidRules_get h)]
  rfl

theorem candidAt_grammar {rules inner : List (Rule α)} {r : Rule α} (h : inner[0]? = some r)
    (d : Nat) : candidAt rules d (grammar inner) = candidAt inner inner.length r.body := by
  rw [candidAt, candid, unfold_succ (candidRules_get h)]
  rfl

end Expr

open PegMachine.Expr

variable {α : Type} {S : Setting α} {rules : List (Rule α)} {e : Expr α} {pos stop : Nat}
  {t fs : List (Firing α)} {r : Result α}

/-! ## Without actions -/

theorem Eval.asked_aux (hS : S.Closed) (h : Eval S rules e pos t r) :
    ∀ V, Quiet rules V → e.writesAction = false → (∀ j ∈ e.calls, V j) → t = [] := by
  induction h with
  | seq_ok _ _ ih₁ ih₂ | seq_fail_second _ _ ih₁ ih₂ | choice_second _ _ ih₁ ih₂ =>
    intro V hV hw hc
    rw [writesAction, Bool.or_eq_false_iff] at hw
    simp only [calls, List.forall_mem_append] at hc
    rw [ih₁ V hV hw.1 hc.1, ih₂ V hV hw.2 hc.2]
    rfl
  | seq_fail_first _ ih | choice_first _ ih =>
    intro V hV hw hc
    rw [writesAction, Bool.or_eq_false_iff] at hw
    simp only [calls, List.forall_mem_append] at hc
    exact ih V hV hw.1 hc.1
  | star_more _ _ ih₁ ih₂ =>
    intro V hV hw hc
    rw [ih₁ V hV hw hc, ih₂ V hV hw hc]
    rfl
  | star_done _ ih | not_ok _ ih | not_fail _ ih | and_ok _ ih | and_fail _ ih | behind _ _ ih =>
    exact ih
  | action_ok | action_refused | action_fail => exact fun _ _ hw => by cases hw
  | openCall ho => exact absurd ho (hS _ _ _ _)
  | ruleCall hrule _ ih =>
    intro V hV _ hc
    obtain ⟨hw, hc'⟩ := hV _ (hc _ (by simp [calls])) _ hrule
    exact ih V hV hw hc'
  | @grammar _ inner _ _ _ _ hentry _ ih =>
    intro V hV hw _
    rw [writesAction] at hw
    have hall : Quiet inner fun _ => True :=
      fun i _ r hr => ⟨writesActionRules_eq_false hw hr, fun _ _ => trivial⟩
    exact ih _ hall (writesActionRules_eq_false hw hentry) (fun _ _ => trivial)
  | class_ok | class_fail | empty | fail | behind_short => exact fun _ _ _ _ => rfl

/-- **Without actions in reach, nothing is asked.** -/
theorem Eval.asked_eq_nil (hS : S.Closed) (h : Eval S rules e pos t r)
    (ha : e.hasActionsIn rules = false) : t = [] := by
  rw [hasActionsIn, Bool.or_eq_false_iff] at ha
  obtain ⟨V, h₁, -, h₃⟩ := exists_quiet_of_actionReached ha.2
  exact h.asked_aux hS V (fun i hi r hr => h₃ i hi (by simp) r hr) ha.1 h₁

/-! ## What heads tell -/

/-- At the end of the subject nothing is consumed. -/
theorem Eval.stays_of_size_le (hS : S.Closed) (h : Eval S rules e pos t (.matched stop fs))
    (hr : fittedRules rules) (he : e.fitted) (hpos : S.subject.size ≤ pos) : stop = pos := by
  have hle := h.forward hS hr he
  have hmax := (h.way hS).le_max
  omega

/-- What has been asked where an expression was tried is nothing, if a head of it rules the rest
out: at the end of the subject if it does not say that an action may run, and before a character
that is not in it.  This is about the heads for all depths and follow sets. -/
def AsksByHead (S : Setting α) (rules : List (Rule α)) (e : Expr α) (pos : Nat)
    (t : List (Firing α)) : Prop :=
  ∀ n d follow, (S.subject.size ≤ pos → (headAt rules n d e follow).mayAct = false → t = []) ∧
    ∀ c, S.subject[pos]? = some c → (headAt rules n d e follow).chars.contains c.toNat = false →
      t = []

namespace AsksByHead

variable {e₁ e₂ : Expr α} {mid : Nat} {t₁ t₂ : List (Firing α)}

theorem nil : AsksByHead S rules e pos [] := fun _ _ _ => ⟨fun _ _ => rfl, fun _ _ _ => rfl⟩

theorem append (h₁ : AsksByHead S rules e pos t₁) (h₂ : AsksByHead S rules e pos t₂) :
    AsksByHead S rules e pos (t₁ ++ t₂) := by
  refine fun n d follow => ⟨fun hpos hact => ?_, fun c hc hn => ?_⟩
  · rw [(h₁ n d follow).1 hpos hact, (h₂ n d follow).1 hpos hact]
    rfl
  · rw [(h₁ n d follow).2 c hc hn, (h₂ n d follow).2 c hc hn]
    rfl

/-- No head rules out what consumes something. -/
theorem of_consumes (hS : S.Closed) (h : Eval S rules e pos t (.matched stop fs))
    (hr : fittedRules rules) (he : e.fitted) (hne : stop ≠ pos) : AsksByHead S rules e pos t :=
  fun _ _ _ => ⟨fun hpos _ => absurd (h.stays_of_size_le hS hr he hpos) hne,
    fun _ hc hn => absurd (h.stays_of_not_headAt hS hr he hc hn).1 hne⟩

theorem choice_first (h : AsksByHead S rules e₁ pos t) :
    AsksByHead S rules (.choice e₁ e₂) pos t := by
  refine fun n d follow => ⟨fun hpos hact => ?_, fun c hc hn => ?_⟩
  · simp only [headAt, head, Bool.or_eq_false_iff] at hact
    exact (h n d follow).1 hpos hact.1
  · simp only [headAt, head, CharSet.contains_union, Bool.or_eq_false_iff] at hn
    exact (h n d follow).2 c hc hn.1

theorem choice_second (h : AsksByHead S rules e₂ pos t) :
    AsksByHead S rules (.choice e₁ e₂) pos t := by
  refine fun n d follow => ⟨fun hpos hact => ?_, fun c hc hn => ?_⟩
  · simp only [headAt, head, Bool.or_eq_false_iff] at hact
    exact (h n d follow).1 hpos hact.2
  · simp only [headAt, head, CharSet.contains_union, Bool.or_eq_false_iff] at hn
    exact (h n d follow).2 c hc hn.2

/-- The head of a sequence says that no action may run only if that of the first part does, and that
of the second where the first needs no character. -/
theorem mayAct_of_headAt_seq {n d : Nat} {follow : CharSet}
    (h : e₁.nullable (unfold true false (nullableRules rules) n) = true)
    (hact : (headAt rules n d (.seq e₁ e₂) follow).mayAct = false) :
    (headAt rules n d e₁ (headAt rules n d e₂ follow).chars).mayAct = false ∧
      ((headAt rules n d e₁ (headAt rules n d e₂ follow).chars).needsChar = true ∨
        (headAt rules n d e₂ follow).mayAct = false) := by
  simp only [headAt, head, h, if_true] at hact ⊢
  split at hact
  · next hneeds =>
    refine ⟨?_, .inl hneeds⟩
    rw [Head.needsChar, Bool.and_eq_true, Bool.not_eq_true', Bool.not_eq_true'] at hneeds
    exact hneeds.2
  · split at hact
    · cases hact
    · next hacts =>
      rw [Bool.not_eq_true, Bool.or_eq_false_iff] at hacts
      exact ⟨hacts.1, .inr hacts.2⟩

theorem seq_fail_first (h : AsksByHead S rules e₁ pos t) :
    AsksByHead S rules (.seq e₁ e₂) pos t := by
  intro n d follow
  cases hnull : e₁.nullable (unfold true false (nullableRules rules) n) with
  | false =>
    rw [headAt, head_seq_of_not_nullable hnull]
    exact h n d .full
  | true =>
    rw [headAt, head_seq_chars hnull]
    exact ⟨fun hpos hact => (h n d _).1 hpos (mayAct_of_headAt_seq hnull hact).1, (h n d _).2⟩

/-- Only what consumes nothing leads to the second part of a sequence whose head rules it out. -/
theorem seq (hS : S.Closed) (h : Eval S rules e₁ pos t₁ (.matched mid fs))
    (hr : fittedRules rules) (he : e₁.fitted) (h₁ : AsksByHead S rules e₁ pos t₁)
    (h₂ : mid = pos → AsksByHead S rules e₂ mid t₂) :
    AsksByHead S rules (.seq e₁ e₂) pos (t₁ ++ t₂) := by
  intro n d follow
  cases hnull : e₁.nullable (unfold true false (nullableRules rules) n) with
  | false =>
    have hne : mid ≠ pos := by
      rintro rfl
      rw [h.nullable hS hr he n] at hnull
      cases hnull
    rw [headAt, head_seq_of_not_nullable hnull]
    exact ⟨fun hpos _ => absurd (h.stays_of_size_le hS hr he hpos) hne,
      fun _ hc hn => absurd (h.stays_of_not_headAt hS hr he hc hn).1 hne⟩
  | true =>
    rw [headAt, head_seq_chars hnull]
    refine ⟨fun hpos hact => ?_, fun c hc hn => ?_⟩
    · obtain ⟨hact₁, hact₂⟩ := mayAct_of_headAt_seq hnull hact
      obtain rfl := h.stays_of_size_le hS hr he hpos
      rw [(h₁ n d _).1 hpos hact₁]
      rcases hact₂ with hneeds | hact₂
      · exact absurd ((h.head_aux hS hr he _ _ rfl n d _).1 hneeds) (Nat.not_lt.2 hpos)
      · exact (h₂ rfl n d follow).1 hpos hact₂
    · obtain ⟨rfl, hn₂⟩ := h.stays_of_not_headAt hS hr he hc hn
      rw [(h₁ n d _).2 c hc hn]
      exact (h₂ rfl n d follow).2 c hc hn₂

theorem star (hact : (e.headIn rules .full).mayAct = false) (h : AsksByHead S rules e pos t) :
    AsksByHead S rules (.star e) pos t := by
  refine fun n d follow => ⟨fun hpos _ => (h _ _ .full).1 hpos hact, fun c hc hn => ?_⟩
  simp only [headAt, head, Head.emptyOr, CharSet.contains_union, Bool.or_eq_false_iff] at hn
  exact (h n d follow).2 c hc hn.1

theorem action_fail {a : α} (h : AsksByHead S rules e pos t) :
    AsksByHead S rules (.action a e) pos t := by
  refine fun n d follow => ⟨fun hpos hact => ?_, (h n d .full).2⟩
  simp only [headAt, head, Bool.or_eq_false_iff] at hact
  exact (h n d .full).1 hpos hact.2

/-- No head rules out an action whose expression matches. -/
theorem action {a : α} (hS : S.Closed) (h : Eval S rules e pos t (.matched stop fs))
    (hr : fittedRules rules) (he : e.fitted) :
    AsksByHead S rules (.action a e) pos (t ++ [⟨a, pos, stop⟩]) := by
  refine fun n d follow => ⟨fun hpos hact => ?_, fun c hc hn => ?_⟩
  · simp only [headAt, head, Bool.or_eq_false_iff] at hact
    have hneeds : (headAt rules n d e .full).needsChar = true := by
      simp only [Head.needsChar, headAt, hact.1, hact.2]
      rfl
    exact absurd ((h.head_aux hS hr he _ _ rfl n d _).1 hneeds) (Nat.not_lt.2 hpos)
  · have hfull := (h.stays_of_not_headAt hS hr he hc hn).2
    rw [CharSet.contains_full_char] at hfull
    cases hfull

end AsksByHead

/-- Where the first part consumes nothing, a sequence is candid only if its second part is. -/
theorem candidAt_second (hS : S.Closed) {e₁ e₂ : Expr α}
    (h : Eval S rules e₁ pos t (.matched pos fs)) (hr : fittedRules rules) (he : e₁.fitted)
    {d : Nat} (hc : candidAt rules d (.seq e₁ e₂) = true) : candidAt rules d e₂ = true := by
  rw [candidAt, candid, nullableIn, h.nullable hS hr he, Bool.and_eq_true] at hc
  exact hc.2

theorem Eval.asksByHead (hS : S.Closed) (h : Eval S rules e pos t r) :
    fittedRules rules → e.fitted → ∀ k, candidAt rules k e = true →
      AsksByHead S rules e pos t := by
  induction h with
  | class_ok | class_fail | empty | fail | behind_short => exact fun _ _ _ _ => .nil
  | @seq_fail_first rules e₁ e₂ _ _ _ ih =>
    intro hr hf k hc
    rw [candidAt, candid, Bool.and_eq_true] at hc
    exact (ih hr hf.1 k hc.1).seq_fail_first
  | @seq_ok rules e₁ e₂ pos mid stop _ _ _ _ h₁ _ ih₁ ih₂
  | @seq_fail_second rules e₁ e₂ pos mid _ _ _ h₁ _ ih₁ ih₂ =>
    intro hr hf k hc
    have hc₁ : candidAt rules k e₁ = true := ((Bool.and_eq_true _ _).mp hc).1
    refine .seq hS h₁ hr hf.1 (ih₁ hr hf.1 k hc₁) ?_
    rintro rfl
    exact ih₂ hr hf.2 k (candidAt_second hS h₁ hr hf.1 hc)
  | choice_first _ ih =>
    intro hr hf k hc
    rw [candidAt, candid, Bool.and_eq_true] at hc
    exact (ih hr hf.1 k hc.1).choice_first
  | choice_second _ _ ih₁ ih₂ =>
    intro hr hf k hc
    rw [candidAt, candid, Bool.and_eq_true] at hc
    exact (ih₁ hr hf.1 k hc.1).choice_first.append (ih₂ hr hf.2 k hc.2).choice_second
  | star_done _ ih =>
    intro hr hf k hc
    rw [candidAt, candid, Bool.and_eq_true, Bool.not_eq_true'] at hc
    exact (ih hr hf k hc.1).star hc.2
  | @star_more rules e pos mid stop _ _ _ _ h₁ h₂ ih₁ ih₂ =>
    intro hr hf k hc
    by_cases hstop : stop = pos
    · have hmid : mid = pos := by
        have := h₁.forward hS hr hf
        have := h₂.forward hS hr hf
        omega
      subst hmid
      have hrest := ih₂ hr hf k hc
      rw [candidAt, candid, Bool.and_eq_true, Bool.not_eq_true'] at hc
      exact ((ih₁ hr hf k hc.1).star hc.2).append hrest
    · exact .of_consumes hS (.star_more h₁ h₂) hr hf hstop
  | not_ok h | not_fail h | and_ok h | and_fail h | behind _ h =>
    intro _ _ k hc
    rw [candidAt, candid, Bool.not_eq_true'] at hc
    rw [h.asked_eq_nil hS hc]
    exact .nil
  | action_ok h | action_refused h => exact fun hr hf _ _ => .action hS h hr hf
  | action_fail _ ih => exact fun hr hf k hc => (ih hr hf k hc).action_fail
  | openCall ho => exact absurd ho (hS _ _ _ _)
  | ruleCall hrule _ ih =>
    intro hr _ k hc
    cases k with
    | zero => cases hc
    | succ k =>
      rw [candidAt_ruleCall hrule] at hc
      have hbody := ih hr (hr.body hrule) k hc
      intro n d follow
      cases d with
      | zero =>
        refine ⟨fun _ hact => (by cases hact), fun c _ hn => ?_⟩
        exact absurd hn (by simp [headAt, head, headCall, unfold, Head.unknown])
      | succ d =>
        rw [headAt_ruleCall hrule]
        exact hbody n d follow
  | grammar hentry _ ih =>
    intro _ hf k hc
    rw [candidAt_grammar hentry] at hc
    intro n d follow
    rw [headAt_grammar hentry]
    exact ih hf (fittedRules.body hf hentry) _ hc _ _ follow

/-- **Nothing is asked before a character that is not in the head**, if the head is candid. -/
theorem Eval.asked_eq_nil_of_not_head (hS : S.Closed) (h : Eval S rules e pos t r)
    (hr : fittedRules rules) (he : e.fitted) (hcandid : e.candidIn rules = true) {follow : CharSet}
    {c : Char} (hc : S.subject[pos]? = some c)
    (hn : (e.headIn rules follow).chars.contains c.toNat = false) : t = [] :=
  (h.asksByHead hS hr he _ hcandid _ _ follow).2 c hc hn

/-- **Nothing is asked where the test for the head fails**, if the head is candid. -/
theorem Eval.asked_eq_nil_of_needsChar (hS : S.Closed) (h : Eval S rules e pos t r)
    (hr : fittedRules rules) (he : e.fitted) (hcandid : e.candidIn rules = true) {follow : CharSet}
    (hneeds : (e.headIn rules follow).needsChar = true)
    (hn : ∀ c, S.subject[pos]? = some c →
      (e.headIn rules follow).chars.contains c.toNat = false) : t = [] := by
  cases hc : S.subject[pos]? with
  | none =>
    rw [Head.needsChar, Bool.and_eq_true, Bool.not_eq_true', Bool.not_eq_true'] at hneeds
    exact (h.asksByHead hS hr he _ hcandid _ _ follow).1 (Array.getElem?_eq_none_iff.1 hc) hneeds.2
  | some c => exact h.asked_eq_nil_of_not_head hS hr he hcandid hc (hn c hc)

end PegMachine
