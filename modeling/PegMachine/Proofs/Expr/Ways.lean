import PegMachine.Proofs.Expr.Leading

/-!
# Ways through an expression

`Eval` says what matching an expression comes to, and for that it keeps apart what matches from what
fails.  Much of what is to be known about a match does not need the difference.  `Way` only says
where a match might end, and with which actions: a choice may take either alternative, a repetition
may stop after any round, an action may answer anything that it is allowed to, and of a class it
matters only that it consumes a character.  So there are more ways than matches (`Eval.way`), and
there are ways through expressions that have no result at all.

* `Way.le` — a way does not lead back, and `Way.eq_of_fixedLength` says how far it leads if the
  expression has a fixed length.
* `Way.nullable` — what a way leads through without consuming anything may be empty.
* `Way.fired_eq_nil` — without actions in reach there are none on the way.
* `Way.orderly` — the actions on a way lie side by side or inside each other.

The same then holds of matches: `Eval.forward`, `Eval.stop_of_fixedLength`, `Eval.nullable` and
`Eval.fired_eq_nil`.  Nothing is said of open calls, so these facts are about settings in which open
calls mean nothing (`Setting.Closed`).
-/

set_option autoImplicit false

namespace PegMachine

open PegMachine.Expr

variable {α : Type}

/-- `Way subject start rules e p q fs`: in a match that started at `start`, the expression might
match from `p` to `q`, with the actions `fs` in it. -/
inductive Way (subject : Array Char) (start : Nat) :
    List (Rule α) → Expr α → Nat → Nat → List (Firing α) → Prop
  | class {rules e p s} : e.class? = some s → p < subject.size →
      Way subject start rules e p (p + 1) []
  | empty {rules p} : Way subject start rules .empty p p []
  | seq {rules e₁ e₂ p m q fs₁ fs₂} : Way subject start rules e₁ p m fs₁ →
      Way subject start rules e₂ m q fs₂ → Way subject start rules (.seq e₁ e₂) p q (fs₁ ++ fs₂)
  | choice_first {rules e₁ e₂ p q fs} : Way subject start rules e₁ p q fs →
      Way subject start rules (.choice e₁ e₂) p q fs
  | choice_second {rules e₁ e₂ p q fs} : Way subject start rules e₂ p q fs →
      Way subject start rules (.choice e₁ e₂) p q fs
  | star_done {rules e p} : Way subject start rules (.star e) p p []
  | star_more {rules e p m q fs₁ fs₂} : Way subject start rules e p m fs₁ →
      Way subject start rules (.star e) m q fs₂ →
      Way subject start rules (.star e) p q (fs₁ ++ fs₂)
  | not {rules e p} : Way subject start rules (.not e) p p []
  | and {rules e p q fs} : Way subject start rules e p q fs →
      Way subject start rules (.and e) p p []
  | behind {rules width e p q fs} : width ≤ p - start →
      Way subject start rules e (p - width) q fs →
      Way subject start rules (.behind width e) p q fs
  | action {rules a e p m q fs} : Way subject start rules e p m fs → m ≤ q → q ≤ subject.size →
      Way subject start rules (.action a e) p q (⟨a, p, q⟩ :: fs)
  | ruleCall {rules i rule p q fs} : rules[i]? = some rule →
      Way subject start rules rule.body p q fs → Way subject start rules (.ruleCall i) p q fs
  | grammar {rules inner entry p q fs} : inner[0]? = some entry →
      Way subject start inner entry.body p q fs → Way subject start rules (.grammar inner) p q fs

variable {subject : Array Char} {start : Nat} {rules : List (Rule α)} {e : Expr α} {p q : Nat}
  {fs : List (Firing α)}

namespace Way

/-! ## How far a way leads -/

theorem le_aux (h : Way subject start rules e p q fs) : fittedRules rules → e.fitted →
    p ≤ q ∧ ∀ b d n, e.fixedLength b (unfoldLength (fixedLengthRules rules) d) = some n →
      q = p + n ∧ fs = [] := by
  induction h with
  | «class» he =>
    refine fun _ _ => ⟨Nat.le_succ _, fun b d n hn => ?_⟩
    rw [fixedLength_of_class? he] at hn
    cases hn
    exact ⟨rfl, rfl⟩
  | seq _ _ ih₁ ih₂ =>
    intro hr hf
    obtain ⟨h₁, hl₁⟩ := ih₁ hr hf.1
    obtain ⟨h₂, hl₂⟩ := ih₂ hr hf.2
    refine ⟨Nat.le_trans h₁ h₂, fun b d n hn => ?_⟩
    rw [fixedLength] at hn
    split at hn
    · cases hn
    · next m hm =>
      obtain ⟨k, hk, rfl⟩ := Option.map_eq_some_iff.1 hn
      obtain ⟨rfl, rfl⟩ := hl₁ b d m hm
      obtain ⟨rfl, rfl⟩ := hl₂ b d k hk
      exact ⟨Nat.add_assoc _ _ _, rfl⟩
  | choice_first _ ih =>
    intro hr hf
    obtain ⟨h, hl⟩ := ih hr hf.1
    refine ⟨h, fun b d n hn => ?_⟩
    rw [fixedLength] at hn
    split at hn
    · cases hn
    · next m hm =>
      split at hn
      · cases hn
        exact hl b d _ hm
      · cases hn
  | choice_second _ ih =>
    intro hr hf
    obtain ⟨h, hl⟩ := ih hr hf.2
    refine ⟨h, fun b d n hn => ?_⟩
    rw [fixedLength] at hn
    split at hn
    · cases hn
    · split at hn
      · next hm =>
        cases hn
        exact hl b d _ hm
      · cases hn
  | star_done => exact fun _ _ => ⟨Nat.le_refl _, fun b d n hn => by cases hn⟩
  | star_more _ _ ih₁ ih₂ =>
    intro hr hf
    have h₁ := (ih₁ hr hf).1
    have h₂ := (ih₂ hr hf).1
    exact ⟨Nat.le_trans h₁ h₂, fun b d n hn => by cases hn⟩
  | empty | not | and =>
    exact fun _ _ => ⟨Nat.le_refl _, fun b d n hn => by cases hn; exact ⟨rfl, rfl⟩⟩
  | @behind rules width e p q fs hw _ ih =>
    intro hr hf
    -- the body is as long as the lookbehind is wide, so the way ends where it started
    have hlen : e.fixedLength maxCallDepth (unfoldLength (fixedLengthRules rules) 0)
        = some width := by
      rw [unfoldLength_zero]
      exact hf.1
    obtain ⟨hq, hfs⟩ := (ih hr hf.2).2 _ _ _ hlen
    have hq : q = p := by omega
    exact ⟨Nat.le_of_eq hq.symm, fun b d n hn => by cases hn; exact ⟨hq, hfs⟩⟩
  | action _ hle _ ih =>
    intro hr hf
    exact ⟨Nat.le_trans (ih hr hf).1 hle, fun b d n hn => by cases hn⟩
  | ruleCall hrule _ ih =>
    intro hr _
    obtain ⟨h, hl⟩ := ih hr (hr.body hrule)
    refine ⟨h, fun b d n hn => ?_⟩
    cases d with
    | zero => cases hn
    | succ d =>
      rw [fixedLength, unfoldLength_succ (fixedLengthRules_get hrule)] at hn
      exact hl _ _ _ hn
  | grammar hentry _ ih =>
    intro _ hf
    obtain ⟨h, hl⟩ := ih hf (fittedRules.body hf hentry)
    refine ⟨h, fun b d n hn => ?_⟩
    rw [fixedLength_grammar hentry] at hn
    exact hl _ _ _ hn

/-- **A way does not lead back.** -/
theorem le (h : Way subject start rules e p q fs) (hr : fittedRules rules) (he : e.fitted) :
    p ≤ q :=
  (h.le_aux hr he).1

/-- **Through an expression of fixed length, all ways lead that far on**, and there are no actions
on them. -/
theorem eq_of_fixedLength (h : Way subject start rules e p q fs) (hr : fittedRules rules)
    (he : e.fitted) {n : Nat} (hn : e.fixedLengthIn rules = some n) : q = p + n ∧ fs = [] :=
  (h.le_aux hr he).2 _ _ _ hn

/-- A way does not lead out of the subject, nor further on from outside of it. -/
theorem le_max (h : Way subject start rules e p q fs) : q ≤ max p subject.size := by
  induction h with
  | «class» | seq | star_more | behind | action => omega
  | empty | star_done | not | and => exact Nat.le_max_left _ _
  | choice_first _ ih | choice_second _ ih | ruleCall _ _ ih | grammar _ _ ih => exact ih

theorem le_size (h : Way subject start rules e p q fs) (hp : p ≤ subject.size) :
    q ≤ subject.size :=
  Nat.max_eq_right hp ▸ h.le_max

/-! ## Consuming nothing -/

theorem nullable_aux (h : Way subject start rules e p q fs) : fittedRules rules → e.fitted →
    q ≤ p → Nullable rules e := by
  induction h with
  | «class» => omega
  | empty => exact fun _ _ _ => .empty
  | seq h₁ h₂ ih₁ ih₂ =>
    intro hr hf hle
    have hle₁ := h₁.le hr hf.1
    have hle₂ := h₂.le hr hf.2
    exact .seq (ih₁ hr hf.1 (by omega)) (ih₂ hr hf.2 (by omega))
  | choice_first _ ih => exact fun hr hf hle => .choice_first (ih hr hf.1 hle)
  | choice_second _ ih => exact fun hr hf hle => .choice_second (ih hr hf.2 hle)
  | star_done | star_more => exact fun _ _ _ => .star
  | not => exact fun _ _ _ => .not
  | and => exact fun _ _ _ => .and
  | behind => exact fun _ _ _ => .behind
  | action h hmid _ ih => exact fun hr hf hle => .action (ih hr hf (by omega))
  | ruleCall hrule _ ih => exact fun hr _ hle => .ruleCall hrule (ih hr (hr.body hrule) hle)
  | grammar hentry _ ih =>
    exact fun _ hf hle => .grammar hentry (ih hf (fittedRules.body hf hentry) hle)

/-- **What a way leads through without consuming anything may be empty.** -/
theorem nullable (h : Way subject start rules e p p fs) (hr : fittedRules rules) (he : e.fitted) :
    Nullable rules e :=
  h.nullable_aux hr he (Nat.le_refl p)

end Way

/-! ## Actions -/

namespace Expr

/-- A set of rules in which no action is written, and from which calls do not lead out. -/
def Quiet (rules : List (Rule α)) (V : Nat → Prop) : Prop :=
  ∀ i, V i → ∀ r, rules[i]? = some r → writesAction r.body = false ∧ ∀ j ∈ calls r.body, V j

theorem writesActionRules_eq_false {rules : List (Rule α)} (h : writesActionRules rules = false)
    {i : Nat} {r : Rule α} (hr : rules[i]? = some r) : writesAction r.body = false := by
  induction rules generalizing i with
  | nil => cases hr
  | cons x rest ih =>
    obtain ⟨name, body⟩ := x
    rw [writesActionRules, Bool.or_eq_false_iff] at h
    cases i with
    | zero => cases hr; exact h.1
    | succ i => exact ih h.2 hr

/-- If the search finds no action, what it goes through is a set that holds the rules that are due
and, but for the rules seen before, writes no action and is not left by calls. -/
theorem exists_quiet_of_actionReached {rules : List (Rule α)} {steps : Nat} {due seen : List Nat}
    (h : actionReached rules steps due seen = false) :
    ∃ V : Nat → Prop, (∀ i ∈ due, V i) ∧ (∀ i ∈ seen, V i) ∧
      ∀ i, V i → i ∉ seen → ∀ r, rules[i]? = some r →
        writesAction r.body = false ∧ ∀ j ∈ calls r.body, V j := by
  induction steps generalizing due seen with
  | zero =>
    cases due with
    | nil => exact ⟨(· ∈ seen), by simp, fun _ h => h, fun i h h' => absurd h h'⟩
    | cons i due => simp [actionReached] at h
  | succ steps ih =>
    cases due with
    | nil => exact ⟨(· ∈ seen), by simp, fun _ h => h, fun i h h' => absurd h h'⟩
    | cons i due =>
      rw [actionReached] at h
      split at h
      · next hseen =>
        obtain ⟨V, h₁, h₂, h₃⟩ := ih h
        exact ⟨V, by simpa using ⟨h₂ i hseen, h₁⟩, h₂, h₃⟩
      · split at h
        · next hnone =>
          -- there is no such rule, so it can be added to the set
          obtain ⟨V, h₁, h₂, h₃⟩ := ih h
          refine ⟨fun k => k = i ∨ V k, by simpa using fun k hk => .inr (h₁ k hk),
            fun k hk => .inr (h₂ k hk), ?_⟩
          rintro k (rfl | hk) hns r hr
          · rw [hnone] at hr
            cases hr
          · obtain ⟨hw, hc⟩ := h₃ k hk hns r hr
            exact ⟨hw, fun j hj => .inr (hc j hj)⟩
        · next r hr =>
          rw [Bool.or_eq_false_iff] at h
          obtain ⟨V, h₁, h₂, h₃⟩ := ih h.2
          refine ⟨V, fun k hk => ?_, fun k hk => h₂ k (List.mem_cons_of_mem i hk), ?_⟩
          · rcases List.mem_cons.1 hk with rfl | hk
            · exact h₂ k (by simp)
            · exact h₁ k (List.mem_append_right _ hk)
          · intro k hk hns r' hr'
            by_cases hki : k = i
            · subst hki
              rw [hr] at hr'
              cases hr'
              exact ⟨h.1, fun j hj => h₁ j (List.mem_append_left _ hj)⟩
            · exact h₃ k hk (by simpa using ⟨hki, hns⟩) r' hr'

end Expr

theorem Way.fired_aux (h : Way subject start rules e p q fs) :
    ∀ V, Quiet rules V → e.writesAction = false → (∀ j ∈ e.calls, V j) → fs = [] := by
  induction h with
  | seq _ _ ih₁ ih₂ =>
    intro V hV hw hc
    rw [writesAction, Bool.or_eq_false_iff] at hw
    simp only [calls, List.forall_mem_append] at hc
    rw [ih₁ V hV hw.1 hc.1, ih₂ V hV hw.2 hc.2]
    rfl
  | choice_first _ ih =>
    intro V hV hw hc
    rw [writesAction, Bool.or_eq_false_iff] at hw
    simp only [calls, List.forall_mem_append] at hc
    exact ih V hV hw.1 hc.1
  | choice_second _ ih =>
    intro V hV hw hc
    rw [writesAction, Bool.or_eq_false_iff] at hw
    simp only [calls, List.forall_mem_append] at hc
    exact ih V hV hw.2 hc.2
  | star_more _ _ ih₁ ih₂ =>
    intro V hV hw hc
    rw [ih₁ V hV hw hc, ih₂ V hV hw hc]
    rfl
  | behind _ _ ih => exact ih
  | action => exact fun _ _ hw => by cases hw
  | ruleCall hrule _ ih =>
    intro V hV _ hc
    obtain ⟨hw, hc'⟩ := hV _ (hc _ (by simp [calls])) _ hrule
    exact ih V hV hw hc'
  | @grammar _ inner entry _ _ _ hentry _ ih =>
    intro V hV hw _
    rw [writesAction] at hw
    have hall : Quiet inner fun _ => True :=
      fun i _ r hr => ⟨writesActionRules_eq_false hw hr, fun _ _ => trivial⟩
    exact ih _ hall (writesActionRules_eq_false hw hentry) (fun _ _ => trivial)
  | _ => exact fun _ _ _ _ => rfl

/-- **Without actions in reach, there are none on the way.** -/
theorem Way.fired_eq_nil (h : Way subject start rules e p q fs)
    (ha : e.hasActionsIn rules = false) : fs = [] := by
  rw [hasActionsIn, Bool.or_eq_false_iff] at ha
  obtain ⟨V, h₁, -, h₃⟩ := exists_quiet_of_actionReached ha.2
  exact h.fired_aux V (fun i hi r hr => h₃ i hi (by simp) r hr) ha.1 h₁

/-! ## How the actions lie -/

/-- The second action starts no earlier than the first, and lies inside of it or behind it. -/
def Firing.Before (f g : Firing α) : Prop :=
  f.start ≤ g.start ∧ (g.stop ≤ f.stop ∨ f.stop ≤ g.start)

/-- The actions lie between two positions, in the order in which they start, and each two of them
side by side or inside each other. -/
structure Orderly (lo hi : Nat) (fs : List (Firing α)) : Prop where
  bounds : ∀ f ∈ fs, lo ≤ f.start ∧ f.start ≤ f.stop ∧ f.stop ≤ hi
  before : fs.Pairwise Firing.Before

namespace Orderly

variable {lo mid hi : Nat} {gs : List (Firing α)}

theorem nil : Orderly lo hi ([] : List (Firing α)) := ⟨List.forall_mem_nil _, .nil⟩

theorem append (h : Orderly lo mid fs) (h' : Orderly mid hi gs) (hlo : lo ≤ mid)
    (hhi : mid ≤ hi) : Orderly lo hi (fs ++ gs) where
  bounds f hf := by
    rcases List.mem_append.1 hf with hf | hf
    · have := h.bounds f hf
      omega
    · have := h'.bounds f hf
      omega
  before := by
    refine List.pairwise_append.2 ⟨h.before, h'.before, fun f hf g hg => ?_⟩
    have := h.bounds f hf
    have := h'.bounds g hg
    exact ⟨by omega, .inr (by omega)⟩

/-- Around actions there may be another one. -/
theorem cons (h : Orderly lo mid fs) (hlo : lo ≤ mid) (hhi : mid ≤ hi) (a : α) :
    Orderly lo hi (⟨a, lo, hi⟩ :: fs) where
  bounds := by
    refine List.forall_mem_cons.2 ⟨⟨Nat.le_refl _, Nat.le_trans hlo hhi, Nat.le_refl _⟩, ?_⟩
    intro f hf
    have := h.bounds f hf
    omega
  before := by
    refine List.pairwise_cons.2 ⟨fun f hf => ?_, h.before⟩
    have := h.bounds f hf
    exact ⟨this.1, .inl (Nat.le_trans this.2.2 hhi)⟩

end Orderly

/-- **The actions on a way lie side by side or inside each other**, in the order in which they
start. -/
theorem Way.orderly (h : Way subject start rules e p q fs) (hr : fittedRules rules)
    (he : e.fitted) : Orderly p q fs := by
  induction h with
  | seq h₁ h₂ ih₁ ih₂ =>
    exact (ih₁ hr he.1).append (ih₂ hr he.2) (h₁.le hr he.1) (h₂.le hr he.2)
  | star_more h₁ h₂ ih₁ ih₂ =>
    exact (ih₁ hr he).append (ih₂ hr he) (h₁.le hr he) (h₂.le hr he)
  | choice_first _ ih => exact ih hr he.1
  | choice_second _ ih => exact ih hr he.2
  | behind _ h =>
    -- what is of fixed length has no actions in it
    obtain ⟨-, rfl⟩ := (h.le_aux hr he.2).2 _ 0 _ (by rw [unfoldLength_zero]; exact he.1)
    exact .nil
  | action h hle _ ih => exact (ih hr he).cons (h.le hr he) hle _
  | ruleCall hrule _ ih => exact ih hr (hr.body hrule)
  | grammar hentry _ ih => exact ih he (fittedRules.body he hentry)
  | _ => exact .nil

/-! ## Matches are ways -/

/-- Open calls have no meaning. -/
def Setting.Closed (S : Setting α) : Prop := ∀ i pos t r, ¬ S.opened i pos t r

theorem Setting.closed (subject : Array Char) (start : Nat) (answer : α → Nat → Nat → Option Nat) :
    Setting.Closed { subject, start, answer } :=
  fun _ _ _ _ => not_false

variable {S : Setting α} {pos stop : Nat} {t : List (Firing α)} {r : Result α}

theorem Eval.way_aux (hS : S.Closed) (h : Eval S rules e pos t r) :
    ∀ stop fs, r = .matched stop fs → Way S.subject S.start rules e pos stop fs := by
  induction h with
  | class_ok he hc =>
    rintro _ _ ⟨⟩
    exact .class he (Array.getElem?_eq_some_iff.1 hc).1
  | empty =>
    rintro _ _ ⟨⟩
    exact .empty
  | seq_ok _ _ ih₁ ih₂ =>
    rintro _ _ ⟨⟩
    exact .seq (ih₁ _ _ rfl) (ih₂ _ _ rfl)
  | choice_first _ ih =>
    rintro _ _ ⟨⟩
    exact .choice_first (ih _ _ rfl)
  | choice_second _ _ _ ih => exact fun stop fs heq => .choice_second (ih stop fs heq)
  | star_done =>
    rintro _ _ ⟨⟩
    exact .star_done
  | star_more _ _ ih₁ ih₂ =>
    rintro _ _ ⟨⟩
    exact .star_more (ih₁ _ _ rfl) (ih₂ _ _ rfl)
  | not_ok =>
    rintro _ _ ⟨⟩
    exact .not
  | and_ok _ ih =>
    rintro _ _ ⟨⟩
    exact .and (ih _ _ rfl)
  | behind hw _ ih => exact fun stop fs heq => .behind hw (ih stop fs heq)
  | action_ok _ _ hmid hstop ih =>
    rintro _ _ ⟨⟩
    exact .action (ih _ _ rfl) hmid hstop
  | openCall ho => exact absurd ho (hS _ _ _ _)
  | ruleCall hrule _ ih => exact fun stop fs heq => .ruleCall hrule (ih stop fs heq)
  | grammar hentry _ ih => exact fun stop fs heq => .grammar hentry (ih stop fs heq)
  | _ => rintro _ _ ⟨⟩

/-- **A match is a way through the expression.** -/
theorem Eval.way (hS : S.Closed) (h : Eval S rules e pos t (.matched stop fs)) :
    Way S.subject S.start rules e pos stop fs :=
  h.way_aux hS _ _ rfl

/-- **A match ends no earlier than it started**, and if the expression has a fixed length, that far
on. -/
theorem Eval.forward (hS : S.Closed) (h : Eval S rules e pos t (.matched stop fs))
    (hr : fittedRules rules) (he : e.fitted) : pos ≤ stop :=
  (h.way hS).le hr he

theorem Eval.stop_of_fixedLength (hS : S.Closed) (h : Eval S rules e pos t (.matched stop fs))
    (hr : fittedRules rules) (he : e.fitted) {n : Nat} (hn : e.fixedLengthIn rules = some n) :
    stop = pos + n :=
  ((h.way hS).eq_of_fixedLength hr he hn).1

/-- **What matches without consuming anything may be empty**, to whatever depth calls are
unfolded. -/
theorem Eval.nullable (hS : S.Closed) (h : Eval S rules e pos t (.matched pos fs))
    (hr : fittedRules rules) (he : e.fitted) (d : Nat) :
    e.nullable (unfold true false (nullableRules rules) d) = true :=
  ((h.way hS).nullable hr he).nullable d

/-- **Without actions in reach, no actions are part of a match.** -/
theorem Eval.fired_eq_nil (hS : S.Closed) (h : Eval S rules e pos t (.matched stop fs))
    (ha : e.hasActionsIn rules = false) : fs = [] :=
  (h.way hS).fired_eq_nil ha

end PegMachine
