import PegMachine.Proofs.Code.Reuse
import PegMachine.Proofs.Code.Skipping
import PegMachine.Proofs.Code.Tests

/-!
# The code of expressions does what they mean

Code laid out for an expression is right if running it ends a match in the same way as what comes
after the code would, given how the expression comes out (`Ending.Right`).  What has to be known of
what comes after depends on the result.

* If the expression fails, it is that failing leads to the right end.
* If it matches, it is that going on behind the code does (`Goes.onward`).
* The code may also fail in spite of the match, for the next character is not in the follow set and
  nothing that follows could match there.  So failing has to lead to the right end as well if that
  is so (`Goes.follow`).
* Where the code may move up the frame on top, it may also leave by failing, and what it finds on
  top when it goes on need not be what was there before (`Goes.reused`).

What comes after is told of the state with all the questions heard that the expression asks.  If
they make a difference, code must not leave out any of them.

There is a lemma `right_…` for each kind of expression and each way in which it can come out, and
`Ending.right` puts them together by induction on the evaluation.  A repetition that keeps a frame
for its rounds needs a statement of its own about the code from the second round on, `Ending.Loops`.
-/

set_option autoImplicit false

namespace PegMachine

open PegMachine.Expr State Machine

variable {α σ : Type}

/-- The result of what matches some actions first and then comes out in the given way. -/
def Result.preceded (fs : List (Firing α)) : Result α → Result α
  | .failed => .failed
  | .matched stop gs => .matched stop (fs ++ gs)

namespace Ending

/-- What is known of what comes after code that ends at `fin`, for an expression that asks `t` and
matches up to `stop`, with the actions `fs`. -/
structure Goes (E : Ending α σ) (reuse : Bool) (follow : CharSet) (fin : Nat) (s : State α σ)
    (t : List (Firing α)) (stop : Nat) (fs : List (Firing α)) : Prop where
  /-- Going on behind the code leads to the right end. -/
  onward : E.From ((E.heard t s).reach fin stop fs)
  /-- So does failing, if the next character cannot follow. -/
  follow : ∀ c, E.subject[stop]? = some c → follow.contains c.toNat = false →
    E.After (E.heard t s).fail
  /-- If the frame on top may be moved up, so does leaving for where it says, and going on behind
  the code with a frame on top that says the same. -/
  reused : reuse = true → ∃ s₀ f, s = State.under s₀ f ∧
    E.From ((E.heard t s₀).reach f.resume stop fs) ∧
    ∀ g : Frame, g.resume = f.resume → g.logged ≤ s₀.log.size + fs.length →
      E.From (((E.heard t s₀).under g).reach fin stop fs)

/-- What is known of what comes after code for an expression that asks `t`, by the result. -/
def Expects (E : Ending α σ) (reuse : Bool) (follow : CharSet) (fin : Nat) (s : State α σ)
    (t : List (Firing α)) : Result α → Prop
  | .failed => E.After (E.heard t s).fail
  | .matched stop fs => E.Goes reuse follow fin s t stop fs

/-- The code from `base` to `fin`, run at the position `pos`, is as good as asking `t` and coming to
the result. -/
def Runs (E : Ending α σ) (reuse : Bool) (follow : CharSet) (base fin pos : Nat)
    (t : List (Firing α)) (r : Result α) : Prop :=
  ∀ s : State α σ, s.Sound → E.Expects reuse follow fin s t r → E.From (s.reach base pos [])

/-- The rules of the enclosing grammar, and where they are in the code. -/
structure HasRules (E : Ending α σ) (rules : List (Rule α)) (starts : List Nat) : Prop where
  placed : RulesPlaced Segment.resolveCalls E.code (Linked E.code starts) rules starts
  fitted : fittedRules rules
  kept : framesKeptRules rules rules = true
  asks : E.Deaf ∨ asksKeptRules rules rules = true

/-- What is asked of the code for an expression, beside being in place. -/
structure Fits (E : Ending α σ) (rules : List (Rule α)) (e : Expr α) (pos : Nat) (reuse : Bool)
    (guard : Option Guard) (follow : CharSet) : Prop where
  fitted : e.fitted
  kept : e.framesKept rules reuse follow = true
  /-- No question is left out that makes a difference. -/
  asks : E.Deaf ∨ e.asksKept rules follow = true
  /-- Where a frame may be moved up, nothing is known of what follows. -/
  full : reuse = true → follow = .full
  guard : Established guard E.subject pos
  /-- The position is not before the start of the match. -/
  start_le : E.start ≤ pos

/-- **The code of an expression is right** for a position where it comes out in the given way. -/
def Right (E : Ending α σ) (rules : List (Rule α)) (e : Expr α) (pos : Nat) (t : List (Firing α))
    (r : Result α) : Prop :=
  ∀ starts, E.HasRules rules starts → ∀ reuse guard follow base,
    E.Fits rules e pos reuse guard follow →
    Placed E.code (Linked E.code starts) base
      (e.emit Segment.resolveCalls rules reuse guard follow base) →
    E.Runs reuse follow base (e.emitEnd Segment.resolveCalls rules reuse guard follow base) pos t r

variable {E : Ending α σ} {s : State α σ} {rules : List (Rule α)} {e e₁ e₂ : Expr α} {reuse : Bool}
  {follow : CharSet} {base fin pos mid stop : Nat} {r : Result α} {t t₁ t₂ fs fs₁ : List (Firing α)}

theorem setting_closed (E : Ending α σ) : E.setting.Closed := fun _ _ _ _ h => h

/-! ## What comes after -/

/-- If anything may follow, no next character keeps the match from going on. -/
theorem not_follow_full {p : Prop} {c : Char} (h : CharSet.full.contains c.toNat = false) : p := by
  rw [CharSet.contains_full_char] at h
  cases h

/-- If anything may follow and no frame may be moved up, it is enough to know how to go on. -/
theorem Goes.plain (h : E.From ((E.heard t s).reach fin stop fs)) :
    E.Goes false .full fin s t stop fs where
  onward := h
  follow _ _ := not_follow_full
  reused h := by cases h

/-- What has been asked already is heard. -/
theorem Expects.heard (h : E.Expects reuse follow fin s (t₁ ++ t₂) r) :
    E.Expects reuse follow fin (E.heard t₁ s) t₂ r := by
  cases r with
  | failed => rwa [Expects, ← heard_append]
  | matched stop gs =>
    obtain ⟨honward, hfollow, hreused⟩ := h
    refine ⟨by rwa [← heard_append], by rwa [← heard_append], fun hr => ?_⟩
    obtain ⟨s₀, f, rfl, hleave, hback⟩ := hreused hr
    exact ⟨E.heard t₁ s₀, f, rfl, by rwa [← heard_append], by rwa [← heard_append]⟩

/-- What comes after a sequence comes after its second part. -/
theorem Expects.reach (hs : s.Sound) {b p : Nat}
    (h : E.Expects reuse follow fin s t (r.preceded fs)) :
    E.Expects reuse follow fin (s.reach b p fs) t r := by
  have hs' := hs.heard E t
  cases r with
  | failed =>
    rw [Expects, heard_reach, State.fail_reach hs']
    exact h
  | matched stop gs =>
    obtain ⟨honward, hfollow, hreused⟩ := h
    refine ⟨by rwa [heard_reach, reach_reach], fun c hc hn => ?_, fun hr => ?_⟩
    · rw [heard_reach, State.fail_reach hs']
      exact hfollow c hc hn
    · obtain ⟨s₀, f, rfl, hleave, hback⟩ := hreused hr
      refine ⟨s₀.reach b p fs, f, rfl, by rwa [heard_reach, reach_reach], fun g hg hlogged => ?_⟩
      rw [size_log_reach] at hlogged
      have := hback g hg (by rw [List.length_append]; omega)
      rwa [heard_reach, ← under_reach, reach_reach]

/-! ## What is left out -/

theorem heard_eq_self (h : E.Deaf ∨ t = []) (s : State α σ) : E.heard t s = s := by
  rcases h with hdeaf | rfl
  · exact hdeaf.heard t s
  · rfl

/-- Where the test for its head fails, an expression need not be tried for what it asks. -/
theorem heard_of_test (h : Eval E.setting rules e pos t r) (hr : fittedRules rules) (he : e.fitted)
    (hasks : E.Deaf ∨ e.testCandid rules = true) (hn : (e.headIn rules .full).needsChar = true)
    (hall : ∀ c, E.subject[pos]? = some c →
      (e.headIn rules .full).chars.contains c.toNat = false) (s : State α σ) :
    E.heard t s = s :=
  heard_eq_self (hasks.imp_right fun htest =>
    h.asked_eq_nil_of_needsChar E.setting_closed hr he (candidIn_of_testCandid htest hn) hn hall) s

/-- Whatever an expression comes out as, the match may fail if the next character is not in its
head, and the head is candid. -/
theorem Expects.fail (h : Eval E.setting rules e pos t r) (hr : fittedRules rules)
    (he : e.fitted) (hasks : E.Deaf ∨ e.candidIn rules = true)
    (hexp : E.Expects reuse follow fin s t r) {c : Char} (hc : E.subject[pos]? = some c)
    (hn : (e.headIn rules follow).chars.contains c.toNat = false) : E.After s.fail := by
  rw [← heard_eq_self (hasks.imp_right fun hcandid =>
    h.asked_eq_nil_of_not_head E.setting_closed hr he hcandid hc hn) s]
  cases r with
  | failed => exact hexp
  | matched stop fs =>
    obtain ⟨rfl, hf⟩ := h.stays_of_not_head E.setting_closed hr he hc hn
    exact hexp.follow c hc hf

/-! ## Expressions without parts -/

theorem right_class_ok {set : CharSet} {c : Char} (he : e.class? = some set)
    (hc : E.subject[pos]? = some c) (hset : set.contains c.toNat = true) :
    E.Right rules e pos [] (.matched (pos + 1) []) := by
  intro starts _ reuse guard follow base hfits hp s _ hexp
  obtain ⟨instr, hemit, hopen, hexec⟩ :=
    exists_emit_of_class? (σ := σ) he Segment.resolveCalls rules reuse guard follow base
  rw [hemit] at hp
  rw [emitEnd, hemit] at hexp
  exact from_consume ((placed_cons.1 hp).1.eq hopen) (hexec _ _ _ _ hfits.guard) hc hset hexp.onward

theorem right_class_fail {set : CharSet} (he : e.class? = some set)
    (hc : ∀ c, E.subject[pos]? = some c → set.contains c.toNat = false) :
    E.Right rules e pos [] .failed := by
  intro starts _ reuse guard follow base hfits hp s hs hexp
  obtain ⟨instr, hemit, hopen, hexec⟩ :=
    exists_emit_of_class? (σ := σ) he Segment.resolveCalls rules reuse guard follow base
  rw [hemit] at hp
  exact from_consume_fail hs ((placed_cons.1 hp).1.eq hopen) (hexec _ _ _ _ hfits.guard) hc hexp

theorem right_empty : E.Right rules .empty pos [] (.matched pos []) := by
  intro starts _ reuse guard follow base _ _ s _ hexp
  exact hexp.onward

theorem right_fail : E.Right rules .fail pos [] .failed := by
  intro starts _ reuse guard follow base _ hp s hs hexp
  simp only [emit, placed_cons] at hp
  exact from_fail hs hp.1 hexp

/-! ## Sequences -/

theorem right_seq (h₁ : Eval E.setting rules e₁ pos t₁ (.matched mid fs₁))
    (ih₁ : E.Right rules e₁ pos t₁ (.matched mid fs₁)) (h₂ : Eval E.setting rules e₂ mid t₂ r)
    (ih₂ : E.Right rules e₂ mid t₂ r) :
    E.Right rules (.seq e₁ e₂) pos (t₁ ++ t₂) (r.preceded fs₁) := by
  intro starts hrules reuse guard follow base hfits hp s hs hexp
  obtain ⟨⟨hf₁, hf₂⟩, hkept, hasks, hfull, hguard, hpos⟩ := hfits
  simp only [framesKept, Bool.and_eq_true] at hkept
  simp only [asksKept, Bool.and_eq_true] at hasks
  simp only [emitEnd, emit, placed_append, List.length_append] at hp hexp
  rw [← Nat.add_assoc] at hexp
  have hle := h₁.forward E.setting_closed hrules.fitted hf₁
  -- what is known about the next character still is if the first part is empty
  have hguard₂ : Established (if e₁.fixedLengthIn rules = some 0 then guard else none) E.subject
      mid := by
    split
    · next hlen =>
      have := h₁.stop_of_fixedLength E.setting_closed hrules.fitted hf₁ hlen
      rwa [this]
    · exact established_none _ _
  have hs₁ := hs.heard E t₁
  have hexp₂ := hexp.heard.reach (b := base) (p := mid) hs₁
  have hrun₂ := ih₂ starts hrules _ _ _ _
    ⟨hf₂, hkept.2, hasks.imp_right (·.2), hfull, hguard₂, Nat.le_trans hpos hle⟩ hp.2
    _ (hs₁.reach _ _ _) hexp₂
  refine ih₁ starts hrules _ _ _ _
    ⟨hf₁, hkept.1, hasks.imp_right (·.1.2), by simp, hguard, hpos⟩ hp.1 s hs
    ⟨by simpa using hrun₂, fun c hc hn => ?_, by simp⟩
  split at hn
  · next huses =>
    have hcandid : E.Deaf ∨ e₂.candidIn rules = true :=
      hasks.imp_right fun h => by simpa [huses] using h.1.1
    have := hexp₂.fail h₂ hrules.fitted hf₂ hcandid hc hn
    rwa [State.fail_reach hs₁] at this
  · exact not_follow_full hn

theorem right_seq_fail_first (ih₁ : E.Right rules e₁ pos t .failed) :
    E.Right rules (.seq e₁ e₂) pos t .failed := by
  intro starts hrules reuse guard follow base hfits hp s hs hexp
  obtain ⟨⟨hf₁, hf₂⟩, hkept, hasks, hfull, hguard, hpos⟩ := hfits
  simp only [framesKept, Bool.and_eq_true] at hkept
  simp only [asksKept, Bool.and_eq_true] at hasks
  simp only [emit, placed_append] at hp
  exact ih₁ starts hrules _ _ _ _
    ⟨hf₁, hkept.1, hasks.imp_right (·.1.2), by simp, hguard, hpos⟩ hp.1 s hs hexp

/-! ## Choices -/

/-- What does not match anywhere but before a character of its head matches where the test for the
head goes on. -/
theorem not_forall_not_head (h : Eval E.setting rules e pos t (.matched stop fs))
    (hr : fittedRules rules) (he : e.fitted) (hn : (e.headIn rules .full).needsChar = true) :
    ¬ ∀ c, E.subject[pos]? = some c → (e.headIn rules .full).chars.contains c.toNat = false := by
  intro hall
  obtain ⟨c, hc, hset⟩ := h.exists_head E.setting_closed hr he hn
  rw [hall c hc] at hset
  cases hset

theorem right_choice_first (h₁ : Eval E.setting rules e₁ pos t (.matched stop fs))
    (ih₁ : E.Right rules e₁ pos t (.matched stop fs)) :
    E.Right rules (.choice e₁ e₂) pos t (.matched stop fs) := by
  intro starts hrules reuse guard follow base hfits hp s hs hexp
  obtain ⟨⟨hf₁, -⟩, hkept, hasks, hfull, -, hpos⟩ := hfits
  have hhead := not_forall_not_head h₁ hrules.fitted hf₁
  rw [framesKept] at hkept
  rw [asksKept, Bool.and_eq_true] at hasks
  cases htold : e₁.toldByNext rules (e₂.headIn rules follow).chars with
  | true =>
    rw [if_pos htold, Bool.and_eq_true] at hkept
    simp only [htold, if_true, Bool.and_eq_true] at hasks
    obtain ⟨other, -, htest, hcode₁, hskip, hcode₂, hpast⟩ := placed_choice_told htold hp
    rw [hpast] at hexp
    refine from_forTest htest (fun c hc hset => ?_)
      fun hall => absurd hall (hhead (needsChar_of_toldByNext htold))
    exact ih₁ starts hrules _ _ _ _
      ⟨hf₁, hkept.1, hasks.imp_right (·.2.1.2), by simp, established_ofSet hc hset, hpos⟩
      hcode₁ s hs ⟨(from_of_jumps hskip).2 hexp.onward, hexp.follow, by simp⟩
  | false =>
    rw [if_neg (by simp [htold])] at hkept
    simp only [htold, Bool.false_eq_true, if_false, Bool.and_eq_true] at hasks
    cases hreuse : reuse && e₂.isEmpty with
    | true =>
      rw [if_pos hreuse] at hkept
      obtain ⟨hmove, hcode₁, hpast⟩ := placed_choice_moved hreuse htold hp
      rw [hpast] at hexp
      rw [Bool.and_eq_true] at hreuse
      obtain ⟨s₀, f, rfl, hleave, hback⟩ := hexp.reused hreuse.1
      refine from_partialCommit hmove ?_
      rw [push_reach]
      exact ih₁ starts hrules _ _ _ _
        ⟨hf₁, hkept, hasks.imp_right (·.2.1), by simp, established_none _ _, hpos⟩ hcode₁ _
        (hs.of_under.push _ _) ⟨hback _ rfl (by simp), fun c _ => not_follow_full,
          fun _ => ⟨s₀, _, rfl, hleave, hback⟩⟩
    | false =>
      rw [if_neg (by simp [hreuse]), Bool.and_eq_true] at hkept
      obtain ⟨first, other, hfirst, -, htest, hchoice, hcode₁, hcommit, hcode₂, hpast⟩ :=
        placed_choice_pushed hreuse htold hp
      rw [hpast] at hexp
      refine from_headTest htest (fun hn => ?_) fun hn hall => absurd hall (hhead hn)
      refine from_choice hchoice ?_
      rw [← hfirst]
      refine ih₁ starts hrules _ _ _ _
        ⟨hf₁, hkept.1, hasks.imp_right (·.2.1), by simp, established_guard hn, hpos⟩ hcode₁ _
        (hs.push _ _)
        ⟨from_commit hcommit hexp.onward, fun c _ => not_follow_full, fun hempty => ?_⟩
      obtain rfl := eq_empty_of_isEmpty hempty
      exact ⟨s, _, rfl, hexp.onward, fun g _ _ => from_commit hcommit hexp.onward⟩

/-- The empty string matches where it is tried, and asks nothing. -/
theorem eq_matched_of_empty (h : Eval E.setting rules .empty pos t r) :
    r = .matched pos [] ∧ t = [] := by
  cases h with
  | empty => exact ⟨rfl, rfl⟩
  | class_ok he => cases he
  | class_fail he => cases he

theorem right_choice_second (h₁ : Eval E.setting rules e₁ pos t₁ .failed)
    (ih₁ : E.Right rules e₁ pos t₁ .failed) (h₂ : Eval E.setting rules e₂ pos t₂ r)
    (ih₂ : E.Right rules e₂ pos t₂ r) : E.Right rules (.choice e₁ e₂) pos (t₁ ++ t₂) r := by
  intro starts hrules reuse guard follow base hfits hp s hs hexp
  obtain ⟨⟨hf₁, hf₂⟩, hkept, hasks, hfull, -, hpos⟩ := hfits
  have hs₁ := hs.heard E t₁
  rw [framesKept] at hkept
  rw [asksKept, Bool.and_eq_true] at hasks
  have hskipped := heard_of_test h₁ hrules.fitted hf₁ (hasks.imp_right (·.1))
  cases htold : e₁.toldByNext rules (e₂.headIn rules follow).chars with
  | true =>
    rw [if_pos htold, Bool.and_eq_true] at hkept
    simp only [htold, if_true, Bool.and_eq_true] at hasks
    obtain ⟨other, -, htest, hcode₁, hskip, hcode₂, hpast⟩ := placed_choice_told htold hp
    rw [hpast] at hexp
    have hexp₂ := hexp.heard
    refine from_forTest htest (fun c hc hset => ?_) fun hall => ?_
    · -- the first alternative is run although it fails, and then the second would not help
      refine ih₁ starts hrules _ _ _ _
        ⟨hf₁, hkept.1, hasks.imp_right (·.2.1.2), by simp, established_ofSet hc hset, hpos⟩
        hcode₁ s hs ?_
      have hcandid : E.Deaf ∨ e₂.candidIn rules = true := by
        refine hasks.imp_right fun h => (Bool.or_eq_true _ _ ▸ h.2.1.1).resolve_left fun hf => ?_
        rw [h₁.not_contains_head_of_headFail hf .full hc] at hset
        cases hset
      exact hexp₂.fail h₂ hrules.fitted hf₂ hcandid hc (h₁.not_others_of_toldByNext htold hc hset)
    · rw [hskipped (needsChar_of_toldByNext htold) hall] at hexp₂
      exact ih₂ starts hrules _ _ _ _
        ⟨hf₂, hkept.2, hasks.imp_right (·.2.2), hfull, established_none _ _, hpos⟩ hcode₂ s hs hexp₂
  | false =>
    rw [if_neg (by simp [htold])] at hkept
    simp only [htold, Bool.false_eq_true, if_false, Bool.and_eq_true] at hasks
    cases hreuse : reuse && e₂.isEmpty with
    | true =>
      rw [if_pos hreuse] at hkept
      obtain ⟨hmove, hcode₁, hpast⟩ := placed_choice_moved hreuse htold hp
      rw [Bool.and_eq_true] at hreuse
      obtain rfl := eq_empty_of_isEmpty hreuse.2
      obtain ⟨rfl, rfl⟩ := eq_matched_of_empty h₂
      rw [List.append_nil] at hexp
      obtain ⟨s₀, f, rfl, hleave, -⟩ := hexp.reused hreuse.1
      refine from_partialCommit hmove ?_
      rw [push_reach]
      refine ih₁ starts hrules _ _ _ _
        ⟨hf₁, hkept, hasks.imp_right (·.2.1), by simp, established_none _ _, hpos⟩ hcode₁ _
        (hs.of_under.push _ _) ?_
      rw [Expects, heard_push, fail_push (hs.of_under.heard E t₁)]
      exact hleave
    | false =>
      rw [if_neg (by simp [hreuse]), Bool.and_eq_true] at hkept
      obtain ⟨first, other, hfirst, -, htest, hchoice, hcode₁, hcommit, hcode₂, hpast⟩ :=
        placed_choice_pushed hreuse htold hp
      rw [hpast] at hexp
      have hsecond : E.From ((E.heard t₁ s).reach other pos []) :=
        ih₂ starts hrules _ _ _ _
          ⟨hf₂, hkept.2, hasks.imp_right (·.2.2), hfull, established_none _ _, hpos⟩ hcode₂ _ hs₁
          hexp.heard
      refine from_headTest htest (fun hn => ?_) fun hn hall => ?_
      · refine from_choice hchoice ?_
        rw [← hfirst]
        refine ih₁ starts hrules _ _ _ _
          ⟨hf₁, hkept.1, hasks.imp_right (·.2.1), by simp, established_guard hn, hpos⟩ hcode₁ _
          (hs.push _ _) ?_
        rw [Expects, heard_push, fail_push hs₁]
        exact hsecond
      · rwa [hskipped hn hall] at hsecond

/-! ## Repetitions -/

/-- Code that leaves the frame on top alone is the same whether or not it may move it up. -/
theorem emit_of_left_alone (hmoves : (reuse && e.movesFrame rules) = false) (guard : Option Guard) :
    e.emit Segment.resolveCalls rules reuse guard .full base
      = e.emit Segment.resolveCalls rules false guard .full base := by
  cases reuse with
  | false => rfl
  | true => exact emit_of_not_movesFrame (by simpa using hmoves) guard base

/-- A class is repeated as long as its characters follow, and asks nothing. -/
theorem eq_matched_of_star_class {set : CharSet} (he : e.class? = some set)
    (h : Eval E.setting rules (star e) pos t r) :
    r = .matched (spanEnd (.ofSet set) E.subject pos) [] ∧ t = [] := by
  have hset : ∀ c : Char, (CharClass.ofSet set).contains c.toNat = set.contains c.toNat :=
    fun c => CharClass.contains_ofSet set (CharSet.val_le_maxCodePoint c)
  generalize hx : star e = x at h
  induction h with
  | class_ok he' => subst hx; cases he'
  | class_fail he' => subst hx; cases he'
  | @star_done _ e' pos _ h _ =>
    cases hx
    refine ⟨?_, h.asked_eq_nil_of_class he⟩
    rw [spanEnd]
    split
    · next hlt =>
      rw [hset, h.not_contains_of_class he (Array.getElem?_eq_getElem hlt), if_neg (by simp)]
    · rfl
  | @star_more _ e' pos mid stop _ _ _ _ h _ _ ih =>
    cases hx
    obtain rfl := h.asked_eq_nil_of_class he
    obtain ⟨rfl, rfl, c, hc, hs⟩ := h.of_class he
    obtain ⟨hlt, rfl⟩ := Array.getElem?_eq_some_iff.1 hc
    have hlt : pos < E.subject.size := hlt
    have hs : set.contains E.subject[pos].toNat = true := hs
    rw [spanEnd, dif_pos hlt, if_pos ((hset _).trans hs)]
    exact ih rfl
  | _ => cases hx

/-- The code for the rounds of a repetition that keeps a frame is right, once that frame is on top:
it leads to where the frame does, behind the last round. -/
def Loops (E : Ending α σ) (rules : List (Rule α)) (e : Expr α) (pos : Nat) (t : List (Firing α))
    (stop : Nat) (fs : List (Firing α)) : Prop :=
  ∀ starts, E.HasRules rules starts → ∀ first, E.Fits rules e pos false none .full →
    Placed E.code (Linked E.code starts) first
      (e.emit Segment.resolveCalls rules false none .full first) →
    E.code[e.emitEnd Segment.resolveCalls rules false none .full first]?
      = some (.partialCommit first) →
    ∀ (s : State α σ) (resume : Nat), s.Sound → E.From ((E.heard t s).reach resume stop fs) →
      E.From ((s.push resume (some pos)).reach first pos [])

theorem loops_done (ih : E.Right rules e pos t .failed) : E.Loops rules e pos t pos [] := by
  intro starts hrules first hfits hp _ s resume hs hfrom
  refine ih starts hrules _ _ _ _ hfits hp _ (hs.push _ _) ?_
  rw [Expects, heard_push, fail_push (hs.heard E t)]
  exact hfrom

theorem loops_more (h₁ : Eval E.setting rules e pos t₁ (.matched mid fs₁))
    (ih₁ : E.Right rules e pos t₁ (.matched mid fs₁)) (ih₂ : E.Loops rules e mid t₂ stop fs) :
    E.Loops rules e pos (t₁ ++ t₂) stop (fs₁ ++ fs) := by
  intro starts hrules first hfits hp hround s resume hs hfrom
  have hle := h₁.forward E.setting_closed hrules.fitted hfits.fitted
  refine ih₁ starts hrules _ _ _ _ hfits hp _ (hs.push _ _) (.plain ?_)
  rw [heard_push]
  refine from_partialCommit hround ?_
  refine ih₂ starts hrules first ⟨hfits.fitted, hfits.kept, hfits.asks, hfits.full,
    established_none _ _, Nat.le_trans hfits.start_le hle⟩ hp hround _ resume
    ((hs.heard E t₁).reach _ _ _) ?_
  rwa [heard_reach, reach_reach, ← heard_append]

/-- Where a class is repeated. -/
theorem from_star_span {starts : List Nat} {guard : Option Guard} {set : CharSet}
    (he : e.class? = some set) (h : Eval E.setting rules (star e) pos t r)
    (hp : Placed E.code (Linked E.code starts) base
      ((star e).emit Segment.resolveCalls rules reuse guard follow base))
    (hexp : E.Expects reuse follow
      ((star e).emitEnd Segment.resolveCalls rules reuse guard follow base) s t r) :
    E.From (s.reach base pos []) := by
  obtain ⟨hspan, hpast⟩ := placed_star_span he hp
  obtain ⟨rfl, rfl⟩ := eq_matched_of_star_class he h
  rw [hpast] at hexp
  exact from_span hspan hexp.onward

/-- Where a frame is kept for the rounds: if the head is tested for and not there, the first round
must not match, nor ask anything. -/
theorem from_star_kept {starts : List Nat} {guard : Option Guard} (hrules : E.HasRules rules starts)
    (hs : s.Sound) (he : e.class? = none) (htold : e.toldByNext rules follow = false)
    (hfits : E.Fits rules e pos false none .full)
    (hp : Placed E.code (Linked E.code starts) base
      ((star e).emit Segment.resolveCalls rules reuse guard follow base))
    (hexp : E.Expects reuse follow
      ((star e).emitEnd Segment.resolveCalls rules reuse guard follow base) s t (.matched stop fs))
    (hloop : E.Loops rules e pos t stop fs)
    (hstay : (e.headIn rules .full).needsChar = true → (∀ c, E.subject[pos]? = some c →
      (e.headIn rules .full).chars.contains c.toNat = false) →
        stop = pos ∧ fs = [] ∧ E.heard t s = s) :
    E.From (s.reach base pos []) := by
  obtain ⟨first, fin, hfirst, -, hpast, htest, henter, hcode, hround⟩ := placed_star_kept he htold hp
  rw [hpast] at hexp
  refine from_headTest htest (fun _ => ?_) fun hn hall => ?_
  · cases reuse with
    | false =>
      rw [if_neg (by simp)] at henter
      refine from_choice henter ?_
      rw [← hfirst]
      exact hloop starts hrules first hfits hcode hround s fin hs hexp.onward
    | true =>
      obtain ⟨s₀, f, rfl, hleave, -⟩ := hexp.reused rfl
      rw [if_pos rfl] at henter
      refine from_partialCommit henter ?_
      rw [push_reach]
      exact hloop starts hrules first hfits hcode hround s₀ _ hs.of_under hleave
  · obtain ⟨rfl, rfl, hheard⟩ := hstay hn hall
    have honward := hexp.onward
    rwa [hheard] at honward

theorem right_star_done (h : Eval E.setting rules e pos t .failed)
    (ih : E.Right rules e pos t .failed) : E.Right rules (.star e) pos t (.matched pos []) := by
  intro starts hrules reuse guard follow base hfits hp s hs hexp
  obtain ⟨hf, hkept, hasks, -, -, hpos⟩ := hfits
  rw [framesKept, Bool.and_eq_true, Bool.not_eq_true'] at hkept
  rw [asksKept, Bool.and_eq_true] at hasks
  have hskipped := heard_of_test h hrules.fitted hf (hasks.imp_right (·.1))
  have hasks := hasks.imp_right (·.2)
  cases hclass : e.class? with
  | some set => exact from_star_span hclass (.star_done h) hp hexp
  | none =>
    cases htold : e.toldByNext rules follow with
    | true =>
      rw [htold, Bool.and_true] at hkept
      obtain ⟨htest, hcode, -⟩ := placed_star_told hclass htold hp
      rw [emit_of_left_alone hkept.2] at hcode
      refine from_forTest htest (fun c hc hset => ?_) fun hall => ?_
      · -- the round is run although it fails, and then nothing that follows would match either
        refine ih starts hrules _ _ _ _
          ⟨hf, hkept.1, hasks, by simp, established_ofSet hc hset, hpos⟩ hcode s hs ?_
        exact hexp.follow c hc (h.not_others_of_toldByNext htold hc hset)
      · have honward := hexp.onward
        rwa [hskipped (needsChar_of_toldByNext htold) hall] at honward
    | false =>
      exact from_star_kept hrules hs hclass htold
        ⟨hf, hkept.1, hasks, by simp, established_none _ _, hpos⟩ hp hexp (loops_done ih)
        fun hn hall => ⟨rfl, rfl, hskipped hn hall s⟩

theorem right_star_more (h₁ : Eval E.setting rules e pos t₁ (.matched mid fs₁))
    (ih₁ : E.Right rules e pos t₁ (.matched mid fs₁))
    (h₂ : Eval E.setting rules (.star e) mid t₂ (.matched stop fs))
    (ih₂ : E.Right rules (.star e) mid t₂ (.matched stop fs))
    (hloop : E.Loops rules e mid t₂ stop fs) :
    E.Right rules (.star e) pos (t₁ ++ t₂) (.matched stop (fs₁ ++ fs)) := by
  intro starts hrules reuse guard follow base hfits hp s hs hexp
  obtain ⟨hf, hkept', hasks', hfull, -, hpos⟩ := hfits
  have hkept := hkept'
  rw [framesKept, Bool.and_eq_true, Bool.not_eq_true'] at hkept
  have hasks : E.Deaf ∨ e.asksKept rules .full = true :=
    hasks'.imp_right fun h => by
      rw [asksKept, Bool.and_eq_true] at h
      exact h.2
  rw [emit_star_guard] at hp
  rw [emitEnd, emit_star_guard] at hexp
  have hhead := not_forall_not_head h₁ hrules.fitted hf
  cases hclass : e.class? with
  | some set => exact from_star_span hclass (.star_more h₁ h₂) hp hexp
  | none =>
    cases htold : e.toldByNext rules follow with
    | true =>
      rw [htold, Bool.and_true] at hkept
      obtain ⟨htest, hcode, hjump, -⟩ := placed_star_told hclass htold hp
      rw [emitEnd, emit_of_left_alone hkept.2] at hjump
      rw [emit_of_left_alone hkept.2] at hcode
      refine from_forTest htest (fun c hc hset => ?_)
        fun hall => absurd hall (hhead (needsChar_of_toldByNext htold))
      refine ih₁ starts hrules _ _ _ _
        ⟨hf, hkept.1, hasks, by simp, established_ofSet hc hset, hpos⟩ hcode s hs
        (.plain ((from_jump_iff hjump).2 ?_))
      have hle := h₁.forward E.setting_closed hrules.fitted hf
      have hs₁ := hs.heard E t₁
      have hrest := ih₂ starts hrules reuse none follow base
        ⟨hf, hkept', hasks', hfull, established_none _ _, Nat.le_trans hpos hle⟩ hp _
        (hs₁.reach base mid fs₁) (Expects.reach (r := .matched stop fs) hs₁ (Expects.heard hexp))
      simpa using hrest
    | false =>
      exact from_star_kept hrules hs hclass htold
        ⟨hf, hkept.1, hasks, by simp, established_none _ _, hpos⟩ hp hexp (loops_more h₁ ih₁ hloop)
        fun hn hall => absurd hall (hhead hn)

/-! ## Looking ahead and behind -/

theorem right_not_ok (h : Eval E.setting rules e pos t .failed)
    (ih : E.Right rules e pos t .failed) : E.Right rules (.not e) pos t (.matched pos []) := by
  intro starts hrules reuse guard follow base hfits hp s hs hexp
  obtain ⟨hf, hkept, hasks, -, -, hpos⟩ := hfits
  rw [framesKept, Bool.or_eq_true] at hkept
  rw [asksKept] at hasks
  cases htold : e.headFailIn rules with
  | true =>
    simp only [htold, if_true, Bool.not_eq_true'] at hasks
    obtain ⟨fin, -, hpast, htest, hfail⟩ := placed_not_told htold hp
    rw [hpast] at hexp
    have honward := hexp.onward
    rw [heard_eq_self (hasks.imp_right (h.asked_eq_nil E.setting_closed))] at honward
    refine from_headTest htest (fun hn => ?_) fun _ _ => honward
    -- the character that was tested for would have made the expression match
    obtain ⟨c, hc, hset⟩ := hn (needsChar_of_headFail htold .full)
    rw [h.not_contains_head_of_headFail htold .full hc] at hset
    cases hset
  | false =>
    simp only [htold, Bool.false_eq_true, if_false, Bool.and_eq_true] at hasks
    obtain ⟨first, fin, hfirst, -, hpast, htest, hchoice, hcode, -⟩ := placed_not_pushed htold hp
    rw [hpast] at hexp
    have honward := hexp.onward
    refine from_headTest htest (fun _ => ?_) fun hn hall => ?_
    · refine from_choice hchoice ?_
      rw [← hfirst]
      refine ih starts hrules _ _ _ _ ⟨hf, hkept.resolve_left (by simp [htold]),
        hasks.imp_right (·.2), by simp, established_none _ _, hpos⟩ hcode _ (hs.push _ _) ?_
      rw [Expects, heard_push, fail_push (hs.heard E t)]
      exact honward
    · rwa [heard_of_test h hrules.fitted hf (hasks.imp_right (·.1)) hn hall] at honward

theorem right_not_fail (h : Eval E.setting rules e pos t (.matched stop fs))
    (ih : E.Right rules e pos t (.matched stop fs)) : E.Right rules (.not e) pos t .failed := by
  intro starts hrules reuse guard follow base hfits hp s hs hexp
  obtain ⟨hf, hkept, hasks, -, -, hpos⟩ := hfits
  rw [framesKept, Bool.or_eq_true] at hkept
  rw [asksKept] at hasks
  rw [Expects] at hexp
  have hhead := not_forall_not_head h hrules.fitted hf
  cases htold : e.headFailIn rules with
  | true =>
    simp only [htold, if_true, Bool.not_eq_true'] at hasks
    rw [heard_eq_self (hasks.imp_right (h.asked_eq_nil E.setting_closed))] at hexp
    obtain ⟨fin, -, -, htest, hfail⟩ := placed_not_told htold hp
    exact from_headTest htest (fun _ => from_fail hs hfail hexp)
      fun hn hall => absurd hall (hhead hn)
  | false =>
    simp only [htold, Bool.false_eq_true, if_false, Bool.and_eq_true] at hasks
    obtain ⟨first, fin, hfirst, -, -, htest, hchoice, hcode, hfail⟩ := placed_not_pushed htold hp
    refine from_headTest htest (fun _ => ?_) fun hn hall => absurd hall (hhead hn)
    refine from_choice hchoice ?_
    rw [← hfirst]
    exact ih starts hrules _ _ _ _ ⟨hf, hkept.resolve_left (by simp [htold]),
      hasks.imp_right (·.2), by simp, established_none _ _, hpos⟩ hcode _ (hs.push _ _)
      (.plain (from_failTwice (hs.heard E t) hfail hexp))

theorem right_and_ok (h : Eval E.setting rules e pos t (.matched stop fs))
    (ih : E.Right rules e pos t (.matched stop fs)) :
    E.Right rules (.and e) pos t (.matched pos []) := by
  intro starts hrules reuse guard follow base hfits hp s hs hexp
  obtain ⟨hf, hkept, hasks, -, hguard, hpos⟩ := hfits
  rw [framesKept] at hkept
  rw [asksKept] at hasks
  by_cases hfixed : ∃ length, e.fixedLengthIn rules = some length ∧ e.hasActionsIn rules = false
  · obtain ⟨length, hlength, hacts⟩ := hfixed
    obtain ⟨hcode, hback⟩ := placed_and_fixed hlength hacts hp
    obtain rfl := h.stop_of_fixedLength E.setting_closed hrules.fitted hf hlength
    obtain rfl := h.fired_eq_nil E.setting_closed hacts
    refine ih starts hrules _ _ _ _ ⟨hf, hkept, hasks, by simp, hguard, hpos⟩ hcode s hs (.plain ?_)
    split at hback
    · next hzero =>
      subst hzero
      rw [hback] at hexp
      exact hexp.onward
    · obtain ⟨hback, hpast⟩ := hback
      rw [hpast] at hexp
      refine from_behind hback (by omega) ?_
      rw [Nat.add_sub_cancel]
      exact hexp.onward
  · simp only [not_exists, not_and, Bool.not_eq_false] at hfixed
    obtain ⟨failed, fin, -, -, hpast, hchoice, hcode, hback, -⟩ := placed_and_pushed hfixed hp
    rw [hpast] at hexp
    refine from_choice hchoice ?_
    exact ih starts hrules _ _ _ _ ⟨hf, hkept, hasks, by simp, hguard, hpos⟩ hcode _ (hs.push _ _)
      (.plain (from_backCommit (hs.heard E t) hback hexp.onward))

theorem right_and_fail (ih : E.Right rules e pos t .failed) :
    E.Right rules (.and e) pos t .failed := by
  intro starts hrules reuse guard follow base hfits hp s hs hexp
  obtain ⟨hf, hkept, hasks, -, hguard, hpos⟩ := hfits
  rw [framesKept] at hkept
  rw [asksKept] at hasks
  by_cases hfixed : ∃ length, e.fixedLengthIn rules = some length ∧ e.hasActionsIn rules = false
  · obtain ⟨length, hlength, hacts⟩ := hfixed
    obtain ⟨hcode, -⟩ := placed_and_fixed hlength hacts hp
    exact ih starts hrules _ _ _ _ ⟨hf, hkept, hasks, by simp, hguard, hpos⟩ hcode s hs hexp
  · simp only [not_exists, not_and, Bool.not_eq_false] at hfixed
    obtain ⟨failed, fin, -, -, -, hchoice, hcode, -, hfail⟩ := placed_and_pushed hfixed hp
    refine from_choice hchoice ?_
    refine ih starts hrules _ _ _ _ ⟨hf, hkept, hasks, by simp, hguard, hpos⟩ hcode _
      (hs.push _ _) ?_
    rw [Expects, heard_push, fail_push (hs.heard E t)]
    exact from_fail (hs.heard E t) hfail hexp

/-- What comes after code is known well enough for code that is not the end of anything. -/
theorem Expects.weaken (h : E.Expects reuse follow fin s t r) :
    E.Expects false .full fin s t r := by
  cases r with
  | failed => exact h
  | matched stop fs => exact .plain h.onward

theorem right_behind {width : Nat} (hw : width ≤ pos - E.start)
    (ih : E.Right rules e (pos - width) t r) : E.Right rules (.behind width e) pos t r := by
  intro starts hrules reuse guard follow base hfits hp s hs hexp
  obtain ⟨⟨-, hf⟩, hkept, hasks, -, -, hpos⟩ := hfits
  rw [framesKept] at hkept
  rw [asksKept] at hasks
  obtain ⟨first, hback, hcode, hpast⟩ := placed_behind hp
  rw [hpast] at hexp
  have hrun := ih starts hrules _ _ _ _
    ⟨hf, hkept, hasks, by simp, established_none _ _, by omega⟩ hcode s hs hexp.weaken
  split at hback
  · next hzero =>
    subst hzero hback
    exact hrun
  · obtain ⟨hback, rfl⟩ := hback
    exact from_behind hback hw hrun

theorem right_behind_short {width : Nat} (hw : pos - E.start < width) :
    E.Right rules (.behind width e) pos [] .failed := by
  intro starts hrules reuse guard follow base hfits hp s hs hexp
  have hzero : width ≠ 0 := by omega
  obtain ⟨first, hback, -⟩ := placed_behind hp
  rw [if_neg hzero] at hback
  exact from_behind_short hs hback.1 hw hexp

/-! ## Actions -/

theorem right_action_ok {a : α} (ih : E.Right rules e pos t (.matched mid fs))
    (hanswer : E.answer a pos mid = some stop) (hmid : mid ≤ stop) (hstop : stop ≤ E.subject.size) :
    E.Right rules (.action a e) pos (t ++ [⟨a, pos, mid⟩])
      (.matched stop (⟨a, pos, stop⟩ :: fs)) := by
  intro starts hrules reuse guard follow base hfits hp s hs hexp
  obtain ⟨hf, hkept, hasks, -, hguard, hpos⟩ := hfits
  obtain ⟨hopen, hcode, hclose, hpast⟩ := placed_action hp
  rw [hpast] at hexp
  have honward := hexp.onward
  rw [heard_append] at honward
  refine from_openAction hopen ?_
  exact ih starts hrules _ _ _ _ ⟨hf, hkept, hasks, by simp, hguard, hpos⟩ hcode _
    (hs.opening a pos) (.plain (from_closeAction hclose hanswer hmid hstop honward))

theorem right_action_refused {a : α} (ih : E.Right rules e pos t (.matched mid fs))
    (hanswer : E.answer a pos mid = none) :
    E.Right rules (.action a e) pos (t ++ [⟨a, pos, mid⟩]) .failed := by
  intro starts hrules reuse guard follow base hfits hp s hs hexp
  obtain ⟨hf, hkept, hasks, -, hguard, hpos⟩ := hfits
  obtain ⟨hopen, hcode, hclose, -⟩ := placed_action hp
  rw [Expects, heard_append] at hexp
  refine from_openAction hopen ?_
  exact ih starts hrules _ _ _ _ ⟨hf, hkept, hasks, by simp, hguard, hpos⟩ hcode _
    (hs.opening a pos) (.plain (from_closeAction_refused (hs.heard E t) hclose hanswer hexp))

theorem right_action_fail {a : α} (ih : E.Right rules e pos t .failed) :
    E.Right rules (.action a e) pos t .failed := by
  intro starts hrules reuse guard follow base hfits hp s hs hexp
  obtain ⟨hf, hkept, hasks, -, hguard, hpos⟩ := hfits
  obtain ⟨hopen, hcode, -, -⟩ := placed_action hp
  refine from_openAction hopen ?_
  refine ih starts hrules _ _ _ _ ⟨hf, hkept, hasks, by simp, hguard, hpos⟩ hcode _
    (hs.opening a pos) ?_
  rw [Expects, heard_opening, fail_opening (hs.heard E t)]
  exact hexp

/-! ## Rules -/

/-- The code of a rule is right, and a return stands behind it. -/
theorem HasRules.runs {starts : List Nat} (hrules : E.HasRules rules starts) {i : Nat}
    {rule : Rule α} (hi : rules[i]? = some rule) (ih : E.Right rules rule.body pos t r)
    (hpos : E.start ≤ pos) :
    ∃ addr ret, starts[i]? = some addr ∧ E.code[ret]? = some .ret ∧
      E.Runs false .full addr ret pos t r := by
  obtain ⟨addr, haddr, hp⟩ := hrules.placed i rule hi
  rw [placed_append, placed_cons] at hp
  have hkept := framesKeptRules_iff.1 hrules.kept rule (List.mem_of_getElem? hi)
  have hasks := hrules.asks.imp_right fun h =>
    asksKeptRules_iff.1 h rule (List.mem_of_getElem? hi)
  exact ⟨addr, _, haddr, hp.2.1, ih starts hrules _ _ _ _
    ⟨hrules.fitted.body hi, hkept, hasks, by simp, established_none _ _, hpos⟩ hp.1⟩

/-- A call of code that returns. -/
theorem from_call_runs {addr ret : Nat} (hcall : E.code[base]? = some (.call addr))
    (hret : E.code[ret]? = some .ret) (hruns : E.Runs false .full addr ret pos t r) (hs : s.Sound)
    (hexp : E.Expects reuse follow (base + 1) s t r) : E.From (s.reach base pos []) := by
  refine from_call hcall (hruns _ (hs.push _ _) ?_)
  cases r with
  | failed => exact hexp
  | matched stop fs =>
    refine .plain ?_
    rw [heard_push]
    exact from_ret hret hexp.onward

theorem right_ruleCall {i : Nat} {rule : Rule α} (hi : rules[i]? = some rule)
    (ih : E.Right rules rule.body pos t r) : E.Right rules (.ruleCall i) pos t r := by
  intro starts hrules reuse guard follow base hfits hp s hs hexp
  obtain ⟨addr, ret, haddr, hret, hruns⟩ := hrules.runs hi ih hfits.start_le
  simp only [emitEnd, emit, placed_cons, List.length_cons, List.length_nil] at hp hexp
  rcases hp.1 addr haddr with hcall | ⟨hjump, hreturns⟩
  · exact from_call_runs hcall hret hruns hs hexp
  · -- the rule returns in the place of the rule that the call stands in
    refine (from_jump_iff hjump).2 (hruns s hs ?_)
    cases r with
    | failed => exact hexp
    | matched stop fs => exact .plain (from_of_returnsFrom hreturns hret hexp.onward)

theorem right_grammar {inner : List (Rule α)} {entry : Rule α} (hi : inner[0]? = some entry)
    (ih : E.Right inner entry.body pos t r) : E.Right rules (.grammar inner) pos t r := by
  intro starts hrules reuse guard follow base hfits hp s hs hexp
  obtain ⟨hf, hkept, hasks, -, -, hpos⟩ := hfits
  obtain ⟨hcall, hjump, hcode, -⟩ := placed_grammar Segment.size_resolveCalls hp
  have hinner : E.HasRules inner _ :=
    ⟨rulesPlaced_of_placed (placed_of_resolveCalls hcode), hf, hkept, hasks⟩
  obtain ⟨addr, ret, haddr, hret, hruns⟩ := hinner.runs hi ih hpos
  obtain rfl := eq_base_of_starts haddr
  have hexp' : E.Expects false .full (base + 1) s t r := by
    cases r with
    | failed => exact hexp
    | matched stop fs => exact .plain ((from_jump_iff hjump).2 hexp.onward)
  exact from_call_runs hcall hret hruns hs hexp'

/-! ## All expressions -/

/-- For a repetition, that the rounds are right where a frame is kept for them. -/
def LoopsIn (E : Ending α σ) (rules : List (Rule α)) :
    Expr α → Nat → List (Firing α) → Result α → Prop
  | .star body, pos, t, .matched stop fs => E.Loops rules body pos t stop fs
  | _, _, _, _ => True

theorem loopsIn_of_class? {set : CharSet} (he : e.class? = some set) :
    E.LoopsIn rules e pos t r := by
  rcases class?_eq_some he with ⟨c, rfl, -⟩ | rfl | ⟨rfl, -⟩ <;> trivial

theorem right_aux (h : Eval E.setting rules e pos t r) :
    E.Right rules e pos t r ∧ E.LoopsIn rules e pos t r := by
  induction h with
  | class_ok he hc hs => exact ⟨right_class_ok he hc hs, loopsIn_of_class? he⟩
  | class_fail he hc => exact ⟨right_class_fail he hc, loopsIn_of_class? he⟩
  | empty => exact ⟨right_empty, trivial⟩
  | fail => exact ⟨right_fail, trivial⟩
  | seq_ok h₁ h₂ ih₁ ih₂ => exact ⟨right_seq h₁ ih₁.1 h₂ ih₂.1, trivial⟩
  | seq_fail_first _ ih => exact ⟨right_seq_fail_first ih.1, trivial⟩
  | seq_fail_second h₁ h₂ ih₁ ih₂ => exact ⟨right_seq h₁ ih₁.1 h₂ ih₂.1, trivial⟩
  | choice_first h ih => exact ⟨right_choice_first h ih.1, trivial⟩
  | choice_second h₁ h₂ ih₁ ih₂ => exact ⟨right_choice_second h₁ ih₁.1 h₂ ih₂.1, trivial⟩
  | star_done h ih => exact ⟨right_star_done h ih.1, loops_done ih.1⟩
  | star_more h₁ h₂ ih₁ ih₂ =>
    exact ⟨right_star_more h₁ ih₁.1 h₂ ih₂.1 ih₂.2, loops_more h₁ ih₁.1 ih₂.2⟩
  | not_ok h ih => exact ⟨right_not_ok h ih.1, trivial⟩
  | not_fail h ih => exact ⟨right_not_fail h ih.1, trivial⟩
  | and_ok h ih => exact ⟨right_and_ok h ih.1, trivial⟩
  | and_fail _ ih => exact ⟨right_and_fail ih.1, trivial⟩
  | behind hw _ ih => exact ⟨right_behind hw ih.1, trivial⟩
  | behind_short hw => exact ⟨right_behind_short hw, trivial⟩
  | action_ok _ hanswer hmid hstop ih => exact ⟨right_action_ok ih.1 hanswer hmid hstop, trivial⟩
  | action_refused _ hanswer ih => exact ⟨right_action_refused ih.1 hanswer, trivial⟩
  | action_fail _ ih => exact ⟨right_action_fail ih.1, trivial⟩
  | openCall h => exact h.elim
  | ruleCall hi _ ih => exact ⟨right_ruleCall hi ih.1, trivial⟩
  | grammar hi _ ih => exact ⟨right_grammar hi ih.1, trivial⟩

/-- **The code of an expression is right** wherever the expression has a result. -/
theorem right (h : Eval E.setting rules e pos t r) : E.Right rules e pos t r := (right_aux h).1

end Ending
end PegMachine
