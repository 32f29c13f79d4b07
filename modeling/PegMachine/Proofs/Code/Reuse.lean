import PegMachine.Code.Emission

/-!
# Code that moves up the frame of what it ends

An optional part pushes a frame, and code that ends its body may move that frame up instead of
pushing one of its own.  To fail is then to leave the optional part, with everything matched so far.
That is right at the end of the body only, and it is wrong in a loop that jumps back from there: the
loop would be left after one round.

* `movesFrame` — whether the code of an expression, if it may, moves up the frame.
* `emit_reuse_eq_iff` — it does so exactly if that makes a difference to the code.
* `framesKept` — no loop that is run by tests alone has such a body, wherever the code of the loop
  may move up a frame.  The recursion is that of `emit`.
* `framesKept_of_optionalFree` — without optional parts there is nothing to move up.
-/

set_option autoImplicit false

namespace PegMachine.Expr

variable {α : Type}

/-- Whether the code of an expression, laid out where it may move up the frame on top, does so. -/
def movesFrame (rules : List (Rule α)) : Expr α → Bool
  | seq _ second => movesFrame rules second
  | choice first second =>
    if first.toldByNext rules (second.headIn rules .full).chars then movesFrame rules second
    else second.isEmpty || movesFrame rules second
  | star body => body.class?.isNone && (!body.toldByNext rules .full || movesFrame rules body)
  | _ => false

mutual

/-- Whether no loop run by tests alone moves up a frame in its body. -/
def framesKept : Expr α → List (Rule α) → Bool → CharSet → Bool
  | seq first second, rules, reuse, follow =>
    let next := if first.usesFollow then (second.headIn rules follow).chars else .full
    framesKept first rules false next && framesKept second rules reuse follow
  | choice first second, rules, reuse, follow =>
    if first.toldByNext rules (second.headIn rules follow).chars then
      framesKept first rules false follow && framesKept second rules reuse follow
    else if reuse && second.isEmpty then framesKept first rules true .full
    else framesKept first rules second.isEmpty .full && framesKept second rules reuse follow
  | star body, rules, reuse, follow =>
    framesKept body rules false .full
      && !(reuse && body.toldByNext rules follow && body.movesFrame rules)
  | not body, rules, _, _ => body.headFailIn rules || framesKept body rules false .full
  | and body, rules, _, _ => framesKept body rules false .full
  | behind _ body, rules, _, _ => framesKept body rules false .full
  | action _ body, rules, _, _ => framesKept body rules false .full
  | grammar rules, _, _, _ => framesKeptRules rules rules
  | char _, _, _, _ => true
  | set _, _, _, _ => true
  | any, _, _, _ => true
  | empty, _, _, _ => true
  | fail, _, _, _ => true
  | openCall _, _, _, _ => true
  | ruleCall _, _, _, _ => true

/-- `framesKept` for the body of each rule. -/
def framesKeptRules : List (Rule α) → List (Rule α) → Bool
  | [], _ => true
  | ⟨_, body⟩ :: rest, rules => framesKept body rules false .full && framesKeptRules rest rules

end

attribute [grind =] movesFrame framesKept

mutual

/-- Whether no choice has the empty string for its second alternative, also in grammars. -/
def optionalFree : Expr α → Bool
  | seq first second => optionalFree first && optionalFree second
  | choice first second => !second.isEmpty && optionalFree first && optionalFree second
  | star body => optionalFree body
  | not body => optionalFree body
  | and body => optionalFree body
  | behind _ body => optionalFree body
  | action _ body => optionalFree body
  | grammar rules => optionalFreeRules rules
  | char _ => true
  | set _ => true
  | any => true
  | empty => true
  | fail => true
  | openCall _ => true
  | ruleCall _ => true

/-- `optionalFree` for the body of each rule. -/
def optionalFreeRules : List (Rule α) → Bool
  | [] => true
  | ⟨_, body⟩ :: rest => optionalFree body && optionalFreeRules rest

end

theorem framesKeptRules_iff {rules all : List (Rule α)} :
    framesKeptRules rules all = true ↔ ∀ r ∈ rules, r.body.framesKept all false .full = true := by
  induction rules with
  | nil => simp [framesKeptRules]
  | cons r rest ih =>
    obtain ⟨name, body⟩ := r
    simp [framesKeptRules, ih]

theorem optionalFreeRules_iff {rules : List (Rule α)} :
    optionalFreeRules rules = true ↔ ∀ r ∈ rules, r.body.optionalFree = true := by
  induction rules with
  | nil => simp [optionalFreeRules]
  | cons r rest ih =>
    obtain ⟨name, body⟩ := r
    simp [optionalFreeRules, ih]

/-- Without optional parts, no code is laid out where it may move up a frame. -/
theorem framesKept_of_optionalFree {e : Expr α} (h : e.optionalFree = true) (rules : List (Rule α))
    (follow : CharSet) : e.framesKept rules false follow = true := by
  induction e generalizing rules follow with
  | seq first second ih₁ ih₂ =>
    rw [optionalFree, Bool.and_eq_true] at h
    simp only [framesKept, ih₁ h.1, ih₂ h.2, Bool.and_self]
  | choice first second ih₁ ih₂ =>
    simp only [optionalFree, Bool.and_eq_true, Bool.not_eq_true'] at h
    simp [framesKept, h.1.1, ih₁ h.1.2, ih₂ h.2]
  | star body ih | not body ih | and body ih | behind width body ih | action a body ih =>
    rw [optionalFree] at h
    simp [framesKept, ih h]
  | grammar inner ih =>
    rw [optionalFree, optionalFreeRules_iff] at h
    rw [framesKept, framesKeptRules_iff]
    exact fun r hr => ih r hr (h r hr) inner .full
  | _ => rfl

/-- Code that does not move up the frame is the same whether or not it may. -/
theorem emit_of_not_movesFrame {link : List Nat → Segment α → Segment α} {rules : List (Rule α)}
    {e : Expr α} (h : e.movesFrame rules = false) (guard : Option Guard) (base : Nat) :
    e.emit link rules true guard .full base = e.emit link rules false guard .full base := by
  induction e generalizing guard base with
  | seq first second _ ih₂ =>
    rw [movesFrame] at h
    simp only [emit, ih₂ h]
  | choice first second ih₁ ih₂ =>
    rw [movesFrame] at h
    simp only [emit]
    split at h
    · next htold => simp only [htold, if_true, ih₂ h]
    · next htold =>
      rw [Bool.or_eq_false_iff] at h
      simp only [htold, h.1, ih₂ h.2, Bool.and_false, Bool.false_eq_true, if_false]
  | star body ih =>
    rw [movesFrame] at h
    simp only [emit]
    cases hclass : body.class? with
    | some s => rfl
    | none =>
      simp only [hclass, Option.isNone_none, Bool.true_and, Bool.or_eq_false_iff,
        Bool.not_eq_false'] at h
      simp only [h.1, if_true, ih h.2]
  | _ => simp only [emit]

theorem partialCommit_cons_ne (h : Head) (t other : Nat) (code code' : List (Instr α)) :
    Instr.partialCommit t :: code ≠ Instr.headTest h other ++ .choice other :: code' := by
  intro heq
  rw [Instr.headTest] at heq
  split at heq
  · rw [Instr.forTest] at heq
    split at heq <;> cases heq
  · cases heq

/-- Code that moves up the frame is not what is laid out where it may not. -/
theorem emit_ne_of_movesFrame {link : List Nat → Segment α → Segment α} {rules : List (Rule α)}
    {e : Expr α} (h : e.movesFrame rules = true) (guard : Option Guard) (base : Nat) :
    e.emit link rules true guard .full base ≠ e.emit link rules false guard .full base := by
  induction e generalizing guard base with
  | seq first second _ ih₂ =>
    rw [movesFrame] at h
    intro heq
    simp only [emit] at heq
    exact ih₂ h _ _ (List.append_cancel_left heq)
  | choice first second ih₁ ih₂ =>
    rw [movesFrame] at h
    intro heq
    simp only [emit] at heq
    split at h
    · next htold =>
      simp only [htold, if_true] at heq
      refine ih₂ h _ _ (List.append_inj_right heq ?_)
      -- the jump past the second alternative is there in both or in neither
      simp only [List.length_append]
      split <;> rfl
    · next htold =>
      simp only [htold, Bool.true_and, Bool.false_and, Bool.false_eq_true, if_false] at heq
      by_cases hempty : second.isEmpty = true
      · simp only [hempty, if_true, List.append_assoc, List.cons_append] at heq
        exact partialCommit_cons_ne _ _ _ _ _ heq
      · simp only [hempty, Bool.false_eq_true, if_false, Bool.false_or] at heq h
        have htail := List.append_inj_right heq (by simp)
        exact ih₂ h _ _ (List.cons.inj htail).2
  | star body ih =>
    rw [movesFrame, Bool.and_eq_true, Option.isNone_iff_eq_none] at h
    obtain ⟨hclass, h⟩ := h
    intro heq
    simp only [emit, hclass] at heq
    split at heq
    · next htold =>
      rw [htold, Bool.not_true, Bool.false_or] at h
      exact ih h _ _ (List.append_cancel_right (List.cons.inj heq).2)
    · have hpush := List.append_cancel_left (List.append_cancel_right heq)
      cases (List.cons.inj hpush).1
  | _ => cases h

/-- **`movesFrame` tells exactly which code moves up the frame.** -/
theorem emit_reuse_eq_iff {link : List Nat → Segment α → Segment α} {rules : List (Rule α)}
    {e : Expr α} {guard : Option Guard} {base : Nat} :
    e.emit link rules true guard .full base = e.emit link rules false guard .full base
      ↔ e.movesFrame rules = false := by
  constructor
  · intro heq
    cases hmoves : e.movesFrame rules with
    | false => rfl
    | true => exact absurd heq (emit_ne_of_movesFrame hmoves guard base)
  · exact fun h => emit_of_not_movesFrame h guard base

end PegMachine.Expr
