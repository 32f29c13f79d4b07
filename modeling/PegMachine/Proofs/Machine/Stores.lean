import PegMachine.Proofs.Machine.Safety

/-!
# What becomes of the store

The machine does not touch what the actions keep, except that it asks actions about matches and,
when the whole match succeeds, tells those in it.  So what holds of the store at first, and is not
changed by questions, holds in all states of a match, and also in the end if the match does not
succeed.

* `store_step` — one step.
* `store_of_reaches`, `store_of_run` — the whole match.
-/

set_option autoImplicit false

namespace PegMachine

open State

variable {α σ : Type}

/-- The store after a step. -/
def Outcome.store : Outcome α σ → σ
  | next s => s.store
  | final _ store => store

namespace State

@[simp] theorem store_moveUp (s : State α σ) : s.moveUp.store = s.store := by
  rw [moveUp]
  split <;> rfl

@[simp] theorem store_moveBack (s : State α σ) : s.moveBack.store = s.store := by
  rw [moveBack]
  split <;> rfl

@[simp] theorem store_fail (s : State α σ) : s.fail.store = s.store := by
  rw [fail]
  split <;> rfl

end State

namespace Machine

variable {acts : Actions α σ} {code : Array (Instr α)} {subject : Array Char} {start : Nat}
  {s s' : State α σ} {P : σ → Prop}

@[simp] theorem store_consumeIf (want : Char → Bool) (s : State α σ) :
    (consumeIf want subject s).store = s.store := by
  rw [consumeIf]
  split
  · split
    · rfl
    · exact store_fail s
  · exact store_fail s

@[simp] theorem store_testFor (want : Char → Bool) (t : Nat) (s : State α σ) :
    (testFor want t subject s).store = s.store := by
  rw [testFor]
  split
  · split <;> rfl
  · rfl

theorem store_closeAction (hasked : ∀ a i j store, P store → P (acts.onMatch a subject i j store).2)
    (hs : P s.store) : P (closeAction acts subject s).store := by
  rw [closeAction]
  split
  · exact hs
  · split
    · exact hs
    · next e _ =>
      have hstore := hasked e.action e.start s.pos s.store hs
      split
      · next store heq =>
        rw [heq] at hstore
        rwa [store_fail]
      · next answer store heq =>
        rw [heq] at hstore
        split <;> exact hstore

/-- Only the end of a successful match changes what questions do not change. -/
theorem store_exec (hasked : ∀ a i j store, P store → P (acts.onMatch a subject i j store).2)
    {instr : Instr α} (hi : instr ≠ .halt) (hs : P s.store) :
    P (exec acts subject start instr s).store := by
  cases instr with
  | halt => exact absurd rfl hi
  | closeAction => exact store_closeAction hasked hs
  | any | tested | char | set => rwa [exec, store_consumeIf]
  | testAny | testChar | testSet => rwa [exec, store_testFor]
  | fail | failTwice => rwa [exec, store_fail]
  | behind n =>
    rw [exec]
    split
    · rwa [store_fail]
    · exact hs
  | ret =>
    rw [exec]
    split <;> exact hs
  | partialCommit t =>
    have hmove : s.moveUp.store = s.store := store_moveUp s
    rw [← hmove] at hs
    exact hs
  | backCommit t =>
    have hmove : s.moveBack.store = s.store := store_moveBack s
    rw [← hmove] at hs
    exact hs
  | _ => exact hs

theorem store_step (hasked : ∀ a i j store, P store → P (acts.onMatch a subject i j store).2)
    (hi : code[s.ip]? ≠ some .halt) (hs : P s.store) :
    P (step acts code subject start s).store := by
  rw [step]
  cases hinstr : code[s.ip]? with
  | none => exact hs
  | some instr => exact store_exec hasked (fun heq => hi (by rw [hinstr, heq])) hs

/-- In all states of a match the store is as it was, as far as questions do not change it. -/
theorem store_of_reaches (hasked : ∀ a i j store, P store → P (acts.onMatch a subject i j store).2)
    (hr : Reaches acts code subject start s s') (hs : P s.store) : P s'.store := by
  induction hr with
  | refl => exact hs
  | @tail t t' _ hstep ih =>
    have hi : code[t.ip]? ≠ some .halt := by
      intro hhalt
      rw [step_eq_exec hhalt] at hstep
      cases hstep
    have hstore : P (step acts code subject start t).store := store_step hasked hi ih
    rwa [hstep] at hstore

/-- **A match that does not succeed leaves the store as it was**, as far as questions do not change
it. -/
theorem store_of_run (hasked : ∀ a i j store, P store → P (acts.onMatch a subject i j store).2)
    (hs : P s.store) {n : Nat} {v : Verdict} {store : σ}
    (h : run acts code subject start n s = some (v, store)) (hv : ∀ stop, v ≠ .success stop) :
    P store := by
  obtain ⟨s', hr, hfinal⟩ := exists_final_of_run h
  have hi : code[s'.ip]? ≠ some .halt := by
    intro hhalt
    rw [step_eq_exec hhalt] at hfinal
    cases hfinal
    exact hv _ rfl
  have hstore : P (step acts code subject start s').store :=
    store_step hasked hi (store_of_reaches hasked hr hs)
  rwa [hfinal] at hstore

end Machine
end PegMachine
