import Mathlib.Logic.Relation
import PegMachine.Proofs.Code.Running

/-!
# What keeps the machine from breaking

Instructions take for granted that the stack and the list of open actions are as the code around
them has left them: a return that the top frame was pushed by a call, a commit that it was pushed
for a choice, the end of an action that one is open.  `Allows` says what each instruction takes for
granted, and `Safe` that a state is as the next instruction wants it, and that the frame for the
failure of the whole match is at the bottom of the stack.

* `Safe.verdict` — from a safe state, the match does not end with a broken program.
* `Follows` — one piece of code does what another one does as long as that is safe, if not step by
  step.  Then it is safe where the other is (`Follows.safe`), and its matches are alike to see
  (`Follows.seenAlike`).
-/

set_option autoImplicit false

namespace PegMachine

open State Relation

variable {α σ : Type}

namespace Machine

/-- The machine gets from one state to another. -/
def Reaches (acts : Actions α σ) (code : Array (Instr α)) (subject : Array Char) (start : Nat) :
    State α σ → State α σ → Prop :=
  ReflTransGen fun s s' => step acts code subject start s = .next s'

theorem Quiet.reaches {acts : Actions α σ} {code : Array (Instr α)} {subject : Array Char}
    {start : Nat} {s s' : State α σ} (h : Quiet acts code subject start s s') :
    Reaches acts code subject start s s' :=
  ReflTransGen.mono (fun _ _ hstep => hstep.1) s s' h

/-! ## Safe states -/

/-- The top frame was pushed for a choice, and is not the one at the bottom. -/
def OnChoice (s : State α σ) : Prop :=
  ∃ f rest, s.frames = f :: rest ∧ f.pos ≠ none ∧ rest ≠ []

/-- The state is as the instruction takes it to be.  A match may end, at a position and with some
actions, only as `ends` says. -/
def Allows (ends : Nat → List (Firing α) → Prop) (s : State α σ) : Instr α → Prop
  | .openCall _ => False
  | .ret => ∃ f rest, s.frames = f :: rest ∧ f.pos = none
  | .commit _ => OnChoice s
  | .partialCommit _ => OnChoice s
  | .backCommit _ => OnChoice s
  | .failTwice => OnChoice s
  | .closeAction => ∃ i rest e, s.opened = i :: rest ∧ s.log[i]? = some e ∧ e.stop = none
  | .halt => s.opened = [] ∧ ∃ fs, s.log = (fs.map Firing.entry).toArray ∧ ends s.pos fs
  | _ => True

/-- The frame at the bottom of the stack: it leads to the last instruction, with nothing matched. -/
def bottom (code : Array (Instr α)) (start : Nat) : Frame := ⟨code.size - 1, some start, 0⟩

/-- The state is as the next instruction takes it to be, and there is one; the frame at the bottom
of the stack is in its place until the match has failed; and the position is in the subject, and not
before the start of the match. -/
structure Safe (code : Array (Instr α)) (subject : Array Char) (start : Nat)
    (ends : Nat → List (Firing α) → Prop) (s : State α σ) : Prop where
  allowed : ∃ instr, code[s.ip]? = some instr ∧ Allows ends s instr
  rooted : s.frames.getLast? = some (bottom code start) ∨
    s.frames = [] ∧ code[s.ip]? = some .giveUp
  start_le : start ≤ s.pos
  pos_le : s.pos ≤ subject.size

/-- All states that the machine gets to are safe. -/
def StaysSafe (acts : Actions α σ) (code : Array (Instr α)) (subject : Array Char) (start : Nat)
    (ends : Nat → List (Firing α) → Prop) (s : State α σ) : Prop :=
  ∀ s', Reaches acts code subject start s s' → Safe code subject start ends s'

variable {acts : Actions α σ} {code code' : Array (Instr α)} {subject : Array Char} {start : Nat}
  {ends ends' : Nat → List (Firing α) → Prop} {s s' : State α σ}

theorem Allows.mono {instr : Instr α} (h : Allows ends s instr)
    (hends : ∀ q fs, ends q fs → ends' q fs) : Allows ends' s instr := by
  cases instr with
  | halt =>
    obtain ⟨hopened, fs, hlog, hfs⟩ := h
    exact ⟨hopened, fs, hlog, hends _ _ hfs⟩
  | _ => exact h

theorem Safe.mono (h : Safe code subject start ends s) (hends : ∀ q fs, ends q fs → ends' q fs) :
    Safe code subject start ends' s where
  allowed := by
    obtain ⟨instr, hi, hallow⟩ := h.allowed
    exact ⟨instr, hi, hallow.mono hends⟩
  rooted := h.rooted
  start_le := h.start_le
  pos_le := h.pos_le

theorem StaysSafe.safe (h : StaysSafe acts code subject start ends s) :
    Safe code subject start ends s :=
  h s .refl

theorem StaysSafe.of_reaches (h : StaysSafe acts code subject start ends s)
    (hr : Reaches acts code subject start s s') : StaysSafe acts code subject start ends s' :=
  fun s₁ hs₁ => h s₁ (hr.trans hs₁)

theorem step_eq_exec {instr : Instr α} (hi : code[s.ip]? = some instr) :
    step acts code subject start s = exec acts subject start instr s := by
  rw [step, hi]

/-- Where the frame at the bottom is in its place, there is something to go back to. -/
theorem exists_unwind_of_bottom {frames : List Frame}
    (h : frames.getLast? = some (bottom code start)) : ∃ r, unwind frames = some r := by
  induction frames with
  | nil => cases h
  | cons f rest ih =>
    rw [unwind]
    split
    · exact ⟨_, rfl⟩
    · next hpos =>
      refine ih ?_
      cases rest with
      | nil =>
        cases h
        cases hpos
      | cons g rest => simpa using h

theorem not_final_of_fail {v : Verdict} {store : σ} (hf : s.fail = .final v store)
    (h : s.frames.getLast? = some (bottom code start)) : False := by
  obtain ⟨⟨f, pos, rest⟩, hu⟩ := exists_unwind_of_bottom h
  rw [fail, hu] at hf
  cases hf

/-- How a match ends: with success at the position of the machine, with failure, or with an answer
of an action that is not from this position to the end of the subject. -/
inductive EndsWith (subject : Array Char) (s : State α σ) : Verdict → Prop
  | success : EndsWith subject s (.success s.pos)
  | failure : EndsWith subject s .failure
  | badAnswer {answer : Nat} (h : answer < s.pos ∨ subject.size < answer) :
      EndsWith subject s (.badAnswer answer s.pos subject.size)

/-- The frame at the bottom is where the next instruction is one that may fail. -/
theorem Safe.bottom_of_ne_giveUp (h : Safe code subject start ends s) {instr : Instr α}
    (hi : code[s.ip]? = some instr) (hne : instr ≠ .giveUp) :
    s.frames.getLast? = some (bottom code start) := by
  refine h.rooted.resolve_right fun hgive => hne ?_
  rw [hi] at hgive
  exact Option.some.inj hgive.2

theorem not_final_of_consumeIf {want : Char → Bool} {v : Verdict} {store : σ}
    (hf : consumeIf want subject s = .final v store)
    (h : s.frames.getLast? = some (bottom code start)) : False := by
  rw [consumeIf] at hf
  split at hf
  · split at hf
    · cases hf
    · exact not_final_of_fail hf h
  · exact not_final_of_fail hf h

theorem testFor_ne_final (want : Char → Bool) (t : Nat) (v : Verdict) (store : σ) :
    testFor want t subject s ≠ .final v store := by
  rw [testFor]
  split
  · split <;> exact fun heq => by cases heq
  · exact fun heq => by cases heq

/-- **From a safe state, a match does not end with a broken program.** -/
theorem Safe.verdict (h : Safe code subject start ends s) {v : Verdict} {store : σ}
    (hv : step acts code subject start s = .final v store) : EndsWith subject s v := by
  obtain ⟨instr, hi, hallow⟩ := h.allowed
  have hbottom := h.bottom_of_ne_giveUp hi
  rw [step_eq_exec hi] at hv
  cases instr with
  | any | tested | char | set =>
    exact (not_final_of_consumeIf hv (hbottom (by simp))).elim
  | testAny | testChar | testSet => exact absurd hv (testFor_ne_final _ _ _ _)
  | behind n =>
    simp only [exec] at hv
    split at hv
    · exact (not_final_of_fail hv (hbottom (by simp))).elim
    · cases hv
  | ret =>
    obtain ⟨f, rest, hframes, -⟩ := hallow
    simp only [exec, hframes] at hv
    cases hv
  | halt =>
    cases hv
    exact .success
  | giveUp =>
    cases hv
    exact .failure
  | failTwice =>
    obtain ⟨f, rest, hframes, -, hrest⟩ := hallow
    have hlast := hbottom (by simp)
    rw [hframes, List.getLast?_cons_of_ne_nil hrest] at hlast
    have hpop : s.pop.frames.getLast? = some (bottom code start) := by rwa [pop, hframes]
    exact (not_final_of_fail hv hpop).elim
  | fail => exact (not_final_of_fail hv (hbottom (by simp))).elim
  | closeAction =>
    obtain ⟨i, rest, e, hopened, he, -⟩ := hallow
    simp only [exec, closeAction, hopened, he] at hv
    split at hv
    · exact (not_final_of_fail hv (hbottom (by simp))).elim
    · split at hv
      · next hbad =>
        cases hv
        exact .badAnswer hbad
      · cases hv
  | openCall => exact hallow.elim
  | _ => cases hv

theorem eq_broken_of_fail {v : Verdict} {store : σ} (h : s.fail = .final v store) :
    v = .broken := by
  rw [fail] at h
  split at h
  · cases h
    rfl
  · cases h

theorem eq_broken_of_consumeIf {want : Char → Bool} {v : Verdict} {store : σ}
    (h : consumeIf want subject s = .final v store) : v = .broken := by
  rw [consumeIf] at h
  split at h
  · split at h
    · cases h
    · exact eq_broken_of_fail h
  · exact eq_broken_of_fail h

/-- Only one instruction ends a match with success, and commits what is in the log. -/
theorem halt_of_success {instr : Instr α} {stop : Nat} {store : σ}
    (h : exec acts subject start instr s = .final (.success stop) store) :
    instr = .halt ∧ s.pos = stop ∧ store = commitAll acts subject s.log s.store := by
  cases instr with
  | halt =>
    cases h
    exact ⟨rfl, rfl, rfl⟩
  | any | tested | char | set => cases eq_broken_of_consumeIf h
  | testAny | testChar | testSet => exact absurd h (testFor_ne_final _ _ _ _)
  | fail | failTwice => cases eq_broken_of_fail h
  | behind n =>
    rw [exec] at h
    split at h
    · cases eq_broken_of_fail h
    · cases h
  | ret =>
    rw [exec] at h
    split at h <;> cases h
  | closeAction =>
    rw [exec, closeAction] at h
    split at h
    · cases h
    · split at h
      · cases h
      · split at h
        · cases eq_broken_of_fail h
        · split at h <;> cases h
  | _ => cases h

/-- A match that ends does so from a state that the machine gets to. -/
theorem exists_final_of_run {n : Nat} {v : Verdict} {store : σ}
    (h : run acts code subject start n s = some (v, store)) :
    ∃ s', Reaches acts code subject start s s' ∧
      step acts code subject start s' = .final v store := by
  induction n generalizing s with
  | zero => cases h
  | succ n ih =>
    rw [run] at h
    cases hstep : step acts code subject start s with
    | next s₁ =>
      rw [hstep] at h
      obtain ⟨s', hreach, hfinal⟩ := ih h
      exact ⟨s', hreach.head hstep, hfinal⟩
    | final w st =>
      rw [hstep] at h
      cases h
      exact ⟨s, .refl, hstep⟩

/-! ## Code that does what other code does -/

/-- The code `code'` does what `code` does, as long as that is safe: from a state that stands for a
state of `code`, and keeps the same store, it takes the step that `code` takes after some quiet
steps. -/
def Follows (acts : Actions α σ) (code code' : Array (Instr α)) (subject : Array Char) (start : Nat)
    (ends : Nat → List (Firing α) → Prop) (stands : State α σ → State α σ → Prop) : Prop :=
  ∀ s s', stands s s' → StaysSafe acts code subject start ends s →
    s'.store = s.store ∧ Safe code' subject start ends s' ∧
      ∃ s₁, Quiet acts code subject start s s₁ ∧
        Outcome.Rel stands (step acts code subject start s₁) (step acts code' subject start s')

variable {stands : State α σ → State α σ → Prop}

theorem exists_next_of_rel {o o' : Outcome α σ} {t' : State α σ} (h : Outcome.Rel stands o o')
    (ho : o' = .next t') : ∃ t, o = .next t ∧ stands t t' := by
  cases h with
  | next h =>
    cases ho
    exact ⟨_, rfl, h⟩
  | final => cases ho

/-- The states that the new code gets to stand for states that the old code gets to. -/
theorem Follows.exists_reaches (h : Follows acts code code' subject start ends stands)
    (hs : stands s s') (hsafe : StaysSafe acts code subject start ends s) {t' : State α σ}
    (ht' : Reaches acts code' subject start s' t') :
    ∃ t, Reaches acts code subject start s t ∧ stands t t' := by
  induction ht' with
  | refl => exact ⟨s, .refl, hs⟩
  | tail _ hstep ih =>
    obtain ⟨t, ht, hstands⟩ := ih
    obtain ⟨-, -, s₁, hs₁, hrel⟩ := h _ _ hstands (hsafe.of_reaches ht)
    obtain ⟨t₁, ht₁, hstands₁⟩ := exists_next_of_rel hrel hstep
    exact ⟨t₁, (ht.trans hs₁.reaches).tail ht₁, hstands₁⟩

/-- **What does the same as safe code is safe.** -/
theorem Follows.safe (h : Follows acts code code' subject start ends stands) (hs : stands s s')
    (hsafe : StaysSafe acts code subject start ends s) :
    StaysSafe acts code' subject start ends s' := by
  intro t' ht'
  obtain ⟨t, ht, hstands⟩ := h.exists_reaches hs hsafe ht'
  exact (h _ _ hstands (hsafe.of_reaches ht)).2.1

/-- What follows safe code mimics it, from the states that are safe. -/
theorem Follows.mimics (h : Follows acts code code' subject start ends stands) :
    Mimics acts code code' subject start fun s s' =>
      stands s s' ∧ StaysSafe acts code subject start ends s := by
  rintro s s' ⟨hs, hsafe⟩
  obtain ⟨hstore, -, s₁, hs₁, hrel⟩ := h s s' hs hsafe
  refine ⟨hstore, s₁, hs₁, ?_⟩
  generalize hout : step acts code subject start s₁ = out at hrel ⊢
  generalize step acts code' subject start s' = out' at hrel ⊢
  cases hrel with
  | next ht => exact .next ⟨ht, hsafe.of_reaches (hs₁.reaches.tail hout)⟩
  | final => exact .final

/-- **What does the same as safe code is alike to see.** -/
theorem Follows.seenAlike (h : Follows acts code code' subject start ends stands)
    (hs : stands s s') (hsafe : StaysSafe acts code subject start ends s) :
    SeenAlike acts code code' subject start s s' :=
  h.mimics.seenAlike ⟨hs, hsafe⟩

end Machine
end PegMachine
