import Mathlib.Logic.Relation
import PegMachine.Expr.Meaning
import PegMachine.Machine

/-!
# What can be seen of a match

Two programs that do the same need not take the same number of steps, so they are not compared step
by step but by what their matches show: the calls that they make to the actions, what the actions
keep, and how the match ends if it ends.  `seen` is what has shown after a number of steps, and
`SeenAlike` says that whatever shows of one match at some time shows of the other at some time.

To show this of two matches, it is enough to relate their states (`Mimics`): where the one takes a
step, the other takes the same step after some that do not show (`Quiet`).

* `Mimics.seenAlike` — related states are alike to see.
* `SameToSee` — two pieces of code that are alike to see from every state.
* `Program.SameMatches`, `Program.SameMatchesAt` — two programs, and two programs on one subject.

Since the calls come out as a list that only grows, this compares them also for matches that never
end.  `Actions.recorded` adds that list to what the actions keep.
-/

set_option autoImplicit false

namespace PegMachine

/-- A call of an action. -/
inductive Call (α : Type) where
  /-- It is asked about a match. -/
  | asked (f : Firing α)
  /-- It is told of a match that is part of the whole. -/
  | committed (f : Firing α)
deriving DecidableEq

/-- The same actions, which keep beside their store a list of the calls made so far. -/
def Actions.recorded {α σ : Type} (acts : Actions α σ) : Actions α (σ × List (Call α)) where
  onMatch a subject start stop
    | (store, calls) =>
      let (answer, store) := acts.onMatch a subject start stop store
      (answer, store, calls ++ [.asked ⟨a, start, stop⟩])
  onCommit a subject start stop
    | (store, calls) =>
      (acts.onCommit a subject start stop store, calls ++ [.committed ⟨a, start, stop⟩])

/-- What comes after a step is the same, or related states. -/
inductive Outcome.Rel {α σ : Type} (related : State α σ → State α σ → Prop) :
    Outcome α σ → Outcome α σ → Prop
  | next {s s' : State α σ} (h : related s s') : Rel related (.next s) (.next s')
  | final {v : Verdict} {store : σ} : Rel related (.final v store) (.final v store)

namespace Machine

variable {α σ : Type} {acts : Actions α σ} {code : Array (Instr α)} {subject : Array Char}
  {start : Nat}

/-- What has shown of a match after the given number of steps: the store, and the verdict once there
is one. -/
def seen (acts : Actions α σ) (code : Array (Instr α)) (subject : Array Char) (start : Nat) :
    Nat → State α σ → σ × Option Verdict
  | 0, s => (s.store, none)
  | steps + 1, s =>
    match step acts code subject start s with
    | .next s => seen acts code subject start steps s
    | .final v store => (store, some v)

/-- A run ends with what shows in the end. -/
theorem run_eq_some_iff {n : Nat} {s : State α σ} {v : Verdict} {store : σ} :
    run acts code subject start n s = some (v, store)
      ↔ seen acts code subject start n s = (store, some v) := by
  induction n generalizing s with
  | zero => simp [run, seen]
  | succ n ih =>
    rw [run, seen]
    cases step acts code subject start s with
    | next s => exact ih
    | final w st => simp [and_comm]

/-- The match from a state ends with the given verdict, and leaves the given store. -/
def Halts (acts : Actions α σ) (code : Array (Instr α)) (subject : Array Char) (start : Nat)
    (s : State α σ) (v : Verdict) (store : σ) : Prop :=
  ∃ n, run acts code subject start n s = some (v, store)

theorem halts_of_step {s s' : State α σ} {v : Verdict} {store : σ}
    (hs : step acts code subject start s = .next s') (h : Halts acts code subject start s' v store) :
    Halts acts code subject start s v store := by
  obtain ⟨n, hn⟩ := h
  exact ⟨n + 1, by rw [run, hs]; exact hn⟩

/-- A match that has ended is not changed by more steps. -/
theorem run_mono {n m : Nat} (hnm : n ≤ m) {s : State α σ} {r : Verdict × σ}
    (h : run acts code subject start n s = some r) : run acts code subject start m s = some r := by
  induction n generalizing m s with
  | zero => simp [run] at h
  | succ n ih =>
    obtain ⟨m, rfl⟩ : ∃ k, m = k + 1 := ⟨m - 1, by omega⟩
    rw [run] at h ⊢
    cases hs : step acts code subject start s with
    | next s => exact ih (by omega) (by simpa [hs] using h)
    | final v st => simpa [hs] using h

/-! ## Matches that are alike to see -/

/-- Whatever shows of the one match at some time shows of the other at some time. -/
def SeenAlike (acts : Actions α σ) (code code' : Array (Instr α)) (subject : Array Char)
    (start : Nat) (s s' : State α σ) : Prop :=
  (∀ n, ∃ m, seen acts code' subject start m s' = seen acts code subject start n s) ∧
  (∀ m, ∃ n, seen acts code subject start n s = seen acts code' subject start m s')

namespace SeenAlike

variable {c₁ c₂ c₃ : Array (Instr α)} {s₁ s₂ s₃ : State α σ}

theorem refl (code : Array (Instr α)) (s : State α σ) :
    SeenAlike acts code code subject start s s :=
  ⟨fun n => ⟨n, rfl⟩, fun n => ⟨n, rfl⟩⟩

theorem symm (h : SeenAlike acts c₁ c₂ subject start s₁ s₂) :
    SeenAlike acts c₂ c₁ subject start s₂ s₁ :=
  ⟨h.2, h.1⟩

theorem trans (h : SeenAlike acts c₁ c₂ subject start s₁ s₂)
    (h' : SeenAlike acts c₂ c₃ subject start s₂ s₃) :
    SeenAlike acts c₁ c₃ subject start s₁ s₃ := by
  constructor
  · intro n
    obtain ⟨m, hm⟩ := h.1 n
    obtain ⟨k, hk⟩ := h'.1 m
    exact ⟨k, hk.trans hm⟩
  · intro k
    obtain ⟨m, hm⟩ := h'.2 k
    obtain ⟨n, hn⟩ := h.2 m
    exact ⟨n, hn.trans hm⟩

/-- Matches that are alike to see end with the same verdict and store. -/
theorem halts_iff (h : SeenAlike acts c₁ c₂ subject start s₁ s₂) {v : Verdict} {store : σ} :
    Halts acts c₁ subject start s₁ v store ↔ Halts acts c₂ subject start s₂ v store := by
  simp only [Halts, run_eq_some_iff]
  constructor
  · rintro ⟨n, hn⟩
    obtain ⟨m, hm⟩ := h.1 n
    exact ⟨m, hm.trans hn⟩
  · rintro ⟨m, hm⟩
    obtain ⟨n, hn⟩ := h.2 m
    exact ⟨n, hn.trans hm⟩

end SeenAlike

/-- The two pieces of code are the same to see, from whatever state their matches go on. -/
def SameToSee (code code' : Array (Instr α)) : Prop :=
  ∀ (σ : Type) (acts : Actions α σ) (subject : Array Char) (start : Nat) (s : State α σ),
    SeenAlike acts code code' subject start s s

theorem SameToSee.refl (code : Array (Instr α)) : SameToSee code code :=
  fun _ _ _ _ s => .refl code s

theorem SameToSee.trans {c₁ c₂ c₃ : Array (Instr α)} (h : SameToSee c₁ c₂) (h' : SameToSee c₂ c₃) :
    SameToSee c₁ c₃ :=
  fun σ acts subject start s => (h σ acts subject start s).trans (h' σ acts subject start s)

/-- Matches that are the same to see end with the same verdict and store. -/
theorem SameToSee.halts_iff {code' : Array (Instr α)} (h : SameToSee code code') {s : State α σ}
    {v : Verdict} {store : σ} :
    Halts acts code subject start s v store ↔ Halts acts code' subject start s v store :=
  (h σ acts subject start s).halts_iff

/-! ## Steps that do not show -/

/-- The machine gets from one state to another with nothing to see. -/
def Quiet (acts : Actions α σ) (code : Array (Instr α)) (subject : Array Char) (start : Nat) :
    State α σ → State α σ → Prop :=
  Relation.ReflTransGen fun s s' =>
    step acts code subject start s = .next s' ∧ s'.store = s.store

/-- From where some quiet steps lead, the same shows, only earlier; and nothing has shown on the
way. -/
theorem Quiet.exists_seen {s s' : State α σ} (h : Quiet acts code subject start s s') :
    ∃ k, (∀ n, seen acts code subject start (k + n) s = seen acts code subject start n s') ∧
      ∀ n ≤ k, seen acts code subject start n s = (s.store, none) := by
  induction h using Relation.ReflTransGen.head_induction_on with
  | refl => exact ⟨0, fun n => by rw [Nat.zero_add], fun n hn => by rw [Nat.le_zero.1 hn, seen]⟩
  | head hstep _ ih =>
    obtain ⟨hnext, hstore⟩ := hstep
    obtain ⟨k, hk, hle⟩ := ih
    refine ⟨k + 1, fun n => ?_, fun n hn => ?_⟩
    · rw [Nat.add_right_comm, seen, hnext]
      exact hk n
    · cases n with
      | zero => rfl
      | succ n =>
        rw [seen, hnext, ← hstore]
        exact hle n (by omega)

/-- From a state that stands for a state of the first code, the second takes the step that the first
takes after some quiet steps; and the states that stand for each other keep the same store. -/
def Mimics (acts : Actions α σ) (code code' : Array (Instr α)) (subject : Array Char) (start : Nat)
    (stands : State α σ → State α σ → Prop) : Prop :=
  ∀ s s', stands s s' → s'.store = s.store ∧ ∃ s₁, Quiet acts code subject start s s₁ ∧
    Outcome.Rel stands (step acts code subject start s₁) (step acts code' subject start s')

namespace Mimics

variable {code' : Array (Instr α)} {stands : State α σ → State α σ → Prop} {s s' : State α σ}

/-- What shows of the first code shows of the second. -/
theorem exists_seen_second (h : Mimics acts code code' subject start stands) (n : Nat)
    (hs : stands s s') :
    ∃ m, seen acts code' subject start m s' = seen acts code subject start n s := by
  induction n using Nat.strongRecOn generalizing s s' with
  | ind n ih =>
    obtain ⟨hstore, s₁, hquiet, hrel⟩ := h s s' hs
    obtain ⟨k, hk, hle⟩ := hquiet.exists_seen
    rcases Nat.lt_or_ge k n with hkn | hkn
    · obtain ⟨r, rfl⟩ : ∃ r, n = k + (r + 1) := ⟨n - k - 1, by omega⟩
      rw [hk, seen]
      generalize hout : step acts code subject start s₁ = out at hrel ⊢
      generalize hout' : step acts code' subject start s' = out' at hrel
      cases hrel with
      | next hs =>
        obtain ⟨m, hm⟩ := ih r (by omega) hs
        exact ⟨m + 1, by rw [seen, hout']; exact hm⟩
      | final => exact ⟨1, by rw [seen, hout']⟩
    · rw [hle n hkn]
      exact ⟨0, by rw [seen, hstore]⟩

/-- What shows of the second code shows of the first. -/
theorem exists_seen_first (h : Mimics acts code code' subject start stands) (m : Nat)
    (hs : stands s s') :
    ∃ n, seen acts code subject start n s = seen acts code' subject start m s' := by
  induction m generalizing s s' with
  | zero => exact ⟨0, by rw [seen, seen, (h s s' hs).1]⟩
  | succ m ih =>
    obtain ⟨-, s₁, hquiet, hrel⟩ := h s s' hs
    obtain ⟨k, hk, -⟩ := hquiet.exists_seen
    rw [seen]
    generalize hout : step acts code subject start s₁ = out at hrel
    generalize hout' : step acts code' subject start s' = out' at hrel ⊢
    cases hrel with
    | next hs =>
      obtain ⟨n, hn⟩ := ih hs
      exact ⟨k + (n + 1), by rw [hk, seen, hout]; exact hn⟩
    | final => exact ⟨k + 1, by rw [hk, seen, hout]⟩

/-- **States that stand for each other are alike to see.** -/
theorem seenAlike (h : Mimics acts code code' subject start stands) (hs : stands s s') :
    SeenAlike acts code code' subject start s s' :=
  ⟨fun n => h.exists_seen_second n hs, fun m => h.exists_seen_first m hs⟩

end Mimics

end Machine

namespace Program

variable {α σ : Type}

/-- What has shown of a match from an offset on after the given number of steps. -/
def seenAt (p : Program α) (acts : Actions α σ) (subject : Array Char) (offset : Nat) (store : σ)
    (steps : Nat) : σ × Option Verdict :=
  Machine.seen acts p.code subject offset steps (Machine.start p offset store)

/-- The matches of the two programs cannot be told apart, whatever the actions do, the subject is
and the offset: one ends if the other does, and both with the same verdict and store; and of the
calls made so far, the store and the verdict, whatever shows of one shows of the other. -/
def SameMatches (p q : Program α) : Prop :=
  ∀ (σ : Type) (acts : Actions α σ) (subject : Array Char) (offset : Nat) (store : σ),
    (∀ r, (∃ n, p.matchAt acts subject offset store n = .ok (some r))
      ↔ ∃ n, q.matchAt acts subject offset store n = .ok (some r)) ∧
    (∀ n, ∃ m, q.seenAt acts.recorded subject offset (store, []) m
      = p.seenAt acts.recorded subject offset (store, []) n) ∧
    (∀ m, ∃ n, p.seenAt acts.recorded subject offset (store, []) n
      = q.seenAt acts.recorded subject offset (store, []) m)

/-- The matches of the two programs on the subject, from the offset on, cannot be told apart,
whatever the actions do. -/
def SameMatchesAt (p q : Program α) (subject : Array Char) (offset : Nat) : Prop :=
  ∀ (σ : Type) (acts : Actions α σ) (store : σ),
    (∀ r, (∃ n, p.matchAt acts subject offset store n = .ok (some r))
      ↔ ∃ n, q.matchAt acts subject offset store n = .ok (some r)) ∧
    (∀ n, ∃ m, q.seenAt acts.recorded subject offset (store, []) m
      = p.seenAt acts.recorded subject offset (store, []) n) ∧
    (∀ m, ∃ n, p.seenAt acts.recorded subject offset (store, []) n
      = q.seenAt acts.recorded subject offset (store, []) m)

theorem sameMatches_iff {p q : Program α} :
    p.SameMatches q ↔ ∀ subject offset, p.SameMatchesAt q subject offset :=
  ⟨fun h subject offset σ acts store => h σ acts subject offset store,
    fun h σ acts subject offset store => h subject offset σ acts store⟩

/-- A match from an offset of the subject ends as the machine does. -/
theorem matchAt_eq_iff {p : Program α} {acts : Actions α σ} {subject : Array Char} {offset : Nat}
    (ho : offset ≤ subject.size) {store store' : σ} {n : Nat} {v : Verdict} :
    p.matchAt acts subject offset store n = .ok (some (v, store'))
      ↔ Machine.run acts p.code subject offset n (Machine.start p offset store)
        = some (v, store') := by
  rw [matchAt, if_neg (Nat.not_lt.2 ho), Except.ok.injEq]

/-- A match ends in one way only. -/
theorem matchAt_unique {p : Program α} {acts : Actions α σ} {subject : Array Char} {offset : Nat}
    {store : σ} {n m : Nat} {x y : Verdict × σ}
    (hn : p.matchAt acts subject offset store n = .ok (some x))
    (hm : p.matchAt acts subject offset store m = .ok (some y)) : x = y := by
  rcases Nat.lt_or_ge subject.size offset with ho | ho
  · rw [matchAt, if_pos ho] at hn
    cases hn
  · have hx := Machine.run_mono (Nat.le_max_left n m) ((matchAt_eq_iff ho).1 hn)
    have hy := Machine.run_mono (Nat.le_max_right n m) ((matchAt_eq_iff ho).1 hm)
    exact Option.some.inj (hx.symm.trans hy)

/-- Programs of the same length start their matches in the same state. -/
theorem start_eq_of_size {p q : Program α} (hsize : q.code.size = p.code.size) (offset : Nat)
    (store : σ) : Machine.start q offset store = Machine.start p offset store := by
  rw [Machine.start, Machine.start, giveUp, giveUp, hsize]

/-- Programs whose matches are alike to see from their start cannot be told apart. -/
theorem sameMatchesAt_of_seenAlike {p q : Program α} {subject : Array Char} {offset : Nat}
    (h : ∀ (σ : Type) (acts : Actions α σ) (store : σ),
      Machine.SeenAlike acts p.code q.code subject offset (Machine.start p offset store)
        (Machine.start q offset store)) :
    p.SameMatchesAt q subject offset := by
  intro σ acts store
  refine ⟨fun r => ?_, (h _ acts.recorded _).1, (h _ acts.recorded _).2⟩
  rcases Nat.lt_or_ge subject.size offset with ho | ho
  · simp [matchAt, ho]
  · simp only [matchAt_eq_iff ho]
    exact (h σ acts store).halts_iff

/-- Code that is the same to see makes programs whose matches cannot be told apart, if the programs
are of the same length. -/
theorem sameMatches_of_sameToSee {p q : Program α} (h : Machine.SameToSee p.code q.code)
    (hsize : q.code.size = p.code.size) : p.SameMatches q :=
  sameMatches_iff.2 fun subject offset => sameMatchesAt_of_seenAlike fun σ acts store => by
    rw [start_eq_of_size hsize]
    exact h σ acts subject offset _

end Program
end PegMachine
