import PegMachine.Proofs.Code.Tests
import PegMachine.Proofs.Machine.Safety

/-!
# What is to hold of all states on the way

That a match is safe and that it ends are both shown backwards, from where code leads to.  An `Aim`
is what is to be shown of a state: it has to hold where the match ends, and where it holds after a
step from a safe state.  What has to hold after the step may be less; to be safe for `n + 1` steps
it takes to be safe for `n` after the first one.  Of safe states a little more is asked here than
that the stack and the list of open actions are as they should be: the next character is as it has
been tested for, where an instruction relies on a test (`Scene.Safe`).

As for compiled code that is right, states come up only as they are reached from a state `s` that is
kept in mind.  What the actions keep is different here from state to state: `A.Good s ip q fs` is
about all states that are reached from `s` at the address `ip` and the position `q`, with the
actions `fs` added to the log, whatever the actions keep by then.

There is one lemma `good_…` for each instruction.
-/

set_option autoImplicit false

namespace PegMachine

open State Machine

variable {α σ : Type}

namespace State

/-- The state with another store. -/
def holding (s : State α σ) (store : σ) : State α σ := { s with store := store }

theorem Sound.holding {s : State α σ} (hs : s.Sound) (store : σ) : (s.holding store).Sound :=
  ⟨hs.frames, hs.opened⟩

end State

/-- A match, and how it may end. -/
structure Scene (α σ : Type) where
  acts : Actions α σ
  code : Array (Instr α)
  subject : Array Char
  /-- Where the match started. -/
  start : Nat
  /-- Where the match may end, and with which actions. -/
  ends : Nat → List (Firing α) → Prop

namespace Scene

variable (C : Scene α σ)

/-- The state is as the instruction takes it to be, and so is the next character where it has been
tested for. -/
def Allows (s : State α σ) : Instr α → Prop
  | .tested g => Established (some g) C.subject s.pos
  | instr => Machine.Allows C.ends s instr

/-- The state is safe, and the next character is as it has been tested for. -/
structure Safe (s : State α σ) : Prop extends
    Machine.Safe C.code C.subject C.start C.ends s where
  tested : ∀ g, C.code[s.ip]? = some (.tested g) → Established (some g) C.subject s.pos

/-- What comes after the state. -/
abbrev step (s : State α σ) : Outcome α σ := Machine.step C.acts C.code C.subject C.start s

/-- The position is in the subject, and not before the start of the match. -/
structure Inside (q : Nat) : Prop where
  start_le : C.start ≤ q
  le_size : q ≤ C.subject.size

/-- The state has the frame at the bottom of its stack, and its frames and open actions are about
the log as it is. -/
structure Kept (s : State α σ) : Prop where
  sound : s.Sound
  rooted : s.frames.getLast? = some (bottom C.code C.start)

end Scene

/-- What is to be shown of the states of a match. -/
structure Aim (C : Scene α σ) where
  /-- What is to hold of a state. -/
  good : State α σ → Prop
  /-- What is to hold after a step, for the state before to be good. -/
  later : State α σ → Prop
  of_next : ∀ s s', C.Safe s → C.step s = .next s' → later s' → good s
  of_final : ∀ s v store, C.Safe s → C.step s = .final v store → good s
  later_of_good : ∀ s, good s → later s

/-- What the second aim calls good is good enough after a step for the first, and asks for no more.
-/
structure Aim.Precedes {C : Scene α σ} (A A' : Aim C) : Prop where
  later : ∀ s, A'.good s → A.later s
  good : ∀ s, A.good s → A'.good s
  later_of_later : ∀ s, A.later s → A'.later s

theorem Scene.Allows.machine {C : Scene α σ} {s : State α σ} {instr : Instr α}
    (h : C.Allows s instr) : Machine.Allows C.ends s instr := by
  cases instr with
  | tested g => trivial
  | _ => exact h

namespace Scene.Kept

variable {C : Scene α σ} {s : State α σ}

theorem frames_ne_nil (hs : C.Kept s) : s.frames ≠ [] := by
  intro hnil
  have h := hs.rooted
  rw [hnil] at h
  cases h

theorem holding (hs : C.Kept s) (store : σ) : C.Kept (s.holding store) :=
  ⟨hs.sound.holding store, hs.rooted⟩

theorem reach (hs : C.Kept s) (i p : Nat) (fs : List (Firing α)) : C.Kept (s.reach i p fs) :=
  ⟨hs.sound.reach i p fs, hs.rooted⟩

theorem rooted_under (hs : C.Kept s) (f : Frame) :
    (s.under f).frames.getLast? = some (bottom C.code C.start) := by
  rw [State.under, List.getLast?_cons_of_ne_nil hs.frames_ne_nil]
  exact hs.rooted

theorem under (hs : C.Kept s) {f : Frame} (hf : f.logged ≤ s.log.size) : C.Kept (s.under f) :=
  ⟨hs.sound.under hf, hs.rooted_under f⟩

theorem push (hs : C.Kept s) (t : Nat) (at? : Option Nat) : C.Kept (s.push t at?) :=
  hs.under (Nat.le_refl _)

theorem opening (hs : C.Kept s) (a : α) (p : Nat) : C.Kept (s.opening a p) :=
  ⟨hs.sound.opening a p, hs.rooted⟩

/-- A frame above one that is kept in mind may be committed. -/
theorem onChoice (hs : C.Kept s) {f : Frame} (hf : f.pos ≠ none) : OnChoice (s.under f) :=
  ⟨f, s.frames, rfl, hf, hs.frames_ne_nil⟩

end Scene.Kept

namespace Aim

variable {C : Scene α σ} (A : Aim C)

/-- What is reached from the state is good, whatever the actions keep. -/
def Good (s : State α σ) (ip q : Nat) (fs : List (Firing α)) : Prop :=
  ∀ store, A.good ((s.holding store).reach ip q fs)

/-- What is reached from the state is good enough after a step. -/
def Later (s : State α σ) (ip q : Nat) (fs : List (Firing α)) : Prop :=
  ∀ store, A.later ((s.holding store).reach ip q fs)

/-- What comes after a step is good enough. -/
def After : Outcome α σ → Prop
  | .next s => A.later s
  | .final _ _ => True

/-- It is good enough to fail from the state. -/
def Fails (s : State α σ) : Prop := ∀ store, A.After (s.holding store).fail

variable {A} {A' : Aim C} {s : State α σ} {a b t p q : Nat} {fs gs : List (Firing α)} {f : Frame}

theorem Good.later (h : A.Good s a q fs) : A.Later s a q fs :=
  fun store => A.later_of_good _ (h store)

theorem Good.of_reach (h : A.Good (s.reach b p fs) a q gs) : A.Good s a q (fs ++ gs) := by
  intro store
  have := h store
  rwa [show (s.reach b p fs).holding store = (s.holding store).reach b p fs from rfl,
    reach_reach] at this

theorem Good.reach (h : A.Good s a q (fs ++ gs)) : A.Good (s.reach b p fs) a q gs := by
  intro store
  rw [show (s.reach b p fs).holding store = (s.holding store).reach b p fs from rfl, reach_reach]
  exact h store

namespace Precedes

variable (h : A.Precedes A')
include h

theorem later_of_Good (hg : A'.Good s a q fs) : A.Later s a q fs :=
  fun store => h.later _ (hg store)

theorem Good (hg : A.Good s a q fs) : A'.Good s a q fs := fun store => h.good _ (hg store)

theorem Fails (hf : A.Fails s) : A'.Fails s := by
  intro store
  have := hf store
  cases hout : (s.holding store).fail with
  | next s' =>
    rw [hout] at this
    exact h.later_of_later s' this
  | final v st => trivial

end Precedes

/-! ## Failing -/

theorem Fails.reach (h : A.Fails s) (hs : C.Kept s) : A.Fails (s.reach b p fs) := by
  intro store
  have heq : ((s.reach b p fs).holding store).fail = (s.holding store).fail :=
    fail_reach (hs.sound.holding store) b p fs
  rw [heq]
  exact h store

theorem Fails.opening (h : A.Fails s) (hs : C.Kept s) (act : α) : A.Fails (s.opening act p) := by
  intro store
  have heq : ((s.opening act p).holding store).fail = (s.holding store).fail :=
    fail_opening (hs.sound.holding store) act p
  rw [heq]
  exact h store

/-- Failing under a frame that was pushed for a choice goes on from there. -/
theorem fails_push (hs : C.Kept s) (h : A.Later s t p []) : A.Fails (s.push t (some p)) := by
  intro store
  have heq : ((s.push t (some p)).holding store).fail
      = .next ((s.holding store).reach t p []) :=
    fail_push (hs.sound.holding store) t p
  rw [heq]
  exact h store

/-- Failing in a rule is failing where it was called. -/
theorem Fails.call (h : A.Fails s) : A.Fails (s.push t none) := h

/-! ## One instruction -/

/-- A state is good if what its instruction leads to is good enough. -/
theorem good_of_exec {instr : Instr α} (hs : s.frames.getLast? = some (bottom C.code C.start))
    (hq : C.Inside q) (hi : C.code[a]? = some instr)
    (hallow : ∀ store, C.Allows ((s.holding store).reach a q fs) instr)
    (h : ∀ store, A.After (exec C.acts C.subject C.start instr ((s.holding store).reach a q fs))) :
    A.Good s a q fs := by
  intro store
  have hi' : C.code[((s.holding store).reach a q fs).ip]? = some instr := hi
  have hsafe : C.Safe ((s.holding store).reach a q fs) :=
    ⟨⟨⟨instr, hi', (hallow store).machine⟩, .inl hs, hq.start_le, hq.le_size⟩, fun g hg => by
      obtain rfl : instr = .tested g := Option.some.inj (hi'.symm.trans hg)
      exact hallow store⟩
  have hafter := h store
  have hstep : C.step ((s.holding store).reach a q fs)
      = exec C.acts C.subject C.start instr ((s.holding store).reach a q fs) := step_eq_exec hi'
  rw [← hstep] at hafter
  cases hout : C.step ((s.holding store).reach a q fs) with
  | next s' =>
    rw [hout] at hafter
    exact A.of_next _ s' hsafe hout hafter
  | final v st => exact A.of_final _ v st hsafe hout

theorem good_jump (hs : C.Kept s) (hq : C.Inside q) (hi : C.code[a]? = some (.jump t))
    (h : A.Later s t q fs) : A.Good s a q fs :=
  good_of_exec hs.rooted hq hi (fun _ => trivial) h

theorem good_of_jumps (hs : C.Kept s) (hq : C.Inside q) (hj : Jumps C.code a b)
    (h : A.Good s b q fs) : A.Good s a q fs := by
  induction hj with
  | here => exact h
  | jump hi _ ih => exact good_jump hs hq hi (ih h).later

theorem good_fail (hs : C.Kept s) (hq : C.Inside q) (hi : C.code[a]? = some .fail)
    (h : A.Fails s) : A.Good s a q fs :=
  good_of_exec hs.rooted hq hi (fun _ => trivial) (h.reach hs)

theorem good_failTwice (hs : C.Kept s) (hq : C.Inside q) (hf : f.pos ≠ none)
    (hi : C.code[a]? = some .failTwice) (h : A.Fails s) : A.Good (s.under f) a q fs :=
  good_of_exec (hs.rooted_under f) hq hi
    (fun store => ((hs.holding store).reach a q fs).onChoice hf) (h.reach hs)

theorem good_choice (hs : C.Kept s) (hq : C.Inside q) (hi : C.code[a]? = some (.choice t))
    (h : A.Good (s.push t (some q)) (a + 1) q []) : A.Good s a q [] := by
  refine good_of_exec hs.rooted hq hi (fun _ => trivial) fun store => ?_
  have hlater := h.later store
  rwa [show (s.push t (some q)).holding store = (s.holding store).push t (some q) from rfl,
    ← push_reach _ a _ q] at hlater

theorem good_commit (hs : C.Kept s) (hq : C.Inside q) (hf : f.pos ≠ none)
    (hi : C.code[a]? = some (.commit t)) (h : A.Good s t q fs) : A.Good (s.under f) a q fs :=
  good_of_exec (hs.rooted_under f) hq hi
    (fun store => ((hs.holding store).reach a q fs).onChoice hf) h.later

theorem good_partialCommit (hs : C.Kept s) (hq : C.Inside q) (hf : f.pos ≠ none)
    (hi : C.code[a]? = some (.partialCommit t))
    (h : A.Later ((s.reach a q fs).push f.resume (some q)) t q []) :
    A.Good (s.under f) a q fs := by
  refine good_of_exec (hs.rooted_under f) hq hi
    (fun store => ((hs.holding store).reach a q fs).onChoice hf) fun store => ?_
  · have heq : (((s.under f).holding store).reach a q fs).moveUp.goto t
        = (((s.reach a q fs).push f.resume (some q)).holding store).reach t q [] := by
      simp [State.moveUp, State.goto, State.reach, State.under, State.push, State.holding]
    show A.later ((((s.under f).holding store).reach a q fs).moveUp.goto t)
    rw [heq]
    exact h store

/-- Going back to where the choice was made. -/
theorem good_backCommit {u : Nat} (hs : C.Kept s) (hq : C.Inside q)
    (hi : C.code[a]? = some (.backCommit t)) (h : A.Good s t p []) :
    A.Good (s.push u (some p)) a q fs := by
  refine good_of_exec ?_ hq hi (fun store => ?_) fun store => ?_
  · exact (hs.push u (some p)).rooted
  · exact ((hs.holding store).reach a q fs).onChoice (f := ⟨u, some p, s.log.size⟩) (by simp)
  · have heq : (((s.push u (some p)).holding store).reach a q fs).moveBack.goto t
        = (s.holding store).reach t p [] := by
      have hlog : (s.log ++ (fs.map Firing.entry).toArray).take s.log.size = s.log := by simp
      have hopened := congrArg State.opened hs.sound.rollback_size
      simp only [State.rollback] at hopened
      simp only [State.moveBack, State.goto, State.reach, State.push, State.rollback, State.holding,
        hlog, hopened, Option.getD_some, List.map_nil, Array.append_empty]
    show A.later ((((s.push u (some p)).holding store).reach a q fs).moveBack.goto t)
    rw [heq]
    exact h.later store

theorem good_call (hs : C.Kept s) (hq : C.Inside q) (hi : C.code[a]? = some (.call t))
    (h : A.Later (s.push (a + 1) none) t q []) : A.Good s a q [] := by
  refine good_of_exec hs.rooted hq hi (fun _ => trivial) fun store => ?_
  have hlater := h store
  rwa [show (s.push (a + 1) none).holding store = (s.holding store).push (a + 1) none from rfl,
    ← push_reach _ a _ q] at hlater

theorem good_ret (hs : C.Kept s) (hq : C.Inside q) (hi : C.code[a]? = some .ret)
    (h : A.Good s t q fs) : A.Good (s.push t none) a q fs :=
  good_of_exec (hs.push t none).rooted hq hi (fun _ => ⟨_, _, rfl, rfl⟩) h.later

theorem good_consume {instr : Instr α} {want : Char → Bool} (hs : C.Kept s) (hq : C.Inside q)
    (hi : C.code[a]? = some instr) (hallow : ∀ s : State α σ, s.pos = q → C.Allows s instr)
    (hw : ∀ s : State α σ, exec C.acts C.subject C.start instr s = consumeIf want C.subject s)
    (h : q < C.subject.size → A.Good s (a + 1) (q + 1) fs) (hf : A.Fails s) :
    A.Good s a q fs := by
  refine good_of_exec hs.rooted hq hi (fun _ => hallow _ rfl) fun store => ?_
  rw [hw, consumeIf]
  split
  · next c hc =>
    split
    · exact (h (Array.getElem?_eq_some_iff.1 hc).1).later store
    · exact hf.reach hs store
  · exact hf.reach hs store

theorem good_test {instr : Instr α} {want : Char → Bool} (hs : C.Kept s) (hq : C.Inside q)
    (hi : C.code[a]? = some instr) (hallow : ∀ s : State α σ, C.Allows s instr)
    (hw : ∀ s : State α σ, exec C.acts C.subject C.start instr s = testFor want t C.subject s)
    (h : ∀ c, C.subject[q]? = some c → want c = true → A.Good s (a + 1) q fs)
    (hother : A.Good s t q fs) : A.Good s a q fs := by
  refine good_of_exec hs.rooted hq hi (fun _ => hallow _) fun store => ?_
  rw [hw, testFor]
  split
  · next c hc =>
    split
    · next hwant => exact (h c hc hwant).later store
    · exact hother.later store
  · exact hother.later store

theorem good_span {k : CharClass} (hs : C.Kept s) (hq : C.Inside q)
    (hi : C.code[a]? = some (.span k)) (h : A.Good s (a + 1) (spanEnd k C.subject q) fs) :
    A.Good s a q fs :=
  good_of_exec hs.rooted hq hi (fun _ => trivial) h.later

theorem good_behind {n : Nat} (hs : C.Kept s) (hq : C.Inside q)
    (hi : C.code[a]? = some (.behind n)) (h : n ≤ q - C.start → A.Good s (a + 1) (q - n) fs)
    (hf : A.Fails s) : A.Good s a q fs := by
  refine good_of_exec hs.rooted hq hi (fun _ => trivial) fun store => ?_
  have hexec : exec C.acts C.subject C.start (.behind n) ((s.holding store).reach a q fs)
      = if q - C.start < n then ((s.holding store).reach a q fs).fail
        else .next ((s.holding store).reach (a + 1) (q - n) fs) := rfl
  rw [hexec]
  split
  · exact hf.reach hs store
  · next hn => exact (h (Nat.not_lt.1 hn)).later store

theorem good_openAction {act : α} (hs : C.Kept s) (hq : C.Inside q)
    (hi : C.code[a]? = some (.openAction act)) (h : A.Good (s.opening act q) (a + 1) q []) :
    A.Good s a q [] := by
  refine good_of_exec hs.rooted hq hi (fun _ => trivial) fun store => ?_
  have heq : openAction act ((s.holding store).reach a q [])
      = ((s.opening act q).holding store).reach (a + 1) q [] := by
    simp [openAction, State.advance, State.opening, State.reach, State.holding]
  show A.later (openAction act ((s.holding store).reach a q []))
  rw [heq]
  exact h.later store

theorem good_closeAction {act : α} (hs : C.Kept s) (hq : C.Inside q)
    (hi : C.code[a]? = some .closeAction)
    (h : ∀ stop, q ≤ stop → stop ≤ C.subject.size →
      A.Good s (a + 1) stop (⟨act, p, stop⟩ :: fs))
    (hf : A.Fails s) : A.Good (s.opening act p) a q fs := by
  refine good_of_exec hs.rooted hq hi (fun store => ?_) fun store => ?_
  · exact ⟨_, _, _, rfl, getElem?_log_opening (s.holding store) act p a q fs, rfl⟩
  · have hopened : (((s.holding store).opening act p).reach a q fs).opened
        = s.log.size :: s.opened := rfl
    have hlog := getElem?_log_opening (s.holding store) act p a q fs
    show A.After (closeAction C.acts C.subject (((s.holding store).opening act p).reach a q fs))
    rw [closeAction, hopened]
    simp only
    rw [show s.log.size = (s.holding store).log.size from rfl, hlog]
    simp only
    split
    · next st _ =>
      have hmore : (((s.holding store).opening act p).reach a q fs).log
          = s.log ++ (#[⟨act, p, none⟩] ++ (fs.map Firing.entry).toArray) := by
        simp [State.opening, State.reach, State.holding]
      have heq : ({ ((s.holding store).opening act p).reach a q fs with
          opened := s.opened, store := st } : State α σ).fail = (s.holding st).fail :=
        (hs.sound.holding st).fail_eq rfl rfl (List.forall_mem_nil _) rfl hmore
      rw [heq]
      exact hf st
    · next answer st _ =>
      split
      · trivial
      · next hgood =>
        simp only [not_or, Nat.not_lt] at hgood
        have hlater := (h answer hgood.1 hgood.2).later st
        have hset := setIfInBounds_log_opening (s.holding store) act p a q answer fs
        show A.later _
        rw [hset]
        exact hlater

/-- Where the match ends with success. -/
theorem good_halt (hs : C.Kept s) (hq : C.Inside q) (hi : C.code[a]? = some .halt)
    (hlog : s.log = #[]) (hopened : s.opened = []) (h : C.ends q fs) : A.Good s a q fs := by
  refine good_of_exec hs.rooted hq hi (fun store => ⟨hopened, fs, ?_, h⟩) fun _ => trivial
  show s.log ++ (fs.map Firing.entry).toArray = _
  rw [hlog, Array.empty_append]

end Aim
end PegMachine
