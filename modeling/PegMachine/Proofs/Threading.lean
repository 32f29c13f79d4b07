import Mathlib.Data.List.Forall2
import Mathlib.Logic.Relation
import PegMachine.Capture
import PegMachine.Program
import PegMachine.Proofs.CharClass
import PegMachine.Proofs.Code.Jumps
import PegMachine.Proofs.Observation

/-!
# Threading jumps is invisible

`Segment.threadJumps` rewrites code in place, one address after the other, and looks at code that is
half rewritten while it does so.  That is no trouble once each single rewriting is known to be
invisible, for any code: the pass is then a chain of steps that do not show.

One rewriting changes the instruction at one address.  The new code runs ahead of the old one: it is
where the old one gets to by jumps alone, and its frames resume where those of the old one get to by
jumps alone.  `Tracks` is this relation, `exec_tracks` says that one instruction keeps it, and
`exists_tracks_step` that a step of the new code is some jumps of the old code and then a step.

* `Rewires` — what one rewriting may do to the code.
* `Rewires.sameToSee` — it is invisible.
* `rewires_threadAt` — it is what `Segment.threadAt` does.
* `sameToSee_threadJumps` — so the whole pass is invisible.
-/

set_option autoImplicit false

namespace PegMachine

open State Machine

variable {α σ : Type}

/-! ## Jumps in place -/

namespace Segment

theorem jumps_landing (code : Array (Instr α)) (addr : Nat) :
    Jumps code addr ((Segment.mk 0 code).landing addr) :=
  (heldBy_self code).jumps_landing addr

/-- Behind a jump, the landing is the landing of its target, or as far on the way there as the
search goes. -/
theorem jumps_target_landing {code : Array (Instr α)} {addr t : Nat}
    (h : code[addr]? = some (.jump t)) : Jumps code t ((Segment.mk 0 code).landing addr) := by
  obtain ⟨n, hn⟩ : ∃ n, code.size = n + 1 := by
    have := (Array.getElem?_eq_some_iff.1 h).1
    exact ⟨code.size - 1, by omega⟩
  rw [landing, hn, follow, get?_zero, h]
  exact (heldBy_self code).jumps_follow n t

end Segment

/-! ## One rewriting -/

/-- Whether what the instruction does is the same at every address. -/
def Instr.anywhere : Instr α → Bool
  | .ret | .fail | .failTwice | .halt => true
  | .commit _ | .partialCommit _ | .backCommit _ => true
  | _ => false

/-- The instruction with another target, which is further on along the jumps; a test may be finished
at the same time. -/
inductive Retargets (code : Array (Instr α)) : Instr α → Instr α → Prop
  | move {instr : Instr α} {t' : Nat} (h : ∀ t, instr.target? = some t → Jumps code t t') :
      Retargets code instr (instr.withTarget t')
  | finish {k : TestClass} {t t' : Nat} (h : Jumps code t t') :
      Retargets code (.testSet k t) (.testSet k.finish t')

/-- What stands at the address `i` may be replaced by the instruction `new`: it is what stood there
before, with another target, or the instruction that the jumps from `i` on lead to. -/
def Replaces (code : Array (Instr α)) (i : Nat) (new : Instr α) : Prop :=
  (∃ old, code[i]? = some old ∧ Retargets code old new) ∨
  ∃ j old, Jumps code i j ∧ code[j]? = some old ∧ old.anywhere = true ∧ Retargets code old new

/-- The second code is the first with some instructions replaced. -/
structure Rewires (code code' : Array (Instr α)) : Prop where
  /-- No instruction is added or dropped. -/
  size_eq : code'.size = code.size
  /-- Each instruction is one that may stand there. -/
  replaces : ∀ i new, code'[i]? = some new → Replaces code i new

theorem Instr.withTarget_eq_self {instr : Instr α} {t : Nat}
    (h : ∀ u, instr.target? = some u → t = u) : instr.withTarget t = instr := by
  cases instr <;> simp_all [withTarget, target?]

theorem Retargets.refl (code : Array (Instr α)) (instr : Instr α) :
    Retargets code instr instr := by
  have hself : instr.withTarget (instr.target?.getD 0) = instr :=
    Instr.withTarget_eq_self fun u hu => by rw [hu]; rfl
  have h : Retargets code instr (instr.withTarget (instr.target?.getD 0)) :=
    .move fun t ht => by rw [ht]; exact .here
  rwa [hself] at h

/-! ## Running ahead -/

/-- The frames are the same but that the second resumes further on along the jumps. -/
structure FrameTracks (code : Array (Instr α)) (f f' : Frame) : Prop where
  /-- Where the first resumes, jumps lead to where the second does. -/
  resume : Jumps code f.resume f'.resume
  pos : f'.pos = f.pos
  logged : f'.logged = f.logged

/-- The states are the same but for the address, and for frames that resume further on along the
jumps. -/
structure Alike (code : Array (Instr α)) (s s' : State α σ) : Prop where
  pos : s'.pos = s.pos
  frames : List.Forall₂ (FrameTracks code) s.frames s'.frames
  log : s'.log = s.log
  opened : s'.opened = s.opened
  store : s'.store = s.store

/-- The states are alike, and the second is further on along the jumps. -/
structure Tracks (code : Array (Instr α)) (s s' : State α σ) : Prop extends Alike code s s' where
  ip : Jumps code s.ip s'.ip

variable {code : Array (Instr α)} {s s' : State α σ}

theorem FrameTracks.refl (f : Frame) : FrameTracks code f f := ⟨.here, rfl, rfl⟩

theorem Tracks.refl (s : State α σ) : Tracks code s s where
  pos := rfl
  frames := List.forall₂_same.2 fun f _ => .refl f
  log := rfl
  opened := rfl
  store := rfl
  ip := .here

namespace Alike

/-- Alike states go on alike from addresses of which the second is further on. -/
theorem goto (h : Alike code s s') {t t' : Nat} (ht : Jumps code t t') :
    Tracks code (s.goto t) (s'.goto t') :=
  ⟨⟨h.pos, h.frames, h.log, h.opened, h.store⟩, ht⟩

theorem pop (h : Alike code s s') : Alike code s.pop s'.pop := by
  obtain ⟨ip, pos, frames, log, opened, store⟩ := s
  obtain ⟨ip', pos', frames', log', opened', store'⟩ := s'
  obtain ⟨rfl, hf, rfl, rfl, rfl⟩ := h
  cases hf with
  | nil => exact ⟨rfl, .nil, rfl, rfl, rfl⟩
  | cons _ hr => exact ⟨rfl, hr, rfl, rfl, rfl⟩

theorem push (h : Alike code s s') {t t' : Nat} (ht : Jumps code t t') (p : Option Nat) :
    Alike code (s.push t p) (s'.push t' p) := by
  refine ⟨h.pos, .cons ⟨ht, rfl, ?_⟩ h.frames, h.log, h.opened, h.store⟩
  exact congrArg Array.size h.log

theorem rollback (h : Alike code s s') (n : Nat) : Alike code (s.rollback n) (s'.rollback n) :=
  ⟨h.pos, h.frames, congrArg (·.take n) h.log, congrArg (·.dropWhile (n ≤ ·)) h.opened, h.store⟩

theorem moveUp (h : Alike code s s') : Alike code s.moveUp s'.moveUp := by
  obtain ⟨ip, pos, frames, log, opened, store⟩ := s
  obtain ⟨ip', pos', frames', log', opened', store'⟩ := s'
  obtain ⟨rfl, hf, rfl, rfl, rfl⟩ := h
  cases hf with
  | nil => exact ⟨rfl, .nil, rfl, rfl, rfl⟩
  | cons hf hr => exact ⟨rfl, .cons ⟨hf.resume, rfl, rfl⟩ hr, rfl, rfl, rfl⟩

theorem moveBack (h : Alike code s s') : Alike code s.moveBack s'.moveBack := by
  obtain ⟨ip, pos, frames, log, opened, store⟩ := s
  obtain ⟨ip', pos', frames', log', opened', store'⟩ := s'
  obtain ⟨rfl, hf, rfl, rfl, rfl⟩ := h
  cases hf with
  | nil => exact ⟨rfl, .nil, rfl, rfl, rfl⟩
  | @cons f f' _ _ hf hr =>
    simp only [State.moveBack, hf.pos, hf.logged]
    have hrest : ∀ p, Alike code (⟨ip, p, _, log', opened', store'⟩ : State α σ)
        ⟨ip', p, _, log', opened', store'⟩ := fun _ => ⟨rfl, hr, rfl, rfl, rfl⟩
    exact (hrest _).rollback _

/-- Alike states fail alike. -/
theorem fail (h : Alike code s s') : Outcome.Rel (Tracks code) s.fail s'.fail := by
  obtain ⟨ip, pos, frames, log, opened, store⟩ := s
  obtain ⟨ip', pos', frames', log', opened', store'⟩ := s'
  obtain ⟨rfl, hf, rfl, rfl, rfl⟩ := h
  simp only at hf
  simp only [State.fail]
  induction hf with
  | nil => exact .final
  | @cons f f' _ _ hf hr ih =>
    rw [unwind, unwind, hf.pos]
    cases f.pos with
    | none => exact ih
    | some pos =>
      simp only [hf.logged]
      have hrest : Alike code (⟨f.resume, pos, _, log', opened', store'⟩ : State α σ)
        ⟨f'.resume, pos, _, log', opened', store'⟩ := ⟨rfl, hr, rfl, rfl, rfl⟩
      exact .next ⟨hrest.rollback _, hf.resume⟩

theorem consumeIf (h : Alike code s s') (hip : s'.ip = s.ip) (want : Char → Bool)
    (subject : Array Char) :
    Outcome.Rel (Tracks code) (Machine.consumeIf want subject s) (Machine.consumeIf want subject s') := by
  rw [Machine.consumeIf, Machine.consumeIf, h.pos]
  split
  · split
    · refine .next ⟨⟨?_, h.frames, h.log, h.opened, h.store⟩, ?_⟩
      · exact congrArg (· + 1) h.pos
      · show Jumps code (s.ip + 1) (s'.ip + 1)
        rw [hip]
        exact .here
    · exact h.fail
  · exact h.fail

theorem testFor (h : Alike code s s') (hip : s'.ip = s.ip) {want want' : Char → Bool}
    (hw : ∀ c, want' c = want c) {t t' : Nat} (ht : Jumps code t t') (subject : Array Char) :
    Outcome.Rel (Tracks code) (Machine.testFor want t subject s)
      (Machine.testFor want' t' subject s') := by
  have hnext : Tracks code s.advance s'.advance := by
    refine h.goto ?_
    rw [hip]
    exact .here
  rw [Machine.testFor, Machine.testFor, h.pos]
  split
  · rw [hw]
    split
    · exact .next hnext
    · exact .next (h.goto ht)
  · exact .next (h.goto ht)

theorem closeAction (h : Alike code s s') (hip : s'.ip = s.ip) (acts : Actions α σ)
    (subject : Array Char) :
    Outcome.Rel (Tracks code) (Machine.closeAction acts subject s)
      (Machine.closeAction acts subject s') := by
  obtain ⟨ip, pos, frames, log, opened, store⟩ := s
  obtain ⟨ip', pos', frames', log', opened', store'⟩ := s'
  obtain ⟨rfl, hf, rfl, rfl, rfl⟩ := h
  obtain rfl : ip' = ip := hip
  simp only [Machine.closeAction]
  split
  · exact .final
  · split
    · exact .final
    · split
      · exact Alike.fail ⟨rfl, hf, rfl, rfl, rfl⟩
      · split
        · exact .final
        · exact .next ⟨⟨rfl, hf, rfl, rfl, rfl⟩, .here⟩

end Alike

/-! ## One instruction -/

/-- The instruction and its replacement keep the states alike, from the same address or if what they
do is the same at every address. -/
theorem exec_tracks {acts : Actions α σ} {subject : Array Char} {start : Nat} {old new : Instr α}
    (hr : Retargets code old new) (h : Alike code s s') (hip : s'.ip = s.ip ∨ old.anywhere = true) :
    Outcome.Rel (Tracks code) (exec acts subject start old s) (exec acts subject start new s') := by
  cases hr with
  | @finish k t t' ht =>
    have hip : s'.ip = s.ip := hip.resolve_right (by simp [Instr.anywhere])
    refine h.testFor hip (fun c => ?_) ht subject
    cases k with
    | pending set => exact CharClass.contains_ofSet set (CharSet.val_le_maxCodePoint c)
    | ready k => rfl
  | @move old t' ht =>
    -- the address matters to an instruction that goes on with the next one
    have hnext : s'.ip = s.ip → Jumps code (s.ip + 1) (s'.ip + 1) := fun hip => by
      rw [hip]
      exact .here
    cases old with
    | any => exact h.consumeIf (hip.resolve_right (by simp [Instr.anywhere])) _ subject
    | tested g => exact h.consumeIf (hip.resolve_right (by simp [Instr.anywhere])) _ subject
    | char c => exact h.consumeIf (hip.resolve_right (by simp [Instr.anywhere])) _ subject
    | set k => exact h.consumeIf (hip.resolve_right (by simp [Instr.anywhere])) _ subject
    | testAny t =>
      exact h.testFor (hip.resolve_right (by simp [Instr.anywhere])) (fun _ => rfl) (ht t rfl) subject
    | testChar c t =>
      exact h.testFor (hip.resolve_right (by simp [Instr.anywhere])) (fun _ => rfl) (ht t rfl) subject
    | testSet k t =>
      exact h.testFor (hip.resolve_right (by simp [Instr.anywhere])) (fun _ => rfl) (ht t rfl) subject
    | span k =>
      have hip : s'.ip = s.ip := hip.resolve_right (by simp [Instr.anywhere])
      refine .next ⟨⟨?_, h.frames, h.log, h.opened, h.store⟩, hnext hip⟩
      exact congrArg (spanEnd k subject) h.pos
    | behind n =>
      have hip : s'.ip = s.ip := hip.resolve_right (by simp [Instr.anywhere])
      simp only [Instr.withTarget, exec, h.pos]
      split
      · exact h.fail
      · exact .next ⟨⟨rfl, h.frames, h.log, h.opened, h.store⟩, hnext hip⟩
    | ret =>
      simp only [Instr.withTarget, exec]
      obtain ⟨ip, pos, frames, log, opened, store⟩ := s
      obtain ⟨ip', pos', frames', log', opened', store'⟩ := s'
      obtain ⟨rfl, hf, rfl, rfl, rfl⟩ := h
      cases hf with
      | nil => exact .final
      | cons hf hr => exact .next ⟨⟨rfl, hr, rfl, rfl, rfl⟩, hf.resume⟩
    | halt =>
      simp only [Instr.withTarget, exec, h.pos, h.log, h.store]
      exact .final
    | giveUp =>
      simp only [Instr.withTarget, exec, h.store]
      exact .final
    | choice t =>
      have hip : s'.ip = s.ip := hip.resolve_right (by simp [Instr.anywhere])
      simp only [Instr.withTarget, exec, h.pos]
      exact .next ((h.push (ht t rfl) (some s.pos)).goto (hnext hip))
    | jump t => exact .next (h.goto (ht t rfl))
    | call t =>
      have hip : s'.ip = s.ip := hip.resolve_right (by simp [Instr.anywhere])
      exact .next ((h.push (hnext hip) none).goto (ht t rfl))
    | openCall rule =>
      simp only [Instr.withTarget, exec, h.store]
      exact .final
    | commit t => exact .next (h.pop.goto (ht t rfl))
    | partialCommit t => exact .next (h.moveUp.goto (ht t rfl))
    | backCommit t => exact .next (h.moveBack.goto (ht t rfl))
    | failTwice => exact h.pop.fail
    | fail => exact h.fail
    | openAction a =>
      have hip : s'.ip = s.ip := hip.resolve_right (by simp [Instr.anywhere])
      refine .next ⟨⟨h.pos, h.frames, ?_, ?_, h.store⟩, hnext hip⟩
      · show s'.log.push ⟨a, s'.pos, none⟩ = s.log.push ⟨a, s.pos, none⟩
        rw [h.log, h.pos]
      · show s'.log.size :: s'.opened = s.log.size :: s.opened
        rw [h.log, h.opened]
    | closeAction => exact h.closeAction (hip.resolve_right (by simp [Instr.anywhere])) acts subject

/-! ## Many steps -/

section Runs

variable (acts : Actions α σ) (subject : Array Char) (start : Nat)

/-- Jumps alone do not show. -/
theorem Jumps.quiet {i j : Nat} (h : Jumps code i j) {s : State α σ} (hi : s.ip = i) :
    Quiet acts code subject start s (s.goto j) := by
  induction h generalizing s with
  | here =>
    obtain rfl := hi
    exact .refl
  | @jump i t j hjump _ ih =>
    obtain rfl := hi
    have hstep : step acts code subject start s = .next (s.goto t) := by rw [step, hjump]; rfl
    exact .head ⟨hstep, rfl⟩ (ih (s := s.goto t) rfl)

/-- A step of the new code is some jumps of the old one and then a step. -/
theorem Rewires.exists_tracks_step {code' : Array (Instr α)} (hw : Rewires code code')
    (h : Tracks code s s') :
    ∃ j, Jumps code s.ip j ∧ Outcome.Rel (Tracks code) (step acts code subject start (s.goto j))
      (step acts code' subject start s') := by
  have hgoto : ∀ j, Alike code (s.goto j) s' := fun j => ⟨h.pos, h.frames, h.log, h.opened, h.store⟩
  cases hnew : code'[s'.ip]? with
  | none =>
    have hold : code[s'.ip]? = none := by
      rw [Array.getElem?_eq_none_iff] at hnew ⊢
      rwa [hw.size_eq] at hnew
    refine ⟨s'.ip, h.ip, ?_⟩
    have hold' : code[(s.goto s'.ip).ip]? = none := hold
    rw [step, step, hnew, hold']
    show Outcome.Rel (Tracks code) (.final .broken s.store) (.final .broken s'.store)
    rw [h.store]
    exact .final
  | some new =>
    rcases hw.replaces _ _ hnew with ⟨old, hold, hr⟩ | ⟨j, old, hj, hold, hany, hr⟩
    · refine ⟨s'.ip, h.ip, ?_⟩
      have hold' : code[(s.goto s'.ip).ip]? = some old := hold
      rw [step, step, hnew, hold']
      exact exec_tracks hr (hgoto _) (.inl rfl)
    · refine ⟨j, h.ip.trans hj, ?_⟩
      have hold' : code[(s.goto j).ip]? = some old := hold
      rw [step, step, hnew, hold']
      exact exec_tracks hr (hgoto _) (.inr hany)

/-- The new code does what the old one does, but for jumps. -/
theorem Rewires.mimics {code' : Array (Instr α)} (hw : Rewires code code') :
    Mimics acts code code' subject start (Tracks code) := by
  intro s s' h
  obtain ⟨j, hj, hrel⟩ := hw.exists_tracks_step acts subject start h
  exact ⟨h.store, s.goto j, hj.quiet acts subject start rfl, hrel⟩

end Runs

/-- **One rewriting is invisible.** -/
theorem Rewires.sameToSee {code' : Array (Instr α)} (hw : Rewires code code') :
    SameToSee code code' :=
  fun _ acts subject start s => (hw.mimics acts subject start).seenAlike (.refl s)

/-! ## The pass -/

theorem Rewires.refl (code : Array (Instr α)) : Rewires code code :=
  ⟨rfl, fun _ _ h => .inl ⟨_, h, .refl code _⟩⟩

theorem Rewires.set {addr : Nat} {new : Instr α} (h : Replaces code addr new) :
    Rewires code (code.setIfInBounds addr new) := by
  refine ⟨Array.size_setIfInBounds, fun i instr hi => ?_⟩
  by_cases hia : addr = i
  · obtain rfl := hia
    rw [Array.getElem?_setIfInBounds_self] at hi
    split at hi
    · cases hi
      exact h
    · cases hi
  · rw [Array.getElem?_setIfInBounds_ne hia] at hi
    exact .inl ⟨_, hi, .refl code _⟩

namespace Segment

theorem put_zero (code : Array (Instr α)) (addr : Nat) (instr : Instr α) :
    (Segment.mk 0 code).put addr instr = ⟨0, code.setIfInBounds addr instr⟩ := by
  simp [put]

/-- An instruction may be replaced by itself, with its target moved to where jumps lead. -/
theorem replaces_retarget {addr : Nat} {old : Instr α} (h : code[addr]? = some old) :
    Replaces code addr ((Segment.mk 0 code).retarget old) := by
  refine .inl ⟨old, h, ?_⟩
  rw [retarget]
  split
  · next t ht =>
    refine .move fun u hu => ?_
    rw [ht] at hu
    cases hu
    exact jumps_landing code t
  · exact .refl code old

/-- A jump may be replaced by what stands where it lands, if that does the same at every address,
and else by a jump to there. -/
theorem replaces_threadJump {addr t : Nat} (h : code[addr]? = some (.jump t)) :
    Replaces code addr ((Segment.mk 0 code).threadJump addr) := by
  have hland := jumps_landing code addr
  have hcopy : ∀ {old new : Instr α},
      (Segment.mk 0 code).get? ((Segment.mk 0 code).landing addr) = some old →
      old.anywhere = true → Retargets code old new → Replaces code addr new := by
    intro old new hold hany hr
    rw [get?_zero] at hold
    exact .inr ⟨_, old, hland, hold, hany, hr⟩
  rw [threadJump]
  split
  · next ho => exact hcopy ho rfl (.refl code _)
  · next ho => exact hcopy ho rfl (.refl code _)
  · next ho => exact hcopy ho rfl (.refl code _)
  · next ho => exact hcopy ho rfl (.refl code _)
  · next u ho =>
    exact hcopy ho rfl (.move  fun _ hu => by cases hu; exact jumps_landing code u)
  · next u ho =>
    exact hcopy ho rfl
      (.move  fun _ hu => by cases hu; exact jumps_landing code u)
  · next u ho =>
    exact hcopy ho rfl
      (.move  fun _ hu => by cases hu; exact jumps_landing code u)
  · refine .inl ⟨_, h, .move  fun _ hu => ?_⟩
    cases hu
    exact jumps_target_landing h

/-- Threading one address rewrites the code, and leaves it where it is. -/
theorem rewires_threadAt (code : Array (Instr α)) (addr : Nat) :
    ∃ code', (Segment.mk 0 code).threadAt addr = ⟨0, code'⟩ ∧ Rewires code code' := by
  rw [threadAt, get?_zero]
  split
  · exact ⟨code, rfl, .refl code⟩
  · next t h => exact ⟨_, put_zero .., .set (replaces_threadJump h)⟩
  · next k t h =>
    exact ⟨_, put_zero .., .set (.inl ⟨_, h, .finish (jumps_landing code t)⟩)⟩
  · next h => exact ⟨_, put_zero .., .set (replaces_retarget h)⟩

/-- Threading is one rewriting after the other. -/
theorem rewires_threadJumps (code : Array (Instr α)) :
    Relation.ReflTransGen Rewires code (Segment.mk 0 code).threadJumps.code := by
  rw [threadJumps]
  generalize (Segment.mk 0 code).addresses = addrs
  induction addrs generalizing code with
  | nil => exact .refl
  | cons addr rest ih =>
    obtain ⟨code', heq, hw⟩ := rewires_threadAt code addr
    rw [List.foldl_cons, heq]
    exact .head hw (ih code')

/-- **Threading is invisible**, for any code, and keeps its length. -/
theorem sameToSee_threadJumps (code : Array (Instr α)) :
    SameToSee code (Segment.mk 0 code).threadJumps.code
      ∧ (Segment.mk 0 code).threadJumps.code.size = code.size := by
  have h := rewires_threadJumps code
  generalize (Segment.mk 0 code).threadJumps.code = code' at h ⊢
  induction h with
  | refl => exact ⟨.refl code, rfl⟩
  | tail _ hw ih => exact ⟨ih.1.trans hw.sameToSee, hw.size_eq.trans ih.2⟩

end Segment

/-! ## Programs -/

namespace Program

/-- A program is the resolved expression laid out within the limit, and threaded if that was asked
for. -/
theorem compile_eq_ok {options : CompileOptions} {p : Pattern α} {prog : Program α}
    (h : compile options p = .ok prog) :
    ∃ root, p.root.resolve p.refs [] = .ok root ∧
      prog.code = if options.thread then (Segment.mk 0 (layout root).toArray).threadJumps.code
        else (layout root).toArray := by
  rw [compile] at h
  cases hr : p.root.resolve p.refs [] with
  | error e => rw [hr] at h; cases h
  | ok root =>
    rw [hr] at h
    refine ⟨root, rfl, ?_⟩
    simp only [bind, Except.bind, pure, Except.pure] at h
    split at h
    · cases h
    · cases h
      rfl

/-- **Threading is invisible in the programs of patterns.** -/
theorem sameMatches_of_thread {p : Pattern α} {limit limit' : Nat} {plain threaded : Program α}
    (hplain : compile ⟨false, limit⟩ p = .ok plain)
    (hthreaded : compile ⟨true, limit'⟩ p = .ok threaded) : plain.SameMatches threaded := by
  obtain ⟨root, hroot, hcode⟩ := compile_eq_ok hplain
  obtain ⟨root', hroot', hcode'⟩ := compile_eq_ok hthreaded
  obtain rfl : root = root' := by
    rw [hroot] at hroot'
    cases hroot'
    rfl
  have h := Segment.sameToSee_threadJumps (layout root).toArray
  rw [if_neg (by simp)] at hcode
  rw [if_pos rfl] at hcode'
  rw [← hcode', ← hcode] at h
  exact sameMatches_of_sameToSee h.1 h.2

/-- A choice between a captured word and a letter: threading shortens the jump over the letter, and
finishes the test. -/
theorem sameMatches_of_thread_choice :
    let p : Pattern Mark :=
      ⟨.choice (.action (.substring "word") (.seq (.char 'a') (.char 'b'))) (.char 'c'), []⟩
    ∃ plain threaded, compile ⟨false, 20⟩ p = .ok plain ∧ compile ⟨true, 20⟩ p = .ok threaded ∧
      plain.SameMatches threaded := by
  intro p
  obtain ⟨plain, hplain⟩ : ∃ plain, compile ⟨false, 20⟩ p = .ok plain := ⟨_, rfl⟩
  obtain ⟨threaded, hthreaded⟩ : ∃ threaded, compile ⟨true, 20⟩ p = .ok threaded := ⟨_, rfl⟩
  exact ⟨plain, threaded, hplain, hthreaded, sameMatches_of_thread hplain hthreaded⟩

end Program
end PegMachine
