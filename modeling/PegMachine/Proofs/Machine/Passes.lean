import PegMachine.Proofs.Code.TailCalls
import PegMachine.Proofs.Machine.Safety
import PegMachine.Proofs.Threading

/-!
# The passes over the code keep it safe

Between the plain code of a pattern, in which every call is a call, and its program lie the tail
calls and the threading of jumps.  Each of these changes is a replacement of some instructions, and
the new code follows the old one: it is safe where the old one is, and its matches end where those
of the old one do.

For a tail call the old code has more frames, those that lead behind the call (`Skips`): where the
new code returns once, the old one returns to behind the call, and by jumps to another return.
Nothing else may find such a frame on top of the stack, and this is where it matters that the old
code is safe.

* `follows_tailStep` — one tail call.
* `Rewires.follows` — one rewriting of `Segment.threadJumps`.
* `SharesTests` — what the new code takes to be tested about the next character is so in the old one.
-/

set_option autoImplicit false

namespace PegMachine

open State Machine Relation

variable {α σ : Type} {acts : Actions α σ} {code code' : Array (Instr α)} {subject : Array Char}
  {start : Nat} {ends : Nat → List (Firing α) → Prop} {s s' : State α σ}

/-! ## Frames that lead behind a tail call -/

/-- The second stack is the first without some frames that lead behind the call at `a`. -/
inductive Skips (a : Nat) : List Frame → List Frame → Prop
  | nil : Skips a [] []
  | keep (f : Frame) {rest rest' : List Frame} (h : Skips a rest rest') :
      Skips a (f :: rest) (f :: rest')
  | skip {f : Frame} {rest rest' : List Frame} (hresume : f.resume = a + 1) (hpos : f.pos = none)
      (h : Skips a rest rest') : Skips a (f :: rest) rest'

namespace Skips

variable {a : Nat} {frames frames' rest : List Frame} {f : Frame}

theorem refl (a : Nat) (frames : List Frame) : Skips a frames frames := by
  induction frames with
  | nil => exact .nil
  | cons f rest ih => exact .keep f ih

/-- A frame that was pushed for a choice is in both. -/
theorem of_choice (h : Skips a (f :: rest) frames') (hf : f.pos ≠ none) :
    ∃ rest', frames' = f :: rest' ∧ Skips a rest rest' := by
  cases h with
  | keep _ h => exact ⟨_, rfl, h⟩
  | skip _ hpos => exact absurd hpos hf

theorem getLast? (h : Skips a frames frames') (hlast : frames.getLast? = some f)
    (hf : f.pos ≠ none) : frames'.getLast? = some f := by
  induction h with
  | nil => exact hlast
  | @keep g rest rest' h ih =>
    cases rest with
    | nil =>
      cases h
      exact hlast
    | cons g' rest =>
      have hrest := ih (by simpa using hlast)
      rw [List.getLast?_cons, hrest, Option.getD_some]
  | @skip g rest rest' _ hpos h ih =>
    cases rest with
    | nil =>
      cases hlast
      exact absurd hpos hf
    | cons g' rest => exact ih (by simpa using hlast)

theorem unwind (h : Skips a frames frames') :
    (State.unwind frames = none ∧ State.unwind frames' = none) ∨
      ∃ f pos rest rest', State.unwind frames = some (f, pos, rest) ∧
        State.unwind frames' = some (f, pos, rest') ∧ Skips a rest rest' := by
  induction h with
  | nil => exact .inl ⟨rfl, rfl⟩
  | keep f h ih =>
    rw [State.unwind, State.unwind]
    split
    · exact .inr ⟨_, _, _, _, rfl, rfl, h⟩
    · exact ih
  | skip _ hpos _ ih =>
    rw [State.unwind, hpos]
    exact ih

end Skips

/-- The states are the same but for frames that lead behind the call at `a`. -/
structure Trims (a : Nat) (s s' : State α σ) : Prop where
  frames : Skips a s.frames s'.frames
  eq : s' = { s with frames := s'.frames }

namespace Trims

variable {a : Nat} {frames frames' : List Frame}

theorem fail (h : Skips a s.frames frames') :
    Outcome.Rel (Trims a) s.fail ({ s with frames := frames' } : State α σ).fail := by
  rw [State.fail, State.fail]
  rcases h.unwind with ⟨hu, hu'⟩ | ⟨f, pos, rest, rest', hu, hu', hrest⟩
  · simp only [hu, hu']
    exact .final
  · simp only [hu, hu']
    exact .next ⟨hrest, rfl⟩

theorem consumeIf (h : Skips a s.frames frames') (want : Char → Bool) :
    Outcome.Rel (Trims a) (Machine.consumeIf want subject s)
      (Machine.consumeIf want subject { s with frames := frames' }) := by
  simp only [Machine.consumeIf]
  split
  · split
    · exact .next ⟨h, rfl⟩
    · exact fail h
  · exact fail h

theorem testFor (h : Skips a s.frames frames') (want : Char → Bool) (t : Nat) :
    Outcome.Rel (Trims a) (Machine.testFor want t subject s)
      (Machine.testFor want t subject { s with frames := frames' }) := by
  simp only [Machine.testFor]
  split
  · split <;> exact .next ⟨h, rfl⟩
  · exact .next ⟨h, rfl⟩

theorem closeAction (h : Skips a s.frames frames') :
    Outcome.Rel (Trims a) (Machine.closeAction acts subject s)
      (Machine.closeAction acts subject { s with frames := frames' }) := by
  simp only [Machine.closeAction]
  split
  · exact .final
  · next i opened _ =>
    split
    · exact .final
    · split
      · next store _ => exact fail (s := { s with opened := opened, store := store }) h
      · split
        · exact .final
        · exact .next ⟨h, rfl⟩

/-- What the instruction takes for granted holds without the frames. -/
theorem allows {instr : Instr α} (h : Skips a s.frames frames') (hret : instr ≠ .ret)
    (hbottom : instr ≠ .giveUp → s.frames.getLast? = some (bottom code start))
    (hallow : Allows ends s instr) : Allows ends { s with frames := frames' } instr := by
  have hchoice : instr ≠ .giveUp → OnChoice s →
      OnChoice ({ s with frames := frames' } : State α σ) := by
    rintro hne ⟨f, rest, hframes, hpos, hrest⟩
    have hlast := hbottom hne
    rw [hframes] at h hlast
    obtain ⟨rest', rfl, hskips⟩ := h.of_choice hpos
    rw [List.getLast?_cons_of_ne_nil hrest] at hlast
    refine ⟨f, rest', rfl, hpos, fun hnil => ?_⟩
    have hlast' := hskips.getLast? hlast (by simp [bottom])
    rw [hnil] at hlast'
    cases hlast'
  cases instr with
  | ret => exact absurd rfl hret
  | commit | partialCommit | backCommit | failTwice => exact hchoice (by simp) hallow
  | _ => exact hallow

/-- Any instruction but a return does the same without the frames. -/
theorem exec {instr : Instr α} (h : Skips a s.frames frames') (hret : instr ≠ .ret)
    (hallow : Allows ends s instr) :
    Outcome.Rel (Trims a) (Machine.exec acts subject start instr s)
      (Machine.exec acts subject start instr { s with frames := frames' }) := by
  cases instr with
  | any => exact consumeIf h _
  | tested g => exact consumeIf h _
  | char c => exact consumeIf h _
  | set k => exact consumeIf h _
  | testAny t => exact testFor h _ _
  | testChar c t => exact testFor h _ _
  | testSet k t => exact testFor h _ _
  | span k => exact .next ⟨h, rfl⟩
  | behind n =>
    simp only [Machine.exec]
    split
    · exact fail h
    · exact .next ⟨h, rfl⟩
  | ret => exact absurd rfl hret
  | halt => exact .final
  | giveUp => exact .final
  | choice t => exact .next ⟨.keep _ h, rfl⟩
  | jump t => exact .next ⟨h, rfl⟩
  | call t => exact .next ⟨.keep _ h, rfl⟩
  | openCall i => exact .final
  | commit t =>
    obtain ⟨f, rest, hframes, hpos, -⟩ := hallow
    rw [hframes] at h
    obtain ⟨rest', rfl, hrest⟩ := h.of_choice hpos
    refine .next ⟨?_, rfl⟩
    simpa [pop, goto, hframes] using hrest
  | partialCommit t =>
    obtain ⟨f, rest, hframes, hpos, -⟩ := hallow
    rw [hframes] at h
    obtain ⟨rest', rfl, hrest⟩ := h.of_choice hpos
    simp only [Machine.exec, moveUp, hframes]
    exact .next ⟨.keep _ hrest, rfl⟩
  | backCommit t =>
    obtain ⟨f, rest, hframes, hpos, -⟩ := hallow
    rw [hframes] at h
    obtain ⟨rest', rfl, hrest⟩ := h.of_choice hpos
    simp only [Machine.exec, moveBack, hframes]
    exact .next ⟨hrest, rfl⟩
  | failTwice =>
    obtain ⟨f, rest, hframes, hpos, -⟩ := hallow
    rw [hframes] at h
    obtain ⟨rest', rfl, hrest⟩ := h.of_choice hpos
    simp only [Machine.exec, pop, hframes]
    exact fail (s := { s with frames := rest }) hrest
  | fail => exact fail h
  | openAction act => exact .next ⟨h, rfl⟩
  | closeAction => exact closeAction h

/-- So does a return, once it is the return from the same call.  Before that, the old code returns
to behind the tail call, and from there by jumps to another return. -/
theorem exists_ret (acts : Actions α σ) (subject : Array Char) (start : Nat)
    (hreturns : ReturnsFrom code (a + 1)) (h : Skips a frames frames')
    (hframes : s.frames = frames) (hi : code[s.ip]? = some .ret) :
    ∃ j rest, Quiet acts code subject start s { s with ip := j, frames := rest } ∧
      code[j]? = some .ret ∧ Skips a rest frames' ∧
      ∀ f rest₁, rest = f :: rest₁ → ∃ rest₂, frames' = f :: rest₂ ∧ Skips a rest₁ rest₂ := by
  induction h generalizing s with
  | nil => exact ⟨s.ip, [], hframes ▸ .refl, hi, .nil, fun _ _ heq => by cases heq⟩
  | keep f h =>
    refine ⟨s.ip, _, hframes ▸ .refl, hi, .keep f h, fun g rest₁ heq => ?_⟩
    cases heq
    exact ⟨_, rfl, h⟩
  | @skip f rest rest' hresume hpos h ih =>
    obtain ⟨j, hj, hret⟩ := hreturns
    have hstep : step acts code subject start s = .next (s.pop.goto (a + 1)) := by
      simp only [step, hi, Machine.exec, hframes, hresume]
    have hjumps : Quiet acts code subject start (s.pop.goto (a + 1))
        ((s.pop.goto (a + 1)).goto j) := hj.quiet acts subject start rfl
    have hpop : ((s.pop.goto (a + 1)).goto j).frames = rest := by simp [pop, goto, hframes]
    obtain ⟨j', rest₁, hquiet, hrest⟩ := ih (s := (s.pop.goto (a + 1)).goto j) hpop hret
    exact ⟨j', rest₁, (hjumps.trans hquiet).head ⟨hstep, rfl⟩, hrest⟩

end Trims

/-! ## One tail call -/

/-- The second code has a jump in the place of a call behind which there is nothing left to do but
to return. -/
structure TailCall (code code' : Array (Instr α)) (a t : Nat) : Prop where
  size_eq : code'.size = code.size
  call : code[a]? = some (.call t)
  jump : code'[a]? = some (.jump t)
  other : ∀ i, i ≠ a → code'[i]? = code[i]?
  returns : ReturnsFrom code (a + 1)

theorem TailStep.exists_tailCall {xs ys : List (Instr α)} (h : TailStep xs ys) :
    ∃ a t, TailCall xs.toArray ys.toArray a t := by
  obtain ⟨a, t, hcall, hreturns, rfl⟩ := h
  have hlt := (List.getElem?_eq_some_iff.1 hcall).1
  refine ⟨a, t, by simp, by rwa [List.getElem?_toArray], ?_, fun i hi => ?_,
    hreturns _ (Segment.heldBy_self _)⟩
  · rw [List.getElem?_toArray, List.getElem?_set_self hlt]
  · rw [List.getElem?_toArray, List.getElem?_toArray, List.getElem?_set_ne (Ne.symm hi)]

namespace TailCall

variable {a t : Nat} {frames' : List Frame}

/-- The frame at the bottom stays in its place. -/
theorem rooted (h : TailCall code code' a t) (hs : Safe code subject start ends s)
    (hskips : Skips a s.frames frames') :
    frames'.getLast? = some (bottom code' start) ∨
      frames' = [] ∧ code'[s.ip]? = some .giveUp := by
  rcases hs.rooted with hlast | ⟨hnil, hgive⟩
  · left
    rw [bottom, h.size_eq]
    exact hskips.getLast? hlast (by simp)
  · right
    rw [hnil] at hskips
    cases hskips
    have hne : s.ip ≠ a := fun heq => by
      rw [heq, h.call] at hgive
      cases hgive
    exact ⟨rfl, (h.other _ hne).trans hgive⟩

/-- **Code with a tail call follows the code with the call.** -/
theorem follows (h : TailCall code code' a t) :
    Follows (σ := σ) acts code code' subject start ends (Trims a) := by
  intro s s' htrims hsafe
  obtain ⟨hskips, heq⟩ := htrims
  generalize s'.frames = frames' at hskips heq
  subst heq
  have hs := hsafe.safe
  have hrooted := h.rooted hs hskips
  by_cases hip : s.ip = a
  · -- the call and the jump: the frame of the call is one of those left out
    have hi : code[s.ip]? = some (.call t) := hip ▸ h.call
    have hi' : code'[s.ip]? = some (.jump t) := hip ▸ h.jump
    refine ⟨rfl, ⟨⟨_, hi', trivial⟩, hrooted, hs.start_le, hs.pos_le⟩, s, .refl, ?_⟩
    rw [step_eq_exec hi, step_eq_exec (s := { s with frames := frames' }) hi']
    exact .next ⟨.skip (congrArg (· + 1) hip) rfl hskips, rfl⟩
  · obtain ⟨instr, hi, hallow⟩ := hs.allowed
    have hi' : code'[s.ip]? = some instr := (h.other _ hip).trans hi
    by_cases hret : instr = .ret
    · subst hret
      obtain ⟨j, rest, hquiet, hj, hskips, htop⟩ :=
        Trims.exists_ret acts subject start h.returns hskips rfl hi
      obtain ⟨instr, hinstr, hallow⟩ := (hsafe _ hquiet.reaches).allowed
      obtain rfl : instr = .ret := Option.some.inj (hinstr.symm.trans hj)
      obtain ⟨f, rest₁, rfl, hpos⟩ := hallow
      obtain ⟨rest₂, rfl, hrest⟩ := htop f rest₁ rfl
      refine ⟨rfl, ⟨⟨_, hi', f, rest₂, rfl, hpos⟩, hrooted, hs.start_le, hs.pos_le⟩, _, hquiet, ?_⟩
      rw [step_eq_exec hinstr, step_eq_exec (s := { s with frames := f :: rest₂ }) hi']
      exact .next ⟨hrest, rfl⟩
    · refine ⟨rfl, ⟨⟨_, hi', Trims.allows hskips hret (hs.bottom_of_ne_giveUp hi) hallow⟩,
        hrooted, hs.start_le, hs.pos_le⟩, s, .refl, ?_⟩
      rw [step_eq_exec hi, step_eq_exec (s := { s with frames := frames' }) hi']
      exact Trims.exec hskips hret hallow

end TailCall

/-! ## One rewriting -/

/-- What an instruction takes for granted, it does so with another target as well, and with frames
that resume further on. -/
theorem Retargets.allows {old new : Instr α} (h : Retargets code old new) (hs : Alike code s s')
    (hallow : Allows ends s old) : Allows ends s' new := by
  obtain ⟨ip, pos, frames, log, opened, store⟩ := s
  obtain ⟨ip', pos', frames', log', opened', store'⟩ := s'
  obtain ⟨rfl, hframes, rfl, rfl, rfl⟩ := hs
  have hchoice : OnChoice (⟨ip, pos', frames, log', opened', store'⟩ : State α σ) →
      OnChoice (⟨ip', pos', frames', log', opened', store'⟩ : State α σ) := by
    rintro ⟨f, rest, rfl, hpos, hrest⟩
    cases hframes with
    | @cons f f' rest rest' hf hr =>
      refine ⟨f', rest', rfl, by rwa [hf.pos], fun hnil => ?_⟩
      subst hnil
      cases hr
      exact hrest rfl
  cases h with
  | finish => trivial
  | @move old t' =>
    cases old with
    | commit | partialCommit | backCommit | failTwice => exact hchoice hallow
    | ret =>
      obtain ⟨f, rest, rfl, hpos⟩ := hallow
      cases hframes with
      | @cons f f' rest rest' hf hr => exact ⟨f', rest', rfl, by rwa [hf.pos]⟩
    | _ => exact hallow

/-- The instruction about a character that has been tested has no target. -/
theorem Retargets.eq_tested {old : Instr α} {g : Guard} (h : Retargets code old (.tested g)) :
    old = .tested g := by
  generalize hnew : Instr.tested g = new at h
  cases h with
  | @move old t _ =>
    cases old <;> cases hnew
    rfl
  | finish => cases hnew

/-- What the new code has at an address is an instruction of the old code, which jumps lead to, with
another target at most. -/
theorem Rewires.exists_old (h : Rewires code code') {i : Nat} {new : Instr α}
    (hi : code'[i]? = some new) :
    ∃ j old, Jumps code i j ∧ code[j]? = some old ∧ Retargets code old new ∧
      (j = i ∨ old.anywhere = true) := by
  rcases h.replaces i new hi with ⟨old, hold, hr⟩ | ⟨j, old, hj, hold, hany, hr⟩
  · exact ⟨i, old, .here, hold, hr, .inl rfl⟩
  · exact ⟨j, old, hj, hold, hr, .inr hany⟩

/-- The frame at the bottom stays in its place, for there is no jump at the end of the code. -/
theorem getLast?_of_tracks {frames frames' : List Frame}
    (hend : ∀ t, code[code.size - 1]? ≠ some (.jump t))
    (h : List.Forall₂ (FrameTracks code) frames frames')
    (hlast : frames.getLast? = some (bottom code start)) :
    frames'.getLast? = some (bottom code start) := by
  induction h with
  | nil => exact hlast
  | @cons f f' rest rest' hf hr ih =>
    cases hr with
    | nil =>
      cases hlast
      obtain ⟨resume, pos, logged⟩ := f'
      obtain ⟨hresume, rfl, rfl⟩ := hf
      cases hresume with
      | here => rfl
      | jump hi => exact absurd hi (hend _)
    | cons hg hr =>
      have hrest := ih (by simpa using hlast)
      rw [List.getLast?_cons, hrest, Option.getD_some]

/-- **Rewired code follows the code before.** -/
theorem Rewires.follows (h : Rewires code code')
    (hend : ∀ t, code[code.size - 1]? ≠ some (.jump t)) :
    Follows (σ := σ) acts code code' subject start ends (Tracks code) := by
  intro s s' htracks hsafe
  obtain ⟨new, hnew⟩ : ∃ new, code'[s'.ip]? = some new := by
    obtain ⟨instr, hi, -⟩ := (hsafe _ (htracks.ip.quiet acts subject start rfl).reaches).allowed
    have hlt := (Array.getElem?_eq_some_iff.1 hi).1
    exact ⟨_, Array.getElem?_eq_getElem (h.size_eq ▸ hlt)⟩
  obtain ⟨j, old, hj, hold, hr, hany⟩ := h.exists_old hnew
  have hquiet := (htracks.ip.trans hj).quiet acts subject start rfl
  have hs := hsafe _ hquiet.reaches
  have halike : Alike code (s.goto j) s' :=
    ⟨htracks.pos, htracks.frames, htracks.log, htracks.opened, htracks.store⟩
  have hallow : Allows ends s' new := by
    obtain ⟨instr, hinstr, hallow⟩ := hs.allowed
    obtain rfl : instr = old := Option.some.inj (hinstr.symm.trans hold)
    exact hr.allows halike hallow
  have hrooted : s'.frames.getLast? = some (bottom code' start) ∨
      s'.frames = [] ∧ code'[s'.ip]? = some .giveUp := by
    rcases hs.rooted with hlast | ⟨hnil, hgive⟩
    · left
      rw [bottom, h.size_eq]
      exact getLast?_of_tracks hend htracks.frames hlast
    · right
      obtain rfl : old = .giveUp := Option.some.inj (hold.symm.trans hgive)
      have hnil' : s'.frames = [] := by
        have hframes := htracks.frames
        rw [show s.frames = [] from hnil] at hframes
        exact List.forall₂_nil_left_iff.1 hframes
      refine ⟨hnil', ?_⟩
      cases hr with
      | move => exact hnew
  have hstart : start ≤ s'.pos := htracks.pos ▸ hs.start_le
  have hpos : s'.pos ≤ subject.size := htracks.pos ▸ hs.pos_le
  refine ⟨htracks.store, ⟨⟨new, hnew, hallow⟩, hrooted, hstart, hpos⟩, _, hquiet, ?_⟩
  rw [step_eq_exec (s := s.goto j) hold, step_eq_exec hnew]
  exact exec_tracks hr halike (hany.imp_left Eq.symm)

/-! ## Tested characters -/

/-- Where the second code takes the next character to be tested, the first one gets to at the same
position, and takes it to be tested for the same. -/
def SharesTests (acts : Actions α σ) (code code' : Array (Instr α)) (subject : Array Char)
    (start : Nat) (s : State α σ) : Prop :=
  ∀ s' g, Reaches acts code' subject start s s' → code'[s'.ip]? = some (.tested g) →
    ∃ s₁, Reaches acts code subject start s s₁ ∧ code[s₁.ip]? = some (.tested g) ∧ s₁.pos = s'.pos

theorem SharesTests.trans {code'' : Array (Instr α)}
    (h : SharesTests acts code code' subject start s)
    (h' : SharesTests acts code' code'' subject start s) :
    SharesTests acts code code'' subject start s := by
  intro s'' g hs'' hi
  obtain ⟨s', hs', hi', hpos'⟩ := h' s'' g hs'' hi
  obtain ⟨s₁, hs₁, hi₁, hpos⟩ := h s' g hs' hi'
  exact ⟨s₁, hs₁, hi₁, hpos.trans hpos'⟩

theorem TailCall.sharesTests {a t : Nat} (h : TailCall code code' a t)
    (hsafe : StaysSafe acts code subject start ends s) :
    SharesTests acts code code' subject start s := by
  intro s' g hs' hi
  have hs : Trims a s s := ⟨.refl a s.frames, rfl⟩
  obtain ⟨s₁, hs₁, htrims⟩ := h.follows.exists_reaches hs hsafe hs'
  have hip : s₁.ip = s'.ip := by rw [htrims.eq]
  have hne : s'.ip ≠ a := fun heq => by
    rw [heq, h.jump] at hi
    cases hi
  refine ⟨s₁, hs₁, ?_, by rw [htrims.eq]⟩
  rwa [hip, ← h.other _ hne]

theorem Rewires.sharesTests (h : Rewires code code')
    (hend : ∀ t, code[code.size - 1]? ≠ some (.jump t))
    (hsafe : StaysSafe acts code subject start ends s) :
    SharesTests acts code code' subject start s := by
  intro s' g hs' hi
  obtain ⟨s₁, hs₁, htracks⟩ := (h.follows hend).exists_reaches (.refl s) hsafe hs'
  obtain ⟨j, old, hj, hold, hr, -⟩ := h.exists_old hi
  have hquiet : Quiet acts code subject start s₁ (s₁.goto j) :=
    (htracks.ip.trans hj).quiet acts subject start rfl
  refine ⟨s₁.goto j, hs₁.trans hquiet.reaches, ?_, htracks.pos.symm⟩
  rwa [hr.eq_tested] at hold

/-! ## From plain code to programs -/

/-- No target is out of the code. -/
def InBounds (code : Array (Instr α)) : Prop :=
  ∀ (i : Nat) (instr : Instr α) (t : Nat), code[i]? = some instr → instr.target? = some t →
    t < code.size

/-- The second code, which ends with the same instruction as the first, has its targets in bounds
and is safe if that is so for the first, and then its matches are alike to see, and what it takes to
be tested is tested. -/
structure Keeps (code code' : Array (Instr α)) : Prop where
  size_eq : code'.size = code.size
  last : code[code.size - 1]? = some .giveUp → code'[code'.size - 1]? = some .giveUp
  inBounds : InBounds code → InBounds code'
  alike : code[code.size - 1]? = some .giveUp → ∀ (σ : Type) (acts : Actions α σ)
    (subject : Array Char) (start : Nat) (ends : Nat → List (Firing α) → Prop) (s : State α σ),
    StaysSafe acts code subject start ends s → StaysSafe acts code' subject start ends s ∧
      SeenAlike acts code code' subject start s s ∧ SharesTests acts code code' subject start s

namespace Keeps

variable {code'' : Array (Instr α)}

theorem refl (code : Array (Instr α)) : Keeps code code :=
  ⟨rfl, id, id, fun _ _ _ _ _ _ s hsafe =>
    ⟨hsafe, .refl code s, fun s' _ hs' hi => ⟨s', hs', hi, rfl⟩⟩⟩

theorem trans (h : Keeps code code') (h' : Keeps code' code'') : Keeps code code'' where
  size_eq := h'.size_eq.trans h.size_eq
  last hlast := h'.last (h.last hlast)
  inBounds hin := h'.inBounds (h.inBounds hin)
  alike hlast σ acts subject start ends s hsafe := by
    obtain ⟨hsafe', halike, htests⟩ := h.alike hlast σ acts subject start ends s hsafe
    obtain ⟨hsafe'', halike', htests'⟩ :=
      h'.alike (h.last hlast) σ acts subject start ends s hsafe'
    exact ⟨hsafe'', halike.trans halike', htests.trans htests'⟩

/-- Where the first code is safe, the second is safe, and ends its matches in the same way. -/
theorem runs (h : Keeps code code') (hlast : code[code.size - 1]? = some .giveUp) (σ : Type)
    (acts : Actions α σ) (subject : Array Char) (start : Nat)
    (ends : Nat → List (Firing α) → Prop) (s : State α σ)
    (hsafe : StaysSafe acts code subject start ends s) :
    StaysSafe acts code' subject start ends s ∧
      ∀ v store, Halts acts code subject start s v store →
        Halts acts code' subject start s v store := by
  obtain ⟨hsafe', halike, -⟩ := h.alike hlast σ acts subject start ends s hsafe
  exact ⟨hsafe', fun v store hv => halike.halts_iff.1 hv⟩

/-- What holds of each of the changes made one after the other holds of all of them. -/
theorem of_reflTransGen {r : Array (Instr α) → Array (Instr α) → Prop}
    (hr : ∀ {c c'}, r c c' → Keeps c c') (h : ReflTransGen r code code') : Keeps code code' := by
  induction h with
  | refl => exact refl code
  | tail _ hstep ih => exact ih.trans (hr hstep)

end Keeps

theorem TailCall.keeps {a t : Nat} (h : TailCall code code' a t) : Keeps code code' where
  size_eq := h.size_eq
  last hlast := by
    rw [h.size_eq, h.other _ fun heq => ?_, hlast]
    rw [heq, h.call] at hlast
    cases hlast
  inBounds := by
    intro hin i instr u hi hu
    rw [h.size_eq]
    by_cases ha : i = a
    · subst ha
      rw [h.jump] at hi
      cases hi
      exact hin i _ u h.call hu
    · exact hin i instr u (h.other i ha ▸ hi) hu
  alike _ _ _ _ _ _ s hsafe := by
    have hs : Trims a s s := ⟨.refl a s.frames, rfl⟩
    exact ⟨h.follows.safe hs hsafe, h.follows.seenAlike hs hsafe, h.sharesTests hsafe⟩

/-- Where jumps lead from an address in the code is in the code. -/
theorem Jumps.lt_size {i j : Nat} (h : Jumps code i j) (hin : InBounds code) (hi : i < code.size) :
    j < code.size := by
  induction h with
  | here => exact hi
  | jump hjump _ ih => exact ih (hin _ _ _ hjump rfl)

theorem Instr.target?_withTarget {instr : Instr α} {t u : Nat}
    (h : (instr.withTarget t).target? = some u) : u = t ∧ ∃ v, instr.target? = some v := by
  cases instr <;> simp_all [withTarget, target?]

theorem Retargets.target_lt_size {old new : Instr α} (h : Retargets code old new)
    (hin : InBounds code) {j u : Nat} (hj : code[j]? = some old) (hu : new.target? = some u) :
    u < code.size := by
  cases h with
  | @move old t' ht =>
    obtain ⟨rfl, v, hv⟩ := Instr.target?_withTarget hu
    exact (ht v hv).lt_size hin (hin j _ v hj hv)
  | finish ht =>
    cases hu
    exact ht.lt_size hin (hin j _ _ hj rfl)

theorem Rewires.keeps (h : Rewires code code') : Keeps code code' where
  size_eq := h.size_eq
  last hlast := by
    have hlt : code'.size - 1 < code'.size := by
      have := (Array.getElem?_eq_some_iff.1 hlast).1
      rwa [h.size_eq]
    obtain ⟨j, old, hj, hold, hr, -⟩ := h.exists_old (Array.getElem?_eq_getElem hlt)
    rw [h.size_eq] at hj
    cases hj with
    | here =>
      obtain rfl : old = .giveUp := Option.some.inj (hold.symm.trans hlast)
      rw [Array.getElem?_eq_getElem hlt]
      generalize code'[code'.size - 1] = new at hr
      cases hr with
      | move => rfl
    | jump hi =>
      rw [hlast] at hi
      cases hi
  inBounds := by
    intro hin i new u hi hu
    obtain ⟨j, old, -, hold, hr, -⟩ := h.exists_old hi
    rw [h.size_eq]
    exact hr.target_lt_size hin hold hu
  alike hlast _ _ _ _ _ s hsafe := by
    have hend : ∀ t, code[code.size - 1]? ≠ some (.jump t) := fun t => by simp [hlast]
    exact ⟨(h.follows hend).safe (.refl s) hsafe, (h.follows hend).seenAlike (.refl s) hsafe,
      h.sharesTests hend hsafe⟩

namespace Program

/-- The instructions of a resolved expression, with plain calls in the place of open ones. -/
def plain (e : Expr α) : List (Instr α) :=
  e.emit Segment.callRules [] false none .full 0 ++ [.halt, .giveUp]

/-- **What holds of the plain code holds of the code with tail calls.** -/
theorem keeps_layout (root : Expr α) : Keeps (plain root).toArray (layout root).toArray := by
  have hsteps : ReflTransGen TailStep (plain root) (layout root) := by
    simpa [plain, layout] using shortens_emit root [] false none .full 0 id keepsInstrs_id []
      [.halt, .giveUp] rfl
  generalize layout root = instrs at hsteps
  induction hsteps with
  | refl => exact .refl _
  | tail _ hstep ih =>
    obtain ⟨a, t, htail⟩ := hstep.exists_tailCall
    exact ih.trans htail.keeps

/-- **What holds of the plain code of a pattern holds of its program.** -/
theorem keeps_of_compile {options : CompileOptions} {p : Pattern α} {prog : Program α}
    (h : compile options p = .ok prog) :
    ∃ root, p.root.resolve p.refs [] = .ok root ∧ Keeps (plain root).toArray prog.code := by
  obtain ⟨root, hroot, hcode⟩ := compile_eq_ok h
  refine ⟨root, hroot, ?_⟩
  rw [hcode]
  split
  · exact (keeps_layout root).trans
      (.of_reflTransGen Rewires.keeps (Segment.rewires_threadJumps _))
  · exact keeps_layout root

end Program
end PegMachine
