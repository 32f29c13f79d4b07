import PegMachine.Proofs.Machine.Safety

/-!
# What becomes of the log

An action is logged when it starts.  It stays in the log until the machine goes back, because it
fails or because a lookahead has matched: a frame is dropped then, and the log is cut to the length
that the frame remembers.  Since no frame remembers more of the log than those above it, what has
been logged while a frame was on the stack is cut off when the machine goes back to that frame, or
to one below.

This is so in any code, whether or not the stack is as its instructions take it to be.

* `LogStep` — what a step does to the stack and to the log.
* `Stacked` — each frame remembers the log as it is, and no more of it than the frames above.
* `exists_lasts` — every action in the log was started in some state on the way, and has been in the
  log since.
* `Lasts.not_givesUp` — so it was not started in something that has been tried and given up.
-/

set_option autoImplicit false

namespace PegMachine

open State Relation

variable {α σ : Type}

/-- The actions in the log, and where they started. -/
def State.started (s : State α σ) : List (α × Nat) := s.log.toList.map fun e => (e.action, e.start)

namespace State

@[simp] theorem length_started (s : State α σ) : s.started.length = s.log.size := by
  simp [started]

theorem started_rollback (s : State α σ) (n : Nat) :
    (s.rollback n).started = s.started.take n := by
  simp [started, rollback]

theorem size_log_of_started {s s' : State α σ} (h : s'.started = s.started) :
    s'.log.size = s.log.size := by
  simpa using congrArg List.length h

theorem exists_append_of_unwind {frames rest : List Frame} {f : Frame} {pos : Nat}
    (h : unwind frames = some (f, pos, rest)) : ∃ above, frames = above ++ f :: rest := by
  induction frames with
  | nil => cases h
  | cons g frames ih =>
    rw [unwind] at h
    split at h
    · cases h
      exact ⟨[], rfl⟩
    · obtain ⟨above, rfl⟩ := ih h
      exact ⟨g :: above, rfl⟩

end State

namespace Machine

/-- What an instruction does to the stack and to the log on the way from one state to another. -/
inductive LogStep (s s' : State α σ) : Instr α → Prop
  /-- Nothing. -/
  | leave {instr} : s'.frames = s.frames → s'.started = s.started → LogStep s s' instr
  /-- A frame is pushed that remembers the log as it is. -/
  | push {instr} (f : Frame) : f.logged = s.log.size → s'.frames = f :: s.frames →
      s'.started = s.started → LogStep s s' instr
  /-- The top frame is dropped, and the log is kept. -/
  | pop {instr} : (instr = .ret ∨ ∃ t, instr = .commit t) → s'.frames = s.frames.tail →
      s'.started = s.started → LogStep s s' instr
  /-- The top frame remembers the log as it is. -/
  | moveUp {instr} (f f' : Frame) (rest : List Frame) : s.frames = f :: rest →
      s'.frames = f' :: rest → f'.logged = s.log.size → s'.started = s.started →
      LogStep s s' instr
  /-- An action is added to the log. -/
  | openAction (a : α) : s'.frames = s.frames → s'.started = s.started ++ [(a, s.pos)] →
      LogStep s s' (.openAction a)
  /-- Frames are dropped, and the log is cut to what the last of them remembers. -/
  | back {instr} (above : List Frame) (f : Frame) : s.frames = above ++ f :: s'.frames →
      s'.started = s.started.take f.logged → LogStep s s' instr

variable {acts : Actions α σ} {code : Array (Instr α)} {subject : Array Char} {start : Nat}
  {s s' u w : State α σ} {instr : Instr α}

/-! ## What a step does -/

/-- Failing goes back, also after frames have been dropped. -/
theorem logStep_of_fail (above : List Frame) (hframes : s.frames = above ++ u.frames)
    (hstarted : u.started = s.started) (h : u.fail = .next s') : LogStep s s' instr := by
  rw [fail] at h
  split at h
  · cases h
  · next f pos rest hunwind =>
    obtain ⟨between, hbetween⟩ := exists_append_of_unwind hunwind
    cases h
    refine .back (above ++ between) f ?_ ?_
    · rw [hframes, hbetween, List.append_assoc]
      rfl
    · rw [started_rollback, ← hstarted]
      rfl

theorem logStep_of_consumeIf {want : Char → Bool} (h : consumeIf want subject s = .next s') :
    LogStep s s' instr := by
  rw [consumeIf] at h
  split at h
  · split at h
    · cases h
      exact .leave rfl rfl
    · exact logStep_of_fail [] rfl rfl h
  · exact logStep_of_fail [] rfl rfl h

theorem logStep_of_testFor {want : Char → Bool} {t : Nat}
    (h : testFor want t subject s = .next s') : LogStep s s' instr := by
  rw [testFor] at h
  split at h
  · split at h <;> cases h <;> exact .leave rfl rfl
  · cases h
    exact .leave rfl rfl

theorem logStep_of_closeAction (h : closeAction acts subject s = .next s') :
    LogStep s s' instr := by
  rw [closeAction] at h
  split at h
  · cases h
  · next i opened _ =>
    split at h
    · cases h
    · next e he =>
      split at h
      · next store _ =>
        exact logStep_of_fail (u := { s with opened := opened, store := store }) [] rfl rfl h
      · split at h
        · cases h
        · cases h
          refine .leave rfl ?_
          -- the entry is as it was, but for where the action ended
          obtain ⟨hi, rfl⟩ := Array.getElem?_eq_some_iff.1 he
          have hi' : i < s.started.length := by simpa using hi
          have hentry : s.started[i] = ((s.log[i]).action, (s.log[i]).start) := by simp [started]
          simp only [started, Array.toList_setIfInBounds, List.map_set]
          rw [← hentry]
          exact List.set_getElem_self hi'

theorem logStep_moveUp (t : Nat) : LogStep s (s.moveUp.goto t) instr := by
  obtain ⟨ip, pos, frames, log, opened, store⟩ := s
  cases frames with
  | nil => exact .leave rfl rfl
  | cons f rest =>
    exact .moveUp f { f with pos := some pos, logged := log.size } rest rfl rfl rfl rfl

theorem logStep_moveBack (t : Nat) : LogStep s (s.moveBack.goto t) instr := by
  obtain ⟨ip, pos, frames, log, opened, store⟩ := s
  cases frames with
  | nil => exact .leave rfl rfl
  | cons f rest => exact .back [] f rfl (started_rollback _ _)

/-- **What a step does to the stack and to the log.** -/
theorem logStep_of_exec (h : exec acts subject start instr s = .next s') :
    LogStep s s' instr := by
  cases instr with
  | any | tested | char | set => exact logStep_of_consumeIf h
  | testAny | testChar | testSet => exact logStep_of_testFor h
  | fail => exact logStep_of_fail [] rfl rfl h
  | failTwice =>
    cases hframes : s.frames with
    | nil =>
      rw [exec, pop, fail, hframes] at h
      cases h
    | cons f rest => exact logStep_of_fail (u := s.pop) [f] (by simp [pop, hframes]) rfl h
  | closeAction => exact logStep_of_closeAction h
  | behind n =>
    rw [exec] at h
    split at h
    · exact logStep_of_fail [] rfl rfl h
    · cases h
      exact .leave rfl rfl
  | ret =>
    rw [exec] at h
    split at h
    · cases h
    · cases h
      exact .pop (.inl rfl) rfl rfl
  | commit t =>
    cases h
    exact .pop (.inr ⟨t, rfl⟩) rfl rfl
  | choice t | call t =>
    cases h
    exact .push _ rfl rfl rfl
  | partialCommit t =>
    cases h
    exact logStep_moveUp t
  | backCommit t =>
    cases h
    exact logStep_moveBack t
  | openAction a =>
    cases h
    exact .openAction a rfl (by simp [started, Machine.openAction, advance])
  | span k | jump t =>
    cases h
    exact .leave rfl rfl
  | halt | giveUp | openCall => cases h

theorem logStep_of_step (h : step acts code subject start s = .next s') :
    ∃ instr, code[s.ip]? = some instr ∧ LogStep s s' instr := by
  cases hi : code[s.ip]? with
  | none =>
    rw [step, hi] at h
    cases h
  | some instr =>
    rw [step_eq_exec hi] at h
    exact ⟨instr, rfl, logStep_of_exec h⟩

/-! ## What the frames remember -/

/-- Each frame remembers the log as it is, and no more of it than the frames above. -/
structure Stacked (s : State α σ) : Prop where
  logged_le : ∀ f ∈ s.frames, f.logged ≤ s.log.size
  descending : s.frames.Pairwise fun f g => g.logged ≤ f.logged

/-- A frame that remembers the log as it is may be put on top. -/
theorem Stacked.cons {f : Frame} {rest : List Frame} (hs : Stacked s)
    (hrest : rest <:+ s.frames) (hframes : s'.frames = f :: rest) (hf : f.logged = s.log.size)
    (hlog : s'.log.size = s.log.size) : Stacked s' where
  logged_le g hg := by
    rw [hframes] at hg
    rcases List.mem_cons.1 hg with rfl | hg
    · omega
    · have := hs.logged_le g (hrest.subset hg)
      omega
  descending := by
    rw [hframes]
    refine List.pairwise_cons.2 ⟨fun g hg => ?_, hs.descending.sublist hrest.sublist⟩
    rw [hf]
    exact hs.logged_le g (hrest.subset hg)

/-- Frames may be dropped, if the log stays long enough for the others. -/
theorem Stacked.suffix (hs : Stacked s) (hframes : s'.frames <:+ s.frames)
    (hlog : ∀ f ∈ s'.frames, f.logged ≤ s.log.size → f.logged ≤ s'.log.size) : Stacked s' where
  logged_le f hf := hlog f hf (hs.logged_le f (hframes.subset hf))
  descending := hs.descending.sublist hframes.sublist

theorem Stacked.logStep (hs : Stacked s) (h : LogStep s s' instr) : Stacked s' := by
  cases h with
  | leave hframes hstarted =>
    exact hs.suffix (hframes ▸ List.suffix_refl _) fun f _ hf =>
      (size_log_of_started hstarted).symm ▸ hf
  | push f hf hframes hstarted =>
    exact hs.cons (List.suffix_refl _) hframes hf (size_log_of_started hstarted)
  | pop _ hframes hstarted =>
    exact hs.suffix (hframes ▸ List.tail_suffix _) fun f _ hf =>
      (size_log_of_started hstarted).symm ▸ hf
  | moveUp f f' rest hframes hframes' hf hstarted =>
    exact hs.cons (hframes ▸ List.suffix_cons _ _) hframes' hf (size_log_of_started hstarted)
  | openAction a hframes hstarted =>
    have hsize : s'.log.size = s.log.size + 1 := by simpa using congrArg List.length hstarted
    exact hs.suffix (hframes ▸ List.suffix_refl _) fun f _ hf => by omega
  | back above f hframes hstarted =>
    have hsuffix : f :: s'.frames <:+ s.frames := ⟨above, hframes.symm⟩
    have hsize : s'.log.size = min f.logged s.log.size := by
      simpa using congrArg List.length hstarted
    refine hs.suffix ((List.suffix_cons _ _).trans hsuffix) fun g hg hle => ?_
    have hgf := List.rel_of_pairwise_cons (hs.descending.sublist hsuffix.sublist) hg
    omega

theorem Stacked.of_reaches (hs : Stacked s) (h : Reaches acts code subject start s s') :
    Stacked s' := by
  induction h with
  | refl => exact hs
  | tail _ hstep ih =>
    obtain ⟨instr, -, hlog⟩ := logStep_of_step hstep
    exact ih.logStep hlog

/-! ## What stays in the log -/

/-- The machine gets from one state to another, and the property holds in all states on the way. -/
def ReachesThrough (acts : Actions α σ) (code : Array (Instr α)) (subject : Array Char)
    (start : Nat) (P : State α σ → Prop) (s s' : State α σ) : Prop :=
  P s ∧ ReflTransGen (fun t t' => step acts code subject start t = .next t' ∧ P t') s s'

namespace ReachesThrough

variable {P : State α σ → Prop}

theorem reaches (h : ReachesThrough acts code subject start P s s') :
    Reaches acts code subject start s s' :=
  ReflTransGen.mono (fun _ _ hstep => hstep.1) s s' h.2

theorem last (h : ReachesThrough acts code subject start P s s') : P s' := by
  obtain ⟨hs, h⟩ := h
  cases h with
  | refl => exact hs
  | tail _ hstep => exact hstep.2

theorem tail (h : ReachesThrough acts code subject start P s s')
    (hstep : step acts code subject start s' = .next u) (hu : P u) :
    ReachesThrough acts code subject start P s u :=
  ⟨h.1, h.2.tail ⟨hstep, hu⟩⟩

/-- Where a match has ended, all states that it has come through are on the way. -/
theorem of_reaches (h : ReachesThrough acts code subject start P s s')
    (hlast : ∀ t, step acts code subject start s' ≠ .next t)
    (hu : Reaches acts code subject start s u) : P u := by
  induction hu using ReflTransGen.head_induction_on with
  | refl => exact h.1
  | head hstep _ ih =>
    obtain ⟨-, h⟩ := h
    rcases h.cases_head with rfl | ⟨t, ⟨ht, hPt⟩, hrest⟩
    · exact absurd hstep (hlast _)
    · rw [hstep] at ht
      cases ht
      exact ih ⟨hPt, hrest⟩

end ReachesThrough

/-- The action was started in the state `w`, as the one at the place `i` in the log, and has been in
the log since. -/
structure Lasts (acts : Actions α σ) (code : Array (Instr α)) (subject : Array Char) (start : Nat)
    (i : Nat) (a : α) (w s : State α σ) : Prop where
  instr : code[w.ip]? = some (.openAction a)
  place : w.log.size = i
  since : ∃ w', step acts code subject start w = .next w' ∧
    ReachesThrough acts code subject start (fun t => i < t.log.size) w' s

/-- From the state `w` to the state `x` something is being tried, and then it is given up: a frame
that was pushed for a choice is on the stack all the time, and the next step drops it without
committing the choice. -/
structure GivesUp (acts : Actions α σ) (code : Array (Instr α)) (subject : Array Char) (start : Nat)
    (f : Frame) (rest : List Frame) (w x : State α σ) : Prop where
  choice : f.pos ≠ none
  trying : ReachesThrough acts code subject start (fun t => f :: rest <:+ t.frames) w x
  dropped : ∃ x', step acts code subject start x = .next x' ∧ x'.frames.length ≤ rest.length
  ne_commit : ∀ t, code[x.ip]? ≠ some (.commit t)

/-- What is in the log after a step was in it before, or has just been started. -/
theorem LogStep.before_or_starts (h : LogStep s s' instr) {i : Nat} {a : α} {p : Nat}
    (hi : s'.started[i]? = some (a, p)) :
    s.started[i]? = some (a, p) ∨ instr = .openAction a ∧ s.log.size = i ∧ s.pos = p := by
  cases h with
  | leave _ hstarted | push _ _ _ hstarted | pop _ _ hstarted | moveUp _ _ _ _ _ _ hstarted =>
    exact .inl (hstarted ▸ hi)
  | back above f _ hstarted =>
    rw [hstarted, List.getElem?_take] at hi
    split at hi
    · exact .inl hi
    · cases hi
  | openAction b _ hstarted =>
    rw [hstarted] at hi
    rcases Nat.lt_or_ge i s.started.length with hlt | hge
    · rw [List.getElem?_append_left hlt] at hi
      exact .inl hi
    · rw [List.getElem?_append_right hge, List.getElem?_singleton] at hi
      split at hi
      · next hzero =>
        cases hi
        rw [length_started] at hge hzero
        exact .inr ⟨rfl, by omega, rfl⟩
      · cases hi

/-- **Every action in the log was started in a state on the way**, and has been in the log since. -/
theorem exists_lasts {s₀ : State α σ} (h₀ : s₀.log.size = 0)
    (h : Reaches acts code subject start s₀ s) {i : Nat} {a : α} {p : Nat}
    (hi : s.started[i]? = some (a, p)) :
    ∃ w, Reaches acts code subject start s₀ w ∧ w.pos = p ∧
      Lasts acts code subject start i a w s := by
  induction h with
  | refl =>
    have hnil : s₀.started = [] := List.eq_nil_of_length_eq_zero (by simpa using h₀)
    rw [hnil] at hi
    cases hi
  | @tail s s' hr hstep ih =>
    have hlt : i < s'.log.size := by
      obtain ⟨hlt, -⟩ := List.getElem?_eq_some_iff.1 hi
      simpa using hlt
    obtain ⟨instr, hinstr, hlog⟩ := logStep_of_step hstep
    rcases hlog.before_or_starts hi with hbefore | ⟨rfl, hplace, hpos⟩
    · obtain ⟨w, hw, hpos, hlasts⟩ := ih hbefore
      obtain ⟨w', hw', hsince⟩ := hlasts.since
      exact ⟨w, hw, hpos, hlasts.instr, hlasts.place, w', hw', hsince.tail hstep hlt⟩
    · exact ⟨s, hr, hpos, hinstr, hplace, s', hstep, hlt, .refl⟩

/-- To go back to a frame or below is to cut the log to what the frame remembers. -/
theorem Stacked.size_le_of_back {f : Frame} {rest : List Frame} (hs : Stacked s)
    (hf : f :: rest <:+ s.frames) (hdropped : s'.frames.length ≤ rest.length) {above : List Frame}
    {g : Frame} (hg : s.frames = above ++ g :: s'.frames)
    (hstarted : s'.started = s.started.take g.logged) : s'.log.size ≤ f.logged := by
  have hsize : s'.log.size = min g.logged s.log.size := by
    simpa using congrArg List.length hstarted
  have hsuffix : g :: s'.frames <:+ f :: rest :=
    List.suffix_of_suffix_length_le ⟨above, hg.symm⟩ hf (by simpa using hdropped)
  have hle : g.logged ≤ f.logged := by
    rcases List.mem_cons.1 (hsuffix.subset List.mem_cons_self) with rfl | hmem
    · exact Nat.le_refl _
    · exact List.rel_of_pairwise_cons (hs.descending.sublist hf.sublist) hmem
  omega

/-- **What has been in the log to the end of a match was not started in something that has been
given up.**  Returns must find a frame of a call on top, as they do in compiled programs. -/
theorem Lasts.not_givesUp {i : Nat} {a : α} (h : Lasts acts code subject start i a w s)
    (hw : Stacked w) (hlast : ∀ t, step acts code subject start s ≠ .next t)
    (hret : ∀ t, Reaches acts code subject start w t → code[t.ip]? = some .ret →
      ∃ f rest, t.frames = f :: rest ∧ f.pos = none) (f : Frame) (rest : List Frame)
    (x : State α σ) : ¬ GivesUp acts code subject start f rest w x := by
  rintro ⟨hchoice, htrying, ⟨x', hstep, hdropped⟩, hcommit⟩
  -- the frame remembers less than the place of the action, and that is not cut off
  have hplace : f.logged ≤ i := by
    rw [← h.place]
    exact hw.logged_le f (htrying.1.subset List.mem_cons_self)
  have hx' : i < x'.log.size := by
    obtain ⟨w', hw', hsince⟩ := h.since
    obtain ⟨t, ht, htx'⟩ := TransGen.head'_iff.1 (TransGen.tail' htrying.reaches hstep)
    rw [hw'] at ht
    cases ht
    exact hsince.of_reaches hlast htx'
  have hframes : f :: rest <:+ x.frames := htrying.last
  have hlen := hframes.length_le
  rw [List.length_cons] at hlen
  obtain ⟨instr, hinstr, hlog⟩ := logStep_of_step hstep
  cases hlog with
  | leave heq | openAction _ heq =>
    rw [heq] at hdropped
    omega
  | push g _ heq =>
    rw [heq, List.length_cons] at hdropped
    omega
  | moveUp g g' rest' heq heq' =>
    rw [heq, List.length_cons] at hlen
    rw [heq', List.length_cons] at hdropped
    omega
  | pop hpop heq =>
    rcases hpop with rfl | ⟨t, rfl⟩
    · obtain ⟨g, rest', hg, hnone⟩ := hret x htrying.reaches hinstr
      rw [heq, hg, List.tail_cons] at hdropped
      rw [hg] at hframes
      have hsame := hframes.eq_of_length_le (by simpa using hdropped)
      cases hsame
      exact hchoice hnone
    · exact hcommit t hinstr
  | back above g heq hstarted =>
    have := (hw.of_reaches htrying.reaches).size_le_of_back hframes hdropped heq hstarted
    omega

end Machine
end PegMachine
