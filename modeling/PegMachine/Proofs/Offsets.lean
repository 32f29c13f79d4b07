import PegMachine.Proofs.Captures
import PegMachine.Proofs.Machine.Stores
import PegMachine.Proofs.Safety

/-!
# Matching from an offset

A match that starts at an offset goes as if what lies before the offset were not there.  It is
compared with the match of the rest of the subject from its start: the two are in step all the time,
with the one always as many characters further on as the offset says (`State.later`).  Lookbehinds
are no exception, since they count from where the match started.

Whether this can be noticed is up to the actions, which are told positions.  Those that only take
positions as distances go along (`Actions.InStep`), and marks do.

* `step_later`, `run_later` — one step, and all of them.
* `Program.endsLater_at_offset` — the matches of a compiled pattern whose actions are marks end in
  the same way and write the same captures, as much further on.
-/

set_option autoImplicit false

namespace PegMachine

open State Machine

variable {α σ τ : Type}

/-! ## The same, further on -/

/-- The frame, for a position further on. -/
def Frame.later (k : Nat) (f : Frame) : Frame := { f with pos := f.pos.map (· + k) }

/-- The entry of an action that is as much further on. -/
def Entry.later (k : Nat) (e : Entry α) : Entry α :=
  { e with start := e.start + k, stop := e.stop.map (· + k) }

/-- The state with all positions further on, and another store. -/
def State.later (k : Nat) (store : τ) (s : State α σ) : State α τ :=
  ⟨s.ip, s.pos + k, s.frames.map (Frame.later k), s.log.map (Entry.later k), s.opened, store⟩

/-- The verdict with all positions further on. -/
def Verdict.later (k : Nat) : Verdict → Verdict
  | success stop => success (stop + k)
  | failure => failure
  | badAnswer answer pos length => badAnswer (answer + k) (pos + k) (length + k)
  | broken => broken

/-- The action, about a part of the subject further on. -/
def Firing.later (k : Nat) (f : Firing α) : Firing α := ⟨f.action, f.start + k, f.stop + k⟩

/-- The call, about a part of the subject further on. -/
def Call.later (k : Nat) : Call α → Call α
  | asked f => asked (f.later k)
  | committed f => committed (f.later k)

/-- The same substring from further on, or a position further on. -/
def Writing.later (k : Nat) : Writing → Writing
  | substring id x => substring id ⟨x.offset + k, x.value⟩
  | named id key value => named id key value
  | position id pos => position id (pos + k)

/-- The first subject is what is left of the second after `k` characters. -/
structure IsRest (k : Nat) (rest subject : Array Char) : Prop where
  size_eq : subject.size = rest.size + k
  getElem?_add : ∀ i, subject[i + k]? = rest[i]?

theorem isRest_drop {k : Nat} {subject : Array Char} (hk : k ≤ subject.size) :
    IsRest k (subject.drop k) subject where
  size_eq := by rw [Array.size_extract]; omega
  getElem?_add i := by
    rw [Array.getElem?_extract, Nat.min_self, Nat.add_comm]
    split
    · rfl
    · exact Array.getElem?_eq_none (by omega)

/-- What comes after a step is the same but further on, and the stores are related. -/
inductive Outcome.Later (k : Nat) (related : σ → τ → Prop) : Outcome α σ → Outcome α τ → Prop
  | next {s : State α σ} {store : τ} (h : related s.store store) :
      Later k related (.next s) (.next (s.later k store))
  | final {v : Verdict} {store : σ} {store' : τ} (h : related store store') :
      Later k related (.final v store) (.final (v.later k) store')

/-- The actions answer the same when everything is further on, and keep the stores related. -/
structure Actions.InStep (k : Nat) (rest subject : Array Char) (related : σ → τ → Prop)
    (acts : Actions α σ) (acts' : Actions α τ) : Prop where
  answer : ∀ a i j store store', related store store' →
    (acts'.onMatch a subject (i + k) (j + k) store').1
      = (acts.onMatch a rest i j store).1.map (· + k)
  asked : ∀ a i j store store', related store store' →
    related (acts.onMatch a rest i j store).2
      (acts'.onMatch a subject (i + k) (j + k) store').2
  committed : ∀ a i j store store', related store store' →
    related (acts.onCommit a rest i j store) (acts'.onCommit a subject (i + k) (j + k) store')

/-! ## Going on further on -/

section States

variable (k : Nat) (store : τ) (s : State α σ)

theorem later_consume : (s.later k store).consume = s.consume.later k store := by
  simp [State.later, State.consume, Nat.add_right_comm]

theorem later_push (resume : Nat) (pos : Option Nat) :
    (s.later k store).push resume (pos.map (· + k)) = (s.push resume pos).later k store := by
  simp [State.later, State.push, Frame.later]

theorem later_pop : (s.later k store).pop = s.pop.later k store := by
  simp [State.later, State.pop]

theorem later_rollback (n : Nat) :
    (s.later k store).rollback n = (s.rollback n).later k store := by
  simp [State.later, State.rollback, Array.map_extract]

theorem later_moveUp : (s.later k store).moveUp = s.moveUp.later k store := by
  obtain ⟨ip, pos, frames, log, opened, _⟩ := s
  cases frames <;> simp [State.later, State.moveUp, Frame.later]

theorem later_moveBack : (s.later k store).moveBack = s.moveBack.later k store := by
  obtain ⟨ip, pos, frames, log, opened, _⟩ := s
  cases frames with
  | nil => rfl
  | cons f rest =>
    simp only [State.moveBack, ← later_rollback]
    cases hpos : f.pos <;> simp [State.later, Frame.later, hpos]

theorem later_openAction (a : α) :
    openAction a (s.later k store) = (openAction a s).later k store := by
  simp [State.later, openAction, State.advance, Entry.later]

theorem unwind_later (frames : List Frame) :
    unwind (frames.map (Frame.later k))
      = (unwind frames).map fun (f, pos, rest) =>
        (f.later k, pos + k, rest.map (Frame.later k)) := by
  induction frames with
  | nil => rfl
  | cons f rest ih =>
    rw [List.map_cons, unwind, unwind]
    cases hpos : f.pos with
    | none => simpa [Frame.later, hpos] using ih
    | some pos => simp [Frame.later, hpos]

theorem spanEnd_later {rest subject : Array Char} (hrest : IsRest k rest subject) (c : CharClass)
    (pos : Nat) : spanEnd c subject (pos + k) = spanEnd c rest pos + k := by
  have hsize := hrest.size_eq
  induction pos using spanEnd.induct c rest with
  | case1 pos h hin ih =>
    have hget := hrest.getElem?_add pos
    rw [Array.getElem?_eq_getElem (by omega : pos + k < subject.size),
      Array.getElem?_eq_getElem h, Option.some.injEq] at hget
    rw [spanEnd, dif_pos (by omega), hget, if_pos hin, Nat.add_right_comm, ih]
    conv_rhs => rw [spanEnd, dif_pos h, if_pos hin]
  | case2 pos h hout =>
    have hget := hrest.getElem?_add pos
    rw [Array.getElem?_eq_getElem (by omega : pos + k < subject.size),
      Array.getElem?_eq_getElem h, Option.some.injEq] at hget
    rw [spanEnd, dif_pos (by omega), hget, if_neg hout, spanEnd, dif_pos h, if_neg hout]
  | case3 pos h => rw [spanEnd, dif_neg (by omega), spanEnd, dif_neg h]

end States

section Steps

variable {k : Nat} {rest subject : Array Char} {related : σ → τ → Prop} {acts : Actions α σ}
  {acts' : Actions α τ} {s : State α σ} {store : τ}

theorem fail_later (hs : related s.store store) :
    Outcome.Later k related s.fail (s.later k store).fail := by
  have hunwind : unwind (s.later k store).frames
      = (unwind s.frames).map fun (f, pos, rest) =>
        (f.later k, pos + k, rest.map (Frame.later k)) := unwind_later k s.frames
  rw [State.fail, State.fail, hunwind]
  cases unwind s.frames with
  | none => exact .final hs
  | some r =>
    obtain ⟨f, pos, rest⟩ := r
    have hnext := Outcome.Later.next (k := k)
      (s := ({ s with ip := f.resume, pos := pos, frames := rest }.rollback f.logged)) hs
    rw [← later_rollback] at hnext
    exact hnext

theorem consumeIf_later (hrest : IsRest k rest subject) (want : Char → Bool)
    (hs : related s.store store) :
    Outcome.Later k related (consumeIf want rest s) (consumeIf want subject (s.later k store)) := by
  have hget : subject[(s.later k store).pos]? = rest[s.pos]? := hrest.getElem?_add s.pos
  rw [consumeIf, consumeIf, hget]
  split
  · split
    · rw [later_consume]
      exact .next hs
    · exact fail_later hs
  · exact fail_later hs

theorem testFor_later (hrest : IsRest k rest subject) (want : Char → Bool) (t : Nat)
    (hs : related s.store store) :
    Outcome.Later k related (testFor want t rest s) (testFor want t subject (s.later k store)) := by
  have hget : subject[(s.later k store).pos]? = rest[s.pos]? := hrest.getElem?_add s.pos
  rw [testFor, testFor, hget]
  split
  · split
    · exact .next (s := s.advance) hs
    · exact .next (s := s.goto t) hs
  · exact .next (s := s.goto t) hs

theorem closeAction_later (hrest : IsRest k rest subject)
    (hacts : acts.InStep k rest subject related acts') (hs : related s.store store) :
    Outcome.Later k related (closeAction acts rest s)
      (closeAction acts' subject (s.later k store)) := by
  rw [closeAction, closeAction]
  have hopened : (s.later k store).opened = s.opened := rfl
  rw [hopened]
  split
  · exact .final hs
  · next i opened _ =>
    have hlog : (s.later k store).log[i]? = s.log[i]?.map (Entry.later k) := by
      simp [State.later]
    rw [hlog]
    cases s.log[i]? with
    | none => exact .final hs
    | some e =>
      have hanswer := hacts.answer e.action e.start s.pos _ _ hs
      have hasked := hacts.asked e.action e.start s.pos _ _ hs
      simp only [Option.map_some]
      simp only [Entry.later, State.later] at hanswer hasked ⊢
      generalize acts.onMatch e.action rest e.start s.pos s.store = r at hanswer hasked ⊢
      generalize acts'.onMatch e.action subject (e.start + k) (s.pos + k) store = r'
        at hanswer hasked ⊢
      obtain ⟨answer, st⟩ := r
      obtain ⟨answer', st'⟩ := r'
      simp only at hanswer hasked
      subst hanswer
      cases answer with
      | none => exact fail_later (s := { s with opened := opened, store := st }) hasked
      | some answer =>
        have hbad : (answer + k < s.pos + k ∨ subject.size < answer + k)
            ↔ (answer < s.pos ∨ rest.size < answer) := by
          rw [hrest.size_eq]
          omega
        simp only [Option.map_some, hbad]
        split
        · rw [hrest.size_eq]
          exact .final (v := .badAnswer answer s.pos rest.size) hasked
        · let s' : State α σ :=
            { s.advance with
              pos := answer, opened := opened, store := st
              log := s.log.setIfInBounds i { e with stop := some answer } }
          have hnext : Outcome.Later k related (.next s') (.next (s'.later k st')) := .next hasked
          simpa [s', State.later, Entry.later, State.advance] using hnext

theorem commitAll_later (hacts : acts.InStep k rest subject related acts')
    (log : Array (Entry α)) {store : σ} {store' : τ} (h : related store store') :
    related (commitAll acts rest log store)
      (commitAll acts' subject (log.map (Entry.later k)) store') := by
  rw [commitAll, commitAll, Array.foldl_map, ← Array.foldl_toList, ← Array.foldl_toList]
  induction log.toList generalizing store store' with
  | nil => exact h
  | cons e es ih =>
    rw [List.foldl_cons, List.foldl_cons]
    refine ih ?_
    cases hstop : e.stop with
    | none => simpa [Entry.later, hstop] using h
    | some stop => simpa [Entry.later, hstop] using hacts.committed e.action e.start stop _ _ h

/-- **An instruction does the same further on.** -/
theorem exec_later (hrest : IsRest k rest subject)
    (hacts : acts.InStep k rest subject related acts') (start : Nat) (instr : Instr α)
    (hs : related s.store store) :
    Outcome.Later k related (exec acts rest start instr s)
      (exec acts' subject (start + k) instr (s.later k store)) := by
  cases instr with
  | any | tested | char | set => exact consumeIf_later hrest _ hs
  | testAny | testChar | testSet => exact testFor_later hrest _ _ hs
  | span c =>
    have hspan : spanEnd c subject (s.later k store).pos = spanEnd c rest s.pos + k :=
      spanEnd_later k hrest c s.pos
    rw [exec, exec, hspan]
    exact .next (s := { s.advance with pos := spanEnd c rest s.pos }) hs
  | behind n =>
    have hdist : (s.later k store).pos - (start + k) = s.pos - start :=
      Nat.add_sub_add_right ..
    rw [exec, exec, hdist]
    split
    · exact fail_later hs
    · have hpos : (s.later k store).pos - n = s.pos - n + k := by
        simp only [State.later]
        omega
      rw [hpos]
      exact .next (s := { s.advance with pos := s.pos - n }) hs
  | ret =>
    obtain ⟨ip, pos, frames, log, opened, _⟩ := s
    cases frames with
    | nil => exact .final hs
    | cons f frames => exact .next (s := ⟨f.resume, pos, frames, log, opened, _⟩) hs
  | halt => exact .final (v := .success s.pos) (commitAll_later hacts s.log hs)
  | giveUp => exact .final hs
  | choice t =>
    have hpush := later_push k store s t (some s.pos)
    rw [exec, exec]
    simp only [Option.map_some] at hpush
    rw [show some (s.later k store).pos = some (s.pos + k) from rfl, hpush]
    exact .next (s := (s.push t (some s.pos)).advance) hs
  | jump t => exact .next (s := s.goto t) hs
  | call t =>
    have hpush := later_push k store s (s.ip + 1) none
    rw [exec, exec]
    rw [Option.map_none] at hpush
    rw [show (s.later k store).ip = s.ip from rfl, hpush]
    exact .next (s := (s.push (s.ip + 1) none).goto t) hs
  | openCall => exact .final hs
  | commit t =>
    rw [exec, exec, later_pop]
    exact .next (s := s.pop.goto t) hs
  | partialCommit t =>
    rw [exec, exec, later_moveUp]
    exact .next (s := s.moveUp.goto t) (by rwa [State.goto, store_moveUp])
  | backCommit t =>
    rw [exec, exec, later_moveBack]
    exact .next (s := s.moveBack.goto t) (by rwa [State.goto, store_moveBack])
  | failTwice =>
    rw [exec, exec, later_pop]
    exact fail_later (s := s.pop) hs
  | fail => exact fail_later hs
  | openAction a =>
    rw [exec, exec, later_openAction]
    exact .next (s := openAction a s) hs
  | closeAction => exact closeAction_later hrest hacts hs

/-- **A step does the same further on.** -/
theorem step_later (hrest : IsRest k rest subject)
    (hacts : acts.InStep k rest subject related acts') (code : Array (Instr α)) (start : Nat)
    (hs : related s.store store) :
    Outcome.Later k related (step acts code rest start s)
      (step acts' code subject (start + k) (s.later k store)) := by
  have hip : (s.later k store).ip = s.ip := rfl
  rw [step, step, hip]
  cases code[s.ip]? with
  | none => exact .final hs
  | some instr => exact exec_later hrest hacts start instr hs

/-- States that the one match gets to, the other gets to further on. -/
theorem reaches_later (hrest : IsRest k rest subject)
    (hacts : acts.InStep k rest subject related acts') {code : Array (Instr α)} {start : Nat}
    {s' : State α σ} (hs : related s.store store) (hr : Reaches acts code rest start s s') :
    ∃ store', related s'.store store' ∧
      Reaches acts' code subject (start + k) (s.later k store) (s'.later k store') := by
  induction hr with
  | refl => exact ⟨store, hs, .refl⟩
  | @tail t t' _ hstep ih =>
    obtain ⟨st, hst, hreach⟩ := ih
    have hlater := step_later hrest hacts code start hst
    rw [hstep] at hlater
    generalize hout : step acts' code subject (start + k) (t.later k st) = out at hlater
    cases hlater with
    | next h => exact ⟨_, h, hreach.tail hout⟩

/-- **Two matches of which one is further on end together**, after the same number of steps, and in
the same way but further on. -/
theorem run_later (hrest : IsRest k rest subject)
    (hacts : acts.InStep k rest subject related acts') (code : Array (Instr α)) (start n : Nat)
    (hs : related s.store store) :
    Option.Rel (fun r r' => r'.1 = r.1.later k ∧ related r.2 r'.2)
      (run acts code rest start n s) (run acts' code subject (start + k) n (s.later k store)) := by
  induction n generalizing s store with
  | zero => exact .none
  | succ n ih =>
    have hstep := step_later hrest hacts code start hs
    rw [run, run]
    generalize step acts code rest start s = out at hstep ⊢
    generalize step acts' code subject (start + k) (s.later k store) = out' at hstep ⊢
    cases hstep with
    | next h => exact ih h
    | final h => exact .some ⟨rfl, h⟩

end Steps

theorem start_later (k : Nat) (prog : Program α) (offset : Nat) (store : σ) (store' : τ) :
    Machine.start prog (offset + k) store' = (Machine.start prog offset store).later k store' := by
  simp [Machine.start, State.later, Frame.later]

/-! ## Marks -/

/-- What is written when the mark is told of a match that is part of the whole. -/
def Call.writing? (subject : Array Char) : Call Mark → Option Writing
  | asked _ => none
  | committed f => some (f.writing subject)

/-- What the calls write, in their order. -/
def writings (subject : Array Char) (calls : List (Call Mark)) : List Writing :=
  calls.filterMap (Call.writing? subject)

section Marks

variable {k : Nat} {rest subject : Array Char}

theorem substring_later (hrest : IsRest k rest subject) (i j : Nat) :
    substring subject (i + k) (j + k) = substring rest i j := by
  have hextract : subject.extract (i + k) (j + k) = rest.extract i j := by
    refine Array.ext_getElem? fun m => ?_
    have hget := hrest.getElem?_add (i + m)
    have hsize := hrest.size_eq
    rw [Nat.add_right_comm] at hget
    rw [Array.getElem?_extract, Array.getElem?_extract, hget]
    by_cases hm : m < min j rest.size - i
    · rw [if_pos hm, if_pos (by omega)]
    · rw [if_neg hm, if_neg (by omega)]
  rw [substring, substring, hextract]

theorem writing_later (hrest : IsRest k rest subject) (f : Firing Mark) :
    (f.later k).writing subject = (f.writing rest).later k := by
  obtain ⟨m, i, j⟩ := f
  cases m <;>
    simp [Firing.writing, Firing.later, Mark.writing, Writing.later, substring_later hrest]

theorem writings_later (hrest : IsRest k rest subject) (calls : List (Call Mark)) :
    writings subject (calls.map (Call.later k)) = (writings rest calls).map (Writing.later k) := by
  rw [writings, writings, List.filterMap_map, List.map_filterMap]
  refine congrArg (List.filterMap · calls) (funext fun call => ?_)
  cases call with
  | asked f => rfl
  | committed f => exact congrArg some (writing_later hrest f)

/-- The same calls have been made but further on, and what the marks keep is what they kept at first
and what the calls have written. -/
structure WrittenLater (k : Nat) (rest subject : Array Char) (c c' : Captures)
    (kept kept' : Captures × List (Call Mark)) : Prop where
  calls : kept'.2 = kept.2.map (Call.later k)
  first : kept.1 = Writing.writeAll (writings rest kept.2) c
  second : kept'.1 = Writing.writeAll (writings subject kept'.2) c'

theorem writings_concat_asked (calls : List (Call Mark)) (f : Firing Mark) :
    writings subject (calls ++ [.asked f]) = writings subject calls := by
  simp [writings, List.filterMap_cons, Call.writing?]

theorem writeAll_concat_committed (calls : List (Call Mark)) (f : Firing Mark) (c : Captures) :
    Writing.writeAll (writings subject (calls ++ [.committed f])) c
      = (f.writing subject).write (Writing.writeAll (writings subject calls) c) := by
  simp [writings, Writing.writeAll, Call.writing?]

/-- Marks do not notice how far on they are. -/
theorem inStep_marks (k : Nat) (rest subject : Array Char) (c c' : Captures) :
    Mark.actions.recorded.InStep k rest subject (WrittenLater k rest subject c c')
      Mark.actions.recorded where
  answer _ _ _ _ _ _ := rfl
  asked m i j kept kept' h := by
    refine ⟨?_, h.first.trans ?_, h.second.trans ?_⟩
    · simp only [Actions.recorded, h.calls]
      simp [Call.later, Firing.later]
    · exact congrArg (Writing.writeAll · c) (writings_concat_asked ..).symm
    · exact congrArg (Writing.writeAll · c') (writings_concat_asked ..).symm
  committed m i j kept kept' h := by
    refine ⟨?_, ?_, ?_⟩
    · simp only [Actions.recorded, h.calls]
      simp [Call.later, Firing.later]
    · refine .trans ?_ (writeAll_concat_committed kept.2 ⟨m, i, j⟩ c).symm
      rw [← h.first]
      exact Mark.commit_eq_write ..
    · refine .trans ?_ (writeAll_concat_committed kept'.2 ⟨m, i + k, j + k⟩ c').symm
      rw [← h.second]
      exact Mark.commit_eq_write ..

/-- An answer that a match must not go to is that of an action which has been asked there. -/
theorem answered_of_badAnswer {acts : Actions α σ} {start : Nat} {instr : Instr α} {s : State α σ}
    {answer pos length : Nat} {store : σ}
    (h : exec acts subject start instr s = .final (.badAnswer answer pos length) store) :
    ∃ a i, (acts.onMatch a subject i s.pos s.store).1 = some answer ∧
      (answer < s.pos ∨ subject.size < answer) := by
  cases instr with
  | closeAction =>
    rw [exec, closeAction] at h
    split at h
    · cases h
    · split at h
      · cases h
      · next e _ =>
        split at h
        · cases eq_broken_of_fail h
        · next heq =>
          split at h
          · next hbad =>
            cases h
            exact ⟨e.action, e.start, by rw [heq], hbad⟩
          · cases h
  | any | tested | char | set => cases eq_broken_of_consumeIf h
  | testAny | testChar | testSet => exact absurd h (testFor_ne_final _ _ _ _)
  | fail | failTwice => cases eq_broken_of_fail h
  | behind n =>
    rw [exec] at h
    split at h
    · cases eq_broken_of_fail h
    · cases h
  | ret =>
    rw [exec] at h
    split at h <;> cases h
  | _ => cases h

end Marks

/-! ## Compiled patterns -/

namespace Program

variable {p : Pattern Mark} {options : CompileOptions} {prog : Program Mark} {subject : Array Char}

/-- Where all actions are marks, a match succeeds or fails. -/
theorem ends_of_marks (hp : p.Built) (hc : compile options p = .ok prog) {offset : Nat}
    (ho : offset ≤ subject.size) {kept kept' : Captures × List (Call Mark)} {n : Nat} {v : Verdict}
    (h : prog.matchAt Mark.actions.recorded subject offset kept n = .ok (some (v, kept'))) :
    v = .failure ∨ ∃ stop, v = .success stop := by
  obtain ⟨root, hroot, -⟩ := keeps_of_compile hc
  obtain ⟨s, hs, hfinal⟩ := exists_final_of_run ((matchAt_eq_iff ho).1 h)
  have hsafe := staysSafe_of_compile hp hc hroot ho Mark.actions.recorded kept s hs
  cases hsafe.verdict hfinal with
  | success => exact .inr ⟨s.pos, rfl⟩
  | failure => exact .inl rfl
  | badAnswer =>
    obtain ⟨instr, hi, -⟩ := hsafe.allowed
    rw [step_eq_exec hi] at hfinal
    obtain ⟨m, i, hanswer, hbad⟩ := answered_of_badAnswer hfinal
    -- a mark answers with the position of the machine, which is in the subject
    cases hanswer
    have := hsafe.pos_le
    omega

/-- What two matches of marks come to, of which the second starts `k` characters further on in the
subject, and the first at the start of the rest of it. -/
structure EndsLater (k : Nat) (subject : Array Char) (c c' : Captures)
    (r r' : Verdict × Captures × List (Call Mark)) : Prop where
  /-- Both fail, or both succeed, the second `k` characters further on. -/
  verdict : r.1 = .failure ∧ r'.1 = .failure ∨
    ∃ stop, r.1 = .success stop ∧ r'.1 = .success (stop + k)
  /-- Their ends are `k` characters apart. -/
  stop : r'.1.stopFrom k = r.1.stopFrom 0 + k
  /-- The same marks are asked and then told of the match, `k` characters further on. -/
  calls : r'.2.2 = r.2.2.map (Call.later k)
  /-- The same is written, with offsets and positions that are `k` more. -/
  written : writings subject r'.2.2 = (writings (subject.drop k) r.2.2).map (Writing.later k)
  /-- This is what the first match does to the capturers, -/
  first : r.2.1 = Writing.writeAll (writings (subject.drop k) r.2.2) c
  /-- and the second. -/
  second : r'.2.1 = Writing.writeAll (writings subject r'.2.2) c'

/-- **A match from an offset is a match of the rest of the subject.**  It takes as many steps to an
end, so that either both matches go on or both have ended; it succeeds if the other does, and all
positions are as much more as the offset says; and the same substrings are captured, in the same
order.  So it does not matter what lies before the offset. -/
theorem endsLater_at_offset (hp : p.Built) (hc : compile options p = .ok prog) {k : Nat}
    (hk : k ≤ subject.size) (c c' : Captures) (n : Nat) :
    ∃ r r', prog.matchAt Mark.actions.recorded (subject.drop k) 0 (c, []) n = .ok r ∧
      prog.matchAt Mark.actions.recorded subject k (c', []) n = .ok r' ∧
      Option.Rel (EndsLater k subject c c') r r' := by
  have hrest := isRest_drop hk
  have hwritten : WrittenLater k (subject.drop k) subject c c' (c, []) (c', []) := ⟨rfl, rfl, rfl⟩
  have hrun := run_later hrest (inStep_marks k (subject.drop k) subject c c') prog.code 0 n
    (s := Machine.start prog 0 (c, [])) hwritten
  rw [← start_later, Nat.zero_add] at hrun
  refine ⟨_, _, by rw [matchAt, if_neg (Nat.not_lt_zero _)],
    by rw [matchAt, if_neg (Nat.not_lt.2 hk)], ?_⟩
  generalize hr : run _ prog.code (subject.drop k) 0 n _ = r at hrun ⊢
  generalize run _ prog.code subject k n _ = r' at hrun ⊢
  cases hrun with
  | none => exact .none
  | @some x y h =>
    obtain ⟨hv, hkept⟩ := h
    have hends := ends_of_marks hp hc (Nat.zero_le _) ((matchAt_eq_iff (Nat.zero_le _)).2 hr)
    refine .some ⟨?_, ?_, hkept.calls, ?_, hkept.first, hkept.second⟩
    · rcases hends with hfail | ⟨stop, hstop⟩
      · exact .inl ⟨hfail, by rw [hv, hfail]; rfl⟩
      · exact .inr ⟨stop, hstop, by rw [hv, hstop]; rfl⟩
    · rcases hends with hfail | ⟨stop, hstop⟩
      · rw [hv, hfail]
        exact (Nat.zero_add k).symm
      · rw [hv, hstop]
        rfl
    · rw [hkept.calls, writings_later hrest]

/-- A letter that stands before the offset, where a lookbehind does not see it. -/
theorem endsLater_at_offset_behind :
    let before : Pattern Mark := ⟨.behind 1 (.char 'x'), []⟩
    let found : Pattern Mark :=
      .action (.substring "s") (.seq (.action (.position "p") (.char 'a')) (.char 'b'))
    let p : Pattern Mark := .choice (.seq before (.char 'a')) found
    let subject := #['x', 'a', 'b']
    Pattern.behind (.char 'x') = .ok before ∧ p.Built ∧ 1 ≤ subject.size ∧
      ∃ prog, compile ⟨true, 20⟩ p = .ok prog ∧
        (prog.matchAt Mark.actions.recorded subject 1 ({}, []) 20).map
            (·.map fun r => (r.1, writings subject r.2.2))
          = .ok (some (.success 3, [.substring "s" ⟨1, "ab"⟩, .position "p" 1])) ∧
        ∀ c c' n, ∃ r r',
          prog.matchAt Mark.actions.recorded (subject.drop 1) 0 (c, []) n = .ok r ∧
          prog.matchAt Mark.actions.recorded subject 1 (c', []) n = .ok r' ∧
          Option.Rel (EndsLater 1 subject c c') r r' := by
  intro before found p subject
  have hbefore : Pattern.behind (.char 'x') = .ok before := rfl
  have hp : p.Built := .choice (.seq (.behind (.char 'x') hbefore) (.char 'a'))
    (.action _ (.seq (.action _ (.char 'a')) (.char 'b')))
  have hk : 1 ≤ subject.size := by decide
  obtain ⟨prog, hprog, hrun⟩ : ∃ prog, compile ⟨true, 20⟩ p = .ok prog ∧
      (prog.matchAt Mark.actions.recorded subject 1 ({}, []) 20).map
          (·.map fun r => (r.1, writings subject r.2.2))
        = .ok (some (.success 3, [.substring "s" ⟨1, "ab"⟩, .position "p" 1])) :=
    ⟨_, rfl, by decide +kernel⟩
  exact ⟨hbefore, hp, hk, prog, hprog, hrun, endsLater_at_offset hp hprog hk⟩

end Program
end PegMachine
