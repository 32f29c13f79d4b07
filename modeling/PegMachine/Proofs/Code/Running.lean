import PegMachine.Proofs.Code.Jumps
import PegMachine.Proofs.Observation

/-!
# What instructions do on the way to the end

Compiled code is shown right backwards, from the end of the match: code is right if the match ends
as it should from where the code starts, provided that it does so from where the code leads to.
`Ending` is a match together with the way in which it should end, and `Ending.From s` says that it
ends so from the state `s`.

States come up only as they are reached from a state that is kept in mind: `s.reach ip pos fs` is
`s`, gone on to other places, with the actions `fs` added to the log, and `s.under f` is `s` with a
frame on top.  There is one lemma for each instruction about states of this form, and `fail_reach`
says that whatever has been reached, to fail is to fail from the state kept in mind.  This takes
states whose frames and open actions are about the log as it is, `State.Sound`.

Failing does not take back what actions were asked.  If being asked changes what they keep, it is
`E.heard t s` that is kept in mind after the questions `t`, and `s` itself before.
-/

set_option autoImplicit false

namespace PegMachine

open State Machine

variable {α σ : Type}

/-- The entry in the log of an action that has ended. -/
def Firing.entry (f : Firing α) : Entry α := ⟨f.action, f.start, some f.stop⟩

namespace State

/-! ## States that are reached -/

/-- The state, gone on to an address and a position, with actions added to the log. -/
def reach (s : State α σ) (ip pos : Nat) (fs : List (Firing α)) : State α σ :=
  { s with ip := ip, pos := pos, log := s.log ++ (fs.map Firing.entry).toArray }

/-- The state with a frame on top. -/
def under (s : State α σ) (f : Frame) : State α σ := { s with frames := f :: s.frames }

/-- The state in which an action has been started at a position. -/
def opening (s : State α σ) (a : α) (pos : Nat) : State α σ :=
  { s with opened := s.log.size :: s.opened, log := s.log.push ⟨a, pos, none⟩ }

@[simp] theorem reach_reach (s : State α σ) (i j p q : Nat) (fs gs : List (Firing α)) :
    (s.reach i p fs).reach j q gs = s.reach j q (fs ++ gs) := by
  simp [reach]

@[simp] theorem under_reach (s : State α σ) (f : Frame) (i p : Nat) (fs : List (Firing α)) :
    (s.under f).reach i p fs = (s.reach i p fs).under f := rfl

@[simp] theorem size_log_reach (s : State α σ) (i p : Nat) (fs : List (Firing α)) :
    (s.reach i p fs).log.size = s.log.size + fs.length := by
  simp [reach]

@[simp] theorem log_reach_nil (s : State α σ) (i p : Nat) : (s.reach i p []).log = s.log := by
  simp [reach]

/-- Pushing a frame and going on. -/
theorem push_reach (s : State α σ) (i j p q t : Nat) (at? : Option Nat) :
    ((s.reach i p []).push t at?).reach j q [] = (s.push t at?).reach j q [] := by
  simp [reach, push]

/-- In the log of a state that is reached with an action open, the action is where it was put. -/
theorem getElem?_log_opening (s : State α σ) (act : α) (p : Nat) (i q : Nat)
    (fs : List (Firing α)) :
    ((s.opening act p).reach i q fs).log[s.log.size]? = some ⟨act, p, none⟩ := by
  simp [State.opening, State.reach]

/-- Noting where an action ended makes the entry that was kept open one like the others. -/
theorem setIfInBounds_log_opening (s : State α σ) (act : α) (p : Nat) (i q stop : Nat)
    (fs : List (Firing α)) :
    ((s.opening act p).reach i q fs).log.setIfInBounds s.log.size ⟨act, p, some stop⟩
      = s.log ++ ((⟨act, p, stop⟩ :: fs).map Firing.entry).toArray := by
  apply Array.toList_inj.1
  simp [State.opening, State.reach, Firing.entry]

/-! ## Failing -/

/-- The frames remember the log no longer than it is, and the actions that are open are in it. -/
structure Sound (s : State α σ) : Prop where
  frames : ∀ f ∈ s.frames, f.logged ≤ s.log.size
  opened : ∀ i ∈ s.opened, i < s.log.size

theorem Sound.reach {s : State α σ} (hs : s.Sound) (i p : Nat) (fs : List (Firing α)) :
    (s.reach i p fs).Sound where
  frames f hf := by
    have := hs.frames f hf
    rw [size_log_reach]
    omega
  opened j hj := by
    have := hs.opened j hj
    rw [size_log_reach]
    omega

theorem Sound.under {s : State α σ} (hs : s.Sound) {f : Frame} (hf : f.logged ≤ s.log.size) :
    (s.under f).Sound where
  frames g hg := by
    rcases List.mem_cons.1 hg with rfl | hg
    · exact hf
    · exact hs.frames g hg
  opened := hs.opened

theorem Sound.of_under {s : State α σ} {f : Frame} (hs : (s.under f).Sound) : s.Sound where
  frames g hg := hs.frames g (List.mem_cons_of_mem f hg)
  opened := hs.opened

theorem Sound.push {s : State α σ} (hs : s.Sound) (t : Nat) (at? : Option Nat) :
    (s.push t at?).Sound :=
  hs.under (Nat.le_refl _)

theorem Sound.opening {s : State α σ} (hs : s.Sound) (a : α) (pos : Nat) :
    (s.opening a pos).Sound where
  frames f hf := by
    have := hs.frames f hf
    simp only [State.opening, Array.size_push]
    omega
  opened i hi := by
    simp only [State.opening, Array.size_push, List.mem_cons] at hi ⊢
    rcases hi with rfl | hi
    · omega
    · have := hs.opened i hi
      omega

theorem mem_of_unwind {frames rest : List Frame} {f : Frame} {pos : Nat}
    (h : unwind frames = some (f, pos, rest)) : f ∈ frames := by
  induction frames with
  | nil => cases h
  | cons g frames ih =>
    rw [unwind] at h
    split at h
    · cases h
      exact List.mem_cons_self
    · exact List.mem_cons_of_mem g (ih h)

theorem dropWhile_le_append {n : Nat} {newer older : List Nat} (h : ∀ i ∈ newer, n ≤ i) :
    (newer ++ older).dropWhile (n ≤ ·) = older.dropWhile (n ≤ ·) := by
  induction newer with
  | nil => rfl
  | cons i newer ih =>
    rw [List.cons_append, List.dropWhile_cons_of_pos (by simpa using h i (by simp))]
    exact ih fun j hj => h j (by simp [hj])

/-- Failing forgets the actions that were started or ended since. -/
theorem Sound.fail_eq {s s' : State α σ} (hs : s.Sound) (hframes : s'.frames = s.frames)
    (hstore : s'.store = s.store) {newer : List Nat} (hnewer : ∀ i ∈ newer, s.log.size ≤ i)
    (hopened : s'.opened = newer ++ s.opened)
    {more : Array (Entry α)} (hlog : s'.log = s.log ++ more) : s'.fail = s.fail := by
  rw [fail, fail, hframes, hstore]
  split
  · rfl
  · next f pos rest h =>
    have hf := hs.frames f (mem_of_unwind h)
    have htake : (s.log ++ more).take f.logged = s.log.take f.logged := by
      simp [Nat.sub_eq_zero_of_le hf]
    simp only [rollback, hopened, hlog, htake,
      dropWhile_le_append fun i hi => Nat.le_trans hf (hnewer i hi)]

theorem fail_reach {s : State α σ} (hs : s.Sound) (i p : Nat) (fs : List (Firing α)) :
    (s.reach i p fs).fail = s.fail :=
  hs.fail_eq rfl rfl (List.forall_mem_nil _) rfl rfl

/-- The log is no longer than it is, and all open actions are in it. -/
theorem Sound.rollback_size {s : State α σ} (hs : s.Sound) : s.rollback s.log.size = s := by
  have hopened : s.opened.dropWhile (s.log.size ≤ ·) = s.opened := by
    cases hopen : s.opened with
    | nil => rfl
    | cons i rest =>
      have := hs.opened i (by simp [hopen])
      exact List.dropWhile_cons_of_neg (by simpa using this)
  simp [rollback, hopened]

/-- To fail under a frame that was pushed for a choice is to go on from there. -/
theorem fail_push {s : State α σ} (hs : s.Sound) (t p : Nat) :
    (s.push t (some p)).fail = .next (s.reach t p []) := by
  have h : (s.reach t p []).rollback s.log.size = s.reach t p [] := by
    have h := (hs.reach t p []).rollback_size
    rwa [log_reach_nil] at h
  rw [← h]
  simp [fail, push, unwind, reach]

theorem fail_opening {s : State α σ} (hs : s.Sound) (a : α) (p : Nat) :
    (s.opening a p).fail = s.fail := by
  have hnewer : ∀ i ∈ [s.log.size], s.log.size ≤ i := by simp
  exact hs.fail_eq rfl rfl hnewer rfl Array.push_eq_append

end State

/-! ## How a match is to end -/

/-- A match, and how it is to end.  What actions answer depends on nothing but the match that they
are asked about. -/
structure Ending (α σ : Type) where
  acts : Actions α σ
  code : Array (Instr α)
  subject : Array Char
  /-- Where the match started. -/
  start : Nat
  /-- What an action answers. -/
  answer : α → Nat → Nat → Option Nat
  /-- What being asked about a match makes of what the actions keep. -/
  hear : Firing α → σ → σ
  answers : ∀ a i j store, acts.onMatch a subject i j store = (answer a i j, hear ⟨a, i, j⟩ store)
  /-- The verdict in the end. -/
  verdict : Verdict
  /-- What the actions keep in the end. -/
  store : σ

namespace Ending

variable {E : Ending α σ} {s : State α σ} {a t q : Nat} {fs : List (Firing α)}

/-- What the meaning of expressions depends on. -/
def setting (E : Ending α σ) : Setting α where
  subject := E.subject
  start := E.start
  answer := E.answer

/-! ## What actions have been asked -/

/-- The state, after the actions have been asked about some matches. -/
def heard (E : Ending α σ) (asked : List (Firing α)) (s : State α σ) : State α σ :=
  { s with store := asked.foldl (fun store f => E.hear f store) s.store }

/-- Being asked does not change what the actions keep. -/
def Deaf (E : Ending α σ) : Prop := ∀ f store, E.hear f store = store

section Heard

variable {asked asked' : List (Firing α)}

theorem heard_append (E : Ending α σ) (asked asked' : List (Firing α)) (s : State α σ) :
    E.heard (asked ++ asked') s = E.heard asked' (E.heard asked s) := by
  simp [heard]

@[simp] theorem heard_reach (E : Ending α σ) (s : State α σ) (i p : Nat) :
    E.heard asked (s.reach i p fs) = (E.heard asked s).reach i p fs := rfl

@[simp] theorem heard_push (E : Ending α σ) (s : State α σ) (i : Nat) (at? : Option Nat) :
    E.heard asked (s.push i at?) = (E.heard asked s).push i at? := rfl

@[simp] theorem heard_opening (E : Ending α σ) (s : State α σ) (act : α) (p : Nat) :
    E.heard asked (s.opening act p) = (E.heard asked s).opening act p := rfl

theorem Deaf.heard (hE : E.Deaf) (asked : List (Firing α)) (s : State α σ) :
    E.heard asked s = s := by
  induction asked generalizing s with
  | nil => rfl
  | cons f rest ih =>
    rw [← List.singleton_append, heard_append, ih]
    show { s with store := E.hear f s.store } = s
    rw [hE]

end Heard

end Ending

theorem State.Sound.heard {s : State α σ} (hs : s.Sound) (E : Ending α σ)
    (asked : List (Firing α)) : (E.heard asked s).Sound :=
  ⟨hs.frames, hs.opened⟩

namespace Ending

variable {E : Ending α σ} {s : State α σ} {a t q : Nat} {fs : List (Firing α)}

/-! ## Steps on the way -/

/-- From the state, the match ends as it is to. -/
def From (E : Ending α σ) (s : State α σ) : Prop :=
  Halts E.acts E.code E.subject E.start s E.verdict E.store

/-- After a step with the given outcome, the match ends as it is to. -/
def After (E : Ending α σ) : Outcome α σ → Prop
  | .next s => E.From s
  | .final v store => v = E.verdict ∧ store = E.store

theorem from_iff_after_step : E.From s ↔ E.After (step E.acts E.code E.subject E.start s) := by
  constructor
  · rintro ⟨n, hn⟩
    cases n with
    | zero => cases hn
    | succ n =>
      rw [run] at hn
      cases hs : step E.acts E.code E.subject E.start s with
      | next s' =>
        rw [hs] at hn
        exact ⟨n, hn⟩
      | final v store =>
        rw [hs] at hn
        cases hn
        exact ⟨rfl, rfl⟩
  · intro h
    cases hs : step E.acts E.code E.subject E.start s with
    | next s' =>
      rw [hs] at h
      exact halts_of_step hs h
    | final v store =>
      rw [hs] at h
      obtain ⟨rfl, rfl⟩ := h
      exact ⟨1, by rw [run, hs]⟩

/-- What the instruction at hand does decides how the match ends. -/
theorem from_iff (instr : Instr α) (hi : E.code[s.ip]? = some instr) :
    E.From s ↔ E.After (exec E.acts E.subject E.start instr s) := by
  rw [from_iff_after_step, step, hi]

theorem from_of_exec (instr : Instr α) (hi : E.code[a]? = some instr) {s' : State α σ}
    (hs : exec E.acts E.subject E.start instr (s.reach a q fs) = .next s') (h : E.From s') :
    E.From (s.reach a q fs) := by
  rw [from_iff instr hi, hs]
  exact h

/-! ## Control -/

theorem from_jump_iff (hi : E.code[a]? = some (.jump t)) :
    E.From (s.reach a q fs) ↔ E.From (s.reach t q fs) :=
  from_iff (.jump t) hi

theorem from_of_jumps {b : Nat} (hj : Jumps E.code a b) :
    E.From (s.reach a q fs) ↔ E.From (s.reach b q fs) := by
  induction hj with
  | here => exact Iff.rfl
  | jump hi _ ih => rw [from_jump_iff hi, ih]

theorem from_fail (hs : s.Sound) (hi : E.code[a]? = some .fail) (h : E.After s.fail) :
    E.From (s.reach a q fs) := by
  rw [from_iff .fail hi]
  show E.After (s.reach a q fs).fail
  rwa [State.fail_reach hs]

theorem from_failTwice {f : Frame} (hs : s.Sound) (hi : E.code[a]? = some .failTwice)
    (h : E.After s.fail) : E.From ((s.under f).reach a q fs) := by
  rw [from_iff .failTwice hi]
  show E.After (s.reach a q fs).fail
  rwa [State.fail_reach hs]

theorem from_choice (hi : E.code[a]? = some (.choice t))
    (h : E.From ((s.push t (some q)).reach (a + 1) q [])) : E.From (s.reach a q []) := by
  refine from_of_exec (.choice t) hi rfl ?_
  rwa [← State.push_reach s a _ q] at h

theorem from_commit {f : Frame} (hi : E.code[a]? = some (.commit t))
    (h : E.From (s.reach t q fs)) : E.From ((s.under f).reach a q fs) :=
  from_of_exec (.commit t) hi rfl h

theorem from_partialCommit {f : Frame} (hi : E.code[a]? = some (.partialCommit t))
    (h : E.From (((s.reach a q fs).push f.resume (some q)).reach t q [])) :
    E.From ((s.under f).reach a q fs) := by
  refine from_of_exec (.partialCommit t) hi rfl ?_
  have heq : ((s.under f).reach a q fs).moveUp.goto t
      = ((s.reach a q fs).push f.resume (some q)).reach t q [] := by
    simp [State.moveUp, State.goto, State.reach, State.under, State.push]
  rwa [heq]

/-- Going back to where the choice was made. -/
theorem from_backCommit {u p : Nat} (hs : s.Sound) (hi : E.code[a]? = some (.backCommit t))
    (h : E.From (s.reach t p [])) : E.From ((s.push u (some p)).reach a q fs) := by
  refine from_of_exec (.backCommit t) hi rfl ?_
  have heq : ((s.push u (some p)).reach a q fs).moveBack.goto t = s.reach t p [] := by
    have hlog : (s.log ++ (fs.map Firing.entry).toArray).take s.log.size = s.log := by simp
    have hopened := congrArg State.opened hs.rollback_size
    simp only [State.rollback] at hopened
    simp only [State.moveBack, State.goto, State.reach, State.push, State.rollback, hlog, hopened,
      Option.getD_some, List.map_nil, Array.append_empty]
  rwa [heq]

theorem from_call (hi : E.code[a]? = some (.call t))
    (h : E.From ((s.push (a + 1) none).reach t q [])) : E.From (s.reach a q []) := by
  refine from_of_exec (.call t) hi rfl ?_
  rwa [← State.push_reach s a _ q] at h

theorem from_ret {f : Frame} (hi : E.code[a]? = some .ret) (h : E.From (s.reach f.resume q fs)) :
    E.From ((s.under f).reach a q fs) :=
  from_of_exec .ret hi rfl h

/-- All returns are alike. -/
theorem from_of_returnsFrom {b : Nat} (ha : ReturnsFrom E.code a) (hb : E.code[b]? = some .ret)
    (h : E.From (s.reach a q fs)) : E.From (s.reach b q fs) := by
  obtain ⟨j, hj, hret⟩ := ha
  rw [from_of_jumps hj, from_iff .ret hret] at h
  rw [from_iff .ret hb]
  exact h

/-! ## Characters -/

theorem from_consume {instr : Instr α} {want : Char → Bool} {c : Char}
    (hi : E.code[a]? = some instr)
    (hw : exec E.acts E.subject E.start instr (s.reach a q fs)
      = consumeIf want E.subject (s.reach a q fs))
    (hc : E.subject[q]? = some c) (hwant : want c = true) (h : E.From (s.reach (a + 1) (q + 1) fs)) :
    E.From (s.reach a q fs) := by
  refine from_of_exec instr hi (hw.trans ?_) h
  have hc : E.subject[(s.reach a q fs).pos]? = some c := hc
  rw [consumeIf, hc]
  exact if_pos hwant

theorem from_consume_fail {instr : Instr α} {want : Char → Bool} (hs : s.Sound)
    (hi : E.code[a]? = some instr)
    (hw : exec E.acts E.subject E.start instr (s.reach a q fs)
      = consumeIf want E.subject (s.reach a q fs))
    (hc : ∀ c, E.subject[q]? = some c → want c = false) (h : E.After s.fail) :
    E.From (s.reach a q fs) := by
  have hfail : consumeIf want E.subject (s.reach a q fs) = s.fail := by
    rw [← State.fail_reach hs a q fs, consumeIf]
    split
    · next c hget => rw [hc c hget, if_neg (by simp)]
    · rfl
  rw [from_iff instr hi, hw, hfail]
  exact h

theorem from_test {instr : Instr α} {want : Char → Bool} {c : Char}
    (hi : E.code[a]? = some instr)
    (hw : exec E.acts E.subject E.start instr (s.reach a q fs)
      = testFor want t E.subject (s.reach a q fs))
    (hc : E.subject[q]? = some c) (hwant : want c = true) (h : E.From (s.reach (a + 1) q fs)) :
    E.From (s.reach a q fs) := by
  refine from_of_exec instr hi (hw.trans ?_) h
  have hc : E.subject[(s.reach a q fs).pos]? = some c := hc
  rw [testFor, hc]
  exact if_pos hwant

theorem from_test_fail {instr : Instr α} {want : Char → Bool} (hi : E.code[a]? = some instr)
    (hw : exec E.acts E.subject E.start instr (s.reach a q fs)
      = testFor want t E.subject (s.reach a q fs))
    (hc : ∀ c, E.subject[q]? = some c → want c = false) (h : E.From (s.reach t q fs)) :
    E.From (s.reach a q fs) := by
  refine from_of_exec instr hi (hw.trans ?_) h
  rw [testFor]
  split
  · next c hget =>
    rw [hc c hget, if_neg (by simp)]
    rfl
  · rfl

theorem from_span {k : CharClass} (hi : E.code[a]? = some (.span k))
    (h : E.From (s.reach (a + 1) (spanEnd k E.subject q) fs)) : E.From (s.reach a q fs) :=
  from_of_exec (.span k) hi rfl h

theorem from_behind {n : Nat} (hi : E.code[a]? = some (.behind n)) (hn : n ≤ q - E.start)
    (h : E.From (s.reach (a + 1) (q - n) fs)) : E.From (s.reach a q fs) := by
  refine from_of_exec (.behind n) hi ?_ h
  exact if_neg (Nat.not_lt.2 hn)

theorem from_behind_short {n : Nat} (hs : s.Sound) (hi : E.code[a]? = some (.behind n))
    (hn : q - E.start < n) (h : E.After s.fail) : E.From (s.reach a q fs) := by
  rw [from_iff (.behind n) hi]
  have heq : exec E.acts E.subject E.start (.behind n) (s.reach a q fs) = (s.reach a q fs).fail :=
    if_pos hn
  rwa [heq, State.fail_reach hs]

/-! ## Actions -/

theorem from_openAction {act : α} (hi : E.code[a]? = some (.openAction act))
    (h : E.From ((s.opening act q).reach (a + 1) q [])) : E.From (s.reach a q []) := by
  refine from_of_exec (.openAction act) hi rfl ?_
  have heq : openAction act (s.reach a q []) = (s.opening act q).reach (a + 1) q [] := by
    simp [openAction, State.advance, State.opening, State.reach]
  rwa [heq]

theorem from_closeAction {act : α} {p stop : Nat} (hi : E.code[a]? = some .closeAction)
    (hanswer : E.answer act p q = some stop) (hq : q ≤ stop) (hstop : stop ≤ E.subject.size)
    (h : E.From ((E.heard [⟨act, p, q⟩] s).reach (a + 1) stop (⟨act, p, stop⟩ :: fs))) :
    E.From ((s.opening act p).reach a q fs) := by
  refine from_of_exec .closeAction hi ?_ h
  have hopened : ((s.opening act p).reach a q fs).opened = s.log.size :: s.opened := rfl
  have hpos : ((s.opening act p).reach a q fs).pos = q := rfl
  rw [exec, closeAction, hopened]
  simp only [getElem?_log_opening, E.answers, hpos, hanswer, Nat.not_lt.2 hq, Nat.not_lt.2 hstop,
    or_self, if_false]
  rw [setIfInBounds_log_opening]
  rfl

theorem from_closeAction_refused {act : α} {p : Nat} (hs : s.Sound)
    (hi : E.code[a]? = some .closeAction) (hanswer : E.answer act p q = none)
    (h : E.After (E.heard [⟨act, p, q⟩] s).fail) : E.From ((s.opening act p).reach a q fs) := by
  have hopened : ((s.opening act p).reach a q fs).opened = s.log.size :: s.opened := rfl
  have hpos : ((s.opening act p).reach a q fs).pos = q := rfl
  rw [from_iff .closeAction hi, exec, closeAction, hopened]
  simp only [getElem?_log_opening, E.answers, hpos, hanswer]
  -- what has been started since is not in the log any more, but what was asked has been heard
  let s' := E.heard [⟨act, p, q⟩] s
  have hlog : ((s'.opening act p).reach a q fs).log
      = s.log ++ (#[⟨act, p, none⟩] ++ (fs.map Firing.entry).toArray) := by
    simp [s', Ending.heard, State.opening, State.reach]
  have hfail : ({ (s'.opening act p).reach a q fs with opened := s.opened }).fail = s'.fail :=
    (hs.heard E _).fail_eq rfl rfl (List.forall_mem_nil _) rfl hlog
  rw [← hfail] at h
  exact h

end Ending
end PegMachine
