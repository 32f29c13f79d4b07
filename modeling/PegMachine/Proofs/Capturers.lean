import PegMachine.Proofs.Captures
import PegMachine.Proofs.Survivors

/-!
# What capturers hold

Capturers live longer than matches.  Matches of all sorts of patterns write to them, some of them
succeed and others do not, and in between captures are removed again.  What capturers hold after all
of this can be told without any machine: from what became of the marks in the successful matches,
and from what was removed.

A *deed* is something that is done and may change capturers, and an *event* is what has become of
it.  `Account` says which events give an account of a history of deeds, and `replay` what they do to
capturers that were empty.

* `Attempt.captures_of_success`, `Attempt.captures_of_not_success` — what one match does to them.
* `holdAfter_replay` — what capturers hold after a number of events.
* `holdAfter_of_history` — what they hold after any history of matches, pops and clears.
-/

set_option autoImplicit false

namespace PegMachine

open PegMachine.Expr Machine

variable {β τ : Type}

/-! ## Marks among other actions -/

/-- The mark, if the action is one. -/
def Firing.mark? (f : Firing (β ⊕ Mark)) : Option (Firing Mark) :=
  match f.action with
  | .inl _ => none
  | .inr m => some ⟨m, f.start, f.stop⟩

/-- The marks among the actions. -/
def marksOf (fs : List (Firing (β ⊕ Mark))) : List (Firing Mark) := fs.filterMap Firing.mark?

/-- To ask actions about a match does not change capturers. -/
theorem captures_onMatch_sum (acts : Actions β τ) (subject : Array Char) {c : Captures}
    (x : β ⊕ Mark) (i j : Nat) (kept : τ × Captures) (h : kept.2 = c) :
    ((acts.sum Mark.actions).onMatch x subject i j kept).2.2 = c := by
  cases x <;> exact h

/-- Of the actions committed, only marks write to capturers. -/
theorem captures_commit_sum (acts : Actions β τ) (subject : Array Char) (stop : Nat)
    (fs : List (Firing (β ⊕ Mark))) (kept : τ × Captures) :
    ((Result.matched stop fs).commit (acts.sum Mark.actions) subject kept).2
      = Writing.writeAll ((marksOf fs).map (Firing.writing subject)) kept.2 := by
  simp only [Result.commit]
  induction fs generalizing kept with
  | nil => rfl
  | cons f fs ih =>
    obtain ⟨a, i, j⟩ := f
    rw [List.foldl_cons, ih]
    cases a with
    | inl x => rfl
    | inr m =>
      have hcommit : ((acts.sum Mark.actions).onCommit (.inr m) subject i j kept).2
          = (m.writing subject i j).write kept.2 := Mark.commit_eq_write ..
      rw [hcommit]
      rfl

theorem Orderly.marksOf {lo hi : Nat} {fs : List (Firing (β ⊕ Mark))} (h : Orderly lo hi fs) :
    Orderly lo hi (marksOf fs) where
  bounds f hf := by
    obtain ⟨⟨a, i, j⟩, hg, hmark⟩ := List.mem_filterMap.1 hf
    cases a with
    | inl => cases hmark
    | inr =>
      cases hmark
      exact h.bounds _ hg
  before := by
    refine h.before.filterMap _ fun f g hfg f' hf' g' hg' => ?_
    obtain ⟨a, i, j⟩ := f
    obtain ⟨b, i', j'⟩ := g
    cases a with
    | inl => cases hf'
    | inr =>
      cases b with
      | inl => cases hg'
      | inr =>
        cases hf'
        cases hg'
        exact hfg

/-! ## Matches -/

/-- A match that is tried: of a pattern with marks and maybe other actions in it, which has been
compiled somehow, at some place in some subject. -/
structure Attempt (β τ : Type) where
  /-- What the other actions do. -/
  actions : Actions β τ
  /-- What they keep at first. -/
  store : τ
  /-- The pattern. -/
  pattern : Pattern (β ⊕ Mark)
  built : pattern.Built
  /-- How it is compiled. -/
  options : CompileOptions
  /-- The program of the pattern. -/
  program : Program (β ⊕ Mark)
  compiled : Program.compile options pattern = .ok program
  /-- The subject. -/
  subject : Array Char
  /-- Where the match starts. -/
  offset : Nat

namespace Attempt

variable (a : Attempt β τ)

/-- Tries the match with the given capturers, for a number of steps. -/
def run (c : Captures) (steps : Nat) : Except Error (Option (Verdict × τ × Captures)) :=
  a.program.matchAt (a.actions.sum Mark.actions) a.subject a.offset (a.store, c) steps

/-- The match is refused, or ends with a verdict, and leaves the second capturers. -/
inductive Ends (c : Captures) : Except Error Verdict → Captures → Prop
  /-- A match that is refused does not start, so there is nothing that could change capturers. -/
  | refused {n : Nat} {e : Error} (h : a.run c n = .error e) : Ends c (.error e) c
  /-- Any other match returns what it has made of them, even if it ends with a bad answer. -/
  | ended {n : Nat} {v : Verdict} {t : τ} {c' : Captures}
      (h : a.run c n = .ok (some (v, t, c'))) : Ends c (.ok v) c'

/-- The actions survive a match with the given capturers, which succeeds and ends at the given
position. -/
structure Survive (c : Captures) (stop : Nat) (fs : List (Firing (β ⊕ Mark)))
    (root : Expr (β ⊕ Mark)) : Prop where
  /-- The expression of the pattern. -/
  resolved : a.pattern.root.resolve a.pattern.refs [] = .ok root
  /-- At the end of the match no action is open, and its log holds just these actions.  They are on
  one way through the expression, so none is from a lookahead or from an alternative given up. -/
  halts : ∃ s : State (β ⊕ Mark) (τ × Captures),
    Reaches (a.actions.sum Mark.actions) a.program.code a.subject a.offset
      (Machine.start a.program a.offset (a.store, c)) s ∧
    a.program.HaltsOn a.subject a.offset root s fs ∧ s.pos = stop
  /-- They are in the order in which they start, and lie side by side or inside each other. -/
  orderly : Orderly a.offset stop fs
  /-- The match ends in the subject, and so do they. -/
  stop_le : stop ≤ a.subject.size
  /-- Of the captures under one name, the last has no others inside, unless they are empty or as
  long as it is. -/
  innermost : ∀ id key f g, ((marksOf fs).filter (·.action = .named id key)).getLast? = some f →
    g ∈ marksOf fs → g.action = .named id key → g.start < g.stop → f.start ≤ g.start →
    g.stop ≤ f.stop → g.start = f.start ∧ g.stop = f.stop
  /-- They are the actions in the result of the expression, for a pattern whose program matches as
  it should. -/
  eq_matched : root.framesKept [] false .full = true → ∀ answer : β → Nat → Nat → Option Nat,
    (∀ x i j t, (a.actions.onMatch x a.subject i j t).1 = answer x i j) → ∀ asked r,
    Eval { subject := a.subject, start := a.offset,
           answer := Sum.elim answer fun _ _ j => some j } [] root a.offset asked r →
    r = .matched stop fs

end Attempt

/-! ## Deeds and events -/

/-- Something that is done, and how it turns out. -/
inductive Deed (β τ : Type) where
  /-- A match is tried, and is refused or ends with a verdict. -/
  | tried (a : Attempt β τ) (out : Except Error Verdict)
  /-- The last capture is removed from a capturer of substrings, and returned if there is one. -/
  | popped (id : String) (x : Option Capture)
  /-- A capturer is cleared. -/
  | cleared (kind : CapturerKind) (id : String)

/-- What a deed makes of the capturers. -/
inductive Deed.Does : Deed β τ → Captures → Captures → Prop
  | tried {a : Attempt β τ} {out : Except Error Verdict} {c c' : Captures} (h : a.Ends c out c') :
      Does (.tried a out) c c'
  | popped (id : String) (c : Captures) : Does (.popped id (c.pop id).1) c (c.pop id).2
  | cleared (kind : CapturerKind) (id : String) (c : Captures) :
      Does (.cleared kind id) c (c.clear kind id)

/-- What has become of a deed. -/
inductive Event where
  /-- A match of the subject succeeded, with these marks in it. -/
  | captured (subject : Array Char) (fs : List (Firing Mark))
  /-- Nothing. -/
  | nothing
  /-- The last capture was removed from a capturer of substrings. -/
  | popped (id : String)
  /-- A capturer was cleared. -/
  | cleared (kind : CapturerKind) (id : String)

namespace Event

/-- What the event makes of the capturers. -/
def apply (c : Captures) : Event → Captures
  | captured subject fs => Writing.writeAll (fs.map (Firing.writing subject)) c
  | nothing => c
  | popped id => (c.pop id).2
  | cleared kind id => c.clear kind id

/-- What the event makes of the contents of a capturer of substrings. -/
def contents (id : String) (xs : List Capture) : Event → List Capture
  | captured subject fs =>
    xs ++ (fs.filter (·.action = .substring id)).map
      fun f => ⟨f.start, substring subject f.start f.stop⟩
  | nothing => xs
  | popped other => if id = other then xs.dropLast else xs
  | cleared kind other => if kind = .substrings ∧ id = other then [] else xs

/-- What the event makes of the substring that is found under a name. -/
def value (id key : String) (x : Option String) : Event → Option String
  | captured subject fs =>
    match (fs.filter (·.action = .named id key)).getLast? with
    | some f => some (substring subject f.start f.stop)
    | none => x
  | nothing => x
  | popped _ => x
  | cleared kind other => if kind = .named ∧ id = other then none else x

/-- What the event makes of the contents of a capturer of positions. -/
def places (id : String) (xs : List Nat) : Event → List Nat
  | captured _ fs => xs ++ (fs.filter (·.action = .position id)).map Firing.start
  | nothing => xs
  | popped _ => xs
  | cleared kind other => if kind = .positions ∧ id = other then [] else xs

end Event

/-- The contents of a capturer of substrings after the events. -/
def contentsAfter (id : String) (es : List Event) : List Capture :=
  es.foldl (Event.contents id) []

/-- The substring under a name after the events. -/
def valueAfter (id key : String) (es : List Event) : Option String :=
  es.foldl (Event.value id key) none

/-- The contents of a capturer of positions after the events. -/
def placesAfter (id : String) (es : List Event) : List Nat := es.foldl (Event.places id) []

/-- What the events make of capturers that are empty. -/
def replay (es : List Event) : Captures := es.foldl Event.apply {}

/-- The event is what has become of a deed that came after some other events, and met the given
capturers. -/
inductive Deed.Tells (es : List Event) (c : Captures) : Deed β τ → Event → Prop
  /-- A match succeeds, and writes what the marks in it ask for. -/
  | captured {a : Attempt β τ} {stop : Nat} {fs : List (Firing (β ⊕ Mark))} {root : Expr (β ⊕ Mark)}
      (ho : a.offset ≤ a.subject.size) (h : a.Survive c stop fs root) :
      Tells es c (.tried a (.ok (.success stop))) (.captured a.subject (marksOf fs))
  /-- A match fails. -/
  | failed {a : Attempt β τ} (ho : a.offset ≤ a.subject.size) :
      Tells es c (.tried a (.ok .failure)) .nothing
  /-- An action answers with a position that it must not go to. -/
  | badAnswer {a : Attempt β τ} {answer pos : Nat} (ho : a.offset ≤ a.subject.size)
      (h : answer < pos ∨ a.subject.size < answer) :
      Tells es c (.tried a (.ok (.badAnswer answer pos a.subject.size))) .nothing
  /-- A match is refused, for its offset. -/
  | refused {a : Attempt β τ} (ho : a.subject.size < a.offset) :
      Tells es c (.tried a (.error (.invalidOffset a.offset a.subject.size))) .nothing
  /-- The last capture is returned, and removed. -/
  | popped (id : String) : Tells es c (.popped id (contentsAfter id es).getLast?) (.popped id)
  /-- All captures are removed. -/
  | cleared (kind : CapturerKind) (id : String) : Tells es c (.cleared kind id) (.cleared kind id)

/-- What has been done to capturers that were empty at first, and what they are in the end. -/
inductive History : List (Deed β τ) → Captures → Prop
  | none : History [] {}
  | next {ds : List (Deed β τ)} {d : Deed β τ} {c c' : Captures} (h : History ds c)
      (hd : d.Does c c') : History (ds ++ [d]) c'

/-- The events are what has become of the deeds. -/
inductive Account : List (Deed β τ) → List Event → Prop
  | none : Account [] []
  | next {ds : List (Deed β τ)} {d : Deed β τ} {es : List Event} {e : Event} (h : Account ds es)
      (hd : d.Tells es (replay es) e) : Account (ds ++ [d]) (es ++ [e])

/-- Capturers hold what the events say, and show it as they should. -/
structure Captures.HoldAfter (c : Captures) (es : List Event) : Prop where
  /-- What capturers of substrings hold. -/
  contents : ∀ id, (c.capturer id).items.toList = contentsAfter id es
  /-- What is found under names. -/
  value : ∀ id key, (c.namedCapturer id).get? key = valueAfter id key es
  /-- What capturers of positions hold. -/
  places : ∀ id, (c.positionCapturer id).items.toList = placesAfter id es
  /-- The captures are shown in the order of their offsets, those with the same offset in the order
  of commits. -/
  captures : ∀ id, StablySorted Capture.offset (contentsAfter id es) (c.capturer id).captures
  /-- The positions are shown in their order. -/
  positions : ∀ id,
    StablySorted (fun pos => pos) (placesAfter id es) (c.positionCapturer id).positions
  /-- The capture shown alone is the one committed last. -/
  peek : ∀ id, (c.capturer id).peek? = (contentsAfter id es).getLast?

/-! ## One match -/

namespace Attempt

variable {a : Attempt β τ} {c c' : Captures} {steps : Nat} {t : τ} {v : Verdict}

/-- A match is refused for its offset only. -/
theorem refused_of_run {e : Error} (h : a.run c steps = .error e) :
    a.subject.size < a.offset ∧ e = .invalidOffset a.offset a.subject.size := by
  rw [run, Program.matchAt] at h
  split at h
  · next ho =>
    cases h
    exact ⟨ho, rfl⟩
  · cases h

/-- A match that is not refused ends in a state that is safe, if it ends. -/
theorem exists_last (h : a.run c steps = .ok (some (v, t, c'))) :
    a.offset ≤ a.subject.size ∧ ∃ root s, a.pattern.root.resolve a.pattern.refs [] = .ok root ∧
      Reaches (a.actions.sum Mark.actions) a.program.code a.subject a.offset
        (Machine.start a.program a.offset (a.store, c)) s ∧
      step (a.actions.sum Mark.actions) a.program.code a.subject a.offset s = .final v (t, c') ∧
      Safe a.program.code a.subject a.offset (Way a.subject a.offset [] root a.offset) s := by
  have ho : a.offset ≤ a.subject.size := by
    rw [run, Program.matchAt] at h
    split at h
    · cases h
    · next ho => exact Nat.le_of_not_lt ho
  obtain ⟨root, hroot, -⟩ := Program.keeps_of_compile a.compiled
  obtain ⟨s, hs, hfinal⟩ := exists_final_of_run ((Program.matchAt_eq_iff ho).1 h)
  exact ⟨ho, root, s, hroot, hs, hfinal,
    Program.staysSafe_of_compile a.built a.compiled hroot ho _ _ s hs⟩

/-- A match that does not succeed does not change capturers. -/
theorem captures_of_not_success (ho : a.offset ≤ a.subject.size)
    (h : a.run c steps = .ok (some (v, t, c'))) (hv : ∀ stop, v ≠ .success stop) : c' = c :=
  store_of_run (P := fun kept => kept.2 = c) (captures_onMatch_sum a.actions a.subject) rfl
    ((Program.matchAt_eq_iff ho).1 h) hv

/-- **A match that succeeds writes what the marks that survive it ask for**, one after the other. -/
theorem captures_of_success {stop : Nat} (h : a.run c steps = .ok (some (.success stop, t, c'))) :
    ∃ fs root, a.Survive c stop fs root ∧
      c' = Writing.writeAll ((marksOf fs).map (Firing.writing a.subject)) c := by
  obtain ⟨ho, root, s, hroot, hs, hfinal, hsafe⟩ := exists_last h
  obtain ⟨instr, hi, hallow⟩ := hsafe.allowed
  rw [step_eq_exec hi] at hfinal
  obtain ⟨rfl, hstop, hstore⟩ := halt_of_success hfinal
  obtain ⟨hopened, fs, hlog, hway⟩ := hallow
  subst hstop
  have hhalts : a.program.HaltsOn a.subject a.offset root s fs := ⟨hi, hopened, hlog, hway⟩
  have horderly := hway.orderly trivial (fitted_of_resolve hroot a.built.fitted)
  have hkept : s.store.2 = c := store_of_reaches (P := fun kept => kept.2 = c)
    (captures_onMatch_sum a.actions a.subject) hs rfl
  refine ⟨fs, root, ⟨hroot, ⟨s, hs, hhalts, rfl⟩, horderly, hway.le_size ho, ?_, ?_⟩, ?_⟩
  · exact fun id key f g hf hg hkey => horderly.marksOf.innermost hf hg (decide_eq_true hkey)
  · intro hframes answer hanswer asked r heval
    refine hhalts.eq_matched a.built a.compiled hroot hframes hs (fun x i j kept => ?_) heval
    cases x with
    | inl x => exact hanswer x i j kept.1
    | inr m => rfl
  · have hcommit := congrArg Prod.snd hstore
    rwa [hlog, commitAll_entries _ _ fs s.pos, captures_commit_sum, hkept] at hcommit

end Attempt

/-! ## What events do to capturers -/

theorem filterMap_eq_map_filter {γ δ : Type} {f : γ → Option δ} {p : γ → Bool} {g : γ → δ}
    (h : ∀ x, f x = if p x then some (g x) else none) (xs : List γ) :
    xs.filterMap f = (xs.filter p).map g := by
  rw [← List.filterMap_eq_map, List.filterMap_filter]
  exact congrArg (List.filterMap · xs) (funext h)

section Marks

variable (subject : Array Char) (id key : String) (fs : List (Firing Mark))

theorem filterMap_capture? :
    (fs.map (Firing.writing subject)).filterMap (Writing.capture? id)
      = (fs.filter (·.action = .substring id)).map
        fun f => ⟨f.start, substring subject f.start f.stop⟩ := by
  rw [List.filterMap_map]
  refine filterMap_eq_map_filter (fun f => ?_) fs
  obtain ⟨m, i, j⟩ := f
  cases m <;> simp [Firing.writing, Mark.writing, Writing.capture?, @eq_comm _ id]

theorem filterMap_value? :
    (fs.map (Firing.writing subject)).filterMap (Writing.value? id key)
      = (fs.filter (·.action = .named id key)).map fun f => substring subject f.start f.stop := by
  rw [List.filterMap_map]
  refine filterMap_eq_map_filter (fun f => ?_) fs
  obtain ⟨m, i, j⟩ := f
  cases m <;>
    simp [Firing.writing, Mark.writing, Writing.value?, @eq_comm _ id, @eq_comm _ key]

theorem filterMap_position? :
    (fs.map (Firing.writing subject)).filterMap (Writing.position? id)
      = (fs.filter (·.action = .position id)).map Firing.start := by
  rw [List.filterMap_map]
  refine filterMap_eq_map_filter (fun f => ?_) fs
  obtain ⟨m, i, j⟩ := f
  cases m <;> simp [Firing.writing, Mark.writing, Writing.position?, @eq_comm _ id]

end Marks

namespace Event

variable (e : Event) (c : Captures) (id key : String)

theorem items_capturer_apply :
    ((e.apply c).capturer id).items.toList = e.contents id (c.capturer id).items.toList := by
  cases e with
  | captured subject fs =>
    rw [apply, contents, Writing.items_capturer_writeAll, filterMap_capture?]
  | nothing => rfl
  | popped other =>
    by_cases h : id = other <;> simp [apply, contents, Captures.pop, Capturer.pop, h]
  | cleared kind other =>
    cases kind <;> by_cases h : id = other <;> simp [apply, contents, Captures.clear, h]

theorem get?_namedCapturer_apply :
    ((e.apply c).namedCapturer id).get? key
      = e.value id key ((c.namedCapturer id).get? key) := by
  cases e with
  | captured subject fs =>
    rw [apply, value, Writing.get?_namedCapturer_writeAll, filterMap_value?, List.getLast?_map]
    cases (fs.filter (·.action = .named id key)).getLast? <;> rfl
  | nothing => rfl
  | popped other => rfl
  | cleared kind other =>
    cases kind <;> by_cases h : id = other <;>
      simp [apply, value, Captures.clear, NamedCapturer.get?, h]

theorem items_positionCapturer_apply :
    ((e.apply c).positionCapturer id).items.toList
      = e.places id (c.positionCapturer id).items.toList := by
  cases e with
  | captured subject fs =>
    rw [apply, places, Writing.items_positionCapturer_writeAll, filterMap_position?]
  | nothing => rfl
  | popped other => rfl
  | cleared kind other =>
    cases kind <;> by_cases h : id = other <;> simp [apply, places, Captures.clear, h]

end Event

/-- **What capturers hold after a number of events**, and how they show it. -/
theorem holdAfter_replay (es : List Event) : (replay es).HoldAfter es := by
  have hcontents : ∀ id, ((replay es).capturer id).items.toList = contentsAfter id es := fun id =>
    (List.foldl_hom (fun c : Captures => (c.capturer id).items.toList)
      fun c e => (e.items_capturer_apply c id).symm).symm
  have hvalue : ∀ id key, ((replay es).namedCapturer id).get? key = valueAfter id key es :=
    fun id key => (List.foldl_hom (fun c : Captures => (c.namedCapturer id).get? key)
      fun c e => (e.get?_namedCapturer_apply c id key).symm).symm
  have hplaces : ∀ id, ((replay es).positionCapturer id).items.toList = placesAfter id es :=
    fun id => (List.foldl_hom (fun c : Captures => (c.positionCapturer id).items.toList)
      fun c e => (e.items_positionCapturer_apply c id).symm).symm
  refine ⟨hcontents, hvalue, hplaces, fun id => ?_, fun id => ?_, fun id => ?_⟩
  · rw [← hcontents]
    exact stablySorted_captures _
  · rw [← hplaces]
    exact stablySorted_positions _
  · rw [← hcontents, Capturer.peek?, Array.getLast?_toList]

/-! ## Histories -/

/-- **What a deed does can be told by an event.** -/
theorem Deed.Does.exists_tells {d : Deed β τ} {es : List Event} {c' : Captures}
    (h : d.Does (replay es) c') : ∃ e, d.Tells es (replay es) e ∧ c' = e.apply (replay es) := by
  cases h with
  | popped id =>
    have hpop : ((replay es).pop id).1 = (contentsAfter id es).getLast? :=
      (holdAfter_replay es).peek id
    rw [hpop]
    exact ⟨.popped id, .popped id, rfl⟩
  | cleared kind id => exact ⟨.cleared kind id, .cleared kind id, rfl⟩
  | @tried a out _ _ hends =>
    cases hends with
    | refused hrun =>
      obtain ⟨ho, rfl⟩ := Attempt.refused_of_run hrun
      exact ⟨.nothing, .refused ho, rfl⟩
    | ended hrun =>
      obtain ⟨ho, root, s, -, -, hfinal, hsafe⟩ := Attempt.exists_last hrun
      cases hsafe.verdict hfinal with
      | success =>
        obtain ⟨fs, root, hsurvive, hc'⟩ := Attempt.captures_of_success hrun
        exact ⟨.captured a.subject (marksOf fs), .captured ho hsurvive, hc'⟩
      | failure =>
        exact ⟨.nothing, .failed ho, Attempt.captures_of_not_success ho hrun (by simp)⟩
      | badAnswer h =>
        exact ⟨.nothing, .badAnswer ho h, Attempt.captures_of_not_success ho hrun (by simp)⟩

/-- **Capturers hold exactly what successful matches have committed**, as far as it was not removed
again. -/
theorem holdAfter_of_history {ds : List (Deed β τ)} {c : Captures} (h : History ds c) :
    ∃ es, Account ds es ∧ c = replay es ∧ c.HoldAfter es := by
  suffices haccount : ∃ es, Account ds es ∧ c = replay es by
    obtain ⟨es, haccount, rfl⟩ := haccount
    exact ⟨es, haccount, rfl, holdAfter_replay es⟩
  induction h with
  | none => exact ⟨[], .none, rfl⟩
  | next _ hd ih =>
    obtain ⟨es, haccount, rfl⟩ := ih
    obtain ⟨e, he, rfl⟩ := hd.exists_tells
    exact ⟨es ++ [e], haccount.next he, by simp [replay]⟩

/-- Actions that answer with themselves. -/
def answering : Actions Nat Unit where
  onMatch n _ _ _ t := (some n, t)
  onCommit _ _ _ _ t := t

/-- A capture inside another one under the same name, and one in a lookahead; then a match that
fails, one that is refused, one in which an action gives a bad answer, and a pop. -/
theorem holdAfter_of_history_nested :
    let letter (x : Char) : Pattern (Nat ⊕ Mark) := .action (.inr (.substring "s")) (.char x)
    let word (q : Pattern (Nat ⊕ Mark)) : Pattern (Nat ⊕ Mark) := .action (.inr (.named "n" "k")) q
    let p := .seq (.test (letter 'a')) (word (.seq (letter 'a') (word (.char 'b'))))
    let bad := .seq (letter 'a') (.action (.inl 9) (.char 'b'))
    ∃ prog prog', ∃ hp : p.Built, ∃ hbad : bad.Built,
      ∃ hc : Program.compile ⟨true, 40⟩ p = .ok prog,
      ∃ hc' : Program.compile ⟨true, 40⟩ bad = .ok prog',
      let tried (subject : Array Char) (offset : Nat) : Attempt Nat Unit :=
        ⟨answering, (), p, hp, _, prog, hc, subject, offset⟩
      let triedBad : Attempt Nat Unit :=
        ⟨answering, (), bad, hbad, _, prog', hc', #['a', 'b'], 0⟩
      let deeds : List (Deed Nat Unit) :=
        [.tried (tried #['a', 'b'] 0) (.ok (.success 2)),
          .tried (tried #['a', 'c'] 0) (.ok .failure),
          .tried (tried #['a', 'b'] 3) (.error (.invalidOffset 3 2)),
          .tried triedBad (.ok (.badAnswer 9 2 2)),
          .popped "s" (some ⟨0, "a"⟩)]
      ∃ c, History deeds c ∧ (c.namedCapturer "n").get? "k" = some "b" ∧
        (c.capturer "s").items.toList = [] ∧
        ∃ es, Account deeds es ∧ c = replay es ∧ c.HoldAfter es := by
  intro letter word p bad
  have hletter (x : Char) : (letter x).Built := .action _ (.char x)
  have hp : p.Built := .seq (.test (hletter 'a'))
    (.action _ (.seq (hletter 'a') (.action _ (.char 'b'))))
  have hbad : bad.Built := .seq (hletter 'a') (.action _ (.char 'b'))
  let acts := answering.sum Mark.actions
  -- the capture in the lookahead is not among those of the first match
  let c := replay [.captured #['a', 'b']
    [⟨.named "n" "k", 0, 2⟩, ⟨.substring "s", 0, 1⟩, ⟨.named "n" "k", 1, 2⟩]]
  obtain ⟨prog, hc, hrun, hfails⟩ : ∃ prog, Program.compile ⟨true, 40⟩ p = .ok prog ∧
      prog.matchAt acts #['a', 'b'] 0 ((), {}) 40 = .ok (some (.success 2, (), c)) ∧
      prog.matchAt acts #['a', 'c'] 0 ((), c) 40 = .ok (some (.failure, (), c)) :=
    ⟨_, rfl, by decide +kernel, by decide +kernel⟩
  obtain ⟨prog', hc', hpanics⟩ : ∃ prog, Program.compile ⟨true, 40⟩ bad = .ok prog ∧
      prog.matchAt acts #['a', 'b'] 0 ((), c) 40 = .ok (some (.badAnswer 9 2 2, (), c)) :=
    ⟨_, rfl, by decide +kernel⟩
  have hpop : (c.pop "s").1 = some ⟨0, "a"⟩ := by decide +kernel
  refine ⟨prog, prog', hp, hbad, hc, hc', ?_⟩
  intro tried triedBad deeds
  have hhistory := History.none
    |>.next (.tried (a := tried #['a', 'b'] 0) (.ended hrun))
    |>.next (.tried (a := tried #['a', 'c'] 0) (.ended hfails))
    |>.next (.tried (a := tried #['a', 'b'] 3) (.refused (n := 0) rfl))
    |>.next (.tried (a := triedBad) (.ended hpanics))
    |>.next (.popped "s" c)
  rw [hpop] at hhistory
  exact ⟨(c.pop "s").2, hhistory, by decide +kernel, by decide +kernel,
    holdAfter_of_history hhistory⟩

end PegMachine
