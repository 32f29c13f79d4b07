import PegMachine.Proofs.Compilation

/-!
# Programs ask what they should

An action is asked about every match of its expression, also if the match is given up later, and it
may keep what it hears.  So a program should not only end as the evaluation of its expression does,
but also ask the actions the same things on the way, and in the same order: `AsksAs`.  What an
action answers still must depend on nothing but the match that it is asked about.

* `asksAs_of_asksKept` — the programs of patterns in which nothing that a look at the next character
  leaves out would have asked anything, as far as heads tell.
* `not_asksAs_of_star` — a pattern for which that fails: an alternative starts with a repetition
  whose body asks an action before it needs a character, and the head of the alternative does not
  say so.
-/

set_option autoImplicit false

namespace PegMachine

open PegMachine.Expr State Machine

variable {α σ : Type}

namespace Actions

theorem onCommit_recorded (acts : Actions α σ) (a : α) (subject : Array Char) (i j : Nat)
    (store : σ) (calls : List (Call α)) :
    acts.recorded.onCommit a subject i j (store, calls)
      = (acts.onCommit a subject i j store, calls ++ [.committed ⟨a, i, j⟩]) := rfl

/-- What being asked about a match makes of the store and the list of calls. -/
def note (acts : Actions α σ) (subject : Array Char) (f : Firing α) :
    σ × List (Call α) → σ × List (Call α)
  | (store, calls) => ((acts.onMatch f.action subject f.start f.stop store).2, calls ++ [.asked f])

/-- All questions are on the list of calls in the end. -/
theorem foldl_note (acts : Actions α σ) (subject : Array Char) (asked : List (Firing α)) (store : σ)
    (calls : List (Call α)) :
    (asked.foldl (fun kept f => acts.note subject f kept) (store, calls)).2
      = calls ++ asked.map .asked := by
  induction asked generalizing store calls with
  | nil => simp
  | cons f rest ih =>
    rw [List.foldl_cons, note, ih, List.append_assoc, List.singleton_append, List.map_cons]

end Actions

namespace Result

/-- The actions in the result. -/
def fired : Result α → List (Firing α)
  | failed => []
  | matched _ fs => fs

/-- Committing adds one call for each action to the list of calls. -/
theorem commit_recorded (acts : Actions α σ) (subject : Array Char) (r : Result α) (store : σ)
    (calls : List (Call α)) :
    r.commit acts.recorded subject (store, calls)
      = (r.commit acts subject store, calls ++ r.fired.map .committed) := by
  cases r with
  | failed => simp [commit, fired]
  | matched stop fs =>
    induction fs generalizing store calls with
    | nil => simp [commit, fired]
    | cons f rest ih =>
      simp only [commit, fired, List.foldl_cons, List.map_cons] at ih ⊢
      rw [acts.onCommit_recorded, ih, List.append_assoc, List.singleton_append]

end Result

namespace Program

/-- The matches of the program from the offset on end as the result says, given enough steps, and
what has been called until then are the actions `asked` and those in the result: the former to be
asked, the latter to be told that they are part of the match. -/
def AsksAs (prog : Program α) (acts : Actions α σ) (subject : Array Char) (offset : Nat)
    (asked : List (Firing α)) (r : Result α) : Prop :=
  ∀ store, ∃ n store', ∀ m ≥ n, prog.matchAt acts.recorded subject offset (store, []) m
    = .ok (some (r.verdict, store', asked.map .asked ++ r.fired.map .committed))

variable {p : Pattern α} {options : CompileOptions} {prog : Program α} {root : Expr α}
  {acts : Actions α σ} {subject : Array Char} {offset : Nat} {answer : α → Nat → Nat → Option Nat}
  {asked : List (Firing α)} {r : Result α}

/-- There are no other calls. -/
theorem AsksAs.calls_eq (h : prog.AsksAs acts subject offset asked r) {store store' : σ} {n : Nat}
    {v : Verdict} {calls : List (Call α)}
    (hn : prog.matchAt acts.recorded subject offset (store, []) n
      = .ok (some (v, store', calls))) :
    calls = asked.map .asked ++ r.fired.map .committed := by
  obtain ⟨m, store'', hm⟩ := h store
  cases matchAt_unique hn (hm m (Nat.le_refl m))
  rfl

/-- **Programs ask what the evaluation of their patterns asks**, in that order, and what is given up
later is included.  The actions may change what they keep when they are asked, as long as that does
not change their answers. -/
theorem asksAs_of_asksKept (hp : p.Built) (hc : compile options p = .ok prog)
    (hroot : p.root.resolve p.refs [] = .ok root) (hkept : root.framesKept [] false .full = true)
    (hasks : root.asksKept [] .full = true) (ho : offset ≤ subject.size)
    (hanswer : ∀ a i j store, (acts.onMatch a subject i j store).1 = answer a i j)
    (h : Eval { subject, start := offset, answer } [] root offset asked r) :
    prog.AsksAs acts subject offset asked r := by
  have hrecorded : ∀ a i j kept, acts.recorded.onMatch a subject i j kept
      = (answer a i j, acts.note subject ⟨a, i, j⟩ kept) := by
    intro a i j kept
    rw [← hanswer a i j kept.1]
    rfl
  intro store
  obtain ⟨n, hn⟩ := halts_of_framesKept hc hroot hp.fitted hkept
    hrecorded (.inr hasks) h (store, [])
  have hcalls := Actions.foldl_note acts subject asked store []
  generalize asked.foldl _ (store, []) = kept at hn hcalls
  obtain ⟨store', calls⟩ := kept
  obtain rfl : calls = asked.map .asked := hcalls
  rw [Result.commit_recorded] at hn
  exact ⟨n, _, fun m hm => (matchAt_eq_iff ho).2 (run_mono hm hn)⟩

/-- A choice whose first alternative is given up after an action in it has been asked. -/
theorem asksAs_of_asksKept_choice :
    let p : Pattern String :=
      .choice (.seq (.action "ab" (.literal "ab")) (.char 'c')) (.action "a" (.char 'a'))
    ∃ prog, compile ⟨true, 20⟩ p = .ok prog ∧
      prog.AsksAs listing #['a', 'b', 'd'] 0 [⟨"ab", 0, 2⟩, ⟨"a", 0, 1⟩]
        (.matched 1 [⟨"a", 0, 1⟩]) := by
  intro p
  have hp : p.Built :=
    .choice (.seq (.action "ab" (.literal "ab")) (.char 'c')) (.action "a" (.char 'a'))
  obtain ⟨prog, hprog⟩ : ∃ prog, compile ⟨true, 20⟩ p = .ok prog := ⟨_, rfl⟩
  let S : Setting String :=
    { subject := #['a', 'b', 'd'], start := 0, answer := fun _ _ j => some j }
  have ha : Eval S [] (.char 'a') 0 [] (.matched 1 []) := .char_ok rfl
  have hb : Eval S [] (.char 'b') 1 [] (.matched 2 []) := .char_ok rfl
  have hc : Eval S [] (.char 'c') 2 [] .failed := .char_fail rfl (by decide)
  have hab := Eval.action_ok (a := "ab") (.seq_ok ha hb) rfl (Nat.le_refl 2) (by decide)
  have heval := Eval.choice_second (.seq_fail_second hab hc)
    (.action_ok (a := "a") ha rfl (Nat.le_refl 1) (by decide))
  exact ⟨prog, hprog, asksAs_of_asksKept hp hprog rfl rfl rfl (Nat.zero_le _) (fun _ _ _ _ => rfl)
    heval⟩

/-- **An action that is not asked.**  The first alternative starts with a repetition whose body asks
an action before anything is consumed, and then needs a character.  The head of the repetition is
silent about the action, so that of the alternative seems to need a character, and at the end of the
subject the alternative is not tried. -/
theorem not_asksAs_of_star :
    let body : Pattern String := .seq (.action "a" .succeed) (.char 'a')
    let loop : Pattern String := ⟨.star body.root, []⟩
    let p : Pattern String := .choice (.seq loop (.char 'b')) (.char 'c')
    ∃ root prog, p.Built ∧ p.root.resolve p.refs [] = .ok root ∧ compile ⟨true, 20⟩ p = .ok prog ∧
      root.framesKept [] false .full = true ∧
      Eval { subject := #[], start := 0, answer := fun _ _ j => some j } [] root 0
        [⟨"a", 0, 0⟩] .failed ∧
      ¬ prog.AsksAs listing #[] 0 [⟨"a", 0, 0⟩] .failed := by
  intro body loop p
  have hloop : body.repeated 0 = .ok loop := rfl
  have hp : p.Built := .choice (.seq
    (.repeated (.seq (.action "a" .succeed) (.char 'a')) hloop) (.char 'b')) (.char 'c')
  obtain ⟨prog, hprog, hrun⟩ : ∃ prog, compile ⟨true, 20⟩ p = .ok prog ∧
      prog.matchAt listing.recorded #[] 0 ([], []) 20 = .ok (some (.failure, [], [])) :=
    ⟨_, rfl, by decide +kernel⟩
  let S : Setting String := { subject := #[], start := 0, answer := fun _ _ j => some j }
  have hchar : ∀ c, Eval S [] (.char c) 0 [] .failed :=
    fun c => .class_fail rfl fun c hc => by cases hc
  have hasked : Eval S [] (.action "a" .empty) 0 [⟨"a", 0, 0⟩] (.matched 0 [⟨"a", 0, 0⟩]) :=
    .action_ok .empty rfl (Nat.le_refl 0) (Nat.le_refl 0)
  have hround := Eval.star_done (.seq_fail_second hasked (hchar 'a'))
  refine ⟨_, prog, hp, rfl, hprog, rfl,
    .choice_second (.seq_fail_second hround (hchar 'b')) (hchar 'c'), fun hasks => ?_⟩
  have hcalls := hasks.calls_eq hrun
  cases hcalls

end Program
end PegMachine
