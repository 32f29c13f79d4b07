import PegMachine.Proofs.Code.Emission
import PegMachine.Proofs.Pattern
import PegMachine.Proofs.Threading

/-!
# Compiled patterns match as they should

A program matches as the resolved expression of its pattern does: it ends if the expression has a
result, with the position where the match ends or with failure, and the actions of the match are
committed in the order in which they started.  The pattern has to be put together by the operations
on patterns, and the actions must answer the same whenever they are asked about the same match.

* `endsAs_of_optionalFree` — the programs of patterns without optional parts.
* `endsAs_of_framesKept` — the programs of all patterns in which no loop that is run by tests alone
  moves up the frame of an optional part.
* `not_endsAs_of_loop` — a pattern that has such a loop, and does not match as it should.
-/

set_option autoImplicit false

namespace PegMachine

open PegMachine.Expr State Machine

variable {α σ : Type}

namespace Result

/-- The verdict that a program has to come to. -/
def verdict : Result α → Verdict
  | failed => .failure
  | matched stop _ => .success stop

/-- What the actions keep after those in the result have been committed. -/
def commit (acts : Actions α σ) (subject : Array Char) : Result α → σ → σ
  | failed, store => store
  | matched _ fs, store =>
    fs.foldl (fun store f => acts.onCommit f.action subject f.start f.stop store) store

end Result

/-- The actions in a log that have all ended are committed one after the other. -/
theorem commitAll_entries (acts : Actions α σ) (subject : Array Char) (fs : List (Firing α))
    (stop : Nat) (store : σ) :
    commitAll acts subject (fs.map Firing.entry).toArray store
      = (Result.matched stop fs).commit acts subject store := by
  simp [commitAll, Result.commit, List.foldl_map, Firing.entry]

theorem placed_self (instrs : List (Instr α)) :
    Placed instrs.toArray (Linked instrs.toArray []) 0 instrs := by
  intro k instr hk
  rw [Nat.zero_add]
  refine holds_of_eq (fun _ => by simpa using hk) fun i _ t ht => ?_
  simp at ht

namespace Ending

variable {E : Ending α σ} {root : Expr α} {asked : List (Firing α)} {r : Result α} {store : σ}

/-- The code laid out for a whole pattern is right from the start of a match. -/
theorem from_start (h : Eval E.setting [] root E.start asked r)
    (hcode : E.code = (Program.layout root).toArray) (hfitted : root.fitted)
    (hkept : root.framesKept [] false .full = true)
    (hasks : E.Deaf ∨ root.asksKept [] .full = true) (hverdict : E.verdict = r.verdict)
    (hstore : E.store
      = r.commit E.acts E.subject (asked.foldl (fun store f => E.hear f store) store)) :
    E.From (Machine.start ⟨E.code⟩ E.start store) := by
  have hplaced := placed_self (Program.layout root)
  rw [← hcode, Program.layout, placed_append, placed_cons, placed_cons] at hplaced
  obtain ⟨hbody, hhalt, hgiveUp, -⟩ := hplaced
  have hhalt := hhalt.eq (by simp)
  have hgiveUp := hgiveUp.eq (by simp)
  have hrules : E.HasRules [] [] := ⟨rulesPlaced_nil, trivial, rfl, .inr rfl⟩
  have hfits : E.Fits [] root E.start false none .full :=
    ⟨hfitted, hkept, hasks, by simp, established_none _ _, Nat.le_refl _⟩
  -- below the frame that leads to the last instruction there is nothing
  let s : State α σ := ⟨0, E.start, [], #[], [], store⟩
  have hs : s.Sound := ⟨by simp [s], by simp [s]⟩
  have hlast : E.code.size - 1
      = 0 + (root.emit Segment.resolveCalls [] false none .full 0).length + 1 := by
    rw [hcode]
    simp [Program.layout]
  have hstart : Machine.start ⟨E.code⟩ E.start store
      = (s.push (E.code.size - 1) (some E.start)).reach 0 E.start [] := by
    simp [Machine.start, Program.giveUp, s, State.push, State.reach]
  rw [hstart]
  refine right h [] hrules false none .full 0 hfits hbody _ (hs.push _ _) ?_
  cases r with
  | failed =>
    rw [Expects, heard_push, fail_push (hs.heard E asked), hlast, After, from_iff .giveUp hgiveUp]
    exact ⟨hverdict.symm, hstore.symm⟩
  | matched stop fs =>
    refine .plain ?_
    rw [from_iff .halt hhalt]
    refine ⟨hverdict.symm, ?_⟩
    rw [hstore, ← commitAll_entries _ _ fs stop]
    simp [s, State.push, State.reach, heard]

end Ending

namespace Program

/-- The matches of the program from the offset on end as the result says, given enough steps. -/
def EndsAs (prog : Program α) (acts : Actions α σ) (subject : Array Char) (offset : Nat)
    (r : Result α) : Prop :=
  ∀ store, ∃ n, ∀ m ≥ n, prog.matchAt acts subject offset store m
    = .ok (some (r.verdict, r.commit acts subject store))

variable {p : Pattern α} {options : CompileOptions} {prog : Program α} {root : Expr α}
  {acts : Actions α σ} {subject : Array Char} {offset : Nat} {answer : α → Nat → Nat → Option Nat}
  {asked : List (Firing α)} {r : Result α}

/-- The machine halts with the result, whether or not jumps have been threaded.  If being asked
changes what the actions keep, the code must not leave out questions. -/
theorem halts_of_framesKept (hc : compile options p = .ok prog)
    (hroot : p.root.resolve p.refs [] = .ok root) (hfitted : p.root.fitted)
    (hkept : root.framesKept [] false .full = true) {hear : Firing α → σ → σ}
    (hanswer : ∀ a i j store,
      acts.onMatch a subject i j store = (answer a i j, hear ⟨a, i, j⟩ store))
    (hasks : (∀ f store, hear f store = store) ∨ root.asksKept [] .full = true)
    (h : Eval { subject, start := offset, answer } [] root offset asked r) (store : σ) :
    Halts acts prog.code subject offset (Machine.start prog offset store) r.verdict
      (r.commit acts subject (asked.foldl (fun store f => hear f store) store)) := by
  obtain ⟨root', hroot', hcode⟩ := compile_eq_ok hc
  obtain rfl : root' = root := by
    rw [hroot] at hroot'
    cases hroot'
    rfl
  let E : Ending α σ :=
    ⟨acts, (layout root').toArray, subject, offset, answer, hear, hanswer, r.verdict,
      r.commit acts subject (asked.foldl (fun store f => hear f store) store)⟩
  have hplain : E.From (Machine.start ⟨(layout root').toArray⟩ offset store) :=
    Ending.from_start h rfl (fitted_of_resolve hroot hfitted) hkept hasks rfl rfl
  have hthreaded := Segment.sameToSee_threadJumps (layout root').toArray
  rw [Machine.start, giveUp, hcode]
  split
  · rw [hthreaded.2, ← hthreaded.1.halts_iff]
    exact hplain
  · exact hplain

/-- What is asked does not matter if it leaves no trace. -/
theorem endsAs_of_halts (ho : offset ≤ subject.size)
    (h : ∀ store, Halts acts prog.code subject offset (Machine.start prog offset store) r.verdict
      (r.commit acts subject (asked.foldl (fun store _ => store) store))) :
    prog.EndsAs acts subject offset r := by
  intro store
  obtain ⟨n, hn⟩ := h store
  rw [List.foldl_fixed] at hn
  exact ⟨n, fun m hm => (matchAt_eq_iff ho).2 (run_mono hm hn)⟩

/-- There is no other way for the matches to end. -/
theorem EndsAs.verdict_eq (h : prog.EndsAs acts subject offset r) {store store' : σ} {n : Nat}
    {v : Verdict} (hn : prog.matchAt acts subject offset store n = .ok (some (v, store'))) :
    v = r.verdict := by
  obtain ⟨m, hm⟩ := h store
  cases matchAt_unique hn (hm m (Nat.le_refl m))
  rfl

/-- **The programs of patterns without optional parts match as their patterns do.** -/
theorem endsAs_of_optionalFree (hp : p.Built) (hc : compile options p = .ok prog)
    (hroot : p.root.resolve p.refs [] = .ok root) (hfree : root.optionalFree = true)
    (ho : offset ≤ subject.size)
    (hanswer : ∀ a i j store, acts.onMatch a subject i j store = (answer a i j, store))
    (h : Eval { subject, start := offset, answer } [] root offset asked r) :
    prog.EndsAs acts subject offset r :=
  endsAs_of_halts ho (halts_of_framesKept hc hroot hp.fitted
    (framesKept_of_optionalFree hfree [] .full) hanswer (.inl fun _ _ => rfl) h)

/-- Actions that accept every match, and keep a list of those committed. -/
def listing : Actions String (List (Firing String)) where
  onMatch _ _ _ stop store := (some stop, store)
  onCommit a _ start stop store := store ++ [⟨a, start, stop⟩]

/-- A choice of which the first alternative fails after an action in it. -/
theorem endsAs_of_optionalFree_choice :
    let p : Pattern String :=
      .choice (.seq (.action "ab" (.literal "ab")) (.char 'c')) (.action "a" (.char 'a'))
    ∃ prog, compile ⟨true, 20⟩ p = .ok prog ∧
      prog.EndsAs listing #['a', 'b', 'd'] 0 (.matched 1 [⟨"a", 0, 1⟩]) := by
  intro p
  have hp : p.Built :=
    .choice (.seq (.action "ab" (.literal "ab")) (.char 'c')) (.action "a" (.char 'a'))
  obtain ⟨prog, hprog⟩ : ∃ prog, compile ⟨true, 20⟩ p = .ok prog := ⟨_, rfl⟩
  let S : Setting String := { subject := #['a', 'b', 'd'], start := 0, answer := fun _ _ j => some j }
  have ha : Eval S [] (.char 'a') 0 [] (.matched 1 []) := .char_ok rfl
  have hb : Eval S [] (.char 'b') 1 [] (.matched 2 []) := .char_ok rfl
  have hc : Eval S [] (.char 'c') 2 [] .failed := .char_fail rfl (by decide)
  have hab := Eval.action_ok (a := "ab") (.seq_ok ha hb) rfl (Nat.le_refl 2) (by decide)
  have heval := Eval.choice_second (.seq_fail_second hab hc)
    (.action_ok (a := "a") ha rfl (Nat.le_refl 1) (by decide))
  exact ⟨prog, hprog, endsAs_of_optionalFree hp hprog rfl rfl (Nat.zero_le _) (fun _ _ _ _ => rfl)
    heval⟩

/-- **The programs of patterns match as their patterns do**, if no loop run by tests alone moves up
the frame of an optional part in its body. -/
theorem endsAs_of_framesKept (hp : p.Built) (hc : compile options p = .ok prog)
    (hroot : p.root.resolve p.refs [] = .ok root) (hkept : root.framesKept [] false .full = true)
    (ho : offset ≤ subject.size)
    (hanswer : ∀ a i j store, acts.onMatch a subject i j store = (answer a i j, store))
    (h : Eval { subject, start := offset, answer } [] root offset asked r) :
    prog.EndsAs acts subject offset r :=
  endsAs_of_halts ho
    (halts_of_framesKept hc hroot hp.fitted hkept hanswer (.inl fun _ _ => rfl) h)

/-- An optional part in an optional part, which moves up the frame of the outer one. -/
theorem endsAs_of_framesKept_nested :
    let twice : Pattern String := ⟨.choice (.seq (.seq (.char 'a') (.char 'b'))
      (.choice (.seq (.char 'a') (.char 'b')) .empty)) .empty, []⟩
    ∃ prog, compile ⟨true, 30⟩ (.seq twice (.literal "ac")) = .ok prog ∧
      prog.EndsAs listing #['a', 'b', 'a', 'c'] 0 (.matched 4 []) := by
  intro twice
  have htwice : (Pattern.literal "ab").repeated (-2) = .ok twice := rfl
  have hp : (Pattern.seq twice (.literal "ac")).Built :=
    .seq (.repeated (.literal "ab") htwice) (.literal "ac")
  obtain ⟨prog, hprog⟩ :
      ∃ prog, compile ⟨true, 30⟩ (Pattern.seq twice (.literal "ac")) = .ok prog := ⟨_, rfl⟩
  let S : Setting String :=
    { subject := #['a', 'b', 'a', 'c'], start := 0, answer := fun _ _ j => some j }
  have ha : Eval S [] (.char 'a') 0 [] (.matched 1 []) := .char_ok rfl
  have hb : Eval S [] (.char 'b') 1 [] (.matched 2 []) := .char_ok rfl
  have ha' : Eval S [] (.char 'a') 2 [] (.matched 3 []) := .char_ok rfl
  have hb' : Eval S [] (.char 'b') 3 [] .failed := .char_fail rfl (by decide)
  have hc : Eval S [] (.char 'c') 3 [] (.matched 4 []) := .char_ok rfl
  have honce := Eval.choice_second (.seq_fail_second ha' hb') .empty
  have htwice' : Eval S [] (.choice (.seq _ (.seq _ (.choice _ _))) .empty) 0 _ _ :=
    .choice_first (.seq_ok ha (.seq_ok hb honce))
  exact ⟨prog, hprog, endsAs_of_framesKept hp hprog rfl rfl (Nat.zero_le _)
    (fun _ _ _ _ => rfl) (.seq_ok htwice' (.seq_ok ha' hc))⟩

/-- **A loop that is left too early.**  In its body is an optional part, and around it another one,
whose frame the inner one moves up.  The loop has two rounds to go, and the program only runs
one. -/
theorem not_endsAs_of_loop :
    let inner : Pattern String := ⟨.choice (.seq (.char 'b') (.char 'c')) .empty, []⟩
    let loop : Pattern String := ⟨.star (.seq (.char 'a') inner.root), []⟩
    let p : Pattern String := ⟨.choice (.seq (.seq (.char 'x') (.char 'y')) loop.root) .empty, []⟩
    ∃ root prog, p.Built ∧ p.root.resolve p.refs [] = .ok root ∧ compile ⟨true, 20⟩ p = .ok prog ∧
      Eval { subject := #['x', 'y', 'a', 'a'], start := 0, answer := fun _ _ j => some j } [] root 0
        [] (.matched 4 []) ∧
      ¬ prog.EndsAs listing #['x', 'y', 'a', 'a'] 0 (.matched 4 []) := by
  intro inner loop p
  have hinner : (Pattern.literal "bc").repeated (-1) = .ok inner := rfl
  have hloop : (Pattern.seq (.char 'a') inner).repeated 0 = .ok loop := rfl
  have hp : (Pattern.seq (.literal "xy") loop).repeated (-1) = .ok p := rfl
  obtain ⟨prog, hprog, hrun⟩ : ∃ prog, compile ⟨true, 20⟩ p = .ok prog ∧
      prog.matchAt listing #['x', 'y', 'a', 'a'] 0 [] 30 = .ok (some (.success 3, [])) :=
    ⟨_, rfl, rfl⟩
  let S : Setting String :=
    { subject := #['x', 'y', 'a', 'a'], start := 0, answer := fun _ _ j => some j }
  have hx : Eval S [] (.char 'x') 0 [] (.matched 1 []) := .char_ok rfl
  have hy : Eval S [] (.char 'y') 1 [] (.matched 2 []) := .char_ok rfl
  have ha : Eval S [] (.char 'a') 2 [] (.matched 3 []) := .char_ok rfl
  have ha' : Eval S [] (.char 'a') 3 [] (.matched 4 []) := .char_ok rfl
  have hb : Eval S [] (.char 'b') 3 [] .failed := .char_fail rfl (by decide)
  have hb' : Eval S [] (.char 'b') 4 [] .failed := .class_fail rfl fun c hc => by cases hc
  have hend : Eval S [] (.char 'a') 4 [] .failed := .class_fail rfl fun c hc => by cases hc
  have hopt : Eval S [] (.choice (.seq (.char 'b') (.char 'c')) .empty) 3 _ _ :=
    .choice_second (.seq_fail_first hb) .empty
  have hopt' : Eval S [] (.choice (.seq (.char 'b') (.char 'c')) .empty) 4 _ _ :=
    .choice_second (.seq_fail_first hb') .empty
  have hrounds := Eval.star_more (.seq_ok ha hopt)
    (.star_more (.seq_ok ha' hopt') (.star_done (.seq_fail_first hend)))
  refine ⟨_, prog, ?_, rfl, hprog, .choice_first (.seq_ok hx (.seq_ok hy hrounds)), fun hends => ?_⟩
  · exact .repeated (.seq (.literal "xy") (.repeated (.seq (.char 'a')
      (.repeated (.literal "bc") hinner)) hloop)) hp
  · have hverdict := hends.verdict_eq hrun
    cases hverdict

end Program
end PegMachine
