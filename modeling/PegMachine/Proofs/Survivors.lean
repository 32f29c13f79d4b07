import PegMachine.Proofs.Machine.Logs
import PegMachine.Proofs.Offsets

/-!
# What survives a match

When a match succeeds, its log holds the actions that have survived all backtracking: each of them
was started on the way, and nothing that was being tried then has been given up.  They are the
actions that the result of the expression names, whatever else has been asked on the way: what the
actions keep has no part in this as long as it does not change what they answer, so the match is
compared with one whose actions keep nothing but a list of what is committed.

* `Program.commits_orderly_and_lasting` — what is committed, and when it was started.
* `HaltsOn.eq_matched` — what has survived, by the result of the expression.
* `Orderly.innermost` — of the actions of one sort, the last that survives has no others inside.
-/

set_option autoImplicit false

namespace PegMachine

open State Machine

variable {α σ : Type}

/-- Actions that answer as given, and keep a list of those committed. -/
def judged (answer : α → Nat → Nat → Option Nat) : Actions α (List (Firing α)) where
  onMatch a _ i j fs := (answer a i j, fs)
  onCommit a _ i j fs := fs ++ [⟨a, i, j⟩]

theorem commit_judged (answer : α → Nat → Nat → Option Nat) (subject : Array Char) (stop : Nat)
    (fs gs : List (Firing α)) :
    (Result.matched stop fs).commit (judged answer) subject gs = gs ++ fs := by
  simp only [Result.commit, judged]
  induction fs generalizing gs with
  | nil => simp
  | cons f fs ih => rw [List.foldl_cons, ih, List.append_assoc, List.singleton_append]

/-- Actions that answer as given do so in step with the list. -/
theorem inStep_judged {acts : Actions α σ} {subject : Array Char}
    {answer : α → Nat → Nat → Option Nat}
    (hanswer : ∀ a i j store, (acts.onMatch a subject i j store).1 = answer a i j) :
    acts.InStep 0 subject subject (fun _ _ => True) (judged answer) where
  answer a i j store fs _ := by simp [judged, hanswer]
  asked _ _ _ _ _ _ := trivial
  committed _ _ _ _ _ _ := trivial

theorem isRest_self (subject : Array Char) : IsRest 0 subject subject := ⟨rfl, fun _ => rfl⟩

theorem log_later_zero {τ : Type} (s : State α σ) (store : τ) : (s.later 0 store).log = s.log := by
  have hid : Entry.later (α := α) 0 = id := by
    funext e
    obtain ⟨a, i, stop⟩ := e
    cases stop <;> rfl
  rw [State.later, hid, Array.map_id]

theorem halts_of_reaches {acts : Actions α σ} {code : Array (Instr α)} {subject : Array Char}
    {start : Nat} {s s' : State α σ} {v : Verdict} {store : σ}
    (hr : Reaches acts code subject start s s')
    (h : step acts code subject start s' = .final v store) :
    Halts acts code subject start s v store := by
  induction hr using Relation.ReflTransGen.head_induction_on with
  | refl => exact ⟨1, by rw [run, h]⟩
  | head hstep _ ih => exact halts_of_step hstep ih

theorem halts_unique {acts : Actions α σ} {code : Array (Instr α)} {subject : Array Char}
    {start : Nat} {s : State α σ} {v v' : Verdict} {store store' : σ}
    (h : Halts acts code subject start s v store) (h' : Halts acts code subject start s v' store') :
    v = v' ∧ store = store' := by
  obtain ⟨n, hn⟩ := h
  obtain ⟨m, hm⟩ := h'
  have heq := (run_mono (Nat.le_max_left n m) hn).symm.trans (run_mono (Nat.le_max_right n m) hm)
  cases heq
  exact ⟨rfl, rfl⟩

namespace Program

variable {p : Pattern α} {options : CompileOptions} {prog : Program α} {root : Expr α}
  {acts : Actions α σ} {subject : Array Char} {offset : Nat} {s : State α σ} {fs : List (Firing α)}

/-! ## What is committed was not given up -/

theorem stacked_start (prog : Program α) (offset : Nat) (store : σ) :
    Stacked (Machine.start prog offset store) where
  logged_le f hf := by
    rw [List.mem_singleton.1 hf]
    exact Nat.zero_le _
  descending := List.pairwise_singleton _ _

theorem HaltsOn.started_eq (h : prog.HaltsOn subject offset root s fs) :
    s.started = fs.map fun f => (f.action, f.start) := by
  rw [State.started, h.log]
  simp [Firing.entry]

/-- **The actions that are committed lie side by side or inside each other, and have lasted.**  When
a match succeeds, no action is open, and those committed are the ones on a way through the
expression from the offset to where the match ends.  They are committed in the order in which they
start, and what each of them is about is inside the match.  The one at each place was started in a
state on the way, and has been in the log since; and whatever alternative, round of a repetition or
lookahead was being tried in that state, it has not been given up. -/
theorem commits_orderly_and_lasting (hp : p.Built) (hc : compile options p = .ok prog)
    (hroot : p.root.resolve p.refs [] = .ok root) (ho : offset ≤ subject.size) {n stop : Nat}
    {store store' : σ}
    (h : prog.matchAt acts subject offset store n = .ok (some (.success stop, store'))) :
    ∃ s fs, Reaches acts prog.code subject offset (Machine.start prog offset store) s ∧
      prog.HaltsOn subject offset root s fs ∧ s.pos = stop ∧
      store' = (Result.matched stop fs).commit acts subject s.store ∧
      Orderly offset stop fs ∧
      (∀ f ∈ fs, (substring subject f.start f.stop).length = f.stop - f.start) ∧
      ∀ i f, fs[i]? = some f →
        ∃ w, Reaches acts prog.code subject offset (Machine.start prog offset store) w ∧
          w.pos = f.start ∧ Lasts acts prog.code subject offset i f.action w s ∧
          ∀ g rest x, ¬ GivesUp acts prog.code subject offset g rest w x := by
  obtain ⟨s, fs, hs, hhalts, hstop, hstore, horderly, hlength⟩ := commits_orderly hp hc hroot ho h
  refine ⟨s, fs, hs, hhalts, hstop, hstore, horderly, hlength, fun i f hf => ?_⟩
  have hstarted : s.started[i]? = some (f.action, f.start) := by
    rw [hhalts.started_eq, List.getElem?_map, hf]
    rfl
  obtain ⟨w, hw, hpos, hlasts⟩ := exists_lasts rfl hs hstarted
  have hstacked := (stacked_start prog offset store).of_reaches hw
  refine ⟨w, hw, hpos, hlasts, hlasts.not_givesUp hstacked ?_ ?_⟩
  · intro t ht
    rw [step_eq_exec hhalts.halt, exec] at ht
    cases ht
  · intro t ht hret
    have hsafe := staysSafe_of_compile hp hc hroot ho acts store t (hw.trans ht)
    obtain ⟨instr, hinstr, hallow⟩ := hsafe.allowed
    rw [hret] at hinstr
    cases hinstr
    exact hallow

/-- An action in a lookahead, one in an alternative that is given up, and two in a third one. -/
theorem commits_orderly_and_lasting_choice :
    let ahead : Pattern String := .test (.action "t" (.char 'a'))
    let inner : Pattern String := .seq (.action "a" (.char 'a')) (.action "b" (.char 'b'))
    let p : Pattern String :=
      .seq ahead (.choice (.seq (.action "x" (.char 'a')) (.char 'c')) (.action "ab" inner))
    ∃ root prog, p.Built ∧ p.root.resolve p.refs [] = .ok root ∧ compile ⟨true, 30⟩ p = .ok prog ∧
      prog.matchAt listing #['a', 'b'] 0 [] 30
        = .ok (some (.success 2, [⟨"ab", 0, 2⟩, ⟨"a", 0, 1⟩, ⟨"b", 1, 2⟩])) ∧
      (∃ w g rest x, Reaches listing prog.code #['a', 'b'] 0 (Machine.start prog 0 []) w ∧
        prog.code[w.ip]? = some (.openAction "x") ∧
        GivesUp listing prog.code #['a', 'b'] 0 g rest w x) ∧
      ∃ s fs, Reaches listing prog.code #['a', 'b'] 0 (Machine.start prog 0 []) s ∧
        prog.HaltsOn #['a', 'b'] 0 root s fs ∧ s.pos = 2 ∧
        [⟨"ab", 0, 2⟩, ⟨"a", 0, 1⟩, ⟨"b", 1, 2⟩]
          = (Result.matched 2 fs).commit listing #['a', 'b'] s.store ∧
        Orderly 0 2 fs ∧
        (∀ f ∈ fs, (substring #['a', 'b'] f.start f.stop).length = f.stop - f.start) ∧
        ∀ i f, fs[i]? = some f →
          ∃ w, Reaches listing prog.code #['a', 'b'] 0 (Machine.start prog 0 []) w ∧
            w.pos = f.start ∧ Lasts listing prog.code #['a', 'b'] 0 i f.action w s ∧
            ∀ g rest x, ¬ GivesUp listing prog.code #['a', 'b'] 0 g rest w x := by
  intro ahead inner p
  have hp : p.Built := .seq (.test (.action "t" (.char 'a')))
    (.choice (.seq (.action "x" (.char 'a')) (.char 'c'))
      (.action "ab" (.seq (.action "a" (.char 'a')) (.action "b" (.char 'b')))))
  obtain ⟨root, hroot⟩ : ∃ root, p.root.resolve p.refs [] = .ok root := ⟨_, rfl⟩
  obtain ⟨prog, hprog, hrun, hgivesUp⟩ : ∃ prog, compile ⟨true, 30⟩ p = .ok prog ∧
      prog.matchAt listing #['a', 'b'] 0 [] 30
        = .ok (some (.success 2, [⟨"ab", 0, 2⟩, ⟨"a", 0, 1⟩, ⟨"b", 1, 2⟩])) ∧
      ∃ w g rest x, Reaches listing prog.code #['a', 'b'] 0 (Machine.start prog 0 []) w ∧
        prog.code[w.ip]? = some (.openAction "x") ∧
        GivesUp listing prog.code #['a', 'b'] 0 g rest w x := by
    let root : Frame := ⟨22, some 0, 0⟩
    refine ⟨_, rfl, by decide +kernel, ⟨8, 0, [⟨13, some 0, 0⟩, root], #[], [], []⟩,
      ⟨13, some 0, 0⟩, [root], ⟨11, 1, [⟨13, some 0, 0⟩, root], #[⟨"x", 0, some 1⟩], [], []⟩,
      ?_, rfl, ?_⟩
    · -- the lookahead, the test, and the choice
      exact .head rfl (.head rfl (.head rfl (.head rfl (.head rfl (.head rfl (.head rfl .refl))))))
    · -- the action with its character, and then another one that does not follow
      have hstays : [⟨13, some 0, 0⟩, root] <:+ [⟨13, some 0, 0⟩, root] := List.suffix_refl _
      exact ⟨by simp, ⟨hstays, .head ⟨rfl, hstays⟩ (.head ⟨rfl, hstays⟩ (.head ⟨rfl, hstays⟩ .refl))⟩,
        ⟨_, rfl, by decide⟩, fun t ht => by cases ht⟩
  exact ⟨root, prog, hp, hroot, hprog, hrun, hgivesUp,
    commits_orderly_and_lasting hp hprog hroot (Nat.zero_le _) hrun⟩

/-! ## What is committed, by the result of the expression -/

/-- The match with the list gets to the same end, and lists what has survived. -/
theorem HaltsOn.halts_judged (h : prog.HaltsOn subject offset root s fs) {store : σ}
    (hr : Reaches acts prog.code subject offset (Machine.start prog offset store) s)
    {answer : α → Nat → Nat → Option Nat}
    (hanswer : ∀ a i j store, (acts.onMatch a subject i j store).1 = answer a i j) :
    Halts (judged answer) prog.code subject offset (Machine.start prog offset []) (.success s.pos)
      fs := by
  obtain ⟨gs, -, hreach⟩ : ∃ gs, True ∧ Reaches (judged answer) prog.code subject (offset + 0)
      ((Machine.start prog offset store).later 0 []) (s.later 0 gs) :=
    reaches_later (isRest_self subject) (inStep_judged hanswer) trivial hr
  rw [← start_later] at hreach
  -- nothing is listed before the end
  have hgs : gs = [] :=
    store_of_reaches (P := fun gs => gs = []) (fun _ _ _ _ hnil => hnil) hreach rfl
  subst hgs
  let last : State α (List (Firing α)) := s.later 0 []
  have hhalt : prog.code[last.ip]? = some .halt := h.halt
  have hlog : last.log = (fs.map Firing.entry).toArray := by
    rw [← h.log]
    exact log_later_zero s []
  refine halts_of_reaches hreach ?_
  rw [step_eq_exec hhalt, exec, hlog, commitAll_entries _ _ fs s.pos, commit_judged]
  rfl

/-- **What has survived is what the result of the expression names.**  The pattern must be one whose
program matches as it should, and the answers of actions must not depend on what is kept. -/
theorem HaltsOn.eq_matched (h : prog.HaltsOn subject offset root s fs) (hp : p.Built)
    (hc : compile options p = .ok prog) (hroot : p.root.resolve p.refs [] = .ok root)
    (hkept : root.framesKept [] false .full = true) {store : σ}
    (hr : Reaches acts prog.code subject offset (Machine.start prog offset store) s)
    {answer : α → Nat → Nat → Option Nat}
    (hanswer : ∀ a i j store, (acts.onMatch a subject i j store).1 = answer a i j)
    {asked : List (Firing α)} {r : Result α}
    (heval : Eval { subject, start := offset, answer } [] root offset asked r) :
    r = .matched s.pos fs := by
  have hhalts : Halts (judged answer) prog.code subject offset (Machine.start prog offset [])
      r.verdict (r.commit (judged answer) subject (asked.foldl (fun gs _ => gs) [])) :=
    halts_of_framesKept hc hroot hp.fitted hkept (fun _ _ _ _ => rfl) (.inl fun _ _ => rfl) heval []
  obtain ⟨hv, hfs⟩ := halts_unique hhalts (h.halts_judged hr hanswer)
  rw [List.foldl_fixed] at hfs
  cases r with
  | failed => cases hv
  | matched stop gs =>
    rw [commit_judged, List.nil_append] at hfs
    cases hv
    rw [hfs]

end Program

/-- **Of the actions of one sort, the last that survives has no others inside**, except that they
may be about nothing, or about the same. -/
theorem Orderly.innermost {lo hi : Nat} {fs : List (Firing α)} (h : Orderly lo hi fs)
    {sort : Firing α → Bool} {f g : Firing α} (hf : (fs.filter sort).getLast? = some f)
    (hg : g ∈ fs) (hsort : sort g = true) (hne : g.start < g.stop) (hstart : f.start ≤ g.start)
    (hstop : g.stop ≤ f.stop) : g.start = f.start ∧ g.stop = f.stop := by
  obtain ⟨gs, hgs⟩ := List.getLast?_eq_some_iff.1 hf
  have hmem : g ∈ gs ++ [f] := hgs ▸ List.mem_filter.2 ⟨hg, hsort⟩
  rcases List.mem_append.1 hmem with hmem | hmem
  · have hbefore := h.before.filter sort
    rw [hgs, List.pairwise_append] at hbefore
    have hgf : g.Before f := hbefore.2.2 g hmem f (List.mem_singleton.2 rfl)
    unfold Firing.Before at hgf
    omega
  · rw [List.mem_singleton.1 hmem]
    exact ⟨rfl, rfl⟩

end PegMachine
