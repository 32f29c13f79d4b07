import PegMachine.Capture
import PegMachine.Proofs.Code.Courses
import PegMachine.Proofs.Code.Targets
import PegMachine.Proofs.Compilation
import PegMachine.Proofs.Machine.Passes

/-!
# Compiled programs are safe

In every match of a compiled program, whatever the actions answer, each instruction finds the stack
and the list of open actions as it takes them to be.  This is shown of plain code first, for any
number of steps, by induction on that number: what a call or a jump back leads to only has to be
safe for a step less.  From there it carries over to programs.

* `Program.runs_safely` — in every state on the way, what the next instruction takes for granted is
  so, and a match ends inside the subject.
* `Program.established_of_tested` — in every state on the way, what has been tested about the next
  character is so.
* `Program.commits_orderly` — the actions that are committed are those on one way through the
  expression, which lie side by side or inside each other, in the order in which they start.
-/

set_option autoImplicit false

namespace PegMachine

open PegMachine.Expr State Machine Relation

variable {α σ : Type}

/-! ## Safe for a number of steps -/

/-- The state is safe, and so are those after it, for the given number of steps. -/
def Scene.SafeFor (C : Scene α σ) : Nat → State α σ → Prop
  | 0, _ => True
  | n + 1, s => C.Safe s ∧ ∀ s', C.step s = .next s' → C.SafeFor n s'

namespace Scene

variable {C : Scene α σ} {s : State α σ}

theorem SafeFor.pred {n : Nat} (h : C.SafeFor n s) : C.SafeFor (n - 1) s := by
  induction n generalizing s with
  | zero => exact h
  | succ n ih =>
    cases n with
    | zero => trivial
    | succ n => exact ⟨h.1, fun s' hs' => ih (h.2 s' hs')⟩

/-- What is safe for any number of steps stays safe. -/
theorem safe_of_safeFor (h : ∀ n, C.SafeFor n s) {s' : State α σ}
    (hs' : Reaches C.acts C.code C.subject C.start s s') : C.Safe s' := by
  suffices hall : ∀ n, C.SafeFor n s' from (hall 1).1
  induction hs' with
  | refl => exact h
  | tail _ hstep ih => exact fun n => (ih (n + 1)).2 _ hstep

end Scene

namespace Aim

variable {C : Scene α σ}

/-- To be safe for a number of steps, for which it takes one step less after the first. -/
def safe (C : Scene α σ) (n : Nat) : Aim C where
  good := C.SafeFor n
  later := C.SafeFor (n - 1)
  of_next s s' hs hstep hnext := by
    cases n with
    | zero => trivial
    | succ n =>
      refine ⟨hs, fun s₁ hs₁ => ?_⟩
      rw [hstep] at hs₁
      cases hs₁
      exact hnext
  of_final s v store hs hstep := by
    cases n with
    | zero => trivial
    | succ n =>
      refine ⟨hs, fun s₁ hs₁ => ?_⟩
      rw [hstep] at hs₁
      cases hs₁
  later_of_good _ h := h.pred

theorem safe_precedes (C : Scene α σ) (n : Nat) : (safe C (n + 1)).Precedes (safe C n) where
  later _ h := h
  good _ h := h.pred
  later_of_later _ h := h.pred

/-- **The plain code of an expression is safe where what it leads to is**, for any number of
steps. -/
theorem carries_safe (n : Nat) {rules : List (Rule α)} {starts : List Nat}
    (hrules : C.Hosts rules starts) {e : Expr α} (he : e.fitted)
    (hscope : e.inScope False rules.length) (p : Nat) :
    (safe C n).Carries rules starts e p ∧ (safe C n).Rounds rules starts e p := by
  induction n generalizing rules starts e p with
  | zero => exact ⟨fun _ _ _ _ _ _ _ _ _ _ => trivial, fun _ _ _ _ _ _ _ _ _ => trivial⟩
  | succ n ihn =>
    have hA := safe_precedes C n
    have hr := hrules.fitted
    suffices hcarries : ∀ p, (safe C (n + 1)).Carries rules starts e p from
      ⟨hcarries p, rounds_of_carries hr he hA (hcarries p)
        fun m _ _ => (ihn hrules he hscope m).2⟩
    induction e with
    | char c => exact fun p => carries_class rfl
    | set s => exact fun p => carries_class rfl
    | any => exact fun p => carries_class rfl
    | empty => exact fun p => carries_empty
    | fail => exact fun p => carries_fail
    | seq first second ih₁ ih₂ =>
      exact fun p => carries_seq hr he.1 (ih₁ he.1 hscope.1 p) fun m _ _ => ih₂ he.2 hscope.2 m
    | choice first second ih₁ ih₂ =>
      exact fun p => carries_choice (ih₁ he.1 hscope.1 p) (ih₂ he.2 hscope.2 p) hr he.1
    | star body ih =>
      intro p
      have hrounds : (safe C (n + 1)).Rounds rules starts body p :=
        rounds_of_carries hr he hA (ih he hscope p) fun m _ _ =>
          (ihn (e := body) hrules he hscope m).2
      exact carries_star hr he hA (ih he hscope p) hrounds fun m _ _ =>
        (ihn (e := .star body) hrules he hscope m).1
    | not body ih => exact fun p => carries_not hr he (ih he hscope p)
    | and body ih => exact fun p => carries_and hr he (ih he hscope p)
    | behind width body ih => exact fun p => carries_behind fun _ => ih he.2 hscope _
    | action a body ih => exact fun p => carries_action hr he (ih he hscope p)
    | openCall i => exact hscope.elim
    | ruleCall i =>
      intro p
      have hi : rules[i]? = some rules[i] := List.getElem?_eq_getElem hscope
      have hmem := List.mem_of_getElem? hi
      exact carries_ruleCall hrules hA hi
        (ihn hrules (hr.body hi) (inScopeRules_iff.1 hrules.inScope _ hmem) p).1
    | grammar inner ih =>
      intro p
      obtain ⟨hne, hinner⟩ := hscope
      have hentry : inner[0]? = some (inner.head hne) := by rw [List.head_eq_getElem]; simp
      have hmem := List.mem_of_getElem? hentry
      have hfitted : fittedRules inner := he
      exact carries_grammar hA hfitted hinner hentry fun starts hstarts =>
        (ihn hstarts (hfitted.body hentry) (inScopeRules_iff.1 hinner _ hmem) p).1

/-! ## Whole matches -/

/-- Where the plain code of an expression is good, a match is good from its start. -/
theorem good_start (A : Aim C) {root : Expr α} (hcode : C.code = (Program.plain root).toArray)
    (hstart : C.start ≤ C.subject.size)
    (hends : ∀ q fs, C.Leads [] root C.start q fs → C.ends q fs) (hfitted : root.fitted)
    (h : A.Carries [] [] root C.start) (store : σ) :
    A.good (Machine.start ⟨C.code⟩ C.start store) := by
  have hplaced : Placed C.code (PlainCalls C.code []) 0 (Program.plain root) := by
    intro k instr hk
    rw [Nat.zero_add]
    exact holds_of_eq (fun _ => by simpa [hcode] using hk) fun i _ t ht => by simp at ht
  rw [Program.plain, placed_append, placed_cons, placed_cons] at hplaced
  obtain ⟨hbody, hhalt, hgiveUp, -⟩ := hplaced
  have hlast : C.code.size - 1
      = 0 + (root.emit Segment.callRules [] false none .full 0).length + 1 := by
    rw [hcode]
    simp [Program.plain]
  have hinside : C.Inside C.start := ⟨Nat.le_refl _, hstart⟩
  -- a match starts with nothing but the frame at the bottom
  let s : State α σ := ⟨0, C.start, [bottom C.code C.start], #[], [], store⟩
  have hs : C.Kept s := by
    refine ⟨⟨fun f hf => ?_, by simp [s]⟩, rfl⟩
    rw [List.mem_singleton.1 hf]
    exact Nat.zero_le _
  have hfails : A.Fails s := by
    intro st
    have hgiveUp : C.code[C.code.size - 1]? = some .giveUp := hlast ▸ hgiveUp
    have hsafe : C.Safe ⟨C.code.size - 1, C.start, [], #[], [], st⟩ :=
      ⟨⟨⟨.giveUp, hgiveUp, trivial⟩, .inr ⟨rfl, hgiveUp⟩, Nat.le_refl _, hstart⟩, fun g hg => by
        cases hgiveUp.symm.trans hg⟩
    have hstep : C.step ⟨C.code.size - 1, C.start, [], #[], [], st⟩ = .final .failure st := by
      rw [Scene.step, step_eq_exec hgiveUp, exec]
    exact A.later_of_good _ (A.of_final _ _ _ hsafe hstep)
  have hgood := h hinside false none .full 0 (established_none _ _) hbody s (.plain hs hfails fun q fs hq =>
    good_halt hs (hinside.way hq trivial hfitted) hhalt rfl rfl (hends q fs hq))
  exact hgood store

end Aim

/-! ## Programs -/

namespace Program

theorem giveUp_plain (root : Expr α) :
    (plain root).toArray[(plain root).toArray.size - 1]? = some .giveUp := by
  simp [plain]

theorem inBounds_plain (root : Expr α) : InBounds (plain root).toArray := by
  intro i instr t hi ht
  have hmem : instr ∈ plain root := by simpa using Array.mem_of_getElem? hi
  rw [plain, List.mem_append] at hmem
  rcases hmem with hmem | hmem
  · have hle := targetsLe_emit root [] false none .full 0 instr hmem t ht
    simp only [plain, List.size_toArray, List.length_append, List.length_cons, List.length_nil]
    omega
  · rcases List.mem_pair.1 hmem with rfl | rfl <;> cases ht

variable {p : Pattern α} {options : CompileOptions} {prog : Program α} {root : Expr α}
  {acts : Actions α σ} {subject : Array Char} {offset : Nat} {store : σ}

/-- A match of the plain code of an expression, which may end where a way through the expression
leads. -/
def plainScene (root : Expr α) (acts : Actions α σ) (subject : Array Char) (offset : Nat) :
    Scene α σ :=
  ⟨acts, (plain root).toArray, subject, offset, Way subject offset [] root offset⟩

/-- In every match of plain code, all states are safe, and the match ends where a way through the
expression leads. -/
theorem safe_plain (hfitted : root.fitted) (hscope : root.inScope False 0)
    (ho : offset ≤ subject.size) {s : State α σ}
    (hs : Reaches acts (plain root).toArray subject offset
      (Machine.start ⟨(plain root).toArray⟩ offset store) s) :
    (plainScene root acts subject offset).Safe s := by
  have hrules : (plainScene root acts subject offset).Hosts [] [] :=
    ⟨rulesPlaced_nil, trivial, trivial⟩
  refine Scene.safe_of_safeFor (fun n => ?_) hs
  exact (Aim.safe _ n).good_start rfl ho (fun _ _ hq => hq) hfitted
    (Aim.carries_safe n hrules hfitted hscope offset).1 store

theorem staysSafe_plain (hfitted : root.fitted) (hscope : root.inScope False 0)
    (ho : offset ≤ subject.size) (acts : Actions α σ) (store : σ) :
    StaysSafe acts (plain root).toArray subject offset (Way subject offset [] root offset)
      (Machine.start ⟨(plain root).toArray⟩ offset store) :=
  fun _ hs => (safe_plain hfitted hscope ho hs).toSafe

theorem start_eq_of_keeps (h : Keeps (plain root).toArray prog.code) (offset : Nat) (store : σ) :
    Machine.start ⟨(plain root).toArray⟩ offset store = Machine.start prog offset store :=
  (start_eq_of_size h.size_eq offset store).symm

/-- So it is with the program of a pattern. -/
theorem staysSafe_of_compile (hp : p.Built) (hc : compile options p = .ok prog)
    (hroot : p.root.resolve p.refs [] = .ok root) (ho : offset ≤ subject.size)
    (acts : Actions α σ) (store : σ) :
    StaysSafe acts prog.code subject offset (Way subject offset [] root offset)
      (Machine.start prog offset store) := by
  obtain ⟨root', hroot', hkeeps⟩ := keeps_of_compile hc
  obtain rfl : root' = root := by
    rw [hroot] at hroot'
    cases hroot'
    rfl
  have hsafe := staysSafe_plain (fitted_of_resolve hroot hp.fitted)
    (inScope_of_resolve hroot hp.inScope) ho acts store
  rw [start_eq_of_keeps hkeeps] at hsafe
  exact (hkeeps.runs (giveUp_plain root') σ acts subject offset _ _ hsafe).1

theorem inBounds_of_compile (hc : compile options p = .ok prog) : InBounds prog.code := by
  obtain ⟨root, -, hkeeps⟩ := keeps_of_compile hc
  exact hkeeps.inBounds (inBounds_plain root)

/-- A match of a compiled program does not end with the program broken, and it ends inside the
subject. -/
theorem verdict_of_matchAt (hp : p.Built) (hc : compile options p = .ok prog)
    (ho : offset ≤ subject.size) {n : Nat} {v : Verdict} {store' : σ}
    (hv : prog.matchAt acts subject offset store n = .ok (some (v, store'))) :
    v ≠ .broken ∧ offset ≤ v.stopFrom offset ∧ v.stopFrom offset ≤ subject.size := by
  obtain ⟨root, hroot, -⟩ := keeps_of_compile hc
  obtain ⟨s, hs, hfinal⟩ := exists_final_of_run ((matchAt_eq_iff ho).1 hv)
  have hsafe := staysSafe_of_compile hp hc hroot ho acts store s hs
  cases hsafe.verdict hfinal with
  | success => exact ⟨by simp, hsafe.start_le, hsafe.pos_le⟩
  | failure => exact ⟨by simp, Nat.le_refl _, ho⟩
  | badAnswer => exact ⟨by simp, Nat.le_refl _, ho⟩

/-- **In every match of a compiled program, each instruction finds things as it takes them to be.**
In any state on the way there is an instruction to go on with; returns find a frame of a call on
top, what commits a choice finds a frame of a choice, which is not the one at the bottom, and the
end of an action finds an action that is open; the frame at the bottom is there until the match has
failed; and the position is from the offset to the end of the subject, where the match then ends as
well. -/
theorem runs_safely (hp : p.Built) (hc : compile options p = .ok prog) (ho : offset ≤ subject.size)
    (acts : Actions α σ) (store : σ) :
    InBounds prog.code ∧
      (∀ s, Reaches acts prog.code subject offset (Machine.start prog offset store) s →
        Safe prog.code subject offset (fun _ _ => True) s) ∧
      ∀ n v store', prog.matchAt acts subject offset store n = .ok (some (v, store')) →
        v ≠ .broken ∧ offset ≤ v.stopFrom offset ∧ v.stopFrom offset ≤ subject.size := by
  obtain ⟨root, hroot, -⟩ := keeps_of_compile hc
  have hsafe := staysSafe_of_compile hp hc hroot ho acts store
  exact ⟨inBounds_of_compile hc, fun s hs => (hsafe s hs).mono fun _ _ _ => trivial,
    fun n v store' hv => verdict_of_matchAt hp hc ho hv⟩

/-- A rule that calls itself at its end, where the call becomes a jump. -/
theorem runs_safely_rule :
    let rule : Pattern String :=
      .choice (.seq (.char 'x') ⟨.openCall 0, ["r"]⟩) (.action "z" (.char 'z'))
    ∃ p prog, Pattern.grammar [("r", rule)] = .ok p ∧ p.Built ∧ compile ⟨true, 20⟩ p = .ok prog ∧
      InBounds prog.code ∧
      (∀ s, Reaches listing prog.code #['x', 'z'] 0 (Machine.start prog 0 []) s →
        Safe prog.code #['x', 'z'] 0 (fun _ _ => True) s) ∧
      ∀ n v store', prog.matchAt listing #['x', 'z'] 0 [] n = .ok (some (v, store')) →
        v ≠ .broken ∧ 0 ≤ v.stopFrom 0 ∧ v.stopFrom 0 ≤ 2 := by
  intro rule
  obtain ⟨p, hp⟩ : ∃ p, Pattern.grammar [("r", rule)] = .ok p := ⟨_, rfl⟩
  have hcall : Pattern.ref "r" = .ok (⟨.openCall 0, ["r"]⟩ : Pattern String) := rfl
  have hrule : rule.Built := .choice (.seq (.char 'x') (.ref hcall)) (.action "z" (.char 'z'))
  have hbuilt : p.Built := .grammar (by simpa using hrule) hp
  obtain ⟨prog, hprog⟩ : ∃ prog, compile ⟨true, 20⟩ p = .ok prog := by
    cases hp
    exact ⟨_, rfl⟩
  exact ⟨p, prog, hp, hbuilt, hprog, runs_safely hbuilt hprog (Nat.zero_le _) listing []⟩

/-! ## Tested characters -/

/-- **Characters that are not looked at again have been tested.**  In every match of a compiled
program, where an instruction takes the next character to be tested there is one, and it is the
character, or in the set, that the instruction would look for otherwise. -/
theorem established_of_tested (hp : p.Built) (hc : compile options p = .ok prog)
    (ho : offset ≤ subject.size) (acts : Actions α σ) (store : σ) (s : State α σ) (g : Guard)
    (hs : Reaches acts prog.code subject offset (Machine.start prog offset store) s)
    (hi : prog.code[s.ip]? = some (.tested g)) :
    ∃ c, subject[s.pos]? = some c ∧ g.admits c = true := by
  obtain ⟨root, hroot, hkeeps⟩ := keeps_of_compile hc
  have hfitted := fitted_of_resolve hroot hp.fitted
  have hscope := inScope_of_resolve hroot hp.inScope
  have hsafe := staysSafe_plain hfitted hscope ho acts store
  obtain ⟨-, -, htests⟩ := hkeeps.alike (giveUp_plain root) σ acts subject offset _ _ hsafe
  rw [← start_eq_of_keeps hkeeps] at hs
  obtain ⟨s₁, hs₁, hi₁, hpos⟩ := htests s g hs hi
  rw [← hpos]
  exact (safe_plain hfitted hscope ho hs₁).tested g hi₁ g rfl

/-- The test comes first, then a lookahead that fails, and then the character it is about. -/
theorem established_of_tested_lookahead :
    let ahead : Pattern String := .testNot (.seq (.char 'a') (.char 'b'))
    let p : Pattern String := .choice (.seq ahead (.seq (.char 'a') (.anyChars 1))) (.char 'c')
    ∃ prog s, p.Built ∧ compile ⟨true, 20⟩ p = .ok prog ∧
      Reaches listing prog.code #['a', 'c'] 0 (Machine.start prog 0 []) s ∧
      prog.code[s.ip]? = some (.tested (.char 'a')) ∧
      ∃ c, #['a', 'c'][s.pos]? = some c ∧ (Guard.char 'a').admits c = true := by
  intro ahead p
  have hp : p.Built := .choice (.seq (.testNot (.seq (.char 'a') (.char 'b')))
    (.seq (.char 'a') (.anyChars 1))) (.char 'c')
  obtain ⟨prog, hprog, hs⟩ : ∃ prog, compile ⟨true, 20⟩ p = .ok prog ∧
      ∃ s, Reaches listing prog.code #['a', 'c'] 0 (Machine.start prog 0 []) s ∧
        prog.code[s.ip]? = some (.tested (.char 'a')) := by
    refine ⟨_, rfl, ⟨6, 0, [⟨11, some 0, 0⟩], #[], [], []⟩, ?_, rfl⟩
    -- the tests, the choice in the lookahead, and its characters, of which the second does not follow
    exact .head rfl (.head rfl (.head rfl (.head rfl (.head rfl .refl))))
  obtain ⟨s, hs, hi⟩ := hs
  exact ⟨prog, s, hp, hprog, hs, hi,
    established_of_tested hp hprog (Nat.zero_le _) listing [] s _ hs hi⟩

/-! ## What is committed -/

/-- The state is at the end of a successful match, with the actions of one way through the
expression in its log, all of which have ended. -/
structure HaltsOn (prog : Program α) (subject : Array Char) (offset : Nat) (root : Expr α)
    (s : State α σ) (fs : List (Firing α)) : Prop where
  halt : prog.code[s.ip]? = some .halt
  opened : s.opened = []
  log : s.log = (fs.map Firing.entry).toArray
  way : Way subject offset [] root offset s.pos fs

theorem length_substring {start stop : Nat} (h : stop ≤ subject.size) :
    (substring subject start stop).length = stop - start := by
  rw [substring, String.length_ofList, Array.length_toList, Array.size_extract, Nat.min_eq_left h]

/-- **The actions that are committed lie side by side or inside each other.**  When a match
succeeds, no action is open, and those committed are the ones on a way through the expression from
the offset to where the match ends; so none of them is inside a lookahead, and of a choice only one
alternative has been taken.  They are committed in the order in which they start, and what each of
them is about is inside the match. -/
theorem commits_orderly (hp : p.Built) (hc : compile options p = .ok prog)
    (hroot : p.root.resolve p.refs [] = .ok root) (ho : offset ≤ subject.size) {n stop : Nat}
    {store' : σ}
    (h : prog.matchAt acts subject offset store n = .ok (some (.success stop, store'))) :
    ∃ s fs, Reaches acts prog.code subject offset (Machine.start prog offset store) s ∧
      prog.HaltsOn subject offset root s fs ∧ s.pos = stop ∧
      store' = (Result.matched stop fs).commit acts subject s.store ∧
      Orderly offset stop fs ∧
      ∀ f ∈ fs, (substring subject f.start f.stop).length = f.stop - f.start := by
  have hfitted := fitted_of_resolve hroot hp.fitted
  have hsafe := staysSafe_of_compile hp hc hroot ho acts store
  obtain ⟨s, hs, hfinal⟩ := exists_final_of_run ((matchAt_eq_iff ho).1 h)
  obtain ⟨instr, hi, hallow⟩ := (hsafe s hs).allowed
  rw [step_eq_exec hi] at hfinal
  obtain ⟨rfl, hstop, hstore⟩ := halt_of_success hfinal
  obtain ⟨hopened, fs, hlog, hway⟩ := hallow
  subst hstop
  have horderly := hway.orderly trivial hfitted
  refine ⟨s, fs, hs, ⟨hi, hopened, hlog, hway⟩, rfl, ?_, horderly, fun f hf => ?_⟩
  · rw [hstore, hlog, commitAll_entries _ _ fs s.pos]
  · exact length_substring
      (Nat.le_trans (horderly.bounds f hf).2.2 (hway.le_size ho))

end Program
end PegMachine
