import PegMachine.Proofs.Code.Emitter
import PegMachine.Proofs.Pattern
import PegMachine.Proofs.Threading

/-!
# The limit on the size of programs

A pattern whose program has `n` instructions is compiled to this program under every limit from `n`
on, and refused as too large under every lower one.  The compiler does not know that in advance: it
writes down one instruction after the other until it gets beyond the limit, and has to complete what
it has begun on code that has been cut off (`Emitter.compile`).  This never goes wrong, and comes to
the same program, or to the same error.

* `Emitter.compile_eq` — the program that is written down is the one that `Program.compile` tells.
* `Program.limit_exact` — what the limit does.
-/

set_option autoImplicit false

namespace PegMachine

open PegMachine.Expr

variable {α : Type}

/-- **Writing the code down comes to what compilation is said to come to**, whatever the limit, and
never looks up an instruction where there is none. -/
theorem Emitter.compile_eq {p : Pattern α} (hp : p.Built) (options : CompileOptions) :
    Emitter.compile options p = some (Program.compile options p) := by
  rw [Emitter.compile, Program.compile]
  cases hroot : p.root.resolve p.refs [] with
  | error e => rfl
  | ok root =>
    have hscope : root.inScope False 0 := inScope_of_resolve hroot hp.inScope
    obtain ⟨m, hemit, hlays⟩ := exists_emit_layout hscope (min options.limit maxInstructions)
    simp only [hemit, bind, Except.bind, Option.bind_some, pure, Except.pure]
    have hover : ((m.push .halt).push .giveUp).tooLarge = true
        ↔ min options.limit maxInstructions < (Program.layout root).toArray.size := by
      simpa [here] using hlays.tooLarge_iff
    by_cases hlimit : min options.limit maxInstructions < (Program.layout root).toArray.size
    · rw [if_pos (hover.2 hlimit), if_pos hlimit]
      rfl
    · have hn : ((m.push .halt).push .giveUp).tooLarge = false := by
        rwa [← Bool.not_eq_true, hover]
      have hcode : ((m.push .halt).push .giveUp).code = (Program.layout root).toArray :=
        Array.toList_inj.1 (hlays.code hn)
      rw [if_neg (by simp [hn]), if_neg hlimit, hcode]

namespace Segment

theorem size_put (s : Segment α) (addr : Nat) (instr : Instr α) :
    (s.put addr instr).code.size = s.code.size := by
  rw [put]
  split
  · rfl
  · exact Array.size_setIfInBounds

theorem size_threadAt (s : Segment α) (addr : Nat) :
    (s.threadAt addr).code.size = s.code.size := by
  rw [threadAt]
  split
  · rfl
  all_goals exact size_put ..

/-- Threading does not change the number of instructions. -/
theorem size_threadJumps (s : Segment α) : s.threadJumps.code.size = s.code.size := by
  rw [threadJumps]
  generalize s.addresses = addrs
  induction addrs generalizing s with
  | nil => rfl
  | cons addr rest ih => rw [List.foldl_cons, ih, size_threadAt]

end Segment

namespace Program

/-- A pattern is refused as too large if its program would have more instructions than allowed, and
otherwise it has this program. -/
theorem compile_eq_ite {p : Pattern α} {thread : Bool} {limit : Nat} {prog : Program α}
    (h : compile ⟨thread, limit⟩ p = .ok prog) (n : Nat) :
    compile ⟨thread, n⟩ p = if n < prog.code.size then .error .tooLarge else .ok prog := by
  obtain ⟨root, hroot, hcode⟩ := compile_eq_ok h
  have hsize : prog.code.size = (layout root).toArray.size := by
    rw [hcode]
    split
    · exact Segment.size_threadJumps _
    · rfl
  rw [compile, hroot] at h ⊢
  simp only [bind, Except.bind, pure, Except.pure] at h ⊢
  split at h
  · cases h
  · next hle =>
    -- the program is within the limit that there is in any case
    have hlimit : min n maxInstructions < (layout root).toArray.size ↔ n < prog.code.size := by
      rw [hsize]
      omega
    simp only [hlimit, Except.ok.inj h]
    rfl

/-- **The limit on the size of programs is exact, and changes nothing else.**  If a pattern can be
compiled at all, then under any limit the code that is written down, one instruction after the
other, comes to an end without looking up an instruction that is not there, and to what `compile`
tells: the same program if it is within the limit, and else that it is too large. -/
theorem limit_exact {p : Pattern α} (hp : p.Built) {thread : Bool} {limit : Nat} {prog : Program α}
    (h : compile ⟨thread, limit⟩ p = .ok prog) (n : Nat) :
    Emitter.compile ⟨thread, n⟩ p = some (compile ⟨thread, n⟩ p) ∧
      (compile ⟨thread, n⟩ p = .error .tooLarge ↔ n < prog.code.size) ∧
      (prog.code.size ≤ n → compile ⟨thread, n⟩ p = .ok prog) := by
  have hn := compile_eq_ite h n
  refine ⟨Emitter.compile_eq hp _, ?_, fun hle => ?_⟩
  · rw [hn]
    split
    · next hlt => exact iff_of_true rfl hlt
    · next hlt => exact iff_of_false (by simp) hlt
  · rw [hn, if_neg (Nat.not_lt.2 hle)]

/-- A rule that calls itself between jumps: it takes eight instructions, and seven are too few. -/
theorem limit_exact_rule :
    let call : Pattern String := ⟨.openCall 0, ["a"]⟩
    let rule : Pattern String := .choice (.seq (.char 'a') call) .succeed
    ∃ (p : Pattern String) (prog : Program String), Pattern.grammar [("a", rule)] = .ok p ∧
      p.Built ∧ compile ⟨true, maxInstructions⟩ p = .ok prog ∧ prog.code.size = 8 ∧
      ∀ n, Emitter.compile ⟨true, n⟩ p = some (compile ⟨true, n⟩ p) ∧
        (compile ⟨true, n⟩ p = .error .tooLarge ↔ n < prog.code.size) ∧
        (prog.code.size ≤ n → compile ⟨true, n⟩ p = .ok prog) := by
  intro call rule
  obtain ⟨p, hp⟩ : ∃ p, Pattern.grammar [("a", rule)] = .ok p := ⟨_, rfl⟩
  have hcall : call.Built := .ref (show Pattern.ref "a" = .ok call from rfl)
  have hrule : rule.Built := .choice (.seq (.char 'a') hcall) .succeed
  have hbuilt : p.Built := .grammar (by simpa using hrule) hp
  obtain ⟨prog, hprog, hsize⟩ : ∃ prog, compile ⟨true, maxInstructions⟩ p = .ok prog ∧
      prog.code.size = 8 := by
    cases hp
    exact ⟨_, rfl, rfl⟩
  exact ⟨p, prog, hp, hbuilt, hprog, hsize, limit_exact hbuilt hprog⟩

end Program
end PegMachine
