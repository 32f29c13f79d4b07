import PegMachine.Proofs.Safety

/-!
# Turning calls into jumps is invisible

Where nothing is left to do behind a call but to return, compilation jumps to the rule instead, and
the rule returns for both.  The two machines then have stacks of different depth, and a match fails
into frames below those by which they differ.  It has been shown for one such jump that the code
with it follows the code with the call (`TailCall.follows`), as long as that code is safe; here the
program of a pattern is compared with the program that makes all of its calls.

* `Program.calling` — the program of an expression in which every call is a call.
* `Program.openCall_notMem_plain` — in it, all calls have been bound to rules.
* `Program.sameMatchesAt_calling` — its matches cannot be told from those of the compiled program.
-/

set_option autoImplicit false

namespace PegMachine

open PegMachine.Expr Machine Relation

variable {α σ : Type}

/-! ## Calls that are left open -/

/-- The calls left open in the instructions are of rules below the index. -/
def OpenBelow (n : Nat) (instrs : List (Instr α)) : Prop :=
  ∀ i, .openCall i ∈ instrs → i < n

namespace OpenBelow

variable {n : Nat} {xs ys : List (Instr α)}

theorem nil : OpenBelow n ([] : List (Instr α)) := fun _ h => by cases h

theorem cons {instr : Instr α} (h : ∀ i, instr ≠ .openCall i) (hxs : OpenBelow n xs) :
    OpenBelow n (instr :: xs) := fun i hi =>
  (List.mem_cons.1 hi).elim (fun heq => absurd heq.symm (h i)) (hxs i)

theorem single {instr : Instr α} (h : ∀ i, instr ≠ .openCall i) : OpenBelow n [instr] :=
  .cons h .nil

theorem append (hxs : OpenBelow n xs) (hys : OpenBelow n ys) : OpenBelow n (xs ++ ys) :=
  fun i hi => (List.mem_append.1 hi).elim (hxs i) (hys i)

theorem headTest (h : Head) (t : Nat) : OpenBelow n (Instr.headTest h t : List (Instr α)) := by
  rw [Instr.headTest]
  split
  · exact .single (Instr.forTest_ne_openCall _ _)
  · exact .nil

/-- Once the calls of so many rules are bound, none is open. -/
theorem map_bindCall {starts : List Nat} (h : OpenBelow starts.length xs) :
    OpenBelow n (xs.map (Instr.bindCall starts)) := by
  intro i hi
  obtain ⟨instr, hmem, hinstr⟩ := List.mem_map.1 hi
  cases instr with
  | openCall j =>
    rw [Instr.bindCall, List.getElem?_eq_getElem (h j hmem)] at hinstr
    cases hinstr
  | _ => cases hinstr

end OpenBelow

namespace Expr

theorem openBelow_emitRules {n : Nat} {rules all : List (Rule α)}
    (ih : ∀ r ∈ rules, ∀ base,
      OpenBelow n (r.body.emit Segment.callRules all false none .full base)) (base : Nat) :
    OpenBelow n (emitRules Segment.callRules rules all base).flatten := by
  induction rules generalizing base with
  | nil => exact .nil
  | cons r rest ihrest =>
    obtain ⟨name, body⟩ := r
    rw [List.forall_mem_cons] at ih
    exact .append (.append (ih.1 base) (.single (by simp))) (ihrest ih.2 _)

/-- **The code of an expression leaves open only calls of rules that there are**, and none that are
made inside the grammars in it. -/
theorem openBelow_emit {n : Nat} {e : Expr α} (he : e.inScope False n) (rules : List (Rule α))
    (reuse : Bool) (guard : Option Guard) (follow : CharSet) (base : Nat) :
    OpenBelow n (e.emit Segment.callRules rules reuse guard follow base) := by
  induction e generalizing n rules reuse guard follow base with
  | char c => exact .single (Instr.forChar_ne_openCall _ _)
  | set s => exact .single (Instr.forSet_ne_openCall _ _)
  | seq first second ih₁ ih₂ => exact .append (ih₁ he.1 _ _ _ _ _) (ih₂ he.2 _ _ _ _ _)
  | choice first second ih₁ ih₂ =>
    simp only [emit]
    split
    · refine .append (.append (.cons (Instr.forTest_ne_openCall _ _) (ih₁ he.1 _ _ _ _ _)) ?_)
        (ih₂ he.2 _ _ _ _ _)
      split
      · exact .nil
      · exact .single (by simp)
    · split
      · exact .cons (by simp) (ih₁ he.1 _ _ _ _ _)
      · exact .append (.append (.headTest _ _) (.cons (by simp) (ih₁ he.1 _ _ _ _ _)))
          (.cons (by simp) (ih₂ he.2 _ _ _ _ _))
  | star body ih =>
    simp only [emit]
    split
    · exact .single (by simp)
    · split
      · exact .append (.cons (Instr.forTest_ne_openCall _ _) (ih he _ _ _ _ _)) (.single (by simp))
      · refine .append (.append (.headTest _ _) (.cons (fun i => ?_) (ih he _ _ _ _ _)))
          (.single (by simp))
        split <;> simp
  | not body ih =>
    simp only [emit]
    split
    · exact .append (.headTest _ _) (.single (by simp))
    · exact .append (.append (.headTest _ _) (.cons (by simp) (ih he _ _ _ _ _)))
        (.single (by simp))
  | and body ih =>
    simp only [emit]
    split
    · refine .append (ih he _ _ _ _ _) ?_
      split
      · exact .nil
      · exact .single (by simp)
    · exact .append (.cons (by simp) (ih he _ _ _ _ _)) (.cons (by simp) (.single (by simp)))
  | behind width body ih =>
    simp only [emit]
    split
    · exact ih he _ _ _ _ _
    · exact .cons (by simp) (ih he _ _ _ _ _)
  | action a body ih =>
    exact .append (.cons (by simp) (ih he _ _ _ _ _)) (.single (by simp))
  | openCall i => exact he.elim
  | ruleCall i =>
    intro j hj
    cases List.mem_singleton.1 hj
    exact he
  | grammar inner ih =>
    have hrules : OpenBelow inner.length
        (emitRules Segment.callRules inner inner (base + 2)).flatten :=
      openBelow_emitRules
        (fun r hr => ih r hr (inScopeRules_iff.1 he.2 r hr) inner false none .full) _
    rw [← length_starts_emitRules Segment.callRules inner inner (base + 2) (base + 2)] at hrules
    simp only [emit, Segment.callRules, Array.toList_map]
    exact .cons (by simp) (.cons (by simp) hrules.map_bindCall)
  | _ => simp only [emit]; first | exact .nil | exact .single (by simp)

end Expr

/-! ## Programs -/

namespace Program

/-- The program of an expression in which every call of a rule is a call of its start. -/
def calling (thread : Bool) (root : Expr α) : Program α :=
  ⟨if thread then (Segment.mk 0 (plain root).toArray).threadJumps.code else (plain root).toArray⟩

variable {p : Pattern α} {options : CompileOptions} {prog : Program α} {root : Expr α}
  {subject : Array Char} {offset : Nat}

theorem openCall_notMem_plain (hscope : root.inScope False 0) (i : Nat) :
    .openCall i ∉ plain root := by
  intro hi
  have hopen : OpenBelow 0 (plain root) :=
    .append (openBelow_emit hscope [] false none .full 0) (.cons (by simp) (.single (by simp)))
  exact Nat.not_lt_zero i (hopen i hi)

theorem keeps_calling (thread : Bool) (root : Expr α) :
    Keeps (plain root).toArray (calling thread root).code := by
  cases thread with
  | false => exact .refl _
  | true => exact .of_reflTransGen Rewires.keeps (Segment.rewires_threadJumps _)

/-- What keeps the plain code makes programs whose matches cannot be told apart. -/
theorem sameMatchesAt_of_keeps {q : Program α} (hfitted : root.fitted)
    (hscope : root.inScope False 0) (ho : offset ≤ subject.size)
    (hprog : Keeps (plain root).toArray prog.code) (hq : Keeps (plain root).toArray q.code) :
    prog.SameMatchesAt q subject offset := by
  refine sameMatchesAt_of_seenAlike fun σ acts store => ?_
  have hsafe := staysSafe_plain hfitted hscope ho acts store
  have halike := (hprog.alike (giveUp_plain root) σ acts subject offset _ _ hsafe).2.1
  have halike' := (hq.alike (giveUp_plain root) σ acts subject offset _ _ hsafe).2.1
  rw [← start_eq_of_keeps hprog, ← start_eq_of_keeps hq]
  exact halike.symm.trans halike'

/-- **Turning calls into jumps is invisible.**  The program of a pattern is as long as the one that
makes a call of each open call, which leaves none open, and their matches cannot be told apart,
whether or not jumps are threaded: on every subject, from every offset in it and with any actions,
they make the same calls of actions, the one ends if the other does, and both with the same verdict
and store. -/
theorem sameMatchesAt_calling (hp : p.Built) (hc : compile options p = .ok prog)
    (ho : offset ≤ subject.size) (thread : Bool) :
    ∃ root, p.root.resolve p.refs [] = .ok root ∧ (∀ i, .openCall i ∉ plain root) ∧
      (calling thread root).code.size = prog.code.size ∧
      (calling thread root).SameMatchesAt prog subject offset := by
  obtain ⟨root, hroot, hkeeps⟩ := keeps_of_compile hc
  have hscope := inScope_of_resolve hroot hp.inScope
  have hcalling := keeps_calling thread root
  exact ⟨root, hroot, openCall_notMem_plain hscope, hcalling.size_eq.trans hkeeps.size_eq.symm,
    sameMatchesAt_of_keeps (fitted_of_resolve hroot hp.fitted) hscope ho hcalling hkeeps⟩

/-- A rule that calls itself at its end, behind which a chain of one jump leads to the return. -/
theorem sameMatchesAt_calling_rule :
    let rule : Pattern String :=
      .choice (.seq (.char 'x') ⟨.openCall 0, ["r"]⟩) (.action "z" (.char 'z'))
    ∃ p prog root, Pattern.grammar [("r", rule)] = .ok p ∧ p.Built ∧
      compile ⟨false, 20⟩ p = .ok prog ∧ p.root.resolve p.refs [] = .ok root ∧
      (calling false root).code[4]? = some (.call 2) ∧ prog.code[4]? = some (.jump 2) ∧
      (∀ i, .openCall i ∉ plain root) ∧ (calling false root).code.size = prog.code.size ∧
      (calling false root).SameMatchesAt prog #['x', 'x', 'z'] 1 := by
  intro rule
  obtain ⟨p, hp⟩ : ∃ p, Pattern.grammar [("r", rule)] = .ok p := ⟨_, rfl⟩
  have hcall : Pattern.ref "r" = .ok (⟨.openCall 0, ["r"]⟩ : Pattern String) := rfl
  have hrule : rule.Built := .choice (.seq (.char 'x') (.ref hcall)) (.action "z" (.char 'z'))
  have hbuilt : p.Built := .grammar (by simpa using hrule) hp
  obtain ⟨prog, hprog, hjump⟩ : ∃ prog, compile ⟨false, 20⟩ p = .ok prog ∧
      prog.code[4]? = some (.jump 2) := by
    cases hp
    exact ⟨_, rfl, rfl⟩
  have hoffset : 1 ≤ #['x', 'x', 'z'].size := by decide
  obtain ⟨root, hroot, hopen, hsize, hsame⟩ := sameMatchesAt_calling hbuilt hprog hoffset false
  have hcalls : (calling false root).code[4]? = some (.call 2) := by
    cases hp
    cases hroot
    show (plain (.grammar _)).toArray[4]? = _
    simp only [plain, emit, Segment.callRules, Array.toList_map]
    rfl
  exact ⟨p, prog, root, hp, hbuilt, hprog, hroot, hcalls, hjump, hopen, hsize, hsame⟩

end Program
end PegMachine
