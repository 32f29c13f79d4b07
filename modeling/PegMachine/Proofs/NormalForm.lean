import PegMachine.Proofs.Code.Resolving
import PegMachine.Proofs.Code.Straightening
import PegMachine.Proofs.Safety

/-!
# Normal forms of programs

Both passes over the code of a pattern ask where a chain of jumps ends, and nothing in the code says
that it does.  It does so in every pattern of which no grammar is left recursive, at any moment of
the passes, and what comes out of threading is a normal form.

The check for left recursion does not find it in every case, and a grammar that it lets through may
have jumps that go round in a circle.

* `ChainsEnd` — chains of jumps end at any moment of both passes.
* `Normal` — nothing is left for threading to do.
* `Program.normal_of_settled` — so it is in patterns of which no grammar is left recursive.
* `Program.circle_of_leftRecursive` — a pattern with a chain that does not end.
-/

set_option autoImplicit false

namespace PegMachine

open PegMachine.Expr

variable {α : Type}

namespace Program

/-- Chains of jumps end in the code of an expression, as it is at any moment of the two passes that
ask where they lead. -/
structure ChainsEnd (root : Expr α) : Prop where
  /-- When some calls of the rules of a grammar are resolved, chains end in these rules, and so does
  the one behind every call that is still open. -/
  resolving : ∀ rules inner, Part [] root rules (.grammar inner) → ∀ base n,
    ∀ a ∈ (Segment.ofRules inner base).addresses,
      let s := (Segment.ofRules inner base).resolving (Segment.ruleStarts inner base) n
      Lands s.get? a ∧ ∀ i, s.get? a = some (.openCall i) → Lands s.get? (a + 1)
  /-- When some instructions are threaded, all targets are in the code, and chains end in it. -/
  threading : ∀ n, ∀ a ∈ (Segment.mk 0 (layout root).toArray).addresses,
    let s := (Segment.mk 0 (layout root).toArray).threading n
    (∀ instr t, s.get? a = some instr → instr.target? = some t → t ∈ s.addresses) ∧
      Lands s.get? a

/-- The program is a normal form of threading. -/
structure Normal (prog : Program α) : Prop where
  /-- Each instruction is as threading leaves it. -/
  direct : ∀ a, DirectAt prog.code a
  /-- Threading leaves the program alone. -/
  threadJumps : (Segment.mk 0 prog.code).threadJumps = ⟨0, prog.code⟩

theorem tidy_layout {root : Expr α} (hsettled : root.settled) (hscope : root.inScope False 0)
    (hback : root.movesBack) : Tidy (layout root).toArray where
  inBounds := (keeps_layout root).inBounds (inBounds_plain root)
  lands a ha := by
    have hplaced := (placed_self (layout root)).imp fun _ _ h => h.headsFor
    rw [layout, placed_append, placed_cons, placed_cons] at hplaced
    obtain ⟨hbody, hhalt, hgiveUp, -⟩ := hplaced
    rw [← layout] at hbody hhalt hgiveUp
    have hstop : Lands ((layout root).toArray[·]?) _ := .stop hhalt rfl
    have hscope : root.inScope False ([] : List Nat).length := hscope
    have hall := (landsFrom_emit hsettled hscope hback (by simp) hbody hstop).trans
      (.cons hstop (.single (.stop hgiveUp rfl)) le_rfl)
    rw [layout, List.size_toArray, List.length_append, ← Nat.zero_add (List.length _ + _)] at ha
    exact hall a (Nat.zero_le a) ha

variable {p : Pattern α} {options : CompileOptions} {prog : Program α} {root : Expr α}

/-- **Chains of jumps end, and threading comes to a normal form**, for every pattern that can be
compiled and of which no grammar is left recursive. -/
theorem normal_of_settled (hp : p.Built) (hc : compile options p = .ok prog)
    (hroot : p.root.resolve p.refs [] = .ok root) (hsettled : root.settled) :
    ChainsEnd root ∧ (options.thread = true →
      prog.Normal ∧ prog.code.size = (layout root).toArray.size) := by
  have hscope : root.inScope False 0 := inScope_of_resolve hroot hp.inScope
  have hback := movesBack_of_resolve hroot hp.movesBack
  have htidy := tidy_layout hsettled hscope hback
  refine ⟨⟨fun rules inner hpart base n => ?_, fun n a ha => ?_⟩, fun hthread => ?_⟩
  · obtain ⟨-, -, hinner⟩ := hpart.inScope trivial hscope
    exact lands_resolving (hpart.settled hsettled) hinner (hpart.movesBack hback) base n
  · obtain ⟨code, hcode, hdone, hsize, -⟩ := htidy.threading n
    rw [Segment.mem_addresses_zero, ← hsize] at ha
    simp only [hcode, Segment.get?_zero, Segment.mem_addresses_zero]
    exact ⟨fun instr t hi ht => hdone.inBounds a instr t hi ht, hdone.lands a ha⟩
  · obtain ⟨root', hroot', hcode⟩ := compile_eq_ok hc
    obtain rfl : root = root' := Except.ok.inj (hroot.symm.trans hroot')
    obtain ⟨code, hdone, -, hsize, hdirect⟩ := htidy.threading (layout root).toArray.size
    rw [Segment.threading_size] at hdone
    obtain rfl : prog.code = code := by rw [hcode, if_pos hthread, hdone]
    have hall : ∀ a, DirectAt prog.code a := by
      intro a instr hi
      have hlt := (Array.getElem?_eq_some_iff.1 hi).1
      exact hdirect a (hsize ▸ hlt) instr hi
    exact ⟨⟨hall, Segment.threadJumps_eq_self hall⟩, hsize⟩

/-- Two rules of which the first calls the second at its start and itself at its end. -/
theorem normal_of_settled_calls :
    let call : String → Pattern String := fun name => ⟨.openCall 0, [name]⟩
    let first : Pattern String := .choice (.seq (call "s") (.seq (.char 'x') (call "r"))) (.char 'y')
    let second : Pattern String := .choice (.seq (.char 'z') (call "r")) .succeed
    ∃ p prog root, Pattern.grammar [("r", first), ("s", second)] = .ok p ∧ p.Built ∧
      compile ⟨true, 20⟩ p = .ok prog ∧ p.root.resolve p.refs [] = .ok root ∧ root.settled ∧
      ChainsEnd root ∧ prog.Normal ∧ prog.code.size = (layout root).toArray.size := by
  intro call first second
  let rules : List (Rule String) :=
    [⟨"r", .choice (.seq (.ruleCall 1) (.seq (.char 'x') (.ruleCall 0))) (.char 'y')⟩,
      ⟨"s", .choice (.seq (.char 'z') (.ruleCall 0)) .empty⟩]
  let p : Pattern String := ⟨.grammar rules, []⟩
  have hp : Pattern.grammar [("r", first), ("s", second)] = .ok p := rfl
  have hcall : ∀ name, name ≠ "" → (call name).Built := fun name hname =>
    .ref (show Pattern.ref name = .ok (call name) from if_neg hname)
  have hfirst : first.Built :=
    .choice (.seq (hcall "s" (by decide)) (.seq (.char 'x') (hcall "r" (by decide)))) (.char 'y')
  have hsecond : second.Built := .choice (.seq (.char 'z') (hcall "r" (by decide))) .succeed
  have hbuilt : p.Built := .grammar (by simpa using ⟨hfirst, hsecond⟩) hp
  obtain ⟨prog, hprog⟩ : ∃ prog, compile ⟨true, 20⟩ p = .ok prog :=
    exists_of_isOk (by decide +kernel)
  have hflat : ∀ r ∈ rules, r.body.flat = true := by decide
  have hrec : ¬ LeftRecursive rules :=
    not_leftRecursive_of_checkLeftRecursion rfl (not_misled_of_flat hflat)
  have hsettled : p.root.settled :=
    ⟨hrec, settledRules_iff.2 fun r hr => settled_of_flat (hflat r hr)⟩
  obtain ⟨hchains, hnormal⟩ := normal_of_settled hbuilt hprog rfl hsettled
  exact ⟨p, prog, p.root, hp, hbuilt, hprog, rfl, hsettled, hchains, hnormal rfl⟩

/-- **A program in which jumps go round in a circle**, and which threading therefore does not come
to an end with.  The rule calls itself at once, behind a lookahead for a grammar that cannot match.
The lookahead is a jump behind itself, and the call is a jump to the lookahead. -/
theorem circle_of_leftRecursive :
    let inner : Pattern Unit := ⟨.grammar [⟨"g", .fail⟩], []⟩
    let call : Pattern Unit := ⟨.openCall 0, ["r"]⟩
    ∃ p prog root, Pattern.grammar [("g", .fail)] = .ok inner ∧ Pattern.ref "r" = .ok call ∧
      Pattern.grammar [("r", .seq inner.testNot call)] = .ok p ∧ p.Built ∧
      compile ⟨false, 20⟩ p = .ok prog ∧ p.root.resolve p.refs [] = .ok root ∧
      prog.code[2]? = some (.jump 4) ∧ prog.code[4]? = some (.jump 2) ∧ ¬ ChainsEnd root := by
  intro inner call
  let rule : Rule Unit := ⟨"r", .seq (.not inner.root) (.ruleCall 0)⟩
  let p : Pattern Unit := ⟨.grammar [rule], []⟩
  have hinner : Pattern.grammar [("g", .fail)] = .ok inner := rfl
  have hcall : Pattern.ref "r" = .ok call := rfl
  have hp : Pattern.grammar [("r", .seq inner.testNot call)] = .ok p := rfl
  have hbuilt : p.Built := by
    refine .grammar ?_ hp
    simpa using .seq (.testNot (.grammar (by simpa using .fail) hinner)) (.ref hcall)
  obtain ⟨prog, hprog⟩ : ∃ prog, compile ⟨false, 20⟩ p = .ok prog :=
    exists_of_isOk (by decide +kernel)
  obtain ⟨root, hroot, hcode⟩ := compile_eq_ok hprog
  obtain rfl : p.root = root := Except.ok.inj hroot
  have hfirst : (layout p.root).toArray[2]? = some (.jump 4) := by cbv
  have hsecond : (layout p.root).toArray[4]? = some (.jump 2) := by cbv
  refine ⟨p, prog, p.root, hinner, hcall, hp, hbuilt, hprog, rfl, hcode ▸ hfirst, hcode ▸ hsecond,
    fun h => ?_⟩
  have hlands := (h.threading 0 2 (by decide)).2
  rw [Segment.threading, List.take_zero, List.foldl_nil] at hlands
  exact not_lands_of_circle ((Segment.get?_zero ..).trans hfirst)
    ((Segment.get?_zero ..).trans hsecond) hlands

end Program
end PegMachine
