import PegMachine.Proofs.Results
import PegMachine.Proofs.Safety

/-!
# Every match ends

What keeps a match of a compiled program from going on for ever is that repetitions consume
something in each round, and that rules consume something before they call themselves again.  The
checks that patterns are put through see to that, but for two things that they do not look into:
calls in lookbehinds, and grammars inside of rules.

Plain code is shown to end from a position on the assumption that calls in it do (`CallsEnd`): those
that lead the expression from the same position, the others from later ones.  Then the rules of a
grammar end by induction on what is left of the subject, and at one position along leading calls, of
which there are no circles.

* `Aim.carries_ending` — plain code ends if what it calls does, and progresses (`Expr.progresses`).
* `Program.ends_of_plainRules` — every match of a compiled program ends.
-/

set_option autoImplicit false

namespace PegMachine

open PegMachine.Expr State Machine Relation

variable {α σ : Type}

namespace Aim

variable {C : Scene α σ} {rules : List (Rule α)} {starts : List Nat} {e e₁ e₂ : Expr α} {p q : Nat}

/-- That the match ends, however it does. -/
def ending (C : Scene α σ) : Aim C where
  good s := ∃ v store, Halts C.acts C.code C.subject C.start s v store
  later s := ∃ v store, Halts C.acts C.code C.subject C.start s v store
  of_next _ _ _ hstep := by
    rintro ⟨v, store, h⟩
    exact ⟨v, store, halts_of_step hstep h⟩
  of_final s v store _ hstep := ⟨v, store, 1, by rw [run, show step _ _ _ _ s = _ from hstep]⟩
  later_of_good _ h := h

theorem ending_precedes (C : Scene α σ) : (ending C).Precedes (ending C) :=
  ⟨fun _ h => h, fun _ h => h, fun _ h => h⟩

/-- What is known of the calls in an expression at a position: they end at later positions, and
those that lead the expression end at this one as well. -/
structure CallsEnd (C : Scene α σ) (rules : List (Rule α)) (starts : List Nat) (e : Expr α)
    (p : Nat) : Prop where
  after : ∀ j ∈ e.calls, ∀ q, p < q → (ending C).Carries rules starts (.ruleCall j) q
  leading : ∀ j, Leading (Nullable rules) e (.ruleCall j) →
    (ending C).Carries rules starts (.ruleCall j) p

theorem callsEnd_iff : CallsEnd C rules starts e p ↔
    ∀ j q, MayCall rules e p j q → (ending C).Carries rules starts (.ruleCall j) q := by
  constructor
  · intro h j q hmay
    cases hmay with
    | leading hlead => exact h.leading j hlead
    | later hmem hlt => exact h.after j hmem q hlt
  · exact fun h => ⟨fun j hj q hlt => h j q (.later hj hlt), fun j hj => h j p (.leading hj)⟩

theorem CallsEnd.forward (h : CallsEnd C rules starts e p) (hpq : p ≤ q) :
    CallsEnd C rules starts e q :=
  callsEnd_iff.2 fun j r hmay => callsEnd_iff.1 h j r (hmay.of_le hpq)

theorem CallsEnd.second (h : CallsEnd C rules starts (.seq e₁ e₂) p) {fs : List (Firing α)}
    (hw : C.Leads rules e₁ p q fs) (hr : fittedRules rules) (he : e₁.fitted) :
    CallsEnd C rules starts e₂ q := by
  have hnull : p = q → Nullable rules e₁ := by
    rintro rfl
    exact hw.nullable hr he
  exact callsEnd_iff.2 fun j r hmay => callsEnd_iff.1 h j r (hmay.second (hw.le hr he) hnull)

theorem CallsEnd.of_part (h : CallsEnd C rules starts e p) (hcalls : e₁.calls ⊆ e.calls)
    (hleading : ∀ {part}, Leading (Nullable rules) e₁ part → Leading (Nullable rules) e part) :
    CallsEnd C rules starts e₁ p :=
  callsEnd_iff.2 fun j r hmay => callsEnd_iff.1 h j r (hmay.of_part hcalls hleading)

theorem CallsEnd.of_no_calls (h : e.calls = []) : CallsEnd C rules starts e p := by
  refine callsEnd_iff.2 fun j r hmay => ?_
  have hmem := hmay.mem_calls
  rw [h] at hmem
  cases hmem

/-- A repetition ends if every round does and consumes something. -/
theorem carries_star_ending (hr : fittedRules rules) (he : e.fitted) (hnull : ¬ Nullable rules e)
    (h : ∀ q, p ≤ q → (ending C).Carries rules starts e q) :
    (ending C).Carries rules starts (.star e) p ∧ (ending C).Rounds rules starts e p := by
  -- by induction on what is left of the subject
  induction hleft : C.subject.size - p using Nat.strongRecOn generalizing p with
  | ind left ih =>
    by_cases hp : C.Inside p
    · have hmore : ∀ m fs, C.Leads rules e p m fs →
          (ending C).Carries rules starts (.star e) m ∧ (ending C).Rounds rules starts e m := by
        intro m fs hw
        have hle := hw.le hr he
        have hne : p ≠ m := by
          rintro rfl
          exact hnull (hw.nullable hr he)
        have hm := hw.le_size hp.le_size
        exact ih (C.subject.size - m) (by omega) (fun q hq => h q (by omega)) rfl
      have hrounds := rounds_of_carries hr he (ending_precedes C) (h p (Nat.le_refl p))
        fun m fs hw => (hmore m fs hw).2
      exact ⟨carries_star hr he (ending_precedes C) (h p (Nat.le_refl p)) hrounds
        fun m fs hw => (hmore m fs hw).1, hrounds⟩
    · exact ⟨fun hin => absurd hin hp, fun hin => absurd hin hp⟩

/-- The rules of a grammar that is not left recursive end, if each of them does so as far as its
calls do. -/
theorem carries_rule_ending (hrules : C.Hosts rules starts) (hrec : ¬ LeftRecursive rules)
    (h : ∀ r ∈ rules, ∀ p, CallsEnd C rules starts r.body p →
      (ending C).Carries rules starts r.body p) (p : Nat) :
    ∀ i < rules.length, (ending C).Carries rules starts (.ruleCall i) p := by
  induction hleft : C.subject.size - p using Nat.strongRecOn generalizing p with
  | ind left ih =>
    by_cases hp : C.Inside p
    · refine forall_of_leftCalls hrec fun i hi hcalls => ?_
      have hget : rules[i]? = some rules[i] := List.getElem?_eq_getElem hi
      have hmem := List.mem_of_getElem? hget
      have hscope := inScopeRules_iff.1 hrules.inScope _ hmem
      refine carries_ruleCall hrules (ending_precedes C) hget (h _ hmem p ⟨?_, fun j hj => ?_⟩)
      · intro j hj q hpq
        by_cases hq : C.Inside q
        · have := hq.le_size
          exact ih (C.subject.size - q) (by omega) q rfl j (lt_of_mem_calls hscope hj)
        · exact fun hin => absurd hin hq
      · exact hcalls j (lt_of_mem_calls hscope (hj.mem_calls rfl)) ⟨_, hget, hj⟩
    · exact fun i _ hin => absurd hin hp

/-- **The plain code of an expression ends where what it leads to does**, as far as its calls do. -/
theorem carries_ending (hrules : C.Hosts rules starts) (he : e.fitted)
    (hscope : e.inScope False rules.length) (hprog : e.progresses rules)
    (hcalls : CallsEnd C rules starts e p) : (ending C).Carries rules starts e p := by
  have hr := hrules.fitted
  induction e generalizing rules starts p with
  | char c => exact carries_class rfl
  | set s => exact carries_class rfl
  | any => exact carries_class rfl
  | empty => exact carries_empty
  | fail => exact carries_fail
  | seq first second ih₁ ih₂ =>
    have hfirst : CallsEnd C rules starts first p :=
      hcalls.of_part (List.subset_append_left _ _) .seq_first
    exact carries_seq hr he.1 (ih₁ hrules he.1 hscope.1 hprog.1 hfirst hr) fun m fs hw =>
      ih₂ hrules he.2 hscope.2 hprog.2 (hcalls.second hw hr he.1) hr
  | choice first second ih₁ ih₂ =>
    have hfirst : CallsEnd C rules starts first p :=
      hcalls.of_part (List.subset_append_left _ _) .choice_first
    have hsecond : CallsEnd C rules starts second p :=
      hcalls.of_part (List.subset_append_right _ _) .choice_second
    exact carries_choice (ih₁ hrules he.1 hscope.1 hprog.1 hfirst hr)
      (ih₂ hrules he.2 hscope.2 hprog.2 hsecond hr) hr he.1
  | star body ih =>
    have hbody : CallsEnd C rules starts body p := hcalls.of_part (List.Subset.refl _) .star
    exact (carries_star_ending (e := body) hr he hprog.1 fun q hq =>
      ih hrules he hscope hprog.2 (hbody.forward hq) hr).1
  | not body ih =>
    have hbody : CallsEnd C rules starts body p := hcalls.of_part (List.Subset.refl _) .not
    exact carries_not hr he (ih hrules he hscope hprog hbody hr)
  | and body ih =>
    have hbody : CallsEnd C rules starts body p := hcalls.of_part (List.Subset.refl _) .and
    exact carries_and hr he (ih hrules he hscope hprog hbody hr)
  | behind width body ih =>
    obtain ⟨hnone, hprog⟩ := hprog
    exact carries_behind fun _ => ih hrules he.2 hscope hprog (.of_no_calls hnone) hr
  | action a body ih =>
    have hbody : CallsEnd C rules starts body p := hcalls.of_part (List.Subset.refl _) .action
    exact carries_action hr he (ih hrules he hscope hprog hbody hr)
  | openCall i => exact hscope.elim
  | ruleCall i => exact hcalls.leading i .refl
  | grammar inner ih =>
    obtain ⟨hne, hinner⟩ := hscope
    obtain ⟨hrec, hprog⟩ := hprog
    have hfitted : fittedRules inner := he
    have hentry : inner[0]? = some (inner.head hne) := by rw [List.head_eq_getElem]; simp
    refine carries_grammar (ending_precedes C) hfitted hinner hentry fun starts hstarts => ?_
    have hbodies : ∀ r ∈ inner, ∀ p, CallsEnd C inner starts r.body p →
        (ending C).Carries inner starts r.body p := fun r hmem p hends =>
      ih r hmem hstarts (fittedRules_iff.1 hfitted r hmem) (inScopeRules_iff.1 hinner r hmem)
        (progressesRules_iff.1 hprog r hmem) hends hfitted
    have hall := carries_rule_ending hstarts hrec hbodies
    have hmem := List.mem_of_getElem? hentry
    have hscope := inScopeRules_iff.1 hinner _ hmem
    exact hbodies _ hmem p ⟨fun j hj q _ => hall q j (lt_of_mem_calls hscope hj),
      fun j hj => hall p j (lt_of_mem_calls hscope (hj.mem_calls rfl))⟩

end Aim

namespace Program

variable {p : Pattern α} {options : CompileOptions} {prog : Program α} {subject : Array Char}
  {offset : Nat}

/-- **Every match of a compiled program ends**, whatever the actions answer, with success, with
failure, or with an answer that is out of bounds; provided that no rule of the pattern has a grammar
in it, nor a call in a lookbehind. -/
theorem ends_of_plainRules (hp : p.Built) (hc : compile options p = .ok prog)
    (hplain : p.root.plainRules = true) (ho : offset ≤ subject.size) (acts : Actions α σ)
    (store : σ) :
    ∃ n v store', prog.matchAt acts subject offset store n = .ok (some (v, store')) ∧
      v ≠ .broken := by
  obtain ⟨root, hroot, hkeeps⟩ := keeps_of_compile hc
  have hfitted := fitted_of_resolve hroot hp.fitted
  have hscope := inScope_of_resolve hroot hp.inScope
  have hprog : root.progresses [] := by
    obtain ⟨bound, hb, hroot⟩ := bind_eq_ok hroot
    cases hroot
    obtain rfl := eq_of_bindCalls_nil hb
    exact progresses_of_checked ((chains_checked.rightNest _).mpr hp.checked)
      ((chains_plainRules.rightNest _).trans hplain) hscope
  let C := plainScene root acts subject offset
  have hcalls : Aim.CallsEnd C [] [] root offset := .of_no_calls (calls_eq_nil hscope)
  obtain ⟨v, store', hhalts⟩ := (Aim.ending C).good_start rfl ho (fun _ _ hq => hq) hfitted
    (Aim.carries_ending ⟨rulesPlaced_nil, trivial, trivial⟩ hfitted hscope hprog hcalls) store
  have hsafe := staysSafe_plain hfitted hscope ho acts store
  obtain ⟨n, hn⟩ := (hkeeps.runs (giveUp_plain root) σ acts subject offset _ _ hsafe).2 v store'
    hhalts
  rw [start_eq_of_keeps hkeeps] at hn
  have hmatch := (matchAt_eq_iff ho).2 hn
  exact ⟨n, v, store', hmatch, (verdict_of_matchAt hp hc ho hmatch).1⟩

/-- A repetition of a grammar, whose rule calls itself behind a lookbehind. -/
theorem ends_of_plainRules_loop :
    let call : Pattern String := ⟨.openCall 0, ["r"]⟩
    let before : Pattern String := ⟨.behind 1 (.char 'x'), []⟩
    let rule : Pattern String := .choice (.seq (.char 'x') (.seq before call)) (.char 'z')
    ∃ p loop prog, Pattern.grammar [("r", rule)] = .ok p ∧ p.repeated 0 = .ok loop ∧
      loop.Built ∧ compile ⟨true, 30⟩ loop = .ok prog ∧ loop.root.plainRules = true ∧
      ∃ n v store', prog.matchAt listing #['x', 'z', 'z'] 0 [] n = .ok (some (v, store')) ∧
        v ≠ .broken := by
  intro call before rule
  have hcall : Pattern.ref "r" = .ok call := rfl
  have hbefore : (Pattern.char 'x').behind = .ok before := rfl
  have hrule : rule.Built :=
    .choice (.seq (.char 'x') (.seq (.behind (.char 'x') hbefore) (.ref hcall))) (.char 'z')
  let p : Pattern String := ⟨.grammar [⟨"r", .choice (.seq (.char 'x')
    (.seq (.behind 1 (.char 'x')) (.ruleCall 0))) (.char 'z')⟩], []⟩
  have hp : Pattern.grammar [("r", rule)] = .ok p := rfl
  have hloop : p.repeated 0 = .ok ⟨.star p.root, []⟩ := rfl
  have hbuilt : (⟨.star p.root, []⟩ : Pattern String).Built :=
    .repeated (.grammar (by simpa using hrule) hp) hloop
  obtain ⟨prog, hprog⟩ : ∃ prog, compile ⟨true, 30⟩ ⟨.star p.root, []⟩ = .ok prog := ⟨_, rfl⟩
  exact ⟨p, _, prog, hp, hloop, hbuilt, hprog, rfl,
    ends_of_plainRules hbuilt hprog rfl (Nat.zero_le _) listing []⟩

end Program
end PegMachine
