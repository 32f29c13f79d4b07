import Mathlib.Data.Fintype.EquivFin
import PegMachine.Program
import PegMachine.Proofs.Expr.Calls
import PegMachine.Proofs.Expr.HeadSet
import PegMachine.Proofs.Expr.Parts
import PegMachine.Proofs.LeftRecursion

/-!
# Repetitions make progress

A repetition would go on for ever if its body matched the empty string.  Whether it does is asked
twice.  When a repetition is built, nothing is known of the rules that its body refers to, and they
are taken not to be empty.  So the question is asked again when the rules are put together to a
grammar, and then the answers for the rules are known; only grammars inside of rules are not gone
into again, as they have been asked about when they were made.

* `vetted` — the grammars in an expression have been asked about, at any depth.
* `Part.not_nullable` — then no body of a repetition may be empty among its rules.
* `Program.lt_of_star` — no round of a repetition in a compiled pattern ends where it started.

For a match to end more is needed, which the checks do not see to in every case: that lookbehinds
contain no calls, and that no grammar is left recursive (`progresses`).
-/

set_option autoImplicit false

namespace PegMachine

open PegMachine.Expr Relation

variable {α : Type}

namespace Expr

/-! ## What has been checked -/

mutual

/-- The grammars in the expression have passed the check for empty repetitions, and so have those
in their rules. -/
def vetted : Expr α → Prop
  | grammar rules => checkEmptyLoops rules = .ok () ∧ vettedRules rules
  | seq first second => vetted first ∧ vetted second
  | choice first second => vetted first ∧ vetted second
  | star body => vetted body
  | not body => vetted body
  | and body => vetted body
  | behind _ body => vetted body
  | action _ body => vetted body
  | char _ => True
  | set _ => True
  | any => True
  | empty => True
  | fail => True
  | openCall _ => True
  | ruleCall _ => True

/-- `vetted` for the body of each rule. -/
def vettedRules : List (Rule α) → Prop
  | [] => True
  | ⟨_, body⟩ :: rest => vetted body ∧ vettedRules rest

end

theorem vettedRules_iff {rules : List (Rule α)} :
    vettedRules rules ↔ ∀ r ∈ rules, vetted r.body := by
  induction rules with
  | nil => simp [vettedRules]
  | cons r rest ih =>
    obtain ⟨name, body⟩ := r
    simp [vettedRules, ih]

theorem vetted_substCalls {f : Nat → Expr α} (hf : ∀ i, (f i).vetted) {e : Expr α}
    (h : e.vetted) : (e.substCalls f).vetted := by
  induction e with
  | seq first second ih₁ ih₂ | choice first second ih₁ ih₂ => exact ⟨ih₁ h.1, ih₂ h.2⟩
  | star body ih | not body ih | and body ih | behind width body ih | action a body ih =>
    have hbody : (body.substCalls f).vetted := ih h
    exact hbody
  | openCall i => exact hf i
  | _ => exact h

theorem chains_vetted : Chains (vetted (α := α)) And And where
  seq _ _ := rfl
  choice _ _ := rfl
  seq_assoc _ _ _ := propext and_assoc
  choice_assoc _ _ _ := propext and_assoc
  star _ h := h
  not _ h := h
  and _ h := h
  behind _ _ h := h
  action _ _ h := h

theorem vetted_of_resolve {refs names : List String} {e e' : Expr α}
    (hr : e.resolve refs names = .ok e') (h : e.vetted) : e'.vetted := by
  obtain ⟨-, rfl⟩ := of_resolve hr
  exact (chains_vetted.rightNest _).mpr (vetted_substCalls (fun _ => by rw [vetted]; trivial) h)

end Expr

theorem inherited_vetted : Inherited (vetted (α := α)) where
  char _ := trivial
  set _ := trivial
  any := trivial
  empty := trivial
  fail := trivial
  openCall _ := trivial
  seq h₁ h₂ := ⟨h₁, h₂⟩
  choice h₁ h₂ := ⟨h₁, h₂⟩
  star h _ := h
  not h := h
  and h := h
  behind h _ _ := h
  action h := h
  shift n e h := by
    rw [shift_eq_substCalls]
    exact vetted_substCalls (fun _ => by rw [vetted]; trivial) h
  made hmade h := by
    refine ⟨hmade.loops, vettedRules_iff.2 fun r hr => ?_⟩
    obtain ⟨named, hnamed, hres⟩ := (exists_of_resolveRules hmade.resolved).2 r hr
    exact vetted_of_resolve hres (h named hnamed)

namespace Expr

variable {rules rules' : List (Rule α)} {e body : Expr α}

/-- Before there are rules, what is checked of a repetition is what is checked of it afterwards. -/
theorem hasEmptyLoop_of_checked (h : e.checked) :
    e.hasEmptyLoop (unfold true false (nullableRules ([] : List (Rule α))) 0) = false := by
  induction e with
  | seq first second ih₁ ih₂ | choice first second ih₁ ih₂ =>
    rw [hasEmptyLoop, ih₁ h.1, ih₂ h.2, Bool.or_self]
  | star body ih =>
    rw [hasEmptyLoop, ih h.2, Bool.or_false]
    exact h.1
  | not body ih | and body ih | behind width body ih | action a body ih => exact ih h
  | _ => rfl

theorem not_hasEmptyLoop_of_checkEmptyLoops (h : checkEmptyLoops rules = .ok ()) :
    ∀ r ∈ rules,
      r.body.hasEmptyLoop (unfold true false (nullableRules rules) rules.length) = false := by
  rw [checkEmptyLoops] at h
  split at h
  · cases h
  · next hnone => simpa using hnone

/-- **What is repeated is not nullable** among the rules that its calls lead to. -/
theorem Part.not_nullable (h : Part rules e rules' (.star body)) (hvetted : e.vetted)
    (hloops : e.hasEmptyLoop (unfold true false (nullableRules rules) rules.length) = false) :
    body.nullableIn rules' = false := by
  generalize hpart : Expr.star body = part at h
  induction h with
  | refl =>
    subst hpart
    rw [hasEmptyLoop, Bool.or_eq_false_iff] at hloops
    exact hloops.1
  | seq_first _ ih | choice_first _ ih =>
    rw [hasEmptyLoop, Bool.or_eq_false_iff] at hloops
    exact ih hvetted.1 hloops.1 hpart
  | seq_second _ ih | choice_second _ ih =>
    rw [hasEmptyLoop, Bool.or_eq_false_iff] at hloops
    exact ih hvetted.2 hloops.2 hpart
  | star _ ih =>
    rw [hasEmptyLoop, Bool.or_eq_false_iff] at hloops
    exact ih hvetted hloops.2 hpart
  | not _ ih | and _ ih | behind _ ih | action _ ih => exact ih hvetted hloops hpart
  | rule hmem _ ih =>
    obtain ⟨hcheck, hinner⟩ := hvetted
    exact ih (vettedRules_iff.1 hinner _ hmem) (not_hasEmptyLoop_of_checkEmptyLoops hcheck _ hmem)
      hpart

/-- If no grammar in the whole is left recursive, none in a part is. -/
theorem Part.settled {part : Expr α} (h : Part rules e rules' part) (he : e.settled) :
    part.settled := by
  induction h with
  | refl => exact he
  | seq_first _ ih | choice_first _ ih => exact ih he.1
  | seq_second _ ih | choice_second _ ih => exact ih he.2
  | star _ ih | not _ ih | and _ ih | behind _ ih | action _ ih => exact ih he
  | rule hmem _ ih => exact ih (settledRules_iff.1 he.2 _ hmem)

/-! ## Progress -/

mutual

/-- What is repeated in the expression, which stands among the given rules, cannot be empty; no
lookbehind calls one of these rules; and the grammars in it are not left recursive. -/
def progresses : Expr α → List (Rule α) → Prop
  | star body, rules => ¬ Nullable rules body ∧ progresses body rules
  | behind _ body, rules => body.calls = [] ∧ progresses body rules
  | grammar inner, _ => ¬ LeftRecursive inner ∧ progressesRules inner inner
  | seq first second, rules => progresses first rules ∧ progresses second rules
  | choice first second, rules => progresses first rules ∧ progresses second rules
  | not body, rules => progresses body rules
  | and body, rules => progresses body rules
  | action _ body, rules => progresses body rules
  | char _, _ => True
  | set _, _ => True
  | any, _ => True
  | empty, _ => True
  | fail, _ => True
  | openCall _, _ => True
  | ruleCall _, _ => True

/-- `progresses` for the body of each rule. -/
def progressesRules : List (Rule α) → List (Rule α) → Prop
  | [], _ => True
  | ⟨_, body⟩ :: rest, rules => progresses body rules ∧ progressesRules rest rules

end

theorem progressesRules_iff {rules all : List (Rule α)} :
    progressesRules rules all ↔ ∀ r ∈ rules, progresses r.body all := by
  induction rules with
  | nil => simp [progressesRules]
  | cons r rest ih =>
    obtain ⟨name, body⟩ := r
    simp [progressesRules, ih]

/-- No lookbehind in the expression contains a call. -/
def callFreeBehinds : Expr α → Bool
  | behind _ body => body.calls.isEmpty && callFreeBehinds body
  | seq first second => callFreeBehinds first && callFreeBehinds second
  | choice first second => callFreeBehinds first && callFreeBehinds second
  | star body => callFreeBehinds body
  | not body => callFreeBehinds body
  | and body => callFreeBehinds body
  | action _ body => callFreeBehinds body
  | grammar _ => true
  | char _ => true
  | set _ => true
  | any => true
  | empty => true
  | fail => true
  | openCall _ => true
  | ruleCall _ => true

/-- In the grammars of the expression, no rule has a grammar in it or a call in a lookbehind. -/
def plainRules : Expr α → Bool
  | grammar rules => rules.all fun r => r.body.flat && r.body.callFreeBehinds
  | seq first second => plainRules first && plainRules second
  | choice first second => plainRules first && plainRules second
  | star body => plainRules body
  | not body => plainRules body
  | and body => plainRules body
  | behind _ body => plainRules body
  | action _ body => plainRules body
  | char _ => true
  | set _ => true
  | any => true
  | empty => true
  | fail => true
  | openCall _ => true
  | ruleCall _ => true

theorem chains_plainRules : Chains (plainRules (α := α)) (· && ·) (· && ·) where
  seq _ _ := rfl
  choice _ _ := rfl
  seq_assoc := Bool.and_assoc
  choice_assoc := Bool.and_assoc
  star _ h := h
  not _ h := h
  and _ h := h
  behind _ _ h := h
  action _ _ h := h

theorem lt_of_mem_calls {opens : Prop} {size i : Nat} {e : Expr α} (h : e.inScope opens size)
    (hi : i ∈ e.calls) : i < size := by
  induction e with
  | seq first second ih₁ ih₂ | choice first second ih₁ ih₂ =>
    rw [calls, List.mem_append] at hi
    exact hi.elim (ih₁ h.1) (ih₂ h.2)
  | star body ih | not body ih | and body ih | behind width body ih | action a body ih =>
    exact ih h hi
  | ruleCall j => rwa [List.mem_singleton.1 hi]
  | _ => cases hi

theorem calls_eq_nil {opens : Prop} {e : Expr α} (h : e.inScope opens 0) : e.calls = [] :=
  List.eq_nil_iff_forall_not_mem.2 fun i hi => Nat.not_lt_zero i (lt_of_mem_calls h hi)

/-- What leads an expression is in it. -/
theorem Leading.mem_calls {passable : Expr α → Prop} {e part : Expr α} {i : Nat}
    (h : Leading passable e part) (hpart : part = .ruleCall i) : i ∈ e.calls := by
  induction h with
  | refl => rw [hpart, calls, List.mem_singleton]
  | action _ ih | star _ ih | not _ ih | and _ ih => exact ih hpart
  | choice_first _ ih | seq_first _ ih => exact List.mem_append_left _ (ih hpart)
  | choice_second _ ih | seq_second _ _ ih => exact List.mem_append_right _ (ih hpart)

/-! ## What the checks see to -/

/-- A rule without grammars progresses if the check finds no empty loop in it. -/
theorem progresses_of_hasEmptyLoop {rules : List (Rule α)} {e : Expr α} (hflat : e.flat = true)
    (hbehinds : e.callFreeBehinds = true)
    (h : e.hasEmptyLoop (unfold true false (nullableRules rules) rules.length) = false) :
    e.progresses rules := by
  induction e with
  | seq first second ih₁ ih₂ | choice first second ih₁ ih₂ =>
    rw [flat, Bool.and_eq_true] at hflat
    rw [callFreeBehinds, Bool.and_eq_true] at hbehinds
    rw [hasEmptyLoop, Bool.or_eq_false_iff] at h
    exact ⟨ih₁ hflat.1 hbehinds.1 h.1, ih₂ hflat.2 hbehinds.2 h.2⟩
  | star body ih =>
    rw [hasEmptyLoop, Bool.or_eq_false_iff] at h
    refine ⟨fun hnull => ?_, ih hflat hbehinds h.2⟩
    rw [hnull.nullable] at h
    cases h.1
  | behind width body ih =>
    rw [callFreeBehinds, Bool.and_eq_true, List.isEmpty_iff] at hbehinds
    exact ⟨hbehinds.1, ih hflat hbehinds.2 h⟩
  | not body ih | and body ih | action a body ih =>
    have hbody : body.progresses rules := ih hflat hbehinds h
    exact hbody
  | grammar => cases hflat
  | _ => trivial

/-- What has been checked progresses, if the check has looked into everything. -/
theorem progresses_of_checked {e : Expr α} (h : e.checked) (hplain : e.plainRules = true)
    (hscope : e.inScope False 0) : e.progresses [] := by
  induction e with
  | seq first second ih₁ ih₂ | choice first second ih₁ ih₂ =>
    rw [plainRules, Bool.and_eq_true] at hplain
    exact ⟨ih₁ h.1 hplain.1 hscope.1, ih₂ h.2 hplain.2 hscope.2⟩
  | star body ih =>
    obtain ⟨hnull, hbody⟩ := h
    refine ⟨fun hempty => ?_, ih hbody hplain hscope⟩
    rw [nullableIn, hempty.nullable] at hnull
    cases hnull
  | behind width body ih => exact ⟨calls_eq_nil hscope, ih h hplain hscope⟩
  | not body ih | and body ih | action a body ih =>
    have hbody : body.progresses [] := ih h hplain hscope
    exact hbody
  | grammar rules =>
    obtain ⟨hleft, hloops⟩ := h
    simp only [plainRules, List.all_eq_true, Bool.and_eq_true] at hplain
    refine ⟨?_, progressesRules_iff.2 fun r hr => ?_⟩
    · exact not_leftRecursive_of_checkLeftRecursion hleft
        (not_misled_of_flat fun r hr => (hplain r hr).1)
    · exact progresses_of_hasEmptyLoop (hplain r hr).1 (hplain r hr).2
        (not_hasEmptyLoop_of_checkEmptyLoops hloops r hr)
  | _ => trivial

/-- Where rules are not left recursive, what holds of a rule if it does so of those that the rule
may call before it consumes anything, holds of all of them. -/
theorem forall_of_leftCalls {rules : List (Rule α)} (hrec : ¬ LeftRecursive rules)
    {P : Nat → Prop} (h : ∀ i < rules.length,
      (∀ j < rules.length, LeftCalls rules i j → P j) → P i) : ∀ i < rules.length, P i := by
  let before : Fin rules.length → Fin rules.length → Prop :=
    fun j i => TransGen (LeftCalls rules) i j
  have htrans : IsTrans _ before := ⟨fun _ _ _ hab hbc => hbc.trans hab⟩
  have hirrefl : Std.Irrefl before := ⟨fun i hi => hrec ⟨i, hi⟩⟩
  have hwf : WellFounded before := Finite.wellFounded_of_trans_of_irrefl before
  intro i hi
  exact hwf.induction (C := fun i => P i.1) ⟨i, hi⟩ fun i ih =>
    h i.1 i.2 fun j hj hcall => ih ⟨j, hj⟩ (.single hcall)

end Expr

namespace Program

variable {p : Pattern α} {options : CompileOptions} {prog : Program α}

/-- **No round of a repetition ends where it started**, wherever the repetition stands in a pattern
that has been compiled. -/
theorem lt_of_star (hp : p.Built) (hc : compile options p = .ok prog) :
    ∃ root, p.root.resolve p.refs [] = .ok root ∧
      ∀ rules body, Part [] root rules (.star body) →
        ∀ (subject : Array Char) (offset : Nat) (answer : α → Nat → Nat → Option Nat) pos asked
          stop fired,
          Eval { subject, start := offset, answer } rules body pos asked (.matched stop fired) →
            pos < stop := by
  obtain ⟨root, hroot, -⟩ := bind_eq_ok hc
  refine ⟨root, hroot, fun rules body hpart subject offset answer pos asked stop fired h => ?_⟩
  obtain ⟨bound, hb, hnested⟩ := bind_eq_ok hroot
  obtain rfl := eq_of_bindCalls_nil hb
  cases hnested
  have hchecked : p.root.rightNest.checked := (chains_checked.rightNest _).mpr hp.checked
  have hnull := hpart.not_nullable (vetted_of_resolve hroot (hp.inherits inherited_vetted))
    (hasEmptyLoop_of_checked hchecked)
  obtain ⟨hrules, hbody⟩ := hpart.fitted trivial (fitted_of_resolve hroot hp.fitted)
  have hclosed := Setting.closed subject offset answer
  refine Nat.lt_of_le_of_ne (h.forward hclosed hrules hbody) ?_
  rintro rfl
  rw [nullableIn, h.nullable hclosed hrules hbody] at hnull
  cases hnull

/-- A repetition of a rule that is not known yet when the repetition is built. -/
theorem lt_of_star_rule :
    let call : Pattern Unit := ⟨.openCall 0, ["s"]⟩
    let loop : Pattern Unit := ⟨.star (.openCall 0), ["s"]⟩
    let rules : List (Rule Unit) := [⟨"r", .star (.ruleCall 1)⟩, ⟨"s", .char 'a'⟩]
    ∃ p prog, Pattern.ref "s" = .ok call ∧ call.repeated 0 = .ok loop ∧
      Pattern.grammar [("r", loop), ("s", .char 'a')] = .ok p ∧
      compile ⟨true, 30⟩ p = .ok prog ∧ Part [] p.root rules (.star (.ruleCall 1)) ∧
      Eval { subject := #['a'], start := 0, answer := fun _ _ j => some j } rules (.ruleCall 1) 0 []
        (.matched 1 []) ∧ 0 < 1 := by
  intro call loop rules
  let p : Pattern Unit := ⟨.grammar rules, []⟩
  have hcall : Pattern.ref "s" = .ok call := rfl
  have hloop : call.repeated 0 = .ok loop := rfl
  have hp : Pattern.grammar [("r", loop), ("s", .char 'a')] = .ok p := rfl
  have hbuilt : p.Built :=
    .grammar (by simpa using ⟨.repeated (.ref hcall) hloop, .char 'a'⟩) hp
  obtain ⟨prog, hprog⟩ : ∃ prog, compile ⟨true, 30⟩ p = .ok prog := by
    have hok : (compile ⟨true, 30⟩ p).isOk = true := by decide +kernel
    cases hc : compile ⟨true, 30⟩ p with
    | error => rw [hc] at hok; cases hok
    | ok prog => exact ⟨prog, rfl⟩
  have hpart : Part [] p.root rules (.star (.ruleCall 1)) := .rule List.mem_cons_self .refl
  have hround : Eval { subject := #['a'], start := 0, answer := fun _ _ j => some j } rules
      (.ruleCall 1) 0 [] (.matched 1 []) := .ruleCall rfl (.char_ok rfl)
  obtain ⟨root, hroot, hstar⟩ := lt_of_star hbuilt hprog
  obtain rfl : p.root = root := Except.ok.inj hroot
  exact ⟨p, prog, hcall, hloop, hp, hprog, hpart, hround, hstar _ _ hpart _ _ _ _ _ _ _ hround⟩

end Program

end PegMachine
