import PegMachine.Program
import PegMachine.Proofs.Answers
import PegMachine.Proofs.Expr.Asking
import PegMachine.Proofs.Expr.Reached

/-!
# Actions in lookbehinds

A lookbehind is refused if an action is written in its body.  It is built before the references in
it are bound, so what is looked at is the body alone; and later on nobody looks again.  The rules
that the body comes to call may have actions, then, and these are asked while looking back
(`asks_lookingBack`).  That is the only way in which actions get into lookbehinds: what is done to
the body after the check writes no action into it.

* `mute` — no action is written in the body of a lookbehind.
* `Resolved.mute` — this is so in all that patterns are resolved to.
* `actionsOnlyCalled_of_resolved` — an action is in reach exactly if a rule that is called has one.
-/

set_option autoImplicit false

namespace PegMachine

open PegMachine.Expr

variable {α : Type}

namespace Expr

/-! ## What is written -/

mutual

/-- No action is written in the body of a lookbehind. -/
def mute : Expr α → Prop
  | behind _ body => body.writesAction = false ∧ mute body
  | seq first second => mute first ∧ mute second
  | choice first second => mute first ∧ mute second
  | star body => mute body
  | not body => mute body
  | and body => mute body
  | action _ body => mute body
  | grammar rules => muteRules rules
  | char _ => True
  | set _ => True
  | any => True
  | empty => True
  | fail => True
  | openCall _ => True
  | ruleCall _ => True

/-- `mute` for the body of each rule. -/
def muteRules : List (Rule α) → Prop
  | [] => True
  | ⟨_, body⟩ :: rest => mute body ∧ muteRules rest

end

theorem muteRules_iff {rules : List (Rule α)} : muteRules rules ↔ ∀ r ∈ rules, mute r.body := by
  induction rules with
  | nil => simp [muteRules]
  | cons r rest ih =>
    obtain ⟨name, body⟩ := r
    simp [muteRules, ih]

theorem mute_substCalls {f : Nat → Expr α} (hf : ∀ i, (f i).mute)
    (hwrites : ∀ i, (f i).writesAction = false) {e : Expr α} (h : e.mute) :
    (e.substCalls f).mute := by
  induction e with
  | seq first second ih₁ ih₂ | choice first second ih₁ ih₂ => exact ⟨ih₁ h.1, ih₂ h.2⟩
  | star body ih | not body ih | and body ih | action a body ih =>
    have hbody : (body.substCalls f).mute := ih h
    exact hbody
  | behind width body ih => exact ⟨(writesAction_substCalls hwrites body).trans h.1, ih h.2⟩
  | openCall i => exact hf i
  | _ => exact h

theorem chains_writesAction : Chains (writesAction (α := α)) (· || ·) (· || ·) where
  seq _ _ := rfl
  choice _ _ := rfl
  seq_assoc := Bool.or_assoc
  choice_assoc := Bool.or_assoc
  star _ h := h
  not _ h := h
  and _ h := h
  behind _ _ h := h
  action _ _ _ := rfl

theorem chains_mute : Chains (mute (α := α)) And And where
  seq _ _ := rfl
  choice _ _ := rfl
  seq_assoc _ _ _ := propext and_assoc
  choice_assoc _ _ _ := propext and_assoc
  star _ h := h
  not _ h := h
  and _ h := h
  behind width e h := by rw [mute, mute, chains_writesAction.rightNest, h]
  action _ _ h := h

theorem mute_of_resolve {refs names : List String} {e e' : Expr α}
    (hr : e.resolve refs names = .ok e') (h : e.mute) : e'.mute := by
  obtain ⟨-, rfl⟩ := of_resolve hr
  exact (chains_mute.rightNest _).mpr
    (mute_substCalls (fun _ => by rw [mute]; trivial) (fun _ => rfl) h)

variable {rules rules' : List (Rule α)} {e part : Expr α}

theorem Part.mute (h : Part rules e rules' part) (he : e.mute) : part.mute := by
  induction h with
  | refl => exact he
  | seq_first _ ih | choice_first _ ih => exact ih he.1
  | seq_second _ ih | choice_second _ ih => exact ih he.2
  | star _ ih | not _ ih | and _ ih | action _ ih => exact ih he
  | behind _ ih => exact ih he.2
  | rule hmem _ ih =>
    have hinner : muteRules _ := he
    exact ih (muteRules_iff.1 hinner _ hmem)

end Expr

/-- The check of a lookbehind sees to it, and what is done to a pattern later on keeps it. -/
theorem inherited_mute : Inherited (mute (α := α)) where
  char _ := trivial
  set _ := trivial
  any := trivial
  empty := trivial
  fail := trivial
  openCall _ := trivial
  seq h₁ h₂ := ⟨h₁, h₂⟩
  choice h₁ h₂ := ⟨h₁, h₂⟩
  star h _ := h
  not h := h
  and h := h
  behind h _ hactions := ⟨(hasActionsIn_eq_false_iff.1 hactions).1, h⟩
  action h := h
  shift n _ h := by
    rw [shift_eq_substCalls]
    exact mute_substCalls (fun _ => by rw [Expr.mute]; trivial) (fun _ => rfl) h
  made hmade h := by
    refine muteRules_iff.2 fun r hr => ?_
    obtain ⟨named, hnamed, hres⟩ := (exists_of_resolveRules hmade.resolved).2 r hr
    exact mute_of_resolve hres (h named hnamed)

variable {rules : List (Rule α)} {e body : Expr α} {width : Nat}

/-- **No action is written in the body of a lookbehind**, in anything that patterns are resolved
to. -/
theorem Resolved.mute (h : Resolved rules e) : e.mute := by
  cases h with
  | pattern hp hroot hpart =>
    exact hpart.mute (mute_of_resolve hroot (hp.inherits inherited_mute))
  | rule hnamed hbound hr hpart =>
    obtain ⟨p, hp, hres⟩ := (exists_built_of_resolveRules hnamed hbound).2 _ hr
    exact hpart.mute (mute_of_resolve hres (hp.inherits inherited_mute))

/-! ## What is called -/

/-- How actions come into the body of a lookbehind, when calls in it lead to the given rules. -/
structure ActionsOnlyCalled (rules : List (Rule α)) (body : Expr α) : Prop where
  /-- None is written in it, nor in a grammar in it. -/
  writes : body.writesAction = false
  /-- One is in reach exactly if it is written in a rule that the calls in the body lead to. -/
  reached : body.hasActionsIn rules = false ↔
    ∀ i r, Reached rules body i → rules[i]? = some r → r.body.writesAction = false
  /-- If none is in reach, none is asked while looking back. -/
  asked : body.hasActionsIn rules = false → ∀ subject offset answer pos asked result,
    Eval { subject, start := offset, answer } rules body pos asked result → asked = []
  /-- If one is in reach, it may be asked, but is never part of the match. -/
  fired : ∀ subject offset answer pos asked stop fired,
    Eval { subject, start := offset, answer } rules body pos asked (.matched stop fired) →
      fired = []

/-- **Actions get into lookbehinds only through calls** of rules that have them. -/
theorem actionsOnlyCalled_of_resolved (h : Resolved rules (.behind width body)) :
    ActionsOnlyCalled rules body := by
  obtain ⟨hwrites, -⟩ := h.mute
  obtain ⟨hrules, hlength, hfitted⟩ := h.fitted
  refine ⟨hwrites, ?_, fun ha subject offset answer pos asked result hev => ?_,
    fun subject offset answer pos asked stop fired hev => ?_⟩
  · rw [hasActionsIn_eq_false_iff, and_iff_right hwrites]
  · exact hev.asked_eq_nil (Setting.closed subject offset answer) ha
  · -- what has a fixed length by itself has actions only where it looks around
    have hway := hev.way (Setting.closed subject offset answer)
    exact ((hway.le_aux hrules hfitted).2 _ 0 _ (by rwa [unfoldLength_zero])).2

/-- A letter in front of what a rule matches, before a letter with an action. -/
theorem actionsOnlyCalled_of_resolved_rules :
    let call : Pattern String := ⟨.openCall 0, ["r"]⟩
    let before : Pattern String := ⟨.behind 1 (.seq (.char 'a') (.and (.openCall 0))), ["r"]⟩
    let named : List (String × Pattern String) :=
      [("s", .seq before (.action "x" (.char 'b'))), ("r", .char 'b')]
    let body : Expr String := .seq (.char 'a') (.and (.ruleCall 1))
    let rules : List (Rule String) :=
      [⟨"s", .seq (.behind 1 body) (.action "x" (.char 'b'))⟩, ⟨"r", .char 'b'⟩]
    (Pattern.seq (.char 'a') call.test).behind = .ok before ∧
      resolveRules ["s", "r"] (named.map fun (name, p) => (name, p.refs, p.root)) = .ok rules ∧
      ActionsOnlyCalled rules body ∧ body.hasActionsIn rules = false := by
  intro call before named body rules
  have hbefore : (Pattern.seq (.char 'a') call.test).behind = .ok before := rfl
  have hcall : call.Built := .ref (show Pattern.ref "r" = .ok call from rfl)
  have hbuilt : ∀ x ∈ named, x.2.Built := by
    simpa [named] using
      ⟨.seq (.behind (.seq (.char 'a') (.test hcall)) hbefore) (.action "x" (.char 'b')), .char 'b'⟩
  have hbound : resolveRules ["s", "r"] (named.map fun (name, p) => (name, p.refs, p.root))
      = .ok rules := rfl
  have hactions := actionsOnlyCalled_of_resolved
    (.rule hbuilt hbound List.mem_cons_self (.seq_first .refl))
  refine ⟨hbefore, hbound, hactions, hactions.reached.2 fun i r hi hr => ?_⟩
  -- the second rule is called, and calls nothing
  have hquiet : Quiet rules (· = 1) := by
    rintro i rfl r hr
    cases hr
    exact ⟨rfl, nofun⟩
  obtain rfl : i = 1 := hi.mem hquiet fun j hj => List.mem_singleton.1 hj
  cases hr
  rfl

/-- A letter in front of what a rule matches, where the rule has an action. -/
theorem asks_lookingBack :
    let call : Pattern String := ⟨.openCall 0, ["r"]⟩
    let before : Pattern String := ⟨.behind 1 (.seq (.char 'a') (.and (.openCall 0))), ["r"]⟩
    let body : Expr String := .seq (.char 'a') (.and (.ruleCall 1))
    let rules : List (Rule String) := [⟨"s", .behind 1 body⟩, ⟨"r", .action "x" (.char 'b')⟩]
    let p : Pattern String := ⟨.grammar rules, []⟩
    let S : Setting String :=
      { subject := #['a', 'b'], start := 0, answer := fun _ _ stop => some stop }
    (Pattern.seq (.char 'a') call.test).behind = .ok before ∧
      Pattern.grammar [("s", before), ("r", .action "x" (.char 'b'))] = .ok p ∧
      (∃ prog, Program.compile ⟨true, 20⟩ p = .ok prog) ∧
      Resolved rules (.behind 1 body) ∧ body.hasActionsIn rules = true ∧
      Eval S rules (.behind 1 body) 1 [⟨"x", 1, 2⟩] (.matched 1 []) := by
  intro call before body rules p S
  have hbefore : (Pattern.seq (.char 'a') call.test).behind = .ok before := rfl
  have hgrammar : Pattern.grammar [("s", before), ("r", .action "x" (.char 'b'))] = .ok p := rfl
  have hcall : call.Built := .ref (show Pattern.ref "r" = .ok call from rfl)
  have hbuilt : p.Built := by
    refine .grammar ?_ hgrammar
    simpa using ⟨.behind (.seq (.char 'a') (.test hcall)) hbefore, .action "x" (.char 'b')⟩
  obtain ⟨prog, hprog⟩ : ∃ prog, Program.compile ⟨true, 20⟩ p = .ok prog := by
    have hok : (Program.compile ⟨true, 20⟩ p).isOk = true := by decide +kernel
    cases hc : Program.compile ⟨true, 20⟩ p with
    | error => rw [hc] at hok; cases hok
    | ok prog => exact ⟨prog, rfl⟩
  refine ⟨hbefore, hgrammar, ⟨prog, hprog⟩,
    .pattern hbuilt rfl (.rule List.mem_cons_self .refl), rfl, ?_⟩
  exact .behind (Nat.le_refl 1) (.seq_ok (.class_ok rfl rfl rfl)
    (.and_ok (.ruleCall rfl (.action_ok (.class_ok rfl rfl rfl) rfl (Nat.le_refl 2)
      (Nat.le_refl 2)))))

end PegMachine
