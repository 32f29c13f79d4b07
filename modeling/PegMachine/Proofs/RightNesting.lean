import PegMachine.Proofs.Expr.Chains
import PegMachine.Proofs.GrammarMeaning
import PegMachine.Proofs.LookbehindActions

/-!
# What resolving does to a pattern

Resolving a pattern binds its calls by name and nests its chains to the right.  It does nothing
else: the operands of chains stay in their order, the meaning is the one that the pattern has with
these rules for its names, and a pattern without open calls is told the same of as before.  Once
resolved, it stays as it is.

* `inherited_grammarsNested` — the grammars in a pattern are nested to the right already.
* `Expr.sameAnswers_rightNest` — what is told of an expression.
* `Pattern.nestedForm_of_resolve` — all of it.
-/

set_option autoImplicit false

namespace PegMachine

open PegMachine.Expr

variable {α : Type}

namespace Expr

/-- All questions have the same answers for both expressions, whatever the rules. -/
structure SameAnswers (e e' : Expr α) : Prop where
  nullable : ∀ rules, e'.nullableIn rules = e.nullableIn rules
  noFail : ∀ rules, e'.noFailIn rules = e.noFailIn rules
  headFail : ∀ rules, e'.headFailIn rules = e.headFailIn rules
  fixedLength : ∀ rules, e'.fixedLengthIn rules = e.fixedLengthIn rules
  hasActions : ∀ rules, e'.hasActionsIn rules = e.hasActionsIn rules

/-- **Nesting to the right does not change what is told of an expression.** -/
theorem sameAnswers_rightNest (e : Expr α) : SameAnswers e e.rightNest where
  nullable _ := (chains_nullable _).rightNest e
  noFail _ := (chains_noFail _).rightNest e
  headFail _ := congrArg Prod.snd ((chains_headFail _ _).rightNest e)
  fixedLength _ := (chains_fixedLength _ _).rightNest e
  hasActions _ := by
    rw [hasActionsIn, chains_writesAction.rightNest, chains_calls.rightNest, hasActionsIn]

/-- Where what is put in the place of open calls has none, none is left. -/
theorem openCalls_substCalls {f : Nat → Expr α} (hf : ∀ i, (f i).openCalls = []) (e : Expr α) :
    (e.substCalls f).openCalls = [] := by
  induction e with
  | seq first second ih₁ ih₂ | choice first second ih₁ ih₂ =>
    rw [substCalls, openCalls, ih₁, ih₂, List.append_nil]
  | star body ih | not body ih | and body ih | behind width body ih | action a body ih => exact ih
  | openCall i => exact hf i
  | _ => rfl

/-- What resolving comes to is nested to the right. -/
theorem rightNested_of_resolve {refs names : List String} {e e' : Expr α}
    (hr : e.resolve refs names = .ok e') (h : e.grammarsNested) : e'.rightNested := by
  obtain ⟨-, rfl⟩ := of_resolve hr
  refine rightNested_rightNest (grammarsNested_substCalls (fun _ => ?_) h)
  rw [grammarsNested]
  trivial

/-- An expression that has no open calls and is nested to the right is resolved. -/
theorem resolve_eq_self {e : Expr α} (hclosed : e.openCalls = []) (h : e.rightNested)
    (refs names : List String) : e.resolve refs names = .ok e := by
  have hbind : bindCalls refs names e = .ok e := by
    rw [bindCalls_eq, hclosed]
    exact congrArg Except.ok (substCalls_eq_self hclosed _)
  rw [resolve, hbind]
  exact congrArg Except.ok (rightNest_eq_self h)

end Expr

theorem inherited_grammarsNested : Inherited (grammarsNested (α := α)) where
  char _ := trivial
  set _ := trivial
  any := trivial
  empty := trivial
  fail := trivial
  openCall _ := trivial
  seq h₁ h₂ := ⟨h₁, h₂⟩
  choice h₁ h₂ := ⟨h₁, h₂⟩
  star h _ := h
  not h := h
  and h := h
  behind h _ _ := h
  action h := h
  shift n _ h := by
    rw [shift_eq_substCalls]
    exact grammarsNested_substCalls (fun _ => by rw [grammarsNested]; trivial) h
  made hmade h := by
    refine rightNestedRules_iff.2 fun r hr => ?_
    obtain ⟨named, hnamed, hres⟩ := (exists_of_resolveRules hmade.resolved).2 r hr
    exact rightNested_of_resolve hres (h named hnamed)

namespace Pattern

/-- The expression is what the pattern becomes among rules of the given names. -/
structure NestedForm (names : List String) (p : Pattern α) (root : Expr α) : Prop where
  /-- No sequence starts with a sequence and no choice with a choice, in grammars neither. -/
  nested : root.rightNested
  /-- What the pattern refers to are rules. -/
  named : ∀ i ∈ p.root.openCalls, p.nameAt i ∈ names
  /-- Every chain has the same operands in the same order, with calls of the rules of these names in
  the place of open calls, and grammars as they are. -/
  operands : root.flatten = p.root.flatten.substCalls fun i => .ruleCall (names.idxOf (p.nameAt i))
  /-- No call is open. -/
  closed : root.openCalls = []
  /-- All calls are calls of rules that there are, in the grammars as well. -/
  inScope : root.inScope False names.length
  /-- To resolve it again, among whatever rules, changes nothing. -/
  again : ∀ refs' names', root.resolve refs' names' = .ok root
  /-- It means what the pattern does when its names mean what the rules do. -/
  meaning : ∀ (S : Setting α) rules, Eval S rules root
    = p.meaning S fun name => Eval S rules (.ruleCall (names.idxOf name))
  /-- What is told of it is what is told of the pattern, if that has no open calls. -/
  answers : p.root.openCalls = [] → SameAnswers p.root root

/-- **Resolving a pattern binds its calls and nests its chains to the right, and nothing else.** -/
theorem nestedForm_of_resolve {p : Pattern α} (hp : p.Built) {names : List String} {root : Expr α}
    (h : p.root.resolve p.refs names = .ok root) : NestedForm names p root := by
  obtain ⟨hnamed, hroot⟩ := of_resolve h
  have hnested := rightNested_of_resolve h (hp.inherits inherited_grammarsNested)
  have hclosed : root.openCalls = [] := by
    rw [hroot, chains_openCalls.rightNest]
    exact openCalls_substCalls (fun _ => rfl) _
  refine ⟨hnested, hnamed, ?_, hclosed, inScope_of_resolve h hp.inScope,
    resolve_eq_self hclosed hnested, fun S rules => ?_, ?_⟩
  · rw [hroot, flatten_rightNest]
    exact flatten_substCalls (fun _ => rfl) p.root
  · rw [hroot]
    exact eval_boundTo rules names hp.inScope
  · intro hopen
    rw [hroot, substCalls_eq_self hopen]
    exact sameAnswers_rightNest p.root

/-- A sequence of two sequences, each of which ends with a call, and one without calls after a
choice of two choices. -/
theorem nestedForm_of_resolve_pairs :
    let call : Pattern String := ⟨.openCall 0, ["b"]⟩
    let pair : Pattern String := .seq (.char 'a') call
    let other : Pattern String := .choice (.choice pair (.action "x" (.char 'c'))) (.char 'd')
    let closed : Pattern String :=
      .seq (.seq (.action "x" (.char 'a')) (.action "y" (.char 'b'))) (.char 'c')
    let names := ["s", "b"]
    let pairRoot : Expr String := .seq (.char 'a') (.ruleCall 1)
    let root : Expr String := .seq (.char 'a') (.seq (.ruleCall 1) (.seq (.char 'a')
      (.seq (.ruleCall 1) (.choice pairRoot (.choice (.action "x" (.char 'c')) (.char 'd'))))))
    let closedRoot : Expr String :=
      .seq (.action "x" (.char 'a')) (.seq (.action "y" (.char 'b')) (.char 'c'))
    let p := (pair.seq pair).seq other
    p.root.resolve p.refs names = .ok root ∧ NestedForm names p root ∧
      closed.root.openCalls = [] ∧ closed.root.resolve closed.refs names = .ok closedRoot ∧
      NestedForm names closed closedRoot := by
  intro call pair other closed names pairRoot root closedRoot p
  have hpair : pair.Built := .seq (.char 'a') (.ref (show Pattern.ref "b" = .ok call from rfl))
  have hp : p.Built := .seq (.seq hpair hpair)
    (.choice (.choice hpair (.action "x" (.char 'c'))) (.char 'd'))
  have hclosed : closed.Built :=
    .seq (.seq (.action "x" (.char 'a')) (.action "y" (.char 'b'))) (.char 'c')
  have hroot : p.root.resolve p.refs names = .ok root := rfl
  have hclosedRoot : closed.root.resolve closed.refs names = .ok closedRoot := rfl
  exact ⟨hroot, nestedForm_of_resolve hp hroot, rfl, hclosedRoot,
    nestedForm_of_resolve hclosed hclosedRoot⟩

end Pattern
end PegMachine
