import PegMachine.Proofs.Expr.Lookbehind
import PegMachine.Proofs.Foldings

/-!
# What patterns can be built

The expression in a pattern is not any expression: it has been put together by the operations on
patterns, which check what they are given.  `Built` says that a pattern comes from these operations
alone.  What all of them keep, `Inherited`, holds of every such pattern (`Built.inherits`).

* `Built.fitted` — the lookbehinds in it are as wide as what they match.
* `Built.inScope` — the grammars in it call their own rules only.
* `Built.movesBack` — the lookbehinds in it move back by something.
* `Built.checked` — what is repeated in it consumes something, as far as `nullable` can tell, and
  the grammars in it have been checked.
-/

set_option autoImplicit false

namespace PegMachine

variable {α : Type}

namespace Pattern

/-- The pattern is put together by the operations on patterns. -/
inductive Built : Pattern α → Prop
  | succeed : Built succeed
  | fail : Built fail
  | char (c : Char) : Built (char c)
  | literal (text : String) : Built (literal text)
  | anyChars (n : Int) : Built (anyChars n)
  | ofSet (s : CharSet) : Built (ofSet s)
  | oneOf (chars : String) : Built (oneOf chars)
  | ranges {rs : List String} {p : Pattern α} (hp : ranges rs = .ok p) : Built p
  | test {p : Pattern α} (h : Built p) : Built p.test
  | testNot {p : Pattern α} (h : Built p) : Built p.testNot
  | behind {p q : Pattern α} (h : Built p) (hq : p.behind = .ok q) : Built q
  | choice {p q : Pattern α} (hp : Built p) (hq : Built q) : Built (choice p q)
  | diff {p q : Pattern α} (hp : Built p) (hq : Built q) : Built (diff p q)
  | seq {p q : Pattern α} (hp : Built p) (hq : Built q) : Built (seq p q)
  | choiceAll {ps : List (Pattern α)} (h : ∀ p ∈ ps, Built p) : Built (choiceAll ps)
  | seqAll {ps : List (Pattern α)} (h : ∀ p ∈ ps, Built p) : Built (seqAll ps)
  | repeated {p q : Pattern α} {n : Int} (h : Built p) (hq : p.repeated n = .ok q) : Built q
  | ref {name : String} {p : Pattern α} (hp : ref name = .ok p) : Built p
  | grammar {rules : List (String × Pattern α)} {p : Pattern α} (h : ∀ r ∈ rules, Built r.2)
      (hp : grammar rules = .ok p) : Built p
  | times {p q : Pattern α} {n : Int} {asRule : Bool} (h : Built p)
      (hq : p.times n asRule = .ok q) : Built q
  | action (a : α) {p : Pattern α} (h : Built p) : Built (action a p)

end Pattern

open PegMachine.Expr

/-! ## What operations keep -/

/-- What operations on patterns put together has the property if what they are given has it, and has
passed their checks. -/
structure Inherited (P : Expr α → Prop) : Prop where
  char : ∀ c, P (.char c)
  set : ∀ s, P (.set s)
  any : P .any
  empty : P .empty
  fail : P .fail
  openCall : ∀ i, P (.openCall i)
  seq : ∀ {e₁ e₂}, P e₁ → P e₂ → P (.seq e₁ e₂)
  choice : ∀ {e₁ e₂}, P e₁ → P e₂ → P (.choice e₁ e₂)
  star : ∀ {e}, P e → e.nullableIn [] = false → P (.star e)
  not : ∀ {e}, P e → P (.not e)
  and : ∀ {e}, P e → P (.and e)
  behind : ∀ {width e}, P e → e.fixedLengthIn [] = some (width + 1) → e.hasActionsIn [] = false →
    P (.behind (width + 1) e)
  action : ∀ {a e}, P e → P (.action a e)
  shift : ∀ n {e}, P e → P (e.shift n)
  made : ∀ {rules bound}, Made rules bound → (∀ r ∈ rules, P r.2.2) → P (.grammar bound)

namespace Inherited

variable {P : Expr α → Prop} (h : Inherited P)
include h

theorem ofSet (s : CharSet) : P (Expr.ofSet s) := by
  rw [Expr.ofSet]
  split
  · exact h.char _
  · exact h.any
  · exact h.set _
  · exact h.set _

theorem seqTimes {body rest : Expr α} (hb : P body) (hr : P rest) (n : Nat) :
    P (Expr.seqTimes body n rest) := by
  induction n with
  | zero => exact hr
  | succ n ih => exact h.seq hb ih

theorem spelled (cs : List Char) : P (Pattern.spelled cs) := by
  induction cs with
  | nil => exact h.empty
  | cons c cs ih =>
    cases cs with
    | nil => exact h.char c
    | cons d cs => exact h.seq (h.char c) ih

theorem anyChars (n : Int) : P (Pattern.anyChars n).root := by
  have hrun := h.seqTimes h.any h.any (n.natAbs - 1)
  rw [Pattern.anyChars]
  split
  · exact h.empty
  · split
    · exact hrun
    · exact h.not hrun

theorem atMost {body : Expr α} (hb : P body) (n : Nat) : P (Pattern.atMost body n) := by
  induction n with
  | zero => exact h.empty
  | succ n ih =>
    cases n with
    | zero => exact h.choice hb h.empty
    | succ n => exact h.choice (h.seq hb ih) h.empty

theorem choicePattern {p q : Pattern α} (hp : P p.root) (hq : P q.root) :
    P (Pattern.choice p q).root :=
  Pattern.choice_cases (motive := fun r => P r.root) h.ofSet hp hq (h.choice hp (h.shift _ hq))

theorem diff {p q : Pattern α} (hp : P p.root) (hq : P q.root) : P (Pattern.diff p q).root :=
  Pattern.diff_cases (motive := fun r => P r.root) h.ofSet (h.seq (h.not (h.shift _ hq)) hp)

theorem seqPattern {p q : Pattern α} (hp : P p.root) (hq : P q.root) :
    P (Pattern.seq p q).root :=
  Pattern.seq_cases (motive := fun r => P r.root) hp hq (h.seq hp (h.shift _ hq))

omit h in
/-- What two patterns keep when they are combined, a list of patterns keeps. -/
theorem foldl {op : Pattern α → Pattern α → Pattern α}
    (hop : ∀ {p q : Pattern α}, P p.root → P q.root → P (op p q).root)
    {ps : List (Pattern α)} (hps : ∀ p ∈ ps, P p.root) {p : Pattern α} (hp : P p.root) :
    P (ps.foldl op p).root := by
  induction ps generalizing p with
  | nil => exact hp
  | cons q ps ih =>
    rw [List.forall_mem_cons] at hps
    exact ih hps.2 (hop hp hps.1)

theorem choiceAll {ps : List (Pattern α)} (hps : ∀ p ∈ ps, P p.root) :
    P (Pattern.choiceAll ps).root := by
  cases ps with
  | nil => exact h.fail
  | cons p ps =>
    rw [List.forall_mem_cons] at hps
    exact foldl h.choicePattern hps.2 hps.1

theorem seqAll {ps : List (Pattern α)} (hps : ∀ p ∈ ps, P p.root) :
    P (Pattern.seqAll ps).root := by
  cases ps with
  | nil => exact h.empty
  | cons p ps =>
    rw [List.forall_mem_cons] at hps
    exact foldl h.seqPattern hps.2 hps.1

theorem repeated {p q : Pattern α} {n : Int} (hp : P p.root) (hq : p.repeated n = .ok q) :
    P q.root := by
  rcases Pattern.of_repeated hq with ⟨-, hnull, rfl⟩ | ⟨k, -, rfl⟩
  · exact h.seqTimes hp (h.star hp hnull) _
  · exact h.atMost hp _

theorem grammar {rules : List (String × Pattern α)} {p : Pattern α}
    (hr : ∀ r ∈ rules, P r.2.root) (hp : Pattern.grammar rules = .ok p) : P p.root := by
  obtain ⟨e, he, hp⟩ := bind_eq_ok hp
  cases hp
  obtain ⟨bound, hmade, rfl⟩ := exists_made_of_ofRules he
  refine h.made hmade fun r hmem => ?_
  obtain ⟨r', hr', rfl⟩ := List.mem_map.1 hmem
  exact hr r' hr'

theorem times {p q : Pattern α} {n : Int} {asRule : Bool} (hp : P p.root)
    (hq : p.times n asRule = .ok q) : P q.root := by
  rcases Pattern.times_cases hq with hq | hq
  · rcases Pattern.of_times hq with rfl | rfl
    · exact hp
    · exact h.seqTimes hp hp _
  · -- the pattern is the second rule of a grammar, and the first one only calls it
    have hcalls : ∀ p ∈ List.replicate n.toNat (⟨.openCall 0, ["p"]⟩ : Pattern α), P p.root := by
      intro p hp
      rw [List.eq_of_mem_replicate hp]
      exact h.openCall 0
    exact h.grammar (by simpa using ⟨h.seqAll hcalls, hp⟩) hq

end Inherited

namespace Pattern

/-- **What the operations keep holds of all patterns that they build.** -/
theorem Built.inherits {P : Expr α → Prop} (h : Inherited P) {p : Pattern α} (hp : Built p) :
    P p.root := by
  induction hp with
  | succeed => exact h.empty
  | fail => exact h.fail
  | char c => exact h.char c
  | literal text => exact h.spelled _
  | anyChars n => exact h.anyChars n
  | ofSet s => exact h.ofSet s
  | oneOf chars => exact h.ofSet _
  | ranges hp =>
    obtain ⟨s, -, hp⟩ := bind_eq_ok hp
    cases hp
    exact h.ofSet s
  | test _ ih => exact h.and ih
  | testNot _ ih => exact h.not ih
  | behind _ hq ih =>
    obtain ⟨width, hwidth, hactions, rfl⟩ := of_behind hq
    exact h.behind ih hwidth hactions
  | choice _ _ ihp ihq => exact h.choicePattern ihp ihq
  | diff _ _ ihp ihq => exact h.diff ihp ihq
  | seq _ _ ihp ihq => exact h.seqPattern ihp ihq
  | choiceAll _ ih => exact h.choiceAll ih
  | seqAll _ ih => exact h.seqAll ih
  | repeated _ hq ih => exact h.repeated ih hq
  | ref hp =>
    rw [of_ref hp]
    exact h.openCall 0
  | grammar _ hp ih => exact h.grammar ih hp
  | times _ hq ih => exact h.times ih hq
  | action a _ ih => exact h.action ih

end Pattern

/-! ## What is inherited -/

theorem inherited_fitted : Inherited (fitted (α := α)) where
  char _ := trivial
  set _ := trivial
  any := trivial
  empty := trivial
  fail := trivial
  openCall _ := trivial
  seq h₁ h₂ := ⟨h₁, h₂⟩
  choice h₁ h₂ := ⟨h₁, h₂⟩
  star h _ := h
  not h := h
  and h := h
  behind h hwidth _ := ⟨by rwa [fixedLengthIn_nil] at hwidth, h⟩
  action h := h
  shift n _ h := by
    rw [shift_eq_substCalls]
    exact fitted_substCalls (fun _ => by rw [Expr.fitted]; trivial) (fun _ => rfl) h
  made hmade h := by
    refine fittedRules_iff.2 fun r hr => ?_
    obtain ⟨named, hnamed, hres⟩ := (exists_of_resolveRules hmade.resolved).2 r hr
    exact fitted_of_resolve hres (h named hnamed)

theorem inherited_inScope : Inherited fun e : Expr α => e.inScope True 0 where
  char _ := trivial
  set _ := trivial
  any := trivial
  empty := trivial
  fail := trivial
  openCall _ := trivial
  seq h₁ h₂ := ⟨h₁, h₂⟩
  choice h₁ h₂ := ⟨h₁, h₂⟩
  star h _ := h
  not h := h
  and h := h
  behind h _ _ := h
  action h := h
  shift n _ h := by
    rw [shift_eq_substCalls]
    exact inScope_substCalls h fun _ _ => trivial
  made hmade h := hmade.inScope h

theorem inherited_movesBack : Inherited (movesBack (α := α)) where
  char _ := trivial
  set _ := trivial
  any := trivial
  empty := trivial
  fail := trivial
  openCall _ := trivial
  seq h₁ h₂ := ⟨h₁, h₂⟩
  choice h₁ h₂ := ⟨h₁, h₂⟩
  star h _ := h
  not h := h
  and h := h
  behind h _ _ := ⟨Nat.succ_ne_zero _, h⟩
  action h := h
  shift n _ h := by
    rw [shift_eq_substCalls]
    exact movesBack_substCalls (fun _ => by rw [Expr.movesBack]; trivial) h
  made hmade h := by
    refine movesBackRules_iff.2 fun r hr => ?_
    obtain ⟨named, hnamed, hres⟩ := (exists_of_resolveRules hmade.resolved).2 r hr
    exact movesBack_of_resolve hres (h named hnamed)

namespace Expr

/-- What is repeated in the expression is not nullable, as long as nothing is known of open calls,
and the grammars in it have passed the checks of their rules. -/
def checked : Expr α → Prop
  | star body => body.nullableIn [] = false ∧ checked body
  | grammar rules => checkLeftRecursion rules = .ok () ∧ checkEmptyLoops rules = .ok ()
  | seq first second => checked first ∧ checked second
  | choice first second => checked first ∧ checked second
  | not body => checked body
  | and body => checked body
  | behind _ body => checked body
  | action _ body => checked body
  | char _ => True
  | set _ => True
  | any => True
  | empty => True
  | fail => True
  | openCall _ => True
  | ruleCall _ => True

theorem chains_checked : Chains (checked (α := α)) And And where
  seq _ _ := rfl
  choice _ _ := rfl
  seq_assoc _ _ _ := propext and_assoc
  choice_assoc _ _ _ := propext and_assoc
  star e h := by rw [checked, checked, nullableIn, (chains_nullable _).rightNest, h, nullableIn]
  not _ h := h
  and _ h := h
  behind _ _ h := h
  action _ _ h := h

theorem checked_substCalls {f : Nat → Expr α} (hf : ∀ i, (f i).checked)
    (hnull : ∀ i, (f i).nullableIn [] = false) {e : Expr α} (h : checked e) :
    checked (e.substCalls f) := by
  induction e with
  | seq first second ih₁ ih₂ | choice first second ih₁ ih₂ => exact ⟨ih₁ h.1, ih₂ h.2⟩
  | star body ih => exact ⟨(nullable_substCalls hnull body).trans h.1, ih h.2⟩
  | not body ih | and body ih | action a body ih | behind width body ih =>
    have hbody : checked (body.substCalls f) := ih h
    exact hbody
  | openCall i => exact hf i
  | _ => exact h

end Expr

theorem inherited_checked : Inherited (checked (α := α)) where
  char _ := trivial
  set _ := trivial
  any := trivial
  empty := trivial
  fail := trivial
  openCall _ := trivial
  seq h₁ h₂ := ⟨h₁, h₂⟩
  choice h₁ h₂ := ⟨h₁, h₂⟩
  star h hnull := ⟨hnull, h⟩
  not h := h
  and h := h
  behind h _ _ := h
  action h := h
  shift n _ h := by
    rw [shift_eq_substCalls]
    exact checked_substCalls (fun _ => by rw [Expr.checked]; trivial) (fun _ => rfl) h
  made hmade _ := ⟨hmade.left, hmade.loops⟩

namespace Pattern

variable {p : Pattern α}

/-- **The lookbehinds of a pattern are as wide as what they match.** -/
theorem Built.fitted (h : Built p) : p.root.fitted := h.inherits inherited_fitted

/-- **The grammars of a pattern call their own rules only.** -/
theorem Built.inScope (h : Built p) : p.root.inScope True 0 := h.inherits inherited_inScope

theorem Built.checked (h : Built p) : p.root.checked := h.inherits inherited_checked

/-- **The lookbehinds of a pattern are not of width zero.** -/
theorem Built.movesBack (h : Built p) : p.root.movesBack := h.inherits inherited_movesBack

end Pattern
end PegMachine
