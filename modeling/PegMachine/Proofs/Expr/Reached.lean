import Mathlib.Algebra.BigOperators.Group.Finset.Basic
import PegMachine.Proofs.Expr.Ways

/-!
# Actions in reach

Whether an expression can run an action is found by going through the rules that its calls lead to.
The search is bounded by the number of calls that there are, and gives a careful answer if it has to
stop.  It never has to: each step takes a rule from the list of those due, and a rule is followed by
what it calls only once, so that with each step there is one call less to come (`callsLeft`).

* `Reached` — the rules that calls lead to.
* `hasActionsIn_eq_false_iff` — the search finds an action exactly if there is one to find.
-/

set_option autoImplicit false

namespace PegMachine.Expr

variable {α : Type} {rules : List (Rule α)} {e : Expr α}

/-- A rule that the calls in the expression lead to, be it through other rules. -/
inductive Reached (rules : List (Rule α)) (e : Expr α) : Nat → Prop
  | call {i} (hi : i ∈ e.calls) : Reached rules e i
  | next {i j r} (h : Reached rules e i) (hr : rules[i]? = some r) (hj : j ∈ r.body.calls) :
      Reached rules e j

/-- Calls do not lead out of a quiet set. -/
theorem Reached.mem {V : Nat → Prop} {i : Nat} (h : Reached rules e i) (hV : Quiet rules V)
    (hcalls : ∀ j ∈ e.calls, V j) : V i := by
  induction h with
  | call hi => exact hcalls _ hi
  | next _ hr hj ih => exact (hV _ ih _ hr).2 _ hj

/-! ## The steps that are needed -/

/-- The number of calls in a rule. -/
def callsOf (rules : List (Rule α)) (i : Nat) : Nat :=
  (rules[i]?).elim 0 fun r => r.body.calls.length

/-- The number of calls in the rules that have not been seen yet. -/
def callsLeft (rules : List (Rule α)) (seen : List Nat) : Nat :=
  ∑ i ∈ Finset.range rules.length \ seen.toFinset, callsOf rules i

theorem callsLeft_cons {seen : List Nat} {i : Nat} {r : Rule α} (hr : rules[i]? = some r)
    (hi : i ∉ seen) :
    r.body.calls.length + callsLeft rules (i :: seen) = callsLeft rules seen := by
  obtain ⟨hlt, -⟩ := List.getElem?_eq_some_iff.1 hr
  have hmem : i ∈ Finset.range rules.length \ seen.toFinset := by simp [hlt, hi]
  have hone : callsOf rules i = r.body.calls.length := by rw [callsOf, hr]; rfl
  rw [callsLeft, callsLeft, List.toFinset_cons, Finset.sdiff_insert, ← hone,
    Finset.add_sum_erase _ _ hmem]

theorem callsLeft_nil (rules : List (Rule α)) :
    callsLeft rules [] = (rules.flatMap fun r => r.body.calls).length := by
  rw [callsLeft, List.toFinset_nil, Finset.sdiff_empty]
  induction rules with
  | nil => rfl
  | cons r rest ih =>
    rw [List.length_cons, Finset.sum_range_succ', List.flatMap_cons, List.length_append, ← ih,
      Nat.add_comm]
    rfl

/-- With a step for each call that is due or left, the search does not have to stop. -/
theorem actionReached_eq_false {V : Nat → Prop} (hV : Quiet rules V) {steps : Nat}
    {due seen : List Nat} (hdue : ∀ i ∈ due, V i)
    (hsteps : due.length + callsLeft rules seen ≤ steps) :
    actionReached rules steps due seen = false := by
  induction steps generalizing due seen with
  | zero =>
    cases due with
    | nil => rw [actionReached]
    | cons i due => simp at hsteps
  | succ steps ih =>
    cases due with
    | nil => rw [actionReached]
    | cons i due =>
      rw [List.forall_mem_cons] at hdue
      rw [List.length_cons] at hsteps
      rw [actionReached]
      split
      · exact ih hdue.2 (by omega)
      · next hseen =>
        split
        · exact ih hdue.2 (by omega)
        · next r hr =>
          have hleft := callsLeft_cons hr hseen
          obtain ⟨hwrites, hcalls⟩ := hV i hdue.1 r hr
          rw [hwrites, Bool.false_or]
          refine ih (List.forall_mem_append.2 ⟨hcalls, hdue.2⟩) ?_
          rw [List.length_append]
          omega

/-! ## What is found -/

/-- **The search finds an action exactly if there is one**, in the expression or in a rule that its
calls lead to. -/
theorem hasActionsIn_eq_false_iff : e.hasActionsIn rules = false ↔
    e.writesAction = false ∧
      ∀ i r, Reached rules e i → rules[i]? = some r → r.body.writesAction = false := by
  rw [hasActionsIn, Bool.or_eq_false_iff]
  refine and_congr_right fun _ => ⟨fun h i r hi hr => ?_, fun h => ?_⟩
  · obtain ⟨V, hcalls, -, hquiet⟩ := exists_quiet_of_actionReached h
    have hV : Quiet rules V := fun j hj r hr => hquiet j hj (by simp) r hr
    exact (hV i (hi.mem hV hcalls) r hr).1
  · have hV : Quiet rules (Reached rules e) := fun i hi r hr =>
      ⟨h i r hi hr, fun j hj => .next hi hr hj⟩
    refine actionReached_eq_false hV (fun i hi => .call hi) ?_
    rw [callsLeft_nil, List.length_append]

end PegMachine.Expr
