import Mathlib.Data.List.Perm.Subperm
import Mathlib.Logic.Relation
import PegMachine.Proofs.Expr.Queries

/-!
# Left recursion

A rule is left recursive if it may call itself before anything is consumed, be it by way of other
rules.  This file says so without following calls (`LeftRecursive`): what may be empty is the least
solution of what `nullable` says of each kind of expression (`Nullable`), a call leads a rule if
only what may be empty stands before it, and the rules are left recursive if leading calls go round
in a circle.

`Expr.nullable` follows calls to a bounded depth instead.  Where nothing is left recursive that is
deep enough.

* `Nullable.nullable` — the answer of `nullable` is yes for whatever may be empty.
* `nullable_of_nullableIn_grammar` — for a grammar it is yes for nothing else, if neither the
  grammar nor one inside it is left recursive (`settled`).
* `Trail.left_ne_zero` — a way that enters no rule twice ends before there are no rules left.
-/

set_option autoImplicit false

namespace PegMachine

open Relation

/-! ## Ways from rule to rule -/

/-- A way along calls that enters no rule twice and has come to rule `i`: the rules that it is in,
the last one first, and how many more it could enter, plus one. -/
structure Trail (calls : Nat → Nat → Prop) (size i : Nat) (path : List Nat) (left : Nat) :
    Prop where
  leads : ∀ k ∈ path, ReflTransGen calls k i
  nodup : path.Nodup
  lt : ∀ k ∈ path, k < size
  length : path.length + left = size + 1

namespace Trail

variable {calls : Nat → Nat → Prop} {size i j left : Nat} {path : List Nat}

theorem start (hi : i < size) : Trail calls size i [i] size where
  leads k hk := by rw [List.mem_singleton.1 hk]
  nodup := by simp
  lt k hk := by rwa [List.mem_singleton.1 hk]
  length := by rw [List.length_singleton, Nat.add_comm]

theorem step (h : Trail calls size i path (left + 1)) (hc : calls i j) (hj : j < size)
    (hnew : j ∉ path) : Trail calls size j (j :: path) left where
  leads k hk := by
    rcases List.mem_cons.1 hk with rfl | hk
    · exact .refl
    · exact (h.leads k hk).tail hc
  nodup := List.nodup_cons.2 ⟨hnew, h.nodup⟩
  lt k hk := by
    rcases List.mem_cons.1 hk with rfl | hk
    · exact hj
    · exact h.lt k hk
  length := by
    have := h.length
    rw [List.length_cons]
    omega

/-- A call back into the way closes a circle. -/
theorem circle (h : Trail calls size i path left) (hc : calls i j) (hj : j ∈ path) :
    TransGen calls j j :=
  .tail' (h.leads j hj) hc

/-- The rules on a way are different, so that it cannot be in more than there are. -/
theorem left_ne_zero (h : Trail calls size i path left) : left ≠ 0 := by
  intro hleft
  have hsub : path ⊆ List.range size := fun k hk => List.mem_range.2 (h.lt k hk)
  have hle := (h.nodup.subperm hsub).length_le
  have := h.length
  rw [List.length_range] at hle
  omega

end Trail

namespace Expr

variable {α : Type}

/-! ## Leading calls -/

/-- The expression may match without consuming anything. -/
inductive Nullable : List (Rule α) → Expr α → Prop
  | empty {rules} : Nullable rules .empty
  | star {rules body} : Nullable rules (.star body)
  | not {rules body} : Nullable rules (.not body)
  | and {rules body} : Nullable rules (.and body)
  | behind {rules width body} : Nullable rules (.behind width body)
  | seq {rules e₁ e₂} : Nullable rules e₁ → Nullable rules e₂ → Nullable rules (.seq e₁ e₂)
  | choice_first {rules e₁ e₂} : Nullable rules e₁ → Nullable rules (.choice e₁ e₂)
  | choice_second {rules e₁ e₂} : Nullable rules e₂ → Nullable rules (.choice e₁ e₂)
  | action {rules a body} : Nullable rules body → Nullable rules (.action a body)
  | ruleCall {rules i r} : rules[i]? = some r → Nullable rules r.body →
      Nullable rules (.ruleCall i)
  | grammar {rules inner entry} : inner[0]? = some entry → Nullable inner entry.body →
      Nullable rules (.grammar inner)

/-- The part leads the expression: before it stands only what is `passable`. -/
inductive Leading (passable : Expr α → Prop) : Expr α → Expr α → Prop
  | refl {e} : Leading passable e e
  | action {a body part} : Leading passable body part → Leading passable (.action a body) part
  | star {body part} : Leading passable body part → Leading passable (.star body) part
  | not {body part} : Leading passable body part → Leading passable (.not body) part
  | and {body part} : Leading passable body part → Leading passable (.and body) part
  | choice_first {e₁ e₂ part} : Leading passable e₁ part → Leading passable (.choice e₁ e₂) part
  | choice_second {e₁ e₂ part} : Leading passable e₂ part → Leading passable (.choice e₁ e₂) part
  | seq_first {e₁ e₂ part} : Leading passable e₁ part → Leading passable (.seq e₁ e₂) part
  | seq_second {e₁ e₂ part} : passable e₁ → Leading passable e₂ part →
      Leading passable (.seq e₁ e₂) part

/-- In the body of rule `i` a call of rule `j` is leading. -/
def LeadingCall (passable : Expr α → Prop) (rules : List (Rule α)) (i j : Nat) : Prop :=
  ∃ r, rules[i]? = some r ∧ Leading passable r.body (.ruleCall j)

/-- Rule `i` may call rule `j` before it consumes anything. -/
def LeftCalls (rules : List (Rule α)) : Nat → Nat → Prop := LeadingCall (Nullable rules) rules

/-- A rule may call itself before anything is consumed, be it by way of other rules. -/
def LeftRecursive (rules : List (Rule α)) : Prop := ∃ i, TransGen (LeftCalls rules) i i

mutual

/-- No grammar in the expression is left recursive, nor one in the rules of such a grammar. -/
def settled : Expr α → Prop
  | seq first second => settled first ∧ settled second
  | choice first second => settled first ∧ settled second
  | star body => settled body
  | not body => settled body
  | and body => settled body
  | behind _ body => settled body
  | action _ body => settled body
  | grammar rules => ¬ LeftRecursive rules ∧ settledRules rules
  | char _ => True
  | set _ => True
  | any => True
  | empty => True
  | fail => True
  | openCall _ => True
  | ruleCall _ => True

/-- `settled` for the body of each rule. -/
def settledRules : List (Rule α) → Prop
  | [] => True
  | ⟨_, body⟩ :: rest => settled body ∧ settledRules rest

end

theorem settledRules_iff {rules : List (Rule α)} :
    settledRules rules ↔ ∀ r ∈ rules, settled r.body := by
  induction rules with
  | nil => simp [settledRules]
  | cons r rest ih =>
    obtain ⟨name, body⟩ := r
    simp [settledRules, ih]

/-! ## The answers for what may be empty -/

variable {rules : List (Rule α)}

/-- The answer of `nullable` is yes for whatever may be empty. -/
theorem Nullable.nullable {e : Expr α} (h : Nullable rules e) (d : Nat) :
    e.nullable (unfold true false (nullableRules rules) d) = true := by
  induction h generalizing d with
  | empty | star | not | and | behind => rfl
  | seq _ _ ih₁ ih₂ => rw [Expr.nullable, ih₁, ih₂, Bool.and_self]
  | choice_first _ ih => rw [Expr.nullable, ih, Bool.or_true]
  | choice_second _ ih => rw [Expr.nullable, ih, Bool.true_or]
  | action _ ih => exact ih d
  | ruleCall hr _ ih =>
    cases d with
    | zero => rfl
    | succ d =>
      rw [Expr.nullable, unfold_succ (nullableRules_get hr)]
      exact ih d
  | grammar hentry _ ih =>
    rw [Expr.nullable, unfold_succ (nullableRules_get hentry)]
    exact ih _

/-- The answer of `nullable` is exact for the grammars in an expression. -/
def innerExact : Expr α → Prop
  | seq first second => innerExact first ∧ innerExact second
  | choice first second => innerExact first ∧ innerExact second
  | star body => innerExact body
  | not body => innerExact body
  | and body => innerExact body
  | behind _ body => innerExact body
  | action _ body => innerExact body
  | grammar inner => nullableIn [] (grammar inner) = true → Nullable [] (grammar inner)
  | char _ => True
  | set _ => True
  | any => True
  | empty => True
  | fail => True
  | openCall _ => True
  | ruleCall _ => True

/-- The rules around a grammar do not matter to it. -/
theorem Nullable.grammar_of_nil {inner : List (Rule α)} (h : Nullable [] (.grammar inner)) :
    Nullable rules (.grammar inner) := by
  cases h with
  | grammar hentry h => exact .grammar hentry h

/-- Along a way through rules that are not left recursive, calls are followed deep enough for the
answer of `nullable` to be yes only for what may be empty. -/
theorem Nullable.of_trail {i left : Nat} {path : List Nat}
    (htrail : Trail (LeftCalls rules) rules.length i path left) (hrec : ¬ LeftRecursive rules)
    (hrules : ∀ r ∈ rules, innerExact r.body) {e : Expr α} (he : innerExact e)
    (hcalls : ∀ j, Leading (Nullable rules) e (.ruleCall j) → LeftCalls rules i j)
    (h : e.nullable (unfold true false (nullableRules rules) left) = true) : Nullable rules e := by
  induction left generalizing i path e with
  | zero => exact absurd rfl htrail.left_ne_zero
  | succ left ihl =>
    induction e with
    | empty => exact .empty
    | star => exact .star
    | not => exact .not
    | and => exact .and
    | behind => exact .behind
    | seq first second ih₁ ih₂ =>
      rw [Expr.nullable, Bool.and_eq_true] at h
      have h₁ := ih₁ he.1 (fun j hj => hcalls j (.seq_first hj)) h.1
      exact .seq h₁ (ih₂ he.2 (fun j hj => hcalls j (.seq_second h₁ hj)) h.2)
    | choice first second ih₁ ih₂ =>
      rw [Expr.nullable, Bool.or_eq_true] at h
      rcases h with h | h
      · exact .choice_second (ih₂ he.2 (fun j hj => hcalls j (.choice_second hj)) h)
      · exact .choice_first (ih₁ he.1 (fun j hj => hcalls j (.choice_first hj)) h)
    | action a body ih => exact .action (ih he (fun j hj => hcalls j (.action hj)) h)
    | ruleCall j =>
      have hcall := hcalls j .refl
      cases hr : rules[j]? with
      | none =>
        rw [Expr.nullable, unfold, nullableRules_eq_map, List.getElem?_map, hr] at h
        cases h
      | some r =>
        rw [Expr.nullable, unfold_succ (nullableRules_get hr)] at h
        have hj := (List.getElem?_eq_some_iff.1 hr).1
        have hnew : j ∉ path := fun hmem => hrec ⟨j, htrail.circle hcall hmem⟩
        exact .ruleCall hr (ihl (htrail.step hcall hj hnew) (hrules r (List.mem_of_getElem? hr))
          (fun k hk => ⟨r, hr, hk⟩) h)
    | grammar inner => exact (he h).grammar_of_nil
    | _ => cases h

theorem innerExact_of_settled {e : Expr α} (h : e.settled) : innerExact e := by
  induction e with
  | seq first second ih₁ ih₂ => exact ⟨ih₁ h.1, ih₂ h.2⟩
  | choice first second ih₁ ih₂ => exact ⟨ih₁ h.1, ih₂ h.2⟩
  | star body ih | not body ih | and body ih | behind width body ih | action a body ih =>
    have hbody : innerExact body := ih h
    exact hbody
  | grammar inner ih =>
    intro hnull
    obtain ⟨hrec, hinner⟩ := h
    rw [settledRules_iff] at hinner
    cases hentry : inner[0]? with
    | none =>
      rw [nullableIn, Expr.nullable, unfold, nullableRules_eq_map, List.getElem?_map, hentry]
        at hnull
      cases hnull
    | some entry =>
      rw [nullableIn, Expr.nullable, unfold_succ (nullableRules_get hentry)] at hnull
      have hmem := List.mem_of_getElem? hentry
      have hexact : ∀ r ∈ inner, innerExact r.body := fun r hr => ih r hr (hinner r hr)
      have htrail : Trail (LeftCalls inner) inner.length 0 [0] inner.length :=
        .start (List.getElem?_eq_some_iff.1 hentry).1
      exact .grammar hentry (.of_trail htrail hrec hexact (hexact entry hmem)
        (fun j hj => ⟨entry, hentry, hj⟩) hnull)
  | _ => trivial

/-- The answer of `nullable` is yes for a grammar only if it may be empty, provided that neither the
grammar nor one inside it is left recursive. -/
theorem nullable_of_nullableIn_grammar {inner : List (Rule α)} (h : (grammar inner).settled)
    (hnull : nullableIn [] (grammar inner) = true) : Nullable rules (.grammar inner) :=
  (innerExact_of_settled h hnull).grammar_of_nil

end Expr
end PegMachine
