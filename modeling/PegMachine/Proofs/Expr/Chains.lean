import PegMachine.Proofs.Expr.Resolution

/-!
# Chains

Sequences and choices that are nested in each other, each kind in its own, form chains.  It is the
operands of a chain that matter, and their order.  Nesting to the right finds, among all trees with
the same operands, the one in which every chain goes on in the second operand only.

* `rightNested` — the form that is reached (`rightNested_rightNest`) and not left any more
  (`rightNest_eq_self`).
* `flatten` — an expression with its chains as lists of operands, which are the same afterwards
  (`flatten_rightNest`).
* `chains_noFail`, `chains_headFail`, `chains_calls`, `chains_openCalls` — more that is combined
  from what is said of the operands.
-/

set_option autoImplicit false

namespace PegMachine

variable {α : Type}

namespace Expr

/-! ## The form that is reached -/

/-- Whether the expression is a sequence. -/
def isSeq : Expr α → Bool
  | seq _ _ => true
  | _ => false

/-- Whether the expression is a choice. -/
def isChoice : Expr α → Bool
  | choice _ _ => true
  | _ => false

mutual

/-- No sequence starts with a sequence, and no choice with a choice, and so it is in the rules of
grammars. -/
def rightNested : Expr α → Prop
  | seq first second => first.isSeq = false ∧ rightNested first ∧ rightNested second
  | choice first second => first.isChoice = false ∧ rightNested first ∧ rightNested second
  | star body => rightNested body
  | not body => rightNested body
  | and body => rightNested body
  | behind _ body => rightNested body
  | action _ body => rightNested body
  | grammar rules => rightNestedRules rules
  | char _ => True
  | set _ => True
  | any => True
  | empty => True
  | fail => True
  | openCall _ => True
  | ruleCall _ => True

/-- `rightNested` for the body of each rule. -/
def rightNestedRules : List (Rule α) → Prop
  | [] => True
  | ⟨_, body⟩ :: rest => rightNested body ∧ rightNestedRules rest

end

theorem rightNestedRules_iff {rules : List (Rule α)} :
    rightNestedRules rules ↔ ∀ r ∈ rules, r.body.rightNested := by
  induction rules with
  | nil => simp [rightNestedRules]
  | cons r rest ih =>
    obtain ⟨name, body⟩ := r
    simp [rightNestedRules, ih]

/-- The grammars in the expression are nested to the right, whatever stands around them. -/
def grammarsNested : Expr α → Prop
  | seq first second => grammarsNested first ∧ grammarsNested second
  | choice first second => grammarsNested first ∧ grammarsNested second
  | star body => grammarsNested body
  | not body => grammarsNested body
  | and body => grammarsNested body
  | behind _ body => grammarsNested body
  | action _ body => grammarsNested body
  | grammar rules => rightNestedRules rules
  | char _ => True
  | set _ => True
  | any => True
  | empty => True
  | fail => True
  | openCall _ => True
  | ruleCall _ => True

theorem grammarsNested_substCalls {f : Nat → Expr α} (hf : ∀ i, (f i).grammarsNested) {e : Expr α}
    (h : e.grammarsNested) : (e.substCalls f).grammarsNested := by
  induction e with
  | seq first second ih₁ ih₂ | choice first second ih₁ ih₂ => exact ⟨ih₁ h.1, ih₂ h.2⟩
  | star body ih | not body ih | and body ih | action a body ih | behind width body ih =>
    have hbody : (body.substCalls f).grammarsNested := ih h
    exact hbody
  | openCall i => exact hf i
  | _ => exact h

/-! ## Reaching it -/

namespace Rest

/-- What stands to the right is nested to the right. -/
def nested : Rest α → Prop
  | alone => True
  | ofSeq rest => rest.rightNested
  | ofChoice rest => rest.rightNested

/-- The expression is one operand of the chain, and not several. -/
def takes (e : Expr α) : Rest α → Prop
  | alone => True
  | ofSeq _ => e.isSeq = false
  | ofChoice _ => e.isChoice = false

theorem rightNested_chain {r : Rest α} {e : Expr α} (hr : r.nested) (ht : r.takes e)
    (he : e.rightNested) : (r.chain e).rightNested := by
  cases r with
  | alone => exact he
  | ofSeq rest => exact ⟨ht, he, hr⟩
  | ofChoice rest => exact ⟨ht, he, hr⟩

end Rest

/-- In front of the rest of a sequence there is a sequence. -/
theorem isSeq_nestOnto (e rest : Expr α) : (nestOnto e (.ofSeq rest)).isSeq = true := by
  induction e generalizing rest with
  | seq first second ih₁ => exact ih₁ _
  | _ => rfl

/-- In front of the rest of a choice there is a choice. -/
theorem isChoice_nestOnto (e rest : Expr α) : (nestOnto e (.ofChoice rest)).isChoice = true := by
  induction e generalizing rest with
  | choice first second ih₁ => exact ih₁ _
  | _ => rfl

theorem isChoice_eq_false_of_isSeq {e : Expr α} (h : e.isSeq = true) : e.isChoice = false := by
  cases e with
  | choice => cases h
  | _ => rfl

theorem isSeq_eq_false_of_isChoice {e : Expr α} (h : e.isChoice = true) : e.isSeq = false := by
  cases e with
  | seq => cases h
  | _ => rfl

theorem rightNested_nestOnto {e : Expr α} (h : e.grammarsNested) {r : Rest α} (hr : r.nested) :
    (nestOnto e r).rightNested := by
  induction e generalizing r with
  | seq first second ih₁ ih₂ =>
    have hsplit : (nestOnto first (.ofSeq (nestOnto second .alone))).rightNested :=
      ih₁ h.1 (r := .ofSeq _) (ih₂ h.2 trivial)
    cases r with
    | ofSeq rest => exact ih₁ h.1 (r := .ofSeq _) (ih₂ h.2 (r := .ofSeq rest) hr)
    | alone => exact hsplit
    | ofChoice rest =>
      exact Rest.rightNested_chain (r := .ofChoice rest) hr
        (isChoice_eq_false_of_isSeq (isSeq_nestOnto first _)) hsplit
  | choice first second ih₁ ih₂ =>
    have hsplit : (nestOnto first (.ofChoice (nestOnto second .alone))).rightNested :=
      ih₁ h.1 (r := .ofChoice _) (ih₂ h.2 trivial)
    cases r with
    | ofChoice rest => exact ih₁ h.1 (r := .ofChoice _) (ih₂ h.2 (r := .ofChoice rest) hr)
    | alone => exact hsplit
    | ofSeq rest =>
      exact Rest.rightNested_chain (r := .ofSeq rest) hr
        (isSeq_eq_false_of_isChoice (isChoice_nestOnto first _)) hsplit
  | star body ih | not body ih | and body ih | behind width body ih | action a body ih =>
    have hbody : (nestOnto body .alone).rightNested := ih h trivial
    exact Rest.rightNested_chain hr (by cases r <;> trivial) hbody
  | _ => exact Rest.rightNested_chain hr (by cases r <;> trivial) h

/-- **Nesting to the right leaves no sequence that starts with a sequence**, and no choice that
starts with a choice. -/
theorem rightNested_rightNest {e : Expr α} (h : e.grammarsNested) : e.rightNest.rightNested :=
  rightNested_nestOnto h trivial

/-! ## Staying there -/

theorem nestOnto_eq_chain {e : Expr α} (h : e.rightNested) {r : Rest α} (ht : r.takes e) :
    nestOnto e r = r.chain e := by
  induction e generalizing r with
  | seq first second ih₁ ih₂ =>
    have hsplit : nestOnto first (.ofSeq (nestOnto second .alone)) = .seq first second := by
      rw [ih₂ h.2.2 (r := .alone) trivial, ih₁ h.2.1 (r := .ofSeq _) h.1, Rest.chain, Rest.chain]
    cases r with
    | ofSeq rest => cases ht
    | alone | ofChoice rest => exact congrArg (Rest.chain _) hsplit
  | choice first second ih₁ ih₂ =>
    have hsplit : nestOnto first (.ofChoice (nestOnto second .alone)) = .choice first second := by
      rw [ih₂ h.2.2 (r := .alone) trivial, ih₁ h.2.1 (r := .ofChoice _) h.1, Rest.chain, Rest.chain]
    cases r with
    | ofChoice rest => cases ht
    | alone | ofSeq rest => exact congrArg (Rest.chain _) hsplit
  | star body ih | not body ih | and body ih | behind width body ih | action a body ih =>
    rw [nestOnto, ih h (r := .alone) trivial, Rest.chain]
  | _ => rw [nestOnto]

/-- What is nested to the right stays as it is. -/
theorem rightNest_eq_self {e : Expr α} (h : e.rightNested) : e.rightNest = e :=
  nestOnto_eq_chain h trivial

/-! ## What is not changed -/

theorem chains_openCalls : Chains (openCalls (α := α)) (· ++ ·) (· ++ ·) where
  seq _ _ := rfl
  choice _ _ := rfl
  seq_assoc := List.append_assoc
  choice_assoc := List.append_assoc
  star _ h := h
  not _ h := h
  and _ h := h
  behind _ _ h := h
  action _ _ h := h

theorem chains_calls : Chains (calls (α := α)) (· ++ ·) (· ++ ·) where
  seq _ _ := rfl
  choice _ _ := rfl
  seq_assoc := List.append_assoc
  choice_assoc := List.append_assoc
  star _ h := h
  not _ h := h
  and _ h := h
  behind _ _ h := h
  action _ _ h := h

theorem chains_noFail (call : Nat → Bool) :
    Chains (fun e : Expr α => e.noFail call) (· && ·) fun a b => b || a where
  seq _ _ := rfl
  choice _ _ := rfl
  seq_assoc := Bool.and_assoc
  choice_assoc a b c := (Bool.or_assoc c b a).symm
  star _ _ := rfl
  not _ _ := rfl
  and _ h := h
  behind _ _ _ := rfl
  action _ _ _ := rfl

/-- Whether the next character decides about a sequence depends on which of its operands never fail,
so both have to be told of the parts. -/
theorem chains_headFail (never call : Nat → Bool) :
    Chains (fun e : Expr α => (e.noFail never, e.headFail never call))
      (fun a b => (a.1 && b.1, b.1 && a.2)) fun a b => (b.1 || a.1, a.2 && b.2) where
  seq _ _ := rfl
  choice _ _ := rfl
  seq_assoc a b c := by
    simp only [Prod.mk.injEq, Bool.and_assoc, true_and]
    exact Bool.and_left_comm ..
  choice_assoc a b c := by
    simp only [Bool.and_assoc, Bool.or_assoc]
  star _ _ := rfl
  not _ _ := rfl
  and _ h := h
  behind _ _ _ := rfl
  action _ _ _ := rfl

end Expr

/-! ## Operands -/

/-- An expression with its chains as lists of operands. -/
inductive Flat (α : Type) where
  /-- An expression without operands, or a grammar as it is. -/
  | atom (e : Expr α)
  /-- A chain of sequences. -/
  | seq (operands : List (Flat α))
  /-- A chain of choices. -/
  | choice (operands : List (Flat α))
  /-- A repetition. -/
  | star (body : Flat α)
  /-- A negative lookahead. -/
  | not (body : Flat α)
  /-- A positive lookahead. -/
  | and (body : Flat α)
  /-- A lookbehind. -/
  | behind (width : Nat) (body : Flat α)
  /-- An action. -/
  | action (a : α) (body : Flat α)

namespace Flat

/-- The operands that it has in a chain of sequences. -/
def inSeq : Flat α → List (Flat α)
  | seq operands => operands
  | x => [x]

/-- The operands that it has in a chain of choices. -/
def inChoice : Flat α → List (Flat α)
  | choice operands => operands
  | x => [x]

/-- One chain of sequences from two. -/
def joinSeq (x y : Flat α) : Flat α := seq (x.inSeq ++ y.inSeq)

/-- One chain of choices from two. -/
def joinChoice (x y : Flat α) : Flat α := choice (x.inChoice ++ y.inChoice)

mutual

/-- Puts an expression in the place of each open call. -/
def substCalls (f : Nat → Expr α) : Flat α → Flat α
  | atom e => atom (e.substCalls f)
  | seq operands => seq (substCallsAll f operands)
  | choice operands => choice (substCallsAll f operands)
  | star body => star (substCalls f body)
  | not body => not (substCalls f body)
  | and body => and (substCalls f body)
  | behind width body => behind width (substCalls f body)
  | action a body => action a (substCalls f body)

/-- `substCalls` for each operand. -/
def substCallsAll (f : Nat → Expr α) : List (Flat α) → List (Flat α)
  | [] => []
  | x :: rest => substCalls f x :: substCallsAll f rest

end

theorem substCallsAll_eq_map (f : Nat → Expr α) (xs : List (Flat α)) :
    substCallsAll f xs = xs.map (substCalls f) := by
  induction xs with
  | nil => rfl
  | cons x xs ih => rw [substCallsAll, ih, List.map_cons]

theorem inSeq_substCalls (f : Nat → Expr α) (x : Flat α) :
    (x.substCalls f).inSeq = x.inSeq.map (substCalls f) := by
  cases x with
  | seq operands => exact substCallsAll_eq_map f operands
  | _ => rfl

theorem inChoice_substCalls (f : Nat → Expr α) (x : Flat α) :
    (x.substCalls f).inChoice = x.inChoice.map (substCalls f) := by
  cases x with
  | choice operands => exact substCallsAll_eq_map f operands
  | _ => rfl

theorem joinSeq_substCalls (f : Nat → Expr α) (x y : Flat α) :
    (x.substCalls f).joinSeq (y.substCalls f) = (x.joinSeq y).substCalls f := by
  rw [joinSeq, joinSeq, substCalls, substCallsAll_eq_map, List.map_append, inSeq_substCalls,
    inSeq_substCalls]

theorem joinChoice_substCalls (f : Nat → Expr α) (x y : Flat α) :
    (x.substCalls f).joinChoice (y.substCalls f) = (x.joinChoice y).substCalls f := by
  rw [joinChoice, joinChoice, substCalls, substCallsAll_eq_map, List.map_append,
    inChoice_substCalls, inChoice_substCalls]

end Flat

namespace Expr

/-- The expression with its chains as lists of operands. -/
def flatten : Expr α → Flat α
  | seq first second => (flatten first).joinSeq (flatten second)
  | choice first second => (flatten first).joinChoice (flatten second)
  | star body => .star (flatten body)
  | not body => .not (flatten body)
  | and body => .and (flatten body)
  | behind width body => .behind width (flatten body)
  | action a body => .action a (flatten body)
  | e => .atom e

theorem chains_flatten : Chains (flatten (α := α)) Flat.joinSeq Flat.joinChoice where
  seq _ _ := rfl
  choice _ _ := rfl
  seq_assoc a b c := congrArg Flat.seq (List.append_assoc a.inSeq b.inSeq c.inSeq)
  choice_assoc a b c := congrArg Flat.choice (List.append_assoc a.inChoice b.inChoice c.inChoice)
  star _ h := congrArg Flat.star h
  not _ h := congrArg Flat.not h
  and _ h := congrArg Flat.and h
  behind width _ h := congrArg (Flat.behind width) h
  action a _ h := congrArg (Flat.action a) h

/-- **Nesting to the right leaves the operands of every chain as they are**, in the same order. -/
theorem flatten_rightNest (e : Expr α) : e.rightNest.flatten = e.flatten :=
  chains_flatten.rightNest e

/-- To put single expressions in the place of open calls changes the operands in the same way. -/
theorem flatten_substCalls {f : Nat → Expr α} (hf : ∀ i, (f i).flatten = .atom (f i))
    (e : Expr α) : (e.substCalls f).flatten = e.flatten.substCalls f := by
  induction e with
  | seq first second ih₁ ih₂ =>
    rw [Expr.substCalls, flatten, ih₁, ih₂, Flat.joinSeq_substCalls, flatten]
  | choice first second ih₁ ih₂ =>
    rw [Expr.substCalls, flatten, ih₁, ih₂, Flat.joinChoice_substCalls, flatten]
  | star body ih | not body ih | and body ih | behind width body ih | action a body ih =>
    rw [Expr.substCalls, flatten, ih, flatten, Flat.substCalls]
  | openCall i => exact hf i
  | _ => rfl

end Expr
end PegMachine
