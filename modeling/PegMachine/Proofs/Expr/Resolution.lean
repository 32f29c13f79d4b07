import PegMachine.Grammar
import PegMachine.Proofs.Expr.Calls

/-!
# What resolving leaves as it is

Before a pattern is compiled, or becomes a rule, its open calls are bound to rules and its chains
are nested to the right.  Nesting to the right changes nothing about an expression that its chains
only combine from their operands, in a way that does not depend on how they are grouped.  `Chains`
says that, and `Chains.rightNest` is what follows, for answers about expressions as well as for
properties of them.

* `of_resolve` — what resolving comes to.
* `exists_of_resolveRules` — where the rules of a grammar come from.
* `inScope` — every call leads to a rule of the enclosing grammar.  This is so for what resolving
  makes of an expression in which calls are still open (`inScope_of_resolve`).
-/

set_option autoImplicit false

namespace PegMachine

/-- Two steps that can fail both succeed if they do one after the other. -/
theorem bind_eq_ok {ε β γ : Type} {x : Except ε β} {f : β → Except ε γ} {c : γ}
    (h : x.bind f = .ok c) : ∃ b, x = .ok b ∧ f b = .ok c := by
  cases x with
  | error e => cases h
  | ok b => exact ⟨b, rfl, h⟩

theorem exists_of_isOk {ε β : Type} {x : Except ε β} (h : x.isOk = true) : ∃ b, x = .ok b := by
  cases x with
  | error e => cases h
  | ok b => exact ⟨b, rfl⟩

namespace Expr

variable {α β : Type}

/-! ## Nesting to the right -/

/-- What is said of a sequence and of a choice is combined from what is said of the parts, whatever
the grouping, and what is said of other expressions does not depend on the grouping in them. -/
structure Chains (f : Expr α → β) (onSeq onChoice : β → β → β) : Prop where
  seq : ∀ e₁ e₂, f (.seq e₁ e₂) = onSeq (f e₁) (f e₂)
  choice : ∀ e₁ e₂, f (.choice e₁ e₂) = onChoice (f e₁) (f e₂)
  seq_assoc : ∀ a b c, onSeq (onSeq a b) c = onSeq a (onSeq b c)
  choice_assoc : ∀ a b c, onChoice (onChoice a b) c = onChoice a (onChoice b c)
  star : ∀ e, f e.rightNest = f e → f (.star e.rightNest) = f (.star e)
  not : ∀ e, f e.rightNest = f e → f (.not e.rightNest) = f (.not e)
  and : ∀ e, f e.rightNest = f e → f (.and e.rightNest) = f (.and e)
  behind : ∀ width e, f e.rightNest = f e →
    f (.behind width e.rightNest) = f (.behind width e)
  action : ∀ a e, f e.rightNest = f e → f (.action a e.rightNest) = f (.action a e)

namespace Chains

variable {f : Expr α → β} {onSeq onChoice : β → β → β}

/-- In front of the same rest of a chain, the same is said of what is said the same of. -/
theorem chain_congr (h : Chains f onSeq onChoice) {e e' : Expr α} (r : Rest α)
    (he : f e = f e') : f (r.chain e) = f (r.chain e') := by
  cases r with
  | alone => exact he
  | ofSeq rest => rw [Rest.chain, Rest.chain, h.seq, h.seq, he]
  | ofChoice rest => rw [Rest.chain, Rest.chain, h.choice, h.choice, he]

theorem nestOnto (h : Chains f onSeq onChoice) (e : Expr α) (r : Rest α) :
    f (nestOnto e r) = f (r.chain e) := by
  induction e generalizing r with
  | seq first second ih₁ ih₂ =>
    have hsplit : f (Expr.nestOnto first (.ofSeq (Expr.nestOnto second .alone)))
        = f (.seq first second) := by
      rw [ih₁, Rest.chain, h.seq, h.seq, ih₂, Rest.chain]
    cases r with
    | ofSeq rest =>
      rw [Expr.nestOnto, ih₁, Rest.chain, h.seq, ih₂, Rest.chain, Rest.chain, h.seq, h.seq, h.seq,
        h.seq_assoc]
    | alone => exact h.chain_congr .alone hsplit
    | ofChoice rest => exact h.chain_congr (.ofChoice rest) hsplit
  | choice first second ih₁ ih₂ =>
    have hsplit : f (Expr.nestOnto first (.ofChoice (Expr.nestOnto second .alone)))
        = f (.choice first second) := by
      rw [ih₁, Rest.chain, h.choice, h.choice, ih₂, Rest.chain]
    cases r with
    | ofChoice rest =>
      rw [Expr.nestOnto, ih₁, Rest.chain, h.choice, ih₂, Rest.chain, Rest.chain, h.choice, h.choice,
        h.choice, h.choice_assoc]
    | alone => exact h.chain_congr .alone hsplit
    | ofSeq rest => exact h.chain_congr (.ofSeq rest) hsplit
  | star body ih => exact h.chain_congr r (h.star body (ih .alone))
  | not body ih => exact h.chain_congr r (h.not body (ih .alone))
  | and body ih => exact h.chain_congr r (h.and body (ih .alone))
  | behind width body ih => exact h.chain_congr r (h.behind width body (ih .alone))
  | action a body ih => exact h.chain_congr r (h.action a body (ih .alone))
  | _ => rw [Expr.nestOnto]

/-- **Nesting to the right does not change what is said of an expression.** -/
theorem rightNest (h : Chains f onSeq onChoice) (e : Expr α) : f e.rightNest = f e :=
  h.nestOnto e .alone

end Chains

/-! ## What may be empty -/

theorem chains_nullable (call : Nat → Bool) :
    Chains (fun e : Expr α => e.nullable call) (· && ·) fun a b => b || a where
  seq _ _ := rfl
  choice _ _ := rfl
  seq_assoc := Bool.and_assoc
  choice_assoc a b c := (Bool.or_assoc c b a).symm
  star _ _ := rfl
  not _ _ := rfl
  and _ _ := rfl
  behind _ _ _ := rfl
  action _ _ h := h

/-! ## Binding -/

/-- Resolving binds all calls and nests the rest to the right. -/
theorem of_resolve {refs names : List String} {e e' : Expr α}
    (h : e.resolve refs names = .ok e') :
    (∀ i ∈ e.openCalls, nameOf refs i ∈ names) ∧
      e' = (e.substCalls fun i => ruleCall (names.idxOf (nameOf refs i))).rightNest := by
  obtain ⟨bound, hb, hr⟩ := bind_eq_ok h
  cases hr
  obtain ⟨hnames, rfl⟩ := of_bindCalls hb
  exact ⟨hnames, rfl⟩

/-- The rules of a grammar are what it is made of, each resolved. -/
theorem exists_of_resolveRules {names : List String} {rules : List (String × List String × Expr α)}
    {bound : List (Rule α)} (h : resolveRules names rules = .ok bound) :
    bound.length = rules.length ∧
      ∀ r ∈ bound, ∃ named ∈ rules, named.2.2.resolve named.2.1 names = .ok r.body := by
  induction rules generalizing bound with
  | nil =>
    cases h
    exact ⟨rfl, List.forall_mem_nil _⟩
  | cons named rest ih =>
    obtain ⟨name, refs, body⟩ := named
    obtain ⟨body', hbody, h⟩ := bind_eq_ok h
    obtain ⟨rest', hrest, h⟩ := bind_eq_ok h
    cases h
    obtain ⟨hlen, hall⟩ := ih hrest
    refine ⟨congrArg (· + 1) hlen, List.forall_mem_cons.2 ⟨⟨_, List.mem_cons_self, hbody⟩, ?_⟩⟩
    intro r hr
    obtain ⟨named, hmem, hnamed⟩ := hall r hr
    exact ⟨named, List.mem_cons_of_mem _ hmem, hnamed⟩

/-- What making a grammar has checked. -/
structure Made (rules : List (String × List String × Expr α)) (bound : List (Rule α)) : Prop where
  resolved : resolveRules (rules.map (·.1)) rules = .ok bound
  ne_nil : rules ≠ []
  left : checkLeftRecursion bound = .ok ()
  loops : checkEmptyLoops bound = .ok ()

theorem exists_made_of_ofRules {rules : List (String × List String × Expr α)} {e : Expr α}
    (h : ofRules rules = .ok e) : ∃ bound, Made rules bound ∧ e = .grammar bound := by
  rw [ofRules] at h
  split at h
  · cases h
  · next hne =>
    split at h
    · cases h
    · obtain ⟨-, -, h⟩ := bind_eq_ok h
      obtain ⟨bound, hbound, h⟩ := bind_eq_ok h
      obtain ⟨⟨⟩, hleft, h⟩ := bind_eq_ok h
      obtain ⟨⟨⟩, hloops, h⟩ := bind_eq_ok h
      cases h
      exact ⟨bound, ⟨hbound, hne, hleft, hloops⟩, rfl⟩

/-! ## Scopes -/

mutual

/-- Every call in the expression, whose enclosing grammar has `size` rules, leads to one of them,
and so it is in the grammars in it, of which none is without rules.  Open calls are let pass or not.
-/
def inScope (opens : Prop) (size : Nat) : Expr α → Prop
  | seq first second => inScope opens size first ∧ inScope opens size second
  | choice first second => inScope opens size first ∧ inScope opens size second
  | star body => inScope opens size body
  | not body => inScope opens size body
  | and body => inScope opens size body
  | behind _ body => inScope opens size body
  | action _ body => inScope opens size body
  | openCall _ => opens
  | ruleCall i => i < size
  | grammar rules => rules ≠ [] ∧ inScopeRules rules.length rules
  | char _ => True
  | set _ => True
  | any => True
  | empty => True
  | fail => True

/-- `inScope` for the body of each rule, without open calls. -/
def inScopeRules (size : Nat) : List (Rule α) → Prop
  | [] => True
  | ⟨_, body⟩ :: rest => inScope False size body ∧ inScopeRules size rest

end

theorem inScopeRules_iff {size : Nat} {rules : List (Rule α)} :
    inScopeRules size rules ↔ ∀ r ∈ rules, inScope False size r.body := by
  induction rules with
  | nil => simp [inScopeRules]
  | cons r rest ih =>
    obtain ⟨name, body⟩ := r
    simp [inScopeRules, ih]

theorem chains_inScope (opens : Prop) (size : Nat) :
    Chains (fun e : Expr α => inScope opens size e) And And where
  seq _ _ := rfl
  choice _ _ := rfl
  seq_assoc _ _ _ := propext and_assoc
  choice_assoc _ _ _ := propext and_assoc
  star _ h := h
  not _ h := h
  and _ h := h
  behind _ _ h := h
  action _ _ h := h

/-- Where only open calls lead out, everything in the place of them is in scope if they are. -/
theorem inScope_substCalls {opens : Prop} {size : Nat} {f : Nat → Expr α} {e : Expr α}
    (h : inScope True 0 e) (hf : ∀ i ∈ e.openCalls, (f i).inScope opens size) :
    inScope opens size (e.substCalls f) := by
  induction e with
  | seq first second ih₁ ih₂ | choice first second ih₁ ih₂ =>
    rw [openCalls, List.forall_mem_append] at hf
    exact ⟨ih₁ h.1 hf.1, ih₂ h.2 hf.2⟩
  | star body ih | not body ih | and body ih | action a body ih | behind width body ih =>
    have hbody : inScope opens size (body.substCalls f) := ih h hf
    exact hbody
  | openCall i => exact hf i (List.mem_singleton.2 rfl)
  | ruleCall i => exact absurd h (Nat.not_lt_zero i)
  | _ => exact h

/-- Resolving an expression with open calls alone leads all of them to rules. -/
theorem inScope_of_resolve {refs names : List String} {e e' : Expr α}
    (hr : e.resolve refs names = .ok e') (h : inScope True 0 e) :
    inScope False names.length e' := by
  obtain ⟨hnames, rfl⟩ := of_resolve hr
  exact ((chains_inScope False names.length).rightNest _).mpr
    (inScope_substCalls h fun i hi => List.idxOf_lt_length_iff.2 (hnames i hi))

/-- So it is with the rules that a grammar is made of. -/
theorem Made.inScope {rules : List (String × List String × Expr α)} {bound : List (Rule α)}
    (h : Made rules bound) (hr : ∀ r ∈ rules, inScope True 0 r.2.2) :
    Expr.inScope True 0 (.grammar bound) := by
  obtain ⟨hlen, hall⟩ := exists_of_resolveRules h.resolved
  refine ⟨fun hnil => ?_, inScopeRules_iff.2 fun r hmem => ?_⟩
  · rw [hnil] at hlen
    exact h.ne_nil (List.length_eq_zero_iff.1 hlen.symm)
  · obtain ⟨named, hnamed, hres⟩ := hall r hmem
    have := inScope_of_resolve hres (hr named hnamed)
    rwa [List.length_map, ← hlen] at this

end Expr
end PegMachine
