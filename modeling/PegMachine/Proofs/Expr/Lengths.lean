import PegMachine.Proofs.Expr.Queries

/-!
# Fixed lengths that agree

Finding the fixed length of an expression takes a budget of calls, and without enough of it there is
no answer.  Of two expressions that come to the same, one may thus have a length and the other none.
But where both have one, it is the same, and this goes through all kinds of expressions
(`FixedAgree`), whatever the budgets are.

* `FixedAgree.refl` — more budget does not change a length.
* `FixedAgree.seq`, `FixedAgree.grammar` and so on — the kinds of expressions.
-/

set_option autoImplicit false

namespace PegMachine

/-- The two are the same where there are both. -/
def Agree (a b : Option Nat) : Prop := ∀ m n, a = some m → b = some n → m = n

/-- The lengths that calls have are the same where there are both. -/
def CallsAgree (call call' : Nat → Option Nat) : Prop := ∀ i, Agree (call i) (call' i)

namespace Agree

variable {a b c d : Option Nat}

theorem refl (a : Option Nat) : Agree a a := fun _ _ h h' => Option.some.inj (h.symm.trans h')

theorem none_left (b : Option Nat) : Agree none b := fun _ _ h => by cases h

theorem none_right (a : Option Nat) : Agree a none := fun _ _ _ h => by cases h

theorem add (h : Agree a b) (h' : Agree c d) :
    Agree (a.bind fun m => c.map (m + ·)) (b.bind fun m => d.map (m + ·)) := by
  intro m n hm hn
  obtain ⟨x, rfl, hm⟩ := Option.bind_eq_some_iff.1 hm
  obtain ⟨y, rfl, rfl⟩ := Option.map_eq_some_iff.1 hm
  obtain ⟨x', rfl, hn⟩ := Option.bind_eq_some_iff.1 hn
  obtain ⟨y', rfl, rfl⟩ := Option.map_eq_some_iff.1 hn
  rw [h x x' rfl rfl, h' y y' rfl rfl]

theorem map (h : Agree a b) (f : Nat → Nat) : Agree (a.map f) (b.map f) := by
  intro m n hm hn
  obtain ⟨x, rfl, rfl⟩ := Option.map_eq_some_iff.1 hm
  obtain ⟨y, rfl, rfl⟩ := Option.map_eq_some_iff.1 hn
  rw [h x y rfl rfl]

end Agree

/-- Unfolding bodies whose lengths agree, to whatever depths, gives lengths that agree. -/
theorem callsAgree_unfoldLength {bodies bodies' : List (Nat → (Nat → Option Nat) → Option Nat)}
    (h : ∀ (i : Nat) f f', bodies[i]? = some f → bodies'[i]? = some f' →
      ∀ b b' call call', CallsAgree call call' → Agree (f b call) (f' b' call')) (d d' : Nat) :
    CallsAgree (unfoldLength bodies d) (unfoldLength bodies' d') := by
  induction d generalizing d' with
  | zero => exact fun i => .none_left _
  | succ d ih =>
    cases d' with
    | zero => exact fun i => .none_right _
    | succ d' =>
      intro i
      rw [unfoldLength, unfoldLength]
      cases hf : bodies[i]? with
      | none => exact .none_left _
      | some f =>
        cases hf' : bodies'[i]? with
        | none => exact .none_right _
        | some f' => exact h i f f' hf hf' d d' _ _ (ih d')

namespace Expr

variable {α : Type}

/-! ## Resolved expressions -/

/-- The fixed lengths of the two, from whatever budgets, agree if those of their calls do. -/
def FixedAgree (e e' : Expr α) : Prop :=
  ∀ b b' call call', CallsAgree call call' → Agree (e.fixedLength b call) (e'.fixedLength b' call')

namespace FixedAgree

variable {e₁ e₁' e₂ e₂' : Expr α}

theorem seq (h₁ : FixedAgree e₁ e₁') (h₂ : FixedAgree e₂ e₂') :
    FixedAgree (.seq e₁ e₂) (.seq e₁' e₂') := by
  intro b b' call call' hcalls
  rw [fixedLength_seq, fixedLength_seq]
  exact (h₁ b b' call call' hcalls).add (h₂ b b' call call' hcalls)

theorem seqTimes (h₁ : FixedAgree e₁ e₁') (h₂ : FixedAgree e₂ e₂') (n : Nat) :
    FixedAgree (Expr.seqTimes e₁ n e₂) (Expr.seqTimes e₁' n e₂') := by
  induction n with
  | zero => exact h₂
  | succ n ih => exact h₁.seq ih

/-- What has a length as a choice has the length of its first alternative. -/
theorem of_choice {b : Nat} {call : Nat → Option Nat} {m : Nat}
    (h : (Expr.choice e₁ e₂).fixedLength b call = some m) : e₁.fixedLength b call = some m := by
  rw [fixedLength_choice] at h
  obtain ⟨x, hx, h⟩ := Option.bind_eq_some_iff.1 h
  split at h
  · cases h
    exact hx
  · cases h

theorem choice (h₁ : FixedAgree e₁ e₁') : FixedAgree (.choice e₁ e₂) (.choice e₁' e₂') :=
  fun b b' call call' hcalls m n hm hn =>
    h₁ b b' call call' hcalls m n (of_choice hm) (of_choice hn)

theorem grammar {rules rules' : List (Rule α)}
    (h : ∀ (i : Nat) r r', rules[i]? = some r → rules'[i]? = some r' → FixedAgree r.body r'.body) :
    FixedAgree (.grammar rules) (.grammar rules') := by
  intro b b' call call' _
  have hbodies : ∀ (i : Nat) f f', (fixedLengthRules rules)[i]? = some f →
      (fixedLengthRules rules')[i]? = some f' →
      ∀ b b' call call', CallsAgree call call' → Agree (f b call) (f' b' call') := by
    intro i f f' hf hf'
    rw [fixedLengthRules_eq_map, List.getElem?_map] at hf hf'
    obtain ⟨r, hr, rfl⟩ := Option.map_eq_some_iff.1 hf
    obtain ⟨r', hr', rfl⟩ := Option.map_eq_some_iff.1 hf'
    exact h i r r' hr hr'
  cases rules with
  | nil => exact .none_left _
  | cons r rest =>
    cases rules' with
    | nil => exact .none_right _
    | cons r' rest' =>
      have hfirst : (r :: rest)[0]? = some r := rfl
      have hfirst' : (r' :: rest')[0]? = some r' := rfl
      rw [fixedLength_grammar hfirst, fixedLength_grammar hfirst']
      exact h 0 r r' hfirst hfirst' _ _ _ _ (callsAgree_unfoldLength hbodies b b')

/-- More budget does not change a length. -/
theorem refl (e : Expr α) : FixedAgree e e := by
  induction e with
  | seq first second ih₁ ih₂ => exact ih₁.seq ih₂
  | choice first second ih₁ ih₂ => exact ih₁.choice
  | ruleCall i => exact fun b b' call call' hcalls => hcalls i
  | grammar rules ih =>
    refine .grammar fun i r r' hr hr' => ?_
    rw [hr] at hr'
    cases hr'
    exact ih r (List.mem_of_getElem? hr)
  | _ => exact fun _ _ _ _ _ => .refl _

/-- Nesting to the right does not change a length. -/
theorem rightNest (h : FixedAgree e₁ e₁') : FixedAgree e₁.rightNest e₁'.rightNest := by
  intro b b' call call' hcalls
  have hnest : ∀ (e : Expr α) b call, e.rightNest.fixedLength b call = e.fixedLength b call :=
    fun e b call => (chains_fixedLength b call).rightNest e
  rw [hnest, hnest]
  exact h b b' call call' hcalls

end FixedAgree

/-! ## Copies, and expressions without calls -/

/-- Copies are as long as one of them, times their number. -/
theorem fixedLength_seqTimes (b : Nat) (call : Nat → Option Nat) (body : Expr α) (n : Nat) :
    (Expr.seqTimes body n body).fixedLength b call
      = (body.fixedLength b call).map ((n + 1) * ·) := by
  induction n with
  | zero => simp [Expr.seqTimes]
  | succ n ih =>
    rw [Expr.seqTimes, fixedLength_seq, ih]
    cases body.fixedLength b call with
    | none => rfl
    | some m => simp [Nat.add_mul, Nat.add_comm]

/-- Without calls of rules, the lengths that those have do not matter. -/
theorem fixedLength_eq_of_inScope {e : Expr α} (he : e.inScope True 0) (b : Nat)
    (call call' : Nat → Option Nat) : e.fixedLength b call = e.fixedLength b call' := by
  induction e with
  | seq first second ih₁ ih₂ =>
    rw [fixedLength_seq, fixedLength_seq, ih₁ he.1, ih₂ he.2]
  | choice first second ih₁ ih₂ =>
    rw [fixedLength_choice, fixedLength_choice, ih₁ he.1, ih₂ he.2]
  | ruleCall i => exact absurd he (Nat.not_lt_zero i)
  | grammar rules => rw [fixedLength, fixedLength]
  | _ => rfl

end Expr
end PegMachine
