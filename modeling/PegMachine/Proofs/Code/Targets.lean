import PegMachine.Proofs.Code.TailCalls

/-!
# Targets stay in the code

Control does not leave the code of an expression but for the address right behind it: that is where
all of its targets lead to at most (`targetsLe_emit`).  Tail calls and the threading of jumps are
shown to keep targets in bounds where they are shown to keep the code safe.
-/

set_option autoImplicit false

namespace PegMachine

open PegMachine.Expr

variable {α : Type}

/-- No target of the instructions is beyond the address. -/
def TargetsLe (n : Nat) (instrs : List (Instr α)) : Prop :=
  ∀ instr ∈ instrs, ∀ t, instr.target? = some t → t ≤ n

namespace TargetsLe

variable {n m : Nat} {xs ys : List (Instr α)}

theorem nil : TargetsLe n ([] : List (Instr α)) := List.forall_mem_nil _

theorem cons {instr : Instr α} (h : ∀ t, instr.target? = some t → t ≤ n) (hxs : TargetsLe n xs) :
    TargetsLe n (instr :: xs) :=
  List.forall_mem_cons.2 ⟨h, hxs⟩

theorem append (hxs : TargetsLe n xs) (hys : TargetsLe n ys) : TargetsLe n (xs ++ ys) :=
  List.forall_mem_append.2 ⟨hxs, hys⟩

theorem mono (h : TargetsLe n xs) (hnm : n ≤ m) : TargetsLe m xs :=
  fun instr hi t ht => Nat.le_trans (h instr hi t ht) hnm

end TargetsLe

namespace Instr

theorem target?_forChar (c : Char) (guard : Option Guard) :
    (forChar c guard : Instr α).target? = none := by
  rw [forChar]
  split <;> rfl

theorem target?_forSet (s : CharSet) (guard : Option Guard) :
    (forSet s guard : Instr α).target? = none := by
  rw [forSet]
  split
  · rfl
  · rfl
  · exact target?_forChar _ _
  · split <;> rfl

theorem target?_forTest (s : CharSet) (t : Nat) : (forTest s t : Instr α).target? = some t := by
  rw [forTest]
  split <;> rfl

theorem targetsLe_headTest {h : Head} {t n : Nat} (ht : t ≤ n) :
    TargetsLe n (headTest h t : List (Instr α)) := by
  rw [headTest]
  split
  · refine .cons (fun u hu => ?_) .nil
    rw [target?_forTest] at hu
    cases hu
    exact ht
  · exact .nil

theorem le_of_mem_starts {base t : Nat} {codes : List (List (Instr α))}
    (h : t ∈ starts base codes) : t ≤ base + codes.flatten.length := by
  induction codes generalizing base with
  | nil => cases h
  | cons code rest ih =>
    rw [List.flatten_cons, List.length_append]
    rcases List.mem_cons.1 h with rfl | h
    · omega
    · have := ih h
      omega

/-- Calls that are bound lead to where rules start. -/
theorem targetsLe_bindCall {rules : List Nat} {n : Nat} (hrules : ∀ t ∈ rules, t ≤ n)
    {instrs : List (Instr α)} (h : TargetsLe n instrs) :
    TargetsLe n (instrs.map (bindCall rules)) := by
  intro instr hi t ht
  obtain ⟨old, hold, rfl⟩ := List.mem_map.1 hi
  cases old with
  | openCall i =>
    rw [bindCall] at ht
    cases hu : rules[i]? with
    | none =>
      rw [hu] at ht
      cases ht
    | some u =>
      rw [hu] at ht
      cases ht
      exact hrules t (List.mem_of_getElem? hu)
  | _ => exact h _ hold t ht

end Instr

namespace Expr

theorem targetsLe_emitRules {rules all : List (Rule α)}
    (ih : ∀ r ∈ rules, ∀ base, TargetsLe
      (base + (r.body.emit Segment.callRules all false none .full base).length)
      (r.body.emit Segment.callRules all false none .full base)) (base : Nat) :
    TargetsLe (base + (emitRules Segment.callRules rules all base).flatten.length)
      (emitRules Segment.callRules rules all base).flatten := by
  induction rules generalizing base with
  | nil => exact .nil
  | cons r rest ihrest =>
    obtain ⟨name, body⟩ := r
    rw [List.forall_mem_cons] at ih
    have hbody := ih.1 base
    have hrest := ihrest ih.2
      (base + (body.emit Segment.callRules all false none .full base ++ [Instr.ret]).length)
    simp only [emitRules, List.flatten_cons, List.length_append] at hbody hrest ⊢
    exact .append (.append (hbody.mono (by omega)) (.cons (by simp [Instr.target?]) .nil))
      (hrest.mono (by omega))

/-- **The targets in the code of an expression are at most the address behind it.** -/
theorem targetsLe_emit (e : Expr α) (rules : List (Rule α)) (reuse : Bool) (guard : Option Guard)
    (follow : CharSet) (base : Nat) :
    TargetsLe (base + (e.emit Segment.callRules rules reuse guard follow base).length)
      (e.emit Segment.callRules rules reuse guard follow base) := by
  -- a target is at most the end, by its place among the parts of the code
  have hto : ∀ {instr : Instr α} {t n : Nat}, instr.target? = some t → t ≤ n →
      ∀ u, instr.target? = some u → u ≤ n := by
    intro instr t n ht hle u hu
    rw [ht] at hu
    cases hu
    exact hle
  induction e generalizing rules reuse guard follow base with
  | char c => exact .cons (by simp [Instr.target?_forChar]) .nil
  | set s => exact .cons (by simp [Instr.target?_forSet]) .nil
  | seq first second ih₁ ih₂ =>
    simp only [emit, List.length_append]
    exact .append ((ih₁ _ _ _ _ _).mono (by omega)) ((ih₂ _ _ _ _ _).mono (by omega))
  | choice first second ih₁ ih₂ =>
    simp only [emit]
    split
    · have hskip : ∀ {n t : Nat}, t ≤ n →
          TargetsLe n (if second.isEmpty then [] else [(Instr.jump t : Instr α)]) := by
        intro n t ht
        split
        · exact .nil
        · exact .cons (hto rfl ht) .nil
      refine .append (.append (.cons (hto (Instr.target?_forTest _ _) ?_)
        ((ih₁ _ _ _ _ _).mono ?_)) (hskip ?_)) ((ih₂ _ _ _ _ _).mono ?_)
      all_goals
        simp only [List.length_append, List.length_cons]
        split <;> simp only [List.length_cons, List.length_nil] <;> omega
    · split
      · refine .cons (hto rfl ?_) ((ih₁ _ _ _ _ _).mono ?_)
        all_goals
          rw [List.length_cons]
          omega
      · refine .append (.append (Instr.targetsLe_headTest ?_) (.cons (hto rfl ?_)
          ((ih₁ _ _ _ _ _).mono ?_))) (.cons (hto rfl ?_) ((ih₂ _ _ _ _ _).mono ?_))
        all_goals
          simp only [List.length_append, List.length_cons, Instr.length_headTest]
          omega
  | star body ih =>
    simp only [emit]
    split
    · exact .cons (by simp [Instr.target?]) .nil
    · split
      · refine .append (.cons (hto (Instr.target?_forTest _ _) ?_) ((ih _ _ _ _ _).mono ?_))
          (.cons (hto rfl ?_) .nil)
        all_goals
          simp only [List.length_append, List.length_cons, List.length_nil]
          omega
      · have henter : ∀ {n first past : Nat}, first ≤ n → past ≤ n → ∀ u,
            (if reuse then Instr.partialCommit first else .choice past : Instr α).target? = some u →
              u ≤ n := by
          intro n first past hfirst hpast
          split
          · exact hto rfl hfirst
          · exact hto rfl hpast
        refine .append (.append (Instr.targetsLe_headTest ?_) (.cons (henter ?_ ?_)
          ((ih _ _ _ _ _).mono ?_))) (.cons (hto rfl ?_) .nil)
        all_goals
          simp only [List.length_append, List.length_cons, List.length_nil, Instr.length_headTest]
          omega
  | not body ih =>
    simp only [emit]
    split
    · refine .append (Instr.targetsLe_headTest ?_) (.cons (by simp [Instr.target?]) .nil)
      simp only [List.length_append, List.length_cons, List.length_nil, Instr.length_headTest]
      omega
    · refine .append (.append (Instr.targetsLe_headTest ?_) (.cons (hto rfl ?_)
        ((ih _ _ _ _ _).mono ?_))) (.cons (by simp [Instr.target?]) .nil)
      all_goals
        simp only [List.length_append, List.length_cons, List.length_nil, Instr.length_headTest]
        omega
  | and body ih =>
    simp only [emit]
    split
    · refine .append ((ih _ _ _ _ _).mono (by rw [List.length_append]; omega)) ?_
      split
      · exact .nil
      · exact .cons (by simp [Instr.target?]) .nil
    · refine .append (.cons (hto rfl ?_) ((ih _ _ _ _ _).mono ?_))
        (.cons (hto rfl ?_) (.cons (by simp [Instr.target?]) .nil))
      all_goals
        simp only [List.length_append, List.length_cons, List.length_nil]
        omega
  | behind width body ih =>
    simp only [emit]
    split
    · exact ih _ _ _ _ _
    · refine .cons (by simp [Instr.target?]) ((ih _ _ _ _ _).mono ?_)
      rw [List.length_cons]
      omega
  | action a body ih =>
    simp only [emit]
    refine .append (.cons (by simp [Instr.target?]) ((ih _ _ _ _ _).mono ?_))
      (.cons (by simp [Instr.target?]) .nil)
    simp only [List.length_append, List.length_cons, List.length_nil]
    omega
  | grammar inner ih =>
    have hrules := targetsLe_emitRules (fun r hr => ih r hr inner false none .full) (base + 2)
    simp only [emit, Segment.callRules, List.size_toArray, Array.toList_map,
      List.length_cons, List.length_map]
    refine .cons (hto rfl (by omega)) (.cons (hto rfl (by omega)) ?_)
    refine (Instr.targetsLe_bindCall (fun t ht => Instr.le_of_mem_starts ht) hrules).mono ?_
    omega
  | _ => simp only [emit]; first | exact .nil | exact .cons (by simp [Instr.target?]) .nil

end Expr
end PegMachine
