import Mathlib.Logic.Relation
import PegMachine.Proofs.Code.Layout

/-!
# Tail calls one at a time

Compilation turns an open call into a jump where nothing is left to do behind it but to return.
What is to be shown of compiled code is often easier to show of *plain* code, in which every call is
a call (`Segment.callRules`).  The compiled code comes from the plain code by putting jumps in the
place of calls one after the other: `TailStep` is one such replacement.  It is important that they
are made one at a time.  That a call has nothing to do behind it is true of the code at the time
when it is replaced, where other calls, which control may come to on the way to a return, are still
calls.

* `Shortens base xs ys` — wherever the instructions `xs` stand from `base` on, replacements turn
  them into `ys`.
* `shortens_emit` — so it is with the plain and the compiled code of an expression.
-/

set_option autoImplicit false

namespace PegMachine

open PegMachine.Expr Relation

variable {α : Type}

/-! ## Plain calls -/

namespace Instr

/-- The instruction, or a call in the place of an open call. -/
def bindCall (starts : List Nat) : Instr α → Instr α
  | openCall i =>
    match starts[i]? with
    | some t => call t
    | none => openCall i
  | instr => instr

end Instr

/-- Puts calls in the place of the open calls, where rule `i` starts at place `i` of `starts`. -/
def Segment.callRules (starts : List Nat) (s : Segment α) : Segment α :=
  { s with code := s.code.map (Instr.bindCall starts) }

theorem Segment.size_callRules (starts : List Nat) (s : Segment α) :
    (callRules starts s).code.size = s.code.size :=
  Array.size_map

/-- The function does nothing to any instruction but an open call. -/
def KeepsInstrs (f : Instr α → Instr α) : Prop :=
  ∀ instr, (∀ i, instr ≠ .openCall i) → f instr = instr

theorem keepsInstrs_id : KeepsInstrs (id : Instr α → Instr α) := fun _ _ => rfl

theorem keepsInstrs_bindCall (starts : List Nat) :
    KeepsInstrs (Instr.bindCall starts : Instr α → Instr α) := by
  intro instr h
  cases instr with
  | openCall i => exact absurd rfl (h i)
  | _ => rfl

theorem KeepsInstrs.comp {f g : Instr α → Instr α} (hf : KeepsInstrs f) (hg : KeepsInstrs g) :
    KeepsInstrs (f ∘ g) := by
  intro instr h
  rw [Function.comp_apply, hg instr h, hf instr h]

/-! ## One tail call -/

/-- A call behind which there is nothing left to do but to return is replaced by a jump. -/
def TailStep (xs ys : List (Instr α)) : Prop :=
  ∃ a t, xs[a]? = some (.call t) ∧
    (∀ code, (Segment.mk 0 xs.toArray).HeldBy code → ReturnsFrom code (a + 1)) ∧
    ys = xs.set a (.jump t)

/-- Wherever `xs` stands from the address `base` on, tail calls turn it into `ys`, also while open
calls in it are turned into something else. -/
def Shortens (base : Nat) (xs ys : List (Instr α)) : Prop :=
  ∀ f : Instr α → Instr α, KeepsInstrs f → ∀ pre post : List (Instr α), pre.length = base →
    ReflTransGen TailStep (pre ++ xs.map f ++ post) (pre ++ ys.map f ++ post)

theorem TailStep.length_eq {xs ys : List (Instr α)} (h : TailStep xs ys) :
    ys.length = xs.length := by
  obtain ⟨a, t, -, -, rfl⟩ := h
  exact List.length_set

namespace Shortens

variable {base : Nat} {xs ys xs' ys' : List (Instr α)}

theorem refl : Shortens base xs xs := fun _ _ _ _ _ => .refl

theorem length_eq (h : Shortens base xs ys) : ys.length = xs.length := by
  have hsteps := h id keepsInstrs_id (List.replicate base .fail) [] (by simp)
  have hlength : ∀ us vs : List (Instr α), ReflTransGen TailStep us vs →
      vs.length = us.length := by
    intro us vs hs
    induction hs with
    | refl => rfl
    | tail _ hstep ih => rw [hstep.length_eq, ih]
  have := hlength _ _ hsteps
  simp only [List.map_id, List.append_nil, List.length_append] at this
  omega

theorem append {b : Nat} (h : Shortens base xs ys) (h' : Shortens b xs' ys')
    (hb : b = base + xs.length) : Shortens base (xs ++ xs') (ys ++ ys') := by
  intro f hf pre post hpre
  have hlen : (pre ++ ys.map f).length = b := by
    rw [List.length_append, List.length_map, hpre, h.length_eq, hb]
  have h₁ := h f hf pre (xs'.map f ++ post) hpre
  have h₂ := h' f hf (pre ++ ys.map f) post hlen
  simp only [List.map_append, List.append_assoc] at h₁ h₂ ⊢
  exact h₁.trans h₂

theorem cons {b : Nat} (instr : Instr α) (h : Shortens b xs ys) (hb : b = base + 1) :
    Shortens base (instr :: xs) (instr :: ys) := by
  have hself : Shortens base [instr] [instr] := .refl
  exact hself.append h hb

end Shortens

/-! ## The calls of a grammar -/

theorem getElem?_between {pre mid post : List (Instr α)} {k : Nat} (hk : k < mid.length) :
    (pre ++ mid ++ post)[pre.length + k]? = mid[k]? := by
  rw [List.append_assoc, List.getElem?_append_right (by omega), Nat.add_sub_cancel_left,
    List.getElem?_append_left hk]

theorem set_between {pre mid post : List (Instr α)} {k : Nat} (hk : k < mid.length)
    (instr : Instr α) :
    (pre ++ mid ++ post).set (pre.length + k) instr = pre ++ mid.set k instr ++ post := by
  rw [List.append_assoc, List.set_append_right _ _ (by omega), Nat.add_sub_cancel_left,
    List.set_append_left _ _ hk, List.append_assoc]

namespace Segment

variable {s : Segment α} {starts : List Nat}

/-- What stands at an address of the segment, and where in its code. -/
theorem exists_of_get? {addr : Nat} {instr : Instr α} (h : s.get? addr = some instr) :
    ∃ k, addr = s.start + k ∧ k < s.code.toList.length ∧ s.code.toList[k]? = some instr := by
  rw [get?] at h
  split at h
  · cases h
  · refine ⟨addr - s.start, by omega, (Array.getElem?_eq_some_iff.1 h).1, ?_⟩
    rw [Array.getElem?_toList, h]

/-- Code that holds the segment with open calls turned into something else, in whatever
surroundings, holds the segment. -/
theorem heldBy_of_append {f : Instr α → Instr α} (hf : KeepsInstrs f) {pre post : List (Instr α)}
    (hpre : pre.length = s.start) {code : Array (Instr α)}
    (h : (Segment.mk 0 (pre ++ s.code.toList.map f ++ post).toArray).HeldBy code) :
    s.HeldBy code := by
  intro addr instr ha hi
  obtain ⟨k, rfl, hk, hget⟩ := exists_of_get? ha
  refine h _ instr ?_ hi
  rw [get?_zero, List.getElem?_toArray, ← hpre, getElem?_between (by rwa [List.length_map]),
    List.getElem?_map, hget]
  exact congrArg some (hf instr hi)

/-- What was an open call after an address has been resolved was one before, and there was no rule
for it at this address. -/
theorem openCall_of_resolveAt {addr a i : Nat}
    (h : (resolveAt starts s addr).get? a = some (.openCall i)) :
    s.get? a = some (.openCall i) ∧ (a = addr → starts[i]? = none) := by
  rw [resolveAt] at h
  split at h
  · next rule hrule =>
    split at h
    · next hnone =>
      refine ⟨h, fun ha => ?_⟩
      subst ha
      rw [hrule] at h
      cases h
      exact hnone
    · split at h
      · rw [get?_put hrule] at h
        split at h
        · cases h
        · next hne => exact ⟨h, fun ha => absurd ha hne⟩
      · rw [get?_put hrule] at h
        split at h
        · cases h
        · next hne => exact ⟨h, fun ha => absurd ha hne⟩
  · next hother =>
    exact ⟨h, fun ha => absurd (ha ▸ h) (hother i)⟩

theorem openCall_of_foldl_resolveAt {addrs : List Nat} {a i : Nat}
    (h : (addrs.foldl (resolveAt starts) s).get? a = some (.openCall i)) :
    s.get? a = some (.openCall i) ∧ (a ∈ addrs → starts[i]? = none) := by
  induction addrs generalizing s with
  | nil => exact ⟨h, fun ha => absurd ha List.not_mem_nil⟩
  | cons addr rest ih =>
    obtain ⟨hopen, hrest⟩ := ih h
    obtain ⟨hopen', haddr⟩ := openCall_of_resolveAt hopen
    exact ⟨hopen', fun ha => (List.mem_cons.1 ha).elim haddr hrest⟩

/-- Resolving leaves open only the calls of rules that there are not. -/
theorem none_of_resolveCalls {i : Nat} (h : .openCall i ∈ (resolveCalls starts s).code.toList) :
    starts[i]? = none := by
  obtain ⟨k, hk⟩ := List.getElem?_of_mem h
  have hget : (resolveCalls starts s).get? (s.start + k) = some (.openCall i) := by
    rw [get?, start_resolveCalls, if_neg (by omega), Nat.add_sub_cancel_left,
      ← Array.getElem?_toList, hk]
  obtain ⟨hopen, hnone⟩ := openCall_of_foldl_resolveAt hget
  exact hnone (mem_addresses hopen)

/-- Resolving an address is a tail call, or makes no difference where every call is a call. -/
theorem tailStep_resolveAt {f : Instr α → Instr α} (hf : KeepsInstrs f)
    {pre post : List (Instr α)} (hpre : pre.length = s.start) (addr : Nat) :
    ReflTransGen TailStep (pre ++ s.code.toList.map (f ∘ Instr.bindCall starts) ++ post)
      (pre ++ (resolveAt starts s addr).code.toList.map (f ∘ Instr.bindCall starts) ++ post) := by
  have hkeeps := hf.comp (keepsInstrs_bindCall starts)
  rw [resolveAt]
  split
  · next rule hrule =>
    split
    · exact .refl
    · next t ht =>
      obtain ⟨k, rfl, hk, hget⟩ := exists_of_get? hrule
      have hk' : k < (s.code.toList.map (f ∘ Instr.bindCall starts)).length := by
        rwa [List.length_map]
      have hcall : (pre ++ s.code.toList.map (f ∘ Instr.bindCall starts) ++ post)[s.start + k]?
          = some (.call t) := by
        rw [← hpre, getElem?_between hk', List.getElem?_map, hget, Option.map_some,
          Function.comp_apply, Instr.bindCall, ht]
        exact congrArg some (hf _ (by simp))
      have hput : ∀ instr, (∀ i, instr ≠ .openCall i) →
          pre ++ (s.put (s.start + k) instr).code.toList.map (f ∘ Instr.bindCall starts) ++ post
            = (pre ++ s.code.toList.map (f ∘ Instr.bindCall starts) ++ post).set (s.start + k)
              instr := by
        intro instr hi
        rw [put, if_neg (by omega), Nat.add_sub_cancel_left, Array.toList_setIfInBounds,
          List.map_set, hkeeps instr hi, ← hpre, set_between hk']
      split
      · next hret =>
        rw [hput _ (by simp)]
        refine .single ⟨_, t, hcall, fun code hcode => ?_, rfl⟩
        have hheld := heldBy_of_append hkeeps hpre hcode
        exact ⟨_, hheld.jumps_landing _, hheld _ _ hret (by simp)⟩
      · obtain ⟨_, heq⟩ := List.getElem?_eq_some_iff.1 hcall
        rw [hput _ (by simp), ← heq, List.set_getElem_self]
  · exact .refl

theorem tailSteps_resolveAt {f : Instr α → Instr α} (hf : KeepsInstrs f)
    {pre post : List (Instr α)} (hpre : pre.length = s.start) (addrs : List Nat) :
    ReflTransGen TailStep (pre ++ s.code.toList.map (f ∘ Instr.bindCall starts) ++ post)
      (pre ++ (addrs.foldl (resolveAt starts) s).code.toList.map (f ∘ Instr.bindCall starts)
        ++ post) := by
  induction addrs generalizing s with
  | nil => exact .refl
  | cons addr rest ih =>
    have hrest := ih (s := resolveAt starts s addr) (by rw [start_resolveAt, hpre])
    exact (tailStep_resolveAt hf hpre addr).trans hrest

end Segment

/-- Tail calls turn plain calls into what resolving makes of the open calls. -/
theorem Shortens.link {base : Nat} {xs ys : List (Instr α)} (h : Shortens base xs ys)
    (starts : List Nat) :
    Shortens base (Segment.callRules starts ⟨base, xs.toArray⟩).code.toList
      (Segment.resolveCalls starts ⟨base, ys.toArray⟩).code.toList := by
  intro f hf pre post hpre
  have hinner := h (f ∘ Instr.bindCall starts) (hf.comp (keepsInstrs_bindCall starts)) pre post hpre
  have hcalls : ReflTransGen TailStep (pre ++ ys.map (f ∘ Instr.bindCall starts) ++ post)
      (pre ++ (Segment.resolveCalls starts ⟨base, ys.toArray⟩).code.toList.map
        (f ∘ Instr.bindCall starts) ++ post) :=
    Segment.tailSteps_resolveAt (s := ⟨base, ys.toArray⟩) hf hpre
      (Segment.mk base ys.toArray).addresses
  have hplain : (Segment.callRules starts ⟨base, xs.toArray⟩).code.toList.map f
      = xs.map (f ∘ Instr.bindCall starts) := by
    simp [Segment.callRules]
  have hdone : (Segment.resolveCalls starts ⟨base, ys.toArray⟩).code.toList.map
        (f ∘ Instr.bindCall starts)
      = (Segment.resolveCalls starts ⟨base, ys.toArray⟩).code.toList.map f := by
    refine List.map_congr_left fun instr hmem => congrArg f ?_
    cases instr with
    | openCall i => rw [Instr.bindCall, Segment.none_of_resolveCalls hmem]
    | _ => rfl
  rw [hplain, ← hdone]
  exact hinner.trans hcalls

/-! ## The code of an expression -/

theorem starts_congr {base : Nat} {codes codes' : List (List (Instr α))}
    (h : codes.map List.length = codes'.map List.length) :
    Instr.starts base codes = Instr.starts base codes' := by
  induction codes generalizing base codes' with
  | nil =>
    cases codes' with
    | nil => rfl
    | cons code' rest' => cases h
  | cons code rest ih =>
    cases codes' with
    | nil => cases h
    | cons code' rest' =>
      simp only [List.map_cons, List.cons.injEq] at h
      rw [Instr.starts, Instr.starts, h.1, ih h.2]

theorem shortens_emitRules {rules all : List (Rule α)}
    (ih : ∀ r ∈ rules, ∀ base, Shortens base
      (r.body.emit Segment.callRules all false none .full base)
      (r.body.emit Segment.resolveCalls all false none .full base)) (base : Nat) :
    (emitRules Segment.callRules rules all base).map List.length
        = (emitRules Segment.resolveCalls rules all base).map List.length ∧
      Shortens base (emitRules Segment.callRules rules all base).flatten
        (emitRules Segment.resolveCalls rules all base).flatten := by
  induction rules generalizing base with
  | nil => exact ⟨rfl, .refl⟩
  | cons r rest ihrest =>
    obtain ⟨name, body⟩ := r
    rw [List.forall_mem_cons] at ih
    have hret : ∀ b, Shortens b [Instr.ret] [(Instr.ret : Instr α)] := fun _ => .refl
    have hbody := (ih.1 base).append (hret _) rfl
    have hlen := hbody.length_eq
    simp only [emitRules, List.map_cons, List.flatten_cons, hlen]
    obtain ⟨hlens, hrest⟩ := ihrest ih.2
      (base + (body.emit Segment.callRules all false none .full base ++ [Instr.ret]).length)
    exact ⟨by rw [hlens], hbody.append hrest rfl⟩

/-- **Tail calls turn the plain code of an expression into the code that compilation makes.** -/
theorem shortens_emit (e : Expr α) (rules : List (Rule α)) (reuse : Bool) (guard : Option Guard)
    (follow : CharSet) (base : Nat) :
    Shortens base (e.emit Segment.callRules rules reuse guard follow base)
      (e.emit Segment.resolveCalls rules reuse guard follow base) := by
  induction e generalizing rules reuse guard follow base with
  | seq first second ih₁ ih₂ =>
    simp only [emit, (ih₁ _ _ _ _ _).length_eq]
    exact (ih₁ _ _ _ _ _).append (ih₂ _ _ _ _ _) rfl
  | choice first second ih₁ ih₂ =>
    simp only [emit, (ih₁ _ _ _ _ _).length_eq, (ih₂ _ _ _ _ _).length_eq]
    split
    · refine .append (.append (.cons _ (ih₁ _ _ _ _ _) rfl) .refl rfl) (ih₂ _ _ _ _ _) ?_
      split <;> simp only [List.length_append, List.length_cons, List.length_nil] <;> omega
    · split
      · exact .cons _ (ih₁ _ _ _ _ _) rfl
      · refine .append (.append .refl (.cons _ (ih₁ _ _ _ _ _) ?_) rfl)
          (.cons _ (ih₂ _ _ _ _ _) ?_) rfl
        · rw [Instr.length_headTest]
        · simp only [List.length_append, List.length_cons, Instr.length_headTest]
          omega
  | star body ih =>
    simp only [emit]
    split
    · exact .refl
    · simp only [(ih _ _ _ _ _).length_eq]
      split
      · exact .append (.cons _ (ih _ _ _ _ _) rfl) .refl rfl
      · refine .append (.append .refl (.cons _ (ih _ _ _ _ _) ?_) rfl) .refl rfl
        rw [Instr.length_headTest]
  | not body ih =>
    simp only [emit]
    split
    · exact .refl
    · simp only [(ih _ _ _ _ _).length_eq]
      refine .append (.append .refl (.cons _ (ih _ _ _ _ _) ?_) rfl) .refl rfl
      rw [Instr.length_headTest]
  | and body ih =>
    simp only [emit]
    split
    · exact .append (ih _ _ _ _ _) .refl rfl
    · simp only [(ih _ _ _ _ _).length_eq]
      exact .append (.cons _ (ih _ _ _ _ _) rfl) .refl rfl
  | behind width body ih =>
    simp only [emit]
    split
    · exact ih _ _ _ _ _
    · exact .cons _ (ih _ _ _ _ _) rfl
  | action a body ih =>
    simp only [emit]
    exact .append (.cons _ (ih _ _ _ _ _) rfl) .refl rfl
  | grammar inner ih =>
    simp only [emit]
    obtain ⟨hlens, hrules⟩ := shortens_emitRules (fun r hr => ih r hr inner false none .full)
      (base + 2)
    have hlength := hrules.length_eq
    simp only [List.size_toArray, starts_congr hlens, hlength]
    exact .cons _ (.cons _ (hrules.link _) rfl) rfl
  | _ => simp only [emit]; exact .refl

end PegMachine
