import PegMachine.Proofs.Code.Layout
import PegMachine.Proofs.Code.Running
import PegMachine.Proofs.Expr.HeadSet

/-!
# Instructions about the next character

Which instruction consumes a character of a set, or tests for one, depends on how much the set holds
and on what is known about the next character already.  What the instruction does does not:
`exec_forSet` and `exec_forTest` say that it consumes, and tests, as the set says.  For the first,
what is taken to be known has to be true, `Established`.
-/

set_option autoImplicit false

namespace PegMachine

open Machine

variable {α σ : Type}

/-- What a guard says about the next character is true. -/
def Established (guard : Option Guard) (subject : Array Char) (pos : Nat) : Prop :=
  ∀ g, guard = some g → ∃ c, subject[pos]? = some c ∧ g.admits c = true

theorem established_none (subject : Array Char) (pos : Nat) : Established none subject pos := by
  intro g h
  cases h

/-- A passed test establishes what its guard says. -/
theorem established_ofSet {s : CharSet} {subject : Array Char} {pos : Nat} {c : Char}
    (hc : subject[pos]? = some c) (hs : s.contains c.toNat = true) :
    Established (Guard.ofSet s) subject pos := by
  intro g hg
  refine ⟨c, hc, ?_⟩
  rw [Guard.ofSet] at hg
  split at hg
  · next d hd =>
    cases hg
    rw [Guard.admits, ← CharSet.contains_of_extent hd, hs]
  · cases hg
    exact hs
  · cases hg
  · cases hg

theorem established_guard {h : Head} {subject : Array Char} {pos : Nat}
    (hn : h.needsChar = true → ∃ c, subject[pos]? = some c ∧ h.chars.contains c.toNat = true) :
    Established h.guard subject pos := by
  rw [Head.guard]
  split
  · next hneeds =>
    obtain ⟨c, hc, hs⟩ := hn hneeds
    exact established_ofSet hc hs
  · exact established_none subject pos

namespace Machine

/-- What is consumed depends on the answer for the next character only. -/
theorem consumeIf_congr {want want' : Char → Bool} {subject : Array Char} {s : State α σ}
    (h : ∀ c, subject[s.pos]? = some c → want c = want' c) :
    consumeIf want subject s = consumeIf want' subject s := by
  rw [consumeIf, consumeIf]
  split
  · next c hc => rw [h c hc]
  · rfl

theorem testFor_congr {want want' : Char → Bool} (h : ∀ c, want c = want' c) (t : Nat)
    (subject : Array Char) (s : State α σ) : testFor want t subject s = testFor want' t subject s := by
  rw [funext h]

theorem consumeIf_false (subject : Array Char) (s : State α σ) :
    consumeIf (fun _ => false) subject s = s.fail := by
  rw [consumeIf]
  split <;> rfl

theorem testFor_false (t : Nat) (subject : Array Char) (s : State α σ) :
    testFor (fun _ => false) t subject s = .next (s.goto t) := by
  rw [testFor]
  split <;> rfl

end Machine

namespace Instr

variable (acts : Actions α σ) (start : Nat)

theorem exec_forChar {c : Char} {guard : Option Guard} {subject : Array Char} {s : State α σ}
    (hg : Established guard subject s.pos) :
    exec acts subject start (forChar c guard) s = consumeIf (fun d => d == c) subject s := by
  rw [forChar]
  split
  · next heq =>
    obtain ⟨d, hd, hadmits⟩ := hg _ heq
    refine consumeIf_congr fun d' hd' => ?_
    rw [hd] at hd'
    cases hd'
    exact hadmits.symm
  · rfl

/-- The instruction that is to consume a character of a set does so. -/
theorem exec_forSet {set : CharSet} {guard : Option Guard} {subject : Array Char} {s : State α σ}
    (hg : Established guard subject s.pos) :
    exec acts subject start (forSet set guard) s
      = consumeIf (fun c => set.contains c.toNat) subject s := by
  rw [forSet]
  split
  · next h =>
    simp only [CharSet.not_contains_of_extent h, consumeIf_false]
    rfl
  · next h =>
    refine consumeIf_congr fun c _ => ?_
    rw [CharSet.eq_full_of_extent h, CharSet.contains_full_char]
  · next c h =>
    rw [exec_forChar acts start hg]
    exact consumeIf_congr fun d _ => (CharSet.contains_of_extent h d).symm
  · split
    · next heq =>
      obtain ⟨d, hd, hadmits⟩ := hg _ heq
      refine consumeIf_congr fun d' hd' => ?_
      rw [hd] at hd'
      cases hd'
      exact hadmits.symm
    · exact consumeIf_congr fun d _ => CharClass.contains_ofSet set (CharSet.val_le_maxCodePoint d)

/-- The test for a set tests for it. -/
theorem exec_forTest (set : CharSet) (t : Nat) (subject : Array Char) (s : State α σ) :
    exec acts subject start (forTest set t) s
      = testFor (fun c => set.contains c.toNat) t subject s := by
  rw [forTest]
  split
  · next h =>
    simp only [CharSet.not_contains_of_extent h, testFor_false]
    rfl
  · next h =>
    refine testFor_congr (fun c => ?_) t subject s
    rw [CharSet.eq_full_of_extent h, CharSet.contains_full_char]
  · next c h => exact testFor_congr (fun d => (CharSet.contains_of_extent h d).symm) t subject s
  · rfl

end Instr

/-- A class becomes one instruction, which consumes a character of its set. -/
theorem Expr.exists_emit_of_class? {e : Expr α} {set : CharSet} (h : e.class? = some set)
    (link : List Nat → Segment α → Segment α) (rules : List (Rule α)) (reuse : Bool)
    (guard : Option Guard) (follow : CharSet) (base : Nat) :
    ∃ instr, e.emit link rules reuse guard follow base = [instr] ∧ (∀ i, instr ≠ .openCall i) ∧
      ∀ (acts : Actions α σ) (subject : Array Char) (start : Nat) (s : State α σ),
        Established guard subject s.pos →
          exec acts subject start instr s = consumeIf (fun c => set.contains c.toNat) subject s := by
  rcases Expr.class?_eq_some h with ⟨c, rfl, rfl⟩ | rfl | ⟨rfl, rfl⟩
  · refine ⟨.forChar c guard, by rw [emit], Instr.forChar_ne_openCall c guard,
      fun acts subject start s hg => ?_⟩
    rw [Instr.exec_forChar acts start hg]
    exact consumeIf_congr fun d _ => (CharSet.contains_ofChar c d).symm
  · exact ⟨.forSet set guard, by rw [emit], Instr.forSet_ne_openCall set guard,
      fun acts subject start s hg => Instr.exec_forSet acts start hg⟩
  · refine ⟨.any, by rw [emit], by simp, fun acts subject start s _ => ?_⟩
    exact consumeIf_congr fun c _ => (CharSet.contains_full_char c).symm

namespace Ending

variable {E : Ending α σ} {s : State α σ} {a t q : Nat} {fs : List (Firing α)}

/-- A test goes on one way or the other. -/
theorem from_forTest {set : CharSet} (hi : E.code[a]? = some (.forTest set t))
    (hpass : ∀ c, E.subject[q]? = some c → set.contains c.toNat = true →
      E.From (s.reach (a + 1) q fs))
    (hfail : (∀ c, E.subject[q]? = some c → set.contains c.toNat = false) →
      E.From (s.reach t q fs)) : E.From (s.reach a q fs) := by
  by_cases h : ∃ c, E.subject[q]? = some c ∧ set.contains c.toNat = true
  · obtain ⟨c, hc, hs⟩ := h
    exact from_test hi (Instr.exec_forTest _ _ _ _ _ _) hc hs (hpass c hc hs)
  · simp only [not_exists, not_and, Bool.not_eq_true] at h
    exact from_test_fail hi (Instr.exec_forTest _ _ _ _ _ _) h (hfail h)

/-- So does the test for a head, which is not there if the head does not need a character. -/
theorem from_headTest {call : Nat → Nat → Prop} {h : Head}
    (hp : Placed E.code call a (Instr.headTest h t))
    (hpass : (h.needsChar = true →
        ∃ c, E.subject[q]? = some c ∧ h.chars.contains c.toNat = true) →
      E.From (s.reach (a + h.testLength) q fs))
    (hfail : h.needsChar = true →
      (∀ c, E.subject[q]? = some c → h.chars.contains c.toNat = false) →
      E.From (s.reach t q fs)) : E.From (s.reach a q fs) := by
  rw [Head.testLength] at hpass
  rw [Instr.headTest] at hp
  by_cases hn : h.needsChar = true
  · rw [if_pos hn] at hpass hp
    have hi := (placed_cons.1 hp).1.eq (Instr.forTest_ne_openCall h.chars t)
    exact from_forTest hi (fun c hc hs => hpass fun _ => ⟨c, hc, hs⟩) (hfail hn)
  · rw [if_neg hn] at hpass
    exact hpass fun h => absurd h hn

end Ending
end PegMachine
