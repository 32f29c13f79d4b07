import PegMachine.CharClass
import PegMachine.Proofs.CharSet.Runs

/-!
# Compiled classes hold the characters of their sets

A program never tests a character against a set of code points but against the class made from it,
with ranges, single characters and tables that are searched by bisection.  This file shows that
nothing changes on the way: `contains_ofSet` says that the class of a set holds a code point exactly
if the set does.

The steps follow the making of a class.  The runs of a set hold its members
(`contains_iff_ranges`), collecting the runs into parts keeps the code points
(`anyContains_parts`), and looking a code point up in an ascending table finds it exactly if it is
there (`tableContains_iff`).
-/

set_option autoImplicit false

namespace PegMachine

namespace CharSet

/-! ## Members -/

theorem contains_iff_ranges (s : CharSet) (c : Nat) :
    s.contains c = true ↔ ∃ r ∈ s.ranges, r.1 ≤ c ∧ c ≤ r.2 :=
  s.maximalRuns_ranges.mem_iff c

theorem contains_of_isEmpty {s : CharSet} (h : s.isEmpty = true) (c : Nat) :
    s.contains c = false := by
  rw [isEmpty, List.isEmpty_iff] at h
  rw [contains, h]
  rfl

theorem contains_full {c : Nat} (hc : c ≤ maxCodePoint) : full.contains c = true := by
  simp [full, hc]

@[simp] theorem contains_full_char (c : Char) : full.contains c.toNat = true :=
  contains_full (val_le_maxCodePoint c)

theorem contains_ofChar (c d : Char) : (ofChar c).contains d.toNat = (d == c) := by
  rw [ofChar, ofCharRange, contains_range, Bool.eq_iff_iff]
  simp only [decide_eq_true_eq, beq_iff_eq]
  constructor
  · intro h
    exact Char.ext (UInt32.toNat_inj.1 (Nat.le_antisymm h.2 h.1))
  · rintro rfl
    exact ⟨Nat.le_refl _, Nat.le_refl _⟩

theorem contains_complement (s : CharSet) (c : Char) :
    s.complement.contains c.toNat = !s.contains c.toNat := by
  simp [complement]

/-- Sets that do not intersect have no member in common. -/
theorem not_contains_of_not_intersects {s t : CharSet} (h : s.intersects t = false) {c : Nat}
    (hs : s.contains c = true) : t.contains c = false := by
  rw [intersects, Bool.not_eq_false'] at h
  have hempty := contains_of_isEmpty h c
  rwa [contains_inter, hs, Bool.true_and] at hempty

/-! ## Extent -/

theorem not_contains_of_extent {s : CharSet} (h : s.extent = .none) (c : Nat) :
    s.contains c = false := by
  rw [extent] at h
  split at h
  · next hempty => exact contains_of_isEmpty hempty c
  · split at h
    · cases h
    · split at h <;> cases h

theorem eq_full_of_extent {s : CharSet} (h : s.extent = .all) : s = full := by
  rw [extent] at h
  split at h
  · cases h
  · split at h
    · next hfull => exact of_decide_eq_true hfull
    · split at h <;> cases h

/-- What the only member is when there is one. -/
theorem toggles_of_single? {s : CharSet} {c : Char} (h : s.single? = some c) :
    s.toggles = [c.toNat, c.toNat + 1] := by
  rcases htoggles : s.toggles with _ | ⟨x, _ | ⟨past, _ | ⟨y, rest⟩⟩⟩
  · rw [single?, htoggles] at h
    cases h
  · rw [single?, htoggles] at h
    cases h
  · rw [single?, htoggles] at h
    dsimp only at h
    by_cases hx : x.isValidChar ∧ past = x + 1
    · rw [dif_pos hx] at h
      obtain ⟨hvalid, rfl⟩ := hx
      cases h
      rfl
    · rw [dif_neg hx] at h
      cases h
  · rw [single?, htoggles] at h
    cases h

theorem contains_of_single? {s : CharSet} {c : Char} (h : s.single? = some c) (d : Char) :
    s.contains d.toNat = (d == c) := by
  rw [contains, toggles_of_single? h, Bool.eq_iff_iff, beq_iff_eq, ← Char.toNat_inj]
  simp only [inside]
  split
  · simp; omega
  · split
    · simp; omega
    · simp; omega

/-- The set that holds one character is the set of that character. -/
theorem contains_of_extent {s : CharSet} {c : Char} (h : s.extent = .one c) (d : Char) :
    s.contains d.toNat = (d == c) := by
  rw [extent] at h
  split at h
  · cases h
  · split at h
    · cases h
    · split at h
      · next c' hsingle =>
        cases h
        exact contains_of_single? hsingle d
      · cases h

end CharSet

namespace CharClass

/-! ## Tables -/

/-- Bisection finds a code point exactly if it is among the entries that it is to search. -/
theorem bisect_iff {cs : List Nat} (hcs : cs.Pairwise (· < ·)) {c base size : Nat}
    (hpos : 0 < size) (hsize : base + size ≤ cs.length) :
    bisect cs.toArray c base size = true ↔ ∃ i, base ≤ i ∧ i < base + size ∧ cs[i]? = some c := by
  fun_induction bisect cs.toArray c base size with
  | case1 base size h half middle ih =>
    have hmid : middle < cs.length := by omega
    have hget : cs.toArray.getD middle 0 = cs[middle] := by simp [Array.getD, hmid]
    -- an entry equal to `c` lies on the side of the middle that is kept
    have hside : ∀ i, cs[i]? = some c → (c < cs[middle] ↔ i < middle) := by
      intro i hi
      obtain ⟨hlt, rfl⟩ := List.getElem?_eq_some_iff.1 hi
      rw [List.pairwise_iff_getElem] at hcs
      rcases Nat.lt_trichotomy i middle with h | rfl | h
      · simp [h, hcs i middle hlt hmid h]
      · simp
      · have := hcs middle i hmid hlt h
        omega
    rw [hget] at ih ⊢
    by_cases hc : c < cs[middle]
    · rw [dif_pos hc] at ih
      rw [if_pos hc, ih (by omega) (by omega)]
      constructor
      · rintro ⟨i, h1, h2, h3⟩
        exact ⟨i, h1, by omega, h3⟩
      · rintro ⟨i, h1, h2, h3⟩
        have := (hside i h3).1 hc
        exact ⟨i, h1, by omega, h3⟩
    · rw [dif_neg hc] at ih
      rw [if_neg hc, ih (by omega) (by omega)]
      constructor
      · rintro ⟨i, h1, h2, h3⟩
        exact ⟨i, by omega, by omega, h3⟩
      · rintro ⟨i, h1, h2, h3⟩
        have := mt (hside i h3).2 hc
        exact ⟨i, by omega, by omega, h3⟩
  | case2 base size h =>
    have : size = 1 := by omega
    subst this
    simp only [List.getElem?_toArray, beq_iff_eq]
    constructor
    · intro h
      exact ⟨base, Nat.le_refl _, by omega, h⟩
    · rintro ⟨i, h1, h2, h3⟩
      obtain rfl : i = base := by omega
      exact h3

/-- The last entry of an ascending table is the largest. -/
theorem le_getLast {cs : List Nat} (hcs : cs.Pairwise (· < ·)) {c : Nat} (hc : c ∈ cs)
    {h : cs ≠ []} : c ≤ cs.getLast h := by
  obtain ⟨i, hi, rfl⟩ := List.getElem_of_mem hc
  rw [List.getLast_eq_getElem]
  rcases Nat.lt_or_ge i (cs.length - 1) with hlt | hge
  · exact Nat.le_of_lt (List.pairwise_iff_getElem.1 hcs i _ hi (by omega) hlt)
  · have : i = cs.length - 1 := by omega
    simp [this]

/-- A table holds its entries. -/
theorem tableContains_iff {cs : List Nat} (hcs : cs.Pairwise (· < ·)) {c : Nat} :
    tableContains cs c = true ↔ c ∈ cs := by
  cases cs with
  | nil => simp [tableContains]
  | cons lo rest =>
    have hlast : (lo :: rest).getLast? = some ((lo :: rest).getLast (by simp)) :=
      List.getLast?_eq_some_getLast (by simp)
    have hbis : bisect (lo :: rest).toArray c 0 (lo :: rest).length = true ↔ c ∈ lo :: rest := by
      rw [bisect_iff hcs (by simp) (by simp), List.mem_iff_getElem?]
      constructor
      · rintro ⟨i, -, -, hi⟩
        exact ⟨i, hi⟩
      · rintro ⟨i, hi⟩
        have := (List.getElem?_eq_some_iff.1 hi).1
        exact ⟨i, by omega, by omega, hi⟩
    simp only [tableContains, List.head?_cons, hlast, Bool.or_eq_true, Bool.and_eq_true,
      beq_iff_eq, decide_eq_true_eq, hbis]
    constructor
    · rintro ((rfl | rfl) | ⟨-, h⟩)
      · simp
      · exact List.getLast_mem _
      · exact h
    · intro h
      have hlo : lo ≤ c := by
        rcases List.mem_cons.1 h with rfl | h
        · exact Nat.le_refl _
        · exact Nat.le_of_lt (List.rel_of_pairwise_cons hcs h)
      have hhi : c ≤ (lo :: rest).getLast (by simp) :=
        le_getLast hcs h
      by_cases h1 : c = lo
      · exact .inl (.inl h1)
      · by_cases h2 : c = (lo :: rest).getLast (by simp)
        · exact .inl (.inr h2)
        · exact .inr ⟨by omega, h⟩

/-! ## Parts -/

theorem anyContains_append (ps qs : List CharClass) (c : Nat) :
    anyContains (ps ++ qs) c = (anyContains ps c || anyContains qs c) := by
  induction ps with
  | nil => simp [anyContains]
  | cons p ps ih => simp [anyContains, ih, Bool.or_assoc]

/-- Isolated code points in ascending order are the members of the part made from them. -/
theorem anyContains_isolated {cs : List Nat} (hcs : cs.Pairwise (· < ·)) (c : Nat) :
    anyContains (isolated cs) c = true ↔ c ∈ cs := by
  match cs, hcs with
  | [], _ => simp [isolated, anyContains]
  | [x], _ => simp [isolated, anyContains, contains]
  | x :: y :: rest, hcs =>
    simp only [isolated, anyContains, contains, Bool.or_false]
    exact tableContains_iff hcs

/-- The parts for a list of runs hold the code points of the runs, and those seen before. -/
theorem anyContains_parts {c : Nat} : ∀ {rs : List (Nat × Nat)} {seen : List Nat},
    seen.Pairwise (· < ·) → (∀ x ∈ seen, ∀ r ∈ rs, x < r.1) → (∀ r ∈ rs, r.1 ≤ r.2) →
    rs.Pairwise (fun r r' => r.2 < r'.1) →
    (anyContains (parts seen rs) c = true ↔ c ∈ seen ∨ ∃ r ∈ rs, r.1 ≤ c ∧ c ≤ r.2)
  | [], seen, hs, _, _, _ => by simp [parts, anyContains_isolated hs]
  | (lo, hi) :: rest, seen, hs, hlt, hle, hp => by
    have hlo : lo ≤ hi := hle (lo, hi) (by simp)
    have hrest : ∀ r ∈ rest, r.1 ≤ r.2 := fun r hr => hle r (by simp [hr])
    simp only [parts, List.mem_cons, or_and_right, exists_or, exists_eq_left]
    split
    · have ih : anyContains (parts [] rest) c = true ↔ c ∈ [] ∨ ∃ r ∈ rest, r.1 ≤ c ∧ c ≤ r.2 :=
        anyContains_parts .nil (by simp) hrest hp.of_cons
      rw [anyContains_append, anyContains, Bool.or_eq_true, Bool.or_eq_true, ih,
        anyContains_isolated hs, contains, decide_eq_true_eq]
      simp
    · have heq : hi = lo := by omega
      have hs' : (seen ++ [lo]).Pairwise (· < ·) := by
        refine List.pairwise_append.2 ⟨hs, by simp, fun x hx y hy => ?_⟩
        rw [List.mem_singleton] at hy
        exact hy ▸ hlt x hx (lo, hi) (by simp)
      have hlt' : ∀ x ∈ seen ++ [lo], ∀ r ∈ rest, x < r.1 := by
        intro x hx r hr
        rcases List.mem_append.1 hx with hx | hx
        · exact hlt x hx r (by simp [hr])
        · have := List.rel_of_pairwise_cons hp hr
          rw [List.mem_singleton] at hx
          omega
      rw [anyContains_parts hs' hlt' hrest hp.of_cons, List.mem_append, List.mem_singleton,
        or_assoc, heq]
      have : (c = lo) ↔ (lo ≤ c ∧ c ≤ lo) := by omega
      rw [this]

/-- The parts for the runs of a set hold the members of the set. -/
theorem anyContains_parts_ranges (s : CharSet) (c : Nat) :
    anyContains (parts [] s.ranges) c = s.contains c := by
  have hruns := s.maximalRuns_ranges
  have h := anyContains_parts (c := c) .nil (by simp) hruns.le hruns.ascending
  rw [Bool.eq_iff_iff, CharSet.contains_iff_ranges]
  simpa using h

/-- **The class of a set holds the code points of the set.** -/
theorem contains_ofSet (s : CharSet) {c : Nat} (hc : c ≤ maxCodePoint) :
    (ofSet s).contains c = s.contains c := by
  unfold ofSet
  split
  · next h => rw [CharSet.contains_of_isEmpty h, contains]
  · split
    · next h =>
      rw [CharSet.isFull, decide_eq_true_eq] at h
      rw [h, CharSet.contains_full hc, contains]
    · have hparts := anyContains_parts_ranges s c
      split
      · next p hp => rw [← hparts, hp, anyContains, anyContains, Bool.or_false]
      · rw [contains, hparts]

end CharClass
end PegMachine
