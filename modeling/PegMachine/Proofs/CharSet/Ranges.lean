import PegMachine.Proofs.CharSet.Recipes
import PegMachine.Proofs.CharSet.Runs

/-!
# Listing the runs of a set, and building it from them

The runs of a bitmap are listed by a walk along its row.  It goes on to the next one, where a run
starts, and from there to the next zero or to the end of the row, where the run has ended.  This
file shows that what is listed in this way are the maximal runs, and that a set is put together
again from its runs, no matter in which order they are added.

* `Walk.Lists` — what a walk answers until it has no more runs.  That this comes to an end is
  `Walk.lists_rest`.
* `Walk.maximalRuns_of_lists` — wherever the walk is, what it still lists are the maximal runs of
  the members ahead of it.  Behind a run there is a zero, so the next run does not start there
  (`Walk.Passes.gap`).
* `Recipe.make_ofRanges` — sets are built from their ranges.
* `Recipe.maximalRuns_of_make` — all this for every set that can be built.
-/

set_option autoImplicit false

namespace PegMachine

/-! ## The walk -/

namespace Walk

variable {bits : List Bool} {w w' : Walk bits} {r : Nat × Nat} {rs : List (Nat × Nat)} {c : Nat}

/-- Asked for the next run again and again, the walk answers with the runs `rs` one after the other,
and then there is none. -/
inductive Lists : Walk bits → List (Nat × Nat) → Prop where
  | done {w : Walk bits} (hnone : w.next? = none) : Lists w []
  | found {w w' : Walk bits} {r : Nat × Nat} {rs : List (Nat × Nat)}
      (hnext : w.next? = some (r, w')) (hrest : Lists w' rs) : Lists w (r :: rs)

/-- Every walk comes to an end. -/
theorem lists_rest (w : Walk bits) : w.Lists w.rest := by
  fun_induction rest w with
  | case1 w hnone => exact .done hnone
  | case2 w r w' hnext ih => exact .found hnext ih

/-- The members that are ahead of the walk. -/
def ahead (w : Walk bits) (c : Nat) : Bool := decide (w.pos ≤ c) && bits.getD c false

theorem ahead_iff : w.ahead c = true ↔ w.pos ≤ c ∧ bits[c]? = some true := by
  rw [ahead, Bool.and_eq_true, decide_eq_true_eq, List.getD_eq_getElem?_getD]
  cases bits[c]? <;> simp

/-- A walk that finds no more runs has no more members ahead. -/
theorem ahead_eq_false (h : w.next? = none) (c : Nat) : w.ahead c = false := by
  refine Bool.eq_false_iff.2 fun hahead => ?_
  obtain ⟨hpos, hone⟩ := ahead_iff.1 hahead
  obtain ⟨hlt, -⟩ := List.getElem?_eq_some_iff.1 hone
  rw [next?] at h
  split at h
  · next hnone =>
    have hzero := Bits.of_idxOf?_drop_eq_none (Option.map_eq_none_iff.1 hnone) hpos hlt
    rw [hone] at hzero
    cases hzero
  · cases h

/-- What is ahead of the walk is the next run, and what is ahead after that. -/
theorem Passes.ahead_iff (h : w.Passes r w') (c : Nat) :
    w.ahead c = true ↔ (r.1 ≤ c ∧ c ≤ r.2) ∨ w'.ahead c = true := by
  have hpos := h.pos_eq
  rw [Walk.ahead_iff, Walk.ahead_iff]
  constructor
  · rintro ⟨hle, hone⟩
    rcases Nat.lt_or_ge c r.1 with hlt | hge
    · rw [h.zeros c hle hlt] at hone
      cases hone
    · rcases Nat.lt_or_ge r.2 c with hlt | hle
      · exact .inr ⟨by omega, hone⟩
      · exact .inl ⟨hge, hle⟩
  · rintro (⟨hge, hle⟩ | ⟨hle, hone⟩)
    · exact ⟨Nat.le_trans h.ahead hge, h.ones c hge hle⟩
    · have := h.ahead
      have := h.le
      exact ⟨by omega, hone⟩

/-- The next run does not touch the one that has been found. -/
theorem Passes.gap (h : w.Passes r w') (c : Nat) (hc : w'.ahead c = true) : r.2 + 2 ≤ c := by
  obtain ⟨hle, hone⟩ := Walk.ahead_iff.1 hc
  have hne : c ≠ r.2 + 1 := fun heq => h.ends (heq ▸ hone)
  have hpos := h.pos_eq
  omega

/-- A walk lists the maximal runs of the members that are ahead of it. -/
theorem maximalRuns_of_lists (h : w.Lists rs) : MaximalRuns w.ahead rs := by
  induction h with
  | done hnone => exact .nil (ahead_eq_false hnone)
  | found hnext _ ih =>
    have hpasses := passes_of_next? hnext
    exact ih.cons hpasses.le hpasses.gap hpasses.ahead_iff

end Walk

namespace Bitmap

variable {s t : Bitmap} {c lo hi : Nat}

theorem maximalRuns_ranges (s : Bitmap) : MaximalRuns s.contains s.ranges := by
  have hahead : s.walk.ahead = s.contains := by
    funext c
    rw [Walk.ahead, walk, decide_eq_true (Nat.zero_le c), Bool.true_and, contains]
  exact hahead ▸ Walk.maximalRuns_of_lists s.walk.lists_rest

theorem le_of_insert? (h : s.insert? c = some t) : c ≤ maxCodePoint := by
  rw [insert?] at h
  split at h
  · cases h
  · next hle => exact Nat.not_lt.1 hle

theorem le_of_insertRange? (h : s.insertRange? lo hi = some t) (hle : lo ≤ hi) :
    hi ≤ maxCodePoint := by
  rw [insertRange?, if_neg (Nat.not_lt.2 hle)] at h
  split at h
  · cases h
  · next hle => exact Nat.not_lt.1 hle

end Bitmap

/-! ## Building sets from ranges -/

namespace Recipe

variable {p : Recipe} {s : CharSet} {b : Bitmap} {rs : List (Nat × Nat)} {c : Nat}

/-- Where a set has been built, nothing has been put into it that is no code point. -/
theorem inUniverse_of_make (h : p.make Bitmap.ops = some b) : p.inUniverse := by
  induction p generalizing b with
  | empty => trivial
  | full => trivial
  | ofString text => trivial
  | insert p c ih =>
    obtain ⟨s, hs, hins⟩ := Option.bind_eq_some_iff.1 h
    exact ⟨ih hs, Bitmap.le_of_insert? hins⟩
  | insertRange p lo hi ih =>
    obtain ⟨s, hs, hins⟩ := Option.bind_eq_some_iff.1 h
    exact ⟨ih hs, Bitmap.le_of_insertRange? hins⟩
  | union p q ihp ihq | inter p q ihp ihq | diff p q ihp ihq =>
    obtain ⟨s, hs, hrest⟩ := Option.bind_eq_some_iff.1 h
    obtain ⟨t, ht, -⟩ := Option.bind_eq_some_iff.1 hrest
    exact ⟨ihp hs, ihq ht⟩
  | complement p ih =>
    obtain ⟨s, hs, -⟩ := Option.bind_eq_some_iff.1 h
    exact ih hs

theorem inUniverse_ofRanges (h : ∀ r ∈ rs, r.2 ≤ maxCodePoint) : (ofRanges rs).inUniverse := by
  suffices hfold : ∀ p : Recipe, p.inUniverse →
      (rs.foldl (fun s r => insertRange s r.1 r.2) p).inUniverse from hfold empty trivial
  induction rs with
  | nil => exact fun p hp => hp
  | cons r rs ih =>
    rw [List.forall_mem_cons] at h
    exact fun p hp => ih h.2 (insertRange p r.1 r.2) ⟨hp, fun _ => h.1⟩

theorem mem_members_ofRanges : c ∈ (ofRanges rs).members ↔ ∃ r ∈ rs, r.1 ≤ c ∧ c ≤ r.2 := by
  suffices hfold : ∀ p : Recipe, c ∈ (rs.foldl (fun s r => insertRange s r.1 r.2) p).members ↔
      c ∈ p.members ∨ ∃ r ∈ rs, r.1 ≤ c ∧ c ≤ r.2 by
    rw [ofRanges, hfold]
    simp [members]
  induction rs with
  | nil => simp
  | cons r rs ih =>
    intro p
    rw [List.foldl_cons, ih, members, Finset.mem_union, Finset.mem_Icc]
    simp only [List.mem_cons, or_and_right, exists_or, exists_eq_left, or_assoc]

/-- **A set is built from its ranges, in whatever order they are added.** -/
theorem make_ofRanges {m : Finset Nat} (h : Represents s b m) (hrs : rs.Perm s.ranges) :
    (ofRanges rs).make CharSet.ops = some s ∧ (ofRanges rs).make Bitmap.ops = some b := by
  have hruns := s.maximalRuns_ranges
  have hbound : ∀ r ∈ rs, r.2 ≤ maxCodePoint := fun r hr => by
    have hmem := hrs.mem_iff.1 hr
    exact CharSet.le_of_contains ((hruns.mem_iff r.2).2 ⟨r, hmem, hruns.le r hmem, Nat.le_refl _⟩)
  have hmembers : (ofRanges rs).members = m := Finset.ext fun c => by
    rw [mem_members_ofRanges, ← h.toggles, hruns.mem_iff]
    simp only [hrs.mem_iff]
  obtain ⟨s', b', hs, hb, h'⟩ := exists_make (inUniverse_ofRanges hbound)
  obtain ⟨hs', hb'⟩ := h'.eq_iff h
  exact ⟨hs.trans (congrArg some (hs'.2 hmembers)), hb.trans (congrArg some (hb'.2 hmembers))⟩

/-- **The ranges of a set are its maximal runs**, however it is built and be it kept as toggles or
as a bitmap.  The walk that lists them comes to an end, there is a gap between any two of the pairs,
the members are what lies in them, every maximal run is among them, and putting them into the empty
set in any order makes the same set again. -/
theorem maximalRuns_of_make (hb : p.make Bitmap.ops = some b) :
    b.walk.Lists b.ranges ∧ MaximalRuns b.contains b.ranges ∧
      (∀ lo hi, (lo, hi) ∈ b.ranges ↔ IsMaximalRun b.contains lo hi) ∧
      ∃ s, p.make CharSet.ops = some s ∧ MaximalRuns s.contains s.ranges ∧ s.ranges = b.ranges ∧
        ∀ rs, rs.Perm b.ranges →
          (ofRanges rs).make Bitmap.ops = some b ∧ (ofRanges rs).make CharSet.ops = some s := by
  obtain ⟨s, b', hs, hb', h⟩ := exists_make (inUniverse_of_make hb)
  obtain rfl : b' = b := Option.some.inj (hb'.symm.trans hb)
  have hruns := b'.maximalRuns_ranges
  have hcontains : s.contains = b'.contains := funext fun c =>
    (h.contains_eq c).1.trans (h.contains_eq c).2.symm
  have hranges : s.ranges = b'.ranges := (hcontains ▸ s.maximalRuns_ranges).unique hruns
  exact ⟨b'.walk.lists_rest, hruns, fun _ _ => hruns.mem_iff_isMaximalRun, s, hs,
    s.maximalRuns_ranges, hranges, fun rs hrs => (make_ofRanges h (hranges ▸ hrs)).symm⟩

/-- One run starts with the row and another one ends with it, where larger members have been taken
away; the last run is added first. -/
theorem maximalRuns_of_make_lastFirst :
    let p : Recipe := .diff (.insertRange (.insert .empty 0) 2 6) (.insertRange .empty 5 9)
    let b : Bitmap := ⟨[true, false, true, true, true]⟩
    p.make Bitmap.ops = some b ∧ b.ranges = [(0, 0), (2, 4)] ∧ b.walk.Lists b.ranges ∧
      MaximalRuns b.contains b.ranges ∧
      (∀ lo hi, (lo, hi) ∈ b.ranges ↔ IsMaximalRun b.contains lo hi) ∧
      ∃ s, p.make CharSet.ops = some s ∧ MaximalRuns s.contains s.ranges ∧ s.ranges = b.ranges ∧
        [(2, 4), (0, 0)].Perm b.ranges ∧ (ofRanges [(2, 4), (0, 0)]).make Bitmap.ops = some b ∧
        (ofRanges [(2, 4), (0, 0)]).make CharSet.ops = some s := by
  intro p b
  have hb : p.make Bitmap.ops = some b := by decide
  have hranges : b.ranges = [(0, 0), (2, 4)] := by cbv
  have hperm : [(2, 4), (0, 0)].Perm b.ranges := hranges ▸ .swap ..
  obtain ⟨hlists, hruns, hmem, s, hs, hsruns, heq, hbuilt⟩ := maximalRuns_of_make hb
  exact ⟨hb, hranges, hlists, hruns, hmem, s, hs, hsruns, heq, hperm, hbuilt _ hperm⟩

end Recipe
end PegMachine
