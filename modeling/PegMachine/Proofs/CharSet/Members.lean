import Mathlib.Data.Finset.Card
import Mathlib.Order.Bounds.Basic
import Mathlib.Order.Interval.Finset.Nat
import PegMachine.Proofs.CharClass

/-!
# Sets of code points and their members

A set of code points is given by its toggles, and these say more than which points are members: where
membership flips.  But it does flip where it does, so that sets with the same members have the same
toggles (`CharSet.eq_of_contains_eq`).  What the toggles are asked for can therefore be said of the
members: whether there are none, whether all code points are members, which is the smallest
(`first?_eq_some_iff`) and how many there are (`size_eq_card`).
-/

set_option autoImplicit false

namespace PegMachine.CharSet

variable {s t : CharSet} {c lo hi : Nat}

/-! ## Toggles and members -/

/-- Past all toggles, membership is what it has been turned into. -/
theorem inside_of_ge {state : Bool} {ts : List Nat} (h : ∀ u ∈ ts, u ≤ c) :
    inside state ts c = flipped state ts := by
  induction ts generalizing state with
  | nil => rfl
  | cons u ts ih =>
    rw [List.forall_mem_cons] at h
    rw [inside, if_neg (Nat.not_lt.2 h.1), flipped, ih h.2]

/-- At the first toggle membership is turned round. -/
theorem inside_head {state : Bool} {ts : List Nat} (h : (c :: ts).Pairwise (· < ·)) :
    inside state (c :: ts) c = !state := by
  rw [inside, if_neg (Nat.lt_irrefl c), inside_of_lt fun u hu => List.rel_of_pairwise_cons h hu]

/-- The smaller one of the first toggles is a toggle of one of the sets only. -/
theorem inside_head_ne {state : Bool} {xs ys : List Nat} (hx : (c :: xs).Pairwise (· < ·))
    (hy : ∀ u ∈ ys, c < u) : inside state (c :: xs) c ≠ inside state ys c := by
  rw [inside_head hx, inside_of_lt hy]
  cases state <;> simp

/-- Different toggles make different sets. -/
theorem eq_of_inside_eq {state : Bool} {xs ys : List Nat} (hx : xs.Pairwise (· < ·))
    (hy : ys.Pairwise (· < ·)) (h : ∀ c, inside state xs c = inside state ys c) : xs = ys := by
  induction xs generalizing ys state with
  | nil =>
    cases ys with
    | nil => rfl
    | cons y ys => exact absurd (h y).symm (inside_head_ne hy (List.forall_mem_nil _))
  | cons x xs ih =>
    cases ys with
    | nil => exact absurd (h x) (inside_head_ne hx (List.forall_mem_nil _))
    | cons y ys =>
      rcases Nat.lt_trichotomy x y with hlt | rfl | hlt
      · exact absurd (h x) (inside_head_ne hx (lt_all_of_lt_head hlt hy))
      · have hrest : ∀ c, inside (!state) xs c = inside (!state) ys c := by
          intro c
          rcases Nat.lt_or_ge c x with hc | hc
          · rw [inside_of_lt fun u hu => Nat.lt_trans hc (List.rel_of_pairwise_cons hx hu),
              inside_of_lt fun u hu => Nat.lt_trans hc (List.rel_of_pairwise_cons hy hu)]
          · simpa [inside, Nat.not_lt.2 hc] using h c
        exact congrArg (x :: ·) (ih hx.of_cons hy.of_cons hrest)
      · exact absurd (h y).symm (inside_head_ne hy (lt_all_of_lt_head hlt hx))

/-- **Sets with the same members are equal.** -/
theorem eq_of_contains_eq (h : ∀ c, s.contains c = t.contains c) : s = t := by
  have htoggles := eq_of_inside_eq s.ascending t.ascending h
  cases s
  cases t
  cases htoggles
  rfl

/-- Only code points are members. -/
theorem le_of_contains (h : s.contains c = true) : c ≤ maxCodePoint := by
  by_contra hlt
  have hout : s.contains c = false := by
    rw [contains, inside_of_ge fun u hu => ?_, s.closed]
    have := s.bounded u hu
    omega
  rw [hout] at h
  cases h

/-! ## Questions about sets -/

theorem isEmpty_iff : s.isEmpty = true ↔ ∀ c, s.contains c = false := by
  refine ⟨contains_of_isEmpty, fun h => ?_⟩
  rw [eq_of_contains_eq (t := empty) h]
  rfl

theorem contains_full_eq (c : Nat) : full.contains c = decide (c ≤ maxCodePoint) := by
  rw [full, contains_range]
  simp

theorem isFull_iff : s.isFull = true ↔ ∀ c ≤ maxCodePoint, s.contains c = true := by
  rw [isFull, decide_eq_true_eq]
  refine ⟨fun h c hc => h ▸ contains_full hc, fun h => eq_of_contains_eq fun c => ?_⟩
  rw [contains_full_eq, Bool.eq_iff_iff, decide_eq_true_eq]
  exact ⟨le_of_contains, h c⟩

theorem intersects_iff : s.intersects t = true ↔ ∃ c, s.contains c = true ∧ t.contains c = true := by
  have h : s.intersects t = false ↔ ∀ c, (s.inter t).contains c = false := by
    rw [intersects, Bool.not_eq_false', isEmpty_iff]
  rw [← Bool.not_eq_false, h]
  simp

/-- The first toggle is the smallest member. -/
theorem first?_eq_some_iff :
    s.first? = some c ↔ s.contains c = true ∧ ∀ d, s.contains d = true → c ≤ d := by
  have hleast : ∀ c, s.first? = some c →
      s.contains c = true ∧ ∀ d, s.contains d = true → c ≤ d := by
    intro c h
    rw [first?, List.head?_eq_some_iff] at h
    obtain ⟨rest, hrest⟩ := h
    have hasc := s.ascending
    rw [hrest] at hasc
    refine ⟨by rw [contains, hrest, inside_head hasc]; rfl, fun d hd => ?_⟩
    by_contra hlt
    rw [contains, hrest, inside, if_pos (Nat.not_le.1 hlt)] at hd
    cases hd
  refine ⟨hleast c, ?_⟩
  rintro ⟨hc, hmin⟩
  cases h : s.first? with
  | none =>
    rw [first?, List.head?_eq_none_iff] at h
    rw [contains, h] at hc
    cases hc
  | some d =>
    obtain ⟨hd, hmin'⟩ := hleast d h
    exact congrArg some (Nat.le_antisymm (hmin' c hc) (hmin d hd))

/-- The lengths of the runs add up to the number of points in them. -/
theorem card_of_runs {rs : List (Nat × Nat)} (hle : ∀ r ∈ rs, r.1 ≤ r.2)
    (hasc : rs.Pairwise fun r r' => r.2 < r'.1) {m : Finset Nat}
    (hm : ∀ c, c ∈ m ↔ ∃ r ∈ rs, r.1 ≤ c ∧ c ≤ r.2) :
    rs.foldr (fun r n => r.2 + 1 - r.1 + n) 0 = m.card := by
  induction rs generalizing m with
  | nil =>
    have : m = ∅ := Finset.eq_empty_of_forall_notMem fun c hc => by simpa using (hm c).1 hc
    rw [this]
    rfl
  | cons r rs ih =>
    rw [List.forall_mem_cons] at hle
    have hlater : ∀ r' ∈ rs, r.2 < r'.1 := fun r' hr' => List.rel_of_pairwise_cons hasc hr'
    have hrest : ∀ c, c ∈ m.filter (r.2 < ·) ↔ ∃ r' ∈ rs, r'.1 ≤ c ∧ c ≤ r'.2 := by
      intro c
      rw [Finset.mem_filter, hm]
      constructor
      · rintro ⟨⟨r', hr', hc⟩, hlt⟩
        rcases List.mem_cons.1 hr' with rfl | hr'
        · omega
        · exact ⟨r', hr', hc⟩
      · rintro ⟨r', hr', hc⟩
        have := hlater r' hr'
        exact ⟨⟨r', List.mem_cons_of_mem _ hr', hc⟩, by omega⟩
    have hfirst : m.filter (¬ r.2 < ·) = Finset.Icc r.1 r.2 := by
      ext c
      rw [Finset.mem_filter, Finset.mem_Icc, hm]
      constructor
      · rintro ⟨⟨r', hr', hc⟩, hge⟩
        rcases List.mem_cons.1 hr' with rfl | hr'
        · exact hc
        · have := hlater r' hr'
          omega
      · exact fun hc => ⟨⟨r, List.mem_cons_self, hc⟩, by omega⟩
    rw [List.foldr_cons, ih hle.2 hasc.of_cons hrest,
      ← Finset.card_filter_add_card_filter_not (s := m) (r.2 < ·), hfirst, Nat.card_Icc, Nat.add_comm]

/-- The size of a set is the number of its members. -/
theorem size_eq_card {m : Finset Nat} (hm : ∀ c, s.contains c = true ↔ c ∈ m) :
    s.size = m.card := by
  have hruns := s.maximalRuns_ranges
  exact card_of_runs hruns.le hruns.ascending fun c => (hm c).symm.trans (hruns.mem_iff c)

/-! ## Adding code points -/

theorem insertRange?_spec (hhi : lo ≤ hi → hi ≤ maxCodePoint) :
    ∃ t, s.insertRange? lo hi = some t ∧
      ∀ d, t.contains d = (s.contains d || decide (lo ≤ d ∧ d ≤ hi)) := by
  rcases Nat.lt_or_ge hi lo with hlt | hle
  · refine ⟨s, by rw [insertRange?, if_pos hlt], fun d => ?_⟩
    rw [decide_eq_false (by omega), Bool.or_false]
  · refine ⟨s.union (range lo hi (hhi hle)), ?_, fun d => ?_⟩
    · rw [insertRange?, if_neg (Nat.not_lt.2 hle), dif_pos (hhi hle)]
    · rw [contains_union, contains_range]

theorem insert?_spec (hc : c ≤ maxCodePoint) :
    ∃ t, s.insert? c = some t ∧ ∀ d, t.contains d = (s.contains d || d == c) := by
  have hrange : c ≤ c → c ≤ maxCodePoint := fun _ => hc
  obtain ⟨t, ht, hmem⟩ := insertRange?_spec (s := s) hrange
  refine ⟨t, ht, fun d => ?_⟩
  rw [hmem, Bool.eq_iff_iff, Bool.or_eq_true, Bool.or_eq_true, decide_eq_true_eq, beq_iff_eq]
  exact or_congr_right (by omega)

theorem contains_ofString (text : String) (d : Nat) :
    (ofString text).contains d = text.toList.any fun c => d == c.toNat := by
  suffices h : ∀ (cs : List Char) (s : CharSet),
      (cs.foldl (fun s c => s.union (ofChar c)) s).contains d
        = (s.contains d || cs.any fun c => d == c.toNat) from h text.toList empty
  intro cs
  induction cs with
  | nil => simp
  | cons c cs ih =>
    intro s
    have hchar : (ofChar c).contains d = (d == c.toNat) := by
      rw [ofChar, ofCharRange, contains_range, Bool.eq_iff_iff, decide_eq_true_eq, beq_iff_eq]
      omega
    rw [List.foldl_cons, ih, contains_union, hchar, List.any_cons, Bool.or_assoc]

end PegMachine.CharSet
