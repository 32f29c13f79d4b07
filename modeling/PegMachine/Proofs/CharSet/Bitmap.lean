import Mathlib.Data.Finset.Card
import Mathlib.Data.Finset.Range
import Mathlib.Data.List.GetD
import Mathlib.Data.Nat.Count
import Mathlib.Order.Bounds.Basic
import PegMachine.CharSet.Bitmap

/-!
# Bitmaps are sets

A row of bits stands for the set of the places of its ones, and zeros at the end do not matter to
it.  So there is one row only for a set if no row ends with a zero (`Bits.eq_of_getD_eq`).  That the
rows of bitmaps do not has a reason of its own for each operation.  A row that is made longer gets a
one at its new end, a row that is joined with another one has its end where the longer of the two
has its end, and the other operations trim their result.

* `getD_resize`, `getD_fill`, `getD_trim`, … — the bit at each place.
* `Bitmap.contains_union`, … — the members of the results of the operations.
* `Bitmap.Canonical` — no zero is at the end, and no place is past the last code point; the lemmas
  `Canonical.insert?`, … say that the operations keep this.
-/

set_option autoImplicit false

namespace PegMachine

/-! ## Rows of bits -/

namespace Bits

variable {bits bits' : List Bool} {c n lo hi : Nat}

theorem lt_length_of_getD (h : bits.getD c false = true) : c < bits.length := by
  by_contra hlt
  rw [List.getD_eq_default _ _ (Nat.not_lt.1 hlt)] at h
  cases h

theorem getD_take : (bits.take n).getD c false = (decide (c < n) && bits.getD c false) := by
  rw [List.getD_eq_getElem?_getD, List.getD_eq_getElem?_getD, List.getElem?_take]
  split <;> simp_all

/-- A row that is not cut off keeps its bits. -/
theorem getD_resize (h : bits.length ≤ n) : (resize n bits).getD c false = bits.getD c false := by
  rw [resize, List.take_of_length_le h]
  rcases Nat.lt_or_ge c bits.length with hlt | hge
  · rw [List.getD_append _ _ _ _ hlt]
  · rw [List.getD_append_right _ _ _ _ hge, List.getD_eq_default _ _ hge,
      List.getD_eq_getElem?_getD, List.getElem?_replicate]
    split <;> rfl

theorem length_resize : (resize n bits).length = n := by
  rw [resize, List.length_append, List.length_take, List.length_replicate]
  omega

theorem length_fill (h : hi < bits.length) (hle : lo ≤ hi) :
    (fill lo hi bits).length = bits.length := by
  simp only [fill, List.length_append, List.length_take, List.length_replicate, List.length_drop]
  omega

theorem getD_fill (h : hi < bits.length) (hle : lo ≤ hi) :
    (fill lo hi bits).getD c false = (bits.getD c false || decide (lo ≤ c ∧ c ≤ hi)) := by
  rw [fill, List.getD_eq_getElem?_getD, List.getD_eq_getElem?_getD, List.append_assoc]
  rcases Nat.lt_or_ge c lo with h1 | h1
  · rw [List.getElem?_append_left (by rw [List.length_take]; omega), List.getElem?_take_of_lt h1]
    simp [Nat.not_le.2 h1]
  · have hlo : (bits.take lo).length = lo := by rw [List.length_take]; omega
    rw [List.getElem?_append_right (by omega), hlo]
    rcases Nat.lt_or_ge hi c with h2 | h2
    · rw [List.getElem?_append_right (by rw [List.length_replicate]; omega), List.length_replicate,
        List.getElem?_drop, show hi + 1 + (c - lo - (hi + 1 - lo)) = c by omega]
      simp [Nat.not_le.2 h2]
    · rw [List.getElem?_append_left (by rw [List.length_replicate]; omega),
        List.getElem?_replicate, if_pos (by omega)]
      simp [h1, h2]

theorem getD_set {b : Bool} (h : n < bits.length) :
    (bits.set n b).getD c false = if c = n then b else bits.getD c false := by
  rw [List.getD_eq_getElem?_getD, List.getD_eq_getElem?_getD, List.getElem?_set]
  by_cases hc : c = n
  · subst hc
    simp [h]
  · rw [if_neg (Ne.symm hc), if_neg hc]

theorem getD_map_not : (bits.map (!·)).getD c false
    = (decide (c < bits.length) && !bits.getD c false) := by
  rw [List.getD_eq_getElem?_getD, List.getD_eq_getElem?_getD, List.getElem?_map]
  by_cases h : c < bits.length <;> simp [h]

/-- Where one of the rows ends, so does the row of what both have. -/
theorem getD_zipWith {op : Bool → Bool → Bool} (h : c < min bits.length bits'.length) :
    (List.zipWith op bits bits').getD c false = op (bits.getD c false) (bits'.getD c false) := by
  have h1 : c < bits.length := by omega
  have h2 : c < bits'.length := by omega
  simp [List.getD_eq_getElem?_getD, h1, h2]

/-! ## No zeros at the end -/

/-- The row does not end with a zero. -/
def Trimmed (bits : List Bool) : Prop := ∀ n, bits.length = n + 1 → bits.getD n false = true

theorem trimmed_iff : Trimmed bits ↔ bits.getLast? ≠ some false := by
  cases h : bits.length with
  | zero =>
    rw [List.eq_nil_of_length_eq_zero h]
    simp [Trimmed]
  | succ n =>
    have hn : n < bits.length := by omega
    have hlast : bits.getLast? = some bits[n] := by
      rw [List.getLast?_eq_getElem?, h]
      exact List.getElem?_eq_getElem hn
    rw [hlast, Trimmed]
    constructor
    · intro ht heq
      have := ht n h
      rw [List.getD_eq_getElem _ _ hn, Option.some.inj heq] at this
      cases this
    · intro hne m hm
      obtain rfl : m = n := by omega
      rw [List.getD_eq_getElem _ _ hn]
      exact Bool.not_eq_false _ ▸ fun heq => hne (congrArg some heq)

/-- Rows without zeros at their ends are determined by the places of their ones. -/
theorem eq_of_getD_eq (h : Trimmed bits) (h' : Trimmed bits')
    (heq : ∀ c, bits.getD c false = bits'.getD c false) : bits = bits' := by
  have hle : ∀ xs ys : List Bool, Trimmed xs → (∀ c, xs.getD c false = ys.getD c false) →
      xs.length ≤ ys.length := by
    intro xs ys hxs hc
    cases hn : xs.length with
    | zero => exact Nat.zero_le _
    | succ n => exact lt_length_of_getD (hc n ▸ hxs n hn)
  have hlen : bits.length = bits'.length :=
    Nat.le_antisymm (hle _ _ h heq) (hle _ _ h' fun c => (heq c).symm)
  refine List.ext_getElem hlen fun c hc hc' => ?_
  have := heq c
  rwa [List.getD_eq_getElem _ _ hc, List.getD_eq_getElem _ _ hc'] at this

theorem lastOne?_eq_none (h : lastOne? bits = none) (c : Nat) : bits.getD c false = false := by
  induction bits generalizing c with
  | nil => rfl
  | cons b rest ih =>
    rw [lastOne?] at h
    split at h
    · cases h
    · next hrest =>
      cases b with
      | true => cases h
      | false =>
        cases c with
        | zero => rfl
        | succ c => exact ih hrest c

theorem lastOne?_eq_some {i : Nat} (h : lastOne? bits = some i) :
    bits.getD i false = true ∧ ∀ c, i < c → bits.getD c false = false := by
  induction bits generalizing i with
  | nil => cases h
  | cons b rest ih =>
    rw [lastOne?] at h
    split at h
    · next j hj =>
      cases h
      obtain ⟨hone, hzeros⟩ := ih hj
      refine ⟨hone, fun c hc => ?_⟩
      cases c with
      | zero => omega
      | succ c => exact hzeros c (by omega)
    · next hrest =>
      cases b with
      | false => cases h
      | true =>
        cases h
        refine ⟨rfl, fun c hc => ?_⟩
        cases c with
        | zero => omega
        | succ c => exact lastOne?_eq_none hrest c

theorem length_trim_le : (trim bits).length ≤ bits.length := by
  rw [trim, List.length_take]
  exact Nat.min_le_right _ _

/-- Trimming leaves all bits as they are. -/
theorem getD_trim : (trim bits).getD c false = bits.getD c false := by
  rw [trim, getD_take]
  cases h : lastOne? bits with
  | none => rw [lastOne?_eq_none h, Bool.and_false]
  | some i =>
    rcases Nat.lt_or_ge i c with hlt | hge
    · rw [(lastOne?_eq_some h).2 c hlt, Bool.and_false]
    · have : c < i + 1 := by omega
      simp [this]

theorem trimmed_trim : Trimmed (trim bits) := by
  intro n hn
  rw [getD_trim]
  rw [trim, List.length_take] at hn
  cases h : lastOne? bits with
  | none =>
    rw [h] at hn
    simp at hn
  | some i =>
    obtain ⟨hone, -⟩ := lastOne?_eq_some h
    have := lt_length_of_getD hone
    rw [h, Option.elim_some] at hn
    obtain rfl : n = i := by omega
    exact hone

/-! ## Ones -/

theorem mem_ones : c ∈ ones bits ↔ bits.getD c false = true := by
  rw [ones, List.mem_filter, List.mem_range]
  exact ⟨And.right, fun h => ⟨lt_length_of_getD h, h⟩⟩

theorem any_iff : bits.any id = true ↔ ∃ c, bits.getD c false = true := by
  rw [List.any_eq_true]
  constructor
  · rintro ⟨b, hb, rfl⟩
    obtain ⟨c, hc, hget⟩ := List.getElem_of_mem hb
    exact ⟨c, by rw [List.getD_eq_getElem _ _ hc]; exact hget⟩
  · rintro ⟨c, hc⟩
    have hlt := lt_length_of_getD hc
    rw [List.getD_eq_getElem _ _ hlt] at hc
    exact ⟨bits[c], List.getElem_mem hlt, hc⟩

/-- Clearing bits one after the other clears all of them. -/
theorem getD_foldl_clear {cs : List Nat} (h : ∀ c ∈ cs, c < bits.length) :
    (cs.foldl (fun bits c => bits.set c false) bits).getD c false
      = (bits.getD c false && !decide (c ∈ cs)) := by
  induction cs generalizing bits with
  | nil => simp
  | cons d cs ih =>
    rw [List.forall_mem_cons] at h
    rw [List.foldl_cons, ih (by simpa using h.2), getD_set h.1]
    by_cases hc : c = d <;> simp [hc]

theorem length_foldl_clear {cs : List Nat} :
    (cs.foldl (fun bits c => bits.set c false) bits).length = bits.length := by
  induction cs generalizing bits with
  | nil => rfl
  | cons d cs ih => rw [List.foldl_cons, ih, List.length_set]

/-- There are as many ones as places of ones. -/
theorem count_eq_card : bits.count true
    = ((Finset.range bits.length).filter fun c => bits.getD c false = true).card := by
  rw [← Nat.count_eq_card_filter_range]
  induction bits with
  | nil => rfl
  | cons b rest ih =>
    rw [List.count_cons, ih, List.length_cons, Nat.count_succ']
    simp only [List.getD_cons_succ, List.getD_cons_zero, beq_iff_eq]

/-- The first one has only zeros in front of it. -/
theorem idxOf?_eq_some_iff {i : Nat} :
    bits.idxOf? true = some i ↔ bits.getD i false = true ∧ ∀ c < i, bits.getD c false = false := by
  refine List.findIdx?_eq_some_iff_getElem.trans ⟨?_, ?_⟩
  · rintro ⟨hi, hone, hzeros⟩
    rw [List.getD_eq_getElem _ _ hi]
    refine ⟨beq_iff_eq.1 hone, fun c hc => ?_⟩
    rw [List.getD_eq_getElem _ _ (Nat.lt_trans hc hi)]
    simpa using hzeros c hc
  · rintro ⟨hone, hzeros⟩
    have hi := lt_length_of_getD hone
    refine ⟨hi, ?_, fun c hc => ?_⟩
    · rw [← List.getD_eq_getElem _ false hi, hone, beq_self_eq_true]
    · rw [← List.getD_eq_getElem _ false, hzeros c hc]
      exact Bool.false_ne_true

end Bits

/-! ## The operations -/

namespace Bitmap

open Bits

variable {s t : Bitmap} {c lo hi : Nat}

/-- The row does not end with a zero, and there is no bit that is for no code point. -/
structure Canonical (s : Bitmap) : Prop where
  trimmed : Trimmed s.bits
  bounded : s.bits.length ≤ codePoints

theorem contains_empty (c : Nat) : empty.contains c = false := rfl

theorem canonical_empty : empty.Canonical := ⟨fun _ h => by simp [empty] at h, Nat.zero_le _⟩

theorem contains_full (c : Nat) : full.contains c = decide (c < codePoints) := by
  rw [contains, full, List.getD_eq_getElem?_getD, List.getElem?_replicate]
  split <;> simp_all

theorem canonical_full : full.Canonical where
  trimmed n hn := by
    have hlt : n < codePoints := by
      rw [full, List.length_replicate] at hn
      omega
    have h := contains_full n
    rwa [decide_eq_true hlt] at h
  bounded := by rw [full, List.length_replicate]

/-- When ones are added to a row as far as place `hi`, the result ends with a one if the row did,
since it ends with the row or at this place. -/
theorem Canonical.of_extended {bits : List Bool} (hs : s.Canonical) (hhi : hi < codePoints)
    (hlen : bits.length = max s.bits.length (hi + 1)) (hend : bits.getD hi false = true)
    (hkeeps : ∀ c, s.contains c = true → bits.getD c false = true) : Canonical ⟨bits⟩ where
  trimmed n hn := by
    rw [hlen] at hn
    rcases Nat.lt_or_ge n s.bits.length with hlt | hge
    · exact hkeeps n (hs.trimmed n (by omega))
    · obtain rfl : n = hi := by omega
      exact hend
  bounded := by
    have := hs.bounded
    show bits.length ≤ codePoints
    omega

/-- A code point can be added, and then it is a member. -/
theorem insert?_spec (hs : s.Canonical) (hc : c ≤ maxCodePoint) :
    ∃ t, s.insert? c = some t ∧ t.Canonical ∧ ∀ d, t.contains d = (s.contains d || d == c) := by
  have hlen : (resize (max s.bits.length (c + 1)) s.bits).length = _ := length_resize
  have hget : ∀ d, ((resize (max s.bits.length (c + 1)) s.bits).set c true).getD d false
      = (s.contains d || d == c) := by
    intro d
    rw [getD_set (by omega), getD_resize (Nat.le_max_left ..), contains]
    by_cases hd : d = c <;> simp [hd]
  refine ⟨_, by rw [insert?, if_neg (Nat.not_lt.2 hc)], ?_, hget⟩
  have hlt : c < codePoints := Nat.lt_succ_of_le hc
  refine hs.of_extended hlt (by rw [List.length_set, hlen]) ?_ fun d hd => ?_
  · rw [hget, beq_self_eq_true, Bool.or_true]
  · rw [hget, hd, Bool.true_or]

/-- A range of code points can be added, and then they are members. -/
theorem insertRange?_spec (hs : s.Canonical) (hhi : lo ≤ hi → hi ≤ maxCodePoint) :
    ∃ t, s.insertRange? lo hi = some t ∧ t.Canonical ∧
      ∀ d, t.contains d = (s.contains d || decide (lo ≤ d ∧ d ≤ hi)) := by
  rcases Nat.lt_or_ge hi lo with hlt | hle
  · refine ⟨s, by rw [insertRange?, if_pos hlt], hs, fun d => ?_⟩
    rw [decide_eq_false (by omega), Bool.or_false]
  · have hlen : (resize (max s.bits.length (hi + 1)) s.bits).length = _ := length_resize
    have hget : ∀ d, (fill lo hi (resize (max s.bits.length (hi + 1)) s.bits)).getD d false
        = (s.contains d || decide (lo ≤ d ∧ d ≤ hi)) := by
      intro d
      rw [getD_fill (by omega) hle, getD_resize (Nat.le_max_left ..), contains]
    refine ⟨⟨fill lo hi (resize (max s.bits.length (hi + 1)) s.bits)⟩, ?_, ?_, hget⟩
    · rw [insertRange?, if_neg (Nat.not_lt.2 hle), if_neg (Nat.not_lt.2 (hhi hle))]
    have hlt : hi < codePoints := Nat.lt_succ_of_le (hhi hle)
    refine hs.of_extended hlt (by rw [length_fill (by omega) hle, hlen]) ?_ fun d hd => ?_
    · rw [hget, decide_eq_true ⟨hle, Nat.le_refl hi⟩, Bool.or_true]
    · rw [hget, hd, Bool.true_or]

theorem ofString_spec (text : String) :
    (ofString text).Canonical ∧ ∀ d, (ofString text).contains d
      = text.toList.any fun c => d == c.toNat := by
  suffices h : ∀ (cs : List Char) (s : Bitmap), s.Canonical →
      (cs.foldl (fun s c => (s.insert? c.toNat).getD s) s).Canonical ∧
        ∀ d, (cs.foldl (fun s c => (s.insert? c.toNat).getD s) s).contains d
          = (s.contains d || cs.any fun c => d == c.toNat) from
    h text.toList empty canonical_empty
  intro cs
  induction cs with
  | nil => exact fun s hs => ⟨hs, fun d => by simp⟩
  | cons c cs ih =>
    intro s hs
    obtain ⟨t, ht, hcanon, hcontains⟩ := insert?_spec hs (CharSet.val_le_maxCodePoint c)
    rw [List.foldl_cons, ht, Option.getD_some]
    obtain ⟨hfold, hmem⟩ := ih t hcanon
    refine ⟨hfold, fun d => ?_⟩
    rw [hmem, hcontains, List.any_cons, Bool.or_assoc]

theorem length_union : (s.union t).bits.length = max s.bits.length t.bits.length := by
  simp only [union, List.length_append, List.length_zipWith, List.length_take, List.length_drop,
    length_resize]
  omega

theorem contains_union (s t : Bitmap) (c : Nat) :
    (s.union t).contains c = (s.contains c || t.contains c) := by
  have hlen : (resize (max s.bits.length t.bits.length) s.bits).length = _ := length_resize
  simp only [union, contains]
  generalize hbits : resize (max s.bits.length t.bits.length) s.bits = bits at hlen
  have hget : bits.getD c false = s.bits.getD c false := by
    rw [← hbits, getD_resize (Nat.le_max_left ..)]
  have hzip : (List.zipWith (· || ·) (bits.take t.bits.length) t.bits).length = t.bits.length := by
    rw [List.length_zipWith, List.length_take]
    omega
  rcases Nat.lt_or_ge c t.bits.length with hlt | hge
  · rw [List.getD_append _ _ _ _ (by omega), getD_zipWith (by rw [List.length_take]; omega),
      getD_take, hget, decide_eq_true hlt, Bool.true_and]
  · rw [List.getD_append_right _ _ _ _ (by omega), hzip, List.getD_eq_default t.bits _ hge,
      Bool.or_false, ← hget, List.getD_eq_getElem?_getD, List.getElem?_drop,
      Nat.add_sub_cancel' hge, List.getD_eq_getElem?_getD]

theorem Canonical.union (hs : s.Canonical) (ht : t.Canonical) : (s.union t).Canonical where
  trimmed n hn := by
    rw [length_union] at hn
    have hmem : s.contains n = true ∨ t.contains n = true := by
      rcases Nat.le_total t.bits.length s.bits.length with hle | hle
      · exact .inl (hs.trimmed n (by omega))
      · exact .inr (ht.trimmed n (by omega))
    have h := contains_union s t n
    rwa [Bool.or_eq_true_iff.2 hmem] at h
  bounded := by
    rw [length_union]
    exact Nat.max_le.2 ⟨hs.bounded, ht.bounded⟩

/-- Trimming leaves the members as they are, and makes the row the only one for them. -/
theorem canonical_trim {bits : List Bool} (h : bits.length ≤ codePoints) :
    Canonical ⟨trim bits⟩ :=
  ⟨trimmed_trim, Nat.le_trans length_trim_le h⟩

theorem getD_common (s t : Bitmap) (c : Nat) :
    (common s t).getD c false = (s.contains c && t.contains c) := by
  rw [common, contains, contains]
  by_cases hc : c < min s.bits.length t.bits.length
  · rw [getD_zipWith (by simp only [List.length_take]; omega), getD_take, getD_take,
      decide_eq_true hc, Bool.true_and, Bool.true_and]
  · rw [List.getD_eq_default _ _ (by simp only [List.length_zipWith, List.length_take]; omega)]
    rcases Nat.lt_or_ge c s.bits.length with hlt | hge
    · rw [List.getD_eq_default t.bits _ (by omega), Bool.and_false]
    · rw [List.getD_eq_default s.bits _ hge, Bool.false_and]

theorem contains_inter (s t : Bitmap) (c : Nat) :
    (s.inter t).contains c = (s.contains c && t.contains c) := by
  rw [← getD_common]
  exact getD_trim

theorem Canonical.inter (hs : s.Canonical) : (s.inter t).Canonical := by
  refine canonical_trim (Nat.le_trans ?_ hs.bounded)
  simp only [common, List.length_zipWith, List.length_take]
  omega

theorem intersects_iff : s.intersects t = true
    ↔ ∃ c, s.contains c = true ∧ t.contains c = true := by
  rw [intersects, any_iff]
  simp only [getD_common, Bool.and_eq_true]

theorem contains_diff (s t : Bitmap) (c : Nat) :
    (s.diff t).contains c = (s.contains c && !t.contains c) := by
  have hones : ∀ d, d ∈ ones (t.bits.take (min s.bits.length t.bits.length))
      ↔ d < s.bits.length ∧ t.contains d = true := by
    intro d
    rw [mem_ones, getD_take, Bool.and_eq_true, decide_eq_true_eq, contains]
    exact ⟨fun h => ⟨by omega, h.2⟩, fun h => ⟨by have := lt_length_of_getD h.2; omega, h.2⟩⟩
  refine getD_trim.trans ?_
  rw [getD_foldl_clear fun d hd => ((hones d).1 hd).1]
  by_cases hc : c < s.bits.length
  · simp only [hones, hc, true_and, Bool.decide_eq_true, contains]
  · rw [contains, List.getD_eq_default s.bits _ (Nat.not_lt.1 hc), Bool.false_and, Bool.false_and]

theorem Canonical.diff (hs : s.Canonical) : (s.diff t).Canonical :=
  canonical_trim (by rw [length_foldl_clear]; exact hs.bounded)

theorem contains_complement (hs : s.Canonical) (c : Nat) :
    s.complement.contains c = (decide (c < codePoints) && !s.contains c) := by
  refine getD_trim.trans ?_
  rw [getD_map_not, length_resize, getD_resize hs.bounded, contains]

theorem canonical_complement (s : Bitmap) : s.complement.Canonical :=
  canonical_trim (by rw [List.length_map, length_resize])

end Bitmap
end PegMachine
