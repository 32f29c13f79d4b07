import PegMachine.Proofs.CharSet.Bitmap
import PegMachine.Proofs.CharSet.Members

/-!
# However a set is built

A set of code points is built by a number of operations from sets that are built before.  In theory
each of them is an operation on finite sets of numbers (`Recipe.members`).  What is built is a set
with just these members, be it kept as toggles or as a bitmap, and all questions about it are
answered accordingly: `Recipe.faithful_of_inUniverse`.

This comes down to one lemma, `Recipe.exists_make`, by induction on how the set is built: an
operation on sets that have the right members, of which the bitmap has no zeros at its end, makes a
set of which the same can be said.
-/

set_option autoImplicit false

namespace PegMachine

/-! ## What is built -/

namespace Recipe

/-- All that is put into a set are code points. -/
def inUniverse : Recipe → Prop
  | empty => True
  | full => True
  | ofString _ => True
  | insert s c => s.inUniverse ∧ c ≤ maxCodePoint
  | insertRange s lo hi => s.inUniverse ∧ (lo ≤ hi → hi ≤ maxCodePoint)
  | union s t => s.inUniverse ∧ t.inUniverse
  | inter s t => s.inUniverse ∧ t.inUniverse
  | diff s t => s.inUniverse ∧ t.inUniverse
  | complement s => s.inUniverse

/-- The members of the set that is built, in theory. -/
def members : Recipe → Finset Nat
  | empty => ∅
  | full => Finset.range codePoints
  | ofString text => (text.toList.map Char.toNat).toFinset
  | insert s c => Insert.insert c s.members
  | insertRange s lo hi => s.members ∪ Finset.Icc lo hi
  | union s t => s.members ∪ t.members
  | inter s t => s.members ∩ t.members
  | diff s t => s.members \ t.members
  | complement s => Finset.range codePoints \ s.members

end Recipe

/-! ## The same members -/

/-- The members of the set and those of the bitmap are the members of the finite set, and the bitmap
is the only one with these members. -/
structure Represents (s : CharSet) (b : Bitmap) (m : Finset Nat) : Prop where
  toggles : ∀ c, s.contains c = true ↔ c ∈ m
  bits : ∀ c, b.contains c = true ↔ c ∈ m
  canonical : b.Canonical

namespace Represents

variable {s t : CharSet} {b d : Bitmap} {m n : Finset Nat} {c lo hi : Nat}

theorem empty : Represents .empty .empty ∅ where
  toggles c := by simp
  bits c := by simp [Bitmap.contains_empty]
  canonical := Bitmap.canonical_empty

theorem full : Represents .full .full (Finset.range codePoints) where
  toggles c := by
    rw [CharSet.contains_full_eq, decide_eq_true_eq, Finset.mem_range, codePoints, Nat.lt_succ_iff]
  bits c := by rw [Bitmap.contains_full, decide_eq_true_eq, Finset.mem_range]
  canonical := Bitmap.canonical_full

theorem ofString (text : String) :
    Represents (.ofString text) (.ofString text) (text.toList.map Char.toNat).toFinset := by
  have hmem : ∀ c, (text.toList.any fun d => c == d.toNat) = true
      ↔ c ∈ (text.toList.map Char.toNat).toFinset := by
    intro c
    rw [List.any_eq_true, List.mem_toFinset, List.mem_map]
    exact exists_congr fun d => and_congr_right' (beq_iff_eq.trans eq_comm)
  obtain ⟨hcanon, hbits⟩ := Bitmap.ofString_spec text
  exact ⟨fun c => by rw [CharSet.contains_ofString, hmem], fun c => by rw [hbits, hmem], hcanon⟩

theorem insert (h : Represents s b m) (hc : c ≤ maxCodePoint) :
    ∃ s' b', s.insert? c = some s' ∧ b.insert? c = some b' ∧ Represents s' b' (Insert.insert c m) := by
  obtain ⟨s', hs, hmem⟩ := CharSet.insert?_spec (s := s) hc
  obtain ⟨b', hb, hcanon, hbit⟩ := Bitmap.insert?_spec h.canonical hc
  refine ⟨s', b', hs, hb, fun e => ?_, fun e => ?_, hcanon⟩
  · simp [hmem, h.toggles, or_comm]
  · simp [hbit, h.bits, or_comm]

theorem insertRange (h : Represents s b m) (hhi : lo ≤ hi → hi ≤ maxCodePoint) :
    ∃ s' b', s.insertRange? lo hi = some s' ∧ b.insertRange? lo hi = some b' ∧
      Represents s' b' (m ∪ Finset.Icc lo hi) := by
  obtain ⟨s', hs, hmem⟩ := CharSet.insertRange?_spec (s := s) hhi
  obtain ⟨b', hb, hcanon, hbit⟩ := Bitmap.insertRange?_spec h.canonical hhi
  refine ⟨s', b', hs, hb, fun e => ?_, fun e => ?_, hcanon⟩
  · simp [hmem, h.toggles]
  · simp [hbit, h.bits]

theorem union (h : Represents s b m) (h' : Represents t d n) :
    Represents (s.union t) (b.union d) (m ∪ n) where
  toggles c := by simp [h.toggles, h'.toggles]
  bits c := by simp [Bitmap.contains_union, h.bits, h'.bits]
  canonical := h.canonical.union h'.canonical

theorem inter (h : Represents s b m) (h' : Represents t d n) :
    Represents (s.inter t) (b.inter d) (m ∩ n) where
  toggles c := by simp [h.toggles, h'.toggles]
  bits c := by simp [Bitmap.contains_inter, h.bits, h'.bits]
  canonical := h.canonical.inter

theorem diff (h : Represents s b m) (h' : Represents t d n) :
    Represents (s.diff t) (b.diff d) (m \ n) where
  toggles c := by simp [h.toggles, ← h'.toggles]
  bits c := by simp [Bitmap.contains_diff, h.bits, ← h'.bits]
  canonical := h.canonical.diff

theorem complement (h : Represents s b m) :
    Represents s.complement b.complement (Finset.range codePoints \ m) where
  toggles c := (full.diff h).toggles c
  bits c := by simp [Bitmap.contains_complement h.canonical, ← h.bits]
  canonical := Bitmap.canonical_complement b

end Represents

namespace Recipe

/-- What is built has the members that it has in theory. -/
theorem exists_make {p : Recipe} (hp : p.inUniverse) :
    ∃ s b, p.make CharSet.ops = some s ∧ p.make Bitmap.ops = some b ∧ Represents s b p.members := by
  induction p with
  | empty => exact ⟨_, _, rfl, rfl, .empty⟩
  | full => exact ⟨_, _, rfl, rfl, .full⟩
  | ofString text => exact ⟨_, _, rfl, rfl, .ofString text⟩
  | insert p c ih =>
    obtain ⟨s, b, hs, hb, h⟩ := ih hp.1
    obtain ⟨s', b', hs', hb', h'⟩ := h.insert hp.2
    exact ⟨s', b', by rw [make, hs]; exact hs', by rw [make, hb]; exact hb', h'⟩
  | insertRange p lo hi ih =>
    obtain ⟨s, b, hs, hb, h⟩ := ih hp.1
    obtain ⟨s', b', hs', hb', h'⟩ := h.insertRange hp.2
    exact ⟨s', b', by rw [make, hs]; exact hs', by rw [make, hb]; exact hb', h'⟩
  | union p q ihp ihq =>
    obtain ⟨s, b, hs, hb, h⟩ := ihp hp.1
    obtain ⟨t, d, ht, hd, h'⟩ := ihq hp.2
    exact ⟨_, _, by rw [make, hs, ht]; rfl, by rw [make, hb, hd]; rfl, h.union h'⟩
  | inter p q ihp ihq =>
    obtain ⟨s, b, hs, hb, h⟩ := ihp hp.1
    obtain ⟨t, d, ht, hd, h'⟩ := ihq hp.2
    exact ⟨_, _, by rw [make, hs, ht]; rfl, by rw [make, hb, hd]; rfl, h.inter h'⟩
  | diff p q ihp ihq =>
    obtain ⟨s, b, hs, hb, h⟩ := ihp hp.1
    obtain ⟨t, d, ht, hd, h'⟩ := ihq hp.2
    exact ⟨_, _, by rw [make, hs, ht]; rfl, by rw [make, hb, hd]; rfl, h.diff h'⟩
  | complement p ih =>
    obtain ⟨s, b, hs, hb, h⟩ := ih hp
    exact ⟨_, _, by rw [make, hs]; rfl, by rw [make, hb]; rfl, h.complement⟩

end Recipe

/-! ## All questions -/

/-- All that can be asked about one set is answered for the set and for the bitmap as it is for the
finite set; and the row of bits does not end with a zero, nor go on past the last code point. -/
structure Faithful (s : CharSet) (b : Bitmap) (m : Finset Nat) : Prop where
  contains : ∀ c, s.contains c = decide (c ∈ m) ∧ b.contains c = decide (c ∈ m)
  size : s.size = m.card ∧ b.size = m.card
  first : ∀ c, (s.first? = some c ↔ IsLeast (m : Set Nat) c) ∧
    (b.first? = some c ↔ IsLeast (m : Set Nat) c)
  isEmpty : (s.isEmpty = true ↔ m = ∅) ∧ (b.isEmpty = true ↔ m = ∅)
  isFull : (s.isFull = true ↔ m = Finset.range codePoints) ∧
    (b.isFull = true ↔ m = Finset.range codePoints)
  trimmed : b.bits.getLast? ≠ some false
  bounded : b.bits.length ≤ codePoints

namespace Represents

variable {s t : CharSet} {b d : Bitmap} {m n : Finset Nat}

theorem contains_eq (h : Represents s b m) (c : Nat) :
    s.contains c = decide (c ∈ m) ∧ b.contains c = decide (c ∈ m) :=
  ⟨Bool.eq_iff_iff.2 ((h.toggles c).trans decide_eq_true_iff.symm),
    Bool.eq_iff_iff.2 ((h.bits c).trans decide_eq_true_iff.symm)⟩

theorem size (h : Represents s b m) : s.size = m.card ∧ b.size = m.card := by
  refine ⟨CharSet.size_eq_card h.toggles, ?_⟩
  rw [Bitmap.size, Bits.count_eq_card]
  congr 1
  ext c
  rw [Finset.mem_filter, Finset.mem_range, ← h.bits]
  exact ⟨And.right, fun hc => ⟨Bits.lt_length_of_getD hc, hc⟩⟩

theorem first (h : Represents s b m) (c : Nat) :
    (s.first? = some c ↔ IsLeast (m : Set Nat) c) ∧
      (b.first? = some c ↔ IsLeast (m : Set Nat) c) := by
  constructor
  · simp only [CharSet.first?_eq_some_iff, h.toggles]
    rfl
  · rw [Bitmap.first?, Bits.idxOf?_eq_some_iff]
    refine and_congr (h.bits c) (forall_congr' fun d => ?_)
    rw [Finset.mem_coe, ← h.bits, ← Nat.not_lt, ← Bool.not_eq_true]
    exact imp_not_comm

theorem isEmpty (h : Represents s b m) : (s.isEmpty = true ↔ m = ∅) ∧ (b.isEmpty = true ↔ m = ∅) := by
  rw [CharSet.isEmpty_iff, Bitmap.isEmpty, Bool.not_eq_true', ← Bool.not_eq_true, Bits.any_iff,
    not_exists, Finset.eq_empty_iff_forall_notMem]
  exact ⟨forall_congr' fun c => by rw [← h.toggles, Bool.not_eq_true],
    forall_congr' fun c => not_congr (h.bits c)⟩

theorem subset (h : Represents s b m) : m ⊆ Finset.range codePoints := by
  intro c hc
  have hlt := Bits.lt_length_of_getD ((h.bits c).2 hc)
  exact Finset.mem_range.2 (Nat.lt_of_lt_of_le hlt h.canonical.bounded)

theorem isFull (h : Represents s b m) : (s.isFull = true ↔ m = Finset.range codePoints) ∧
    (b.isFull = true ↔ m = Finset.range codePoints) := by
  have hfull : m = Finset.range codePoints ↔ ∀ c < codePoints, c ∈ m := by
    rw [Finset.Subset.antisymm_iff, and_iff_right h.subset]
    simp only [Finset.subset_iff, Finset.mem_range]
  rw [hfull]
  constructor
  · rw [CharSet.isFull_iff]
    exact forall_congr' fun c => imp_congr Nat.lt_succ_iff.symm (h.toggles c)
  · rw [Bitmap.isFull, Bool.and_eq_true, beq_iff_eq, List.all_eq_true]
    simp only [← h.bits]
    constructor
    · rintro ⟨hlen, hall⟩ c hc
      rw [← hlen] at hc
      rw [Bitmap.contains, List.getD_eq_getElem _ _ hc]
      exact hall _ (List.getElem_mem hc)
    · intro hall
      have hle : codePoints ≤ b.bits.length :=
        Bits.lt_length_of_getD (hall maxCodePoint (Nat.lt_succ_self _))
      have hlen := Nat.le_antisymm h.canonical.bounded hle
      refine ⟨hlen, fun x hx => ?_⟩
      obtain ⟨c, hc, rfl⟩ := List.mem_iff_getElem.1 hx
      rw [id, ← List.getD_eq_getElem _ false hc]
      exact hall c (hlen ▸ hc)

theorem faithful (h : Represents s b m) : Faithful s b m where
  contains := h.contains_eq
  size := h.size
  first := h.first
  isEmpty := h.isEmpty
  isFull := h.isFull
  trimmed := Bits.trimmed_iff.1 h.canonical.trimmed
  bounded := h.canonical.bounded

theorem intersects (h : Represents s b m) (h' : Represents t d n) :
    (s.intersects t = true ↔ (m ∩ n).Nonempty) ∧ (b.intersects d = true ↔ (m ∩ n).Nonempty) := by
  rw [CharSet.intersects_iff, Bitmap.intersects_iff]
  simp only [h.toggles, h'.toggles, h.bits, h'.bits, Finset.Nonempty, Finset.mem_inter, and_self]

theorem eq_iff (h : Represents s b m) (h' : Represents t d n) :
    (s = t ↔ m = n) ∧ (b = d ↔ m = n) := by
  refine ⟨⟨?_, ?_⟩, ⟨?_, ?_⟩⟩
  · rintro rfl
    exact Finset.ext fun c => (h.toggles c).symm.trans (h'.toggles c)
  · rintro rfl
    exact CharSet.eq_of_contains_eq fun c =>
      (h.contains_eq c).1.trans (h'.contains_eq c).1.symm
  · rintro rfl
    exact Finset.ext fun c => (h.bits c).symm.trans (h'.bits c)
  · rintro rfl
    have hbits := Bits.eq_of_getD_eq h.canonical.trimmed h'.canonical.trimmed fun c =>
      (h.contains_eq c).2.trans (h'.contains_eq c).2.symm
    cases b
    cases d
    exact congrArg Bitmap.mk hbits

end Represents

namespace Recipe

/-- **However a set is built, it is the set that is meant**, as long as all that is put into it are
code points: whether it is kept as toggles or as a bitmap, all questions are answered as they are
for the finite set of its members, the row of bits has no zero at its end, and sets are equal
if they have the same members, no matter how they have come about. -/
theorem faithful_of_inUniverse {p q : Recipe} (hp : p.inUniverse) (hq : q.inUniverse) :
    ∃ s b t d, p.make CharSet.ops = some s ∧ p.make Bitmap.ops = some b ∧
      q.make CharSet.ops = some t ∧ q.make Bitmap.ops = some d ∧
      Faithful s b p.members ∧ Faithful t d q.members ∧
      (s.intersects t = true ↔ (p.members ∩ q.members).Nonempty) ∧
      (b.intersects d = true ↔ (p.members ∩ q.members).Nonempty) ∧
      (s = t ↔ p.members = q.members) ∧ (b = d ↔ p.members = q.members) := by
  obtain ⟨s, b, hs, hb, h⟩ := exists_make hp
  obtain ⟨t, d, ht, hd, h'⟩ := exists_make hq
  exact ⟨s, b, t, d, hs, hb, ht, hd, h.faithful, h'.faithful, (h.intersects h').1,
    (h.intersects h').2, (h.eq_iff h').1, (h.eq_iff h').2⟩

/-- The largest member is taken away again, and the row of bits gets shorter. -/
theorem faithful_of_inUniverse_diff :
    let p : Recipe := .diff (.insertRange (.ofString "z") 0x61 0x63) (.ofString "bz")
    let q : Recipe := .insert (.ofString "c") 0x61
    p.inUniverse ∧ q.inUniverse ∧ p.members = q.members ∧ p.make Bitmap.ops = q.make Bitmap.ops ∧
      ∃ s b t d, p.make CharSet.ops = some s ∧ p.make Bitmap.ops = some b ∧
        q.make CharSet.ops = some t ∧ q.make Bitmap.ops = some d ∧
        Faithful s b p.members ∧ Faithful t d q.members ∧
        (s.intersects t = true ↔ (p.members ∩ q.members).Nonempty) ∧
        (b.intersects d = true ↔ (p.members ∩ q.members).Nonempty) ∧
        (s = t ↔ p.members = q.members) ∧ (b = d ↔ p.members = q.members) := by
  intro p q
  have hp : p.inUniverse := ⟨⟨trivial, fun _ => by decide⟩, trivial⟩
  have hq : q.inUniverse := ⟨trivial, by decide⟩
  exact ⟨hp, hq, by decide, by decide +kernel, faithful_of_inUniverse hp hq⟩

end Recipe
end PegMachine
