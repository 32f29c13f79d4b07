import PegMachine.Instr
import PegMachine.Proofs.CharSet.Members

/-!
# The class of a set is the only one of its form

There are many classes with the same code points, but the class of a set has a form in which there
is one only.  What it is made of follows from the runs of the set.  A run of one code point is
isolated, a longer one is a range, and because isolated code points are gathered until the next
range, a table never comes next to another one: `ordered_parts`.

Sets with the same class have the same members, since the class has them, and with these they are
the same set.
-/

set_option autoImplicit false

namespace PegMachine.CharClass

variable {p : CharClass} {ps : List CharClass} {cs : List Nat} {lo hi c : Nat}

/-! ## The form -/

/-- The class is one code point, a range of two or more, or an ascending table of two or more. -/
inductive IsPart : CharClass → Prop where
  | single (c : Nat) : IsPart (single c)
  | range {lo hi : Nat} (hlt : lo < hi) : IsPart (range lo hi)
  | table {cs : List Nat} (hasc : cs.Pairwise (· < ·)) (hlen : 2 ≤ cs.length) : IsPart (table cs)

/-- The class names its code points one by one. -/
def enumerates : CharClass → Bool
  | single _ => true
  | table _ => true
  | _ => false

/-- All code points of the first class are smaller than those of the second. -/
def Before (p q : CharClass) : Prop := ∀ c d, p.contains c = true → q.contains d = true → c < d

/-- The classes are parts in ascending order, and what is named one by one without a range in
between is in one part. -/
structure Ordered (ps : List CharClass) : Prop where
  parts : ∀ p ∈ ps, p.IsPart
  ascending : ps.Pairwise Before
  apart : ps.IsChain fun p q => ¬ (p.enumerates = true ∧ q.enumerates = true)

/-- The class has the form that classes of sets have. -/
inductive Canonical : CharClass → Prop where
  | nothing : Canonical nothing
  | everything : Canonical everything
  | part {p : CharClass} (hp : p.IsPart) : Canonical p
  | union {ps : List CharClass} (hps : Ordered ps) (hlen : 2 ≤ ps.length) : Canonical (union ps)

/-! ## Parts in order -/

theorem anyContains_of_mem (hp : p ∈ ps) (h : p.contains c = true) : anyContains ps c = true := by
  obtain ⟨qs, rs, rfl⟩ := List.append_of_mem hp
  rw [anyContains_append, anyContains, h, Bool.true_or, Bool.or_true]

theorem contains_range_iff : (range lo hi).contains c = true ↔ lo ≤ c ∧ c ≤ hi := by
  rw [contains, decide_eq_true_eq]

namespace Ordered

theorem nil : Ordered [] := ⟨by simp, .nil, .nil⟩

/-- A range in front of parts with larger code points. -/
theorem cons_range (h : Ordered ps) (hlt : lo < hi) (hps : ∀ d, anyContains ps d = true → hi < d) :
    Ordered (range lo hi :: ps) where
  parts := List.forall_mem_cons.2 ⟨.range hlt, h.parts⟩
  ascending := by
    refine List.pairwise_cons.2 ⟨fun q hq c d hc hd => ?_, h.ascending⟩
    have hlast := (contains_range_iff.1 hc).2
    have := hps d (anyContains_of_mem hq hd)
    omega
  apart := List.isChain_cons.2 ⟨fun q _ hboth => (nomatch hboth.1), h.apart⟩

/-- A part in front of a range and what comes after it. -/
theorem cons (h : Ordered (range lo hi :: ps)) (hp : p.IsPart)
    (hbefore : ∀ q ∈ range lo hi :: ps, p.Before q) : Ordered (p :: range lo hi :: ps) where
  parts := List.forall_mem_cons.2 ⟨hp, h.parts⟩
  ascending := List.pairwise_cons.2 ⟨hbefore, h.ascending⟩
  apart := List.isChain_cons_cons.2 ⟨fun hboth => (nomatch hboth.2), h.apart⟩

theorem singleton (hp : p.IsPart) : Ordered [p] where
  parts := List.forall_mem_singleton.2 hp
  ascending := List.pairwise_singleton _ _
  apart := .singleton _

end Ordered

/-- Isolated code points make one part at most. -/
theorem isolated_cases (hcs : cs.Pairwise (· < ·)) :
    isolated cs = [] ∨ ∃ p, isolated cs = [p] ∧ p.IsPart := by
  match cs, hcs with
  | [], _ => exact .inl rfl
  | [c], _ => exact .inr ⟨_, rfl, .single c⟩
  | c :: d :: rest, hcs => exact .inr ⟨_, rfl, .table hcs (by simp)⟩

/-- What is isolated comes in front of a range. -/
theorem Ordered.isolated_append (h : Ordered (range lo hi :: ps)) (hcs : cs.Pairwise (· < ·))
    (hlt : ∀ c ∈ cs, c < lo) (hps : ∀ d, anyContains ps d = true → hi < d) :
    Ordered (isolated cs ++ range lo hi :: ps) := by
  rcases isolated_cases hcs with hnil | ⟨p, hp, hpart⟩
  · rwa [hnil, List.nil_append]
  · rw [hp, List.singleton_append]
    refine h.cons hpart fun q hq c d hc hd => ?_
    have hmem : c ∈ cs := by
      rw [← anyContains_isolated hcs, hp]
      exact anyContains_of_mem List.mem_cons_self hc
    have hc := hlt c hmem
    rcases List.mem_cons.1 hq with rfl | hq
    · exact Nat.lt_of_lt_of_le hc (contains_range_iff.1 hd).1
    · have hrange : lo < hi := by
        cases h.parts _ List.mem_cons_self
        assumption
      have := hps d (anyContains_of_mem hq hd)
      omega

/-- The parts for a list of runs are in order. -/
theorem ordered_parts {rs : List (Nat × Nat)} {seen : List Nat} (hseen : seen.Pairwise (· < ·))
    (hlt : ∀ x ∈ seen, ∀ r ∈ rs, x < r.1) (hle : ∀ r ∈ rs, r.1 ≤ r.2)
    (hasc : rs.Pairwise fun r r' => r.2 < r'.1) : Ordered (parts seen rs) := by
  induction rs generalizing seen with
  | nil =>
    rw [parts]
    rcases isolated_cases hseen with hnil | ⟨p, hp, hpart⟩
    · exact hnil ▸ .nil
    · exact hp ▸ .singleton hpart
  | cons r rest ih =>
    obtain ⟨lo, hi⟩ := r
    rw [List.forall_mem_cons] at hle
    have hlater : ∀ r ∈ rest, hi < r.1 := fun r hr => List.rel_of_pairwise_cons hasc hr
    have hhead : ∀ x ∈ seen, x < lo := fun x hx => hlt x hx (lo, hi) List.mem_cons_self
    rw [parts]
    split
    · next hrange =>
      have hafter : ∀ d, anyContains (parts [] rest) d = true → hi < d := by
        intro d hd
        have hd := (anyContains_parts .nil (by simp) hle.2 hasc.of_cons).1 hd
        obtain hd | ⟨r, hr, hd, -⟩ := hd
        · cases hd
        · exact Nat.lt_of_lt_of_le (hlater r hr) hd
      have hrest := ih .nil (by simp) hle.2 hasc.of_cons
      exact (hrest.cons_range hrange hafter).isolated_append hseen hhead hafter
    · -- an isolated code point joins those that wait for the next range
      refine ih ?_ (fun x hx r hr => ?_) hle.2 hasc.of_cons
      · refine List.pairwise_append.2 ⟨hseen, List.pairwise_singleton _ _, fun x hx y hy => ?_⟩
        exact List.mem_singleton.1 hy ▸ hhead x hx
      · have := hlater r hr
        rcases List.mem_append.1 hx with hx | hx
        · exact hlt x hx r (List.mem_cons_of_mem _ hr)
        · rw [List.mem_singleton.1 hx]
          exact Nat.lt_of_le_of_lt hle.1 this

/-! ## Classes of sets -/

theorem canonical_ofSet (s : CharSet) : (ofSet s).Canonical := by
  have hruns := s.maximalRuns_ranges
  have hordered : Ordered (parts [] s.ranges) :=
    ordered_parts .nil (by simp) hruns.le hruns.ascending
  rw [ofSet]
  split
  · exact .nothing
  · next hempty =>
    split
    · exact .everything
    · split
      · next p hp =>
        rw [hp] at hordered
        exact .part (hordered.parts p List.mem_cons_self)
      · next hnot =>
        refine .union hordered ?_
        match hparts : parts [] s.ranges with
        | [] =>
          refine absurd (CharSet.isEmpty_iff.2 fun c => ?_) hempty
          rw [← anyContains_parts_ranges, hparts, anyContains]
        | [p] => exact absurd hparts (hnot p)
        | _ :: _ :: _ => exact Nat.le_add_left 2 _

theorem ofSet_injective : Function.Injective ofSet := by
  intro s t h
  refine CharSet.eq_of_contains_eq fun c => ?_
  by_cases hc : c ≤ maxCodePoint
  · rw [← contains_ofSet s hc, h, contains_ofSet t hc]
  · have hout : ∀ u : CharSet, u.contains c = false := fun u =>
      Bool.eq_false_iff.2 (mt CharSet.le_of_contains hc)
    rw [hout, hout]

/-- **The class of a set is exact and canonical.**  The class, the set while it is only kept for a
test, and the test when it is finished hold a character exactly if the set does; the class has one
of the forms of `Canonical`; and sets have the same class only if they are equal. -/
theorem ofSet_exact_canonical (s : CharSet) :
    (∀ c : Char, (ofSet s).contains c.toNat = s.contains c.toNat ∧
        (TestClass.pending s).contains c.toNat = s.contains c.toNat ∧
        (TestClass.pending s).finish.contains c.toNat = s.contains c.toNat) ∧
      (ofSet s).Canonical ∧ ∀ t, ofSet s = ofSet t ↔ s = t := by
  have hexact : ∀ c : Char, (ofSet s).contains c.toNat = s.contains c.toNat := fun c =>
    contains_ofSet s (CharSet.val_le_maxCodePoint c)
  exact ⟨fun c => ⟨hexact c, rfl, hexact c⟩, canonical_ofSet s, fun t => ofSet_injective.eq_iff⟩

end PegMachine.CharClass
