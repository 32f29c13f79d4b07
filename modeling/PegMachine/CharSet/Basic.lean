/-!
# Sets of code points

Building, analysing and compiling a pattern needs the full algebra of sets of code points, and an
equality test between sets.  A set is kept as the ascending list of its *toggles*: the points at
which membership flips, when one walks through the code points from zero upwards.  So `a` to `c`
together with `x` is `[0x61, 0x64, 0x78, 0x79]`, the empty set is `[]`, and the set of all code
points has one toggle at zero and one just past the last code point.

* `contains` — membership, for any number; nothing above `maxCodePoint` is a member of any set.
* `sweep op` — walks along two toggle lists at once and keeps the points where `op` of the two
  memberships flips.  Union, intersection, difference and complement are four choices of `op`.
* `inside_sweep`, `sweep_ascending`, `flipped_sweep` — the sweep answers membership pointwise,
  stays ascending, and ends outside the set; the last two keep the invariants of the structure.

A set has one toggle list only, which is what makes the derived equality the equality of sets.
-/

set_option autoImplicit false

namespace PegMachine

/-- The largest code point. -/
def maxCodePoint : Nat := 0x10FFFF

namespace CharSet

/-! ## Lists of toggles -/

/-- Membership of `c`, for a walk that starts inside the set (`state = true`) or outside it. -/
def inside (state : Bool) : List Nat → Nat → Bool
  | [], _ => state
  | t :: ts, c => if c < t then state else inside (!state) ts c

/-- The membership that holds past the last toggle. -/
def flipped (state : Bool) : List Nat → Bool
  | [] => state
  | _ :: ts => flipped (!state) ts

/-- Puts a toggle at `t` in front of `rest` if membership really changes there. -/
def edge (before after : Bool) (t : Nat) (rest : List Nat) : List Nat :=
  if before = after then rest else t :: rest

/-- The toggles of `op` of two sets that are ahead of a walk when the first set has no more toggles,
from the memberships `a` and `b` that hold so far and the toggles of the second. -/
def sweepRest (op : Bool → Bool → Bool) (a : Bool) : Bool → List Nat → List Nat
  | _, [] => []
  | b, y :: ys => edge (op a b) (op a (!b)) y (sweepRest op a (!b) ys)

/-- The same when `x` is the next toggle of the first set, and `next` does what comes after it. -/
def sweepPast (op : Bool → Bool → Bool) (a : Bool) (x : Nat)
    (next : Bool → List Nat → List Nat) : Bool → List Nat → List Nat
  | b, [] => edge (op a b) (op (!a) b) x (next b [])
  | b, y :: ys =>
    if x < y then edge (op a b) (op (!a) b) x (next b (y :: ys))
    else if y < x then edge (op a b) (op a (!b)) y (sweepPast op a x next (!b) ys)
    else edge (op a b) (op (!a) (!b)) x (next (!b) ys)

/-- The toggles of `op` of two sets that are ahead of a walk, from the toggles of both and the
memberships `a` and `b` that hold so far. -/
def sweep (op : Bool → Bool → Bool) (a : Bool) : List Nat → Bool → List Nat → List Nat
  | [], b, ys => sweepRest op a b ys
  | x :: xs, b, ys => sweepPast op a x (sweep op (!a) xs) b ys

theorem inside_of_lt {state : Bool} {ts : List Nat} {c : Nat} (h : ∀ t ∈ ts, c < t) :
    inside state ts c = state := by
  cases ts with
  | nil => rfl
  | cons t ts => simp [inside, h t (by simp)]

theorem inside_edge {before after : Bool} {t : Nat} {rest : List Nat} {c : Nat}
    (h : ∀ u ∈ rest, t < u) :
    inside before (edge before after t rest) c
      = if c < t then before else inside after rest c := by
  by_cases hba : before = after
  · subst hba
    simp only [edge, if_true]
    split
    · exact inside_of_lt fun u hu => by have := h u hu; omega
    · rfl
  · have : after = !before := by cases before <;> cases after <;> simp_all
    subst this
    simp [edge, inside]

theorem mem_edge {before after : Bool} {t u : Nat} {rest : List Nat}
    (h : u ∈ edge before after t rest) : u = t ∨ u ∈ rest := by
  unfold edge at h
  split at h
  · exact .inr h
  · simpa using h

theorem mem_sweep {op : Bool → Bool → Bool} {a b : Bool} {xs ys : List Nat} {u : Nat}
    (h : u ∈ sweep op a xs b ys) : u ∈ xs ∨ u ∈ ys := by
  induction xs generalizing a b ys with
  | nil =>
    refine .inr ?_
    rw [sweep] at h
    induction ys generalizing b with
    | nil => simp [sweepRest] at h
    | cons y ys ih => exact List.mem_cons.2 ((mem_edge h).imp_right ih)
  | cons x xs ihx =>
    rw [sweep] at h
    induction ys generalizing b with
    | nil =>
      rcases mem_edge h with h | h
      · simp [h]
      · rcases ihx h with h | h <;> simp_all
    | cons y ys ihy =>
      rw [sweepPast] at h
      split at h
      · rcases mem_edge h with h | h
        · simp [h]
        · rcases ihx h with h | h <;> simp_all
      · split at h
        · rcases mem_edge h with h | h
          · simp [h]
          · rcases ihy h with h | h <;> simp_all
        · rcases mem_edge h with h | h
          · simp [h]
          · rcases ihx h with h | h <;> simp_all

/-- What is still ahead of a walk that has reached `x`: the tail of `x`'s own list, and a list
whose head comes no earlier. -/
private theorem lt_of_mem_ahead {x u : Nat} {xs ys : List Nat} (hx : (x :: xs).Pairwise (· < ·))
    (hy : ∀ y ∈ ys, x < y) (hu : u ∈ xs ∨ u ∈ ys) : x < u :=
  hu.elim (List.rel_of_pairwise_cons hx) (hy u)

/-- What comes before the head of an ascending list comes before all of it. -/
theorem lt_all_of_lt_head {x y : Nat} {ys : List Nat} (h : x < y)
    (hy : (y :: ys).Pairwise (· < ·)) : ∀ u ∈ y :: ys, x < u := by
  intro u hu
  rcases List.mem_cons.1 hu with rfl | hu
  · exact h
  · exact Nat.lt_trans h (List.rel_of_pairwise_cons hy hu)

private theorem edge_ascending {before after : Bool} {t : Nat} {rest : List Nat}
    (h : ∀ u ∈ rest, t < u) (hr : rest.Pairwise (· < ·)) :
    (edge before after t rest).Pairwise (· < ·) := by
  unfold edge
  split
  · exact hr
  · exact List.pairwise_cons.2 ⟨h, hr⟩

private theorem mem_sweepRest {op : Bool → Bool → Bool} {a b : Bool} {ys : List Nat} {u : Nat}
    (h : u ∈ sweepRest op a b ys) : u ∈ ys := by
  have h : u ∈ sweep op a [] b ys := h
  simpa using mem_sweep h

private theorem mem_sweepPast {op : Bool → Bool → Bool} {a b : Bool} {x : Nat} {xs ys : List Nat}
    {u : Nat} (h : u ∈ sweepPast op a x (sweep op (!a) xs) b ys) : u ∈ x :: xs ∨ u ∈ ys :=
  mem_sweep h

theorem sweep_ascending {op : Bool → Bool → Bool} {a b : Bool} {xs ys : List Nat}
    (hx : xs.Pairwise (· < ·)) (hy : ys.Pairwise (· < ·)) :
    (sweep op a xs b ys).Pairwise (· < ·) := by
  induction xs generalizing a b ys with
  | nil =>
    rw [sweep]
    induction ys generalizing b with
    | nil => exact .nil
    | cons y ys ih =>
      exact edge_ascending (fun u hu => List.rel_of_pairwise_cons hy (mem_sweepRest hu))
        (ih hy.of_cons)
  | cons x xs ihx =>
    rw [sweep]
    induction ys generalizing b with
    | nil =>
      exact edge_ascending (fun u hu => lt_of_mem_ahead hx (by simp) (mem_sweep hu))
        (ihx hx.of_cons .nil)
    | cons y ys ihy =>
      rw [sweepPast]
      split
      · next hlt =>
        exact edge_ascending
          (fun u hu => lt_of_mem_ahead hx (lt_all_of_lt_head hlt hy) (mem_sweep hu))
          (ihx hx.of_cons hy)
      · split
        · next hlt =>
          exact edge_ascending
            (fun u hu => lt_of_mem_ahead hy (lt_all_of_lt_head hlt hx) (mem_sweepPast hu).symm)
            (ihy hy.of_cons)
        · obtain rfl : x = y := by omega
          exact edge_ascending
            (fun u hu =>
              lt_of_mem_ahead hx (fun _ h => List.rel_of_pairwise_cons hy h) (mem_sweep hu))
            (ihx hx.of_cons hy.of_cons)

/-- Membership in a sweep is `op` of the two memberships. -/
theorem inside_sweep {op : Bool → Bool → Bool} {a b : Bool} {xs ys : List Nat} {c : Nat}
    (hx : xs.Pairwise (· < ·)) (hy : ys.Pairwise (· < ·)) :
    inside (op a b) (sweep op a xs b ys) c = op (inside a xs c) (inside b ys c) := by
  induction xs generalizing a b ys with
  | nil =>
    rw [sweep]
    induction ys generalizing b with
    | nil => rfl
    | cons y ys ih =>
      rw [sweepRest, inside_edge fun u hu => List.rel_of_pairwise_cons hy (mem_sweepRest hu),
        ih hy.of_cons]
      simp only [inside]
      split <;> rfl
  | cons x xs ihx =>
    rw [sweep]
    induction ys generalizing b with
    | nil =>
      rw [sweepPast, inside_edge fun u hu => lt_of_mem_ahead hx (by simp) (mem_sweep hu),
        ihx hx.of_cons .nil]
      simp only [inside]
      split <;> rfl
    | cons y ys ihy =>
      rw [sweepPast]
      split
      · next hlt =>
        rw [inside_edge fun u hu => lt_of_mem_ahead hx (lt_all_of_lt_head hlt hy) (mem_sweep hu),
          ihx hx.of_cons hy]
        simp only [inside]
        by_cases hc : c < x
        · simp [hc, Nat.lt_trans hc hlt]
        · simp [hc]
      · split
        · next hlt =>
          rw [inside_edge fun u hu =>
            lt_of_mem_ahead hy (lt_all_of_lt_head hlt hx) (mem_sweepPast hu).symm,
            ihy hy.of_cons]
          simp only [inside]
          by_cases hc : c < y
          · simp [hc, Nat.lt_trans hc hlt]
          · simp [hc]
        · obtain rfl : x = y := by omega
          rw [inside_edge fun u hu =>
            lt_of_mem_ahead hx (fun _ h => List.rel_of_pairwise_cons hy h) (mem_sweep hu),
            ihx hx.of_cons hy.of_cons]
          simp only [inside]
          split <;> rfl

private theorem flipped_edge {before after : Bool} {t : Nat} {rest : List Nat} :
    flipped before (edge before after t rest) = flipped after rest := by
  unfold edge
  split
  · next h => rw [h]
  · next h =>
    have : after = !before := by cases before <;> cases after <;> simp_all
    rw [this, flipped]

/-- Past all toggles, membership in a sweep is `op` of the two memberships that hold there. -/
theorem flipped_sweep {op : Bool → Bool → Bool} {a b : Bool} {xs ys : List Nat} :
    flipped (op a b) (sweep op a xs b ys) = op (flipped a xs) (flipped b ys) := by
  induction xs generalizing a b ys with
  | nil =>
    rw [sweep]
    induction ys generalizing b with
    | nil => rfl
    | cons y ys ih => rw [sweepRest, flipped_edge, ih]; rfl
  | cons x xs ihx =>
    rw [sweep]
    induction ys generalizing b with
    | nil => rw [sweepPast, flipped_edge, ihx]; rfl
    | cons y ys ihy =>
      rw [sweepPast]
      split
      · rw [flipped_edge, ihx]; rfl
      · split
        · rw [flipped_edge, ihy]; rfl
        · rw [flipped_edge, ihx]; rfl

/-- The runs between two successive toggles, as inclusive pairs. -/
def runs : List Nat → List (Nat × Nat)
  | lo :: past :: rest => (lo, past - 1) :: runs rest
  | _ => []

end CharSet

/-! ## Sets -/

/-- A set of code points, given by its toggles. -/
structure CharSet where
  /-- The points where membership flips. -/
  toggles : List Nat
  /-- Toggles ascend, so none is listed twice. -/
  ascending : toggles.Pairwise (· < ·)
  /-- The last point where membership can flip is just past the last code point. -/
  bounded : ∀ t ∈ toggles, t ≤ maxCodePoint + 1
  /-- What lies past the last toggle is outside the set. -/
  closed : CharSet.flipped false toggles = false
deriving DecidableEq

namespace CharSet

/-- The set without members. -/
def empty : CharSet := ⟨[], .nil, by simp, rfl⟩

/-- The code points from `lo` to `hi`, both included: none if `hi` is smaller than `lo`. -/
def range (lo hi : Nat) (h : hi ≤ maxCodePoint) : CharSet :=
  if hle : lo ≤ hi then
    have hlo : lo ≤ maxCodePoint + 1 := Nat.le_succ_of_le (Nat.le_trans hle h)
    have hpast : hi + 1 ≤ maxCodePoint + 1 := Nat.succ_le_succ h
    ⟨[lo, hi + 1], List.pairwise_pair.2 (Nat.lt_succ_of_le hle),
      List.forall_mem_cons.2 ⟨hlo, List.forall_mem_singleton.2 hpast⟩, rfl⟩
  else empty

/-- The set of all code points. -/
def full : CharSet := range 0 maxCodePoint (Nat.le_refl _)

instance : Inhabited CharSet := ⟨empty⟩

/-- Whether `c` is a member. -/
def contains (s : CharSet) (c : Nat) : Bool := inside false s.toggles c

/-- The set of the points where `op` of the two memberships holds.  What is in neither operand
is not in the result. -/
def combine (op : Bool → Bool → Bool) (hop : op false false = false) (s t : CharSet) : CharSet where
  toggles := sweep op false s.toggles false t.toggles
  ascending := sweep_ascending s.ascending t.ascending
  bounded := fun u hu => (mem_sweep hu).elim (s.bounded u) (t.bounded u)
  closed := by
    have h := @flipped_sweep op false false s.toggles t.toggles
    rw [hop, s.closed, t.closed, hop] at h
    exact h

/-- The members of either set. -/
def union (s t : CharSet) : CharSet := combine (fun a b => a || b) rfl s t

/-- The members of both sets. -/
def inter (s t : CharSet) : CharSet := combine (fun a b => a && b) rfl s t

/-- The members of `s` that are not members of `t`. -/
def diff (s t : CharSet) : CharSet := combine (fun a b => a && !b) rfl s t

/-- The code points that are not members. -/
def complement (s : CharSet) : CharSet := full.diff s

/-- Adds the code points from `lo` to `hi`, both included.  There is no answer if that would put
a number into the set that is no code point; an empty range is always fine. -/
def insertRange? (s : CharSet) (lo hi : Nat) : Option CharSet :=
  if hi < lo then some s
  else if h : hi ≤ maxCodePoint then some (s.union (range lo hi h))
  else none

/-- Adds one code point, if `c` is one. -/
def insert? (s : CharSet) (c : Nat) : Option CharSet := s.insertRange? c c

theorem val_le_maxCodePoint (c : Char) : c.toNat ≤ maxCodePoint := by
  have h := c.valid
  simp only [UInt32.isValidChar, Nat.isValidChar] at h
  simp only [Char.toNat, maxCodePoint]
  omega

/-- The characters from `lo` to `hi`, both included. -/
def ofCharRange (lo hi : Char) : CharSet := range lo.toNat hi.toNat (val_le_maxCodePoint hi)

/-- The set with the one member `c`. -/
def ofChar (c : Char) : CharSet := ofCharRange c c

/-- The set of the characters of a text. -/
def ofString (text : String) : CharSet :=
  text.toList.foldl (fun s c => s.union (ofChar c)) empty

/-- Whether the set has no members. -/
def isEmpty (s : CharSet) : Bool := s.toggles.isEmpty

/-- Whether every code point is a member. -/
def isFull (s : CharSet) : Bool := s = full

/-- Whether the two sets have a member in common. -/
def intersects (s t : CharSet) : Bool := !(s.inter t).isEmpty

/-- The maximal runs of successive members, as inclusive pairs in ascending order. -/
def ranges (s : CharSet) : List (Nat × Nat) := runs s.toggles

/-- The number of members. -/
def size (s : CharSet) : Nat := s.ranges.foldr (fun r n => r.2 + 1 - r.1 + n) 0

/-- The smallest member. -/
def first? (s : CharSet) : Option Nat := s.toggles.head?

/-- The only member, if there is just one and it is a character: the surrogates are code points
without being characters. -/
def single? (s : CharSet) : Option Char :=
  match s.toggles with
  | [c, past] => if h : c.isValidChar ∧ past = c + 1 then some (Char.ofNatAux c h.1) else none
  | _ => none

/-- How much a set holds, as far as this decides how to match it. -/
inductive Extent where
  /-- No code point. -/
  | none
  /-- One character. -/
  | one (c : Char)
  /-- Anything else. -/
  | several
  /-- Every code point. -/
  | all

/-- How much the set holds. -/
def extent (s : CharSet) : Extent :=
  if s.isEmpty then .none
  else if s.isFull then .all
  else
    match s.single? with
    | some c => .one c
    | none => .several

/-! ## Membership in the results of the operations -/

@[simp] theorem contains_empty (c : Nat) : empty.contains c = false := rfl

@[simp] theorem contains_range (lo hi c : Nat) (h : hi ≤ maxCodePoint) :
    (range lo hi h).contains c = decide (lo ≤ c ∧ c ≤ hi) := by
  unfold range contains
  split
  · simp only [inside]
    by_cases h1 : c < lo
    · rw [if_pos h1]
      exact (decide_eq_false (by omega)).symm
    · rw [if_neg h1]
      by_cases h2 : c < hi + 1
      · rw [if_pos h2]
        exact (decide_eq_true (by omega)).symm
      · rw [if_neg h2]
        exact (decide_eq_false (by omega)).symm
  · exact (decide_eq_false (by omega)).symm

theorem contains_combine (op : Bool → Bool → Bool) (hop : op false false = false) (s t : CharSet)
    (c : Nat) : (combine op hop s t).contains c = op (s.contains c) (t.contains c) := by
  have h := @inside_sweep op false false _ _ c s.ascending t.ascending
  rw [hop] at h
  exact h

@[simp] theorem contains_union (s t : CharSet) (c : Nat) :
    (s.union t).contains c = (s.contains c || t.contains c) := contains_combine _ rfl s t c

@[simp] theorem contains_inter (s t : CharSet) (c : Nat) :
    (s.inter t).contains c = (s.contains c && t.contains c) := contains_combine _ rfl s t c

@[simp] theorem contains_diff (s t : CharSet) (c : Nat) :
    (s.diff t).contains c = (s.contains c && !t.contains c) := contains_combine _ rfl s t c

end CharSet
end PegMachine
