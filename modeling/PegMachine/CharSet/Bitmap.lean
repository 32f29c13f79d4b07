import PegMachine.CharSet.Basic

/-!
# Sets of code points as bitmaps

A set of code points can also be kept as a row of bits, one for each code point from zero on.  The
row is as long as the largest member takes, so that small sets of small code points are short rows.
Members that are added may make a row longer; when members are taken away, or membership is turned
round, zeros may be left at the end, and `trim` cuts them off.  A row without zeros at its end is
the only one for its set, so that sets are compared by comparing their rows.

* `Bitmap` — the rows, with the operations of `CharSet`.
* `Walk.next?`, `Bitmap.ranges` — a walk along a row that stops behind each run of ones, and the
  runs that it comes by.
* `SetOps`, `Recipe.make` — sets that are built by a number of operations, in whatever form they are
  kept.
-/

set_option autoImplicit false

namespace PegMachine

/-- The number of code points. -/
def codePoints : Nat := maxCodePoint + 1

/-! ## Rows of bits -/

namespace Bits

/-- The row cut off at `n` bits, or made that long with zeros. -/
def resize (n : Nat) (bits : List Bool) : List Bool :=
  bits.take n ++ List.replicate (n - bits.length) false

/-- The row with ones from place `lo` to place `hi`. -/
def fill (lo hi : Nat) (bits : List Bool) : List Bool :=
  bits.take lo ++ List.replicate (hi + 1 - lo) true ++ bits.drop (hi + 1)

/-- The place of the last one. -/
def lastOne? : List Bool → Option Nat
  | [] => none
  | b :: rest =>
    match lastOne? rest with
    | some i => some (i + 1)
    | none => if b then some 0 else none

/-- The row without the zeros at its end. -/
def trim (bits : List Bool) : List Bool := bits.take ((lastOne? bits).elim 0 (· + 1))

/-- The places of the ones. -/
def ones (bits : List Bool) : List Nat := (List.range bits.length).filter (bits.getD · false)

end Bits

/-- A set of code points as a row of bits. -/
structure Bitmap where
  /-- Whether each code point is a member, from zero to the largest member. -/
  bits : List Bool
deriving DecidableEq

namespace Bitmap

open Bits

/-- The set without members. -/
def empty : Bitmap := ⟨[]⟩

/-- The set of all code points. -/
def full : Bitmap := ⟨List.replicate codePoints true⟩

/-- Adds one code point, if `c` is one. -/
def insert? (s : Bitmap) (c : Nat) : Option Bitmap :=
  if maxCodePoint < c then none
  else some ⟨(resize (max s.bits.length (c + 1)) s.bits).set c true⟩

/-- Adds the code points from `lo` to `hi`, both included.  There is no answer if that would put
a number into the set that is no code point; an empty range is always fine. -/
def insertRange? (s : Bitmap) (lo hi : Nat) : Option Bitmap :=
  if hi < lo then some s
  else if maxCodePoint < hi then none
  else some ⟨fill lo hi (resize (max s.bits.length (hi + 1)) s.bits)⟩

/-- The set of the characters of a text. -/
def ofString (text : String) : Bitmap :=
  text.toList.foldl (fun s c => (s.insert? c.toNat).getD s) empty

/-- Whether `c` is a member. -/
def contains (s : Bitmap) (c : Nat) : Bool := s.bits.getD c false

/-- Whether the set has no members. -/
def isEmpty (s : Bitmap) : Bool := !s.bits.any id

/-- Whether every code point is a member. -/
def isFull (s : Bitmap) : Bool := s.bits.length == codePoints && s.bits.all id

/-- The number of members. -/
def size (s : Bitmap) : Nat := s.bits.count true

/-- The smallest member. -/
def first? (s : Bitmap) : Option Nat := s.bits.idxOf? true

/-- The members of either set.  The row is made as long as the other before the two are joined. -/
def union (s t : Bitmap) : Bitmap :=
  let bits := resize (max s.bits.length t.bits.length) s.bits
  ⟨List.zipWith (· || ·) (bits.take t.bits.length) t.bits ++ bits.drop t.bits.length⟩

/-- The bits that are ones in both sets, as far as both rows go. -/
def common (s t : Bitmap) : List Bool :=
  let n := min s.bits.length t.bits.length
  List.zipWith (· && ·) (s.bits.take n) (t.bits.take n)

/-- The members of both sets. -/
def inter (s t : Bitmap) : Bitmap := ⟨trim (common s t)⟩

/-- Whether the two sets have a member in common. -/
def intersects (s t : Bitmap) : Bool := (common s t).any id

/-- The members of `s` that are not members of `t`. -/
def diff (s t : Bitmap) : Bitmap :=
  let n := min s.bits.length t.bits.length
  ⟨trim ((ones (t.bits.take n)).foldl (fun bits c => bits.set c false) s.bits)⟩

/-- The code points that are not members. -/
def complement (s : Bitmap) : Bitmap := ⟨trim ((resize codePoints s.bits).map (!·))⟩

end Bitmap

/-! ## Runs of ones -/

namespace Bits

/-- The place of the first one from place `n` on. -/
def nextOne? (n : Nat) (bits : List Bool) : Option Nat :=
  ((bits.drop n).idxOf? true).map (n + ·)

/-- The place of the first zero from place `n` on, or the end of the row if there is none. -/
def nextZero (n : Nat) (bits : List Bool) : Nat :=
  let run := bits.drop n
  n + (run.idxOf? false).getD run.length

/-- What a search from place `n` on finds is the first place with the bit that is searched. -/
theorem of_idxOf?_drop {bits : List Bool} {b : Bool} {n i : Nat}
    (h : (bits.drop n).idxOf? b = some i) :
    bits[n + i]? = some b ∧ ∀ c, n ≤ c → c < n + i → bits[c]? = some (!b) := by
  obtain ⟨hi, hfound, hfirst⟩ := List.findIdx?_eq_some_iff_getElem.1 h
  have hlt : n + i < bits.length := Nat.add_lt_of_lt_sub' (List.length_drop ▸ hi)
  rw [List.getElem_drop, beq_iff_eq] at hfound
  refine ⟨by rw [List.getElem?_eq_getElem hlt, hfound], fun c hn hc => ?_⟩
  have hother := hfirst (c - n) (by omega)
  simp only [List.getElem_drop, Nat.add_sub_cancel' hn, beq_iff_eq] at hother
  rw [List.getElem?_eq_getElem (by omega), Bool.eq_not.2 hother]

/-- A search that finds nothing has come by the other bit only. -/
theorem of_idxOf?_drop_eq_none {bits : List Bool} {b : Bool} {n c : Nat}
    (h : (bits.drop n).idxOf? b = none) (hn : n ≤ c) (hc : c < bits.length) :
    bits[c]? = some (!b) := by
  have hother := List.findIdx?_eq_none_iff.1 h bits[c] (List.mem_drop_iff_getElem.2
    ⟨c - n, by omega, by simp only [Nat.add_sub_cancel' hn]⟩)
  rw [List.getElem?_eq_getElem hc, Bool.eq_not.2 (ne_of_beq_false hother)]

theorem nextOne?_eq_some {bits : List Bool} {n i : Nat} (h : nextOne? n bits = some i) :
    n ≤ i ∧ bits[i]? = some true ∧ ∀ c, n ≤ c → c < i → bits[c]? = some false := by
  obtain ⟨j, hj, rfl⟩ := Option.map_eq_some_iff.1 h
  exact ⟨Nat.le_add_right n j, of_idxOf?_drop hj⟩

theorem nextZero_spec {bits : List Bool} {n : Nat} (hn : n ≤ bits.length) :
    n ≤ nextZero n bits ∧ nextZero n bits ≤ bits.length ∧ bits[nextZero n bits]? ≠ some true ∧
      ∀ c, n ≤ c → c < nextZero n bits → bits[c]? = some true := by
  rw [nextZero]
  refine ⟨Nat.le_add_right _ _, ?_⟩
  cases h : (bits.drop n).idxOf? false with
  | none =>
    rw [Option.getD_none, List.length_drop, Nat.add_sub_cancel' hn]
    refine ⟨Nat.le_refl _, ?_, fun c hnc hc => of_idxOf?_drop_eq_none h hnc hc⟩
    rw [List.getElem?_eq_none (Nat.le_refl _)]
    exact nofun
  | some i =>
    obtain ⟨hzero, hones⟩ := of_idxOf?_drop h
    obtain ⟨hlt, -⟩ := List.getElem?_eq_some_iff.1 hzero
    rw [Option.getD_some, hzero]
    exact ⟨Nat.le_of_lt hlt, nofun, hones⟩

end Bits

/-- A walk along a row of bits, by the place that it has come to. -/
structure Walk (bits : List Bool) where
  /-- The place. -/
  pos : Nat
  /-- The walk ends where the row ends. -/
  pos_le : pos ≤ bits.length

namespace Walk

open Bits

variable {bits : List Bool}

/-- The next run of ones, by the places of the first and of the last of them, and the walk that goes
on behind it. -/
def next? (w : Walk bits) : Option ((Nat × Nat) × Walk bits) :=
  match h : nextOne? w.pos bits with
  | none => none
  | some start =>
    have hstart : start < bits.length := (List.getElem?_eq_some_iff.1 (nextOne?_eq_some h).2.1).1
    let past := nextZero start bits
    some ((start, past - 1), ⟨past, (nextZero_spec (Nat.le_of_lt hstart)).2.1⟩)

/-- On the way from `w` to `w'` are the run `r`, which ends right in front of `w'`, and nothing but
zeros in front of the run. -/
structure Passes (w : Walk bits) (r : Nat × Nat) (w' : Walk bits) : Prop where
  ahead : w.pos ≤ r.1
  le : r.1 ≤ r.2
  pos_eq : w'.pos = r.2 + 1
  zeros : ∀ c, w.pos ≤ c → c < r.1 → bits[c]? = some false
  ones : ∀ c, r.1 ≤ c → c ≤ r.2 → bits[c]? = some true
  ends : bits[r.2 + 1]? ≠ some true

theorem passes_of_next? {w w' : Walk bits} {r : Nat × Nat} (h : w.next? = some (r, w')) :
    w.Passes r w' := by
  rw [next?] at h
  split at h
  · cases h
  · next start hstart =>
    cases h
    obtain ⟨hahead, hone, hzeros⟩ := nextOne?_eq_some hstart
    obtain ⟨hlt, -⟩ := List.getElem?_eq_some_iff.1 hone
    obtain ⟨hge, -, hend, hones⟩ := nextZero_spec (Nat.le_of_lt hlt)
    -- the place of a one is not that of the next zero, so the run is not empty
    have hpast : start < nextZero start bits := by
      refine Nat.lt_of_le_of_ne hge fun heq => hend ?_
      rw [← heq, hone]
    have hlast : nextZero start bits - 1 + 1 = nextZero start bits := by omega
    exact ⟨hahead, Nat.le_sub_one_of_lt hpast, hlast.symm, hzeros,
      fun c hc hle => hones c hc (by omega), hlast.symm ▸ hend⟩

/-- All runs that are ahead of the walk. -/
def rest (w : Walk bits) : List (Nat × Nat) :=
  match _h : w.next? with
  | none => []
  | some (r, w') => r :: w'.rest
termination_by bits.length - w.pos
decreasing_by
  have hpasses := passes_of_next? _h
  have := hpasses.ahead
  have := hpasses.le
  have := hpasses.pos_eq
  have := w'.pos_le
  omega

end Walk

namespace Bitmap

/-- The walk along the whole row. -/
def walk (s : Bitmap) : Walk s.bits := ⟨0, Nat.zero_le _⟩

/-- The maximal runs of successive members, as inclusive pairs in ascending order. -/
def ranges (s : Bitmap) : List (Nat × Nat) := s.walk.rest

end Bitmap

/-! ## Building sets -/

/-- What sets of code points are built with, when they are kept as values of `S`. -/
structure SetOps (S : Type) where
  /-- The set without members. -/
  empty : S
  /-- The set of all code points. -/
  full : S
  /-- The set of the characters of a text. -/
  ofString : String → S
  /-- Adds one code point. -/
  insert? : S → Nat → Option S
  /-- Adds a range of code points. -/
  insertRange? : S → Nat → Nat → Option S
  /-- The members of either set. -/
  union : S → S → S
  /-- The members of both sets. -/
  inter : S → S → S
  /-- The members of the first set that are not members of the second. -/
  diff : S → S → S
  /-- The code points that are not members. -/
  complement : S → S

/-- The operations on sets that are kept as toggles. -/
def CharSet.ops : SetOps CharSet where
  empty := .empty
  full := .full
  ofString := CharSet.ofString
  insert? := CharSet.insert?
  insertRange? := CharSet.insertRange?
  union := CharSet.union
  inter := CharSet.inter
  diff := CharSet.diff
  complement := CharSet.complement

/-- The operations on sets that are kept as bitmaps. -/
def Bitmap.ops : SetOps Bitmap where
  empty := .empty
  full := .full
  ofString := Bitmap.ofString
  insert? := Bitmap.insert?
  insertRange? := Bitmap.insertRange?
  union := Bitmap.union
  inter := Bitmap.inter
  diff := Bitmap.diff
  complement := Bitmap.complement

/-- How a set is built: the operation that comes last, and how the sets are built that it is about.
-/
inductive Recipe where
  /-- The set without members. -/
  | empty
  /-- The set of all code points. -/
  | full
  /-- The set of the characters of a text. -/
  | ofString (text : String)
  /-- One more code point. -/
  | insert (s : Recipe) (c : Nat)
  /-- A range of more code points. -/
  | insertRange (s : Recipe) (lo hi : Nat)
  /-- The members of either set. -/
  | union (s t : Recipe)
  /-- The members of both sets. -/
  | inter (s t : Recipe)
  /-- The members of the first set that are not members of the second. -/
  | diff (s t : Recipe)
  /-- The code points that are not members. -/
  | complement (s : Recipe)

namespace Recipe

/-- The set that is built, if nothing is put into any set that is no code point. -/
def make {S : Type} (ops : SetOps S) : Recipe → Option S
  | empty => some ops.empty
  | full => some ops.full
  | ofString text => some (ops.ofString text)
  | insert s c => do ops.insert? (← make ops s) c
  | insertRange s lo hi => do ops.insertRange? (← make ops s) lo hi
  | union s t => do return ops.union (← make ops s) (← make ops t)
  | inter s t => do return ops.inter (← make ops s) (← make ops t)
  | diff s t => do return ops.diff (← make ops s) (← make ops t)
  | complement s => do return ops.complement (← make ops s)

/-- Puts ranges of code points into the empty set, one after the other. -/
def ofRanges (rs : List (Nat × Nat)) : Recipe :=
  rs.foldl (fun s r => insertRange s r.1 r.2) empty

end Recipe
end PegMachine
