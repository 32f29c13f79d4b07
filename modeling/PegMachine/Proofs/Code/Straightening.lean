import Mathlib.Data.Finset.Card
import Mathlib.Order.Interval.Finset.Nat
import PegMachine.Proofs.Code.Landing
import PegMachine.Proofs.Machine.Passes

/-!
# Threading comes to a normal form

Threading asks of code that it is changing where chains of jumps end.  Where they do end before,
they end at any moment: threading one address neither makes a jump of anything else nor takes away
where a chain ends.  So an address that has been dealt with stays as it should be, and at the end
there is nothing left to do.

* `Lands.landing` — the search for the end of a chain finds it, if it has one.
* `Direct` — an instruction as threading leaves it.
* `Straightens` — what threading may put at an address; the rest is as good as before.
* `Tidy.threading` — at any moment of the pass, chains end and the first addresses are dealt with.
* `Segment.threadJumps_eq_self` — where all is as threading leaves it, threading changes nothing.
-/

set_option autoImplicit false

namespace PegMachine

variable {α : Type}

/-! ## The search for the end -/

namespace Segment

variable {s : Segment α} {a t : Nat} {instr : Instr α}

theorem ne_jump (h : s.get? a = some instr) (hstop : instr.isJump = false) (t : Nat) :
    s.get? a ≠ some (.jump t) := by
  rw [h]
  rintro ⟨⟩
  cases hstop

theorem follow_of_ne_jump (h : ∀ t, s.get? a ≠ some (.jump t)) (n : Nat) : s.follow n a = a := by
  cases n with
  | zero => rfl
  | succ n =>
    rw [follow]
    split
    · next t ht => exact absurd ht (h t)
    · rfl

theorem follow_add (m n : Nat) : s.follow (m + n) a = s.follow n (s.follow m a) := by
  induction m generalizing a with
  | zero => rw [Nat.zero_add, follow]
  | succ m ih =>
    rw [Nat.add_right_comm, follow, follow]
    split
    · exact ih
    · next hjump => rw [follow_of_ne_jump hjump]

/-- Where there is no jump, the search is over. -/
theorem landing_eq_self (h : s.get? a = some instr) (hstop : instr.isJump = false) :
    s.landing a = a :=
  follow_of_ne_jump (ne_jump h hstop) _

end Segment

section Search

variable {s : Segment α} {a : Nat}

/-- After some number of jumps, there is no jump any more. -/
theorem Lands.exists_follow (h : Lands s.get? a) :
    ∃ n instr, s.get? (s.follow n a) = some instr ∧ instr.isJump = false := by
  induction h with
  | stop h hstop => exact ⟨0, _, h, hstop⟩
  | jump h _ ih =>
    obtain ⟨n, instr, hn, hstop⟩ := ih
    refine ⟨n + 1, instr, ?_, hstop⟩
    rw [Segment.follow, h]
    exact hn

/-- **The search for the end of a chain of jumps finds it**: a chain that ends does not come to an
address twice, so that it has no more jumps than there are addresses. -/
theorem Lands.landing (h : Lands s.get? a) :
    ∃ instr, s.get? (s.landing a) = some instr ∧ instr.isJump = false := by
  classical
  have hends := h.exists_follow
  obtain ⟨instr, hfind, hstop⟩ := Nat.find_spec hends
  have hmin : ∀ k < Nat.find hends, ∀ next, s.get? (s.follow k a) = some next →
      next.isJump ≠ false := fun k hk next hnext hstop => Nat.find_min hends hk ⟨next, hnext, hstop⟩
  generalize Nat.find hends = n at hfind hmin
  have hsplit : ∀ k ≤ n, s.follow n a = s.follow (n - k) (s.follow k a) := fun k hk => by
    rw [← Segment.follow_add, Nat.add_sub_cancel' hk]
  have hinside : ∀ k ∈ Finset.range n,
      s.follow k a ∈ Finset.Ico s.start (s.start + s.code.size) := by
    intro k hk
    cases hget : s.get? (s.follow k a) with
    | none =>
      rw [hsplit k (Finset.mem_range.1 hk).le, Segment.follow_of_ne_jump (by simp [hget]), hget]
        at hfind
      cases hfind
    | some next => exact Finset.mem_Ico.2 (List.mem_range'_1.1 (Segment.mem_addresses hget))
  have hdistinct : ∀ i j, i < j → j < n → s.follow i a ≠ s.follow j a := by
    intro i j hij hj heq
    refine hmin (i + (n - j)) (by omega) instr ?_ hstop
    rw [Segment.follow_add, heq, ← hsplit j hj.le, hfind]
  have hn : n ≤ s.code.size := by
    by_contra hlt
    obtain ⟨i, hi, j, hj, hne, heq⟩ := Finset.exists_ne_map_eq_of_card_lt_of_maps_to
      (by rw [Nat.card_Ico, Finset.card_range]; omega) hinside
    rcases Nat.lt_or_gt_of_ne hne with hij | hji
    · exact hdistinct i j hij (Finset.mem_range.1 hj) heq
    · exact hdistinct j i hji (Finset.mem_range.1 hi) heq.symm
  refine ⟨instr, ?_, hstop⟩
  rw [Segment.landing, ← Nat.add_sub_cancel' hn, Segment.follow_add,
    Segment.follow_of_ne_jump (Segment.ne_jump hfind hstop), hfind]

end Search

/-! ## One address -/

/-- The instruction is as threading leaves it: its target is no jump; if it is a jump itself, what it
leads to does not go elsewhere anyway; and if it is a test, it is finished. -/
structure Direct (code : Array (Instr α)) (instr : Instr α) : Prop where
  target : ∀ t, instr.target? = some t → ∃ next, code[t]? = some next ∧ next.isJump = false
  onward : ∀ t next, instr = .jump t → code[t]? = some next → next.anywhere = false
  finished : ∀ s t, instr ≠ .testSet (.pending s) t

/-- What stands at the address, if anything, is as threading leaves it. -/
def DirectAt (code : Array (Instr α)) (a : Nat) : Prop :=
  ∀ instr, code[a]? = some instr → Direct code instr

/-- The instruction is as threading leaves it, and may be put at the address without making a jump of
anything else. -/
structure Straightens (code : Array (Instr α)) (addr : Nat) (new : Instr α) : Prop where
  direct : Direct code new
  keeps : ∃ old, code[addr]? = some old ∧
    (old.isJump = false → new.isJump = false ∧ new.anywhere = old.anywhere)

/-- Targets are in the code, and all chains of jumps end. -/
structure Tidy (code : Array (Instr α)) : Prop where
  inBounds : InBounds code
  lands : ∀ a < code.size, Lands (code[·]?) a

variable {code : Array (Instr α)} {addr a t : Nat} {old new instr : Instr α}

/-- For an instruction that is no jump and no test of a set, only the target matters. -/
theorem Direct.of_stop (hstop : instr.isJump = false) (htest : ∀ k t, instr ≠ .testSet k t)
    (htarget : ∀ t, instr.target? = some t → ∃ next, code[t]? = some next ∧ next.isJump = false) :
    Direct code instr where
  target := htarget
  onward t next hjump _ := by
    subst hjump
    cases hstop
  finished s t := htest _ t

namespace Straightens

variable (h : Straightens code addr new)
include h

theorem getElem?_set (a : Nat) :
    (code.setIfInBounds addr new)[a]? = if a = addr then some new else code[a]? := by
  obtain ⟨old, hold, -⟩ := h.keeps
  rw [Array.getElem?_setIfInBounds, if_pos (Array.getElem?_eq_some_iff.1 hold).1]
  simp only [eq_comm]

/-- What is no jump is none afterwards. -/
theorem exists_stop (ha : code[a]? = some instr) (hstop : instr.isJump = false) :
    ∃ next, (code.setIfInBounds addr new)[a]? = some next ∧ next.isJump = false ∧
      next.anywhere = instr.anywhere := by
  rw [h.getElem?_set]
  split
  · next heq =>
    subst heq
    obtain ⟨old, hold, hkeeps⟩ := h.keeps
    obtain rfl : old = instr := Option.some.inj (hold.symm.trans ha)
    exact ⟨new, rfl, hkeeps hstop⟩
  · exact ⟨instr, ha, hstop, rfl⟩

theorem direct_set (hd : Direct code instr) : Direct (code.setIfInBounds addr new) instr where
  target t ht := by
    obtain ⟨next, hnext, hstop⟩ := hd.target t ht
    obtain ⟨next', hnext', hstop', -⟩ := h.exists_stop hnext hstop
    exact ⟨next', hnext', hstop'⟩
  onward t next hjump hnext := by
    subst hjump
    obtain ⟨old, hold, hstop⟩ := hd.target t rfl
    obtain ⟨next', hnext', -, hsame⟩ := h.exists_stop hold hstop
    obtain rfl : next' = next := Option.some.inj (hnext'.symm.trans hnext)
    rw [hsame]
    exact hd.onward t old rfl hold
  finished := hd.finished

theorem directAt_set (ha : DirectAt code a ∨ a = addr) :
    DirectAt (code.setIfInBounds addr new) a := by
  intro instr hi
  rw [h.getElem?_set] at hi
  split at hi
  · cases hi
    exact h.direct_set h.direct
  · next hne => exact h.direct_set (ha.resolve_right hne instr hi)

/-- A chain that ends does so afterwards. -/
theorem lands_set (ha : Lands (code[·]?) a) : Lands ((code.setIfInBounds addr new)[·]?) a := by
  induction ha with
  | stop hi hstop =>
    obtain ⟨next, hnext, hstop', -⟩ := h.exists_stop hi hstop
    exact .stop hnext hstop'
  | @jump a t hi _ ih =>
    have hget := h.getElem?_set a
    split at hget
    · cases new with
      | jump u =>
        obtain ⟨next, hnext, hstop⟩ := (h.direct_set h.direct).target u rfl
        exact .jump hget (.stop hnext hstop)
      | _ => exact .stop hget rfl
    · exact .jump (hget.trans hi) ih

theorem tidy_set (ht : Tidy code) : Tidy (code.setIfInBounds addr new) where
  inBounds i instr t hi hto := by
    rw [h.getElem?_set] at hi
    rw [Array.size_setIfInBounds]
    split at hi
    · cases hi
      obtain ⟨next, hnext, -⟩ := h.direct.target t hto
      exact (Array.getElem?_eq_some_iff.1 hnext).1
    · exact ht.inBounds i instr t hi hto
  lands a ha := h.lands_set (ht.lands a (by rwa [Array.size_setIfInBounds] at ha))

end Straightens

namespace Instr

theorem isJump_withTarget (instr : Instr α) (t : Nat) :
    (instr.withTarget t).isJump = instr.isJump := by
  cases instr <;> rfl

theorem anywhere_withTarget (instr : Instr α) (t : Nat) :
    (instr.withTarget t).anywhere = instr.anywhere := by
  cases instr <;> rfl

end Instr

namespace Tidy

variable (h : Tidy code)
include h

/-- The search for the end of a chain that starts in the code finds it. -/
theorem landing (ha : a < code.size) :
    ∃ instr, code[(Segment.mk 0 code).landing a]? = some instr ∧ instr.isJump = false := by
  have hlands := h.lands a ha
  simp only [← Segment.get?_zero] at hlands ⊢
  exact hlands.landing

/-- The search finds where the target of an instruction leads. -/
theorem landing_target (hi : code[a]? = some instr) (ht : instr.target? = some t) :
    ∃ next, code[(Segment.mk 0 code).landing t]? = some next ∧ next.isJump = false :=
  h.landing (h.inBounds a instr t hi ht)

theorem straightens_retarget (hold : code[addr]? = some old) (hstop : old.isJump = false)
    (htest : ∀ k t, old ≠ .testSet k t) :
    Straightens code addr ((Segment.mk 0 code).retarget old) := by
  rw [Segment.retarget]
  split
  · next t ht =>
    have hstop' : (old.withTarget ((Segment.mk 0 code).landing t)).isJump = false :=
      (Instr.isJump_withTarget ..).trans hstop
    refine ⟨.of_stop hstop' (fun k u hu => ?_) fun u hu => ?_,
      old, hold, fun _ => ⟨hstop', Instr.anywhere_withTarget ..⟩⟩
    · cases old with
      | testSet k' t' => exact htest k' t' rfl
      | _ => cases hu
    · obtain ⟨rfl, -⟩ := Instr.target?_withTarget hu
      exact h.landing_target hold ht
  · next ht => exact ⟨.of_stop hstop htest (by simp [ht]), old, hold, fun _ => ⟨hstop, rfl⟩⟩

theorem straightens_testSet {k : TestClass} (hold : code[addr]? = some (.testSet k t)) :
    Straightens code addr (.testSet k.finish ((Segment.mk 0 code).landing t)) := by
  refine ⟨⟨fun u hu => ?_, fun u next hjump _ => ?_, fun s u hu => ?_⟩,
    _, hold, fun _ => ⟨rfl, rfl⟩⟩
  · cases hu
    exact h.landing_target hold rfl
  · cases hjump
  · cases k <;> cases hu

/-- A jump becomes what stands at its end, or a jump there if that depends on its place. -/
theorem straightens_threadJump (hold : code[addr]? = some (.jump t)) :
    Straightens code addr ((Segment.mk 0 code).threadJump addr) := by
  refine ⟨?_, _, hold, fun hstop => by cases hstop⟩
  obtain ⟨next, hnext, hstop⟩ := h.landing (Array.getElem?_eq_some_iff.1 hold).1
  simp only [Segment.threadJump, Segment.get?_zero, hnext]
  cases next with
  | ret | fail | failTwice | halt => exact .of_stop rfl (by simp) (by simp [Instr.target?])
  | commit u | partialCommit u | backCommit u =>
    refine .of_stop rfl (by simp) fun v hv => ?_
    cases hv
    exact h.landing_target hnext rfl
  | jump => cases hstop
  | _ =>
    refine ⟨fun v hv => ?_, fun v next' hv hnext' => ?_, by simp⟩
    · cases hv
      exact ⟨_, hnext, rfl⟩
    · cases hv
      rw [hnext] at hnext'
      cases hnext'
      rfl

/-- **Threading one address** keeps what is tidy, and whatever is as it should be. -/
theorem threadAt (addr : Nat) :
    ∃ code', (Segment.mk 0 code).threadAt addr = ⟨0, code'⟩ ∧ Tidy code' ∧
      code'.size = code.size ∧ ∀ a, DirectAt code a ∨ a = addr → DirectAt code' a := by
  have hput : ∀ new, Straightens code addr new →
      ∃ code', (Segment.mk 0 code).put addr new = ⟨0, code'⟩ ∧ Tidy code' ∧
        code'.size = code.size ∧ ∀ a, DirectAt code a ∨ a = addr → DirectAt code' a :=
    fun new hnew => ⟨_, Segment.put_zero .., hnew.tidy_set h, Array.size_setIfInBounds,
      fun a => hnew.directAt_set⟩
  rw [Segment.threadAt, Segment.get?_zero]
  split
  · next hnone =>
    refine ⟨code, rfl, h, rfl, fun a ha => ?_⟩
    rcases ha with ha | rfl
    · exact ha
    · intro instr hi
      rw [hnone] at hi
      cases hi
  · next t hold => exact hput _ (h.straightens_threadJump hold)
  · next k t hold => exact hput _ (h.straightens_testSet hold)
  · next old hjump htest hold =>
    refine hput _ (h.straightens_retarget hold ?_ htest)
    cases old with
    | jump t => exact absurd rfl (hjump t)
    | _ => rfl

end Tidy

/-! ## The whole pass -/

namespace Segment

/-- The segment when the instructions at the first `n` of its addresses have been threaded. -/
def threading (s : Segment α) (n : Nat) : Segment α := (s.addresses.take n).foldl threadAt s

theorem mem_addresses_zero : t ∈ (Segment.mk 0 code).addresses ↔ t < code.size := by
  simp [addresses, List.mem_range'_1]

theorem threading_size (s : Segment α) : s.threading s.code.size = s.threadJumps := by
  have hlength : s.addresses.length = s.code.size := List.length_range'
  rw [threading, threadJumps, ← hlength, List.take_length]

end Segment

/-- Threading addresses one after the other keeps what is tidy, and what stands at them is as it
should be. -/
theorem Tidy.foldl_threadAt (h : Tidy code) (addrs : List Nat) :
    ∃ code', addrs.foldl Segment.threadAt ⟨0, code⟩ = ⟨0, code'⟩ ∧ Tidy code' ∧
      code'.size = code.size ∧ ∀ a, DirectAt code a ∨ a ∈ addrs → DirectAt code' a := by
  induction addrs generalizing code with
  | nil => exact ⟨code, rfl, h, rfl, fun a ha => ha.resolve_right List.not_mem_nil⟩
  | cons addr rest ih =>
    obtain ⟨code₁, hstep, htidy₁, hsize₁, hdirect₁⟩ := h.threadAt addr
    obtain ⟨code', hrest, htidy, hsize, hdirect⟩ := ih htidy₁
    refine ⟨code', by rw [List.foldl_cons, hstep, hrest], htidy, hsize.trans hsize₁,
      fun a ha => hdirect a ?_⟩
    rw [List.mem_cons, ← or_assoc] at ha
    exact ha.imp_left (hdirect₁ a)

/-- **At any moment of threading** the code is tidy, and the first addresses are as they should be. -/
theorem Tidy.threading (h : Tidy code) (n : Nat) :
    ∃ code', (Segment.mk 0 code).threading n = ⟨0, code'⟩ ∧ Tidy code' ∧
      code'.size = code.size ∧ ∀ a < n, DirectAt code' a := by
  obtain ⟨code', hcode, htidy, hsize, hdirect⟩ :=
    h.foldl_threadAt ((Segment.mk 0 code).addresses.take n)
  refine ⟨code', hcode, htidy, hsize, fun a ha instr hi => hdirect a (.inr ?_) instr hi⟩
  have hlt := (Array.getElem?_eq_some_iff.1 hi).1
  rw [hsize] at hlt
  refine List.mem_take_iff_getElem.2 ⟨a, ?_, ?_⟩
  · rw [Segment.addresses, List.length_range']
    exact Nat.lt_min.2 ⟨ha, hlt⟩
  · simp [Segment.addresses]

/-! ## Normal forms -/

namespace Segment

theorem put_eq_self (h : code[addr]? = some instr) :
    (Segment.mk 0 code).put addr instr = ⟨0, code⟩ := by
  rw [put_zero]
  congr 1
  refine Array.ext_getElem? fun i => ?_
  by_cases heq : addr = i
  · subst heq
    rw [Array.getElem?_setIfInBounds_self, if_pos (Array.getElem?_eq_some_iff.1 h).1, h]
  · rw [Array.getElem?_setIfInBounds_ne heq]

/-- Where everything is as threading leaves it, a target is where it leads. -/
theorem landing_target_eq_self (h : ∀ a, DirectAt code a) (hi : code[a]? = some instr)
    (ht : instr.target? = some t) : (Segment.mk 0 code).landing t = t := by
  obtain ⟨next, hnext, hstop⟩ := (h a instr hi).target t ht
  exact landing_eq_self (by rwa [get?_zero]) hstop

theorem threadAt_eq_self (h : ∀ a, DirectAt code a) (addr : Nat) :
    (Segment.mk 0 code).threadAt addr = ⟨0, code⟩ := by
  rw [threadAt, get?_zero]
  split
  · rfl
  · next t hold =>
    obtain ⟨next, hnext, hstop⟩ := (h addr _ hold).target t rfl
    have hany := (h addr _ hold).onward t next rfl hnext
    have hland : (Segment.mk 0 code).landing addr = t := by
      obtain ⟨n, hn⟩ := Nat.exists_eq_add_of_lt (Array.getElem?_eq_some_iff.1 hold).1
      rw [landing, hn, follow, get?_zero, hold]
      exact follow_of_ne_jump (ne_jump (by rwa [get?_zero]) hstop) _
    have hsame : (Segment.mk 0 code).threadJump addr = .jump t := by
      simp only [threadJump, hland, get?_zero, hnext]
      cases next with
      | ret | fail | failTwice | halt | commit | partialCommit | backCommit => cases hany
      | _ => rfl
    rw [hsame, put_eq_self hold]
  · next k t hold =>
    have hfinish : k.finish = k := by
      cases k with
      | pending set => exact absurd rfl ((h addr _ hold).finished set t)
      | ready c => rfl
    rw [hfinish, landing_target_eq_self h hold rfl, put_eq_self hold]
  · next old _ _ hold =>
    have hsame : (Segment.mk 0 code).retarget old = old := by
      rw [retarget]
      split
      · next t ht =>
        rw [landing_target_eq_self h hold ht]
        exact Instr.withTarget_eq_self fun u hu => Option.some.inj (ht.symm.trans hu)
      · rfl
    rw [hsame, put_eq_self hold]

/-- **Threading leaves code alone in which everything is as threading leaves it.** -/
theorem threadJumps_eq_self (h : ∀ a, DirectAt code a) :
    (Segment.mk 0 code).threadJumps = ⟨0, code⟩ := by
  rw [threadJumps]
  generalize (Segment.mk 0 code).addresses = addrs
  induction addrs with
  | nil => rfl
  | cons addr rest ih => rw [List.foldl_cons, threadAt_eq_self h, ih]

end Segment

end PegMachine
