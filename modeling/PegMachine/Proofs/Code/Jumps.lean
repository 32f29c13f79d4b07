import PegMachine.Code.Emission

/-!
# Where jumps lead, and what becomes of calls

Two things about code that is laid out already.  `Jumps` says that control gets from one address to
another by jumps alone, which is what following a chain of jumps finds (`jumps_follow`).  And an
open call becomes a call of its rule, or a jump to it where the call is followed by a return anyway:
this is what `Calls` says of an address in the finished code.

* `Placed code call base instrs` — the finished code has the instructions `instrs` from the address
  `base` on, with what `call` asks for in the place of the open calls.
* `RulesPlaced` — the finished code has all rules of a grammar, and the list of their addresses is
  right.
* `placed_of_resolveCalls` — the code that compilation makes has the rules of its grammars, with
  calls in the place of the open ones.
-/

set_option autoImplicit false

namespace PegMachine

variable {α : Type} {code : Array (Instr α)}

/-! ## Jumps alone -/

/-- `Jumps code i j`: from `i`, the code gets to `j` by jumps alone. -/
inductive Jumps (code : Array (Instr α)) : Nat → Nat → Prop
  | here {i : Nat} : Jumps code i i
  | jump {i t j : Nat} (hi : code[i]? = some (.jump t)) (h : Jumps code t j) : Jumps code i j

theorem Jumps.trans {i j k : Nat} (h : Jumps code i j) (h' : Jumps code j k) : Jumps code i k := by
  induction h with
  | here => exact h'
  | jump hi _ ih => exact .jump hi (ih h')

/-- The code holds what the segment does, but for open calls. -/
def Segment.HeldBy (s : Segment α) (code : Array (Instr α)) : Prop :=
  ∀ addr instr, s.get? addr = some instr → (∀ i, instr ≠ .openCall i) → code[addr]? = some instr

namespace Segment

theorem get?_zero (code : Array (Instr α)) (addr : Nat) :
    (Segment.mk 0 code).get? addr = code[addr]? := by
  simp [get?]

theorem heldBy_self (code : Array (Instr α)) : (Segment.mk 0 code).HeldBy code := by
  intro addr instr h _
  rwa [get?_zero] at h

/-- Following a chain of jumps takes jumps alone. -/
theorem HeldBy.jumps_follow {s : Segment α} (hs : s.HeldBy code) (steps addr : Nat) :
    Jumps code addr (s.follow steps addr) := by
  induction steps generalizing addr with
  | zero => exact .here
  | succ steps ih =>
    rw [follow]
    split
    · next t ht => exact .jump (hs _ _ ht (by simp)) (ih t)
    · exact .here

theorem HeldBy.jumps_landing {s : Segment α} (hs : s.HeldBy code) (addr : Nat) :
    Jumps code addr (s.landing addr) :=
  hs.jumps_follow _ addr

end Segment

/-! ## Calls -/

/-- From the address on there is nothing left to do but to return. -/
def ReturnsFrom (code : Array (Instr α)) (addr : Nat) : Prop :=
  ∃ j, Jumps code addr j ∧ code[j]? = some .ret

/-- At the address, the rule at `t` is called, or jumped to where a return would follow. -/
def Calls (code : Array (Instr α)) (addr t : Nat) : Prop :=
  code[addr]? = some (.call t) ∨ code[addr]? = some (.jump t) ∧ ReturnsFrom code (addr + 1)

/-- In the place of an open call stands a call of the rule, where the rules are at the addresses
`starts`. -/
def Linked (code : Array (Instr α)) (starts : List Nat) (addr i : Nat) : Prop :=
  ∀ t, starts[i]? = some t → Calls code addr t

/-! ## Instructions in place -/

/-- At the address stands the instruction.  In the place of an open call of rule `i`, what stands
there is as `call` asks for. -/
def Holds (code : Array (Instr α)) (call : Nat → Nat → Prop) (addr : Nat) : Instr α → Prop
  | .openCall i => call addr i
  | instr => code[addr]? = some instr

/-- The instructions stand in the code from an address on. -/
def Placed (code : Array (Instr α)) (call : Nat → Nat → Prop) (base : Nat)
    (instrs : List (Instr α)) : Prop :=
  ∀ k instr, instrs[k]? = some instr → Holds code call (base + k) instr

variable {call : Nat → Nat → Prop}

theorem holds_of_eq {addr : Nat} {instr : Instr α}
    (h : (∀ i, instr ≠ .openCall i) → code[addr]? = some instr)
    (hcall : ∀ i, instr = .openCall i → call addr i) : Holds code call addr instr := by
  cases instr with
  | openCall i => exact hcall i rfl
  | _ => exact h (by simp)

theorem Holds.eq {addr : Nat} {instr : Instr α} (h : Holds code call addr instr)
    (hi : ∀ i, instr ≠ .openCall i) : code[addr]? = some instr := by
  cases instr with
  | openCall i => exact absurd rfl (hi i)
  | _ => exact h

theorem placed_nil {base : Nat} : Placed code call base [] := by
  intro k instr h
  simp at h

theorem placed_cons {base : Nat} {instr : Instr α} {rest : List (Instr α)} :
    Placed code call base (instr :: rest)
      ↔ Holds code call base instr ∧ Placed code call (base + 1) rest := by
  constructor
  · intro h
    refine ⟨h 0 instr rfl, fun k i hk => ?_⟩
    rw [Nat.add_assoc, Nat.add_comm 1 k]
    exact h (k + 1) i hk
  · rintro ⟨h, hrest⟩ k i hk
    cases k with
    | zero => cases hk; exact h
    | succ k =>
      rw [← Nat.add_assoc, Nat.add_right_comm]
      exact hrest k i hk

theorem placed_append {base : Nat} {xs ys : List (Instr α)} :
    Placed code call base (xs ++ ys)
      ↔ Placed code call base xs ∧ Placed code call (base + xs.length) ys := by
  induction xs generalizing base with
  | nil => simp [placed_nil]
  | cons x xs ih =>
    rw [List.cons_append, placed_cons, placed_cons, ih, List.length_cons, and_assoc,
      Nat.add_assoc, Nat.add_comm 1]

/-! ## The rules of a grammar -/

/-- The code has the rules of a grammar, rule `i` from the address at place `i` of `starts` on. -/
def RulesPlaced (link : List Nat → Segment α → Segment α) (code : Array (Instr α))
    (call : Nat → Nat → Prop) (rules : List (Rule α)) (starts : List Nat) : Prop :=
  ∀ (i : Nat) (r : Rule α), rules[i]? = some r → ∃ addr, starts[i]? = some addr ∧
    Placed code call addr (r.body.emit link rules false none .full addr ++ [.ret])

variable {link : List Nat → Segment α → Segment α}

theorem rulesPlaced_nil {starts : List Nat} : RulesPlaced link code call [] starts := by
  intro i r h
  simp at h

theorem exists_start_of_emitRules {all : List (Rule α)} {rules : List (Rule α)} {base : Nat}
    (h : Placed code call base (Expr.emitRules link rules all base).flatten) {i : Nat} {r : Rule α}
    (hr : rules[i]? = some r) :
    ∃ addr, (Instr.starts base (Expr.emitRules link rules all base))[i]? = some addr ∧
      Placed code call addr (r.body.emit link all false none .full addr ++ [.ret]) := by
  induction rules generalizing base i with
  | nil => simp at hr
  | cons x rest ih =>
    obtain ⟨name, body⟩ := x
    rw [Expr.emitRules, List.flatten_cons, placed_append] at h
    rw [Expr.emitRules, Instr.starts]
    cases i with
    | zero => cases hr; exact ⟨base, rfl, h.1⟩
    | succ i => exact ih h.2 hr

/-- The rules laid out one after the other are where their addresses say. -/
theorem rulesPlaced_of_placed {rules : List (Rule α)} {base : Nat}
    (h : Placed code call base (Expr.emitRules link rules rules base).flatten) :
    RulesPlaced link code call rules (Instr.starts base (Expr.emitRules link rules rules base)) :=
  fun _ _ hr => exists_start_of_emitRules h hr

/-- There is a start for each rule. -/
theorem Expr.length_starts_emitRules (link : List Nat → Segment α → Segment α)
    (rules all : List (Rule α)) (base start : Nat) :
    (Instr.starts start (emitRules link rules all base)).length = rules.length := by
  induction rules generalizing base start with
  | nil => rfl
  | cons r rest ih =>
    obtain ⟨name, body⟩ := r
    rw [emitRules, Instr.starts, List.length_cons, List.length_cons, ih]

/-- The first rule is where the code of the rules starts. -/
theorem eq_base_of_starts {base addr : Nat} {codes : List (List (Instr α))}
    (h : (Instr.starts base codes)[0]? = some addr) : addr = base := by
  cases codes with
  | nil => cases h
  | cons code rest => cases h; rfl

/-! ## Resolving the calls of a grammar -/

namespace Segment

theorem get?_put {s : Segment α} {addr : Nat} {old : Instr α} (h : s.get? addr = some old)
    (instr : Instr α) (a : Nat) :
    (s.put addr instr).get? a = if a = addr then some instr else s.get? a := by
  obtain ⟨start, instrs⟩ := s
  simp only [get?] at h
  split at h
  · cases h
  · next hstart =>
    have hlt := (Array.getElem?_eq_some_iff.1 h).1
    simp only [put, get?, if_neg hstart]
    split
    · next ha => rw [if_neg (by omega)]
    · next ha =>
      rw [Array.getElem?_setIfInBounds, if_pos hlt]
      by_cases haddr : a = addr
      · simp [haddr]
      · rw [if_neg haddr, if_neg (by omega)]

/-- Resolving one address changes nothing but an open call there. -/
theorem get?_resolveAt {starts : List Nat} {s : Segment α} {addr a : Nat}
    (h : a = addr → ∀ i, s.get? a ≠ some (.openCall i)) :
    (resolveAt starts s addr).get? a = s.get? a := by
  rw [resolveAt]
  split
  · next i hi =>
    have ha : a ≠ addr := fun ha => h ha i (ha ▸ hi)
    split
    · rfl
    · split
      · rw [get?_put hi, if_neg ha]
      · rw [get?_put hi, if_neg ha]
  · rfl

/-- What holds the segment with one address resolved also holds the segment before that. -/
theorem HeldBy.of_resolveAt {starts : List Nat} {s : Segment α} {addr : Nat}
    (hs : (resolveAt starts s addr).HeldBy code) : s.HeldBy code := by
  intro a instr ha hi
  refine hs a instr ?_ hi
  rw [get?_resolveAt, ha]
  intro _ i hopen
  rw [ha] at hopen
  exact hi i (Option.some.inj hopen)

/-- An open call at the address that is resolved becomes a call. -/
theorem HeldBy.calls_of_resolveAt {starts : List Nat} {s : Segment α} {addr i t : Nat}
    (hs : (resolveAt starts s addr).HeldBy code) (hi : s.get? addr = some (.openCall i))
    (ht : starts[i]? = some t) : Calls code addr t := by
  have hheld := hs.of_resolveAt
  rw [resolveAt, hi] at hs
  simp only [ht] at hs
  split at hs
  · next hret =>
    refine .inr ⟨hs addr _ (by rw [get?_put hi, if_pos rfl]) (by simp), _,
      hheld.jumps_landing _, hheld _ _ hret (by simp)⟩
  · exact .inl (hs addr _ (by rw [get?_put hi, if_pos rfl]) (by simp))

/-- Code that holds the resolved segment has calls in the place of the open calls, and all else that
was in the segment before. -/
theorem HeldBy.of_foldl_resolveAt {starts addrs : List Nat} {s : Segment α}
    (hs : (addrs.foldl (resolveAt starts) s).HeldBy code) :
    s.HeldBy code ∧ ∀ addr ∈ addrs, ∀ i t, s.get? addr = some (.openCall i) →
      starts[i]? = some t → Calls code addr t := by
  induction addrs generalizing s with
  | nil => exact ⟨hs, by simp⟩
  | cons addr rest ih =>
    obtain ⟨hheld, hcalls⟩ := ih hs
    refine ⟨hheld.of_resolveAt, fun a ha i t hi ht => ?_⟩
    by_cases heq : a = addr
    · subst heq
      exact hheld.calls_of_resolveAt hi ht
    · refine hcalls a ((List.mem_cons.1 ha).resolve_left heq) i t ?_ ht
      rw [get?_resolveAt fun h => absurd h heq, hi]

theorem mem_addresses {s : Segment α} {addr : Nat} {instr : Instr α}
    (h : s.get? addr = some instr) : addr ∈ s.addresses := by
  rw [get?] at h
  split at h
  · cases h
  · have := (Array.getElem?_eq_some_iff.1 h).1
    rw [addresses, List.mem_range'_1]
    omega

theorem start_resolveAt (starts : List Nat) (s : Segment α) (addr : Nat) :
    (resolveAt starts s addr).start = s.start := by
  have hput : ∀ instr, (s.put addr instr).start = s.start := by
    intro instr
    rw [put]
    split <;> rfl
  rw [resolveAt]
  split
  · split
    · rfl
    · split
      · exact hput _
      · exact hput _
  · rfl

theorem start_resolveCalls (starts : List Nat) (s : Segment α) :
    (resolveCalls starts s).start = s.start := by
  rw [resolveCalls]
  generalize s.addresses = addrs
  induction addrs generalizing s with
  | nil => rfl
  | cons addr rest ih => rw [List.foldl_cons, ih, start_resolveAt]

theorem size_resolveAt (starts : List Nat) (s : Segment α) (addr : Nat) :
    (resolveAt starts s addr).code.size = s.code.size := by
  have hput : ∀ instr, (s.put addr instr).code.size = s.code.size := by
    intro instr
    rw [put]
    split
    · rfl
    · exact Array.size_setIfInBounds
  rw [resolveAt]
  split
  · split
    · rfl
    · split
      · exact hput _
      · exact hput _
  · rfl

theorem size_resolveCalls (starts : List Nat) (s : Segment α) :
    (resolveCalls starts s).code.size = s.code.size := by
  rw [resolveCalls]
  generalize s.addresses = addrs
  induction addrs generalizing s with
  | nil => rfl
  | cons addr rest ih => rw [List.foldl_cons, ih, size_resolveAt]

/-- Code that has the instructions of a segment in its place holds the segment. -/
theorem heldBy_of_placed {s : Segment α} (h : Placed code call s.start s.code.toList) :
    s.HeldBy code := by
  intro addr instr ha hi
  rw [get?] at ha
  split at ha
  · cases ha
  · have hk := h (addr - s.start) instr (by rw [Array.getElem?_toList, ha])
    rw [Nat.add_sub_cancel' (by omega)] at hk
    exact hk.eq hi

end Segment

/-- **Resolving puts the calls of a grammar in their places.** -/
theorem placed_of_resolveCalls {starts : List Nat} {base : Nat} {instrs : List (Instr α)}
    (h : Placed code call base
      (Segment.resolveCalls starts ⟨base, instrs.toArray⟩).code.toList) :
    Placed code (Linked code starts) base instrs := by
  have hheld : (Segment.resolveCalls starts ⟨base, instrs.toArray⟩).HeldBy code := by
    apply Segment.heldBy_of_placed
    rwa [Segment.start_resolveCalls]
  obtain ⟨hinstrs, hcalls⟩ := hheld.of_foldl_resolveAt
  intro k instr hk
  have hget : (Segment.mk base instrs.toArray).get? (base + k) = some instr := by
    simpa [Segment.get?] using hk
  refine holds_of_eq (hinstrs _ _ hget) fun i hi t ht => ?_
  subst hi
  exact hcalls _ (Segment.mem_addresses hget) i t hget ht

end PegMachine
