import PegMachine.Proofs.Code.Landing

/-!
# Chains of jumps while calls are resolved

Resolving the calls of a grammar asks where chains of jumps end while it turns calls into jumps.  At
that time the rules are there, but nothing of what will be behind them, so that chains have to end
in the rules.  That they do so follows from what is known of finished code: at any moment, each open
call is as it was, or is a call or a jump to its rule, and so it is in finished code as well.

* `Segment.resolving` — the rules of a grammar when some of their calls have been resolved.
* `lands_resolving` — jumps land from every address of it.
-/

set_option autoImplicit false

namespace PegMachine

open PegMachine.Expr

variable {α : Type} {link : List Nat → Segment α → Segment α} {rules : List (Rule α)}
  {starts : List Nat} {base : Nat}

namespace Segment

variable {s : Segment α} {a addr i t : Nat}

/-- The segment when the open calls at the first `n` of its addresses have been resolved. -/
def resolving (starts : List Nat) (s : Segment α) (n : Nat) : Segment α :=
  (s.addresses.take n).foldl (resolveAt starts) s

theorem get?_foldl_resolveAt {addrs : List Nat} (h : ∀ i, s.get? a ≠ some (.openCall i)) :
    (addrs.foldl (resolveAt starts) s).get? a = s.get? a := by
  induction addrs generalizing s with
  | nil => rfl
  | cons addr rest ih =>
    have hstep : (resolveAt starts s addr).get? a = s.get? a := get?_resolveAt fun _ => h
    rw [List.foldl_cons, ih (by rwa [hstep]), hstep]

/-- An open call stays as it is, or becomes a call of its rule or a jump there. -/
theorem get?_resolveAt_openCall (addr : Nat) (h : s.get? a = some (.openCall i))
    (ht : starts[i]? = some t) :
    (resolveAt starts s addr).get? a = some (.openCall i) ∨
      (resolveAt starts s addr).get? a = some (.call t) ∨
      (resolveAt starts s addr).get? a = some (.jump t) := by
  by_cases ha : a = addr
  · subst ha
    rw [resolveAt, h]
    simp only [ht]
    split
    · exact .inr (.inr (by rw [get?_put h, if_pos rfl]))
    · exact .inr (.inl (by rw [get?_put h, if_pos rfl]))
  · exact .inl (by rw [get?_resolveAt fun heq => absurd heq ha, h])

theorem exists_of_foldl_resolveAt {addrs : List Nat} (h : s.get? a = some (.openCall i))
    (ht : starts[i]? = some t) :
    ∃ instr, (addrs.foldl (resolveAt starts) s).get? a = some instr ∧
      ∀ u, instr = .jump u → u = t := by
  induction addrs generalizing s with
  | nil => exact ⟨_, h, by simp⟩
  | cons addr rest ih =>
    rw [List.foldl_cons]
    rcases get?_resolveAt_openCall addr h ht with hopen | hcall | hjump
    · exact ih hopen
    · exact ⟨_, by rw [get?_foldl_resolveAt (by simp [hcall]), hcall], by simp⟩
    · refine ⟨_, by rw [get?_foldl_resolveAt (by simp [hjump]), hjump], fun u hu => ?_⟩
      cases hu
      rfl

/-- The segment in its place, behind jumps that go round in a circle. -/
def padded (s : Segment α) : Array (Instr α) :=
  (List.replicate s.start (Instr.jump 0) ++ s.code.toList).toArray

theorem padded_of_lt (h : a < s.start) : s.padded[a]? = some (.jump 0) := by
  rw [padded, List.getElem?_toArray, List.getElem?_append_left (by simpa using h),
    List.getElem?_replicate, if_pos h]

theorem padded_of_le (h : s.start ≤ a) : s.padded[a]? = s.get? a := by
  rw [padded, List.getElem?_toArray, List.getElem?_append_right (by simpa using h), get?,
    if_neg (Nat.not_lt.2 h), List.length_replicate, Array.getElem?_toList]

/-- What lands in the segment in its place does so inside the segment. -/
theorem lands_of_padded (h : Lands (s.padded[·]?) a) : Lands s.get? a := by
  induction h with
  | @stop a instr ha hstop =>
    rcases Nat.lt_or_ge a s.start with hlt | hle
    · rw [padded_of_lt hlt] at ha
      cases ha
      cases hstop
    · exact .stop ((padded_of_le hle).symm.trans ha) hstop
  | @jump a t ha _ ih =>
    rcases Nat.lt_or_ge a s.start with hlt | hle
    · rw [padded_of_lt hlt] at ha
      cases ha
      have hnone : s.get? 0 = none := if_pos (by omega)
      cases ih with
      | stop h0 => rw [hnone] at h0; cases h0
      | jump h0 => rw [hnone] at h0; cases h0
    · exact .jump ((padded_of_le hle).symm.trans ha) ih

theorem start_resolving (starts : List Nat) (s : Segment α) (n : Nat) :
    (s.resolving starts n).start = s.start := by
  rw [resolving]
  generalize s.addresses.take n = addrs
  induction addrs generalizing s with
  | nil => rfl
  | cons addr rest ih => rw [List.foldl_cons, ih, start_resolveAt]

/-- At any moment, what was in the segment is there, and calls that are no longer open head for
their rules. -/
theorem placed_resolving (starts : List Nat) (s : Segment α) (n : Nat) :
    Placed (s.resolving starts n).padded (HeadsFor (s.resolving starts n).padded starts) s.start
      s.code.toList := by
  intro k instr hk
  have hget : s.get? (s.start + k) = some instr := by
    simpa [get?] using hk
  have hpadded : (s.resolving starts n).padded[s.start + k]?
      = (s.resolving starts n).get? (s.start + k) :=
    padded_of_le (by rw [start_resolving]; omega)
  refine holds_of_eq (fun hopen => ?_) fun i hi t ht => ?_
  · rw [hpadded, resolving, get?_foldl_resolveAt (by simpa [hget] using hopen), hget]
  · subst hi
    rw [hpadded]
    exact exists_of_foldl_resolveAt hget ht

/-- The code of the rules of a grammar from an address on, in which their calls are open. -/
def ofRules (rules : List (Rule α)) (base : Nat) : Segment α :=
  ⟨base, (emitRules resolveCalls rules rules base).flatten.toArray⟩

/-- Where the rules start in it. -/
def ruleStarts (rules : List (Rule α)) (base : Nat) : List Nat :=
  Instr.starts base (emitRules resolveCalls rules rules base)

end Segment

/-- Behind an open call in a rule, the code of the rules goes on. -/
theorem lt_of_openCall_emitRules {all : List (Rule α)} {k i : Nat}
    (h : (emitRules link rules all base).flatten[k]? = some (.openCall i)) :
    k + 1 < (emitRules link rules all base).flatten.length := by
  induction rules generalizing base k with
  | nil => cases h
  | cons r rest ih =>
    obtain ⟨name, body⟩ := r
    simp only [emitRules, List.flatten_cons, List.append_assoc, List.length_append,
      List.length_singleton] at h ⊢
    rcases Nat.lt_or_ge k (body.emit link all false none .full base).length with hlt | hle
    · omega
    · rw [List.getElem?_append_right hle] at h
      cases hk : k - (body.emit link all false none .full base).length with
      | zero =>
        rw [hk] at h
        cases h
      | succ j =>
        rw [hk] at h
        have hrest := ih h
        omega

/-- **While the calls of a grammar are resolved, jumps land from every address of its rules**, and
from the one behind every call that is still open. -/
theorem lands_resolving (hsettled : (grammar rules).settled)
    (hscope : inScopeRules rules.length rules) (hback : (grammar rules).movesBack) (base n : Nat) :
    ∀ a ∈ (Segment.ofRules rules base).addresses,
      let s := (Segment.ofRules rules base).resolving (Segment.ruleStarts rules base) n
      Lands s.get? a ∧ ∀ i, s.get? a = some (.openCall i) → Lands s.get? (a + 1) := by
  intro a ha s
  have hplaced := Segment.placed_resolving (Segment.ruleStarts rules base)
    (Segment.ofRules rules base) n
  have hlands : ∀ a, base ≤ a → a < base + _ → Lands s.get? a := fun a hle hlt =>
    Segment.lands_of_padded (landsFrom_rules hsettled hscope hback hplaced a hle hlt)
  have hrange : base ≤ a ∧ a < base + (emitRules Segment.resolveCalls rules rules base).flatten.length
      := by
    rwa [Segment.addresses, List.mem_range'_1] at ha
  refine ⟨hlands a hrange.1 hrange.2, fun i hi => hlands (a + 1) (by omega) ?_⟩
  obtain ⟨hopen, -⟩ := Segment.openCall_of_foldl_resolveAt hi
  obtain ⟨k, rfl, -, hk⟩ := Segment.exists_of_get? hopen
  have hlt := lt_of_openCall_emitRules hk
  show base + k + 1 < base + _
  omega

end PegMachine
