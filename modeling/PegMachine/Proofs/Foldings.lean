import PegMachine.Pattern

/-!
# What the operations come to

A choice or a sequence of two patterns is not always one in the result: classes are merged, and an
operand that can have no effect is dropped.  Other operations check what they are given.  Here it is
said for each operation when it does what, so that nobody else has to take the operations apart.

* `choice_eq_left`, `choice_eq_right`, `choice_eq_join` — the three outcomes of a choice, besides
  the one class that two classes become; `seq_eq_left`, `seq_eq_right`, `seq_eq_join` for sequences.
* `choice_cases`, `diff_cases`, `seq_cases` — what holds of all outcomes holds of the result.
* `of_ref`, `of_behind`, `of_repeated`, `of_times` — what has passed the checks.
-/

set_option autoImplicit false

namespace PegMachine.Pattern

variable {α : Type} {p q : Pattern α}

/-! ## Classes -/

theorem classOf?_eq_some {op : CharSet → CharSet → CharSet} {r : Pattern α}
    (h : classOf? op p q = some r) : ∃ s, r = ofSet s := by
  rw [classOf?] at h
  split at h
  · exact ⟨_, (Option.some.inj h).symm⟩
  · cases h

/-! ## Choices -/

/-- When two patterns are not both classes, the first is kept alone if it never fails or the second
never matches, -/
theorem choice_eq_left (hclass : classOf? .union p q = none)
    (h : p.root.noFailIn [] = true ∨ q.root = .fail) : choice p q = p := by
  rw [choice, hclass]
  dsimp only
  rcases h with h | h
  · rw [if_pos h]
  · rw [h, ite_self]

/-- the second alone if the first never matches, -/
theorem choice_eq_right (hclass : classOf? .union p q = none) (hp : p.root = .fail)
    (hq : q.root ≠ .fail) : choice p q = q := by
  rw [choice, hclass, hp]
  dsimp only
  rw [if_neg (by simp [Expr.noFailIn, Expr.noFail])]
  split
  · next h => exact absurd h hq
  · rfl
  · next h _ => exact (h rfl).elim

/-- and otherwise there is a choice. -/
theorem choice_eq_join (hclass : classOf? .union p q = none) (hnoFail : p.root.noFailIn [] = false)
    (hp : p.root ≠ .fail) (hq : q.root ≠ .fail) : choice p q = join .choice p q := by
  rw [choice, hclass, hnoFail]
  dsimp only
  rw [if_neg (by decide)]
  split
  · next h => exact absurd h hq
  · next h _ => exact absurd h hp
  · rfl

theorem choice_cases {motive : Pattern α → Prop} (hset : ∀ s, motive (ofSet s)) (hp : motive p)
    (hq : motive q) (hjoin : motive (join .choice p q)) : motive (choice p q) := by
  cases hc : classOf? .union p q with
  | some r =>
    obtain ⟨s, rfl⟩ := classOf?_eq_some hc
    rw [choice, hc]
    exact hset s
  | none =>
    by_cases hleft : p.root.noFailIn [] = true ∨ q.root = .fail
    · rwa [choice_eq_left hc hleft]
    · rw [not_or, Bool.not_eq_true] at hleft
      by_cases hfirst : p.root = .fail
      · rwa [choice_eq_right hc hfirst hleft.2]
      · rwa [choice_eq_join hc hleft.1 hfirst hleft.2]

theorem diff_cases {motive : Pattern α → Prop} (hset : ∀ s, motive (ofSet s))
    (hjoin : motive (join (fun first second => .seq (.not second) first) p q)) :
    motive (diff p q) := by
  rw [diff]
  split
  · next hr =>
    obtain ⟨s, rfl⟩ := classOf?_eq_some hr
    exact hset s
  · exact hjoin

/-! ## Sequences -/

/-- One pattern after another is the first alone if that never matches or the second is the empty
string, -/
theorem seq_eq_left (h : p.root = .fail ∨ q.root = .empty) : seq p q = p := by
  rw [seq]
  split
  · rfl
  · rfl
  · next hfirst hsecond =>
    rw [hfirst] at h
    exact absurd (h.resolve_left (by simp)) hsecond
  · next hfail _ hsecond => exact absurd (h.resolve_left hfail) hsecond

/-- the second alone if the first is the empty string, -/
theorem seq_eq_right (hp : p.root = .empty) (hq : q.root ≠ .empty) : seq p q = q := by
  rw [seq, hp]
  split
  · next h => cases h
  · next h _ => exact absurd h hq
  · rfl
  · next h _ => exact absurd rfl h

/-- and otherwise there is a sequence. -/
theorem seq_eq_join (hfail : p.root ≠ .fail) (hp : p.root ≠ .empty) (hq : q.root ≠ .empty) :
    seq p q = join .seq p q := by
  rw [seq]
  split
  · next h => exact absurd h hfail
  · next h _ => exact absurd h hq
  · next h _ => exact absurd h hp
  · rfl

theorem seq_cases {motive : Pattern α → Prop} (hp : motive p) (hq : motive q)
    (hjoin : motive (join .seq p q)) : motive (seq p q) := by
  by_cases hleft : p.root = .fail ∨ q.root = .empty
  · rwa [seq_eq_left hleft]
  · rw [not_or] at hleft
    by_cases hfirst : p.root = .empty
    · rwa [seq_eq_right hfirst hleft.2]
    · rwa [seq_eq_join hleft.1 hfirst hleft.2]

/-! ## Operations with checks -/

variable {n : Int}

theorem of_ref {name : String} (hp : ref name = .ok p) : p = ⟨.openCall 0, [name]⟩ := by
  rw [ref] at hp
  split at hp
  · cases hp
  · cases hp
    rfl

theorem of_behind (hq : p.behind = .ok q) :
    ∃ width, p.root.fixedLengthIn [] = some (width + 1) ∧ p.root.hasActionsIn [] = false ∧
      q = { p with root := .behind (width + 1) p.root } := by
  rw [behind] at hq
  split at hq
  · next width hwidth =>
    split at hq
    · cases hq
    · next hactions =>
      cases hq
      exact ⟨width, hwidth, by simpa using hactions, rfl⟩
  · cases hq

/-- A repetition is one without end, of what cannot be empty, or has a greatest number of rounds. -/
theorem of_repeated (hq : p.repeated n = .ok q) :
    (0 ≤ n ∧ p.root.nullableIn [] = false ∧
        q = { p with root := Expr.seqTimes p.root n.toNat (.star p.root) }) ∨
      ∃ k : Nat, n = -(k + 1) ∧ q = { p with root := atMost p.root (k + 1) } := by
  rw [repeated] at hq
  split at hq
  · next hn =>
    split at hq
    · cases hq
    · next hnull =>
      cases hq
      exact .inl ⟨hn, by simpa using hnull, rfl⟩
  · next hn =>
    cases hq
    obtain ⟨k, hk⟩ : ∃ k, n.natAbs = k + 1 := Nat.exists_eq_succ_of_ne_zero (by omega)
    exact .inr ⟨k, by omega, by rw [hk]⟩

/-- To be matched a number of times, a pattern is copied that often, or becomes a rule that is
called that often. -/
theorem times_cases {asRule : Bool} (hq : p.times n asRule = .ok q) :
    p.times n false = .ok q ∨
      grammar [("c", seqAll (List.replicate n.toNat ⟨.openCall 0, ["p"]⟩)), ("p", p)] = .ok q := by
  cases asRule with
  | false => exact .inl hq
  | true =>
    rw [times] at hq ⊢
    split at hq
    · cases hq
    · next hpos =>
      split at hq
      · next hone => exact .inl (by rw [if_neg hpos, if_pos hone, hq])
      · exact .inr hq

/-- What a number of times comes to. -/
theorem of_times_eq_ok {asRule : Bool} (hq : p.times n asRule = .ok q) :
    if n = 1 then q = p else if asRule then p.timesByRule n.toNat = .ok q
      else q = { p with root := Expr.seqTimes p.root (n.toNat - 1) p.root } := by
  rw [Pattern.times] at hq
  split at hq
  · cases hq
  · split at hq
    · next hone =>
      cases hq
      rw [if_pos hone]
    · next hone =>
      rw [if_neg hone]
      split at hq
      · next hrule => rwa [if_pos hrule]
      · next hrule =>
        rw [if_neg hrule]
        split at hq
        · cases hq
        · cases hq
          rfl

theorem of_times (hq : p.times n false = .ok q) :
    q = p ∨ q = { p with root := Expr.seqTimes p.root (n.toNat - 1) p.root } := by
  have hof := of_times_eq_ok hq
  rw [if_neg Bool.false_ne_true] at hof
  split at hof
  · exact .inl hof
  · exact .inr hof

end PegMachine.Pattern
