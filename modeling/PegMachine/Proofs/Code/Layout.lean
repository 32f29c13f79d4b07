import PegMachine.Proofs.CharClass
import PegMachine.Proofs.Code.Jumps

/-!
# What stands where in the code of an expression

The code of an expression is one of several layouts, depending on what the next character tells and
on whether the frame on top may be moved up.  There is a lemma for each of them, which says of code
that has been put in its place which instructions it has at which addresses, and where the code of
the parts is.  Nothing here depends on how the open calls of a grammar are linked.

* `emitEnd` — the address behind the code of an expression.
* `placed_choice_…`, `placed_star_…`, `placed_not_…`, `placed_and_…`, `placed_behind`,
  `placed_action`, `placed_grammar` — the layouts.
-/

set_option autoImplicit false

namespace PegMachine

open PegMachine.Expr

variable {α : Type}

namespace Instr

theorem forChar_ne_openCall (c : Char) (guard : Option Guard) (i : Nat) :
    (forChar c guard : Instr α) ≠ .openCall i := by
  rw [forChar]
  split <;> simp

theorem forSet_ne_openCall (set : CharSet) (guard : Option Guard) (i : Nat) :
    (forSet set guard : Instr α) ≠ .openCall i := by
  rw [forSet]
  split
  · simp
  · simp
  · exact forChar_ne_openCall _ _ i
  · split <;> simp

theorem forTest_ne_openCall (set : CharSet) (t i : Nat) :
    (forTest set t : Instr α) ≠ .openCall i := by
  rw [forTest]
  split <;> simp

theorem length_headTest (h : Head) (t : Nat) :
    (headTest h t : List (Instr α)).length = h.testLength := by
  rw [headTest, Head.testLength]
  split <;> rfl

end Instr

namespace Expr

theorem eq_empty_of_isEmpty {e : Expr α} (h : e.isEmpty = true) : e = .empty := by
  cases e <;> first | rfl | cases h

/-- The address behind the code of an expression. -/
abbrev emitEnd (link : List Nat → Segment α → Segment α) (e : Expr α) (rules : List (Rule α))
    (reuse : Bool) (guard : Option Guard) (follow : CharSet) (base : Nat) : Nat :=
  base + (e.emit link rules reuse guard follow base).length

end Expr

variable {link : List Nat → Segment α → Segment α} {code : Array (Instr α)}
  {call : Nat → Nat → Prop} {e e₁ e₂ : Expr α} {rules : List (Rule α)} {reuse : Bool}
  {guard : Option Guard} {follow : CharSet} {base : Nat}

/-! ## Choices -/

/-- Where the next character tells which alternative to take. -/
theorem placed_choice_told (htold : e₁.toldByNext rules (e₂.headIn rules follow).chars = true)
    (hp : Placed code call base ((choice e₁ e₂).emit link rules reuse guard follow base)) :
    ∃ other,
      other ≤ e₁.emitEnd link rules false (Guard.ofSet (e₁.headIn rules .full).chars) follow
        (base + 1) + 1 ∧
      code[base]? = some (.forTest (e₁.headIn rules .full).chars other) ∧
      Placed code call (base + 1)
        (e₁.emit link rules false (Guard.ofSet (e₁.headIn rules .full).chars) follow (base + 1)) ∧
      Jumps code (e₁.emitEnd link rules false (Guard.ofSet (e₁.headIn rules .full).chars) follow
        (base + 1)) (e₂.emitEnd link rules reuse none follow other) ∧
      Placed code call other (e₂.emit link rules reuse none follow other) ∧
      (choice e₁ e₂).emitEnd link rules reuse guard follow base
        = e₂.emitEnd link rules reuse none follow other := by
  simp only [emitEnd, emit, htold, if_true] at hp ⊢
  generalize emit link e₁ rules false _ follow (base + 1) = code₁ at hp ⊢
  cases hempty : e₂.isEmpty with
  | true =>
    obtain rfl := eq_empty_of_isEmpty hempty
    simp only [isEmpty, if_true, emit, List.append_nil, placed_cons, List.length_cons] at hp ⊢
    have hpast : base + (code₁.length + 1) = base + 1 + code₁.length := by omega
    exact ⟨_, by omega, hp.1.eq (Instr.forTest_ne_openCall _ _), hp.2, .here, placed_nil, hpast⟩
  | false =>
    simp only [hempty, Bool.false_eq_true, if_false, List.append_assoc, List.cons_append,
      List.nil_append, placed_cons, placed_append, List.length_cons, List.length_append] at hp ⊢
    obtain ⟨htest, hcode₁, hskip, hcode₂⟩ := hp
    exact ⟨_, Nat.le_refl _, htest.eq (Instr.forTest_ne_openCall _ _), hcode₁, .jump hskip .here, hcode₂,
      by omega⟩

/-- Where the frame on top is moved up for an optional part. -/
theorem placed_choice_moved (hreuse : (reuse && e₂.isEmpty) = true)
    (htold : e₁.toldByNext rules (e₂.headIn rules follow).chars = false)
    (hp : Placed code call base ((choice e₁ e₂).emit link rules reuse guard follow base)) :
    code[base]? = some (.partialCommit (base + 1)) ∧
      Placed code call (base + 1) (e₁.emit link rules true none .full (base + 1)) ∧
      (choice e₁ e₂).emitEnd link rules reuse guard follow base
        = e₁.emitEnd link rules true none .full (base + 1) := by
  simp only [emitEnd, emit, htold, hreuse, Bool.false_eq_true, if_true, if_false, placed_cons,
    List.length_cons] at hp ⊢
  exact ⟨hp.1, hp.2, by omega⟩

/-- Where a frame is pushed for the second alternative. -/
theorem placed_choice_pushed (hreuse : (reuse && e₂.isEmpty) = false)
    (htold : e₁.toldByNext rules (e₂.headIn rules follow).chars = false)
    (hp : Placed code call base ((choice e₁ e₂).emit link rules reuse guard follow base)) :
    ∃ first other,
      first = base + (e₁.headIn rules .full).testLength + 1 ∧
      other = e₁.emitEnd link rules e₂.isEmpty (e₁.headIn rules .full).guard .full first + 1 ∧
      Placed code call base (Instr.headTest (e₁.headIn rules .full) other) ∧
      code[base + (e₁.headIn rules .full).testLength]? = some (.choice other) ∧
      Placed code call first
        (e₁.emit link rules e₂.isEmpty (e₁.headIn rules .full).guard .full first) ∧
      code[e₁.emitEnd link rules e₂.isEmpty (e₁.headIn rules .full).guard .full first]?
        = some (.commit (e₂.emitEnd link rules reuse none follow other)) ∧
      Placed code call other (e₂.emit link rules reuse none follow other) ∧
      (choice e₁ e₂).emitEnd link rules reuse guard follow base
        = e₂.emitEnd link rules reuse none follow other := by
  simp only [emitEnd, emit, htold, hreuse, Bool.false_eq_true, if_false, List.append_assoc,
    List.cons_append, placed_append, placed_cons, List.length_append, List.length_cons,
    Instr.length_headTest] at hp ⊢
  obtain ⟨htest, hchoice, hcode₁, hcommit, hcode₂⟩ := hp
  exact ⟨_, _, rfl, rfl, htest, hchoice, hcode₁, hcommit, hcode₂, by omega⟩

/-! ## Repetitions -/

theorem placed_star_span {set : CharSet} (he : e.class? = some set)
    (hp : Placed code call base ((star e).emit link rules reuse guard follow base)) :
    code[base]? = some (.span (.ofSet set)) ∧
      (star e).emitEnd link rules reuse guard follow base = base + 1 := by
  simp only [emitEnd, emit, he, placed_cons] at hp ⊢
  exact ⟨hp.1, rfl⟩

/-- For a repetition, what has been tested for is of no use. -/
theorem emit_star_guard : (star e).emit link rules reuse guard follow base
    = (star e).emit link rules reuse none follow base := by
  simp only [emit]

/-- Where the next character tells if there is another round, the rounds are run without a frame of
their own. -/
theorem placed_star_told (he : e.class? = none) (htold : e.toldByNext rules follow = true)
    (hp : Placed code call base ((star e).emit link rules reuse guard follow base)) :
    code[base]? = some (.forTest (e.headIn rules .full).chars
        ((star e).emitEnd link rules reuse guard follow base)) ∧
      Placed code call (base + 1)
        (e.emit link rules reuse (Guard.ofSet (e.headIn rules .full).chars) .full (base + 1)) ∧
      code[e.emitEnd link rules reuse (Guard.ofSet (e.headIn rules .full).chars) .full (base + 1)]?
        = some (.jump base) ∧
      (star e).emitEnd link rules reuse guard follow base
        = e.emitEnd link rules reuse (Guard.ofSet (e.headIn rules .full).chars) .full (base + 1)
          + 1 := by
  simp only [emitEnd, emit, he, htold, if_true, placed_cons, placed_append, List.cons_append,
    List.length_cons, List.length_append, List.length_nil] at hp ⊢
  refine ⟨?_, hp.2.1, hp.2.2.1, by omega⟩
  rw [hp.1.eq (Instr.forTest_ne_openCall _ _)]
  congr 2
  omega

/-- Where a frame is kept for the rounds, of its own or the one on top. -/
theorem placed_star_kept (he : e.class? = none) (htold : e.toldByNext rules follow = false)
    (hp : Placed code call base ((star e).emit link rules reuse guard follow base)) :
    ∃ first fin, first = base + (e.headIn rules .full).testLength + 1 ∧
      fin = e.emitEnd link rules false none .full first + 1 ∧
      (star e).emitEnd link rules reuse guard follow base = fin ∧
      Placed code call base (Instr.headTest (e.headIn rules .full) fin) ∧
      code[base + (e.headIn rules .full).testLength]?
        = some (if reuse then .partialCommit first else .choice fin) ∧
      Placed code call first (e.emit link rules false none .full first) ∧
      code[e.emitEnd link rules false none .full first]? = some (.partialCommit first) := by
  simp only [emitEnd, emit, he, htold, Bool.false_eq_true, if_false, List.append_assoc,
    List.cons_append, placed_append, placed_cons, List.length_append, List.length_cons,
    Instr.length_headTest] at hp ⊢
  obtain ⟨htest, henter, hcode, hround, -⟩ := hp
  refine ⟨_, _, rfl, rfl, ?_, htest, ?_, hcode, hround⟩
  · rw [List.length_nil]
    omega
  · cases reuse <;> exact henter

/-! ## Looking ahead and behind -/

/-- Where the next character tells if the match fails. -/
theorem placed_not_told (htold : e.headFailIn rules = true)
    (hp : Placed code call base ((Expr.not e).emit link rules reuse guard follow base)) :
    ∃ fin, fin = base + (e.headIn rules .full).testLength + 1 ∧
      (Expr.not e).emitEnd link rules reuse guard follow base = fin ∧
      Placed code call base (Instr.headTest (e.headIn rules .full) fin) ∧
      code[base + (e.headIn rules .full).testLength]? = some .fail := by
  simp only [emitEnd, emit, htold, if_true, placed_append, placed_cons, List.length_append,
    List.length_cons, Instr.length_headTest] at hp ⊢
  exact ⟨_, rfl, by rw [List.length_nil]; omega, hp.1, hp.2.1⟩

/-- Where a frame is pushed for going on. -/
theorem placed_not_pushed (htold : e.headFailIn rules = false)
    (hp : Placed code call base ((Expr.not e).emit link rules reuse guard follow base)) :
    ∃ first fin, first = base + (e.headIn rules .full).testLength + 1 ∧
      fin = e.emitEnd link rules false none .full first + 1 ∧
      (Expr.not e).emitEnd link rules reuse guard follow base = fin ∧
      Placed code call base (Instr.headTest (e.headIn rules .full) fin) ∧
      code[base + (e.headIn rules .full).testLength]? = some (.choice fin) ∧
      Placed code call first (e.emit link rules false none .full first) ∧
      code[e.emitEnd link rules false none .full first]? = some .failTwice := by
  simp only [emitEnd, emit, htold, Bool.false_eq_true, if_false, List.append_assoc,
    List.cons_append, placed_append, placed_cons, List.length_append, List.length_cons,
    Instr.length_headTest] at hp ⊢
  obtain ⟨htest, hchoice, hcode, hfail, -⟩ := hp
  refine ⟨_, _, rfl, rfl, ?_, htest, hchoice, hcode, hfail⟩
  rw [List.length_nil]
  omega

/-- Where it is enough to move back behind what was matched. -/
theorem placed_and_fixed {length : Nat} (hlength : e.fixedLengthIn rules = some length)
    (hacts : e.hasActionsIn rules = false)
    (hp : Placed code call base ((Expr.and e).emit link rules reuse guard follow base)) :
    Placed code call base (e.emit link rules false guard .full base) ∧
      if length = 0 then
        (Expr.and e).emitEnd link rules reuse guard follow base
          = e.emitEnd link rules false guard .full base
      else
        code[e.emitEnd link rules false guard .full base]? = some (.behind length) ∧
        (Expr.and e).emitEnd link rules reuse guard follow base
          = e.emitEnd link rules false guard .full base + 1 := by
  simp only [emitEnd, emit, hlength, hacts, placed_append] at hp ⊢
  refine ⟨hp.1, ?_⟩
  split
  · simp
  · next hzero =>
    rw [if_neg hzero, placed_cons] at hp
    exact ⟨hp.2.1, by simp [Nat.add_assoc]⟩

/-- Where a frame is pushed to return to. -/
theorem placed_and_pushed (hfixed : ∀ length, e.fixedLengthIn rules = some length →
      e.hasActionsIn rules = true)
    (hp : Placed code call base ((Expr.and e).emit link rules reuse guard follow base)) :
    ∃ failed fin, failed = e.emitEnd link rules false guard .full (base + 1) + 1 ∧
      fin = failed + 1 ∧
      (Expr.and e).emitEnd link rules reuse guard follow base = fin ∧
      code[base]? = some (.choice failed) ∧
      Placed code call (base + 1) (e.emit link rules false guard .full (base + 1)) ∧
      code[e.emitEnd link rules false guard .full (base + 1)]? = some (.backCommit fin) ∧
      code[failed]? = some .fail := by
  have hemit : (Expr.and e).emit link rules reuse guard follow base
      = .choice (e.emitEnd link rules false guard .full (base + 1) + 1) ::
          e.emit link rules false guard .full (base + 1)
        ++ [.backCommit (e.emitEnd link rules false guard .full (base + 1) + 1 + 1), .fail] := by
    simp only [emitEnd, emit]
    split
    · next length hlength hacts =>
      rw [hfixed length hlength] at hacts
      cases hacts
    · rfl
  rw [hemit] at hp
  simp only [emitEnd, hemit, List.cons_append, placed_cons, placed_append, List.length_cons,
    List.length_append] at hp ⊢
  obtain ⟨hchoice, hcode, hback, hfail, -⟩ := hp
  refine ⟨_, _, rfl, rfl, ?_, hchoice, hcode, hback, hfail⟩
  rw [List.length_nil]
  omega

/-- A lookbehind moves back, unless it is of no width. -/
theorem placed_behind {width : Nat}
    (hp : Placed code call base ((behind width e).emit link rules reuse guard follow base)) :
    ∃ first, (if width = 0 then first = base
        else code[base]? = some (.behind width) ∧ first = base + 1) ∧
      Placed code call first (e.emit link rules false none .full first) ∧
      (behind width e).emitEnd link rules reuse guard follow base
        = e.emitEnd link rules false none .full first := by
  by_cases hzero : width = 0
  · simp only [emitEnd, emit, if_pos hzero] at hp ⊢
    exact ⟨base, rfl, hp, rfl⟩
  · simp only [emitEnd, emit, if_neg hzero, placed_cons, List.length_cons] at hp ⊢
    exact ⟨base + 1, ⟨hp.1, rfl⟩, hp.2, by omega⟩

/-! ## Actions and grammars -/

theorem placed_action {a : α}
    (hp : Placed code call base ((action a e).emit link rules reuse guard follow base)) :
    code[base]? = some (.openAction a) ∧
      Placed code call (base + 1) (e.emit link rules false guard .full (base + 1)) ∧
      code[e.emitEnd link rules false guard .full (base + 1)]? = some .closeAction ∧
      (action a e).emitEnd link rules reuse guard follow base
        = e.emitEnd link rules false guard .full (base + 1) + 1 := by
  simp only [emitEnd, emit, List.cons_append, placed_cons, placed_append, List.length_cons,
    List.length_append] at hp ⊢
  refine ⟨hp.1, hp.2.1, hp.2.2.1, ?_⟩
  rw [List.length_nil]
  omega

/-- A grammar calls its first rule, and jumps behind all of them. -/
theorem placed_grammar {inner : List (Rule α)}
    (hsize : ∀ starts s, (link starts s).code.size = s.code.size)
    (hp : Placed code call base ((grammar inner).emit link rules reuse guard follow base)) :
    code[base]? = some (.call (base + 2)) ∧
      code[base + 1]? = some (.jump ((grammar inner).emitEnd link rules reuse guard follow base)) ∧
      Placed code call (base + 2)
        (link (Instr.starts (base + 2) (emitRules link inner inner (base + 2)))
          ⟨base + 2, (emitRules link inner inner (base + 2)).flatten.toArray⟩).code.toList ∧
      (grammar inner).emitEnd link rules reuse guard follow base
        = base + 2 + (emitRules link inner inner (base + 2)).flatten.length := by
  simp only [emitEnd, emit, placed_cons, List.length_cons, Array.length_toList, hsize] at hp ⊢
  refine ⟨hp.1, ?_, hp.2.2, ?_⟩
  · rw [hp.2.1.eq (by simp)]
    congr 2
    omega
  · rw [List.size_toArray]
    omega

end PegMachine
