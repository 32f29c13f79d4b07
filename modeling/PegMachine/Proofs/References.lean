import PegMachine.Program
import PegMachine.Proofs.Expr.Calls
import PegMachine.Proofs.LeftRecursion

/-!
# References keep their names

A reference is a place in the list of names of its pattern, and this place changes whenever two
lists are put one after the other, are found to be equal, or one of them is dropped together with
its pattern.  What must not change is the name at that place.  To say so, a pattern is compared with
one that is built in the same way from references that are known by a number of their own from the
start, so that nothing is ever renumbered (`BuiltAlike`).

* `Built.numbered_and_builtAlike`, `BuiltAlike.eq_named` — the two are the same but for the numbers.
* `Joins.named` — the step where two lists become one.
* `grammar_eq` — what a grammar makes of the references in its rules.
* `keepsNames_and_bindsByName` — all of it together.
-/

set_option autoImplicit false

namespace PegMachine

open PegMachine.Expr

variable {α : Type}

namespace Pattern

variable {p q : Pattern α}

/-! ## The names in a pattern -/

/-- The name that an open call of the pattern stands for. -/
def nameAt (p : Pattern α) (i : Nat) : String := nameOf p.refs i

/-- The names that the open calls of the pattern stand for, from left to right. -/
def called (p : Pattern α) : List String := p.root.openCalls.map p.nameAt

/-- The open calls of the pattern are the places in its list of names, without a gap. -/
def Numbered (p : Pattern α) : Prop := ∀ i, i ∈ p.root.openCalls ↔ i < p.refs.length

/-- The pattern refers to no rule. -/
def RefersToNone (p : Pattern α) : Prop := p.root.openCalls = [] ∧ p.refs = []

/-- The pattern with the list of names used up: every open call has the number that `number` gives
to its name, wherever the name stands in the list. -/
def named (number : String → Nat) (p : Pattern α) : Pattern α :=
  ⟨p.root.substCalls fun i => .openCall (number (p.nameAt i)), []⟩

theorem RefersToNone.numbered (h : p.RefersToNone) : p.Numbered := by
  intro i
  rw [h.1, h.2]
  simp

theorem RefersToNone.named_eq (h : p.RefersToNone) (number : String → Nat) :
    p.named number = p := by
  obtain ⟨root, refs⟩ := p
  obtain ⟨hroot, rfl⟩ := h
  rw [named, substCalls_eq_self hroot]

/-! ## Two lists of names in one -/

/-- The list holds the names of both lists, those of the second from the place `n` on, and no
others. -/
structure Merged (first second refs : List String) (n : Nat) : Prop where
  left : ∀ i < first.length, refs[i]? = first[i]?
  right : ∀ i < second.length, refs[i + n]? = second[i]?
  covered : ∀ i < refs.length, i < first.length ∨ ∃ j < second.length, i = j + n

theorem merged_mergeRefs (first second : List String) :
    Merged first second (mergeRefs first second).1 (mergeRefs first second).2 := by
  rw [mergeRefs]
  split
  · next h =>
    subst h
    exact ⟨by simp, fun _ _ => rfl, fun i hi => .inr ⟨i, hi, rfl⟩⟩
  · split
    · next h =>
      refine ⟨fun _ _ => rfl, fun i hi => ?_, fun i hi => .inl hi⟩
      rcases h with rfl | rfl
      · cases hi
      · rfl
    · refine ⟨fun i hi => List.getElem?_append_left hi, fun i hi => ?_, fun i hi => ?_⟩
      · rw [List.getElem?_append_right (Nat.le_add_left _ _), Nat.add_sub_cancel]
      · rw [List.length_append] at hi
        by_cases hlt : i < first.length
        · exact .inl hlt
        · exact .inr ⟨i - first.length, by omega, by omega⟩

variable {first second refs : List String} {n : Nat}

theorem Merged.length_le (h : Merged first second refs n) : first.length ≤ refs.length := by
  refine Nat.not_lt.1 fun hlt => ?_
  have := h.left refs.length hlt
  rw [List.getElem?_eq_none (Nat.le_refl _), List.getElem?_eq_getElem hlt] at this
  cases this

theorem Merged.add_lt (h : Merged first second refs n) {i : Nat} (hi : i < second.length) :
    i + n < refs.length := by
  have := h.right i hi
  rw [List.getElem?_eq_getElem hi] at this
  exact (List.getElem?_eq_some_iff.1 this).1

/-! ## Joining -/

/-- The open calls of what is joined are those of the two operands, and nothing is done to them. -/
structure Joins (node : Expr α → Expr α → Expr α) : Prop where
  mem : ∀ a b i, i ∈ (node a b).openCalls ↔ i ∈ a.openCalls ∨ i ∈ b.openCalls
  subst : ∀ f a b, (node a b).substCalls f = node (a.substCalls f) (b.substCalls f)

theorem joins_choice : Joins (Expr.choice (α := α)) :=
  ⟨fun _ _ _ => List.mem_append, fun _ _ _ => rfl⟩

theorem joins_seq : Joins (Expr.seq (α := α)) :=
  ⟨fun _ _ _ => List.mem_append, fun _ _ _ => rfl⟩

theorem joins_diff : Joins fun first second : Expr α => .seq (.not second) first :=
  ⟨fun _ _ _ => List.mem_append.trans or_comm, fun _ _ _ => rfl⟩

variable {node : Expr α → Expr α → Expr α}

theorem Joins.numbered (h : Joins node) (hp : p.Numbered) (hq : q.Numbered) :
    (join node p q).Numbered := by
  have hm := merged_mergeRefs p.refs q.refs
  intro i
  rw [join, h.mem, openCalls_shift, List.mem_map, hp]
  constructor
  · rintro (hi | ⟨j, hj, rfl⟩)
    · exact Nat.lt_of_lt_of_le hi hm.length_le
    · exact hm.add_lt ((hq j).1 hj)
  · intro hi
    rcases hm.covered i hi with hi | ⟨j, hj, rfl⟩
    · exact .inl hi
    · exact .inr ⟨j, (hq j).2 hj, rfl⟩

/-- What is put in the place of a name in what is joined is put there in both operands. -/
theorem Joins.root_substCalls (h : Joins node) (hp : p.Numbered) (hq : q.Numbered)
    (f : String → Expr α) :
    (join node p q).root.substCalls (fun i => f ((join node p q).nameAt i))
      = node (p.root.substCalls fun i => f (p.nameAt i))
          (q.root.substCalls fun i => f (q.nameAt i)) := by
  have hm := merged_mergeRefs p.refs q.refs
  have hname : (join node p q).nameAt = nameOf (mergeRefs p.refs q.refs).1 := rfl
  have hfirst : p.root.substCalls (fun i => f (nameOf (mergeRefs p.refs q.refs).1 i))
      = p.root.substCalls fun i => f (p.nameAt i) := by
    refine substCalls_congr fun i hi => ?_
    rw [nameAt, nameOf, nameOf, hm.left i ((hp i).1 hi)]
  have hsecond : (q.root.shift (mergeRefs p.refs q.refs).2).substCalls
        (fun i => f (nameOf (mergeRefs p.refs q.refs).1 i))
      = q.root.substCalls fun i => f (q.nameAt i) := by
    rw [shift_eq_substCalls, substCalls_substCalls]
    refine substCalls_congr fun i hi => ?_
    rw [substCalls, nameAt, nameOf, nameOf, hm.right i ((hq i).1 hi)]
  rw [hname, join, h.subst, hfirst, hsecond]

/-- **Joining keeps the names of both operands.** -/
theorem Joins.named (h : Joins node) (hp : p.Numbered) (hq : q.Numbered) (number : String → Nat) :
    (join node p q).named number = join node (p.named number) (q.named number) := by
  have hshift : (q.named number).root.shift 0 = (q.named number).root := by
    rw [shift_eq_substCalls]
    exact substCalls_openCall _
  have hroot := h.root_substCalls hp hq fun name => .openCall (number name)
  simp only [Pattern.named] at hroot hshift ⊢
  rw [hroot, join]
  simp only [mergeRefs, if_true, hshift]

/-! ## The operations -/

theorem refersToNone_ofSet (s : CharSet) : (ofSet s : Pattern α).RefersToNone := by
  refine ⟨?_, rfl⟩
  rw [ofSet, Expr.ofSet]
  split <;> rfl

variable (number : String → Nat)

theorem root_named_eq_fail_iff : (p.named number).root = .fail ↔ p.root = .fail :=
  substCalls_eq_fail_iff fun _ => by simp

theorem root_named_eq_empty_iff : (p.named number).root = .empty ↔ p.root = .empty :=
  substCalls_eq_empty_iff fun _ => by simp

theorem classOf?_named (op : CharSet → CharSet → CharSet) (p q : Pattern α) :
    classOf? op (p.named number) (q.named number) = classOf? op p q := by
  have hclass : ∀ r : Pattern α, (r.named number).root.class? = r.root.class? :=
    fun r => class?_substCalls (fun _ => rfl) _
  rw [classOf?, classOf?, hclass, hclass]

theorem named_choice (hp : p.Numbered) (hq : q.Numbered) :
    (choice p q).named number = choice (p.named number) (q.named number) := by
  have hnoFail : (p.named number).root.noFailIn [] = p.root.noFailIn [] :=
    noFail_substCalls (fun _ => rfl) _
  have hclass := classOf?_named number .union p q
  cases hc : classOf? .union p q with
  | some r =>
    obtain ⟨s, rfl⟩ := classOf?_eq_some hc
    rw [choice, choice, hclass, hc]
    exact (refersToNone_ofSet s).named_eq number
  | none =>
    rw [hc] at hclass
    by_cases hleft : p.root.noFailIn [] = true ∨ q.root = .fail
    · rw [choice_eq_left hc hleft, choice_eq_left hclass]
      rwa [hnoFail, root_named_eq_fail_iff]
    · rw [not_or, Bool.not_eq_true] at hleft
      by_cases hfirst : p.root = .fail
      · rw [choice_eq_right hc hfirst hleft.2, choice_eq_right hclass]
        · rwa [root_named_eq_fail_iff]
        · rw [Ne, root_named_eq_fail_iff]
          exact hleft.2
      · rw [choice_eq_join hc hleft.1 hfirst hleft.2, joins_choice.named hp hq,
          choice_eq_join hclass]
        · rw [hnoFail]
          exact hleft.1
        · rwa [Ne, root_named_eq_fail_iff]
        · rw [Ne, root_named_eq_fail_iff]
          exact hleft.2

theorem named_seq (hp : p.Numbered) (hq : q.Numbered) :
    (seq p q).named number = seq (p.named number) (q.named number) := by
  by_cases hleft : p.root = .fail ∨ q.root = .empty
  · rw [seq_eq_left hleft, seq_eq_left]
    rwa [root_named_eq_fail_iff, root_named_eq_empty_iff]
  · rw [not_or] at hleft
    by_cases hfirst : p.root = .empty
    · rw [seq_eq_right hfirst hleft.2, seq_eq_right]
      · rwa [root_named_eq_empty_iff]
      · rw [Ne, root_named_eq_empty_iff]
        exact hleft.2
    · rw [seq_eq_join hleft.1 hfirst hleft.2, joins_seq.named hp hq, seq_eq_join]
      · rw [Ne, root_named_eq_fail_iff]
        exact hleft.1
      · rwa [Ne, root_named_eq_empty_iff]
      · rw [Ne, root_named_eq_empty_iff]
        exact hleft.2

theorem named_diff (hp : p.Numbered) (hq : q.Numbered) :
    (diff p q).named number = diff (p.named number) (q.named number) := by
  rw [diff, diff, classOf?_named]
  split
  · next r hr =>
    obtain ⟨s, rfl⟩ := classOf?_eq_some hr
    exact (refersToNone_ofSet s).named_eq number
  · exact joins_diff.named hp hq number

theorem named_foldl {op : Pattern α → Pattern α → Pattern α}
    (hnumbered : ∀ {p q}, p.Numbered → q.Numbered → (op p q).Numbered)
    (hnamed : ∀ {p q}, p.Numbered → q.Numbered →
      (op p q).named number = op (p.named number) (q.named number))
    {ps : List (Pattern α)} (hps : ∀ p ∈ ps, p.Numbered) (hp : p.Numbered) :
    (ps.foldl op p).Numbered ∧
      (ps.foldl op p).named number = (ps.map (named number)).foldl op (p.named number) := by
  induction ps generalizing p with
  | nil => exact ⟨hp, rfl⟩
  | cons q ps ih =>
    rw [List.forall_mem_cons] at hps
    rw [List.map_cons, List.foldl_cons, List.foldl_cons, ← hnamed hp hps.1]
    exact ih hps.2 (hnumbered hp hps.1)

theorem numbered_choice (hp : p.Numbered) (hq : q.Numbered) : (choice p q).Numbered :=
  choice_cases (fun s => (refersToNone_ofSet s).numbered) hp hq (joins_choice.numbered hp hq)

theorem numbered_diff (hp : p.Numbered) (hq : q.Numbered) : (diff p q).Numbered :=
  diff_cases (fun s => (refersToNone_ofSet s).numbered) (joins_diff.numbered hp hq)

theorem numbered_seq (hp : p.Numbered) (hq : q.Numbered) : (seq p q).Numbered :=
  seq_cases hp hq (joins_seq.numbered hp hq)

/-! ## Copies -/

theorem mem_openCalls_seqTimes {body rest : Expr α} (n : Nat)
    (h : ∀ i, i ∈ rest.openCalls ↔ i ∈ body.openCalls) (i : Nat) :
    i ∈ (Expr.seqTimes body n rest).openCalls ↔ i ∈ body.openCalls := by
  induction n with
  | zero => exact h i
  | succ n ih => rw [Expr.seqTimes, openCalls, List.mem_append, ih, or_self]

theorem mem_openCalls_atMost (body : Expr α) (n i : Nat) :
    i ∈ (atMost body (n + 1)).openCalls ↔ i ∈ body.openCalls := by
  induction n with
  | zero => simp [atMost, openCalls]
  | succ n ih =>
    have hempty : (Expr.empty : Expr α).openCalls = [] := rfl
    rw [atMost, openCalls, openCalls, hempty, List.append_nil, List.mem_append, ih, or_self]

theorem substCalls_seqTimes (f : Nat → Expr α) (body : Expr α) (n : Nat) (rest : Expr α) :
    (Expr.seqTimes body n rest).substCalls f
      = Expr.seqTimes (body.substCalls f) n (rest.substCalls f) := by
  induction n with
  | zero => rfl
  | succ n ih => rw [Expr.seqTimes, substCalls, ih, Expr.seqTimes]

theorem substCalls_atMost (f : Nat → Expr α) (body : Expr α) (n : Nat) :
    (atMost body n).substCalls f = atMost (body.substCalls f) n := by
  induction n with
  | zero => rfl
  | succ n ih =>
    cases n with
    | zero => rfl
    | succ n => simp only [atMost, substCalls, ih]

/-- A pattern with the same list of names and the same set of open calls is numbered alike. -/
theorem Numbered.of_mem_iff (hp : p.Numbered) {root : Expr α}
    (h : ∀ i, i ∈ root.openCalls ↔ i ∈ p.root.openCalls) : Numbered { p with root := root } :=
  fun i => (h i).trans (hp i)

variable {n : Int}

theorem numbered_repeated (hp : p.Numbered) (hq : p.repeated n = .ok q) : q.Numbered := by
  rcases of_repeated hq with ⟨-, -, rfl⟩ | ⟨k, -, rfl⟩
  · exact hp.of_mem_iff (mem_openCalls_seqTimes _ fun _ => Iff.rfl)
  · exact hp.of_mem_iff (mem_openCalls_atMost _ _)

theorem named_repeated (hq : p.repeated n = .ok q) :
    (p.named number).repeated n = .ok (q.named number) := by
  have hnullable : (p.named number).root.nullableIn [] = p.root.nullableIn [] :=
    nullable_substCalls (fun _ => rfl) _
  rw [repeated] at hq ⊢
  rw [hnullable]
  split at hq
  · next hpos =>
    rw [if_pos hpos]
    split at hq
    · cases hq
    · next hnull =>
      cases hq
      rw [if_neg hnull]
      simp only [named, substCalls_seqTimes, substCalls]
      rfl
  · next hneg =>
    cases hq
    rw [if_neg hneg]
    simp only [named, substCalls_atMost]
    rfl

theorem numbered_times (hp : p.Numbered) (hq : p.times n false = .ok q) : q.Numbered := by
  rcases of_times hq with rfl | rfl
  · exact hp
  · exact hp.of_mem_iff (mem_openCalls_seqTimes _ fun _ => Iff.rfl)

theorem named_times (hq : p.times n false = .ok q) :
    (p.named number).times n false = .ok (q.named number) := by
  have hnullable : (p.named number).root.nullableIn [] = p.root.nullableIn [] :=
    nullable_substCalls (fun _ => rfl) _
  rw [times] at hq ⊢
  rw [hnullable]
  split at hq
  · cases hq
  · next hpos =>
    rw [if_neg hpos]
    split at hq
    · next hone =>
      cases hq
      rw [if_pos hone]
    · next hone =>
      rw [if_neg Bool.false_ne_true] at hq ⊢
      rw [if_neg hone]
      split at hq
      · cases hq
      · next hnull =>
        cases hq
        rw [if_neg hnull]
        simp only [named, substCalls_seqTimes]
        rfl

theorem named_behind (hq : p.behind = .ok q) :
    (p.named number).behind = .ok (q.named number) := by
  obtain ⟨width, hwidth, hactions, rfl⟩ := of_behind hq
  have hwidth' : (p.named number).root.fixedLengthIn [] = some (width + 1) := by
    rw [← hwidth, fixedLengthIn_nil, fixedLengthIn_nil]
    exact fixedLength_substCalls (fun _ => rfl) _
  have hactions' : (p.named number).root.hasActionsIn [] = false := by
    rw [← hactions, hasActionsIn, hasActionsIn, named, writesAction_substCalls fun _ => rfl,
      calls_substCalls fun _ => rfl]
  rw [behind, hwidth']
  dsimp only
  rw [hactions']
  rfl

/-! ## All patterns -/

/-- `BuiltAlike number p q`: the two patterns come from the same operations on the same parts.  But
a reference, which in `p` is a place in the list of names and is renumbered whenever lists are put
together, is known in `q` by the number of its name from the start; `q` has no list, and there is
nothing to renumber. -/
inductive BuiltAlike (number : String → Nat) : Pattern α → Pattern α → Prop
  | refersToNone {p : Pattern α} (h : p.Built) (hnone : p.RefersToNone) : BuiltAlike number p p
  | ref {name : String} {p : Pattern α} (hp : ref name = .ok p) :
      BuiltAlike number p ⟨.openCall (number name), []⟩
  | test {p p' : Pattern α} (h : BuiltAlike number p p') : BuiltAlike number p.test p'.test
  | testNot {p p' : Pattern α} (h : BuiltAlike number p p') :
      BuiltAlike number p.testNot p'.testNot
  | behind {p p' q q' : Pattern α} (h : BuiltAlike number p p') (hq : p.behind = .ok q)
      (hq' : p'.behind = .ok q') : BuiltAlike number q q'
  | choice {p p' q q' : Pattern α} (hp : BuiltAlike number p p') (hq : BuiltAlike number q q') :
      BuiltAlike number (choice p q) (choice p' q')
  | diff {p p' q q' : Pattern α} (hp : BuiltAlike number p p') (hq : BuiltAlike number q q') :
      BuiltAlike number (diff p q) (diff p' q')
  | seq {p p' q q' : Pattern α} (hp : BuiltAlike number p p') (hq : BuiltAlike number q q') :
      BuiltAlike number (seq p q) (seq p' q')
  | choiceAll {ps : List (Pattern α × Pattern α)} (h : ∀ x ∈ ps, BuiltAlike number x.1 x.2) :
      BuiltAlike number (choiceAll (ps.map (·.1))) (choiceAll (ps.map (·.2)))
  | seqAll {ps : List (Pattern α × Pattern α)} (h : ∀ x ∈ ps, BuiltAlike number x.1 x.2) :
      BuiltAlike number (seqAll (ps.map (·.1))) (seqAll (ps.map (·.2)))
  | repeated {p p' q q' : Pattern α} {n : Int} (h : BuiltAlike number p p')
      (hq : p.repeated n = .ok q) (hq' : p'.repeated n = .ok q') : BuiltAlike number q q'
  | times {p p' q q' : Pattern α} {n : Int} (h : BuiltAlike number p p')
      (hq : p.times n false = .ok q) (hq' : p'.times n false = .ok q') : BuiltAlike number q q'
  | action (a : α) {p p' : Pattern α} (h : BuiltAlike number p p') :
      BuiltAlike number (action a p) (action a p')

theorem refersToNone_literal (text : String) : (literal text : Pattern α).RefersToNone := by
  have h : ∀ cs, (spelled cs : Expr α).openCalls = [] := by
    intro cs
    induction cs with
    | nil => rfl
    | cons c cs ih =>
      cases cs with
      | nil => rfl
      | cons d cs => exact ih
  exact ⟨h _, rfl⟩

theorem refersToNone_anyChars (n : Int) : (anyChars n : Pattern α).RefersToNone := by
  have hrun : (Expr.seqTimes .any (n.natAbs - 1) .any : Expr α).openCalls = [] :=
    List.eq_nil_iff_forall_not_mem.2 fun i hi => by
      cases (mem_openCalls_seqTimes _ (fun _ => Iff.rfl) i).1 hi
  rw [anyChars]
  split
  · exact ⟨rfl, rfl⟩
  · split
    · exact ⟨hrun, rfl⟩
    · exact ⟨hrun, rfl⟩

theorem refersToNone_grammar {rules : List (String × Pattern α)} (hp : grammar rules = .ok p) :
    p.RefersToNone := by
  obtain ⟨e, he, hp⟩ := bind_eq_ok hp
  cases hp
  obtain ⟨bound, -, rfl⟩ := exists_made_of_ofRules he
  exact ⟨rfl, rfl⟩

theorem numbered_choiceAll {ps : List (Pattern α)} (hps : ∀ p ∈ ps, p.Numbered) :
    (choiceAll ps).Numbered ∧
      (choiceAll ps).named number = choiceAll (ps.map (named number)) := by
  cases ps with
  | nil => exact ⟨RefersToNone.numbered ⟨rfl, rfl⟩, rfl⟩
  | cons p ps =>
    rw [List.forall_mem_cons] at hps
    exact named_foldl number numbered_choice (named_choice number) hps.2 hps.1

theorem numbered_seqAll {ps : List (Pattern α)} (hps : ∀ p ∈ ps, p.Numbered) :
    (seqAll ps).Numbered ∧ (seqAll ps).named number = seqAll (ps.map (named number)) := by
  cases ps with
  | nil => exact ⟨RefersToNone.numbered ⟨rfl, rfl⟩, rfl⟩
  | cons p ps =>
    rw [List.forall_mem_cons] at hps
    exact named_foldl number numbered_seq (named_seq number) hps.2 hps.1

theorem BuiltAlike.choiceAll_map {ps : List (Pattern α)}
    (h : ∀ p ∈ ps, BuiltAlike number p (p.named number)) :
    BuiltAlike number (Pattern.choiceAll ps) (Pattern.choiceAll (ps.map (named number))) := by
  have hpairs : ∀ x ∈ ps.map fun p => (p, p.named number), BuiltAlike number x.1 x.2 :=
    List.forall_mem_map.2 h
  have := BuiltAlike.choiceAll hpairs
  rwa [List.map_map, List.map_map, Function.comp_def, List.map_id'] at this

theorem BuiltAlike.seqAll_map {ps : List (Pattern α)}
    (h : ∀ p ∈ ps, BuiltAlike number p (p.named number)) :
    BuiltAlike number (Pattern.seqAll ps) (Pattern.seqAll (ps.map (named number))) := by
  have hpairs : ∀ x ∈ ps.map fun p => (p, p.named number), BuiltAlike number x.1 x.2 :=
    List.forall_mem_map.2 h
  have := BuiltAlike.seqAll hpairs
  rwa [List.map_map, List.map_map, Function.comp_def, List.map_id'] at this

/-- A reference is numbered by the place of its name in a list of that name alone. -/
theorem numbered_ref {name : String} (hp : ref name = .ok p) :
    p.Numbered ∧ p.named number = ⟨.openCall (number name), []⟩ := by
  rw [of_ref hp]
  refine ⟨fun i => ?_, rfl⟩
  rw [openCalls, List.mem_singleton, List.length_singleton, Nat.lt_one_iff]

theorem Built.numbered_and_builtAlike (h : p.Built) :
    p.Numbered ∧ BuiltAlike number p (p.named number) := by
  have hnone : ∀ {p : Pattern α}, p.Built → p.RefersToNone →
      p.Numbered ∧ BuiltAlike number p (p.named number) := by
    intro p h hnone
    rw [hnone.named_eq]
    exact ⟨hnone.numbered, .refersToNone h hnone⟩
  induction h with
  | succeed => exact hnone .succeed ⟨rfl, rfl⟩
  | fail => exact hnone .fail ⟨rfl, rfl⟩
  | char c => exact hnone (.char c) ⟨rfl, rfl⟩
  | literal text => exact hnone (.literal text) (refersToNone_literal text)
  | anyChars n => exact hnone (.anyChars n) (refersToNone_anyChars n)
  | ofSet s => exact hnone (.ofSet s) (refersToNone_ofSet s)
  | oneOf chars => exact hnone (.oneOf chars) (refersToNone_ofSet _)
  | ranges hp =>
    refine hnone (.ranges hp) ?_
    obtain ⟨s, -, hp⟩ := bind_eq_ok hp
    cases hp
    exact refersToNone_ofSet s
  | test _ ih => exact ⟨ih.1, .test ih.2⟩
  | testNot _ ih => exact ⟨ih.1, .testNot ih.2⟩
  | behind _ hq ih =>
    refine ⟨?_, .behind ih.2 hq (named_behind number hq)⟩
    obtain ⟨width, -, -, rfl⟩ := of_behind hq
    exact ih.1
  | choice _ _ ihp ihq =>
    rw [named_choice number ihp.1 ihq.1]
    exact ⟨numbered_choice ihp.1 ihq.1, .choice ihp.2 ihq.2⟩
  | diff _ _ ihp ihq =>
    rw [named_diff number ihp.1 ihq.1]
    exact ⟨numbered_diff ihp.1 ihq.1, .diff ihp.2 ihq.2⟩
  | seq _ _ ihp ihq =>
    rw [named_seq number ihp.1 ihq.1]
    exact ⟨numbered_seq ihp.1 ihq.1, .seq ihp.2 ihq.2⟩
  | choiceAll _ ih =>
    obtain ⟨hnumbered, hnamed⟩ := numbered_choiceAll number fun p hp => (ih p hp).1
    rw [hnamed]
    exact ⟨hnumbered, .choiceAll_map number fun p hp => (ih p hp).2⟩
  | seqAll _ ih =>
    obtain ⟨hnumbered, hnamed⟩ := numbered_seqAll number fun p hp => (ih p hp).1
    rw [hnamed]
    exact ⟨hnumbered, .seqAll_map number fun p hp => (ih p hp).2⟩
  | repeated _ hq ih =>
    exact ⟨numbered_repeated ih.1 hq, .repeated ih.2 hq (named_repeated number hq)⟩
  | ref hp =>
    obtain ⟨hnumbered, hnamed⟩ := numbered_ref number hp
    rw [hnamed]
    exact ⟨hnumbered, .ref hp⟩
  | grammar h hp _ => exact hnone (.grammar h hp) (refersToNone_grammar hp)
  | times h hq ih =>
    rcases times_cases hq with hq' | hq'
    · exact ⟨numbered_times ih.1 hq', .times ih.2 hq' (named_times number hq')⟩
    · exact hnone (.times h hq) (refersToNone_grammar hq')
  | action a _ ih => exact ⟨ih.1, .action a ih.2⟩

theorem BuiltAlike.eq_named (h : BuiltAlike number p q) : p.Numbered ∧ q = p.named number := by
  have hall : ∀ {ps : List (Pattern α × Pattern α)},
      (∀ x ∈ ps, x.1.Numbered ∧ x.2 = x.1.named number) →
      (∀ p ∈ ps.map (·.1), p.Numbered) ∧ ps.map (·.2) = (ps.map (·.1)).map (named number) := by
    intro ps hps
    refine ⟨List.forall_mem_map.2 fun x hx => (hps x hx).1, ?_⟩
    rw [List.map_map]
    exact List.map_congr_left fun x hx => (hps x hx).2
  induction h with
  | refersToNone _ hnone => exact ⟨hnone.numbered, (hnone.named_eq number).symm⟩
  | ref hp =>
    obtain ⟨hnumbered, hnamed⟩ := numbered_ref number hp
    exact ⟨hnumbered, hnamed.symm⟩
  | test _ ih | testNot _ ih | action _ _ ih =>
    obtain ⟨hnumbered, rfl⟩ := ih
    exact ⟨hnumbered, rfl⟩
  | behind _ hq hq' ih =>
    obtain ⟨hnumbered, rfl⟩ := ih
    rw [named_behind number hq] at hq'
    obtain ⟨width, -, -, rfl⟩ := of_behind hq
    exact ⟨hnumbered, (Except.ok.inj hq').symm⟩
  | choice _ _ ihp ihq =>
    obtain ⟨⟨hp, rfl⟩, hq, rfl⟩ := And.intro ihp ihq
    exact ⟨numbered_choice hp hq, (named_choice number hp hq).symm⟩
  | diff _ _ ihp ihq =>
    obtain ⟨⟨hp, rfl⟩, hq, rfl⟩ := And.intro ihp ihq
    exact ⟨numbered_diff hp hq, (named_diff number hp hq).symm⟩
  | seq _ _ ihp ihq =>
    obtain ⟨⟨hp, rfl⟩, hq, rfl⟩ := And.intro ihp ihq
    exact ⟨numbered_seq hp hq, (named_seq number hp hq).symm⟩
  | choiceAll _ ih =>
    obtain ⟨hps, heq⟩ := hall ih
    rw [heq]
    obtain ⟨hnumbered, hnamed⟩ := numbered_choiceAll number hps
    exact ⟨hnumbered, hnamed.symm⟩
  | seqAll _ ih =>
    obtain ⟨hps, heq⟩ := hall ih
    rw [heq]
    obtain ⟨hnumbered, hnamed⟩ := numbered_seqAll number hps
    exact ⟨hnumbered, hnamed.symm⟩
  | repeated _ hq hq' ih =>
    obtain ⟨hnumbered, rfl⟩ := ih
    rw [named_repeated number hq] at hq'
    exact ⟨numbered_repeated hnumbered hq, (Except.ok.inj hq').symm⟩
  | times _ hq hq' ih =>
    obtain ⟨hnumbered, rfl⟩ := ih
    rw [named_times number hq] at hq'
    exact ⟨numbered_times hnumbered hq, (Except.ok.inj hq').symm⟩

/-! ## Binding -/

/-- The expression of the pattern when every open call is bound to the place of its name. -/
def boundTo (names : List String) (p : Pattern α) : Expr α :=
  (p.root.substCalls fun i => .ruleCall (names.idxOf (p.nameAt i))).rightNest

/-- Resolving binds all calls, or reports the first from the left with the name of no rule. -/
theorem resolve_eq (names : List String) (p : Pattern α) :
    p.root.resolve p.refs names =
      match p.called.find? (· ∉ names) with
      | some name => .error (.undefinedRule name)
      | none => .ok (p.boundTo names) := by
  have hname : p.nameAt = nameOf p.refs := rfl
  rw [Expr.resolve, bindCalls_eq, called, hname]
  cases (p.root.openCalls.map (nameOf p.refs)).find? (· ∉ names) <;> rfl

theorem resolveRules_eq (names : List String) (rules : List (String × Pattern α)) :
    resolveRules names (rules.map fun (name, p) => (name, p.refs, p.root)) =
      match (rules.flatMap fun r => r.2.called).find? (· ∉ names) with
      | some name => .error (.undefinedRule name)
      | none => .ok (rules.map fun r => ⟨r.1, r.2.boundTo names⟩) := by
  induction rules with
  | nil => rfl
  | cons r rest ih =>
    rw [List.map_cons, List.flatMap_cons, List.find?_append, resolveRules, resolve_eq, ih]
    cases r.2.called.find? (· ∉ names) with
    | some name => rfl
    | none => cases (rest.flatMap fun r => r.2.called).find? (· ∉ names) <;> rfl

/-- Rules keep their names when they are handed over. -/
theorem map_fst_eq (rules : List (String × Pattern α)) :
    (rules.map fun (name, p) => (name, p.refs, p.root)).map (·.1) = rules.map (·.1) := by
  rw [List.map_map]
  rfl

/-- Making a grammar of rules whose number and names are in order: the calls are bound first. -/
theorem grammar_eq {rules : List (String × Pattern α)} (hne : rules ≠ [])
    (hmax : rules.length ≤ maxRules) (hempty : "" ∉ rules.map (·.1))
    (hnodup : (rules.map (·.1)).Nodup) :
    grammar rules =
      match (rules.flatMap fun r => r.2.called).find? (· ∉ rules.map (·.1)) with
      | some name => .error (.undefinedRule name)
      | none =>
        let bound := rules.map fun r => ⟨r.1, r.2.boundTo (rules.map (·.1))⟩
        (checkLeftRecursion bound).bind fun _ => (checkEmptyLoops bound).bind fun _ =>
          .ok ⟨.grammar bound, []⟩ := by
  rw [grammar, ofRules_eq (map_fst_eq rules) (by simpa using hne) (by simpa using hmax) hempty hnodup,
    resolveRules_eq]
  cases (rules.flatMap fun r => r.2.called).find? (· ∉ rules.map (·.1)) with
  | some name => rfl
  | none =>
    dsimp only
    generalize (rules.map fun r => ⟨r.1, r.2.boundTo (rules.map (·.1))⟩ : List (Rule α)) = bound
    change ((checkLeftRecursion bound).bind _).bind _ = _
    cases checkLeftRecursion bound with
    | error _ => rfl
    | ok _ => cases checkEmptyLoops bound <;> rfl

/-! ## The main result -/

/-- What building a pattern makes sure of about the references in it. -/
structure KeepsNames (p : Pattern α) : Prop where
  /-- The open calls are the places in the list of names. -/
  numbered : p.Numbered
  /-- No call in a grammar of the pattern is open. -/
  closed : p.root.inScope True 0
  /-- Had all references been known by numbers of their names from the start, the same operations
  would have led to the same expression, with the numbers of the names that its open calls have. -/
  builtAlike : ∀ number q, BuiltAlike number p q ↔ q = p.named number
  /-- Outside of a grammar the pattern cannot be compiled if it refers to rules. -/
  compiles : ∀ options,
    (∃ name, Program.compile options p = .error (.undefinedRule name)) ↔ p.refs ≠ []

/-- What making a grammar of rules does with the references in them. -/
structure BindsByName (rules : List (String × Pattern α)) : Prop where
  /-- The first reference, rule by rule and from left to right, with a name that no rule has is
  reported. -/
  undefined : ∀ name, grammar rules = .error (.undefinedRule name) ↔
    (rules.flatMap fun r => r.2.called).find? (· ∉ rules.map (·.1)) = some name
  /-- Without such a reference all calls are bound to the places of their names, and there are only
  the checks of the rules left to fail. -/
  bound : (∀ r ∈ rules, ∀ name ∈ r.2.called, name ∈ rules.map (·.1)) →
    let bound := rules.map fun r => ⟨r.1, r.2.boundTo (rules.map (·.1))⟩
    grammar rules = (checkLeftRecursion bound).bind fun _ => (checkEmptyLoops bound).bind fun _ =>
      .ok ⟨.grammar bound, []⟩
  /-- The place of a name is that of the one rule with this name. -/
  place : ∀ name ∈ rules.map (·.1), ∀ i r, rules[i]? = some r →
    (r.1 = name ↔ i = (rules.map (·.1)).idxOf name)

theorem Numbered.called_eq_nil_iff (h : p.Numbered) : p.called = [] ↔ p.refs = [] := by
  rw [called, List.map_eq_nil_iff, List.eq_nil_iff_forall_not_mem, ← List.length_eq_zero_iff]
  constructor
  · intro hnone
    exact Nat.eq_zero_of_not_pos fun hpos => hnone 0 ((h 0).2 hpos)
  · intro hnone i hi
    have := (h i).1 hi
    omega

/-- Outside of a grammar, no name is that of a rule. -/
theorem compile_undefinedRule_iff (options : CompileOptions) :
    (∃ name, Program.compile options p = .error (.undefinedRule name)) ↔ p.called ≠ [] := by
  have hfind : p.called.find? (· ∉ ([] : List String)) = p.called.head? := by
    cases p.called <;> simp
  rw [Program.compile, resolve_eq, hfind]
  cases p.called with
  | nil =>
    refine iff_of_false ?_ (not_not_intro rfl)
    rintro ⟨name, h⟩
    dsimp only [List.head?_nil] at h
    rcases bind_eq_error h with h | ⟨root, -, h⟩
    · cases h
    · split at h <;> cases h
  | cons name rest => exact iff_of_true ⟨name, rfl⟩ (List.cons_ne_nil _ _)

theorem Built.keepsNames (h : p.Built) : KeepsNames p where
  numbered := (h.numbered_and_builtAlike fun _ => 0).1
  closed := h.inScope
  builtAlike number q := by
    constructor
    · exact fun hq => (hq.eq_named number).2
    · rintro rfl
      exact (h.numbered_and_builtAlike number).2
  compiles options := by
    rw [compile_undefinedRule_iff, Ne, (h.numbered_and_builtAlike fun _ => 0).1.called_eq_nil_iff]

theorem bindsByName {rules : List (String × Pattern α)} (hne : rules ≠ [])
    (hmax : rules.length ≤ maxRules) (hempty : "" ∉ rules.map (·.1))
    (hnodup : (rules.map (·.1)).Nodup) : BindsByName rules where
  undefined name := by
    rw [grammar_eq hne hmax hempty hnodup]
    cases (rules.flatMap fun r => r.2.called).find? (· ∉ rules.map (·.1)) with
    | some first => simp
    | none =>
      refine iff_of_false (fun h => ?_) nofun
      rcases bind_eq_error h with h | ⟨-, -, h⟩
      · obtain ⟨i, r, -, herr, -⟩ := blames_of_checkLeftRecursion h
        cases herr
      · rcases bind_eq_error h with h | ⟨-, -, h⟩
        · rw [checkEmptyLoops] at h
          split at h <;> cases h
        · cases h
  bound hall := by
    have hnone : (rules.flatMap fun r => r.2.called).find? (· ∉ rules.map (·.1)) = none := by
      simpa using hall
    rw [grammar_eq hne hmax hempty hnodup, hnone]
  place name hname i r hr := by
    have hi : (rules.map (·.1))[i]? = some r.1 := by rw [List.getElem?_map, hr]; rfl
    obtain ⟨hlt, hi⟩ := List.getElem?_eq_some_iff.1 hi
    constructor
    · rintro rfl
      rw [← hi, hnodup.idxOf_getElem]
    · rintro rfl
      rw [← hi, List.getElem_idxOf]

/-- **References keep their names** through all operations on patterns, and the rules of a grammar
are bound by them. -/
theorem keepsNames_and_bindsByName :
    (∀ p : Pattern α, p.Built → KeepsNames p) ∧
      ∀ rules : List (String × Pattern α), rules ≠ [] → rules.length ≤ maxRules →
        "" ∉ rules.map (·.1) → (rules.map (·.1)).Nodup → BindsByName rules :=
  ⟨fun _ h => h.keepsNames, fun _ hne hmax hempty hnodup => bindsByName hne hmax hempty hnodup⟩

/-- Two references, each used twice, so that there are four places for two names. -/
theorem keepsNames_and_bindsByName_twice :
    let first : Pattern Unit := ⟨.openCall 0, ["a"]⟩
    let second : Pattern Unit := ⟨.openCall 0, ["b"]⟩
    let p := choice (seq first second) (seq second first)
    let rules := [("s", p), ("b", char 'x'), ("a", char 'y')]
    p.called = ["a", "b", "b", "a"] ∧ KeepsNames p ∧ BindsByName rules ∧
      grammar rules = .ok ⟨.grammar [
        ⟨"s", .choice (.seq (.ruleCall 2) (.ruleCall 1)) (.seq (.ruleCall 1) (.ruleCall 2))⟩,
        ⟨"b", .char 'x'⟩, ⟨"a", .char 'y'⟩], []⟩ := by
  intro first second p rules
  have hfirst : first.Built := .ref (show ref "a" = .ok first from rfl)
  have hsecond : second.Built := .ref (show ref "b" = .ok second from rfl)
  have hp : p.Built := .choice (.seq hfirst hsecond) (.seq hsecond hfirst)
  exact ⟨rfl, keepsNames_and_bindsByName.1 p hp,
    keepsNames_and_bindsByName.2 rules (by simp [rules]) (by decide) (by decide) (by decide), rfl⟩

end Pattern
end PegMachine
