import PegMachine.Proofs.CharClass
import PegMachine.Proofs.Expr.Composition
import PegMachine.Proofs.References

/-!
# Operations on patterns mean what they say

A choice of two patterns is often no choice in the result: two classes become one, and an operand
that can have no effect is left out, together with its actions and its references.  Whatever the
result looks like, it means what a choice of the two means, and so it is with the other operations.

The names that a pattern refers to may mean anything; whether an operand can be left out must not
depend on it, for it is decided before the names are bound.

* `Pattern.meaning` — the meaning of a pattern, from a meaning for each name.
* `meaning_join` — putting two lists of names together gives every call the meaning it had.
* `meaning_choice`, `meaning_diff`, `meaning_seq` — the operations that simplify.
* `meaning_repeated`, `meaning_atMost`, `meaning_times` — copies.
* `Pattern.unfolds` — all of it together.
-/

set_option autoImplicit false

namespace PegMachine

open PegMachine.Expr

variable {α : Type}

/-! ## Classes and characters -/

/-- Whether the character at the position is in the set. -/
def CharSet.takes (s : CharSet) (subject : Array Char) (pos : Nat) : Bool :=
  subject[pos]?.any fun c => s.contains c.toNat

namespace Meaning

/-- Comes out as the function says, and asks nothing. -/
def Sure (f : Nat → Result α) : Meaning α := fun pos t r => t = [] ∧ r = f pos

theorem Sure.intro {f : Nat → Result α} {pos : Nat} {r : Result α} (h : f pos = r) :
    Sure f pos [] r :=
  ⟨rfl, h.symm⟩

theorem seq_sure (f g : Nat → Result α) :
    Seq (Sure f) (Sure g) = Sure fun pos =>
      match f pos with
      | .failed => .failed
      | .matched mid fs₁ =>
        match g mid with
        | .failed => .failed
        | .matched stop fs₂ => .matched stop (fs₁ ++ fs₂) := by
  refine eq_of_iff fun pos t r => ⟨fun h => ?_, ?_⟩
  · cases h with
    | ok h₁ h₂ =>
      obtain ⟨⟨rfl, hf⟩, rfl, hg⟩ := And.intro h₁ h₂
      exact ⟨rfl, by simp only [← hf, ← hg]⟩
    | fail_first h₁ => exact ⟨h₁.1, by simp only [← h₁.2]⟩
    | fail_second h₁ h₂ =>
      obtain ⟨⟨rfl, hf⟩, rfl, hg⟩ := And.intro h₁ h₂
      exact ⟨rfl, by simp only [← hf, ← hg]⟩
  · rintro ⟨rfl, rfl⟩
    dsimp only
    split
    · next hf => exact .fail_first (.intro hf)
    · next hf =>
      split
      · next hg => exact Seq.fail_second (Sure.intro hf) (Sure.intro hg)
      · next hg => exact Seq.ok (Sure.intro hf) (Sure.intro hg)

theorem choice_sure (f g : Nat → Result α) :
    Choice (Sure f) (Sure g) = Sure fun pos =>
      match f pos with
      | .failed => g pos
      | .matched stop fs => .matched stop fs := by
  refine eq_of_iff fun pos t r => ⟨fun h => ?_, ?_⟩
  · cases h with
    | first h₁ => exact ⟨h₁.1, by simp only [← h₁.2]⟩
    | second h₁ h₂ =>
      obtain ⟨⟨rfl, hf⟩, rfl, hg⟩ := And.intro h₁ h₂
      exact ⟨rfl, by simp only [← hf, hg]⟩
  · rintro ⟨rfl, rfl⟩
    dsimp only
    split
    · next hf => exact Choice.second (Sure.intro hf) (Sure.intro rfl)
    · next hf => exact .first (.intro hf)

theorem testNot_sure (f : Nat → Result α) :
    TestNot (Sure f) = Sure fun pos =>
      match f pos with
      | .failed => .matched pos []
      | .matched _ _ => .failed := by
  refine eq_of_iff fun pos t r => ⟨fun h => ?_, ?_⟩
  · cases h with
    | ok h => exact ⟨h.1, by simp only [← h.2]⟩
    | fail h => exact ⟨h.1, by simp only [← h.2]⟩
  · rintro ⟨rfl, rfl⟩
    dsimp only
    split
    · next h => exact .ok (.intro h)
    · next h => exact .fail (.intro h)

theorem oneOf_eq_sure (subject : Array Char) (s : CharSet) :
    OneOf (α := α) subject s = Sure fun pos =>
      if s.takes subject pos then .matched (pos + 1) [] else .failed := by
  refine eq_of_iff fun pos t r => ⟨fun h => ?_, ?_⟩
  · cases h with
    | ok hc hin => exact ⟨rfl, by simp only [CharSet.takes, hc, Option.any_some, hin, if_true]⟩
    | fail hout =>
      refine ⟨rfl, ?_⟩
      cases hc : subject[pos]? with
      | none => simp [CharSet.takes, hc]
      | some c => simp [CharSet.takes, hc, hout c hc]
  · rintro ⟨rfl, rfl⟩
    dsimp only
    cases hc : subject[pos]? with
    | none =>
      rw [CharSet.takes, hc, Option.any_none, if_neg Bool.false_ne_true]
      exact .fail fun c h => by rw [hc] at h; cases h
    | some c =>
      rw [CharSet.takes, hc, Option.any_some]
      split
      · next hin => exact .ok hc hin
      · next hout =>
        refine .fail fun d hd => ?_
        rw [hc] at hd
        cases hd
        rwa [Bool.not_eq_true] at hout

theorem oneOf_congr {subject : Array Char} {s s' : CharSet}
    (h : ∀ c : Char, s.contains c.toNat = s'.contains c.toNat) :
    OneOf (α := α) subject s = OneOf subject s' := by
  have htakes : ∀ pos, s.takes subject pos = s'.takes subject pos := fun pos => by
    rw [CharSet.takes, CharSet.takes, funext h]
  simp only [oneOf_eq_sure, htakes]

/-- The union of two classes is a choice between them. -/
theorem oneOf_union (subject : Array Char) (s t : CharSet) :
    OneOf (α := α) subject (s.union t) = Choice (OneOf subject s) (OneOf subject t) := by
  have htakes : ∀ pos, (s.union t).takes subject pos
      = (s.takes subject pos || t.takes subject pos) := fun pos => by
    simp only [CharSet.takes, CharSet.contains_union]
    cases subject[pos]? <;> rfl
  simp only [oneOf_eq_sure, choice_sure, htakes]
  congr 1
  funext pos
  cases s.takes subject pos <;> rfl

/-- The difference of two classes is the first where the second does not match. -/
theorem oneOf_diff (subject : Array Char) (s t : CharSet) :
    OneOf (α := α) subject (s.diff t) = Seq (TestNot (OneOf subject t)) (OneOf subject s) := by
  have htakes : ∀ pos, (s.diff t).takes subject pos
      = (s.takes subject pos && !t.takes subject pos) := fun pos => by
    simp only [CharSet.takes, CharSet.contains_diff]
    cases subject[pos]? <;> rfl
  simp only [oneOf_eq_sure, testNot_sure, seq_sure, htakes]
  congr 1
  funext pos
  cases ht : t.takes subject pos <;> cases hs : s.takes subject pos <;> simp [hs]

/-- Consumes the given number of characters, if so many remain. -/
def Skip (subject : Array Char) (k : Nat) : Meaning α :=
  Sure fun pos => if k ≤ subject.size - pos then .matched (pos + k) [] else .failed

/-- Succeeds where fewer than the given number of characters remain, and consumes nothing. -/
def Short (subject : Array Char) (k : Nat) : Meaning α :=
  Sure fun pos => if k ≤ subject.size - pos then .failed else .matched pos []

theorem skip_zero (subject : Array Char) : Skip (α := α) subject 0 = Empty := by
  refine eq_of_iff fun pos t r => ⟨?_, fun h => ?_⟩
  · rintro ⟨rfl, rfl⟩
    exact .ok
  · cases h
    exact ⟨rfl, rfl⟩

theorem oneOf_full (subject : Array Char) : OneOf (α := α) subject .full = Skip subject 1 := by
  rw [oneOf_eq_sure, Skip]
  congr 1
  funext pos
  rw [CharSet.takes]
  by_cases hpos : pos < subject.size
  · rw [Array.getElem?_eq_getElem hpos, Option.any_some, CharSet.contains_full_char, if_pos rfl,
      if_pos (by omega)]
  · rw [Array.getElem?_eq_none (by omega), Option.any_none, if_neg Bool.false_ne_true,
      if_neg (by omega)]

theorem skip_seq (subject : Array Char) (k n : Nat) :
    Seq (Skip (α := α) subject k) (Skip subject n) = Skip subject (k + n) := by
  rw [Skip, Skip, seq_sure, Skip]
  congr 1
  funext pos
  by_cases hk : k ≤ subject.size - pos
  · rw [if_pos hk]
    dsimp only
    by_cases hn : n ≤ subject.size - (pos + k)
    · rw [if_pos hn, if_pos (by omega), Nat.add_assoc]
      rfl
    · rw [if_neg hn, if_neg (by omega)]
  · rw [if_neg hk, if_neg (by omega)]

theorem testNot_skip (subject : Array Char) (k : Nat) :
    TestNot (Skip (α := α) subject k) = Short subject k := by
  rw [Skip, testNot_sure, Short]
  congr 1
  funext pos
  by_cases hk : k ≤ subject.size - pos
  · rw [if_pos hk, if_pos hk]
  · rw [if_neg hk, if_neg hk]

/-! ## Copies -/

/-- So many copies, one after the other. -/
def Copies (m : Meaning α) : Nat → Meaning α
  | 0 => Empty
  | n + 1 => Seq m (Copies m n)

/-- As many copies as match one after the other, but at most so many. -/
inductive UpTo (m : Meaning α) : Nat → Meaning α
  | all {pos} : UpTo m 0 pos [] (.matched pos [])
  | done {n pos t} : m pos t .failed → UpTo m (n + 1) pos t (.matched pos [])
  | more {n pos mid stop t₁ t₂ fs₁ fs₂} : m pos t₁ (.matched mid fs₁) →
      UpTo m n mid t₂ (.matched stop fs₂) →
      UpTo m (n + 1) pos (t₁ ++ t₂) (.matched stop (fs₁ ++ fs₂))

variable {m : Meaning α}

theorem copies_succ (m : Meaning α) (n : Nat) : Copies m (n + 1) = Seq (Copies m n) m := by
  induction n with
  | zero => exact seq_empty.trans empty_seq.symm
  | succ n ih =>
    calc Seq m (Copies m (n + 1)) = Seq m (Seq (Copies m n) m) := by rw [ih]
      _ = Seq (Seq m (Copies m n)) m := seq_assoc.symm

/-- As many copies as match never fail, however many are asked for. -/
theorem UpTo.not_failed {n pos : Nat} {t : List (Firing α)} : ¬ UpTo m n pos t .failed := nofun

/-- A copy and then as many as match of one less, or nothing. -/
theorem upTo_succ (m : Meaning α) (n : Nat) :
    UpTo m (n + 1) = Choice (Seq m (UpTo m n)) Empty := by
  refine eq_of_iff fun pos t r => ⟨fun h => ?_, fun h => ?_⟩
  · cases h with
    | @done _ _ t h =>
      have hempty : Empty (α := α) pos [] (.matched pos []) := .ok
      simpa using Choice.second (.fail_first h) hempty
    | more h hrest => exact .first (.ok h hrest)
  · cases h with
    | first h =>
      cases h with
      | ok h hrest => exact .more h hrest
    | second h hempty =>
      cases hempty
      rw [List.append_nil]
      cases h with
      | fail_first h => exact .done h
      | fail_second _ hrest => exact absurd hrest UpTo.not_failed

theorem upTo_zero (m : Meaning α) : UpTo m 0 = Empty := by
  refine eq_of_iff fun pos t r => ⟨fun h => ?_, fun h => ?_⟩
  · cases h
    exact .ok
  · cases h
    exact .all

theorem copies_skip (subject : Array Char) (k : Nat) :
    Copies (Skip (α := α) subject 1) k = Skip subject k := by
  induction k with
  | zero => exact (skip_zero subject).symm
  | succ k ih => rw [copies_succ, ih, skip_seq]

end Meaning

theorem eval_seqTimes (S : Setting α) (rules : List (Rule α)) (body rest : Expr α) (n : Nat) :
    Eval S rules (.seqTimes body n rest)
      = Meaning.Seq (.Copies (Eval S rules body) n) (Eval S rules rest) := by
  induction n with
  | zero => rw [Expr.seqTimes, Meaning.Copies, Meaning.empty_seq]
  | succ n ih => rw [Expr.seqTimes, eval_seq, ih, Meaning.Copies, Meaning.seq_assoc]

theorem eval_atMost (S : Setting α) (rules : List (Rule α)) (body : Expr α) (n : Nat) :
    Eval S rules (Pattern.atMost body n) = Meaning.UpTo (Eval S rules body) n := by
  induction n with
  | zero => rw [Pattern.atMost, eval_empty, Meaning.upTo_zero]
  | succ n ih =>
    cases n with
    | zero =>
      rw [Pattern.atMost, eval_choice, eval_empty, Meaning.upTo_succ, Meaning.upTo_zero,
        Meaning.seq_empty]
    | succ n =>
      rw [Pattern.atMost, eval_choice, eval_seq, eval_empty, ih, ← Meaning.upTo_succ]

/-! ## Patterns -/

namespace Pattern

/-- The meaning of the pattern, when the rules that it refers to mean what `named` says. -/
def meaning (S : Setting α) (named : String → Meaning α) (p : Pattern α) : Meaning α :=
  Eval (S.opening fun i => named (p.nameAt i)) [] p.root

/-- The open calls of the pattern are the places in its list of names, and no other calls are open.
-/
structure WellNumbered (p : Pattern α) : Prop where
  numbered : p.Numbered
  closed : p.root.inScope True 0

variable {S : Setting α} {named : String → Meaning α} {p q : Pattern α}

theorem Built.wellNumbered (h : p.Built) : p.WellNumbered :=
  ⟨h.keepsNames.numbered, h.inScope⟩

/-- It does not matter where the names stand. -/
theorem meaning_eq_of_names (hp : p.root.inScope True 0) {opened : Nat → Meaning α}
    (h : ∀ i ∈ p.root.openCalls, opened i = named (p.nameAt i)) :
    Eval (S.opening opened) [] p.root = p.meaning S named :=
  eval_opening_congr hp h

/-- **Joining two patterns joins their meanings.** -/
theorem meaning_join {node : Expr α → Expr α → Expr α}
    (op : Meaning α → Meaning α → Meaning α)
    (hnode : ∀ (S : Setting α) a b, Eval S [] (node a b) = op (Eval S [] a) (Eval S [] b))
    (hp : p.WellNumbered) (hq : q.WellNumbered) :
    (join node p q).meaning S named = op (p.meaning S named) (q.meaning S named) := by
  have hm := merged_mergeRefs p.refs q.refs
  have hname : (join node p q).nameAt = nameOf (mergeRefs p.refs q.refs).1 := rfl
  rw [meaning, hname, join, hnode]
  congr 1
  · refine meaning_eq_of_names hp.closed fun i hi => ?_
    rw [nameAt, nameOf, nameOf, hm.left i ((hp.numbered i).1 hi)]
  · rw [shift_eq_substCalls]
    refine eval_substCalls hq.closed fun i hi => ?_
    rw [eval_openCall, Setting.opened_opening, nameAt, nameOf, nameOf,
      hm.right i ((hq.numbered i).1 hi)]

theorem meaning_ofSet (s : CharSet) :
    (ofSet s).meaning S named = Meaning.OneOf S.subject s := by
  have hset : ∀ e : Expr α, ∀ s', e.class? = some s' →
      (∀ c : Char, s'.contains c.toNat = s.contains c.toNat) →
      Eval (S.opening fun i => named ((ofSet s : Pattern α).nameAt i)) [] e
        = Meaning.OneOf S.subject s :=
    fun e s' he h => (eval_class _ _ he).trans (Meaning.oneOf_congr h)
  rw [meaning, ofSet, Expr.ofSet]
  split
  · next c hc =>
    refine hset _ _ rfl fun d => ?_
    rw [CharSet.contains_ofChar, CharSet.contains_of_extent hc]
  · next hall => exact hset _ _ rfl fun d => by rw [CharSet.eq_full_of_extent hall]
  · exact hset _ _ rfl fun d => rfl
  · exact hset _ _ rfl fun d => rfl

theorem meaning_test (p : Pattern α) : p.test.meaning S named = Meaning.Test (p.meaning S named) :=
  eval_and _ _ _

theorem meaning_testNot (p : Pattern α) :
    p.testNot.meaning S named = Meaning.TestNot (p.meaning S named) :=
  eval_not _ _ _

theorem meaning_action (a : α) (p : Pattern α) :
    (action a p).meaning S named = Meaning.Act S a (p.meaning S named) :=
  (eval_action _ _ _ _).trans (Meaning.act_opening _ _ _ _)

theorem meaning_behind (width : Nat) (p : Pattern α) :
    ({ p with root := .behind width p.root } : Pattern α).meaning S named
      = Meaning.Behind S.start width (p.meaning S named) :=
  eval_behind _ _ _ _

theorem meaning_of_class? {s : CharSet} (h : p.root.class? = some s) :
    p.meaning S named = Meaning.OneOf S.subject s :=
  eval_class _ _ h

theorem meaning_of_fail (h : p.root = .fail) : p.meaning S named = Meaning.Fail := by
  rw [meaning, h, eval_fail]

theorem meaning_of_empty (h : p.root = .empty) : p.meaning S named = Meaning.Empty := by
  rw [meaning, h, eval_empty]

/-- A pattern that is said not to fail does not, whatever the names mean. -/
theorem not_failed_of_noFail (h : p.root.noFailIn [] = true) (pos : Nat) (t : List (Firing α)) :
    ¬ p.meaning S named pos t .failed := by
  intro hfail
  have hnot := hfail.not_failed_of_noFail ([] : List (Rule α)).length
  rw [noFailIn, noFailCall, hnot] at h
  cases h

/-- What two classes become means what the operation on sets makes of them. -/
theorem meaning_of_classOf? (S : Setting α) (named : String → Meaning α)
    {op : CharSet → CharSet → CharSet} {r : Pattern α} (h : classOf? op p q = some r) :
    ∃ s t, p.meaning S named = Meaning.OneOf S.subject s ∧
      q.meaning S named = Meaning.OneOf S.subject t ∧
      r.meaning S named = Meaning.OneOf S.subject (op s t) := by
  rw [classOf?] at h
  split at h
  · next s t hs ht =>
    cases h
    exact ⟨s, t, meaning_of_class? hs, meaning_of_class? ht, meaning_ofSet _⟩
  · cases h

/-- **A choice means the first pattern, or the second where the first fails**, also when it becomes
one class or one of the patterns is left out. -/
theorem meaning_choice (hp : p.WellNumbered) (hq : q.WellNumbered) :
    (choice p q).meaning S named = Meaning.Choice (p.meaning S named) (q.meaning S named) := by
  cases hc : classOf? .union p q with
  | some r =>
    obtain ⟨s, t, hs, ht, hr⟩ := meaning_of_classOf? S named hc
    rw [choice, hc, hs, ht]
    exact hr.trans (Meaning.oneOf_union S.subject s t)
  | none =>
    by_cases hnoFail : p.root.noFailIn [] = true
    · rw [choice_eq_left hc (.inl hnoFail)]
      exact (Meaning.choice_eq_first (not_failed_of_noFail hnoFail)).symm
    · rw [Bool.not_eq_true] at hnoFail
      by_cases hsecond : q.root = .fail
      · rw [choice_eq_left hc (.inr hsecond), meaning_of_fail hsecond, Meaning.choice_fail]
      · by_cases hfirst : p.root = .fail
        · rw [choice_eq_right hc hfirst hsecond, meaning_of_fail hfirst, Meaning.fail_choice]
        · rw [choice_eq_join hc hnoFail hfirst hsecond]
          exact meaning_join Meaning.Choice (fun S a b => eval_choice S [] a b) hp hq

/-- **A difference means the first pattern where the second does not match**, also when it becomes
one class. -/
theorem meaning_diff (hp : p.WellNumbered) (hq : q.WellNumbered) :
    (diff p q).meaning S named
      = Meaning.Seq (Meaning.TestNot (q.meaning S named)) (p.meaning S named) := by
  cases hc : classOf? .diff p q with
  | some r =>
    obtain ⟨s, t, hs, ht, hr⟩ := meaning_of_classOf? S named hc
    rw [diff, hc, hs, ht]
    exact hr.trans (Meaning.oneOf_diff S.subject s t)
  | none =>
    rw [diff, hc]
    refine meaning_join (fun m m' => Meaning.Seq (Meaning.TestNot m') m) ?_ hp hq
    exact fun S a b => by rw [eval_seq, eval_not]

/-- **A sequence means the first pattern and then the second**, also when one of them is left out.
-/
theorem meaning_seq (hp : p.WellNumbered) (hq : q.WellNumbered) :
    (seq p q).meaning S named = Meaning.Seq (p.meaning S named) (q.meaning S named) := by
  by_cases hfail : p.root = .fail
  · rw [seq_eq_left (.inl hfail), meaning_of_fail hfail, Meaning.fail_seq]
  · by_cases hsecond : q.root = .empty
    · rw [seq_eq_left (.inr hsecond), meaning_of_empty hsecond, Meaning.seq_empty]
    · by_cases hfirst : p.root = .empty
      · rw [seq_eq_right hfirst hsecond, meaning_of_empty hfirst, Meaning.empty_seq]
      · rw [seq_eq_join hfail hfirst hsecond]
        exact meaning_join Meaning.Seq (fun S a b => eval_seq S [] a b) hp hq

/-- What combines two patterns from the left combines the meanings of a list from the right, where
it makes no difference how they are grouped. -/
theorem meaning_foldl {op : Pattern α → Pattern α → Pattern α}
    {onMeaning : Meaning α → Meaning α → Meaning α} {unit : Meaning α}
    (hbuilt : ∀ {p q : Pattern α}, p.Built → q.Built → (op p q).Built)
    (hop : ∀ {p q : Pattern α}, p.Built → q.Built →
      (op p q).meaning S named = onMeaning (p.meaning S named) (q.meaning S named))
    (hassoc : ∀ a b c, onMeaning (onMeaning a b) c = onMeaning a (onMeaning b c))
    (hunit : ∀ a, onMeaning a unit = a) {ps : List (Pattern α)} (hps : ∀ q ∈ ps, q.Built)
    (hp : p.Built) :
    (ps.foldl op p).meaning S named
      = onMeaning (p.meaning S named) ((ps.map (meaning S named)).foldr onMeaning unit) := by
  induction ps generalizing p with
  | nil => exact (hunit _).symm
  | cons q ps ih =>
    rw [List.forall_mem_cons] at hps
    rw [List.foldl_cons, ih hps.2 (hbuilt hp hps.1), hop hp hps.1, hassoc]
    rfl

theorem meaning_choiceAll {ps : List (Pattern α)} (h : ∀ p ∈ ps, p.Built) :
    (choiceAll ps).meaning S named
      = (ps.map (meaning S named)).foldr Meaning.Choice Meaning.Fail := by
  cases ps with
  | nil => exact meaning_of_fail rfl
  | cons p ps =>
    rw [List.forall_mem_cons] at h
    exact meaning_foldl .choice (fun hp hq => meaning_choice hp.wellNumbered hq.wellNumbered)
      (fun _ _ _ => Meaning.choice_assoc) (fun _ => Meaning.choice_fail) h.2 h.1

theorem meaning_seqAll {ps : List (Pattern α)} (h : ∀ p ∈ ps, p.Built) :
    (seqAll ps).meaning S named
      = (ps.map (meaning S named)).foldr Meaning.Seq Meaning.Empty := by
  cases ps with
  | nil => exact meaning_of_empty rfl
  | cons p ps =>
    rw [List.forall_mem_cons] at h
    exact meaning_foldl .seq (fun hp hq => meaning_seq hp.wellNumbered hq.wellNumbered)
      (fun _ _ _ => Meaning.seq_assoc) (fun _ => Meaning.seq_empty) h.2 h.1

/-- A repetition without a greatest number of rounds is so many copies and then as many as match. -/
theorem meaning_repeated {n : Nat} (hq : p.repeated n = .ok q) :
    q.meaning S named = Meaning.Seq (Meaning.Copies (p.meaning S named) n)
      (Meaning.Star (p.meaning S named)) := by
  rcases of_repeated hq with ⟨-, -, rfl⟩ | ⟨k, hk, -⟩
  · rw [meaning, Int.toNat_natCast, eval_seqTimes, eval_star]
    rfl
  · omega

/-- A repetition with a greatest number of rounds is as many copies as match. -/
theorem meaning_atMost {k : Nat} (hk : 0 < k) (hq : p.repeated (-k) = .ok q) :
    q.meaning S named = Meaning.UpTo (p.meaning S named) k := by
  rcases of_repeated hq with ⟨hn, -⟩ | ⟨j, hj, rfl⟩
  · omega
  · obtain rfl : k = j + 1 := by omega
    exact eval_atMost _ _ _ _

/-- A number of times is so many copies. -/
theorem meaning_times {n : Int} (hq : p.times n false = .ok q) :
    q.meaning S named = Meaning.Copies (p.meaning S named) n.toNat := by
  rw [times] at hq
  split at hq
  · cases hq
  · next hpos =>
    split at hq
    · next hone =>
      cases hq
      rw [hone]
      exact Meaning.seq_empty.symm
    · rw [if_neg Bool.false_ne_true] at hq
      split at hq
      · cases hq
      · cases hq
        obtain ⟨k, hk⟩ : ∃ k, n.toNat = k + 1 := ⟨n.toNat - 1, by omega⟩
        rw [hk, Meaning.copies_succ, meaning, Nat.add_sub_cancel, eval_seqTimes]
        rfl

theorem eval_seqTimes_any (S : Setting α) (k : Nat) :
    Eval S [] (Expr.seqTimes .any k .any) = Meaning.Skip S.subject (k + 1) := by
  rw [eval_seqTimes, eval_class S [] (s := .full) rfl, Meaning.oneOf_full, Meaning.copies_skip,
    Meaning.skip_seq]

theorem meaning_anyChars (k : Nat) :
    (anyChars k).meaning S named = Meaning.Skip S.subject k := by
  cases k with
  | zero => rw [Meaning.skip_zero]; exact meaning_of_empty rfl
  | succ k =>
    rw [anyChars, if_neg (by omega), if_pos (by omega), Int.natAbs_natCast, Nat.add_sub_cancel]
    exact eval_seqTimes_any _ k

theorem meaning_anyChars_neg {k : Nat} (hk : 0 < k) :
    (anyChars (-k)).meaning S named = Meaning.Short S.subject k := by
  obtain ⟨j, rfl⟩ : ∃ j, k = j + 1 := ⟨k - 1, by omega⟩
  rw [anyChars, if_neg (by omega), if_neg (by omega), Int.natAbs_neg, Int.natAbs_natCast,
    Nat.add_sub_cancel, ← Meaning.testNot_skip, meaning, eval_not, eval_seqTimes_any]
  rfl

/-! ## The main result -/

/-- The operations on patterns mean what they say, in the given setting and when names mean what
`named` says.  That two meanings are equal says that the matches come out in the same way at every
position: with success or failure, the same end and the same actions in them, and with the same
questions asked on the way. -/
structure Unfolds (S : Setting α) (named : String → Meaning α) : Prop where
  /-- The first pattern, or the second where the first fails. -/
  choice : ∀ p q : Pattern α, p.Built → q.Built → (choice p q).meaning S named
    = Meaning.Choice (p.meaning S named) (q.meaning S named)
  /-- The second pattern must not match, and then comes the first. -/
  diff : ∀ p q : Pattern α, p.Built → q.Built → (diff p q).meaning S named
    = Meaning.Seq (Meaning.TestNot (q.meaning S named)) (p.meaning S named)
  /-- The first pattern and then the second. -/
  seq : ∀ p q : Pattern α, p.Built → q.Built → (seq p q).meaning S named
    = Meaning.Seq (p.meaning S named) (q.meaning S named)
  /-- A choice between all, which fails when there are none. -/
  choiceAll : ∀ ps : List (Pattern α), (∀ p ∈ ps, p.Built) → (choiceAll ps).meaning S named
    = (ps.map (meaning S named)).foldr Meaning.Choice Meaning.Fail
  /-- One after the other, and the empty string when there are none. -/
  seqAll : ∀ ps : List (Pattern α), (∀ p ∈ ps, p.Built) → (seqAll ps).meaning S named
    = (ps.map (meaning S named)).foldr Meaning.Seq Meaning.Empty
  /-- So many copies, and then as many as match. -/
  repeated : ∀ (p q : Pattern α) (n : Nat), p.repeated n = .ok q → q.meaning S named
    = Meaning.Seq (Meaning.Copies (p.meaning S named) n) (Meaning.Star (p.meaning S named))
  /-- As many copies as match one after the other, but at most so many; which never fails. -/
  atMost : ∀ (p q : Pattern α) (n : Nat), 0 < n → p.repeated (-n) = .ok q →
    q.meaning S named = Meaning.UpTo (p.meaning S named) n ∧
      ∀ pos t, ¬ q.meaning S named pos t .failed
  /-- Exactly so many copies. -/
  times : ∀ (p q : Pattern α) (n : Int), p.times n false = .ok q →
    0 < n ∧ q.meaning S named = Meaning.Copies (p.meaning S named) n.toNat
  /-- So many characters, if they remain. -/
  anyChars : ∀ k : Nat, (anyChars k).meaning S named = Meaning.Skip S.subject k
  /-- The empty string, if fewer characters remain. -/
  anyChars_neg : ∀ k : Nat, 0 < k →
    (Pattern.anyChars (-k)).meaning S named = Meaning.Short S.subject k

theorem pos_of_times {n : Int} {asRule : Bool} (hq : p.times n asRule = .ok q) : 0 < n := by
  rw [Pattern.times] at hq
  split at hq
  · cases hq
  · next hpos => exact Int.not_le.1 hpos

/-- **Simplifying while putting patterns together keeps the meaning**, whatever the names mean that
they refer to. -/
theorem unfolds (S : Setting α) (named : String → Meaning α) : Unfolds S named where
  choice _ _ hp hq := meaning_choice hp.wellNumbered hq.wellNumbered
  diff _ _ hp hq := meaning_diff hp.wellNumbered hq.wellNumbered
  seq _ _ hp hq := meaning_seq hp.wellNumbered hq.wellNumbered
  choiceAll _ h := meaning_choiceAll h
  seqAll _ h := meaning_seqAll h
  repeated _ _ _ hq := meaning_repeated hq
  atMost _ _ _ hn hq := by
    rw [meaning_atMost hn hq]
    exact ⟨rfl, fun _ _ => Meaning.UpTo.not_failed⟩
  times _ _ _ hq := ⟨pos_of_times hq, meaning_times hq⟩
  anyChars k := meaning_anyChars k
  anyChars_neg _ hk := meaning_anyChars_neg hk

/-- An optional letter in front of an action and a reference, which are left out because what is
optional never fails; and three letters, of which two are one class. -/
theorem unfolds_leftOut :
    let S : Setting String := ⟨#['a', 'c'], 0, fun _ _ stop => some stop, fun _ _ _ _ => False⟩
    let named : String → Meaning String := fun _ => Meaning.Fail
    let called : Pattern String := .action "z" ⟨.openCall 0, ["r"]⟩
    ∃ p : Pattern String, (Pattern.char 'a').repeated (-1) = .ok p ∧ Pattern.choice p called = p ∧
      p.meaning S named = Meaning.Choice (p.meaning S named) (called.meaning S named) ∧
      p.meaning S named = Meaning.UpTo ((Pattern.char 'a').meaning S named) 1 ∧
      (Pattern.choiceAll [.char 'a', .char 'b', .seq (.char 'c') called]).meaning S named
        = Meaning.Choice ((Pattern.char 'a').meaning S named)
          (Meaning.Choice ((Pattern.char 'b').meaning S named)
            (Meaning.Choice ((Pattern.seq (.char 'c') called).meaning S named) Meaning.Fail)) := by
  intro S named called
  obtain ⟨p, hp⟩ : ∃ p, (Pattern.char (α := String) 'a').repeated (-1) = .ok p := ⟨_, rfl⟩
  have hchoice : Pattern.choice p called = p := by
    cases hp
    rfl
  have hcall : Pattern.ref "r" = .ok (⟨.openCall 0, ["r"]⟩ : Pattern String) := rfl
  have hcalled : called.Built := .action "z" (.ref hcall)
  have hbuilt : p.Built := .repeated (.char 'a') hp
  have hmeaning := (unfolds S named).choice p called hbuilt hcalled
  rw [hchoice] at hmeaning
  exact ⟨p, hp, hchoice, hmeaning,
    ((unfolds S named).atMost (.char 'a') p 1 Nat.one_pos hp).1,
    (unfolds S named).choiceAll _ (by simpa using ⟨.char 'a', .char 'b', .seq (.char 'c') hcalled⟩)⟩

end Pattern
end PegMachine
