import PegMachine.Proofs.Expr.Lengths
import PegMachine.Proofs.GrammarMeaning

/-!
# Patterns of which one can take the place of the other

Two patterns that mean the same can be told apart by the operations on patterns: a choice simplifies
if it finds a class, a lookbehind is as wide as what it is given is long, and either changes what
the result means if the two patterns are not the same there.  `Alike` is what it takes: the same
meaning, the same shape and the same fixed length, as far as there is one.  All operations keep it.

* `Alike` — one pattern can take the place of the other.
* `Alike.choice`, `Alike.behind`, `Alike.grammar` and so on — the operations.
-/

set_option autoImplicit false

namespace PegMachine

open PegMachine.Expr

variable {α : Type}

/-! ## What operations look at -/

/-- What the operations on patterns can tell about an expression. -/
inductive Shape where
  /-- It never matches. -/
  | fail
  /-- It is the empty string. -/
  | empty
  /-- It is a class. -/
  | oneOf (s : CharSet)
  /-- It is none of these. -/
  | other

namespace Expr

/-- The shape of an expression. -/
def shape : Expr α → Shape
  | fail => .fail
  | empty => .empty
  | char c => .oneOf (.ofChar c)
  | set s => .oneOf s
  | any => .oneOf .full
  | _ => .other

theorem class?_eq_some_iff_shape {e : Expr α} {s : CharSet} :
    e.class? = some s ↔ e.shape = .oneOf s := by
  cases e <;> simp [shape, class?]

theorem eq_fail_iff_shape {e : Expr α} : e = .fail ↔ e.shape = .fail := by
  cases e <;> simp [shape]

theorem eq_empty_iff_shape {e : Expr α} : e = .empty ↔ e.shape = .empty := by
  cases e <;> simp [shape]

variable {e e' : Expr α}

theorem class?_eq_of_shape (h : e.shape = e'.shape) : e.class? = e'.class? := by
  refine Option.ext fun s => ?_
  rw [class?_eq_some_iff_shape, h, class?_eq_some_iff_shape]

theorem eq_fail_iff_of_shape (h : e.shape = e'.shape) : e = .fail ↔ e' = .fail := by
  rw [eq_fail_iff_shape, h, ← eq_fail_iff_shape]

theorem eq_empty_iff_of_shape (h : e.shape = e'.shape) : e = .empty ↔ e' = .empty := by
  rw [eq_empty_iff_shape, h, ← eq_empty_iff_shape]

/-- What does not fail, and is more than the empty string, has no shape of its own. -/
theorem shape_eq_other_of_noFail {call : Nat → Bool} (h : e.noFail call = true)
    (hempty : e ≠ empty) : e.shape = .other := by
  cases e <;> simp_all [shape, noFail]

end Expr

namespace Pattern

/-- The expression of the pattern with a call in the place of each reference. -/
def ruled (number : String → Nat) (p : Pattern α) : Expr α :=
  p.root.substCalls fun i => .ruleCall (number (p.nameAt i))

variable {p p' q q' : Pattern α}

/-- A pattern that refers to nothing is the same with calls in the place of its references. -/
theorem ruled_eq_root (h : p.root.openCalls = []) (number : String → Nat) :
    p.ruled number = p.root :=
  substCalls_eq_self h _

theorem ruled_root (p : Pattern α) {root : Expr α} (number : String → Nat) :
    ({ p with root := root } : Pattern α).ruled number
      = root.substCalls fun i => .ruleCall (number (p.nameAt i)) := rfl

/-! ## Shapes -/

theorem classOf?_congr (op : CharSet → CharSet → CharSet) (hp : p.root.shape = p'.root.shape)
    (hq : q.root.shape = q'.root.shape) : classOf? op p q = classOf? op p' q' := by
  rw [classOf?, classOf?, class?_eq_of_shape hp, class?_eq_of_shape hq]

theorem shape_choice (hp : p.root.shape = p'.root.shape) (hq : q.root.shape = q'.root.shape) :
    (choice p q).root.shape = (choice p' q').root.shape := by
  have hclass := classOf?_congr .union hp hq
  -- whether or not the first pattern is all of the choice
  have hother : ∀ {p q : Pattern α}, classOf? .union p q = none → p.root ≠ .fail →
      q.root ≠ .fail → p.root ≠ .empty → (choice p q).root.shape = .other := by
    intro p q hc hfail hfail' hempty
    cases hnoFail : p.root.noFailIn [] with
    | true => rw [choice_eq_left hc (.inl hnoFail), shape_eq_other_of_noFail hnoFail hempty]
    | false =>
      rw [choice_eq_join hc hnoFail hfail hfail']
      rfl
  have hnoFail : ∀ {p : Pattern α}, p.root = .empty → p.root.noFailIn [] = true := fun h => by
    rw [h]
    rfl
  cases hc : classOf? .union p q with
  | some r => rw [choice, choice, ← hclass, hc]
  | none =>
    have hc' := hclass ▸ hc
    by_cases hsecond : q.root = .fail
    · have hsecond' := (eq_fail_iff_of_shape hq).1 hsecond
      rw [choice_eq_left hc (.inr hsecond), choice_eq_left hc' (.inr hsecond'), hp]
    · have hsecond' := (not_congr (eq_fail_iff_of_shape hq)).1 hsecond
      by_cases hfail : p.root = .fail
      · have hfail' := (eq_fail_iff_of_shape hp).1 hfail
        rw [choice_eq_right hc hfail hsecond, choice_eq_right hc' hfail' hsecond', hq]
      · have hfail' := (not_congr (eq_fail_iff_of_shape hp)).1 hfail
        by_cases hempty : p.root = .empty
        · have hempty' := (eq_empty_iff_of_shape hp).1 hempty
          rw [choice_eq_left hc (.inl (hnoFail hempty)),
            choice_eq_left hc' (.inl (hnoFail hempty')), hp]
        · have hempty' := (not_congr (eq_empty_iff_of_shape hp)).1 hempty
          rw [hother hc hfail hsecond hempty, hother hc' hfail' hsecond' hempty']

theorem shape_seq (hp : p.root.shape = p'.root.shape) (hq : q.root.shape = q'.root.shape) :
    (seq p q).root.shape = (seq p' q').root.shape := by
  have hfail := eq_fail_iff_of_shape hp
  have hfirst := eq_empty_iff_of_shape hp
  have hsecond := eq_empty_iff_of_shape hq
  by_cases hleft : p.root = .fail ∨ q.root = .empty
  · rw [seq_eq_left hleft, seq_eq_left (hleft.imp hfail.1 hsecond.1), hp]
  · rw [not_or] at hleft
    have hleft' := And.intro ((not_congr hfail).1 hleft.1) ((not_congr hsecond).1 hleft.2)
    by_cases hempty : p.root = .empty
    · rw [seq_eq_right hempty hleft.2, seq_eq_right (hfirst.1 hempty) hleft'.2, hq]
    · rw [seq_eq_join hleft.1 hempty hleft.2,
        seq_eq_join hleft'.1 ((not_congr hfirst).1 hempty) hleft'.2]
      rfl

theorem shape_diff (hp : p.root.shape = p'.root.shape) (hq : q.root.shape = q'.root.shape) :
    (diff p q).root.shape = (diff p' q').root.shape := by
  rw [diff, diff, classOf?_congr .diff hp hq]
  cases classOf? .diff p' q' <;> rfl

/-! ## Lengths -/

/-- The fixed lengths of the two patterns agree if those of the rules that they refer to do. -/
def LengthsAgree (p p' : Pattern α) : Prop :=
  ∀ number : String → Nat, FixedAgree (p.ruled number) (p'.ruled number)

theorem LengthsAgree.refl (p : Pattern α) : LengthsAgree p p := fun _ => .refl _

variable (hp : p.Numbered) (hp' : p'.Numbered) (hq : q.Numbered) (hq' : q'.Numbered)
include hp hp' hq hq'

theorem LengthsAgree.choice (hpq : p.root.shape = p'.root.shape)
    (hqq : q.root.shape = q'.root.shape) (h : LengthsAgree p p') (h' : LengthsAgree q q') :
    LengthsAgree (Pattern.choice p q) (Pattern.choice p' q') := by
  have hclass := classOf?_congr .union hpq hqq
  -- the length of a choice is that of its first alternative, and both may be all there is
  have hfirst : ∀ {p q : Pattern α}, p.Numbered → q.Numbered → classOf? .union p q = none →
      ¬ (p.root = .fail ∧ q.root ≠ .fail) → ∀ number b call m,
      ((Pattern.choice p q).ruled number).fixedLength b call = some m →
        (p.ruled number).fixedLength b call = some m := by
    intro p q hp hq hc hne number b call m hm
    by_cases hleft : p.root.noFailIn [] = true ∨ q.root = .fail
    · rwa [choice_eq_left hc hleft] at hm
    · rw [not_or, Bool.not_eq_true] at hleft
      rw [choice_eq_join hc hleft.1 (fun hfail => hne ⟨hfail, hleft.2⟩) hleft.2, ruled,
        joins_choice.root_substCalls hp hq fun name => .ruleCall (number name)] at hm
      exact FixedAgree.of_choice hm
  cases hc : classOf? .union p q with
  | some r =>
    rw [Pattern.choice, Pattern.choice, ← hclass, hc]
    exact .refl r
  | none =>
    have hc' := hclass ▸ hc
    have hfail := eq_fail_iff_of_shape hpq
    have hfail' := eq_fail_iff_of_shape hqq
    by_cases hsecond : p.root = .fail ∧ q.root ≠ .fail
    · rw [choice_eq_right hc hsecond.1 hsecond.2,
        choice_eq_right hc' (hfail.1 hsecond.1) ((not_congr hfail').1 hsecond.2)]
      exact h'
    · have hsecond' : ¬ (p'.root = .fail ∧ q'.root ≠ .fail) := fun h =>
        hsecond ⟨hfail.2 h.1, (not_congr hfail').2 h.2⟩
      intro number b b' call call' hcalls m n hm hn
      exact h number b b' call call' hcalls m n (hfirst hp hq hc hsecond _ _ _ _ hm)
        (hfirst hp' hq' hc' hsecond' _ _ _ _ hn)

theorem LengthsAgree.seq (hpq : p.root.shape = p'.root.shape)
    (hqq : q.root.shape = q'.root.shape) (h : LengthsAgree p p') (h' : LengthsAgree q q') :
    LengthsAgree (Pattern.seq p q) (Pattern.seq p' q') := by
  have hfail := eq_fail_iff_of_shape hpq
  have hfirst := eq_empty_iff_of_shape hpq
  have hsecond := eq_empty_iff_of_shape hqq
  by_cases hleft : p.root = .fail ∨ q.root = .empty
  · rwa [seq_eq_left hleft, seq_eq_left (hleft.imp hfail.1 hsecond.1)]
  · rw [not_or] at hleft
    have hleft' := And.intro ((not_congr hfail).1 hleft.1) ((not_congr hsecond).1 hleft.2)
    by_cases hempty : p.root = .empty
    · rwa [seq_eq_right hempty hleft.2, seq_eq_right (hfirst.1 hempty) hleft'.2]
    · rw [seq_eq_join hleft.1 hempty hleft.2,
        seq_eq_join hleft'.1 ((not_congr hfirst).1 hempty) hleft'.2]
      intro number
      rw [ruled, ruled, joins_seq.root_substCalls hp hq fun name => .ruleCall (number name),
        joins_seq.root_substCalls hp' hq' fun name => .ruleCall (number name)]
      exact (h number).seq (h' number)

theorem LengthsAgree.diff (hpq : p.root.shape = p'.root.shape)
    (hqq : q.root.shape = q'.root.shape) (h : LengthsAgree p p') :
    LengthsAgree (Pattern.diff p q) (Pattern.diff p' q') := by
  rw [Pattern.diff, Pattern.diff, ← classOf?_congr .diff hpq hqq]
  split
  · exact .refl _
  · intro number
    rw [ruled, ruled, joins_diff.root_substCalls hp hq fun name => .ruleCall (number name),
      joins_diff.root_substCalls hp' hq' fun name => .ruleCall (number name)]
    exact .seq (fun _ _ _ _ _ => .refl _) (h number)

omit hp hp' hq hq'

theorem fixedAgree_atMost {body body' : Expr α} (h : FixedAgree body body') (n : Nat) :
    FixedAgree (atMost body n) (atMost body' n) := by
  induction n with
  | zero => exact .refl _
  | succ n ih =>
    cases n with
    | zero => exact h.choice
    | succ n => exact (h.seq ih).choice

/-! ## Taking the place of another -/

/-- One of the patterns can take the place of the other: they mean the same, whatever the names mean
that they refer to, and the operations on patterns do the same to them. -/
structure Alike (p p' : Pattern α) : Prop where
  built : p.Built
  built' : p'.Built
  meaning : ∀ S named, p.meaning S named = p'.meaning S named
  shape : p.root.shape = p'.root.shape
  length : LengthsAgree p p'

namespace Alike

theorem refl (h : p.Built) : Alike p p := ⟨h, h, fun _ _ => rfl, rfl, .refl p⟩

section Operations

variable (h : Alike p p') (h' : Alike q q')
include h

theorem test : Alike p.test p'.test where
  built := .test h.built
  built' := .test h.built'
  meaning S named := by rw [meaning_test, meaning_test, h.meaning]
  shape := rfl
  length _ _ _ _ _ _ := .refl _

theorem testNot : Alike p.testNot p'.testNot where
  built := .testNot h.built
  built' := .testNot h.built'
  meaning S named := by rw [meaning_testNot, meaning_testNot, h.meaning]
  shape := rfl
  length _ _ _ _ _ _ := .refl _

theorem action (a : α) : Alike (p.action a) (p'.action a) where
  built := .action a h.built
  built' := .action a h.built'
  meaning S named := by rw [meaning_action, meaning_action, h.meaning]
  shape := rfl
  length _ _ _ _ _ _ := .none_left _

/-- Both patterns have the same length for a lookbehind. -/
theorem behind {r r' : Pattern α} (hr : p.behind = .ok r) (hr' : p'.behind = .ok r') :
    Alike r r' := by
  have hbuilt := Built.behind h.built hr
  have hbuilt' := Built.behind h.built' hr'
  obtain ⟨width, hwidth, -, rfl⟩ := of_behind hr
  obtain ⟨width', hwidth', -, rfl⟩ := of_behind hr'
  have hown : ∀ p : Pattern α, p.root.fixedLengthIn []
      = (p.ruled fun _ => 0).fixedLength maxCallDepth fun _ => none := fun p => by
    rw [fixedLengthIn_nil, ownLength, ruled, fixedLength_substCalls fun _ => rfl]
  rw [hown] at hwidth hwidth'
  have hsame := h.length (fun _ => 0) _ _ _ _ (fun _ => .refl _) _ _ hwidth hwidth'
  rw [← hsame] at hbuilt' ⊢
  exact
    { built := hbuilt
      built' := hbuilt'
      meaning := fun S named => by rw [meaning_behind, meaning_behind, h.meaning]
      shape := rfl
      length := fun _ _ _ _ _ _ => .refl _ }

include h'

theorem choice : Alike (Pattern.choice p q) (Pattern.choice p' q') where
  built := .choice h.built h'.built
  built' := .choice h.built' h'.built'
  meaning S named := by
    rw [meaning_choice h.built.wellNumbered h'.built.wellNumbered,
      meaning_choice h.built'.wellNumbered h'.built'.wellNumbered, h.meaning, h'.meaning]
  shape := shape_choice h.shape h'.shape
  length := .choice h.built.wellNumbered.numbered h.built'.wellNumbered.numbered
    h'.built.wellNumbered.numbered h'.built'.wellNumbered.numbered h.shape h'.shape h.length
    h'.length

theorem diff : Alike (Pattern.diff p q) (Pattern.diff p' q') where
  built := .diff h.built h'.built
  built' := .diff h.built' h'.built'
  meaning S named := by
    rw [meaning_diff h.built.wellNumbered h'.built.wellNumbered,
      meaning_diff h.built'.wellNumbered h'.built'.wellNumbered, h.meaning, h'.meaning]
  shape := shape_diff h.shape h'.shape
  length := .diff h.built.wellNumbered.numbered h.built'.wellNumbered.numbered
    h'.built.wellNumbered.numbered h'.built'.wellNumbered.numbered h.shape h'.shape h.length

theorem seq : Alike (Pattern.seq p q) (Pattern.seq p' q') where
  built := .seq h.built h'.built
  built' := .seq h.built' h'.built'
  meaning S named := by
    rw [meaning_seq h.built.wellNumbered h'.built.wellNumbered,
      meaning_seq h.built'.wellNumbered h'.built'.wellNumbered, h.meaning, h'.meaning]
  shape := shape_seq h.shape h'.shape
  length := .seq h.built.wellNumbered.numbered h.built'.wellNumbered.numbered
    h'.built.wellNumbered.numbered h'.built'.wellNumbered.numbered h.shape h'.shape h.length
    h'.length

end Operations

/-- What two patterns can take the place of each other in, they can do in a list as well. -/
theorem foldl {op : Pattern α → Pattern α → Pattern α}
    (hop : ∀ {p p' q q' : Pattern α}, Alike p p' → Alike q q' → Alike (op p q) (op p' q'))
    {ps : List (Pattern α × Pattern α)} (hps : ∀ x ∈ ps, Alike x.1 x.2) (h : Alike p p') :
    Alike ((ps.map (·.1)).foldl op p) ((ps.map (·.2)).foldl op p') := by
  induction ps generalizing p p' with
  | nil => exact h
  | cons x ps ih =>
    rw [List.forall_mem_cons] at hps
    exact ih hps.2 (hop h hps.1)

theorem choiceAll {ps : List (Pattern α × Pattern α)} (hps : ∀ x ∈ ps, Alike x.1 x.2) :
    Alike (Pattern.choiceAll (ps.map (·.1))) (Pattern.choiceAll (ps.map (·.2))) := by
  cases ps with
  | nil => exact .refl .fail
  | cons x ps =>
    rw [List.forall_mem_cons] at hps
    exact foldl choice hps.2 hps.1

theorem seqAll {ps : List (Pattern α × Pattern α)} (hps : ∀ x ∈ ps, Alike x.1 x.2) :
    Alike (Pattern.seqAll (ps.map (·.1))) (Pattern.seqAll (ps.map (·.2))) := by
  cases ps with
  | nil => exact .refl .succeed
  | cons x ps =>
    rw [List.forall_mem_cons] at hps
    exact foldl seq hps.2 hps.1

/-! ### Copies -/

theorem repeated {n : Int} {r r' : Pattern α} (h : Alike p p') (hr : p.repeated n = .ok r)
    (hr' : p'.repeated n = .ok r') : Alike r r' := by
  have hbuilt := Built.repeated h.built hr
  have hbuilt' := Built.repeated h.built' hr'
  rcases of_repeated hr with ⟨hn, -, hroot⟩ | ⟨k, hk, hroot⟩
  · obtain ⟨k, rfl⟩ := Int.eq_ofNat_of_zero_le hn
    rcases of_repeated hr' with ⟨-, -, hroot'⟩ | ⟨j, hj, -⟩
    · refine ⟨hbuilt, hbuilt', fun S named => ?_, ?_, fun number => ?_⟩
      · rw [meaning_repeated hr, meaning_repeated hr', h.meaning]
      · rw [hroot, hroot', Int.toNat_natCast]
        cases k <;> rfl
      · rw [hroot, hroot', ruled_root, ruled_root, substCalls_seqTimes, substCalls_seqTimes]
        refine FixedAgree.seqTimes (h.length number) ?_ _
        rw [substCalls, substCalls]
        exact fun _ _ _ _ _ => .refl none
    · omega
  · subst hk
    rcases of_repeated hr' with ⟨hn, -⟩ | ⟨j, hj, hroot'⟩
    · omega
    · obtain rfl : j = k := by omega
      refine ⟨hbuilt, hbuilt', fun S named => ?_, ?_, fun number => ?_⟩
      · have hpos : 0 < j + 1 := Nat.succ_pos j
        rw [meaning_atMost hpos hr, meaning_atMost hpos hr', h.meaning]
      · rw [hroot, hroot']
        cases j <;> rfl
      · rw [hroot, hroot', ruled_root, ruled_root, substCalls_atMost, substCalls_atMost]
        exact fixedAgree_atMost (h.length number) _

/-! ### Grammars -/

/-- The rules of a grammar may be replaced by others of the same names. -/
theorem grammar {rules : List (String × Pattern α × Pattern α)} {g g' : Pattern α}
    (h : ∀ r ∈ rules, Alike r.2.1 r.2.2)
    (hg : Pattern.grammar (rules.map fun r => (r.1, r.2.1)) = .ok g)
    (hg' : Pattern.grammar (rules.map fun r => (r.1, r.2.2)) = .ok g') : Alike g g' := by
  have hnames : (rules.map fun r => (r.1, r.2.1)).map (·.1)
      = (rules.map fun r => (r.1, r.2.2)).map (·.1) := by
    rw [List.map_map, List.map_map]
    rfl
  have hbuilt : ∀ r ∈ rules.map fun r => (r.1, r.2.1), r.2.Built :=
    List.forall_mem_map.2 fun r hr => (h r hr).built
  have hbuilt' : ∀ r ∈ rules.map fun r => (r.1, r.2.2), r.2.Built :=
    List.forall_mem_map.2 fun r hr => (h r hr).built'
  have hscope := fun r hr => (hbuilt r hr).inScope
  have hscope' := fun r hr => (hbuilt' r hr).inScope
  have hpair : ∀ {i : Nat} {r r'}, (rules.map fun r => (r.1, r.2.1))[i]? = some r →
      (rules.map fun r => (r.1, r.2.2))[i]? = some r' → Alike r.2 r'.2 := by
    intro i r r' hr hr'
    rw [List.getElem?_map] at hr hr'
    obtain ⟨x, hx, rfl⟩ := Option.map_eq_some_iff.1 hr
    rw [hx] at hr'
    cases hr'
    exact h x (List.mem_of_getElem? hx)
  have hmeaning : ∀ S named, g.meaning S named = g'.meaning S named := fun S =>
    meaning_grammar_congr hg hg' hscope hscope' hnames fun i r r' hr hr' =>
      (hpair hr hr').meaning S
  obtain ⟨hroot, -, -⟩ := of_grammar hg hscope
  obtain ⟨hroot', -, -⟩ := of_grammar hg' hscope'
  have hnone := (refersToNone_grammar hg).1
  have hnone' := (refersToNone_grammar hg').1
  refine ⟨.grammar hbuilt hg, .grammar hbuilt' hg', hmeaning, ?_, fun number => ?_⟩
  · rw [hroot, hroot']
    rfl
  · rw [ruled_eq_root hnone, ruled_eq_root hnone', hroot, hroot']
    refine .grammar fun i r r' hr hr' => ?_
    rw [boundRules, List.getElem?_map] at hr hr'
    obtain ⟨x, hx, rfl⟩ := Option.map_eq_some_iff.1 hr
    obtain ⟨x', hx', rfl⟩ := Option.map_eq_some_iff.1 hr'
    rw [← hnames]
    exact ((hpair hx hx').length ((rules.map fun r => (r.1, r.2.1)).map (·.1)).idxOf).rightNest

theorem timesByRule {n : Nat} {r r' : Pattern α} (h : Alike p p') (hr : p.timesByRule n = .ok r)
    (hr' : p'.timesByRule n = .ok r') : Alike r r' := by
  have hcall : ref "p" = .ok (⟨.openCall 0, ["p"]⟩ : Pattern α) := rfl
  let calls : Pattern α := Pattern.seqAll (List.replicate n ⟨.openCall 0, ["p"]⟩)
  have hcalls : calls.Built := .seqAll fun p hp => by
    rw [List.eq_of_mem_replicate hp]
    exact .ref hcall
  have hrules : ∀ r ∈ [("c", calls, calls), ("p", p, p')], Alike r.2.1 r.2.2 := by
    simpa using ⟨.refl hcalls, h⟩
  exact grammar hrules hr hr'

theorem times {n : Int} {asRule : Bool} {r r' : Pattern α} (h : Alike p p')
    (hr : p.times n asRule = .ok r) (hr' : p'.times n asRule = .ok r') : Alike r r' := by
  have hbuilt := Built.times h.built hr
  have hbuilt' := Built.times h.built' hr'
  have hof := of_times_eq_ok hr
  have hof' := of_times_eq_ok hr'
  by_cases hone : n = 1
  · rw [if_pos hone] at hof hof'
    rwa [hof, hof']
  · rw [if_neg hone] at hof hof'
    cases asRule with
    | true => exact h.timesByRule hof hof'
    | false =>
      rw [if_neg Bool.false_ne_true] at hof hof'
      refine ⟨hbuilt, hbuilt', fun S named => ?_, ?_, fun number => ?_⟩
      · rw [meaning_times hr, meaning_times hr', h.meaning]
      · rw [hof, hof']
        cases n.toNat - 1 with
        | zero => exact h.shape
        | succ k => rfl
      · rw [hof, hof', ruled_root, ruled_root, substCalls_seqTimes, substCalls_seqTimes]
        exact (h.length number).seqTimes (h.length number) _

end Alike
end Pattern
end PegMachine
