import PegMachine.Proofs.Alike

/-!
# Copies and calls

What is to be matched a number of times is either copied so often, or becomes a rule of a grammar
made for it, which another rule calls so often.  The two rules have the names `p` and `c`, whatever
the pattern is, and it is among these names that the references in it are looked up.  So a reference
to a rule of one of these names, which is meant for the grammar around, ends here
(`captures_reference`); a reference to any other is refused.  All other patterns mean the same in
both forms, and nothing that is built from one of the forms can tell which it is.

* `CopiesToCalls` — what is built from copies, and what is built alike from calls.
* `alike_times` — the two forms of one pattern.
* `eval_iff_of_copiesToCalls` — they can be exchanged everywhere.
-/

set_option autoImplicit false

namespace PegMachine

open PegMachine.Expr

variable {α : Type}

namespace Pattern

/-! ## The rule that calls -/

/-- The call of what is to be matched. -/
def countedCall : Pattern α := ⟨.openCall 0, ["p"]⟩

/-- The pattern of the rule that calls so often. -/
def countingCalls (n : Nat) : Pattern α := seqAll (List.replicate n countedCall)

/-- The rules of the grammar that matches a pattern so often. -/
def countingRules (p : Pattern α) (n : Nat) : Named α := [("c", countingCalls n), ("p", p)]

section

variable {S : Setting α} {named : String → Meaning α}

theorem built_countedCall : (countedCall : Pattern α).Built :=
  .ref (show ref "p" = .ok _ from rfl)

theorem built_of_mem_replicate {n : Nat} {p : Pattern α} (hp : p ∈ List.replicate n countedCall) :
    p.Built := by
  rw [List.eq_of_mem_replicate hp]
  exact built_countedCall

theorem built_countingCalls (n : Nat) : (countingCalls n : Pattern α).Built :=
  .seqAll fun _ => built_of_mem_replicate

theorem meaning_countingCalls (n : Nat) :
    (countingCalls n).meaning S named = Meaning.Copies (named "p") n := by
  have hcall : countedCall.meaning S named = named "p" := eval_openCall _ _ 0
  rw [countingCalls, meaning_seqAll fun _ => built_of_mem_replicate, List.map_replicate, hcall]
  induction n with
  | zero => rfl
  | succ n ih =>
    rw [List.replicate_succ, List.foldr_cons, ih]
    rfl

/-- Another call comes at the end. -/
theorem countingCalls_add_two (n : Nat) :
    (countingCalls (n + 2) : Pattern α) = seq (countingCalls (n + 1)) countedCall := by
  rw [countingCalls, List.replicate_succ, List.replicate_succ', countingCalls, List.replicate_succ,
    seqAll, seqAll, List.foldl_append]
  rfl

theorem countingCalls_eq_join (n : Nat) :
    (countingCalls (n + 2) : Pattern α) = join .seq (countingCalls (n + 1)) countedCall := by
  have hjoin : ∀ p : Pattern α, p.root.shape = .other →
      seq p countedCall = join .seq p countedCall := by
    intro p hshape
    have hfail : p.root ≠ .fail := by
      rw [Ne, eq_fail_iff_shape, hshape]
      nofun
    have hempty : p.root ≠ .empty := by
      rw [Ne, eq_empty_iff_shape, hshape]
      nofun
    exact seq_eq_join hfail hempty nofun
  induction n with
  | zero => exact hjoin countedCall rfl
  | succ n ih =>
    rw [countingCalls_add_two]
    refine hjoin _ ?_
    rw [ih]
    rfl

/-- What calls so often is so many times as long as what is called. -/
theorem fixedLength_countingCalls (number : String → Nat) (b : Nat) (call : Nat → Option Nat)
    (n : Nat) :
    ((countingCalls (n + 1) : Pattern α).ruled number).fixedLength b call
      = (call (number "p")).map ((n + 1) * ·) := by
  have hlength : ((countedCall : Pattern α).ruled number).fixedLength b call
      = call (number "p") := rfl
  induction n with
  | zero =>
    have hone : (countingCalls 1 : Pattern α) = countedCall := rfl
    rw [hone, hlength]
    simp
  | succ n ih =>
    have hseq : (countingCalls (n + 2) : Pattern α).ruled number
        = .seq ((countingCalls (n + 1)).ruled number) (countedCall.ruled number) := by
      rw [countingCalls_eq_join]
      exact joins_seq.root_substCalls (built_countingCalls _).wellNumbered.numbered
        built_countedCall.wellNumbered.numbered fun name => .ruleCall (number name)
    rw [hseq, fixedLength_seq, ih, hlength]
    cases call (number "p") with
    | none => rfl
    | some m => simp [Nat.add_mul]

end

/-! ## The two forms -/

section

variable {p q q' : Pattern α} {n : Nat} (hp : p.Built)
include hp

theorem inScope_countingRules (n : Nat) : ∀ r ∈ countingRules p n, r.2.root.inScope True 0 := by
  simpa [countingRules] using ⟨(built_countingCalls n).inScope, hp.inScope⟩

theorem of_timesByRule (hq : p.timesByRule n = .ok q) :
    q = ⟨.grammar (boundRules (countingRules p n)), []⟩ ∧ Closed (countingRules p n) := by
  have hgrammar : grammar (countingRules p n) = .ok q := hq
  obtain ⟨hroot, hclosed, -⟩ := of_grammar hgrammar (inScope_countingRules hp n)
  exact ⟨hroot, hclosed⟩

/-- If the pattern does not refer to the two rules, it refers to none. -/
theorem openCalls_eq_nil_of_timesByRule (hc : "c" ∉ p.refs) (hname : "p" ∉ p.refs)
    (hq : p.timesByRule n = .ok q) : p.root.openCalls = [] := by
  refine List.eq_nil_iff_forall_not_mem.2 fun i hi => ?_
  have hmem : p.nameAt i ∈ p.refs := by
    have hlt := (hp.wellNumbered.numbered i).1 hi
    rw [nameAt, nameOf, List.getElem?_eq_getElem hlt]
    exact List.getElem_mem hlt
  have hrule : p.nameAt i ∈ ["c", "p"] :=
    (of_timesByRule hp hq).2.named ("p", p) (by simp [countingRules]) i hi
  rcases List.mem_cons.1 hrule with h | h
  · exact hc (h ▸ hmem)
  · exact hname (List.mem_singleton.1 h ▸ hmem)

/-- The grammar means so many copies of what the pattern means among the two rules, -/
theorem meaning_timesByRule {S : Setting α} {named : String → Meaning α}
    (hq : p.timesByRule n = .ok q) :
    q.meaning S named = Meaning.Copies (ownMeaning S (countingRules p n) "p") n := by
  have hgrammar : q.meaning S named
      = (countingCalls n).meaning S (ownMeaning S (countingRules p n)) :=
    meaning_grammar hq (inScope_countingRules hp n) named
  rw [hgrammar, meaning_countingCalls]

variable (hnone : p.root.openCalls = [])
include hnone

/-- which is what it means elsewhere, if it does not refer to them. -/
theorem ownMeaning_countingRules {S : Setting α} {named : String → Meaning α}
    (hq : p.timesByRule n = .ok q) :
    ownMeaning S (countingRules p n) "p" = p.meaning S named := by
  refine (eval_rule (of_timesByRule hp hq).2 (i := 1) (r := ("p", p)) rfl).trans ?_
  refine meaning_congr hp.inScope fun i hi => ?_
  rw [hnone] at hi
  cases hi

/-- The first rule is so many times as long as the second, which is as long as the pattern. -/
theorem lengthsAgree_timesByRule (hq : p.timesByRule (n + 1) = .ok q) :
    LengthsAgree { p with root := Expr.seqTimes p.root n p.root } q := by
  obtain ⟨rfl, -⟩ := of_timesByRule hp hq
  intro number b b' call call' _
  have hlength : (Expr.grammar (boundRules (countingRules p (n + 1)))).fixedLength b' call'
      = (unfoldLength (fixedLengthRules (boundRules (countingRules p (n + 1)))) b' 1).map
        ((n + 1) * ·) := by
    have hrule : (countingRules p (n + 1))[0]? = some ("c", countingCalls (n + 1)) := rfl
    rw [fixedLength_grammar (getElem?_boundRules hrule), boundTo,
      (chains_fixedLength _ _).rightNest]
    exact fixedLength_countingCalls ["c", "p"].idxOf _ _ n
  have hsecond : Agree (p.root.fixedLength b call)
      (unfoldLength (fixedLengthRules (boundRules (countingRules p (n + 1)))) b' 1) := by
    have hrule : (countingRules p (n + 1))[1]? = some ("p", p) := rfl
    cases b' with
    | zero => exact .none_right _
    | succ b' =>
      rw [unfoldLength_succ (fixedLengthRules_get (getElem?_boundRules hrule)), boundTo,
        substCalls_eq_self hnone, (chains_fixedLength _ _).rightNest,
        fixedLength_eq_of_inScope hp.inScope b' _ call]
      exact FixedAgree.refl p.root _ _ _ _ fun _ => .refl _
  have hcopies : (Expr.seqTimes p.root n p.root).openCalls = [] := by
    refine List.eq_nil_iff_forall_not_mem.2 fun i hi => ?_
    rw [mem_openCalls_seqTimes _ fun _ => Iff.rfl, hnone] at hi
    cases hi
  rw [ruled_eq_root hcopies, ruled_eq_root rfl, fixedLength_seqTimes, hlength]
  exact hsecond.map _

end

/-- **The two forms of a pattern that is matched a number of times** can take the place of each
other, if the pattern refers to no rule with the name of one of those that are made. -/
theorem alike_times {p q q' : Pattern α} {n : Int} (hp : p.Built) (hc : "c" ∉ p.refs)
    (hname : "p" ∉ p.refs) (hq : p.times n false = .ok q) (hq' : p.times n true = .ok q') :
    Alike q q' := by
  have hbuilt := Built.times hp hq
  have hbuilt' := Built.times hp hq'
  have hof := of_times_eq_ok hq
  have hof' := of_times_eq_ok hq'
  by_cases hone : n = 1
  · rw [if_pos hone] at hof hof'
    rw [hof, hof']
    exact .refl hp
  · rw [if_neg hone, if_pos rfl] at hof'
    rw [if_neg hone, if_neg Bool.false_ne_true] at hof
    have hpos := pos_of_times hq
    obtain ⟨k, hk⟩ : ∃ k, n.toNat = k + 2 := ⟨n.toNat - 2, by omega⟩
    have hnone := openCalls_eq_nil_of_timesByRule hp hc hname hof'
    refine ⟨hbuilt, hbuilt', fun S named => ?_, ?_, ?_⟩
    · rw [meaning_times hq, meaning_timesByRule hp hof', ownMeaning_countingRules hp hnone hof']
    · rw [hof, (of_timesByRule hp hof').1, hk]
      rfl
    · rw [hk] at hof hof'
      rw [hof]
      exact lengthsAgree_timesByRule hp hnone hof'

/-! ## Everywhere -/

/-- The second pattern is built like the first, but some patterns in it that are matched a number of
times are rules that are called, where they are copied in the first.  They do not refer to rules
with the names of the two that are made for them. -/
inductive CopiesToCalls : Pattern α → Pattern α → Prop
  | exchange {p q q' : Pattern α} {n : Int} (hp : p.Built) (hc : "c" ∉ p.refs)
      (hname : "p" ∉ p.refs) (hq : p.times n false = .ok q) (hq' : p.times n true = .ok q') :
      CopiesToCalls q q'
  | keep {p : Pattern α} (hp : p.Built) : CopiesToCalls p p
  | test {p p' : Pattern α} (h : CopiesToCalls p p') : CopiesToCalls p.test p'.test
  | testNot {p p' : Pattern α} (h : CopiesToCalls p p') : CopiesToCalls p.testNot p'.testNot
  | behind {p p' q q' : Pattern α} (h : CopiesToCalls p p') (hq : p.behind = .ok q)
      (hq' : p'.behind = .ok q') : CopiesToCalls q q'
  | choice {p p' q q' : Pattern α} (hp : CopiesToCalls p p') (hq : CopiesToCalls q q') :
      CopiesToCalls (choice p q) (choice p' q')
  | diff {p p' q q' : Pattern α} (hp : CopiesToCalls p p') (hq : CopiesToCalls q q') :
      CopiesToCalls (diff p q) (diff p' q')
  | seq {p p' q q' : Pattern α} (hp : CopiesToCalls p p') (hq : CopiesToCalls q q') :
      CopiesToCalls (seq p q) (seq p' q')
  | choiceAll {ps : List (Pattern α × Pattern α)} (h : ∀ x ∈ ps, CopiesToCalls x.1 x.2) :
      CopiesToCalls (choiceAll (ps.map (·.1))) (choiceAll (ps.map (·.2)))
  | seqAll {ps : List (Pattern α × Pattern α)} (h : ∀ x ∈ ps, CopiesToCalls x.1 x.2) :
      CopiesToCalls (seqAll (ps.map (·.1))) (seqAll (ps.map (·.2)))
  | repeated {p p' q q' : Pattern α} {n : Int} (h : CopiesToCalls p p')
      (hq : p.repeated n = .ok q) (hq' : p'.repeated n = .ok q') : CopiesToCalls q q'
  | grammar {rules : List (String × Pattern α × Pattern α)} {g g' : Pattern α}
      (h : ∀ r ∈ rules, CopiesToCalls r.2.1 r.2.2)
      (hg : grammar (rules.map fun r => (r.1, r.2.1)) = .ok g)
      (hg' : grammar (rules.map fun r => (r.1, r.2.2)) = .ok g') : CopiesToCalls g g'
  | times {p p' q q' : Pattern α} {n : Int} {asRule : Bool} (h : CopiesToCalls p p')
      (hq : p.times n asRule = .ok q) (hq' : p'.times n asRule = .ok q') : CopiesToCalls q q'
  | action (a : α) {p p' : Pattern α} (h : CopiesToCalls p p') :
      CopiesToCalls (action a p) (action a p')

theorem CopiesToCalls.alike {p p' : Pattern α} (h : CopiesToCalls p p') : Alike p p' := by
  induction h with
  | exchange hp hc hname hq hq' => exact alike_times hp hc hname hq hq'
  | keep hp => exact .refl hp
  | test _ ih => exact ih.test
  | testNot _ ih => exact ih.testNot
  | behind _ hq hq' ih => exact ih.behind hq hq'
  | choice _ _ ihp ihq => exact ihp.choice ihq
  | diff _ _ ihp ihq => exact ihp.diff ihq
  | seq _ _ ihp ihq => exact ihp.seq ihq
  | choiceAll _ ih => exact .choiceAll ih
  | seqAll _ ih => exact .seqAll ih
  | repeated _ hq hq' ih => exact ih.repeated hq hq'
  | grammar _ hg hg' ih => exact .grammar ih hg hg'
  | times _ hq hq' ih => exact ih.times hq hq'
  | action a _ ih => exact ih.action a

/-- **Copies and calls can be exchanged everywhere**: what is built from them means the same,
whatever the names mean that it refers to, and comes out in the same way at every position once it
has been resolved, or in none. -/
theorem eval_iff_of_copiesToCalls {p p' : Pattern α} (h : CopiesToCalls p p') (S : Setting α) :
    (∀ named, p.meaning S named = p'.meaning S named) ∧
      ∀ root root', p.root.resolve p.refs [] = .ok root → p'.root.resolve p'.refs [] = .ok root' →
        ∀ pos t res, Eval S [] root pos t res ↔ Eval S [] root' pos t res := by
  have halike := h.alike
  refine ⟨halike.meaning S, fun root root' hroot hroot' pos t res => ?_⟩
  have hsame : Eval S [] root = Eval S [] root' :=
    calc Eval S [] root = p.meaning S fun _ => Meaning.Fail :=
          eval_of_resolve halike.built.inScope hroot _
      _ = p'.meaning S fun _ => Meaning.Fail := halike.meaning S _
      _ = Eval S [] root' := (eval_of_resolve halike.built'.inScope hroot' _).symm
  rw [hsame]

/-- Two letters and the rule again, or another letter. -/
theorem eval_iff_of_copiesToCalls_rule :
    let letter : Pattern Unit := .char 'a'
    let self : Pattern Unit := ⟨.openCall 0, ["s"]⟩
    let S : Setting Unit :=
      { subject := #['a', 'a', 'c'], start := 0, answer := fun _ _ stop => some stop }
    ∃ q q' g g', letter.times 2 false = .ok q ∧ letter.times 2 true = .ok q' ∧
      grammar [("s", choice (seq q self) (.char 'c'))] = .ok g ∧
      grammar [("s", choice (seq q' self) (.char 'c'))] = .ok g' ∧ CopiesToCalls g g' ∧
      ∃ root root', g.root.resolve g.refs [] = .ok root ∧ g'.root.resolve g'.refs [] = .ok root' ∧
        root ≠ root' ∧ Eval S [] root 0 [] (.matched 3 []) ∧
        (Eval S [] root 0 [] (.matched 3 []) ↔ Eval S [] root' 0 [] (.matched 3 [])) := by
  intro letter self S
  obtain ⟨q, hq⟩ : ∃ q, letter.times 2 false = .ok q := ⟨_, rfl⟩
  obtain ⟨q', hq'⟩ : ∃ q', letter.times 2 true = .ok q' := ⟨_, rfl⟩
  obtain ⟨g, hg⟩ : ∃ g, grammar [("s", choice (seq q self) (.char 'c'))] = .ok g := by
    cases hq
    exact ⟨_, rfl⟩
  obtain ⟨g', hg'⟩ : ∃ g', grammar [("s", choice (seq q' self) (.char 'c'))] = .ok g' := by
    cases hq'
    exact ⟨_, rfl⟩
  have hself : CopiesToCalls self self := .keep (.ref (show ref "s" = .ok self from rfl))
  have hbody : CopiesToCalls (choice (seq q self) (.char 'c')) (choice (seq q' self) (.char 'c')) :=
    .choice (.seq (.exchange (.char 'a') (List.not_mem_nil) (List.not_mem_nil) hq hq') hself)
      (.keep (.char 'c'))
  have hrules : ∀ r ∈ [("s", choice (seq q self) (.char 'c'), choice (seq q' self) (.char 'c'))],
      CopiesToCalls r.2.1 r.2.2 := by simpa using hbody
  have hcopies : CopiesToCalls g g' := .grammar hrules hg hg'
  refine ⟨q, q', g, g', hq, hq', hg, hg', hcopies, ?_⟩
  obtain ⟨root, hroot⟩ : ∃ root, g.root.resolve g.refs [] = .ok root := by
    cases hq
    cases hg
    exact ⟨_, rfl⟩
  obtain ⟨root', hroot'⟩ : ∃ root', g'.root.resolve g'.refs [] = .ok root' := by
    cases hq'
    cases hg'
    exact ⟨_, rfl⟩
  refine ⟨root, root', hroot, hroot', ?_, ?_,
    (eval_iff_of_copiesToCalls hcopies S).2 root root' hroot hroot' 0 [] _⟩
  · cases hq
    cases hq'
    cases hg
    cases hg'
    cases hroot
    cases hroot'
    nofun
  · cases hq
    cases hg
    cases hroot
    have hother : ∀ rules, Eval S rules (.char 'a') 2 [] .failed := fun rules =>
      .class_fail rfl fun c hc => by cases hc; rfl
    exact .grammar rfl (.choice_first (.seq_ok (.class_ok rfl rfl rfl) (.seq_ok
      (.class_ok rfl rfl rfl) (.ruleCall rfl (.choice_second (.seq_fail_first (hother _))
        (.class_ok rfl rfl rfl))))))

/-- A reference that is meant for a rule around, but has the name of one of the rules made for the
calls. -/
theorem captures_reference :
    let p : Pattern Unit := .seq (.char 'a') ⟨.openCall 0, ["p"]⟩
    let S : Setting Unit :=
      { subject := #['a', 'b', 'a', 'b'], start := 0, answer := fun _ _ stop => some stop }
    ∃ q q' g g', p.Built ∧ p.times 2 false = .ok q ∧ p.times 2 true = .ok q' ∧
      grammar [("s", q), ("p", .char 'b')] = .ok g ∧
      grammar [("s", q'), ("p", .char 'b')] = .ok g' ∧
      ∃ root root', g.root.resolve g.refs [] = .ok root ∧ g'.root.resolve g'.refs [] = .ok root' ∧
        Eval S [] root 0 [] (.matched 4 []) ∧ Eval S [] root' 0 [] .failed := by
  intro p S
  have hp : p.Built := .seq (.char 'a') (.ref (show ref "p" = .ok _ from rfl))
  refine ⟨_, _, _, _, hp, rfl, rfl, rfl, rfl, _, _, rfl, rfl, ?_, ?_⟩
  · exact .grammar rfl (.seq_ok (.class_ok rfl rfl rfl) (.seq_ok
      (.ruleCall rfl (.class_ok rfl rfl rfl)) (.seq_ok (.class_ok rfl rfl rfl)
        (.ruleCall rfl (.class_ok rfl rfl rfl)))))
  · -- the call in the copied pattern is one of the pattern itself, which the next letter is not
    have hother : ∀ rules, Eval S rules (.char 'a') 1 [] .failed := fun rules =>
      .class_fail rfl fun c hc => by cases hc; rfl
    exact .grammar rfl (.grammar rfl (.seq_fail_first (.ruleCall rfl (.seq_fail_second
      (.class_ok rfl rfl rfl) (.ruleCall rfl (.seq_fail_first (hother _)))))))

end Pattern
end PegMachine
