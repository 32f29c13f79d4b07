import PegMachine.Proofs.Expr.Deciding
import PegMachine.Proofs.Results

/-!
# What is told about expressions is true

Patterns are accepted and compiled on the grounds of what can be told about them without matching
them.  Here the answers are held against what matching comes to, for everything that the questions
are ever asked about: patterns that are being put together, and all parts of those that have been
resolved, the rules of grammars included (`Resolved`).  The rules need not have passed any check, so
that the answers have to be right for rules that call themselves without end, too.

* `truthful_of_resolved` — may the expression be empty, can it fail, is it of one length.
* `headTruthful_of_resolved` — what comes next, and when that decides.
* `no_result_atEnd_of_lookback` — what needs a character does not match without one, but it may go
  round in circles instead of failing.
-/

set_option autoImplicit false

namespace PegMachine

open PegMachine.Expr

variable {α : Type}

/-! ## What the questions are asked about -/

/-- The expression is part of a pattern that has been resolved, be it on its own or as a rule of a
grammar; and the calls in it lead to the given rules.  Whether the grammar was then accepted is left
open. -/
inductive Resolved : List (Rule α) → Expr α → Prop
  | pattern {p : Pattern α} {root : Expr α} {rules e} (hp : p.Built)
      (hroot : p.root.resolve p.refs [] = .ok root) (hpart : Part [] root rules e) :
      Resolved rules e
  | rule {named : List (String × Pattern α)} {bound : List (Rule α)} {r rules e}
      (hnamed : ∀ x ∈ named, x.2.Built)
      (hbound : resolveRules (named.map (·.1)) (named.map fun (name, p) => (name, p.refs, p.root))
        = .ok bound)
      (hr : r ∈ bound) (hpart : Part bound r.body rules e) : Resolved rules e

variable {rules : List (Rule α)} {e : Expr α}

section

variable {named : List (String × Pattern α)} {bound : List (Rule α)}
  (hnamed : ∀ x ∈ named, x.2.Built)
  (hbound : resolveRules (named.map (·.1)) (named.map fun (name, p) => (name, p.refs, p.root))
    = .ok bound)
include hnamed hbound

/-- Rules are resolved patterns. -/
theorem exists_built_of_resolveRules :
    bound.length = (named.map (·.1)).length ∧ ∀ r ∈ bound, ∃ p : Pattern α, p.Built ∧
      p.root.resolve p.refs (named.map (·.1)) = .ok r.body := by
  obtain ⟨hlen, hall⟩ := exists_of_resolveRules hbound
  refine ⟨by simpa using hlen, fun r hr => ?_⟩
  obtain ⟨_, hmem, hres⟩ := hall r hr
  obtain ⟨x, hx, rfl⟩ := List.mem_map.1 hmem
  exact ⟨x.2, hnamed x hx, hres⟩

theorem fitted_of_resolveRules : fittedRules bound := by
  refine fittedRules_iff.2 fun r hr => ?_
  obtain ⟨p, hp, hres⟩ := (exists_built_of_resolveRules hnamed hbound).2 r hr
  exact fitted_of_resolve hres hp.fitted

theorem inScope_of_resolveRules : inScopeRules bound.length bound := by
  obtain ⟨hlen, hall⟩ := exists_built_of_resolveRules hnamed hbound
  refine inScopeRules_iff.2 fun r hr => ?_
  obtain ⟨p, hp, hres⟩ := hall r hr
  rw [hlen]
  exact inScope_of_resolve hres hp.inScope

end

theorem Resolved.fitted (h : Resolved rules e) : fittedRules rules ∧ e.fitted := by
  cases h with
  | pattern hp hroot hpart => exact hpart.fitted trivial (fitted_of_resolve hroot hp.fitted)
  | rule hnamed hbound hr hpart =>
    have hfitted := fitted_of_resolveRules hnamed hbound
    exact hpart.fitted hfitted (fittedRules_iff.1 hfitted _ hr)

theorem Resolved.inScope (h : Resolved rules e) :
    inScopeRules rules.length rules ∧ e.inScope False rules.length := by
  cases h with
  | pattern hp hroot hpart => exact hpart.inScope trivial (inScope_of_resolve hroot hp.inScope)
  | rule hnamed hbound hr hpart =>
    have hscope := inScope_of_resolveRules hnamed hbound
    exact hpart.inScope hscope (inScopeRules_iff.1 hscope _ hr)

/-! ## Yes, no, and how long -/

/-- The answers are true of the matches of the expression. -/
structure Truthful (S : Setting α) (rules : List (Rule α)) (e : Expr α) (nullable noFail : Bool)
    (length : Option Nat) : Prop where
  /-- What matches without consuming anything may be empty. -/
  nullable : ∀ pos asked fired, Eval S rules e pos asked (.matched pos fired) → nullable = true
  /-- What never fails does not fail. -/
  noFail : noFail = true → ∀ pos asked, ¬ Eval S rules e pos asked .failed
  /-- All matches are as long as it is said. -/
  length : ∀ n, length = some n → ∀ pos asked stop fired,
    Eval S rules e pos asked (.matched stop fired) → stop = pos + n

theorem truthful {S : Setting α} (hS : S.Closed) (hr : fittedRules rules) (he : e.fitted) :
    Truthful S rules e (e.nullableIn rules) (e.noFailIn rules) (e.fixedLengthIn rules) where
  nullable _ _ _ h := h.nullable hS hr he _
  noFail hnever _ _ h := by
    rw [noFailIn, noFailCall, h.not_failed_of_noFail] at hnever
    cases hnever
  length _ hn _ _ _ _ h := h.stop_of_fixedLength hS hr he hn

/-- **The answers are true**, of every pattern and of all that it is resolved to. -/
theorem truthful_of_resolved (subject : Array Char) (offset : Nat)
    (answer : α → Nat → Nat → Option Nat) :
    (∀ p : Pattern α, p.Built →
      Truthful { subject, start := offset, answer } [] p.root p.nullable p.noFail p.fixedLength) ∧
    ∀ rules (e : Expr α), Resolved rules e →
      Truthful { subject, start := offset, answer } rules e (e.nullableIn rules) (e.noFailIn rules)
        (e.fixedLengthIn rules) := by
  have hclosed := Setting.closed subject offset answer
  exact ⟨fun p hp => truthful hclosed trivial hp.fitted,
    fun rules e h => truthful hclosed h.fitted.1 h.fitted.2⟩

/-- Two rules that call each other, of which the second never fails. -/
def callingRules : List (String × Pattern Unit) :=
  [("s", .choice (.seq (.char 'a') ⟨.openCall 0, ["t"]⟩) (.char 'b')),
    ("t", .choice ⟨.openCall 0, ["s"]⟩ .succeed)]

theorem built_callingRules : ∀ x ∈ callingRules, x.2.Built := by
  have hs : Pattern.ref "s" = .ok (⟨.openCall 0, ["s"]⟩ : Pattern Unit) := rfl
  have ht : Pattern.ref "t" = .ok (⟨.openCall 0, ["t"]⟩ : Pattern Unit) := rfl
  simpa [callingRules] using ⟨.choice (.seq (.char 'a') (.ref ht)) (.char 'b'),
    .choice (.ref hs) .succeed⟩

/-- A lookbehind, and the second rule, which may be empty but does not fail. -/
theorem truthful_of_resolved_rules :
    let before : Pattern Unit := ⟨.behind 2 (.seq (.char 'a') .any), []⟩
    let rules : List (Rule Unit) :=
      [⟨"s", .choice (.seq (.char 'a') (.ruleCall 1)) (.char 'b')⟩,
        ⟨"t", .choice (.ruleCall 0) .empty⟩]
    let S : Setting Unit := { subject := #['c'], start := 0, answer := fun _ _ j => some j }
    (Pattern.seq (.char 'a') (.anyChars 1)).behind = .ok before ∧ before.fixedLength = some 0 ∧
      Truthful S [] before.root before.nullable before.noFail before.fixedLength ∧
      resolveRules ["s", "t"] (callingRules.map fun (name, p) => (name, p.refs, p.root))
        = .ok rules ∧
      Eval S rules (.ruleCall 1) 0 [] (.matched 0 []) ∧ noFailIn rules (.ruleCall 1) = true ∧
      Truthful S rules (.ruleCall 1) (nullableIn rules (.ruleCall 1))
        (noFailIn rules (.ruleCall 1)) (fixedLengthIn rules (.ruleCall 1)) := by
  intro before rules S
  have hbehind : (Pattern.seq (.char 'a') (.anyChars 1)).behind = .ok before := rfl
  have hbefore : before.Built := .behind (.seq (.char 'a') (.anyChars 1)) hbehind
  have hbound : resolveRules ["s", "t"]
      (callingRules.map fun (name, p) => (name, p.refs, p.root)) = .ok rules := rfl
  have hresolved : Resolved rules (.ruleCall 1) :=
    .rule built_callingRules hbound List.mem_cons_self (.choice_first (.seq_second .refl))
  have hother : ∀ c, 'c' ≠ c → Eval S rules (.char c) 0 [] .failed := fun c hc => .char_fail rfl hc
  have hbody : Eval S rules (.choice (.seq (.char 'a') (.ruleCall 1)) (.char 'b')) 0 ([] ++ [])
      .failed :=
    .choice_second (.seq_fail_first (hother 'a' (by decide))) (hother 'b' (by decide))
  have hcall : Eval S rules (.choice (.ruleCall 0) .empty) 0 ([] ++ []) (.matched 0 []) :=
    .choice_second (.ruleCall rfl hbody) .empty
  obtain ⟨hpatterns, hparts⟩ := truthful_of_resolved #['c'] 0 fun _ _ j => some j
  exact ⟨hbehind, rfl, hpatterns before hbefore, hbound, .ruleCall rfl hcall, rfl,
    hparts _ _ hresolved⟩

/-! ## What comes next -/

/-- What the head of an expression tells is true of its matches. -/
structure HeadTruthful (S : Setting α) (rules : List (Rule α)) (e : Expr α) : Prop where
  /-- The next character is in the head, unless the match is empty and the character is not one that
  may follow. -/
  contains : ∀ follow pos c asked stop fired, Eval S rules e pos asked (.matched stop fired) →
    S.subject[pos]? = some c → pos < stop ∨ follow.contains c.toNat = true →
      (e.headIn rules follow).chars.contains c.toNat = true
  /-- What needs a character does not match at the end of the subject. -/
  atEnd : ∀ follow, (e.headIn rules follow).needsChar = true →
    ∀ asked r, Eval S rules e S.subject.size asked r → r = .failed
  /-- It fails there, where it can be known to come to any result: if the actions answer properly,
  the rules are not left recursive, repetitions consume something in each round and lookbehinds
  contain no calls. -/
  failsAtEnd : ∀ follow, (e.headIn rules follow).needsChar = true → S.Proper →
    ¬ LeftRecursive rules → progressesRules rules rules → e.progresses rules →
      ∃ asked, Eval S rules e S.subject.size asked .failed
  /-- Where the next character is said to decide, one is needed, and the expression fails if there
  is none or it is not in the head, and nowhere else. -/
  decides : e.headFailIn rules = true → (e.headIn rules .full).needsChar = true ∧
    ∀ pos ≤ S.subject.size, ((∃ asked, Eval S rules e pos asked .failed) ↔ pos = S.subject.size ∨
      ∃ c, S.subject[pos]? = some c ∧ (e.headIn rules .full).chars.contains c.toNat = false)

theorem eq_failed_of_needsChar {S : Setting α} (hS : S.Closed) (hr : fittedRules rules)
    (he : e.fitted) {follow : CharSet} (hneeds : (e.headIn rules follow).needsChar = true)
    {asked : List (Firing α)} {r : Result α} (h : Eval S rules e S.subject.size asked r) :
    r = .failed := by
  cases r with
  | failed => rfl
  | matched stop fired =>
    obtain ⟨c, hc⟩ := h.exists_next_of_needsChar hS hr he hneeds
    rw [Array.getElem?_eq_none (Nat.le_refl _)] at hc
    cases hc

/-- Within the subject there is no next character in a set if it is the end of the subject, or if
the next character is not in the set. -/
theorem noneNext_iff {S : Setting α} {pos : Nat} (hpos : pos ≤ S.subject.size) {s : CharSet} :
    NoneNext S pos s ↔ pos = S.subject.size ∨
      ∃ c, S.subject[pos]? = some c ∧ s.contains c.toNat = false := by
  rcases Nat.eq_or_lt_of_le hpos with rfl | hlt
  · refine iff_of_true (fun c hc => ?_) (.inl rfl)
    rw [Array.getElem?_eq_none (Nat.le_refl _)] at hc
    cases hc
  · have hc : S.subject[pos]? = some S.subject[pos] := Array.getElem?_eq_getElem hlt
    constructor
    · exact fun h => .inr ⟨_, hc, h _ hc⟩
    · rintro (rfl | ⟨c, hc', hs⟩) d hd
      · exact absurd hlt (Nat.lt_irrefl _)
      · rw [hc'] at hd
        cases hd
        exact hs

/-- **Heads are true** of all that patterns are resolved to. -/
theorem headTruthful_of_resolved (h : Resolved rules e) (subject : Array Char) (offset : Nat)
    (answer : α → Nat → Nat → Option Nat) :
    HeadTruthful { subject, start := offset, answer } rules e := by
  have hclosed := Setting.closed subject offset answer
  obtain ⟨hr, he⟩ := h.fitted
  obtain ⟨hrules, hscope⟩ := h.inScope
  constructor
  · exact fun follow pos c asked stop fired heval hc hor =>
      heval.head_contains hclosed hr he hc hor
  · exact fun follow hneeds asked r heval => eq_failed_of_needsChar hclosed hr he hneeds heval
  · intro follow hneeds hproper hrec hall hprog
    obtain ⟨asked, r, heval⟩ :=
      hasResult hclosed hproper hr hrules hrec hall he hscope hprog (Nat.le_refl _)
    obtain rfl := eq_failed_of_needsChar hclosed hr he hneeds heval
    exact ⟨asked, heval⟩
  · intro hdecided
    exact ⟨needsChar_of_headFail hdecided .full, fun pos hpos =>
      (failed_iff_of_headFailIn hdecided).trans (noneNext_iff hpos)⟩

/-- The grammar of the rules, of which the next character decides if it fails. -/
theorem headTruthful_of_resolved_rules :
    let rules : List (Rule Unit) :=
      [⟨"s", .choice (.seq (.char 'a') (.ruleCall 1)) (.char 'b')⟩,
        ⟨"t", .choice (.ruleCall 0) .empty⟩]
    let S : Setting Unit := { subject := #['c'], start := 0, answer := fun _ _ j => some j }
    Pattern.grammar callingRules = .ok ⟨.grammar rules, []⟩ ∧ Resolved [] (.grammar rules) ∧
      HeadTruthful S [] (.grammar rules) ∧ headFailIn [] (.grammar rules) = true ∧
      ∃ asked, Eval S [] (.grammar rules) 0 asked .failed := by
  intro rules S
  have hp : Pattern.grammar callingRules = .ok ⟨.grammar rules, []⟩ := rfl
  have hresolved : Resolved [] (.grammar rules) :=
    .pattern (.grammar built_callingRules hp) rfl .refl
  have hheads : HeadTruthful S [] (.grammar rules) := headTruthful_of_resolved hresolved _ _ _
  have hdecided : headFailIn [] (.grammar rules) = true := rfl
  have hnot : ((headIn [] (.grammar rules) .full).chars.contains 'c'.toNat) = false := by
    decide +kernel
  exact ⟨hp, hresolved, hheads, hdecided,
    ((hheads.decides hdecided).2 0 (Nat.zero_le _)).2 (.inr ⟨'c', rfl, hnot⟩)⟩

/-- What needs a character does not match at the end of the subject, but it need not fail there.
The second of these rules is accepted, since lookbehinds are not walked when rules are checked, and
goes round in circles behind the letter that it looks back at. -/
theorem no_result_atEnd_of_lookback :
    let call : Pattern Unit := ⟨.openCall 0, ["r"]⟩
    let before : Pattern Unit := ⟨.behind 1 (.seq (.char 'a') (.and (.openCall 0))), ["r"]⟩
    let rules : List (Rule Unit) :=
      [⟨"s", .seq (.char 'a') (.ruleCall 1)⟩,
        ⟨"r", .seq (.behind 1 (.seq (.char 'a') (.and (.ruleCall 1)))) (.char 'x')⟩]
    let p : Pattern Unit := ⟨.grammar rules, []⟩
    let S : Setting Unit := { subject := #['a'], start := 0, answer := fun _ _ j => some j }
    (Pattern.seq (.char 'a') call.test).behind = .ok before ∧
      Pattern.grammar [("s", .seq (.char 'a') call), ("r", .seq before (.char 'x'))] = .ok p ∧
      (∃ prog, Program.compile ⟨true, 20⟩ p = .ok prog) ∧ Resolved rules (.ruleCall 1) ∧
      S.Proper ∧ (∀ follow, (headIn rules (.ruleCall 1) follow).needsChar = true) ∧
      ∀ asked r, ¬ Eval S rules (.ruleCall 1) S.subject.size asked r := by
  intro call before rules p S
  have hbefore : (Pattern.seq (.char 'a') call.test).behind = .ok before := rfl
  have hgrammar : Pattern.grammar [("s", .seq (.char 'a') call), ("r", .seq before (.char 'x'))]
      = .ok p := rfl
  have hcall : call.Built := .ref (show Pattern.ref "r" = .ok call from rfl)
  have hbuilt : p.Built := by
    refine .grammar ?_ hgrammar
    simpa using ⟨.seq (.char 'a') hcall,
      .seq (.behind (.seq (.char 'a') (.test hcall)) hbefore) (.char 'x')⟩
  have hproper : S.Proper := by
    rintro a i j k hj hk
    cases hk
    exact ⟨Nat.le_refl j, hj⟩
  -- the call stands at the end of the first rule
  have hpart : Part [] (.grammar rules) rules (.ruleCall 1) :=
    .rule List.mem_cons_self (.seq_second .refl)
  exact ⟨hbefore, hgrammar, exists_of_isOk (by decide +kernel), .pattern hbuilt rfl hpart,
    hproper, fun _ => rfl, fun _ _ => LooksBack.call.not_eval rfl Nat.zero_lt_one rfl⟩

end PegMachine
