import PegMachine.Proofs.Code.Targets
import PegMachine.Proofs.Progress

/-!
# Chains of jumps come to an end

Nothing in a jump says that it leads anywhere: jumps that lead to each other in a circle are code as
well.  There is no such circle in the code of an expression whose grammars are not left recursive.
A jump leads on to later addresses in general, and the two that do not are told apart: the one at
the end of a repetition leads to a test in front of it, and a call that has become a jump leads to
a rule.  A chain from the start of a rule that gets to another rule by jumps alone has passed
nothing but what may be empty, so that the call is a leading one.

* `Lands` — from an address, jumps lead to an instruction that is no jump.
* `lands_emit` — they do from the start of an expression, if they do from behind it, in case that it
  may be empty, and from the rules which it may call at once.
* `lands_starts` — so they do from the starts of rules that are not left recursive.
* `landsFrom_emit` — they do from every address in the code of an expression.
* `landsFrom_rules` — they do from every address in the rules of a grammar.
-/

set_option autoImplicit false

namespace PegMachine

open PegMachine.Expr

variable {α : Type}

/-! ## Landing -/

/-- Whether the instruction is a jump. -/
def Instr.isJump : Instr α → Bool
  | jump _ => true
  | _ => false

theorem Instr.isJump_of_target? {instr : Instr α} (h : instr.target? = none) :
    instr.isJump = false := by
  cases instr with
  | jump t => cases h
  | _ => rfl

/-- From the address on, jumps lead to an instruction that is no jump.  What stands at an address is
looked up by `get?`. -/
inductive Lands (get? : Nat → Option (Instr α)) : Nat → Prop
  | stop {a : Nat} {instr : Instr α} (h : get? a = some instr) (hstop : instr.isJump = false) :
      Lands get? a
  | jump {a t : Nat} (h : get? a = some (.jump t)) (ht : Lands get? t) : Lands get? a

/-- Two jumps that lead to each other do not land. -/
theorem not_lands_of_circle {get? : Nat → Option (Instr α)} {a b : Nat}
    (ha : get? a = some (.jump b)) (hb : get? b = some (.jump a)) : ¬ Lands get? a := by
  intro h
  have hout : ∀ x, Lands get? x → ¬ (x = a ∨ x = b) := by
    intro x hx
    induction hx with
    | stop hi hstop =>
      rintro (rfl | rfl)
      · rw [ha] at hi
        cases hi
        cases hstop
      · rw [hb] at hi
        cases hi
        cases hstop
    | jump hi _ ih =>
      rintro (rfl | rfl)
      · rw [ha] at hi
        cases hi
        exact ih (.inr rfl)
      · rw [hb] at hi
        cases hi
        exact ih (.inl rfl)
  exact hout a h (.inl rfl)

/-- Jumps land from every address from the first one on, up to before the last one. -/
def LandsFrom (get? : Nat → Option (Instr α)) (first last : Nat) : Prop :=
  ∀ a, first ≤ a → a < last → Lands get? a

namespace LandsFrom

variable {get? : Nat → Option (Instr α)} {a b c : Nat}

theorem refl : LandsFrom get? a a := fun _ hle hlt => absurd hlt (Nat.not_lt.2 hle)

theorem trans (h : LandsFrom get? a b) (h' : LandsFrom get? b c) : LandsFrom get? a c := by
  intro x hax hxc
  rcases Nat.lt_or_ge x b with hxb | hbx
  · exact h x hax hxb
  · exact h' x hbx hxc

theorem cons (h : Lands get? a) (hrest : LandsFrom get? c b) (hc : c ≤ a + 1) :
    LandsFrom get? a b := by
  intro x hax hxb
  rcases Nat.eq_or_lt_of_le hax with rfl | hlt
  · exact h
  · exact hrest x (by omega) hxb

theorem single (h : Lands get? a) : LandsFrom get? a (a + 1) := .cons h .refl le_rfl

theorem start (h : LandsFrom get? a b) (hab : a ≤ b) (hb : Lands get? b) : Lands get? a := by
  rcases Nat.eq_or_lt_of_le hab with rfl | hlt
  · exact hb
  · exact h a le_rfl hlt

end LandsFrom

variable {link : List Nat → Segment α → Segment α} {code : Array (Instr α)}
  {call : Nat → Nat → Prop} {rules : List (Rule α)} {starts : List Nat} {reuse : Bool}
  {guard : Option Guard} {follow : CharSet} {base : Nat}

theorem Jumps.lands {i j : Nat} (h : Jumps code i j) (hj : Lands (code[·]?) j) :
    Lands (code[·]?) i := by
  induction h with
  | here => exact hj
  | jump hi _ ih => exact .jump hi (ih hj)

/-- A test is no jump, or one to the target that is given. -/
theorem lands_forTest {s : CharSet} {a t : Nat} (h : code[a]? = some (.forTest s t))
    (ht : Lands (code[·]?) t) : Lands (code[·]?) a := by
  rw [Instr.forTest] at h
  split at h
  · exact .jump h ht
  all_goals exact .stop h rfl

theorem lands_headTest {h : Head} {t : Nat} (hp : Placed code call base (Instr.headTest h t))
    (ht : Lands (code[·]?) t) : LandsFrom (code[·]?) base (base + h.testLength) := by
  rw [Instr.headTest] at hp
  rw [Head.testLength]
  split at hp
  · next hneeds =>
    rw [if_pos hneeds]
    exact .single (lands_forTest ((placed_cons.1 hp).1.eq (Instr.forTest_ne_openCall _ _)) ht)
  · next hneeds =>
    rw [if_neg hneeds]
    exact .refl

/-! ## Calls that have become jumps -/

/-- What stands at the address in the place of an open call of rule `i` is no jump, or one to the
rule, where the rules are at the addresses `starts`. -/
def HeadsFor (code : Array (Instr α)) (starts : List Nat) (addr i : Nat) : Prop :=
  ∀ t, starts[i]? = some t → ∃ instr, code[addr]? = some instr ∧ ∀ u, instr = .jump u → u = t

theorem Linked.headsFor {addr i : Nat} (h : Linked code starts addr i) :
    HeadsFor code starts addr i := by
  intro t ht
  rcases h t ht with hcall | ⟨hjump, -⟩
  · exact ⟨_, hcall, by simp⟩
  · exact ⟨_, hjump, fun u hu => by cases hu; rfl⟩

theorem Placed.imp {call' : Nat → Nat → Prop} {instrs : List (Instr α)}
    (h : Placed code call base instrs) (hcall : ∀ a i, call a i → call' a i) :
    Placed code call' base instrs := by
  intro k instr hk
  have hholds := h k instr hk
  cases instr with
  | openCall i => exact hcall _ i hholds
  | _ => exact hholds

theorem HeadsFor.lands {addr i t : Nat} (h : HeadsFor code starts addr i)
    (hi : starts[i]? = some t) (ht : Lands (code[·]?) t) : Lands (code[·]?) addr := by
  obtain ⟨instr, hinstr, hjump⟩ := h t hi
  cases instr with
  | jump u =>
    obtain rfl := hjump u rfl
    exact .jump hinstr ht
  | _ => exact .stop hinstr rfl

/-! ## The start of an expression -/

/-- **From the start of an expression jumps land**, if they do from behind it, in case that it may be
empty, and from the rules that it may call before it consumes anything. -/
theorem lands_emit {e : Expr α} (hscope : e.inScope False starts.length) (hback : e.movesBack)
    (hp : Placed code (HeadsFor code starts) base (e.emit link rules reuse guard follow base))
    (hend : Nullable rules e →
      Lands (code[·]?) (e.emitEnd link rules reuse guard follow base))
    (hcalls : ∀ i t, Leading (Nullable rules) e (.ruleCall i) → starts[i]? = some t →
      Lands (code[·]?) t) : Lands (code[·]?) base := by
  induction e generalizing reuse guard follow base with
  | char c =>
    exact .stop ((placed_cons.1 hp).1.eq (Instr.forChar_ne_openCall _ _))
      (Instr.isJump_of_target? (Instr.target?_forChar _ _))
  | set s =>
    exact .stop ((placed_cons.1 hp).1.eq (Instr.forSet_ne_openCall _ _))
      (Instr.isJump_of_target? (Instr.target?_forSet _ _))
  | any => exact .stop (placed_cons.1 hp).1 rfl
  | fail => exact .stop (placed_cons.1 hp).1 rfl
  | empty => exact hend .empty
  | openCall i => exact hscope.elim
  | ruleCall i =>
    have ht : starts[i]? = some starts[i] := List.getElem?_eq_getElem hscope
    have hheads : HeadsFor code starts base i := (placed_cons.1 hp).1
    exact hheads.lands ht (hcalls i _ .refl ht)
  | seq first second ih₁ ih₂ =>
    rw [emit, placed_append] at hp
    refine ih₁ hscope.1 hback.1 hp.1 (fun h₁ => ?_) fun i t hi ht => hcalls i t (.seq_first hi) ht
    refine ih₂ hscope.2 hback.2 hp.2 (fun h₂ => ?_)
      fun i t hi ht => hcalls i t (.seq_second h₁ hi) ht
    have hlast := hend (.seq h₁ h₂)
    rwa [emitEnd, emit, List.length_append, ← Nat.add_assoc] at hlast
  | choice first second _ ih₂ =>
    -- the only jump at the start of a choice is one to the second alternative
    have hsecond : ∀ {other : Nat}, Placed code (HeadsFor code starts) other
          (second.emit link rules reuse none follow other) →
        (choice first second).emitEnd link rules reuse guard follow base
          = second.emitEnd link rules reuse none follow other → Lands (code[·]?) other := by
      intro other hcode₂ hlast
      refine ih₂ hscope.2 hback.2 hcode₂ (fun h₂ => ?_)
        fun i t hi ht => hcalls i t (.choice_second hi) ht
      rw [← hlast]
      exact hend (.choice_second h₂)
    cases htold : first.toldByNext rules (second.headIn rules follow).chars with
    | true =>
      obtain ⟨other, -, htest, -, -, hcode₂, hlast⟩ := placed_choice_told htold hp
      exact lands_forTest htest (hsecond hcode₂ hlast)
    | false =>
      cases hreuse : (reuse && second.isEmpty) with
      | true => exact .stop (placed_choice_moved hreuse htold hp).1 rfl
      | false =>
        obtain ⟨_, other, -, -, htest, hchoice, -, -, hcode₂, hlast⟩ :=
          placed_choice_pushed hreuse htold hp
        exact (lands_headTest htest (hsecond hcode₂ hlast)).start (Nat.le_add_right _ _)
          (.stop hchoice rfl)
  | star body =>
    cases hclass : body.class? with
    | some s => exact .stop (placed_star_span hclass hp).1 rfl
    | none =>
      cases htold : body.toldByNext rules follow with
      | true => exact lands_forTest (placed_star_told hclass htold hp).1 (hend .star)
      | false =>
        obtain ⟨_, fin, -, -, rfl, htest, henter, -, -⟩ := placed_star_kept hclass htold hp
        refine (lands_headTest htest (hend .star)).start (Nat.le_add_right _ _) (.stop henter ?_)
        split <;> rfl
  | not body =>
    cases htold : body.headFailIn rules with
    | true =>
      obtain ⟨fin, -, rfl, htest, hfail⟩ := placed_not_told htold hp
      exact (lands_headTest htest (hend .not)).start (Nat.le_add_right _ _) (.stop hfail rfl)
    | false =>
      obtain ⟨_, fin, -, -, rfl, htest, hchoice, -, -⟩ := placed_not_pushed htold hp
      exact (lands_headTest htest (hend .not)).start (Nat.le_add_right _ _) (.stop hchoice rfl)
  | and body ih =>
    by_cases hfixed : ∃ length, body.fixedLengthIn rules = some length ∧
        body.hasActionsIn rules = false
    · obtain ⟨length, hlength, hacts⟩ := hfixed
      obtain ⟨hcode, hlast⟩ := placed_and_fixed hlength hacts hp
      refine ih hscope hback hcode (fun _ => ?_) fun i t hi ht => hcalls i t (.and hi) ht
      split at hlast
      · rw [← hlast]
        exact hend .and
      · exact .stop hlast.1 rfl
    · obtain ⟨_, _, -, -, -, hchoice, -⟩ := placed_and_pushed (fun length hlength =>
        Bool.of_not_eq_false fun hacts => hfixed ⟨length, hlength, hacts⟩) hp
      exact .stop hchoice rfl
  | behind width body =>
    obtain ⟨_, hwidth, -⟩ := placed_behind hp
    rw [if_neg hback.1] at hwidth
    exact .stop hwidth.1 rfl
  | action a body =>
    rw [emit, List.cons_append, placed_cons] at hp
    exact .stop hp.1 rfl
  | grammar inner =>
    simp only [emit, placed_cons] at hp
    exact .stop hp.1 rfl

/-! ## The rules of a grammar -/

/-- **From the starts of rules jumps land**, if the rules are not left recursive. -/
theorem lands_starts (hrec : ¬ LeftRecursive rules) (hscope : inScopeRules rules.length rules)
    (hback : movesBackRules rules)
    (hp : Placed code (HeadsFor code (Instr.starts base (emitRules link rules rules base))) base
      (emitRules link rules rules base).flatten) :
    ∀ t ∈ Instr.starts base (emitRules link rules rules base), Lands (code[·]?) t := by
  have hlength := length_starts_emitRules link rules rules base base
  have hplaced := rulesPlaced_of_placed hp
  generalize Instr.starts base (emitRules link rules rules base) = starts at hlength hplaced
  -- by induction along leading calls, which do not go round in a circle
  have hall : ∀ i < rules.length, ∀ t, starts[i]? = some t → Lands (code[·]?) t := by
    refine forall_of_leftCalls hrec fun i hi ih t ht => ?_
    have hr : rules[i]? = some rules[i] := List.getElem?_eq_getElem hi
    have hbody := inScopeRules_iff.1 hscope _ (List.getElem_mem hi)
    obtain ⟨addr, haddr, hcode⟩ := hplaced i _ hr
    obtain rfl : addr = t := Option.some.inj (haddr.symm.trans ht)
    rw [placed_append, placed_cons] at hcode
    refine lands_emit (hlength ▸ hbody) (movesBackRules_iff.1 hback _ (List.getElem_mem hi))
      hcode.1 (fun _ => .stop hcode.2.1 rfl) fun j u hj hu => ?_
    exact ih j (lt_of_mem_calls hbody (hj.mem_calls rfl)) ⟨_, hr, hj⟩ u hu
  intro t ht
  obtain ⟨i, hi⟩ := List.getElem?_of_mem ht
  have hlt := (List.getElem?_eq_some_iff.1 hi).1
  exact hall i (hlength ▸ hlt) t hi

/-! ## All of the code -/

/-- **From every address in the code of rules jumps land**, if they do so from every address in the
code of each of them. -/
theorem landsFrom_emitRules {all : List (Rule α)}
    (ih : ∀ r ∈ rules, ∀ base, Placed code (HeadsFor code starts) base
        (r.body.emit Segment.resolveCalls all false none .full base) →
      Lands (code[·]?) (r.body.emitEnd Segment.resolveCalls all false none .full base) →
      LandsFrom (code[·]?) base (r.body.emitEnd Segment.resolveCalls all false none .full base))
    (hp : Placed code (HeadsFor code starts) base
      (emitRules Segment.resolveCalls rules all base).flatten) :
    LandsFrom (code[·]?) base
      (base + (emitRules Segment.resolveCalls rules all base).flatten.length) := by
  induction rules generalizing base with
  | nil => exact .refl
  | cons r rest ihrest =>
    obtain ⟨name, body⟩ := r
    rw [List.forall_mem_cons] at ih
    simp only [emitRules, List.flatten_cons, List.length_append, List.append_assoc, placed_append,
      List.length_singleton, ← Nat.add_assoc] at hp ⊢
    obtain ⟨hbody, hret, hrest⟩ := hp
    have hstop := Lands.stop (placed_cons.1 hret).1 rfl
    exact (ih.1 base hbody hstop).trans (.cons hstop (ihrest ih.2 hrest) le_rfl)

/-- **From every address in the code of an expression jumps land**, if they do from behind it and
from the rules that are called in it. -/
theorem landsFrom_emit {e : Expr α} (hsettled : e.settled) (hscope : e.inScope False starts.length)
    (hback : e.movesBack) (hstarts : ∀ t ∈ starts, Lands (code[·]?) t)
    (hp : Placed code (HeadsFor code starts) base
      (e.emit Segment.resolveCalls rules reuse guard follow base))
    (hend : Lands (code[·]?) (e.emitEnd Segment.resolveCalls rules reuse guard follow base)) :
    LandsFrom (code[·]?) base (e.emitEnd Segment.resolveCalls rules reuse guard follow base) := by
  induction e generalizing rules starts reuse guard follow base with
  | char c =>
    exact .single (.stop ((placed_cons.1 hp).1.eq (Instr.forChar_ne_openCall _ _))
      (Instr.isJump_of_target? (Instr.target?_forChar _ _)))
  | set s =>
    exact .single (.stop ((placed_cons.1 hp).1.eq (Instr.forSet_ne_openCall _ _))
      (Instr.isJump_of_target? (Instr.target?_forSet _ _)))
  | any => exact .single (.stop (placed_cons.1 hp).1 rfl)
  | fail => exact .single (.stop (placed_cons.1 hp).1 rfl)
  | empty => exact .refl
  | openCall i => exact hscope.elim
  | ruleCall i =>
    have ht : starts[i]? = some starts[i] := List.getElem?_eq_getElem hscope
    have hheads : HeadsFor code starts base i := (placed_cons.1 hp).1
    exact .single (hheads.lands ht (hstarts _ (List.getElem_mem hscope)))
  | seq first second ih₁ ih₂ =>
    simp only [emitEnd, emit, placed_append, List.length_append, ← Nat.add_assoc] at hp hend ⊢
    have h₂ := ih₂ hsettled.2 hscope.2 hback.2 hstarts hp.2 hend
    exact (ih₁ hsettled.1 hscope.1 hback.1 hstarts hp.1
      (h₂.start (Nat.le_add_right _ _) hend)).trans h₂
  | choice first second ih₁ ih₂ =>
    have ih₁ := @ih₁ rules starts
    have ih₂ := @ih₂ rules starts
    cases htold : first.toldByNext rules (second.headIn rules follow).chars with
    | true =>
      obtain ⟨other, hother, htest, hcode₁, hskip, hcode₂, hlast⟩ := placed_choice_told htold hp
      rw [hlast] at hend ⊢
      have h₂ := ih₂ hsettled.2 hscope.2 hback.2 hstarts hcode₂ hend
      have hpast := hskip.lands hend
      have h₁ := ih₁ hsettled.1 hscope.1 hback.1 hstarts hcode₁ hpast
      exact .cons (lands_forTest htest (h₂.start (Nat.le_add_right _ _) hend))
        (h₁.trans (.cons hpast h₂ hother)) le_rfl
    | false =>
      cases hreuse : (reuse && second.isEmpty) with
      | true =>
        obtain ⟨hmove, hcode₁, hlast⟩ := placed_choice_moved hreuse htold hp
        rw [hlast] at hend ⊢
        exact .cons (.stop hmove rfl)
          (ih₁ hsettled.1 hscope.1 hback.1 hstarts hcode₁ hend) le_rfl
      | false =>
        obtain ⟨_, other, rfl, hother, htest, hchoice, hcode₁, hcommit, hcode₂, hlast⟩ :=
          placed_choice_pushed hreuse htold hp
        rw [hlast] at hend ⊢
        have h₂ := ih₂ hsettled.2 hscope.2 hback.2 hstarts hcode₂ hend
        have hpast := Lands.stop hcommit rfl
        have h₁ := ih₁ hsettled.1 hscope.1 hback.1 hstarts hcode₁ hpast
        exact (lands_headTest htest (h₂.start (Nat.le_add_right _ _) hend)).trans
          (.cons (.stop hchoice rfl) (h₁.trans (.cons hpast h₂ hother.le)) le_rfl)
  | star body ih =>
    have ih := @ih rules starts
    cases hclass : body.class? with
    | some s =>
      obtain ⟨hspan, hlast⟩ := placed_star_span hclass hp
      rw [hlast]
      exact .single (.stop hspan rfl)
    | none =>
      cases htold : body.toldByNext rules follow with
      | true =>
        obtain ⟨htest, hcode, hround, hlast⟩ := placed_star_told hclass htold hp
        have hfirst := lands_forTest htest hend
        -- the jump back leads to the test, and from there behind the repetition
        have hjump := Lands.jump hround hfirst
        rw [hlast]
        exact .cons hfirst
          ((ih hsettled hscope hback hstarts hcode hjump).trans (.single hjump)) le_rfl
      | false =>
        obtain ⟨_, _, rfl, rfl, hlast, htest, henter, hcode, hround⟩ :=
          placed_star_kept hclass htold hp
        rw [hlast] at hend ⊢
        have hpast := Lands.stop hround rfl
        have hfirst := Lands.stop henter (by split <;> rfl)
        exact (lands_headTest htest hend).trans (.cons hfirst
          ((ih hsettled hscope hback hstarts hcode hpast).trans (.single hpast)) le_rfl)
  | not body ih =>
    cases htold : body.headFailIn rules with
    | true =>
      obtain ⟨_, rfl, hlast, htest, hfail⟩ := placed_not_told htold hp
      rw [hlast] at hend ⊢
      exact (lands_headTest htest hend).trans (.single (.stop hfail rfl))
    | false =>
      obtain ⟨_, _, rfl, rfl, hlast, htest, hchoice, hcode, hfail⟩ := placed_not_pushed htold hp
      rw [hlast] at hend ⊢
      have hpast := Lands.stop hfail rfl
      exact (lands_headTest htest hend).trans (.cons (.stop hchoice rfl)
        ((ih hsettled hscope hback hstarts hcode hpast).trans (.single hpast)) le_rfl)
  | and body ih =>
    by_cases hfixed : ∃ length, body.fixedLengthIn rules = some length ∧
        body.hasActionsIn rules = false
    · obtain ⟨length, hlength, hacts⟩ := hfixed
      obtain ⟨hcode, hlast⟩ := placed_and_fixed hlength hacts hp
      split at hlast
      · rw [hlast] at hend ⊢
        exact ih hsettled hscope hback hstarts hcode hend
      · obtain ⟨hbehind, hlast⟩ := hlast
        have hpast := Lands.stop hbehind rfl
        rw [hlast]
        exact (ih hsettled hscope hback hstarts hcode hpast).trans (.single hpast)
    · obtain ⟨_, _, rfl, rfl, hlast, hchoice, hcode, hbehind, hfail⟩ :=
        placed_and_pushed (fun length hlength =>
          Bool.of_not_eq_false fun hacts => hfixed ⟨length, hlength, hacts⟩) hp
      have hpast := Lands.stop hbehind rfl
      rw [hlast]
      exact .cons (.stop hchoice rfl) ((ih hsettled hscope hback hstarts hcode hpast).trans
        (.cons hpast (.single (.stop hfail rfl)) le_rfl)) le_rfl
  | behind width body ih =>
    obtain ⟨_, hwidth, hcode, hlast⟩ := placed_behind hp
    rw [if_neg hback.1] at hwidth
    obtain ⟨hmove, rfl⟩ := hwidth
    rw [hlast] at hend ⊢
    exact .cons (.stop hmove rfl) (ih hsettled hscope hback.2 hstarts hcode hend) le_rfl
  | action a body ih =>
    obtain ⟨hopen, hcode, hclose, hlast⟩ := placed_action hp
    have hpast := Lands.stop hclose rfl
    rw [hlast]
    exact .cons (.stop hopen rfl)
      ((ih hsettled hscope hback hstarts hcode hpast).trans (.single hpast)) le_rfl
  | grammar inner ih =>
    obtain ⟨hcall, hjump, hcode, hlast⟩ := placed_grammar Segment.size_resolveCalls hp
    have hrules := (placed_of_resolveCalls hcode).imp fun _ _ h => h.headsFor
    have hin := lands_starts hsettled.1 hscope.2 hback hrules
    have hlength := length_starts_emitRules Segment.resolveCalls inner inner (base + 2) (base + 2)
    have hinner := landsFrom_emitRules (fun r hr _ => ih r hr (settledRules_iff.1 hsettled.2 r hr)
      (hlength ▸ inScopeRules_iff.1 hscope.2 r hr) (movesBackRules_iff.1 hback r hr) hin) hrules
    have hpast := Lands.jump hjump hend
    rw [hlast]
    exact .cons (.stop hcall rfl) (.cons hpast hinner le_rfl) le_rfl

/-- **From every address in the rules of a grammar jumps land**, if no grammar is left recursive. -/
theorem landsFrom_rules (hsettled : (grammar rules).settled)
    (hscope : inScopeRules rules.length rules) (hback : (grammar rules).movesBack)
    (hp : Placed code
      (HeadsFor code (Instr.starts base (emitRules Segment.resolveCalls rules rules base))) base
      (emitRules Segment.resolveCalls rules rules base).flatten) :
    LandsFrom (code[·]?) base
      (base + (emitRules Segment.resolveCalls rules rules base).flatten.length) := by
  have hin := lands_starts hsettled.1 hscope hback hp
  have hlength := length_starts_emitRules Segment.resolveCalls rules rules base base
  exact landsFrom_emitRules (fun r hr _ => landsFrom_emit (settledRules_iff.1 hsettled.2 r hr)
    (hlength ▸ inScopeRules_iff.1 hscope r hr) (movesBackRules_iff.1 hback r hr) hin) hp

end PegMachine
