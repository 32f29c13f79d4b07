import PegMachine.Proofs.Expr.Leading
import PegMachine.Proofs.Pattern

/-!
# The walk that looks for left recursion

Before a grammar is made, a walk goes through its rules along leading calls and objects when it
comes to a rule that it is in already.  On the way it keeps track of whether all that was matched so
far may have been empty.  `Told` says what it comes to believe, and the leading calls that the walk
finds are those behind what it believes to be empty.

* `checkLeftRecursion_eq_ok_iff` — rules are accepted if the calls that the walk finds do not go
  round in a circle.
* `blames_leftCalls_of_checkLeftRecursion` — a rule that is objected to is left recursive.
* `not_misled_of_flat` — it takes a grammar inside a rule for the walk to miss a call.
* `grammar_leftRecursiveRule` — what that means for making a grammar.

What the walk believes to be empty may be so, but not the other way round.  Inside a repetition or a
lookahead it takes for granted that all so far may be empty, and behind a grammar it asks again
whether the grammar may be empty, so that it takes a lookahead for a grammar which consumes
something to consume something as well.  `Misled` says that this happens at a place where the walk
then does not go on, and `accepts_leftRecursive` is a grammar that is made though its only rule
calls itself at once.
-/

set_option autoImplicit false

namespace PegMachine

open PegMachine.Expr Relation

variable {α : Type}

/-- If one of two steps fails, it is the first or the second. -/
theorem bind_eq_error {ε β γ : Type} {x : Except ε β} {f : β → Except ε γ} {err : ε}
    (h : x.bind f = .error err) : x = .error err ∨ ∃ b, x = .ok b ∧ f b = .error err := by
  cases x with
  | error e => cases h; exact .inl rfl
  | ok b => exact .inr ⟨b, rfl, h⟩

theorem ok_of_forM {ε β : Type} {f : β → Except ε Unit} {xs : List β} (h : xs.forM f = .ok ()) :
    ∀ x ∈ xs, f x = .ok () := by
  induction xs with
  | nil => exact fun x hx => (List.not_mem_nil hx).elim
  | cons x xs ih =>
    obtain ⟨⟨⟩, hx, hxs⟩ := bind_eq_ok h
    exact List.forall_mem_cons.2 ⟨hx, ih hxs⟩

theorem error_of_forM {ε β : Type} {f : β → Except ε Unit} {xs : List β} {err : ε}
    (h : xs.forM f = .error err) : ∃ x ∈ xs, f x = .error err := by
  induction xs with
  | nil => cases h
  | cons x xs ih =>
    rcases bind_eq_error h with hx | ⟨-, -, hxs⟩
    · exact ⟨x, List.mem_cons_self, hx⟩
    · obtain ⟨y, hy, herr⟩ := ih hxs
      exact ⟨y, List.mem_cons_of_mem _ hy, herr⟩

namespace Expr

/-! ## What the walk believes -/

/-- If all before the expression may have been empty when `idle` says so, the walk through the
expression says `next` of all up to behind it. -/
inductive Told (rules : List (Rule α)) : Expr α → Bool → Bool → Prop
  | char {c idle} : Told rules (.char c) idle idle
  | set {s idle} : Told rules (.set s) idle idle
  | any {idle} : Told rules .any idle idle
  | fail {idle} : Told rules .fail idle idle
  | openCall {i idle} : Told rules (.openCall i) idle idle
  | noRule {i idle} : rules[i]? = none → Told rules (.ruleCall i) idle idle
  | empty {idle} : Told rules .empty idle true
  | behind {width body idle} : Told rules (.behind width body) idle true
  | grammar {inner idle} : Told rules (.grammar inner) idle (nullableIn [] (.grammar inner))
  | ruleCall {i r idle next} : rules[i]? = some r → Told rules r.body idle next →
      Told rules (.ruleCall i) idle next
  | action {a body idle next} : Told rules body idle next → Told rules (.action a body) idle next
  | star {body idle next} : Told rules body true next → Told rules (.star body) idle next
  | not {body idle next} : Told rules body true next → Told rules (.not body) idle next
  | and {body idle next} : Told rules body true next → Told rules (.and body) idle next
  | seq_stop {e₁ e₂ idle} : Told rules e₁ false false → Told rules (.seq e₁ e₂) idle idle
  | seq_go {e₁ e₂ idle next} : Told rules e₁ false true → Told rules e₂ idle next →
      Told rules (.seq e₁ e₂) idle next
  | choice {e₁ e₂ idle mid next} : Told rules e₁ idle mid → Told rules e₂ mid next →
      Told rules (.choice e₁ e₂) idle next

/-- The walk believes that the expression may be empty. -/
def Passed (rules : List (Rule α)) (e : Expr α) : Prop := Told rules e false true

/-- The walk finds a call of rule `j` in rule `i`. -/
def FindsCall (rules : List (Rule α)) : Nat → Nat → Prop := LeadingCall (Passed rules) rules

/-- The walk comes to a sequence in one of the rules and does not go on behind the first part,
although the first part may be empty. -/
def Misled (rules : List (Rule α)) : Prop :=
  ∃ r ∈ rules, ∃ e₁ e₂, Leading (Passed rules) r.body (.seq e₁ e₂) ∧ Nullable rules e₁ ∧
    Told rules e₁ false false

variable {rules : List (Rule α)} {e part : Expr α} {path : List Nat} {idle next : Bool}
  {d : Nat} {call : Nat → List Nat → Bool → Except Error Bool}

theorem Told.unique {next' : Bool} (h : Told rules e idle next) (h' : Told rules e idle next') :
    next = next' := by
  induction h generalizing next' with
  | char | set | any | fail | openCall | empty | behind | grammar => cases h'; rfl
  | noRule hr =>
    cases h' with
    | noRule => rfl
    | ruleCall hr' => rw [hr] at hr'; cases hr'
  | ruleCall hr _ ih =>
    cases h' with
    | noRule hr' => rw [hr] at hr'; cases hr'
    | ruleCall hr' h' =>
      rw [hr] at hr'
      cases hr'
      exact ih h'
  | action _ ih => cases h' with | action h' => exact ih h'
  | star _ ih => cases h' with | star h' => exact ih h'
  | not _ ih => cases h' with | not h' => exact ih h'
  | and _ ih => cases h' with | and h' => exact ih h'
  | seq_stop _ ih =>
    cases h' with
    | seq_stop => rfl
    | seq_go h₁ => cases ih h₁
  | seq_go _ _ ih₁ ih₂ =>
    cases h' with
    | seq_stop h₁ => cases ih₁ h₁
    | seq_go _ h₂ => exact ih₂ h₂
  | choice _ _ ih₁ ih₂ =>
    cases h' with
    | choice h₁ h₂ =>
      obtain rfl := ih₁ h₁
      exact ih₂ h₂

/-- What the walk believes to be empty may be empty. -/
theorem Told.nullable (h : Told rules e idle next) (hrules : ∀ r ∈ rules, r.body.settled)
    (he : e.settled) (hnext : next = true) : idle = true ∨ Nullable rules e := by
  induction h with
  | char | set | any | fail | openCall | noRule => exact .inl hnext
  | empty => exact .inr .empty
  | behind => exact .inr .behind
  | grammar => exact .inr (nullable_of_nullableIn_grammar he hnext)
  | ruleCall hr _ ih =>
    exact (ih (hrules _ (List.mem_of_getElem? hr)) hnext).imp_right (.ruleCall hr)
  | action _ ih => exact (ih he hnext).imp_right .action
  | star => exact .inr .star
  | not => exact .inr .not
  | and => exact .inr .and
  | seq_stop => exact .inl hnext
  | seq_go _ _ ih₁ ih₂ =>
    have h₁ := (ih₁ he.1 rfl).resolve_left Bool.false_ne_true
    exact (ih₂ he.2 hnext).imp_right (.seq h₁)
  | choice _ _ ih₁ ih₂ =>
    rcases ih₂ he.2 hnext with hmid | h₂
    · exact (ih₁ he.1 hmid).imp_right .choice_first
    · exact .inr (.choice_second h₂)

theorem Passed.nullable (h : Passed rules e) (hrules : ∀ r ∈ rules, r.body.settled)
    (he : e.settled) : Nullable rules e :=
  (Told.nullable h hrules he rfl).resolve_left Bool.false_ne_true

/-- The calls that the walk finds are leading calls. -/
theorem Leading.of_passed (h : Leading (Passed rules) e part)
    (hrules : ∀ r ∈ rules, r.body.settled) (he : e.settled) : Leading (Nullable rules) e part := by
  induction h with
  | refl => exact .refl
  | action _ ih => exact .action (ih he)
  | star _ ih => exact .star (ih he)
  | not _ ih => exact .not (ih he)
  | and _ ih => exact .and (ih he)
  | choice_first _ ih => exact .choice_first (ih he.1)
  | choice_second _ ih => exact .choice_second (ih he.2)
  | seq_first _ ih => exact .seq_first (ih he.1)
  | seq_second h₁ _ ih => exact .seq_second (h₁.nullable hrules he.1) (ih he.2)

theorem FindsCall.leftCalls {i j : Nat} (h : FindsCall rules i j)
    (hrules : ∀ r ∈ rules, r.body.settled) : LeftCalls rules i j := by
  obtain ⟨r, hr, h⟩ := h
  exact ⟨r, hr, h.of_passed hrules (hrules r (List.mem_of_getElem? hr))⟩

/-! ## Where the walk goes -/

theorem told_of_leftWalk
    (hcall : ∀ j path idle next, call j path idle = .ok next → Told rules (.ruleCall j) idle next)
    (h : leftWalk call e path idle = .ok next) : Told rules e idle next := by
  induction e generalizing idle next with
  | char => cases h; exact .char
  | set => cases h; exact .set
  | any => cases h; exact .any
  | fail => cases h; exact .fail
  | openCall => cases h; exact .openCall
  | empty => cases h; exact .empty
  | behind => cases h; exact .behind
  | grammar => cases h; exact .grammar
  | ruleCall j => exact hcall j path idle next h
  | action _ _ ih => exact .action (ih h)
  | star _ ih => exact .star (ih h)
  | not _ ih => exact .not (ih h)
  | and _ ih => exact .and (ih h)
  | seq first second ih₁ ih₂ =>
    obtain ⟨mid, hfirst, h⟩ := bind_eq_ok h
    have h₁ := ih₁ hfirst
    cases mid with
    | false =>
      cases h
      exact .seq_stop h₁
    | true => exact .seq_go h₁ (ih₂ h)
  | choice first second ih₁ ih₂ =>
    obtain ⟨mid, hfirst, hsecond⟩ := bind_eq_ok h
    exact .choice (ih₁ hfirst) (ih₂ hsecond)

theorem told_of_leftCall {i : Nat} (h : leftCall rules d i path idle = .ok next) :
    Told rules (.ruleCall i) idle next := by
  induction d generalizing i path idle next with
  | zero =>
    rw [leftCall] at h
    split at h
    · next hr =>
      cases h
      exact .noRule hr
    · split at h <;> cases h
  | succ d ih =>
    rw [leftCall] at h
    split at h
    · next hr =>
      cases h
      exact .noRule hr
    · next r hr =>
      split at h
      · cases h
      · exact .ruleCall hr (told_of_leftWalk (fun _ _ _ _ => ih) h)

/-- A walk that ends well has been to every part that leads the expression. -/
theorem ok_of_leading (h : Leading (Passed rules) e part)
    (hcall : ∀ j path idle next, call j path idle = .ok next → Told rules (.ruleCall j) idle next)
    (hok : leftWalk call e path idle = .ok next) :
    ∃ idle' next', leftWalk call part path idle' = .ok next' := by
  induction h generalizing idle next with
  | refl => exact ⟨idle, next, hok⟩
  | action _ ih => exact ih hok
  | star _ ih => exact ih hok
  | not _ ih => exact ih hok
  | and _ ih => exact ih hok
  | choice_first _ ih =>
    obtain ⟨mid, hfirst, -⟩ := bind_eq_ok hok
    exact ih hfirst
  | choice_second _ ih =>
    obtain ⟨mid, -, hsecond⟩ := bind_eq_ok hok
    exact ih hsecond
  | seq_first _ ih =>
    obtain ⟨mid, hfirst, -⟩ := bind_eq_ok hok
    exact ih hfirst
  | seq_second hpassed _ ih =>
    obtain ⟨mid, hfirst, hok⟩ := bind_eq_ok hok
    obtain rfl := (told_of_leftWalk hcall hfirst).unique hpassed
    exact ih hok

/-- A walk into a rule ends well only if the way does not lead back into the rule. -/
theorem enters_of_leftCall {i : Nat} {r : Rule α} (hr : rules[i]? = some r)
    (h : leftCall rules d i path idle = .ok next) :
    i ∉ path ∧ ∃ d', leftWalk (leftCall rules d') r.body (i :: path) idle = .ok next := by
  cases d with
  | zero =>
    rw [leftCall, hr] at h
    dsimp only at h
    split at h <;> cases h
  | succ d =>
    rw [leftCall, hr] at h
    dsimp only at h
    split at h
    · cases h
    · next hnew => exact ⟨hnew, d, h⟩

/-- From a rule through which the walk ends well, the calls that it finds do not lead back. -/
theorem no_circle_of_ok {i : Nat} {r : Rule α} (hr : rules[i]? = some r)
    (hok : leftWalk (leftCall rules d) r.body [i] idle = .ok next) :
    ¬ TransGen (FindsCall rules) i i := by
  -- wherever the calls lead, the walk has been inside rule `i`, and it has ended well
  have hwalk : ∀ k, ReflTransGen (FindsCall rules) i k → ∀ r, rules[k]? = some r →
      ∃ d path idle next, i ∈ path ∧ leftWalk (leftCall rules d) r.body path idle = .ok next := by
    intro k hk
    induction hk with
    | refl =>
      intro r' hr'
      rw [hr] at hr'
      cases hr'
      exact ⟨d, [i], idle, next, List.mem_singleton_self i, hok⟩
    | tail _ hfinds ih =>
      intro r' hr'
      obtain ⟨r, hr, hlead⟩ := hfinds
      obtain ⟨d, path, idle, next, hmem, hok⟩ := ih r hr
      obtain ⟨idle', next', hcall⟩ := ok_of_leading hlead (fun _ _ _ _ => told_of_leftCall) hok
      obtain ⟨-, d', hok'⟩ := enters_of_leftCall hr' hcall
      exact ⟨d', _, idle', next', List.mem_cons_of_mem _ hmem, hok'⟩
  intro hcircle
  obtain ⟨k, hk, r', hr', hlead⟩ := TransGen.tail'_iff.1 hcircle
  obtain ⟨d, path, idle, next, hmem, hok⟩ := hwalk k hk r' hr'
  obtain ⟨idle', next', hcall⟩ := ok_of_leading hlead (fun _ _ _ _ => told_of_leftCall) hok
  exact (enters_of_leftCall hr hcall).1 hmem

/-! ## What the walk objects to -/

/-- The error is about a rule that calls lead back to. -/
def Blames (calls : Nat → Nat → Prop) (rules : List (Rule α)) (err : Error) : Prop :=
  ∃ i r, rules[i]? = some r ∧ err = .leftRecursiveRule r.name ∧ TransGen calls i i

/-- What the walk objects to on its way is a circle of calls that it finds. -/
theorem blames_of_leftWalk {err : Error} {i left : Nat}
    (htrail : Trail (FindsCall rules) rules.length i path left)
    (hcalls : ∀ j, Leading (Passed rules) e (.ruleCall j) → FindsCall rules i j)
    (h : leftWalk (leftCall rules left) e path idle = .error err) :
    Blames (FindsCall rules) rules err := by
  induction left generalizing i path e idle with
  | zero => exact absurd rfl htrail.left_ne_zero
  | succ left ihl =>
    induction e generalizing idle with
    | action _ _ ih => exact ih (fun j hj => hcalls j (.action hj)) h
    | star _ ih => exact ih (fun j hj => hcalls j (.star hj)) h
    | not _ ih => exact ih (fun j hj => hcalls j (.not hj)) h
    | and _ ih => exact ih (fun j hj => hcalls j (.and hj)) h
    | choice first second ih₁ ih₂ =>
      rcases bind_eq_error h with h | ⟨mid, -, h⟩
      · exact ih₁ (fun j hj => hcalls j (.choice_first hj)) h
      · exact ih₂ (fun j hj => hcalls j (.choice_second hj)) h
    | seq first second ih₁ ih₂ =>
      rcases bind_eq_error h with h | ⟨mid, hfirst, h⟩
      · exact ih₁ (fun j hj => hcalls j (.seq_first hj)) h
      · cases mid with
        | false => cases h
        | true =>
          have hpassed := told_of_leftWalk (fun _ _ _ _ => told_of_leftCall) hfirst
          exact ih₂ (fun j hj => hcalls j (.seq_second hpassed hj)) h
    | ruleCall j =>
      have hfinds := hcalls j .refl
      rw [leftWalk, leftCall] at h
      split at h
      · cases h
      · next r hr =>
        split at h
        · next hmem =>
          cases h
          exact ⟨j, r, hr, rfl, htrail.circle hfinds hmem⟩
        · next hnew =>
          have hj := (List.getElem?_eq_some_iff.1 hr).1
          exact ihl (htrail.step hfinds hj hnew) (fun k hk => ⟨r, hr, hk⟩) h
    | _ => cases h

theorem ok_of_checkLeftRecursion (h : checkLeftRecursion rules = .ok ()) {i : Nat} {r : Rule α}
    (hr : rules[i]? = some r) :
    ∃ next, leftWalk (leftCall rules rules.length) r.body [i] false = .ok next := by
  have hi := ok_of_forM h i (List.mem_range.2 (List.getElem?_eq_some_iff.1 hr).1)
  simp only [hr] at hi
  cases hwalk : leftWalk (leftCall rules rules.length) r.body [i] false with
  | error err => rw [hwalk] at hi; cases hi
  | ok next => exact ⟨next, rfl⟩

theorem blames_of_checkLeftRecursion {err : Error} (h : checkLeftRecursion rules = .error err) :
    Blames (FindsCall rules) rules err := by
  obtain ⟨i, hi, h⟩ := error_of_forM h
  cases hr : rules[i]? with
  | none => rw [hr] at h; cases h
  | some r =>
    simp only [hr] at h
    cases hwalk : leftWalk (leftCall rules rules.length) r.body [i] false with
    | error err' =>
      rw [hwalk] at h
      cases h
      exact blames_of_leftWalk (.start (List.mem_range.1 hi)) (fun j hj => ⟨r, hr, hj⟩) hwalk
    | ok next => rw [hwalk] at h; cases h

/-- **The walk accepts the rules in which the calls that it finds do not go round in a circle.** -/
theorem checkLeftRecursion_eq_ok_iff :
    checkLeftRecursion rules = .ok () ↔ ¬ ∃ i, TransGen (FindsCall rules) i i := by
  constructor
  · rintro h ⟨i, hcircle⟩
    obtain ⟨j, ⟨r, hr, -⟩, -⟩ := TransGen.head'_iff.1 hcircle
    obtain ⟨next, hok⟩ := ok_of_checkLeftRecursion h hr
    exact no_circle_of_ok hr hok hcircle
  · intro h
    cases hcheck : checkLeftRecursion rules with
    | error err =>
      obtain ⟨i, -, -, -, hcircle⟩ := blames_of_checkLeftRecursion hcheck
      exact absurd ⟨i, hcircle⟩ h
    | ok => rfl

/-- The walk objects to a rule if the calls that it finds go round in a circle. -/
theorem exists_leftRecursiveRule_iff :
    (∃ name, checkLeftRecursion rules = .error (.leftRecursiveRule name))
      ↔ ∃ i, TransGen (FindsCall rules) i i := by
  constructor
  · rintro ⟨name, h⟩
    obtain ⟨i, -, -, -, hcircle⟩ := blames_of_checkLeftRecursion h
    exact ⟨i, hcircle⟩
  · intro hcircle
    cases hcheck : checkLeftRecursion rules with
    | error err =>
      obtain ⟨i, r, -, rfl, -⟩ := blames_of_checkLeftRecursion hcheck
      exact ⟨r.name, rfl⟩
    | ok => exact absurd hcircle (checkLeftRecursion_eq_ok_iff.1 hcheck)

/-! ## What it misses -/

/-- Where the walk has ended well and was not misled, it has found all leading calls. -/
theorem Leading.passed_of_ok (h : Leading (Nullable rules) e part)
    (hok : leftWalk (leftCall rules d) e path idle = .ok next)
    (hmisled : ∀ e₁ e₂, Leading (Passed rules) e (.seq e₁ e₂) → Nullable rules e₁ →
      ¬ Told rules e₁ false false) : Leading (Passed rules) e part := by
  induction h generalizing idle next with
  | refl => exact .refl
  | action _ ih => exact .action (ih hok fun _ _ hlead => hmisled _ _ (.action hlead))
  | star _ ih => exact .star (ih hok fun _ _ hlead => hmisled _ _ (.star hlead))
  | not _ ih => exact .not (ih hok fun _ _ hlead => hmisled _ _ (.not hlead))
  | and _ ih => exact .and (ih hok fun _ _ hlead => hmisled _ _ (.and hlead))
  | choice_first _ ih =>
    obtain ⟨mid, hfirst, -⟩ := bind_eq_ok hok
    exact .choice_first (ih hfirst fun _ _ hlead => hmisled _ _ (.choice_first hlead))
  | choice_second _ ih =>
    obtain ⟨mid, -, hsecond⟩ := bind_eq_ok hok
    exact .choice_second (ih hsecond fun _ _ hlead => hmisled _ _ (.choice_second hlead))
  | seq_first _ ih =>
    obtain ⟨mid, hfirst, -⟩ := bind_eq_ok hok
    exact .seq_first (ih hfirst fun _ _ hlead => hmisled _ _ (.seq_first hlead))
  | seq_second hnull _ ih =>
    obtain ⟨mid, hfirst, hok⟩ := bind_eq_ok hok
    have htold := told_of_leftWalk (fun _ _ _ _ => told_of_leftCall) hfirst
    cases mid with
    | false => exact absurd htold (hmisled _ _ .refl hnull)
    | true =>
      exact .seq_second htold (ih hok fun _ _ hlead => hmisled _ _ (.seq_second htold hlead))

/-- What is left recursive does not get past a walk that is not misled. -/
theorem not_leftRecursive_of_checkLeftRecursion (h : checkLeftRecursion rules = .ok ())
    (hmisled : ¬ Misled rules) : ¬ LeftRecursive rules := by
  rintro ⟨i, hcircle⟩
  refine checkLeftRecursion_eq_ok_iff.1 h ⟨i, TransGen.mono ?_ i i hcircle⟩
  rintro j k ⟨r, hr, hlead⟩
  obtain ⟨next, hok⟩ := ok_of_checkLeftRecursion h hr
  refine ⟨r, hr, hlead.passed_of_ok hok fun e₁ e₂ hseq hnull htold => hmisled ?_⟩
  exact ⟨r, List.mem_of_getElem? hr, e₁, e₂, hseq, hnull, htold⟩

/-- A rule that the walk objects to is left recursive. -/
theorem blames_leftCalls_of_checkLeftRecursion {err : Error}
    (h : checkLeftRecursion rules = .error err) (hsettled : settledRules rules) :
    Blames (LeftCalls rules) rules err := by
  obtain ⟨i, r, hr, herr, hcircle⟩ := blames_of_checkLeftRecursion h
  rw [settledRules_iff] at hsettled
  have hcalls : FindsCall rules ≤ LeftCalls rules := fun j k hfinds => hfinds.leftCalls hsettled
  exact ⟨i, r, hr, herr, TransGen.mono hcalls i i hcircle⟩

/-- Unless it is misled, the walk objects to just the left recursive rules. -/
theorem exists_leftRecursiveRule_iff_leftRecursive (hsettled : settledRules rules)
    (hmisled : ¬ Misled rules) :
    (∃ name, checkLeftRecursion rules = .error (.leftRecursiveRule name)) ↔ LeftRecursive rules := by
  constructor
  · rintro ⟨name, h⟩
    obtain ⟨i, -, -, -, hcircle⟩ := blames_leftCalls_of_checkLeftRecursion h hsettled
    exact ⟨i, hcircle⟩
  · intro hrec
    rw [exists_leftRecursiveRule_iff]
    by_contra hno
    exact not_leftRecursive_of_checkLeftRecursion (checkLeftRecursion_eq_ok_iff.2 hno) hmisled hrec

/-- No grammar stands in the expression. -/
def flat : Expr α → Bool
  | seq first second => flat first && flat second
  | choice first second => flat first && flat second
  | star body => flat body
  | not body => flat body
  | and body => flat body
  | behind _ body => flat body
  | action _ body => flat body
  | grammar _ => false
  | char _ => true
  | set _ => true
  | any => true
  | empty => true
  | fail => true
  | openCall _ => true
  | ruleCall _ => true

theorem settled_of_flat {e : Expr α} (h : e.flat = true) : e.settled := by
  induction e with
  | seq first second ih₁ ih₂ | choice first second ih₁ ih₂ =>
    rw [flat, Bool.and_eq_true] at h
    exact ⟨ih₁ h.1, ih₂ h.2⟩
  | star body ih | not body ih | and body ih | behind width body ih | action a body ih =>
    have hbody : settled body := ih h
    exact hbody
  | grammar => cases h
  | _ => trivial

theorem Leading.flat {p : Expr α → Prop} (h : Leading p e part) (he : e.flat = true) :
    part.flat = true := by
  induction h with
  | refl => exact he
  | action _ ih => exact ih he
  | star _ ih => exact ih he
  | not _ ih => exact ih he
  | and _ ih => exact ih he
  | choice_first _ ih => exact ih (Bool.and_eq_true_iff.1 he).1
  | choice_second _ ih => exact ih (Bool.and_eq_true_iff.1 he).2
  | seq_first _ ih => exact ih (Bool.and_eq_true_iff.1 he).1
  | seq_second _ _ ih => exact ih (Bool.and_eq_true_iff.1 he).2

/-- Without grammars in the rules, the walk believes of all that may be empty that it may be. -/
theorem Told.eq_true_of_flat (h : Told rules e idle next) (hrules : ∀ r ∈ rules, r.body.flat = true)
    (he : e.flat = true) (hnull : idle = true ∨ Nullable rules e) : next = true := by
  induction h with
  | char | set | any | fail | openCall => exact hnull.resolve_right (by rintro ⟨⟩)
  | noRule hr =>
    refine hnull.resolve_right fun hcall => ?_
    cases hcall with
    | ruleCall hr' => rw [hr] at hr'; cases hr'
  | empty | behind => rfl
  | grammar => cases he
  | ruleCall hr _ ih =>
    refine ih (hrules _ (List.mem_of_getElem? hr)) (hnull.imp_right fun hcall => ?_)
    cases hcall with
    | ruleCall hr' hbody =>
      rw [hr] at hr'
      cases hr'
      exact hbody
  | action _ ih =>
    refine ih he (hnull.imp_right fun haction => ?_)
    cases haction with
    | action hbody => exact hbody
  | star _ ih | not _ ih | and _ ih => exact ih he (.inl rfl)
  | seq_stop _ ih =>
    rw [flat, Bool.and_eq_true] at he
    refine hnull.resolve_right fun hseq => ?_
    cases hseq with
    | seq h₁ _ => cases ih he.1 (.inr h₁)
  | seq_go _ _ _ ih =>
    rw [flat, Bool.and_eq_true] at he
    refine ih he.2 (hnull.imp_right fun hseq => ?_)
    cases hseq with
    | seq _ h₂ => exact h₂
  | choice _ _ ih₁ ih₂ =>
    rw [flat, Bool.and_eq_true] at he
    refine ih₂ he.2 ?_
    rcases hnull with hidle | hchoice
    · exact .inl (ih₁ he.1 (.inl hidle))
    · cases hchoice with
      | choice_first h₁ => exact .inl (ih₁ he.1 (.inr h₁))
      | choice_second h₂ => exact .inr h₂

/-- It takes a grammar in a rule to mislead the walk. -/
theorem not_misled_of_flat (hrules : ∀ r ∈ rules, r.body.flat = true) : ¬ Misled rules := by
  rintro ⟨r, hr, e₁, e₂, hlead, hnull, htold⟩
  have hflat := hlead.flat (hrules r hr)
  rw [flat, Bool.and_eq_true] at hflat
  cases htold.eq_true_of_flat hrules hflat.1 (.inr hnull)

/-! ## Making a grammar -/

theorem checkNames_eq_ok {seen names : List String} (hempty : "" ∉ names) (hnodup : names.Nodup)
    (hseen : ∀ name ∈ names, name ∉ seen) : checkNames seen names = .ok () := by
  induction names generalizing seen with
  | nil => rfl
  | cons name rest ih =>
    rw [List.mem_cons, not_or] at hempty
    rw [List.nodup_cons] at hnodup
    rw [List.forall_mem_cons] at hseen
    rw [checkNames, if_neg (Ne.symm hempty.1), if_neg hseen.1]
    refine ih hempty.2 hnodup.2 fun n hn hmem => ?_
    rcases List.mem_cons.1 hmem with rfl | hmem
    · exact hnodup.1 hn
    · exact hseen.2 n hn hmem

theorem checkEmptyLoops_ne_leftRecursiveRule (name : String) :
    checkEmptyLoops rules ≠ .error (.leftRecursiveRule name) := by
  intro h
  rw [checkEmptyLoops] at h
  split at h <;> cases h

section InOrder

variable {named : List (String × List String × Expr α)} {names : List String}
  (hnames : named.map (·.1) = names) (hne : named ≠ []) (hmax : named.length ≤ maxRules)
  (hempty : "" ∉ names) (hnodup : names.Nodup)
include hnames hne hmax hempty hnodup

/-- When the number and the names of the rules are in order, their calls are bound, and then the
rules are checked. -/
theorem ofRules_eq : ofRules named = (resolveRules names named).bind fun bound =>
    (checkLeftRecursion bound).bind fun _ => (checkEmptyLoops bound).bind fun _ =>
      .ok (grammar bound) := by
  have hcheck : checkNames [] names = .ok () :=
    checkNames_eq_ok hempty hnodup fun _ _ => List.not_mem_nil
  rw [ofRules, if_neg hne, if_neg (Nat.not_lt.2 hmax), hnames]
  dsimp only
  rw [hcheck]
  rfl

/-- When all calls are bound, the walk decides. -/
theorem ofRules_leftRecursiveRule_iff (hbound : resolveRules names named = .ok rules)
    (name : String) :
    ofRules named = .error (.leftRecursiveRule name)
      ↔ checkLeftRecursion rules = .error (.leftRecursiveRule name) := by
  rw [ofRules_eq hnames hne hmax hempty hnodup, hbound]
  change (checkLeftRecursion rules).bind _ = _ ↔ _
  constructor
  · intro h
    rcases bind_eq_error h with h | ⟨-, -, h⟩
    · exact h
    · rcases bind_eq_error h with h | ⟨-, -, h⟩
      · exact absurd h (checkEmptyLoops_ne_leftRecursiveRule name)
      · cases h
  · intro h
    rw [h]
    rfl

end InOrder

end Expr

namespace Pattern

variable {rules : List (String × Pattern α)} {bound : List (Rule α)}

/-- **Making a grammar fails on the left recursive rules**, as far as the walk is not misled: it
fails if the calls that the walk finds go round in a circle. -/
theorem grammar_leftRecursiveRule (hne : rules ≠ []) (hmax : rules.length ≤ maxRules)
    (hempty : "" ∉ rules.map (·.1)) (hnodup : (rules.map (·.1)).Nodup)
    (hbound : resolveRules (rules.map (·.1)) (rules.map fun (name, p) => (name, p.refs, p.root))
      = .ok bound) :
    ((∃ name, grammar rules = .error (.leftRecursiveRule name))
        ↔ ∃ i, TransGen (FindsCall bound) i i) ∧
      (settledRules bound → ¬ Misled bound →
        ((∃ name, grammar rules = .error (.leftRecursiveRule name)) ↔ LeftRecursive bound)) := by
  have hnames : (rules.map fun (name, p) => (name, p.refs, p.root)).map (·.1)
      = rules.map (·.1) := by
    rw [List.map_map]
    rfl
  have hgrammar : grammar rules
      = (ofRules (rules.map fun (name, p) => (name, p.refs, p.root))).bind fun e => .ok ⟨e, []⟩ :=
    rfl
  have hiff : ∀ name, grammar rules = .error (.leftRecursiveRule name)
      ↔ checkLeftRecursion bound = .error (.leftRecursiveRule name) := by
    intro name
    rw [← ofRules_leftRecursiveRule_iff hnames (by simpa using hne) (by simpa using hmax) hempty
      hnodup hbound, hgrammar]
    constructor
    · intro h
      rcases bind_eq_error h with h | ⟨_, -, h⟩
      · exact h
      · cases h
    · intro h
      rw [h]
      rfl
  simp only [hiff]
  exact ⟨exists_leftRecursiveRule_iff, exists_leftRecursiveRule_iff_leftRecursive⟩

/-- Two rules, of which the first calls the second behind a lookahead. -/
theorem grammar_leftRecursiveRule_lookahead :
    let calls : String → Pattern Unit := fun name => ⟨.openCall 0, [name]⟩
    ∃ name, grammar [("r", seq (test (char 'a')) (calls "s")), ("s", choice (calls "r") (char 'b'))]
      = .error (.leftRecursiveRule name) := by
  intro calls
  let bound : List (Rule Unit) :=
    [⟨"r", .seq (.and (.char 'a')) (.ruleCall 1)⟩, ⟨"s", .choice (.ruleCall 0) (.char 'b')⟩]
  have hflat : ∀ r ∈ bound, r.body.flat = true := by decide
  have hsettled : settledRules bound := settledRules_iff.2 fun r hr => settled_of_flat (hflat r hr)
  have hfirst : LeftCalls bound 0 1 := ⟨_, rfl, .seq_second .and .refl⟩
  have hsecond : LeftCalls bound 1 0 := ⟨_, rfl, .choice_first .refl⟩
  exact ((grammar_leftRecursiveRule (by simp) (by decide) (by decide) (by decide) rfl).2 hsettled
    (not_misled_of_flat hflat)).2 ⟨0, .tail (.single hfirst) hsecond⟩

/-- **A grammar whose only rule calls itself at once.**  The lookahead before the call consumes
nothing, but what it looks for is a grammar, and the walk takes that to be consumed. -/
theorem accepts_leftRecursive :
    let inner : Pattern Unit := ⟨.grammar [⟨"g", .char 'a'⟩], []⟩
    let call : Pattern Unit := ⟨.openCall 0, ["r"]⟩
    let rule : Rule Unit := ⟨"r", .seq (.and inner.root) (.ruleCall 0)⟩
    grammar [("g", char 'a')] = .ok inner ∧ ref "r" = .ok call ∧
      resolveRules ["r"] [("r", ["r"], (seq inner.test call).root)] = .ok [rule] ∧
      settledRules [rule] ∧ LeftRecursive [rule] ∧
      grammar [("r", seq inner.test call)] = .ok ⟨.grammar [rule], []⟩ := by
  intro inner call rule
  have hcalls : LeftCalls [rule] 0 0 := ⟨rule, rfl, .seq_second .and .refl⟩
  have hinner : ¬ LeftRecursive [(⟨"g", .char 'a'⟩ : Rule Unit)] := by
    rintro ⟨i, hcircle⟩
    obtain ⟨j, ⟨r, hr, hlead⟩, -⟩ := TransGen.head'_iff.1 hcircle
    obtain rfl : r = ⟨"g", .char 'a'⟩ := by simpa using List.mem_of_getElem? hr
    cases hlead
  have hsettled : settledRules [rule] := ⟨⟨⟨hinner, trivial, trivial⟩, trivial⟩, trivial⟩
  exact ⟨rfl, rfl, rfl, hsettled, ⟨0, .single hcalls⟩, rfl⟩

end Pattern
end PegMachine
