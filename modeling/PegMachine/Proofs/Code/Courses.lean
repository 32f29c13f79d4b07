import PegMachine.Proofs.Code.TailCalls
import PegMachine.Proofs.Expr.Ways
import PegMachine.Proofs.Machine.Aims

/-!
# What the plain code of an expression comes to

The plain code of an expression, run at a position, ends where a way through the expression leads,
or fails, whatever the next character tells and whatever the actions answer.  So for an aim to hold
where the code starts it is enough that it holds where the code leads to.  `Exits` is what has to be
known of that, and `Carries` says that it is enough, if the next character is as it has been tested
for.

Code that may move up the frame on top may leave by that frame, from any place on the way.  What it
leaves on top, when it goes on behind, is a frame that leads to the same address from such a place
(`Moves`).

There is one lemma `carries_…` for each kind of expression.  It takes the same of the parts, from
the positions that ways lead to; and behind a jump back and behind a call, what has to be known of
the code there is only as much as is asked for after a step (`Aim.Precedes`).
-/

set_option autoImplicit false

namespace PegMachine

open PegMachine.Expr State Machine

variable {α σ : Type}

/-! ## Plain code in its place -/

/-- In the place of an open call stands a call of the rule, where the rules are at the addresses
`starts`. -/
def PlainCalls (code : Array (Instr α)) (starts : List Nat) (addr i : Nat) : Prop :=
  ∀ t, starts[i]? = some t → code[addr]? = some (.call t)

/-- Plain calls of a grammar are in their places. -/
theorem placed_of_callRules {code : Array (Instr α)} {call : Nat → Nat → Prop} {starts : List Nat}
    {base : Nat} {instrs : List (Instr α)}
    (h : Placed code call base (Segment.callRules starts ⟨base, instrs.toArray⟩).code.toList) :
    Placed code (PlainCalls code starts) base instrs := by
  intro k instr hk
  have hget : (Segment.callRules starts ⟨base, instrs.toArray⟩).code.toList[k]?
      = some (instr.bindCall starts) := by
    simp [Segment.callRules, hk]
  have hholds := h k _ hget
  refine holds_of_eq (fun hi => ?_) fun i hi t ht => ?_
  · rw [keepsInstrs_bindCall starts instr hi] at hholds
    exact hholds.eq hi
  · rw [hi, Instr.bindCall, ht] at hholds
    exact hholds

/-- The rules of the enclosing grammar, and where they are in the code. -/
structure Scene.Hosts (C : Scene α σ) (rules : List (Rule α)) (starts : List Nat) : Prop where
  placed : RulesPlaced Segment.callRules C.code (PlainCalls C.code starts) rules starts
  fitted : fittedRules rules
  inScope : inScopeRules rules.length rules

/-- The positions and actions that ways through the expression lead to. -/
abbrev Scene.Leads (C : Scene α σ) (rules : List (Rule α)) (e : Expr α) (p q : Nat)
    (fs : List (Firing α)) : Prop :=
  Way C.subject C.start rules e p q fs

theorem Scene.Inside.way {C : Scene α σ} {rules : List (Rule α)} {e : Expr α} {p q : Nat}
    {fs : List (Firing α)} (hp : C.Inside p) (hw : C.Leads rules e p q fs)
    (hr : fittedRules rules) (he : e.fitted) : C.Inside q :=
  ⟨Nat.le_trans hp.start_le (hw.le hr he), hw.le_size hp.le_size⟩

namespace Aim

variable {C : Scene α σ} {A A' : Aim C} {s : State α σ} {rules : List (Rule α)}
  {starts : List Nat} {e e₁ e₂ : Expr α} {reuse : Bool} {fin resume p q : Nat}
  {fs : List (Firing α)} {way way' : Nat → List (Firing α) → Prop}

/-! ## Where code leads to -/

/-- What is known of the state under a frame that may be moved up: leaving for `resume` is good from
all places on the way; and so is going on behind the code at `fin`, with the frame moved up to any
place on the way there. -/
structure Moves (A : Aim C) (resume fin : Nat) (way : Nat → List (Firing α) → Prop)
    (s : State α σ) : Prop where
  kept : C.Kept s
  leave : ∀ q fs, way q fs → A.Good s resume q fs
  back : ∀ m q fs gs, way m fs → way q (fs ++ gs) →
    A.Good ((s.reach fin m fs).push resume (some m)) fin q gs

/-- What is known of where code leads to that ends at `fin`: failing is good, and so is going on
behind the code, wherever on the way; and if the frame on top may be moved up, there is one. -/
structure Exits (A : Aim C) (reuse : Bool) (fin : Nat) (way : Nat → List (Firing α) → Prop)
    (s : State α σ) : Prop where
  kept : C.Kept s
  fails : A.Fails s
  onward : ∀ q fs, way q fs → A.Good s fin q fs
  moves : reuse = true →
    ∃ s₀ f, s = State.under s₀ f ∧ f.pos ≠ none ∧ A.Moves f.resume fin way s₀

/-- From the address on the code is good at the position, if it is where it leads to. -/
def Runs (A : Aim C) (reuse : Bool) (base fin p : Nat) (way : Nat → List (Firing α) → Prop) :
    Prop :=
  ∀ s, A.Exits reuse fin way s → A.Good s base p []

/-- The plain code of the expression is good at the position, if it is where ways through the
expression lead to, and the next character is as it has been tested for. -/
def Carries (A : Aim C) (rules : List (Rule α)) (starts : List Nat) (e : Expr α) (p : Nat) : Prop :=
  C.Inside p → ∀ reuse guard follow base, Established guard C.subject p →
    Placed C.code (PlainCalls C.code starts) base
      (e.emit Segment.callRules rules reuse guard follow base) →
    A.Runs reuse base (e.emitEnd Segment.callRules rules reuse guard follow base) p
      (C.Leads rules e p)

/-- The code for the rounds of a repetition that keeps a frame is good, once that frame is on top,
if it is good where the frame leads to. -/
def Rounds (A : Aim C) (rules : List (Rule α)) (starts : List Nat) (e : Expr α) (p : Nat) : Prop :=
  C.Inside p → ∀ first,
    Placed C.code (PlainCalls C.code starts) first
      (e.emit Segment.callRules rules false none .full first) →
    C.code[e.emitEnd Segment.callRules rules false none .full first]?
      = some (.partialCommit first) →
    ∀ s resume, C.Kept s → (∀ q fs, C.Leads rules (star e) p q fs → A.Good s resume q fs) →
      A.Good (s.push resume (some p)) first p []

/-- It does not matter at which address and position a frame is pushed. -/
theorem good_push_reach {i t m a : Nat} {at? : Option Nat} :
    A.Good ((s.reach i m []).push t at?) a q fs ↔ A.Good (s.push t at?) a q fs := by
  simp only [Good, State.holding, State.reach, State.push, List.map_nil, Array.append_empty]

namespace Moves

theorem mono (h : A.Moves resume fin way s) (hw : ∀ q fs, way' q fs → way q fs) :
    A.Moves resume fin way' s where
  kept := h.kept
  leave q fs hq := h.leave q fs (hw q fs hq)
  back m q fs gs hm hq := h.back m q fs gs (hw m fs hm) (hw q _ hq)

theorem reach (h : A.Moves resume fin way s) (b m : Nat) (fs : List (Firing α)) :
    A.Moves resume fin (fun q gs => way q (fs ++ gs)) (s.reach b m fs) where
  kept := h.kept.reach b m fs
  leave q gs hq := (h.leave q _ hq).reach
  back n q gs gs' hn hq := by
    rw [reach_reach]
    exact h.back n q (fs ++ gs) gs' hn (by rwa [List.append_assoc])

theorem of_precedes (h : A.Moves resume fin way s) (hA : A.Precedes A') :
    A'.Moves resume fin way s where
  kept := h.kept
  leave q fs hq := hA.Good (h.leave q fs hq)
  back m q fs gs hm hq := hA.Good (h.back m q fs gs hm hq)

/-- What is known of where code leads to with the frame moved up. -/
theorem exits (h : A.Moves resume fin way s) {m : Nat} (hm : way m []) :
    A.Exits true fin way (s.push resume (some m)) where
  kept := h.kept.push _ _
  fails := fails_push h.kept (h.leave m [] hm).later
  onward q fs hq := good_push_reach.1 (h.back m q [] fs hm hq)
  moves _ := ⟨s, _, rfl, by simp, h⟩

end Moves

namespace Exits

theorem mono (h : A.Exits reuse fin way s) (hw : ∀ q fs, way' q fs → way q fs) :
    A.Exits reuse fin way' s where
  kept := h.kept
  fails := h.fails
  onward q fs hq := h.onward q fs (hw q fs hq)
  moves hr := by
    obtain ⟨s₀, f, hs, hf, hmoves⟩ := h.moves hr
    exact ⟨s₀, f, hs, hf, hmoves.mono hw⟩

/-- What comes after a sequence comes after its second part. -/
theorem reach (h : A.Exits reuse fin way s) (b m : Nat) (fs : List (Firing α)) :
    A.Exits reuse fin (fun q gs => way q (fs ++ gs)) (s.reach b m fs) where
  kept := h.kept.reach b m fs
  fails := h.fails.reach h.kept
  onward q gs hq := (h.onward q _ hq).reach
  moves hr := by
    obtain ⟨s₀, f, rfl, hf, hmoves⟩ := h.moves hr
    exact ⟨s₀.reach b m fs, f, rfl, hf, hmoves.reach b m fs⟩

theorem of_precedes (h : A.Exits reuse fin way s) (hA : A.Precedes A') :
    A'.Exits reuse fin way s where
  kept := h.kept
  fails := hA.Fails h.fails
  onward q fs hq := hA.Good (h.onward q fs hq)
  moves hr := by
    obtain ⟨s₀, f, hs, hf, hmoves⟩ := h.moves hr
    exact ⟨s₀, f, hs, hf, hmoves.of_precedes hA⟩

/-- If no frame may be moved up, it is enough to know how to fail and to go on. -/
theorem plain (hs : C.Kept s) (hfails : A.Fails s)
    (honward : ∀ q fs, way q fs → A.Good s fin q fs) : A.Exits false fin way s where
  kept := hs
  fails := hfails
  onward := honward
  moves h := by cases h

end Exits

/-! ## Tests -/

variable {guard : Option Guard} {follow : CharSet} {base : Nat}

/-- A test goes on one way or the other, and on only if the next character is in the set. -/
theorem good_forTest {set : CharSet} {a t : Nat} (hs : C.Kept s) (hq : C.Inside q)
    (hi : C.code[a]? = some (.forTest set t))
    (h : Established (Guard.ofSet set) C.subject q → A.Good s (a + 1) q fs)
    (hother : A.Good s t q fs) : A.Good s a q fs := by
  refine good_test hs hq hi (fun _ => ?_) (fun s => Instr.exec_forTest _ _ set t _ s)
    (fun c hc hset => h (established_ofSet hc hset)) hother
  rw [Instr.forTest]
  split <;> trivial

/-- So does the test for a head, which is not there if the head does not need a character. -/
theorem good_headTest {call : Nat → Nat → Prop} {h : Head} {a t : Nat} (hs : C.Kept s)
    (hq : C.Inside q) (hp : Placed C.code call a (Instr.headTest h t))
    (hgood : Established h.guard C.subject q → A.Good s (a + h.testLength) q fs)
    (hother : A.Good s t q fs) : A.Good s a q fs := by
  rw [Head.testLength, Head.guard] at hgood
  rw [Instr.headTest] at hp
  split at hgood
  · next hneeds =>
    rw [if_pos hneeds] at hp
    exact good_forTest hs hq ((placed_cons.1 hp).1.eq (Instr.forTest_ne_openCall h.chars t)) hgood
      hother
  · exact hgood (established_none _ q)

/-! ## Expressions without parts -/

/-- The instruction for a class consumes some characters and fails on the others, and takes nothing
for granted but what has been tested. -/
theorem exists_emit_of_class? {set : CharSet} (h : e.class? = some set) :
    ∃ (instr : Instr α) (want : Char → Bool),
      e.emit Segment.callRules rules reuse guard follow base = [instr] ∧
      (∀ i, instr ≠ .openCall i) ∧
      (∀ s : State α σ, Established guard C.subject s.pos → C.Allows s instr) ∧
      ∀ s : State α σ, exec C.acts C.subject C.start instr s = consumeIf want C.subject s := by
  have htested : ∀ g, guard = some g → ∀ s : State α σ, Established guard C.subject s.pos →
      C.Allows s (.tested g) := by
    rintro g rfl s hs
    exact hs
  have hchar : ∀ c, ∃ want : Char → Bool,
      (∀ s : State α σ, Established guard C.subject s.pos → C.Allows s (.forChar c guard)) ∧
      ∀ s : State α σ,
        exec C.acts C.subject C.start (.forChar c guard) s = consumeIf want C.subject s := by
    intro c
    rw [Instr.forChar]
    split
    · next hguard => exact ⟨_, htested _ hguard, fun _ => rfl⟩
    · exact ⟨_, fun _ _ => trivial, fun _ => rfl⟩
  have hset : ∃ want : Char → Bool,
      (∀ s : State α σ, Established guard C.subject s.pos → C.Allows s (.forSet set guard)) ∧
      ∀ s : State α σ,
        exec C.acts C.subject C.start (.forSet set guard) s = consumeIf want C.subject s := by
    rw [Instr.forSet]
    split
    · exact ⟨fun _ => false, fun _ _ => trivial, fun s => (consumeIf_false C.subject s).symm⟩
    · exact ⟨_, fun _ _ => trivial, fun _ => rfl⟩
    · exact hchar _
    · split
      · next hguard => exact ⟨_, htested _ hguard, fun _ => rfl⟩
      · exact ⟨_, fun _ _ => trivial, fun _ => rfl⟩
  rcases Expr.class?_eq_some h with ⟨c, rfl, rfl⟩ | rfl | ⟨rfl, rfl⟩
  · obtain ⟨want, hallow, hexec⟩ := hchar c
    exact ⟨_, want, by rw [emit], Instr.forChar_ne_openCall c guard, hallow, hexec⟩
  · obtain ⟨want, hallow, hexec⟩ := hset
    exact ⟨_, want, by rw [emit], Instr.forSet_ne_openCall set guard, hallow, hexec⟩
  · exact ⟨.any, fun _ => true, by rw [emit], by simp, fun _ _ => trivial, fun _ => rfl⟩

theorem carries_class {set : CharSet} (he : e.class? = some set) : A.Carries rules starts e p := by
  intro hp reuse guard follow base hguard hplaced s hs
  obtain ⟨instr, want, hemit, hopen, hallow, hexec⟩ := exists_emit_of_class? (C := C) he
  rw [hemit] at hplaced
  rw [emitEnd, hemit] at hs
  exact good_consume hs.kept hp ((placed_cons.1 hplaced).1.eq hopen)
    (fun s heq => hallow s (heq ▸ hguard)) hexec (fun hlt => hs.onward _ _ (.class he hlt)) hs.fails

theorem carries_empty : A.Carries rules starts .empty p := by
  intro _ reuse guard follow base _ _ s hs
  exact hs.onward _ _ .empty

theorem carries_fail : A.Carries rules starts .fail p := by
  intro hp reuse guard follow base hguard hplaced s hs
  simp only [emit, placed_cons] at hplaced
  exact good_fail hs.kept hp hplaced.1 hs.fails

/-! ## Sequences and choices -/

theorem carries_seq (hr : fittedRules rules) (he₁ : e₁.fitted) (h₁ : A.Carries rules starts e₁ p)
    (h₂ : ∀ m fs, C.Leads rules e₁ p m fs → A.Carries rules starts e₂ m) :
    A.Carries rules starts (.seq e₁ e₂) p := by
  intro hp reuse guard follow base hguard hplaced s hs
  simp only [emitEnd, emit, placed_append, List.length_append] at hplaced hs
  rw [← Nat.add_assoc] at hs
  refine h₁ hp _ _ _ _ hguard hplaced.1 s (.plain hs.kept hs.fails fun m fs hm => ?_)
  have hexits := (hs.reach base m fs).mono fun q gs hq => .seq hm hq
  -- a test is still good behind a part that does not lead on
  have hguard₂ : Established (if e₁.fixedLengthIn rules = some 0 then guard else none)
      C.subject m := by
    split
    · next hzero =>
      obtain ⟨rfl, -⟩ := hm.eq_of_fixedLength hr he₁ hzero
      exact hguard
    · exact established_none _ m
  simpa using (h₂ m fs hm (hp.way hm hr he₁) _ _ _ _ hguard₂ hplaced.2 _ hexits).of_reach

theorem carries_choice (h₁ : A.Carries rules starts e₁ p) (h₂ : A.Carries rules starts e₂ p)
    (hr : fittedRules rules) (he₁ : e₁.fitted) : A.Carries rules starts (.choice e₁ e₂) p := by
  intro hp reuse guard follow base hguard hplaced s hs
  have hfirst := hs.mono fun q fs hq => Way.choice_first hq
  have hsecond := hs.mono fun q fs hq => Way.choice_second hq
  cases htold : e₁.toldByNext rules (e₂.headIn rules follow).chars with
  | true =>
    obtain ⟨other, -, htest, hcode₁, hskip, hcode₂, hpast⟩ := placed_choice_told htold hplaced
    rw [hpast] at hfirst hsecond
    refine good_forTest hs.kept hp htest (fun hset => ?_)
      (h₂ hp _ _ _ _ (established_none _ p) hcode₂ s hsecond)
    exact h₁ hp _ _ _ _ hset hcode₁ s (.plain hs.kept hs.fails fun q fs hq =>
      good_of_jumps hs.kept (hp.way hq hr he₁) hskip (hfirst.onward q fs hq))
  | false =>
    cases hreuse : reuse && e₂.isEmpty with
    | true =>
      obtain ⟨hmove, hcode₁, hpast⟩ := placed_choice_moved hreuse htold hplaced
      rw [hpast] at hs
      rw [Bool.and_eq_true] at hreuse
      obtain rfl := eq_empty_of_isEmpty hreuse.2
      obtain ⟨s₀, f, rfl, hf, hmoves⟩ := hs.moves hreuse.1
      refine good_partialCommit hmoves.kept hp hf hmove (Good.later (good_push_reach.2 ?_))
      exact h₁ hp _ _ _ _ (established_none _ p) hcode₁ _
        ((hmoves.exits (.choice_second .empty)).mono fun q fs hq => .choice_first hq)
    | false =>
      obtain ⟨first, other, hfirstAddr, -, htest, hchoice, hcode₁, hcommit, hcode₂, hpast⟩ :=
        placed_choice_pushed hreuse htold hplaced
      rw [hpast] at hfirst hsecond
      have hother : A.Good s other p [] :=
        h₂ hp _ _ _ _ (established_none _ p) hcode₂ s hsecond
      refine good_headTest hs.kept hp htest (fun hhead => good_choice hs.kept hp hchoice ?_) hother
      rw [← hfirstAddr]
      have hafter : ∀ (s : State α σ) (t m q : Nat) (fs : List (Firing α)), C.Kept s →
          C.Inside q → A.Good s _ q fs → A.Good (s.push t (some m)) _ q fs :=
        fun s t m q fs hs hq h => good_commit (f := ⟨t, some m, s.log.size⟩) hs hq (by simp)
          hcommit h
      refine h₁ hp _ _ _ _ hhead hcode₁ _ ⟨hs.kept.push _ _, fails_push hs.kept hother.later,
        fun q fs hq => hafter s _ p q fs hs.kept (hp.way hq hr he₁) (hfirst.onward q fs hq),
        fun hempty => ?_⟩
      -- the second alternative is empty, so that the frame leads to where the code ends
      obtain rfl := eq_empty_of_isEmpty hempty
      refine ⟨s, _, rfl, by simp, hs.kept, hfirst.onward, fun m q fs gs _ hq => ?_⟩
      exact hafter _ _ m q gs (hs.kept.reach _ _ _) (hp.way hq hr he₁) (hfirst.onward q _ hq).reach

/-! ## Repetitions -/

/-- A class may be repeated as long as its characters follow. -/
theorem leads_spanEnd {set : CharSet} (he : e.class? = some set) (k : CharClass) (p : Nat) :
    C.Leads rules (star e) p (spanEnd k C.subject p) [] := by
  induction p using spanEnd.induct k C.subject with
  | case1 p hlt hk ih =>
    rw [spanEnd, dif_pos hlt, if_pos hk]
    exact .star_more (.class he hlt) ih
  | case2 p hlt hk =>
    rw [spanEnd, dif_pos hlt, if_neg hk]
    exact .star_done
  | case3 p hlt =>
    rw [spanEnd, dif_neg hlt]
    exact .star_done

theorem rounds_of_carries (hr : fittedRules rules) (he : e.fitted) (hA : A.Precedes A')
    (h : A.Carries rules starts e p)
    (hmore : ∀ m fs, C.Leads rules e p m fs → A'.Rounds rules starts e m) :
    A.Rounds rules starts e p := by
  intro hp first hplaced hround s resume hs hleave
  refine h hp _ _ _ _ (established_none _ p) hplaced _ (.plain (hs.push _ _)
    (fails_push hs (hleave p [] .star_done).later) fun m fs hm => ?_)
  have hin := hp.way hm hr he
  refine good_partialCommit (f := ⟨resume, some p, s.log.size⟩) hs hin (by simp) hround
    (hA.later_of_Good ?_)
  exact hmore m fs hm hin first hplaced hround _ resume (hs.reach _ _ _)
    fun q gs hq => hA.Good (hleave q _ (.star_more hm hq)).reach

/-- Where the next character tells if there is another round. -/
theorem good_star_told (hr : fittedRules rules) (he : e.fitted) (hA : A.Precedes A')
    (h : A.Carries rules starts e p)
    (hmore : ∀ m fs, C.Leads rules e p m fs → A'.Carries rules starts (star e) m)
    (hp : C.Inside p) (hclass : e.class? = none) (htold : e.toldByNext rules follow = true)
    (hplaced : Placed C.code (PlainCalls C.code starts) base
      ((star e).emit Segment.callRules rules reuse none follow base))
    (hs : A.Exits reuse ((star e).emitEnd Segment.callRules rules reuse none follow base)
      (C.Leads rules (star e) p) s) : A.Good s base p [] := by
  obtain ⟨htest, hcode, hjump, -⟩ := placed_star_told hclass htold hplaced
  refine good_forTest hs.kept hp htest (fun hset => ?_) (hs.onward p [] .star_done)
  refine h hp _ _ _ _ hset hcode s ⟨hs.kept, hs.fails, fun m fs hm => ?_, fun hreuse => ?_⟩
  · have hin := hp.way hm hr he
    have hexits := ((hs.of_precedes hA).reach base m fs).mono fun q gs hq => .star_more hm hq
    refine good_jump hs.kept hin hjump (hA.later_of_Good ?_)
    simpa using (hmore m fs hm hin _ _ _ _ (established_none _ m) hplaced _ hexits).of_reach
  · subst hreuse
    obtain ⟨s₀, f, rfl, hf, hmoves⟩ := hs.moves rfl
    have hdone : ∀ q fs, C.Leads rules e p q fs → C.Leads rules (star e) p q fs :=
      fun q fs hq => by simpa using Way.star_more hq .star_done
    refine ⟨s₀, f, rfl, hf, hmoves.kept, fun q fs hq => hmoves.leave q fs (hdone q fs hq),
      fun m q fs gs hm hq => ?_⟩
    have hin := hp.way hq hr he
    refine good_jump ((hmoves.kept.reach _ _ _).push _ _) hin hjump (hA.later_of_Good ?_)
    -- the frame has been moved up to a place on the way of this round
    have hexits := fun b => (((hmoves.of_precedes hA).reach b m fs).exits (m := m)
      (by simpa using hdone m fs hm)).reach base q gs
    have hnext := fun b => (hexits b).mono fun q' gs' hq' => by simpa using Way.star_more hq hq'
    simpa using (hmore q _ hq hin _ _ _ _ (established_none _ q) hplaced _ (hnext _)).of_reach

theorem carries_star (hr : fittedRules rules) (he : e.fitted) (hA : A.Precedes A')
    (h : A.Carries rules starts e p) (hrounds : A.Rounds rules starts e p)
    (hmore : ∀ m fs, C.Leads rules e p m fs → A'.Carries rules starts (star e) m) :
    A.Carries rules starts (star e) p := by
  intro hp reuse guard follow base _ hplaced s hs
  rw [emit_star_guard] at hplaced
  rw [emitEnd, emit_star_guard] at hs
  change A.Exits reuse ((star e).emitEnd Segment.callRules rules reuse none follow base) _ s at hs
  cases hclass : e.class? with
  | some set =>
    obtain ⟨hspan, hpast⟩ := placed_star_span hclass hplaced
    rw [hpast] at hs
    exact good_span hs.kept hp hspan (hs.onward _ _ (leads_spanEnd hclass _ p))
  | none =>
    cases htold : e.toldByNext rules follow with
    | true => exact good_star_told hr he hA h hmore hp hclass htold hplaced hs
    | false =>
      obtain ⟨first, fin, hfirst, -, hpast, htest, henter, hcode, hround⟩ :=
        placed_star_kept hclass htold hplaced
      rw [hpast] at hs
      refine good_headTest hs.kept hp htest (fun _ => ?_) (hs.onward p [] .star_done)
      cases reuse with
      | false =>
        refine good_choice hs.kept hp henter ?_
        rw [← hfirst]
        exact hrounds hp first hcode hround s fin hs.kept hs.onward
      | true =>
        obtain ⟨s₀, f, rfl, hf, hmoves⟩ := hs.moves rfl
        refine good_partialCommit hmoves.kept hp hf henter (Good.later (good_push_reach.2 ?_))
        exact hrounds hp first hcode hround s₀ f.resume hmoves.kept hmoves.leave

/-! ## Looking ahead and behind -/

theorem carries_not (hr : fittedRules rules) (he : e.fitted) (h : A.Carries rules starts e p) :
    A.Carries rules starts (.not e) p := by
  intro hp reuse guard follow base hguard hplaced s hs
  cases htold : e.headFailIn rules with
  | true =>
    obtain ⟨fin, -, hpast, htest, hfail⟩ := placed_not_told htold hplaced
    rw [hpast] at hs
    exact good_headTest hs.kept hp htest (fun _ => good_fail hs.kept hp hfail hs.fails)
      (hs.onward p [] .not)
  | false =>
    obtain ⟨first, fin, hfirst, -, hpast, htest, hchoice, hcode, hfail⟩ :=
      placed_not_pushed htold hplaced
    rw [hpast] at hs
    have hfin := hs.onward p [] .not
    refine good_headTest hs.kept hp htest (fun _ => good_choice hs.kept hp hchoice ?_) hfin
    rw [← hfirst]
    exact h hp _ _ _ _ (established_none _ p) hcode _ (.plain (hs.kept.push _ _) (fails_push hs.kept hfin.later)
      fun q fs hq => good_failTwice (f := ⟨fin, some p, s.log.size⟩) hs.kept (hp.way hq hr he)
        (by simp) hfail hs.fails)

theorem carries_and (hr : fittedRules rules) (he : e.fitted) (h : A.Carries rules starts e p) :
    A.Carries rules starts (.and e) p := by
  intro hp reuse guard follow base hguard hplaced s hs
  by_cases hfixed : ∃ n, e.fixedLengthIn rules = some n ∧ e.hasActionsIn rules = false
  · obtain ⟨n, hlength, hacts⟩ := hfixed
    obtain ⟨hcode, hback⟩ := placed_and_fixed hlength hacts hplaced
    refine h hp _ _ _ _ hguard hcode s (.plain hs.kept hs.fails fun q fs hq => ?_)
    have hin := hp.way hq hr he
    have hdone := hs.onward p [] (.and hq)
    obtain ⟨rfl, rfl⟩ := hq.eq_of_fixedLength hr he hlength
    split at hback
    · next hzero =>
      subst hzero
      rwa [← hback]
    · rw [hback.2] at hdone
      exact good_behind hs.kept hin hback.1 (fun _ => by rwa [Nat.add_sub_cancel]) hs.fails
  · have hfixed : ∀ n, e.fixedLengthIn rules = some n → e.hasActionsIn rules = true :=
      fun n hn => by simpa using fun hacts => hfixed ⟨n, hn, hacts⟩
    obtain ⟨failed, fin, -, -, hpast, hchoice, hcode, hback, hfail⟩ :=
      placed_and_pushed hfixed hplaced
    rw [hpast] at hs
    refine good_choice hs.kept hp hchoice (h hp _ _ _ _ hguard hcode _ (.plain (hs.kept.push _ _)
      (fails_push hs.kept (good_fail hs.kept hp hfail hs.fails).later) fun q fs hq => ?_))
    exact good_backCommit hs.kept (hp.way hq hr he) hback (hs.onward p [] (.and hq))

theorem carries_behind {width : Nat}
    (h : width ≤ p - C.start → A.Carries rules starts e (p - width)) :
    A.Carries rules starts (.behind width e) p := by
  intro hp reuse guard follow base hguard hplaced s hs
  obtain ⟨first, hmove, hcode, hpast⟩ := placed_behind hplaced
  rw [hpast] at hs
  have hbody : ∀ hw : width ≤ p - C.start, A.Good s first (p - width) [] := by
    intro hw
    have hin : C.Inside (p - width) := ⟨by have := hp.start_le; omega, by have := hp.le_size; omega⟩
    exact h hw hin _ _ _ _ (established_none _ _) hcode s
      (.plain hs.kept hs.fails fun q fs hq => hs.onward q fs (.behind hw hq))
  split at hmove
  · next hzero =>
    subst hzero hmove
    exact hbody (Nat.zero_le _)
  · obtain ⟨hbehind, rfl⟩ := hmove
    exact good_behind hs.kept hp hbehind hbody hs.fails

/-! ## Actions and rules -/

theorem carries_action {act : α} (hr : fittedRules rules) (he : e.fitted)
    (h : A.Carries rules starts e p) : A.Carries rules starts (.action act e) p := by
  intro hp reuse guard follow base hguard hplaced s hs
  obtain ⟨hopen, hcode, hclose, hpast⟩ := placed_action hplaced
  rw [hpast] at hs
  refine good_openAction hs.kept hp hopen (h hp _ _ _ _ hguard hcode _ (.plain (hs.kept.opening act p)
    (hs.fails.opening hs.kept act) fun q fs hq => ?_))
  exact good_closeAction hs.kept (hp.way hq hr he) hclose
    (fun stop hq' hstop => hs.onward stop _ (.action hq hq' hstop)) hs.fails

/-- Where a rule is called, it is the code of its body that counts, after the step of the call. -/
theorem good_call_rule {a ret t : Nat} {body : Expr α} (hA : A.Precedes A')
    (hr : fittedRules rules) (he : body.fitted) (h : A'.Carries rules starts body p)
    (hp : C.Inside p) (hcall : C.code[a]? = some (.call t)) (hret : ret = a + 1)
    (hplaced : Placed C.code (PlainCalls C.code starts) t
      (body.emit Segment.callRules rules false none .full t ++ [.ret]))
    (hs : C.Kept s) (hfails : A.Fails s)
    (honward : ∀ q fs, C.Leads rules body p q fs → A.Good s ret q fs) : A.Good s a p [] := by
  subst hret
  rw [placed_append, placed_cons] at hplaced
  refine good_call hs hp hcall (hA.later_of_Good ?_)
  refine h hp _ _ _ _ (established_none _ p) hplaced.1 _ (.plain (hs.push _ _)
    (hA.Fails hfails).call fun q fs hq => ?_)
  exact good_ret hs (hp.way hq hr he) hplaced.2.1 (hA.Good (honward q fs hq))

theorem carries_ruleCall {i : Nat} {r : Rule α} (hrules : C.Hosts rules starts)
    (hA : A.Precedes A') (hi : rules[i]? = some r) (h : A'.Carries rules starts r.body p) :
    A.Carries rules starts (.ruleCall i) p := by
  intro hp reuse guard follow base hguard hplaced s hs
  obtain ⟨t, ht, hcode⟩ := hrules.placed i r hi
  simp only [emitEnd, emit, placed_cons] at hplaced hs
  exact good_call_rule hA hrules.fitted (hrules.fitted.body hi) h hp (hplaced.1 t ht) rfl hcode
    hs.kept hs.fails fun q fs hq => hs.onward q fs (.ruleCall hi hq)

theorem carries_grammar {inner : List (Rule α)} {entry : Rule α} (hA : A.Precedes A')
    (hr : fittedRules inner) (hscope : inScopeRules inner.length inner)
    (hentry : inner[0]? = some entry)
    (h : ∀ starts, C.Hosts inner starts → A'.Carries inner starts entry.body p) :
    A.Carries rules starts (.grammar inner) p := by
  intro hp reuse guard follow base hguard hplaced s hs
  obtain ⟨hcall, hjump, hcode, -⟩ := placed_grammar Segment.size_callRules hplaced
  have hrules : C.Hosts inner _ := ⟨rulesPlaced_of_placed (placed_of_callRules hcode), hr, hscope⟩
  obtain ⟨t, ht, hbody⟩ := hrules.placed 0 entry hentry
  obtain rfl := eq_base_of_starts ht
  have hfitted := hr.body hentry
  exact good_call_rule hA hr hfitted (h _ hrules) hp hcall rfl hbody hs.kept hs.fails
    fun q fs hq => good_jump hs.kept (hp.way hq hr hfitted) hjump
      (hs.onward q fs (.grammar hentry hq)).later

end Aim
end PegMachine
