import PegMachine.Code.Emitter
import PegMachine.Proofs.Code.Jumps
import PegMachine.Proofs.Code.Layout
import PegMachine.Proofs.Expr.Resolution

/-!
# What an emitter adds

An emitter that is not stopped by its limit adds the code that `Expr.emit` describes, and it gets
beyond its limit exactly if this code does.  `Lays` says so, of a run of the emitter from one state
to another; what follows each other in a run is put one after the other in the code.  Beyond the
limit nothing is known about the code but that it does not get shorter, which is enough: every
address that is looked up later is that of an instruction pushed before.

* `Lays.push`, `Lays.exists_jumpTo`, `Lays.guardAt` — the single steps.
* `exists_emit` — the code of an expression, by a lemma for each form.
-/

set_option autoImplicit false

namespace PegMachine

open PegMachine.Expr

variable {α : Type}

namespace Instr

/-- Tests establish what code can make use of. -/
theorem establishes_forTest (s : CharSet) (t : Nat) :
    (forTest s t : Instr α).establishes = Guard.ofSet s := by
  rw [forTest, Guard.ofSet]
  cases s.extent <;> rfl

theorem withTarget_forTest (s : CharSet) (t u : Nat) :
    (forTest s t : Instr α).withTarget u = forTest s u := by
  rw [forTest, forTest]
  cases s.extent <;> rfl

end Instr

namespace Emitter

/-- The emitter knows whether it is beyond its limit. -/
structure Counts (m : Emitter α) : Prop where
  iff : m.tooLarge = true ↔ m.limit < m.here

theorem Counts.eq_false_iff {m : Emitter α} (h : m.Counts) :
    m.tooLarge = false ↔ m.here ≤ m.limit := by
  rw [← Bool.not_eq_true, h.iff, Nat.not_lt]

/-- From the first state to the second, the emitter has added the instructions, or it has got beyond
its limit, and so do the instructions. -/
structure Lays (m : Emitter α) (instrs : List (Instr α)) (m' : Emitter α) : Prop where
  limit : m'.limit = m.limit
  counts : m'.Counts
  here_le : m.here ≤ m'.here
  code : m'.tooLarge = false → m'.code.toList = m.code.toList ++ instrs
  beyond : m'.tooLarge = true → m.limit < m.here + instrs.length

namespace Lays

variable {m m₁ m₂ m' : Emitter α} {c c₁ c₂ : List (Instr α)}

theorem refl (h : m.Counts) : Lays m [] m where
  limit := rfl
  counts := h
  here_le := Nat.le_refl _
  code _ := (List.append_nil _).symm
  beyond := h.iff.1

/-- Beyond its limit, an emitter that does nothing has done what it had to. -/
theorem of_tooLarge (h : m.Counts) (ho : m.tooLarge = true) (c : List (Instr α)) : Lays m c m where
  limit := rfl
  counts := h
  here_le := Nat.le_refl _
  code hn := by rw [ho] at hn; cases hn
  beyond _ := Nat.lt_of_lt_of_le (h.iff.1 ho) (Nat.le_add_right ..)

/-- Within its limit, the emitter is where the instructions end. -/
theorem here_eq (h : Lays m c m') (hn : m'.tooLarge = false) : m'.here = m.here + c.length := by
  simpa [here] using congrArg List.length (h.code hn)

/-- Whether the emitter gets beyond its limit depends on the instructions alone. -/
theorem tooLarge_iff (h : Lays m c m') : m'.tooLarge = true ↔ m.limit < m.here + c.length := by
  refine ⟨h.beyond, fun hlt => ?_⟩
  cases hn : m'.tooLarge with
  | true => rfl
  | false =>
    have hle := h.counts.eq_false_iff.1 hn
    rw [h.here_eq hn, h.limit] at hle
    omega

/-- What is beyond its limit stays there. -/
theorem not_tooLarge (h : Lays m c m') (hm : m.Counts) (hn : m'.tooLarge = false) :
    m.tooLarge = false := by
  rw [hm.eq_false_iff, ← h.limit]
  exact Nat.le_trans h.here_le (h.counts.eq_false_iff.1 hn)

theorem trans (h₁ : Lays m c₁ m₁) (h₂ : Lays m₁ c₂ m₂) : Lays m (c₁ ++ c₂) m₂ where
  limit := h₂.limit.trans h₁.limit
  counts := h₂.counts
  here_le := Nat.le_trans h₁.here_le h₂.here_le
  code hn := by
    rw [h₂.code hn, h₁.code (h₂.not_tooLarge h₁.counts hn), List.append_assoc]
  beyond ho := by
    rw [List.length_append]
    cases hm : m₁.tooLarge with
    | true =>
      have := h₁.beyond hm
      omega
    | false =>
      have hbeyond := h₂.beyond ho
      rw [h₁.limit, h₁.here_eq hm] at hbeyond
      omega

end Lays

variable {m m' : Emitter α}

theorem here_push (m : Emitter α) (instr : Instr α) : (m.push instr).here = m.here + 1 :=
  Array.size_push ..

theorem tooLarge_push (m : Emitter α) (instr : Instr α) :
    (m.push instr).tooLarge = true ↔ m.tooLarge = true ∨ m.limit < m.here + 1 := by
  simp [push, here]

theorem here_le_pushIf (m : Emitter α) (b : Bool) (instr : Instr α) :
    m.here ≤ (m.pushIf b instr).here := by
  cases b with
  | false => exact Nat.le_refl _
  | true => rw [pushIf, if_pos rfl, here_push]; exact Nat.le_succ _

theorem lays_push (h : m.Counts) (instr : Instr α) : Lays m [instr] (m.push instr) where
  limit := rfl
  counts := by
    refine ⟨?_⟩
    rw [tooLarge_push, here_push, h.iff]
    show _ ↔ m.limit < m.here + 1
    omega
  here_le := by
    rw [here_push]
    exact Nat.le_succ _
  code _ := Array.toList_push
  beyond ho := by
    rw [tooLarge_push, h.iff] at ho
    rw [List.length_singleton]
    omega

namespace Lays

variable {c d x y : List (Instr α)} {i : Instr α}

theorem push (h : Lays m c m') (instr : Instr α) : Lays m (c ++ [instr]) (m'.push instr) :=
  h.trans (lays_push h.counts instr)

/-- What is pushed if the condition is met. -/
theorem pushIf (h : Lays m c m') (b : Bool) (instr : Instr α) :
    Lays m (c ++ if b then [instr] else []) (m'.pushIf b instr) := by
  cases b with
  | true => exact h.push instr
  | false => exact h.trans (.refl h.counts)

/-- Other instructions are as good, if there are as many, and they are the same within the limit. -/
theorem congr (h : Lays m c m') (hlength : d.length = c.length)
    (hc : m'.tooLarge = false → d = c) : Lays m d m' where
  limit := h.limit
  counts := h.counts
  here_le := h.here_le
  code hn := by rw [hc hn, h.code hn]
  beyond ho := by
    rw [hlength]
    exact h.beyond ho

theorem of_eq (h : Lays m c m') (hc : c = d) : Lays m d m' := hc ▸ h

/-- Within its limit, an emitter was so before. -/
theorem not_tooLarge_of_le {m₀ : Emitter α} (h : Lays m c m') (h₀ : Lays m x m₀)
    (hle : m₀.here ≤ m'.here) (hn : m'.tooLarge = false) : m₀.tooLarge = false := by
  rw [h₀.counts.eq_false_iff, h₀.limit, ← h.limit]
  exact Nat.le_trans hle (h.counts.eq_false_iff.1 hn)

variable {m₀ : Emitter α} {c₀ : List (Instr α)} (h₀ : Lays m c₀ m₀) (hlength : c₀.length = x.length)
include h₀ hlength

/-- The instruction that was pushed in an earlier state gets its target.  Beyond the limit there
still is an instruction at this address, whichever it may be. -/
theorem exists_jumpTo (h : Lays m (x ++ i :: y) m') (hlt : m₀.here < m'.here) {t u : Nat}
    (htu : m'.tooLarge = false → t = u) :
    ∃ m'', m'.jumpTo (some m₀.here) t = some m'' ∧ Lays m (x ++ i.withTarget u :: y) m'' ∧
      m''.here = m'.here := by
  have hget : m'.code[m₀.here]? = some m'.code[m₀.here] := Array.getElem?_eq_getElem hlt
  let m'' : Emitter α :=
    { m' with code := m'.code.setIfInBounds m₀.here (m'.code[m₀.here].withTarget t) }
  have hhere : m''.here = m'.here := Array.size_setIfInBounds
  refine ⟨m'', by rw [jumpTo, hget, Option.map_some], ?_, hhere⟩
  refine ⟨h.limit, ⟨by rw [hhere]; exact h.counts.iff⟩, by rw [hhere]; exact h.here_le,
    fun hn => ?_, fun ho => by simpa using h.beyond ho⟩
  have hplace : m₀.here = (m.code.toList ++ x).length := by
    rw [h₀.here_eq (h.not_tooLarge_of_le h₀ (Nat.le_of_lt hlt) hn), hlength]
    simp [here]
  have hcode := h.code hn
  rw [← List.append_assoc] at hcode ⊢
  have hold : m'.code[m₀.here] = i := by
    refine Option.some.inj (hget.symm.trans ?_)
    rw [← Array.getElem?_toList, hcode, hplace, List.getElem?_append_right (Nat.le_refl _),
      Nat.sub_self, List.getElem?_cons_zero]
  rw [Array.toList_setIfInBounds, hcode, hold, hplace, htu hn,
    List.set_append_right _ _ (Nat.le_refl _), Nat.sub_self, List.set_cons_zero]

/-- The target may be the next instruction. -/
theorem exists_jumpHere (h : Lays m c m') (hlt : m₀.here < m'.here)
    {u : Nat} (hu : u = m.here + c.length) (hc : c = x ++ i :: y)
    (hd : d = x ++ i.withTarget u :: y) :
    ∃ m'', m'.jumpHere (some m₀.here) = some m'' ∧ Lays m d m'' ∧ m''.here = m'.here := by
  subst hd
  refine h₀.exists_jumpTo hlength (h.of_eq hc) hlt fun hn => ?_
  rw [h.here_eq hn, hu]

/-- So it is with an instruction that was pushed if a condition was met. -/
theorem exists_jumpHere_if {b : Bool} (h : Lays m c m')
    (hlt : b = true → m₀.here < m'.here) {u : Nat} (hu : u = m.here + c.length)
    (hc : c = x ++ (if b then [i] else []) ++ y)
    (hd : d = x ++ (if b then [i.withTarget u] else []) ++ y) :
    ∃ m'', m'.jumpHere (m₀.hereIf b) = some m'' ∧ Lays m d m'' ∧ m''.here = m'.here := by
  cases b with
  | false =>
    exact ⟨m', rfl, h.of_eq (by rw [hc, hd]; rfl), rfl⟩
  | true =>
    exact h₀.exists_jumpHere hlength h (hlt rfl) hu (by simpa using hc) (by simpa using hd)

/-- The test that was pushed in an earlier state has established something. -/
theorem guardAt_here (h : Lays m (x ++ i :: y) m') (hle : m₀.here ≤ m'.here)
    (hn : m'.tooLarge = false) : m'.guardAt (some m₀.here) = some i.establishes := by
  have hplace : m₀.here = (m.code.toList ++ x).length := by
    rw [h₀.here_eq (h.not_tooLarge_of_le h₀ hle hn), hlength]
    simp [here]
  rw [guardAt, ← Array.getElem?_toList, h.code hn, ← List.append_assoc, hplace,
    List.getElem?_append_right (Nat.le_refl _), Nat.sub_self, List.getElem?_cons_zero,
    Option.map_some]

omit h₀ hlength in
/-- What a test has established before can still be read off. -/
theorem guardAt (h : Lays m c m') {test : Option Nat} {guard : Option Guard}
    (hguard : m.guardAt test = some guard) (hn : m'.tooLarge = false) :
    m'.guardAt test = some guard := by
  cases test with
  | none => exact hguard
  | some addr =>
    rw [Emitter.guardAt] at hguard ⊢
    obtain ⟨i, hget, hinstr⟩ := Option.map_eq_some_iff.1 hguard
    have hlt := (Array.getElem?_eq_some_iff.1 hget).1
    rw [← Array.getElem?_toList] at hget ⊢
    rw [h.code hn, List.getElem?_append_left (by simpa using hlt), hget, Option.map_some, hinstr]

end Lays

/-! ## Tests for heads -/

section Tests

variable {h : Head} {c : List (Instr α)}

theorem lays_pushIf_headTest (hm : m.Counts) (h : Head) :
    Lays m (Instr.headTest h 0) (m.pushIf h.needsChar (.forTest h.chars 0)) :=
  (Lays.refl hm).pushIf h.needsChar (.forTest h.chars 0)

/-- What the test for a head has established can be read off the code behind it. -/
theorem Lays.guardAt_headTest (hm : m.Counts) (hlays : Lays m (Instr.headTest h 0 ++ c) m')
    (hn : m'.tooLarge = false) : m'.guardAt (m.hereIf h.needsChar) = some h.guard := by
  rw [Instr.headTest] at hlays
  rw [hereIf, Head.guard]
  split
  · next hneeds =>
    rw [if_pos hneeds] at hlays
    rw [(Lays.refl hm).guardAt_here rfl hlays hlays.here_le hn, Instr.establishes_forTest]
  · rfl

/-- The test for a head leads behind the code that follows it. -/
theorem Lays.exists_jumpHere_headTest (hm : m.Counts)
    (hlays : Lays m (Instr.headTest h 0 ++ c) m') (hlt : m.here < m'.here) {u : Nat}
    (hu : u = m.here + h.testLength + c.length) :
    ∃ m'', m'.jumpHere (m.hereIf h.needsChar) = some m'' ∧
      Lays m (Instr.headTest h u ++ c) m'' ∧ m''.here = m'.here := by
  refine (Lays.refl hm).exists_jumpHere_if (x := []) (i := .forTest h.chars 0) rfl hlays
    (fun _ => hlt) ?_ rfl (by rw [Instr.headTest, Instr.withTarget_forTest]; rfl)
  rw [List.length_append, Instr.length_headTest, hu, Nat.add_assoc]

end Tests

/-! ## Expressions -/

/-- An emitter within its limit adds the code of the expression. -/
def Emits (e : Expr α) : Prop :=
  ∀ {rules : List (Rule α)} {r : Bool} {t : Option Nat} {g : Option Guard} {f : CharSet}
    {m : Emitter α}, e.inScope False rules.length → m.Counts → m.tooLarge = false →
    m.guardAt t = some g →
    ∃ m', emit e rules r t f m = some m' ∧
      Lays m (e.emit Segment.resolveCalls rules r g f m.here) m'

section Cases

variable {rules : List (Rule α)} {reuse : Bool} {test : Option Nat} {guard : Option Guard}
  {follow : CharSet} {e e₁ e₂ : Expr α}

/-- So it goes on after other instructions, whether or not it is still within its limit. -/
theorem Emits.after (he : Emits e) (hscope : e.inScope False rules.length) {c : List (Instr α)}
    (h : Lays m c m') {r : Bool} {t : Option Nat} {g : Option Guard} {f : CharSet}
    (hguard : m'.tooLarge = false → m'.guardAt t = some g) {b : Nat} (hb : b = m.here + c.length)
    {code : List (Instr α)} (hcode : code = e.emit Segment.resolveCalls rules r g f b) :
    ∃ m'', emit e rules r t f m' = some m'' ∧ Lays m (c ++ code) m'' ∧ m'.here ≤ m''.here := by
  subst hcode
  cases hm : m'.tooLarge with
  | true =>
    exact ⟨m', emit_of_tooLarge _ _ _ _ _ hm, h.trans (.of_tooLarge h.counts hm _), Nat.le_refl _⟩
  | false =>
    obtain ⟨m'', hemit, hlays⟩ := he (r := r) (f := f) hscope h.counts hm (hguard hm)
    rw [h.here_eq hm, ← hb] at hlays
    exact ⟨m'', hemit, h.trans hlays, hlays.here_le⟩

theorem emits_seq (h₁ : Emits e₁) (h₂ : Emits e₂) : Emits (.seq e₁ e₂) := by
  intro rules reuse test guard follow m hscope hm hn hguard
  obtain ⟨m₁, hemit₁, hlays₁, -⟩ :=
    h₁.after hscope.1 (.refl hm) (fun _ => hguard) rfl rfl (r := false)
      (f := if e₁.usesFollow then (e₂.headIn rules follow).chars else .full)
  have hguard₂ : m₁.tooLarge = false → m₁.guardAt
      (if e₁.fixedLengthIn rules = some 0 then test else none)
        = some (if e₁.fixedLengthIn rules = some 0 then guard else none) := by
    intro hn₁
    split
    · exact hlays₁.guardAt hguard hn₁
    · rfl
  obtain ⟨m₂, hemit₂, hlays₂, -⟩ := h₂.after hscope.2 hlays₁ hguard₂ rfl rfl (r := reuse)
    (f := follow)
  refine ⟨m₂, ?_, ?_⟩
  · rw [emit, if_neg (by simp [hn])]
    simp only [hemit₁, hemit₂, Option.bind_eq_bind, Option.bind_some]
  · rw [Expr.emit]
    simpa using hlays₂

/-- A choice that is decided by the next character. -/
theorem exists_emit_choice_told (h₁ : Emits e₁) (h₂ : Emits e₂)
    (hscope : (choice e₁ e₂).inScope False rules.length) (hm : m.Counts) (hn : m.tooLarge = false)
    (htold : e₁.toldByNext rules (e₂.headIn rules follow).chars = true) :
    ∃ m', emit (.choice e₁ e₂) rules reuse test follow m = some m' ∧
      Lays m ((choice e₁ e₂).emit Segment.resolveCalls rules reuse guard follow m.here) m' := by
  let chars := (e₁.headIn rules .full).chars
  let code₁ := e₁.emit Segment.resolveCalls rules false (Guard.ofSet chars) follow (m.here + 1)
  let other := m.here + 1 + code₁.length + if e₂.isEmpty then 0 else 1
  let code₂ := e₂.emit Segment.resolveCalls rules reuse none follow other
  have hrefl := Lays.refl hm
  have hlays₁ := lays_push hm (.forTest chars 0)
  obtain ⟨m₂, hemit₂, hlays₂, hle₂⟩ := h₁.after hscope.1 hlays₁ (fun hn₁ =>
    (hrefl.guardAt_here rfl hlays₁ hlays₁.here_le hn₁).trans
      (congrArg some (Instr.establishes_forTest chars 0))) rfl (show code₁ = _ from rfl)
  rw [here_push] at hle₂
  have hlays₃ := hlays₂.pushIf (!e₂.isEmpty) (.jump 0)
  have hle₃ := m₂.here_le_pushIf (!e₂.isEmpty) (.jump 0)
  have hlength : (if (!e₂.isEmpty) = true then [Instr.jump (α := α) 0] else []).length
      = if e₂.isEmpty then 0 else 1 := by
    cases e₂.isEmpty <;> rfl
  have hother : other = m.here + ([Instr.forTest chars 0] ++ code₁
      ++ if !e₂.isEmpty then [Instr.jump 0] else []).length := by
    rw [List.length_append, List.length_append, hlength, List.length_singleton]
    simp only [other]
    omega
  obtain ⟨m₄, hjump₄, hlays₄, hhere₄⟩ := hrefl.exists_jumpHere (x := []) rfl hlays₃ (by omega)
    hother rfl rfl
  rw [Instr.withTarget_forTest] at hlays₄
  obtain ⟨m₅, hemit₅, hlays₅, hle₅⟩ := h₂.after hscope.2 hlays₄ (fun _ => rfl) (t := none)
    (b := other) (by simpa using hother) (show code₂ = _ from rfl)
  obtain ⟨m₆, hjump₆, hlays₆, -⟩ := hlays₂.exists_jumpHere_if (b := !e₂.isEmpty)
    (x := .forTest chars other :: code₁) (by simp) hlays₅
    (fun hb => by rw [pushIf, if_pos hb, here_push] at hhere₄; omega)
    (u := other + code₂.length) (by rw [List.length_append, ← Nat.add_assoc, hother]; simp) rfl rfl
  refine ⟨m₆, ?_, hlays₆.of_eq ?_⟩
  · rw [emit, if_neg (by simp [hn])]
    simp only [htold, if_true, chars, hemit₂, hjump₄, hemit₅, hjump₆, 
      Option.bind_eq_bind, Option.bind_some]
  · rw [Expr.emit, if_pos htold]
    cases hempty : e₂.isEmpty <;> simp [Instr.withTarget, code₂, other, hempty, code₁, chars]

/-- A choice that is left out in a loop, whose frame moves up. -/
theorem exists_emit_choice_moved (h₁ : Emits e₁)
    (hscope : (choice e₁ e₂).inScope False rules.length) (hm : m.Counts) (hn : m.tooLarge = false)
    (htold : e₁.toldByNext rules (e₂.headIn rules follow).chars = false)
    (hreuse : (reuse && e₂.isEmpty) = true) :
    ∃ m', emit (.choice e₁ e₂) rules reuse test follow m = some m' ∧
      Lays m ((choice e₁ e₂).emit Segment.resolveCalls rules reuse guard follow m.here) m' := by
  obtain ⟨m₁, hjump₁, hlays₁, -⟩ := (Lays.refl hm).exists_jumpHere (x := []) rfl
    (lays_push hm (.partialCommit 0)) (by rw [here_push]; omega) (u := m.here + 1) rfl rfl rfl
  obtain ⟨m₂, hemit₂, hlays₂, -⟩ := h₁.after hscope.1 hlays₁ (fun _ => rfl) (t := none)
    (r := true) (f := .full) rfl rfl
  refine ⟨m₂, ?_, hlays₂.of_eq ?_⟩
  · rw [emit, if_neg (by simp [hn])]
    simp only [htold, hreuse, Bool.false_eq_true, if_false, if_true, hjump₁, hemit₂,
      Option.bind_eq_bind, Option.bind_some]
  · rw [Expr.emit, if_neg (by simp [htold]), if_pos hreuse]
    rfl

/-- A choice that pushes a frame. -/
theorem exists_emit_choice_pushed (h₁ : Emits e₁) (h₂ : Emits e₂)
    (hscope : (choice e₁ e₂).inScope False rules.length) (hm : m.Counts) (hn : m.tooLarge = false)
    (htold : e₁.toldByNext rules (e₂.headIn rules follow).chars = false)
    (hreuse : (reuse && e₂.isEmpty) = false) :
    ∃ m', emit (.choice e₁ e₂) rules reuse test follow m = some m' ∧
      Lays m ((choice e₁ e₂).emit Segment.resolveCalls rules reuse guard follow m.here) m' := by
  let h := e₁.headIn rules .full
  let first := m.here + h.testLength + 1
  let code₁ := e₁.emit Segment.resolveCalls rules e₂.isEmpty h.guard .full first
  let other := first + code₁.length + 1
  let code₂ := e₂.emit Segment.resolveCalls rules reuse none follow other
  have hlays₁ := lays_pushIf_headTest hm h
  have hle₁ := m.here_le_pushIf h.needsChar (.forTest h.chars 0)
  have hlays₂ := hlays₁.push (.choice 0)
  obtain ⟨m₃, hemit₃, hlays₃, hle₃⟩ := h₁.after hscope.1 hlays₂ (hlays₂.guardAt_headTest hm)
    (b := first) (by simp [first, Instr.length_headTest, Nat.add_assoc])
    (show code₁ = _ from rfl)
  rw [here_push] at hle₃
  have hlays₄ := hlays₃.push (.commit 0)
  have hother : other = m.here
      + (Instr.headTest h 0 ++ [Instr.choice 0] ++ code₁ ++ [Instr.commit 0]).length := by
    simp only [other, first, List.length_append, Instr.length_headTest, List.length_singleton]
    omega
  obtain ⟨m₅, hjump₅, hlays₅, hhere₅⟩ := hlays₁.exists_jumpHere rfl hlays₄
    (by rw [here_push]; omega) hother (i := .choice 0) (y := code₁ ++ [Instr.commit 0])
    (d := Instr.headTest h 0 ++ Instr.choice other :: (code₁ ++ [Instr.commit 0])) (by simp) rfl
  rw [here_push] at hhere₅
  obtain ⟨m₆, hjump₆, hlays₆, hhere₆⟩ := hlays₅.exists_jumpHere_headTest hm (by omega)
    (u := other) (by simp [other, first]; omega)
  obtain ⟨m₇, hemit₇, hlays₇, hle₇⟩ := h₂.after hscope.2 hlays₆ (fun _ => rfl) (t := none)
    (b := other) (by simp [other, first, Instr.length_headTest]; omega)
    (show code₂ = _ from rfl)
  obtain ⟨m₈, hjump₈, hlays₈, -⟩ := hlays₃.exists_jumpHere (i := .commit 0)
    (x := Instr.headTest h other ++ Instr.choice other :: code₁) (y := code₂)
    (by simp [Instr.length_headTest]) hlays₇ (by omega) (u := other + code₂.length)
    (by simp [other, first, Instr.length_headTest]; omega) (by simp) rfl
  refine ⟨m₈, ?_, hlays₈.of_eq ?_⟩
  · rw [emit, if_neg (by simp [hn])]
    simp only [htold, hreuse, Bool.false_eq_true, if_false, h, hemit₃, hjump₅, hjump₆, hemit₇,
      hjump₈, Option.bind_eq_bind, Option.bind_some]
  · rw [Expr.emit, if_neg (by simp [htold]), if_neg (by simp [hreuse])]
    rfl

theorem emits_choice (h₁ : Emits e₁) (h₂ : Emits e₂) : Emits (.choice e₁ e₂) := by
  intro rules reuse test guard follow m hscope hm hn _
  cases htold : e₁.toldByNext rules (e₂.headIn rules follow).chars with
  | true => exact exists_emit_choice_told h₁ h₂ hscope hm hn htold
  | false =>
    cases hreuse : reuse && e₂.isEmpty with
    | true => exact exists_emit_choice_moved h₁ hscope hm hn htold hreuse
    | false => exact exists_emit_choice_pushed h₁ h₂ hscope hm hn htold hreuse

/-- A repetition that ends when a test fails. -/
theorem exists_emit_star_told (he : Emits e) (hscope : (star e).inScope False rules.length)
    (hm : m.Counts) (hn : m.tooLarge = false) (hclass : e.class? = none)
    (htold : e.toldByNext rules follow = true) :
    ∃ m', emit (.star e) rules reuse test follow m = some m' ∧
      Lays m ((star e).emit Segment.resolveCalls rules reuse guard follow m.here) m' := by
  let chars := (e.headIn rules .full).chars
  let code := e.emit Segment.resolveCalls rules reuse (Guard.ofSet chars) .full (m.here + 1)
  let past := m.here + 1 + code.length + 1
  have hrefl := Lays.refl hm
  have hlays₁ := lays_push hm (.forTest chars 0)
  obtain ⟨m₂, hemit₂, hlays₂, hle₂⟩ := he.after hscope hlays₁ (fun hn₁ =>
    (hrefl.guardAt_here rfl hlays₁ hlays₁.here_le hn₁).trans
      (congrArg some (Instr.establishes_forTest chars 0))) rfl (show code = _ from rfl)
  rw [here_push] at hle₂
  have hlays₃ := hlays₂.push (.jump 0)
  obtain ⟨m₄, hjump₄, hlays₄, hhere₄⟩ := hrefl.exists_jumpHere rfl hlays₃ (by rw [here_push]; omega)
    (x := []) (y := code ++ [Instr.jump 0]) (u := past) (by simp [past]; omega) rfl
    (by rw [Instr.withTarget_forTest])
  rw [here_push] at hhere₄
  obtain ⟨m₅, hjump₅, hlays₅, -⟩ := hlays₂.exists_jumpTo (x := .forTest chars past :: code)
    (by simp) hlays₄ (by omega) (t := m.here) (u := m.here) fun _ => rfl
  refine ⟨m₅, ?_, hlays₅.of_eq ?_⟩
  · rw [emit, if_neg (by simp [hn])]
    simp only [hclass, htold, if_true, chars, hemit₂, hjump₄, hjump₅, Option.bind_eq_bind,
      Option.bind_some]
  · simp [Expr.emit, hclass, htold, Instr.withTarget, code, past, chars]

/-- A repetition with a frame. -/
theorem exists_emit_star_kept (he : Emits e) (hscope : (star e).inScope False rules.length)
    (hm : m.Counts) (hn : m.tooLarge = false) (hclass : e.class? = none)
    (htold : e.toldByNext rules follow = false) :
    ∃ m', emit (.star e) rules reuse test follow m = some m' ∧
      Lays m ((star e).emit Segment.resolveCalls rules reuse guard follow m.here) m' := by
  let h := e.headIn rules .full
  let first := m.here + h.testLength + 1
  let code := e.emit Segment.resolveCalls rules false none .full first
  let past := first + code.length + 1
  have hlays₁ := lays_pushIf_headTest hm h
  generalize hm₁ : m.pushIf h.needsChar (.forTest h.chars 0) = m₁ at hlays₁
  have hfirst : first = m.here + (Instr.headTest h 0 ++ [Instr.choice (α := α) 0]).length := by
    simp [first, Instr.length_headTest, Nat.add_assoc]
  -- the frame on top moves up to here, or one is pushed whose target is behind the loop
  obtain ⟨m₂, hjump₂, hlays₂, hhere₂⟩ : ∃ m₂,
      (m₁.push (if reuse then .partialCommit 0 else .choice 0)).jumpHere (m₁.hereIf reuse)
        = some m₂ ∧
      Lays m (Instr.headTest h 0 ++ [if reuse then .partialCommit first else .choice 0]) m₂ ∧
      m₂.here = m₁.here + 1 := by
    cases reuse with
    | false => exact ⟨_, rfl, hlays₁.push _, here_push ..⟩
    | true =>
      obtain ⟨m₂, hjump, hlays, hhere⟩ := hlays₁.exists_jumpHere rfl
        (hlays₁.push (.partialCommit 0)) (by rw [here_push]; omega) (u := first)
        (by simpa using hfirst) rfl rfl
      exact ⟨m₂, hjump, hlays, hhere.trans (here_push ..)⟩
  obtain ⟨m₃, hemit₃, hlays₃, hle₃⟩ := he.after hscope hlays₂ (fun _ => rfl) (t := none)
    (b := first) (by simpa using hfirst) (show code = _ from rfl)
  have hlays₄ : Lays m (Instr.headTest h 0 ++ [if reuse then .partialCommit first else .choice 0]
      ++ code ++ [Instr.partialCommit first]) (m₃.push (.partialCommit m₂.here)) := by
    refine (hlays₃.push (.partialCommit m₂.here)).congr (by simp) fun hn₄ => ?_
    rw [hlays₂.here_eq ((hlays₃.push _).not_tooLarge_of_le hlays₂
      (by rw [here_push]; omega) hn₄), hfirst]
    simp
  obtain ⟨m₅, hjump₅, hlays₅, hhere₅⟩ : ∃ m₅,
      (m₃.push (.partialCommit m₂.here)).jumpHere (m₁.hereIf !reuse) = some m₅ ∧
      Lays m (Instr.headTest h 0 ++ (if reuse then .partialCommit first else .choice past) ::
        (code ++ [Instr.partialCommit first])) m₅ ∧ m₅.here = m₃.here + 1 := by
    cases reuse with
    | true => exact ⟨_, rfl, hlays₄.of_eq (by simp), here_push ..⟩
    | false =>
      obtain ⟨m₅, hjump, hlays, hhere⟩ := hlays₁.exists_jumpHere rfl hlays₄
        (by rw [here_push]; omega) (u := past)
        (by simp [past, first, Instr.length_headTest]; omega) (i := .choice 0)
        (y := code ++ [Instr.partialCommit first]) (by simp) rfl
      exact ⟨m₅, hjump, hlays, hhere.trans (here_push ..)⟩
  have hle₁ := hlays₁.here_le
  obtain ⟨m₆, hjump₆, hlays₆, -⟩ := hlays₅.exists_jumpHere_headTest hm (by omega) (u := past)
    (by simp [past, first]; omega)
  refine ⟨m₆, ?_, hlays₆.of_eq ?_⟩
  · rw [emit, if_neg (by simp [hn])]
    simp only [hclass, htold, Bool.false_eq_true, if_false, hm₁, h, hjump₂, hemit₃, hjump₅, hjump₆,
      Option.bind_eq_bind, Option.bind_some]
  · simp [Expr.emit, hclass, htold, code, past, first, h]

theorem emits_star (he : Emits e) : Emits (.star e) := by
  intro rules reuse test guard follow m hscope hm hn _
  cases hclass : e.class? with
  | some s =>
    refine ⟨m.push (.span (.ofSet s)), ?_, (lays_push hm _).of_eq ?_⟩
    · rw [emit, if_neg (by simp [hn])]
      simp only [hclass]
    · simp [Expr.emit, hclass]
  | none =>
    cases htold : e.toldByNext rules follow with
    | true => exact exists_emit_star_told he hscope hm hn hclass htold
    | false => exact exists_emit_star_kept he hscope hm hn hclass htold

/-- A negative lookahead that is decided by the next character. -/
theorem exists_emit_not_told (hm : m.Counts) (hn : m.tooLarge = false)
    (htold : e.headFailIn rules = true) :
    ∃ m', emit (.not e) rules reuse test follow m = some m' ∧
      Lays m ((Expr.not e).emit Segment.resolveCalls rules reuse guard follow m.here) m' := by
  let h := e.headIn rules .full
  have hlays₁ := lays_pushIf_headTest hm h
  have hle₁ := hlays₁.here_le
  obtain ⟨m₂, hjump₂, hlays₂, -⟩ := (hlays₁.push .fail).exists_jumpHere_headTest hm
    (by rw [here_push]; omega) (u := m.here + h.testLength + 1) rfl
  refine ⟨m₂, ?_, hlays₂.of_eq ?_⟩
  · rw [emit, if_neg (by simp [hn])]
    simp only [htold, if_true, h, hjump₂]
  · rw [Expr.emit, if_pos htold]

/-- A negative lookahead that pushes a frame. -/
theorem exists_emit_not_pushed (he : Emits e) (hscope : (Expr.not e).inScope False rules.length)
    (hm : m.Counts) (hn : m.tooLarge = false) (htold : e.headFailIn rules = false) :
    ∃ m', emit (.not e) rules reuse test follow m = some m' ∧
      Lays m ((Expr.not e).emit Segment.resolveCalls rules reuse guard follow m.here) m' := by
  let h := e.headIn rules .full
  let first := m.here + h.testLength + 1
  let code := e.emit Segment.resolveCalls rules false none .full first
  let past := first + code.length + 1
  have hlays₁ := lays_pushIf_headTest hm h
  have hle₁ := hlays₁.here_le
  obtain ⟨m₂, hemit₂, hlays₂, hle₂⟩ := he.after hscope (hlays₁.push (.choice 0)) (fun _ => rfl)
    (t := none) (b := first) (by simp [first, Instr.length_headTest, Nat.add_assoc])
    (show code = _ from rfl)
  rw [here_push] at hle₂
  obtain ⟨m₃, hjump₃, hlays₃, hhere₃⟩ := hlays₁.exists_jumpHere rfl (hlays₂.push .failTwice)
    (by rw [here_push]; omega) (u := past) (by simp [past, first, Instr.length_headTest]; omega)
    (i := .choice 0) (y := code ++ [Instr.failTwice])
    (d := Instr.headTest h 0 ++ Instr.choice past :: (code ++ [Instr.failTwice])) (by simp) rfl
  rw [here_push] at hhere₃
  obtain ⟨m₄, hjump₄, hlays₄, -⟩ := hlays₃.exists_jumpHere_headTest hm (by omega) (u := past)
    (by simp [past, first]; omega)
  refine ⟨m₄, ?_, hlays₄.of_eq ?_⟩
  · rw [emit, if_neg (by simp [hn])]
    simp only [htold, Bool.false_eq_true, if_false, h, hemit₂, hjump₃, hjump₄, Option.bind_eq_bind,
      Option.bind_some]
  · simp [Expr.emit, htold, code, past, first, h]

theorem emits_not (he : Emits e) : Emits (.not e) := by
  intro rules reuse test guard follow m hscope hm hn _
  cases htold : e.headFailIn rules with
  | true => exact exists_emit_not_told hm hn htold
  | false => exact exists_emit_not_pushed he hscope hm hn htold

/-- A lookahead that goes back by a fixed length. -/
theorem exists_emit_and_fixed (he : Emits e) (hscope : (Expr.and e).inScope False rules.length)
    (hm : m.Counts) (hn : m.tooLarge = false) (hguard : m.guardAt test = some guard) {length : Nat}
    (hlength : e.fixedLengthIn rules = some length) (hactions : e.hasActionsIn rules = false) :
    ∃ m', emit (.and e) rules reuse test follow m = some m' ∧
      Lays m ((Expr.and e).emit Segment.resolveCalls rules reuse guard follow m.here) m' := by
  obtain ⟨m₁, hemit₁, hlays₁⟩ := he (r := false) (f := .full) hscope hm hn hguard
  refine ⟨_, ?_, (hlays₁.pushIf (length != 0) (.behind length)).of_eq ?_⟩
  · rw [emit, if_neg (by simp [hn])]
    simp only [hlength, hactions, hemit₁, Option.map_some]
  · rw [Expr.emit]
    simp only [hlength, hactions]
    by_cases hzero : length = 0 <;> simp [hzero]

/-- A lookahead that pushes a frame. -/
theorem exists_emit_and_pushed (he : Emits e) (hscope : (Expr.and e).inScope False rules.length)
    (hm : m.Counts) (hn : m.tooLarge = false) (hguard : m.guardAt test = some guard)
    (hfixed : ∀ length, e.fixedLengthIn rules = some length → e.hasActionsIn rules = true) :
    ∃ m', emit (.and e) rules reuse test follow m = some m' ∧
      Lays m ((Expr.and e).emit Segment.resolveCalls rules reuse guard follow m.here) m' := by
  let code := e.emit Segment.resolveCalls rules false guard .full (m.here + 1)
  let failed := m.here + 1 + code.length + 1
  have hrefl := Lays.refl hm
  have hlays₁ := lays_push hm (.choice 0)
  obtain ⟨m₂, hemit₂, hlays₂, hle₂⟩ :=
    he.after hscope hlays₁ (hlays₁.guardAt hguard) rfl (show code = _ from rfl)
  rw [here_push] at hle₂
  obtain ⟨m₃, hjump₃, hlays₃, hhere₃⟩ := hrefl.exists_jumpHere rfl (hlays₂.push (.backCommit 0))
    (by rw [here_push]; omega) (x := []) (u := failed) (by simp [failed]; omega)
    (i := .choice 0) (d := .choice failed :: (code ++ [Instr.backCommit 0])) rfl rfl
  rw [here_push] at hhere₃
  obtain ⟨m₄, hjump₄, hlays₄, -⟩ := hlays₂.exists_jumpHere (i := .backCommit 0)
    (x := .choice failed :: code) (y := [.fail]) (by simp) (hlays₃.push .fail)
    (by rw [here_push]; omega) (u := failed + 1) (by simp [failed]; omega) (by simp) rfl
  refine ⟨m₄, ?_, hlays₄.of_eq ?_⟩
  · rw [emit, if_neg (by simp [hn])]
    cases hlength : e.fixedLengthIn rules with
    | none =>
      simp only [hemit₂, hjump₃, hjump₄, Option.bind_eq_bind, Option.bind_some]
    | some length =>
      simp only [hfixed length hlength, hemit₂, hjump₃, hjump₄, Option.bind_eq_bind,
        Option.bind_some]
  · rw [Expr.emit]
    cases hlength : e.fixedLengthIn rules with
    | none => simp [Instr.withTarget, code, failed]
    | some length => simp [Instr.withTarget, hfixed length hlength, code, failed]

theorem emits_and (he : Emits e) : Emits (.and e) := by
  intro rules reuse test guard follow m hscope hm hn hguard
  cases hlength : e.fixedLengthIn rules with
  | none => exact exists_emit_and_pushed he hscope hm hn hguard (by simp [hlength])
  | some length =>
    cases hactions : e.hasActionsIn rules with
    | false => exact exists_emit_and_fixed he hscope hm hn hguard hlength hactions
    | true => exact exists_emit_and_pushed he hscope hm hn hguard fun _ _ => hactions

theorem emits_behind {width : Nat} (he : Emits e) : Emits (.behind width e) := by
  intro rules reuse test guard follow m hscope hm hn _
  by_cases hzero : width = 0
  · obtain ⟨m₁, hemit₁, hlays₁⟩ := he (r := false) (t := none) (g := none)
      (f := .full) hscope hm hn rfl
    refine ⟨m₁, ?_, hlays₁.of_eq ?_⟩
    · rw [emit, if_neg (by simp [hn])]
      simpa [hzero, pushIf] using hemit₁
    · rw [Expr.emit, if_pos hzero]
  · obtain ⟨m₁, hemit₁, hlays₁, -⟩ := he.after hscope (lays_push hm (.behind width))
      (fun _ => rfl) rfl rfl (r := false) (t := none) (g := none) (f := .full)
    refine ⟨m₁, ?_, hlays₁.of_eq ?_⟩
    · rw [emit, if_neg (by simp [hn])]
      simpa [hzero, pushIf] using hemit₁
    · rw [Expr.emit, if_neg hzero]
      rfl

theorem emits_action {a : α} (he : Emits e) : Emits (.action a e) := by
  intro rules reuse test guard follow m hscope hm hn hguard
  have hlays₁ := lays_push hm (.openAction a)
  obtain ⟨m₂, hemit₂, hlays₂, -⟩ := he.after hscope hlays₁ (hlays₁.guardAt hguard) rfl rfl
    (r := false) (f := .full)
  refine ⟨_, ?_, (hlays₂.push .closeAction).of_eq ?_⟩
  · rw [emit, if_neg (by simp [hn])]
    simp only [hemit₂, Option.map_some]
  · rw [Expr.emit]
    rfl

theorem emits_char (c : Char) : Emits (.char c : Expr α) := by
  intro rules reuse test guard follow m _ hm hn hguard
  refine ⟨m.push (.forChar c guard), ?_, lays_push hm _⟩
  rw [emit, if_neg (by simp [hn])]
  simp only [pushChar, hguard, Option.map_some]

theorem emits_set (s : CharSet) : Emits (.set s : Expr α) := by
  intro rules reuse test guard follow m _ hm hn hguard
  refine ⟨m.push (.forSet s guard), ?_, lays_push hm _⟩
  rw [emit, if_neg (by simp [hn])]
  simp only [pushSet, pushChar, hguard, Option.map_some, Instr.forSet]
  split <;> simp_all

/-! ## Grammars -/

/-- The rules of a grammar are emitted one after the other, and their addresses are right. -/
theorem exists_emitRules {all rest : List (Rule α)} (hrest : ∀ r ∈ rest, Emits r.body)
    (hscope : ∀ r ∈ rest, r.body.inScope False all.length) {c : List (Instr α)} (h : Lays m c m')
    {b : Nat} (hb : b = m.here + c.length) :
    ∃ addrs m'', emitRules rest all m' = some (addrs, m'') ∧
      Lays m (c ++ (Expr.emitRules Segment.resolveCalls rest all b).flatten) m'' ∧
      m'.here ≤ m''.here ∧ (m''.tooLarge = false →
        addrs = Instr.starts b (Expr.emitRules Segment.resolveCalls rest all b)) := by
  induction rest generalizing c m' b with
  | nil =>
    exact ⟨[], m', by rw [emitRules], h.of_eq (by simp [Expr.emitRules]), Nat.le_refl _,
      fun _ => rfl⟩
  | cons r rest ih =>
    obtain ⟨name, body⟩ := r
    rw [List.forall_mem_cons] at hrest hscope
    have hbody : Emits body := hrest.1
    obtain ⟨m₁, hemit₁, hlays₁, hle₁⟩ := hbody.after hscope.1 h (fun _ => rfl) hb rfl
      (r := false) (t := none) (g := none) (f := .full)
    have hlays₂ := hlays₁.push .ret
    obtain ⟨addrs, m₃, hemit₃, hlays₃, hle₃, haddrs⟩ := ih hrest.2 hscope.2 hlays₂
      (b := b + (body.emit Segment.resolveCalls all false none .full b ++ [Instr.ret]).length)
      (by simp [hb]; omega)
    rw [here_push] at hle₃
    refine ⟨m'.here :: addrs, m₃, ?_, hlays₃.of_eq (by simp [Expr.emitRules]), by omega,
      fun hn => ?_⟩
    · rw [emitRules]
      simp only [hemit₁, hemit₃, Option.bind_eq_bind, Option.bind_some, Option.pure_def]
    · rw [Expr.emitRules, Instr.starts, haddrs hn,
        h.here_eq (hlays₃.not_tooLarge_of_le h (by omega) hn), ← hb]

/-- Linking replaces the code from an address on by what linking makes of it. -/
theorem Lays.linkFrom {c₁ c₂ : List (Instr α)} (h : Lays m (c₁ ++ c₂) m')
    (hn : m'.tooLarge = false) {start : Nat} (hstart : start = m.here + c₁.length)
    (addrs : List Nat) :
    Lays m (c₁ ++ (Segment.resolveCalls addrs ⟨start, c₂.toArray⟩).code.toList)
      (m'.linkFrom start addrs) := by
  have hcode := h.code hn
  have hlength : (m.code.toList ++ c₁).length = start := by simp [hstart, here]
  have hprefix : (m'.code.extract 0 start).toList = m.code.toList ++ c₁ := by
    rw [Array.toList_extract, hcode, ← List.append_assoc, ← hlength, List.extract_eq_take_drop,
      List.drop_zero, Nat.sub_zero, List.take_left]
  have hsuffix : m'.code.extract start m'.code.size = c₂.toArray := by
    refine Array.toList_inj.1 ?_
    rw [Array.toList_extract, hcode, ← List.append_assoc, ← hlength, List.extract_eq_take_drop,
      List.drop_left]
    exact List.take_of_length_le (by simp [← Array.length_toList, hcode, ← Nat.add_assoc])
  have hlinked : (m'.linkFrom start addrs).code.toList = m.code.toList
      ++ (c₁ ++ (Segment.resolveCalls addrs ⟨start, c₂.toArray⟩).code.toList) := by
    rw [Emitter.linkFrom, hsuffix, Array.toList_append, hprefix, List.append_assoc]
  have hhere : (m'.linkFrom start addrs).here = m'.here := by
    rw [here, ← Array.length_toList, hlinked, here, ← Array.length_toList, hcode]
    simp [Segment.size_resolveCalls]
  refine ⟨h.limit, ⟨by rw [hhere]; exact h.counts.iff⟩, by rw [hhere]; exact h.here_le,
    fun _ => hlinked, fun ho => ?_⟩
  have := h.beyond ho
  simpa [Segment.size_resolveCalls] using this

theorem emits_grammar {rules : List (Rule α)} (hrules : ∀ r ∈ rules, Emits r.body) :
    Emits (.grammar rules) := by
  intro _ reuse test guard follow m hscope hm hn _
  let start := m.here + 2
  let codes := Expr.emitRules Segment.resolveCalls rules rules start
  have hrefl := Lays.refl hm
  have hlays₁ := lays_push hm (.call 0)
  have hlays₂ := hlays₁.push (.jump 0)
  have hhere₂ : ((m.push (.call 0)).push (.jump 0)).here = start := by rw [here_push, here_push]
  obtain ⟨m₃, hjump₃, hlays₃, hhere₃⟩ := hrefl.exists_jumpHere (x := []) rfl hlays₂ (by omega)
    (u := start) rfl (i := .call 0) (d := [.call start, .jump 0]) rfl rfl
  obtain ⟨addrs, m₄, hemit₄, hlays₄, hle₄, haddrs⟩ :=
    exists_emitRules hrules (inScopeRules_iff.1 hscope.2) hlays₃ (b := start) rfl
  obtain ⟨m₅, hjump₅, hlays₅, hhere₅⟩ := hlays₁.exists_jumpHere (x := [.call start]) rfl hlays₄
    (by rw [here_push]; omega) (u := start + codes.flatten.length)
    (by simp [start, codes]; omega) (i := .jump 0) (y := codes.flatten)
    (d := [Instr.call start, .jump (start + codes.flatten.length)] ++ codes.flatten) rfl rfl
  refine ⟨if m₅.tooLarge then m₅ else m₅.linkFrom start addrs, ?_, ?_⟩
  · rw [emit, if_neg (by simp [hn])]
    simp only [hhere₂, hjump₃, hemit₄, hjump₅, Option.bind_eq_bind, Option.bind_some,
      Option.pure_def]
  · cases hn₅ : m₅.tooLarge with
    | true =>
      rw [if_pos rfl, Expr.emit]
      refine hlays₅.congr (by simp [Segment.size_resolveCalls, codes, start]) fun hn' => ?_
      rw [hn₅] at hn'
      cases hn'
    | false =>
      have hstarts : addrs = Instr.starts start codes :=
        haddrs (hlays₅.not_tooLarge_of_le hlays₄ (Nat.le_of_eq hhere₅.symm) hn₅)
      rw [if_neg Bool.false_ne_true, Expr.emit]
      exact (hlays₅.linkFrom hn₅ rfl addrs).of_eq (by simp [hstarts, codes, start])

end Cases

/-- **An emitter within its limit adds the code that the expression is said to have.** -/
theorem emits (e : Expr α) : Emits e := by
  induction e with
  | char c => exact emits_char c
  | set s => exact emits_set s
  | any | fail | ruleCall i =>
    intro rules reuse test guard follow m _ hm hn _
    exact ⟨_, by rw [emit, if_neg (by simp [hn])], lays_push hm _⟩
  | empty =>
    intro rules reuse test guard follow m _ hm hn _
    exact ⟨m, by rw [emit, if_neg (by simp [hn])], .refl hm⟩
  | openCall i =>
    intro rules reuse test guard follow m hscope hm hn _
    exact hscope.elim
  | seq first second ih₁ ih₂ => exact emits_seq ih₁ ih₂
  | choice first second ih₁ ih₂ => exact emits_choice ih₁ ih₂
  | star body ih => exact emits_star ih
  | not body ih => exact emits_not ih
  | and body ih => exact emits_and ih
  | behind width body ih => exact emits_behind ih
  | action a body ih => exact emits_action ih
  | grammar rules ih => exact emits_grammar ih

/-- The code of a whole pattern is laid out, or there is too much of it. -/
theorem exists_emit_layout {root : Expr α} (hscope : root.inScope False 0) (limit : Nat) :
    ∃ m, emit root [] false none .full { limit := limit } = some m ∧
      Lays { limit := limit } (Program.layout root) ((m.push .halt).push .giveUp) := by
  have hm : ({ limit := limit } : Emitter α).Counts := ⟨by simp [here]⟩
  obtain ⟨m, hemit, hlays⟩ := emits root (r := false) (t := none)
    (f := .full) (show root.inScope False ([] : List (Rule α)).length from hscope) hm rfl rfl
  exact ⟨m, hemit, ((hlays.push .halt).push .giveUp).of_eq (by rw [Program.layout]; simp [here])⟩

end Emitter
end PegMachine
