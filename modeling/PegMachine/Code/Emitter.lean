import PegMachine.Program

/-!
# Code one instruction after the other

`Expr.emit` says what the code of an expression is.  This is how the code comes about when it is
written down from its start on, and how the limit on its length is kept.  An instruction whose
target is not known yet is pushed without it, and gets it later; what a test has established is read
off the code again.  When there are more instructions than allowed, no further expression is begun,
but what has been begun is completed, on code that ends somewhere.

All of this looks up instructions by their addresses.  Where there is none at an address, and for an
open call, which must have been resolved before, there is no result.

* `Emitter.emit` — pushes the code of an expression.
* `Emitter.compile` — makes the program of a pattern in this way.
-/

set_option autoImplicit false

namespace PegMachine

/-- What a test for the next character establishes when it is passed, as far as it can be read off
the instruction. -/
def Instr.establishes {α : Type} : Instr α → Option Guard
  | testChar c _ => some (.char c)
  | testSet (.pending s) _ => some (.set s)
  | _ => none

/-- Code that is being written. -/
structure Emitter (α : Type) where
  /-- The instructions so far. -/
  code : Array (Instr α) := #[]
  /-- The largest number of instructions that is allowed. -/
  limit : Nat
  /-- Whether there are more. -/
  tooLarge : Bool := false

namespace Emitter

variable {α : Type}

/-- The address of the next instruction. -/
def here (m : Emitter α) : Nat := m.code.size

/-- Adds an instruction. -/
def push (m : Emitter α) (instr : Instr α) : Emitter α :=
  { m with
    code := m.code.push instr
    tooLarge := m.tooLarge || decide (m.limit < m.code.size + 1) }

/-- Gives the instruction at the address, if there is an address, its target. -/
def jumpTo (m : Emitter α) (addr : Option Nat) (target : Nat) : Option (Emitter α) :=
  match addr with
  | none => some m
  | some addr =>
    (m.code[addr]?).map fun instr =>
      { m with code := m.code.setIfInBounds addr (instr.withTarget target) }

/-- Makes the instruction at the address, if there is an address, lead to the next instruction. -/
def jumpHere (m : Emitter α) (addr : Option Nat) : Option (Emitter α) := m.jumpTo addr m.here

/-- What has been established about the next character by the test at the address, if there is an
address. -/
def guardAt (m : Emitter α) : Option Nat → Option (Option Guard)
  | none => some none
  | some addr => (m.code[addr]?).map Instr.establishes

/-- Consumes a given character. -/
def pushChar (m : Emitter α) (c : Char) (test : Option Nat) : Option (Emitter α) :=
  (m.guardAt test).map fun guard => m.push (.forChar c guard)

/-- Consumes a character of a set.  The test is looked at only where it could help. -/
def pushSet (m : Emitter α) (s : CharSet) (test : Option Nat) : Option (Emitter α) :=
  match s.extent with
  | .none => some (m.push .fail)
  | .all => some (m.push .any)
  | .one c => m.pushChar c test
  | .several => (m.guardAt test).map fun guard => m.push (.forSet s guard)

/-- Adds an instruction if the condition is met. -/
def pushIf (m : Emitter α) (b : Bool) (instr : Instr α) : Emitter α :=
  if b then m.push instr else m

/-- The address of an instruction that is added if the condition is met. -/
def hereIf (m : Emitter α) (b : Bool) : Option Nat := if b then some m.here else none

/-- Puts calls of rules in the place of the open calls from an address on. -/
def linkFrom (m : Emitter α) (start : Nat) (addrs : List Nat) : Emitter α :=
  { m with code := m.code.extract 0 start
      ++ (Segment.resolveCalls addrs ⟨start, m.code.extract start m.code.size⟩).code }

mutual

/-- Adds the code of an expression.  The argument in the place of the guard is the address of the
test that has established it. -/
def emit : Expr α → List (Rule α) → Bool → Option Nat → CharSet → Emitter α → Option (Emitter α)
  | e, rules, reuse, test, follow, m =>
    if m.tooLarge then some m
    else match e with
    | .char c => m.pushChar c test
    | .set s => m.pushSet s test
    | .any => some (m.push .any)
    | .empty => some m
    | .fail => some (m.push .fail)
    | .openCall _ => none
    | .ruleCall i => some (m.push (.openCall i))
    | .seq first second => do
      let next := if first.usesFollow then (second.headIn rules follow).chars else .full
      let m ← emit first rules false test next m
      let test := if first.fixedLengthIn rules = some 0 then test else none
      emit second rules reuse test follow m
    | .choice first second =>
      let h := first.headIn rules .full
      if first.toldByNext rules (second.headIn rules follow).chars then do
        let test := m.here
        let m ← emit first rules false (some test) follow (m.push (.forTest h.chars 0))
        let skip := m.hereIf !second.isEmpty
        let m := m.pushIf (!second.isEmpty) (.jump 0)
        let m ← m.jumpHere (some test)
        let m ← emit second rules reuse none follow m
        m.jumpHere skip
      else if reuse && second.isEmpty then do
        let commit := m.here
        let m ← (m.push (.partialCommit 0)).jumpHere (some commit)
        emit first rules true none .full m
      else do
        let test := m.hereIf h.needsChar
        let m := m.pushIf h.needsChar (.forTest h.chars 0)
        let choice := m.here
        let m ← emit first rules second.isEmpty test .full (m.push (.choice 0))
        let commit := m.here
        let m ← (m.push (.commit 0)).jumpHere (some choice)
        let m ← m.jumpHere test
        let m ← emit second rules reuse none follow m
        m.jumpHere (some commit)
    | .star body =>
      match body.class? with
      | some s => some (m.push (.span (.ofSet s)))
      | none =>
        let h := body.headIn rules .full
        if body.toldByNext rules follow then do
          let test := m.here
          let m ← emit body rules reuse (some test) .full (m.push (.forTest h.chars 0))
          let jump := m.here
          let m ← (m.push (.jump 0)).jumpHere (some test)
          m.jumpTo (some jump) test
        else do
          let test := m.hereIf h.needsChar
          let m := m.pushIf h.needsChar (.forTest h.chars 0)
          let commit := m.hereIf reuse
          let choice := m.hereIf !reuse
          let m ← (m.push (if reuse then .partialCommit 0 else .choice 0)).jumpHere commit
          let first := m.here
          let m ← emit body rules false none .full m
          let m ← (m.push (.partialCommit first)).jumpHere choice
          m.jumpHere test
    | .behind width body =>
      emit body rules false none .full (m.pushIf (width != 0) (.behind width))
    | .not body => do
      let h := body.headIn rules .full
      let test := m.hereIf h.needsChar
      let m := m.pushIf h.needsChar (.forTest h.chars 0)
      if body.headFailIn rules then (m.push .fail).jumpHere test
      else
        let choice := m.here
        let m ← emit body rules false none .full (m.push (.choice 0))
        let m ← (m.push .failTwice).jumpHere (some choice)
        m.jumpHere test
    | .and body =>
      match body.fixedLengthIn rules, body.hasActionsIn rules with
      | some length, false =>
        (emit body rules false test .full m).map fun m => m.pushIf (length != 0) (.behind length)
      | _, _ => do
        let choice := m.here
        let m ← emit body rules false test .full (m.push (.choice 0))
        let commit := m.here
        let m ← (m.push (.backCommit 0)).jumpHere (some choice)
        (m.push .fail).jumpHere (some commit)
    | .action a body =>
      (emit body rules false test .full (m.push (.openAction a))).map (·.push .closeAction)
    | .grammar rules => do
      let call := m.here
      let m := m.push (.call 0)
      let skip := m.here
      let m := m.push (.jump 0)
      let start := m.here
      let m ← m.jumpHere (some call)
      let (addrs, m) ← emitRules rules rules m
      let m ← m.jumpHere (some skip)
      return if m.tooLarge then m else m.linkFrom start addrs

/-- Adds the code of each rule of a grammar, and tells where the rules start. -/
def emitRules : List (Rule α) → List (Rule α) → Emitter α → Option (List Nat × Emitter α)
  | [], _, m => some ([], m)
  | ⟨_, body⟩ :: rest, rules, m => do
    let start := m.here
    let m ← emit body rules false none .full m
    let (addrs, m) ← emitRules rest rules (m.push .ret)
    return (start :: addrs, m)

end

/-- What is beyond its limit emits nothing more. -/
theorem emit_of_tooLarge {m : Emitter α} (e : Expr α) (rules : List (Rule α)) (reuse : Bool)
    (test : Option Nat) (follow : CharSet) (ho : m.tooLarge = true) :
    emit e rules reuse test follow m = some m := by
  cases e <;> rw [emit, if_pos ho]

/-- The program of a pattern, or the error, unless an instruction is looked up where there is none.
-/
def compile (options : CompileOptions) (p : Pattern α) : Option (Except Error (Program α)) :=
  match p.root.resolve p.refs [] with
  | .error e => some (.error e)
  | .ok root => do
    let m ← emit root [] false none .full { limit := min options.limit maxInstructions }
    let m := (m.push .halt).push .giveUp
    if m.tooLarge then return .error .tooLarge
    return .ok ⟨if options.thread then (Segment.mk 0 m.code).threadJumps.code else m.code⟩

end Emitter
end PegMachine
