import PegMachine.Instr

/-!
# Jumps that lead to jumps

Two passes go over code that is laid out already, and both ask where a chain of jumps ends.

* `Segment.landing` — the first address from the given one on, along jumps, that holds no jump.
* `Segment.resolveCalls` — puts calls of rules in the place of open calls.  A call after which
  there is nothing left to do but to return becomes a jump, and the rule returns for both.
* `Segment.threadJumps` — sends every transfer of control straight to where it ends up.  A jump to
  an instruction that goes elsewhere anyway is replaced by that instruction.

Both passes change the code as they go, from low addresses to high ones, so what is asked about
later addresses is asked of code in which the earlier ones have been changed.
-/

set_option autoImplicit false

namespace PegMachine

/-- A piece of code and the address of its first instruction. -/
structure Segment (α : Type) where
  /-- The address of the first instruction. -/
  start : Nat
  /-- The instructions. -/
  code : Array (Instr α)

namespace Segment

variable {α : Type}

/-- The instruction at an address. -/
def get? (s : Segment α) (addr : Nat) : Option (Instr α) :=
  if addr < s.start then none else s.code[addr - s.start]?

/-- Replaces the instruction at an address, if there is one. -/
def put (s : Segment α) (addr : Nat) (instr : Instr α) : Segment α :=
  if addr < s.start then s else { s with code := s.code.setIfInBounds (addr - s.start) instr }

/-- The addresses of the segment, from low to high. -/
def addresses (s : Segment α) : List Nat := List.range' s.start s.code.size

/-- Follows at most `steps` jumps from an address on. -/
def follow (s : Segment α) : Nat → Nat → Nat
  | 0, addr => addr
  | steps + 1, addr =>
    match s.get? addr with
    | some (.jump t) => follow s steps t
    | _ => addr

/-- The first address from `addr` on, along jumps, that holds no jump.  A chain of jumps that is
longer than the segment goes round in circles, and is left anywhere. -/
def landing (s : Segment α) (addr : Nat) : Nat := s.follow s.code.size addr

/-! ## Calls of rules -/

/-- What to put at an address: a jump or a call in the place of an open call. -/
def resolveAt (starts : List Nat) (s : Segment α) (addr : Nat) : Segment α :=
  match s.get? addr with
  | some (.openCall rule) =>
    match starts[rule]? with
    | none => s
    | some t =>
      match s.get? (s.landing (addr + 1)) with
      | some .ret => s.put addr (.jump t)
      | _ => s.put addr (.call t)
  | _ => s

/-- Puts calls in the place of the open calls, where rule `i` starts at place `i` of `starts`. -/
def resolveCalls (starts : List Nat) (s : Segment α) : Segment α :=
  s.addresses.foldl (resolveAt starts) s

/-! ## Threading -/

/-- The instruction with its target moved to where control ends up. -/
def retarget (s : Segment α) (instr : Instr α) : Instr α :=
  match instr.target? with
  | some t => instr.withTarget (s.landing t)
  | none => instr

/-- What to put in the place of a jump at `addr`. -/
def threadJump (s : Segment α) (addr : Nat) : Instr α :=
  let last := s.landing addr
  match s.get? last with
  | some .ret => .ret
  | some .fail => .fail
  | some .failTwice => .failTwice
  | some .halt => .halt
  | some (.commit t) => .commit (s.landing t)
  | some (.partialCommit t) => .partialCommit (s.landing t)
  | some (.backCommit t) => .backCommit (s.landing t)
  | _ => .jump last

/-- Threads the instruction at one address, and finishes its test. -/
def threadAt (s : Segment α) (addr : Nat) : Segment α :=
  match s.get? addr with
  | none => s
  | some (.jump _) => s.put addr (s.threadJump addr)
  | some (.testSet k t) => s.put addr (.testSet k.finish (s.landing t))
  | some instr => s.put addr (s.retarget instr)

/-- Threads all instructions. -/
def threadJumps (s : Segment α) : Segment α := s.addresses.foldl threadAt s

end Segment
end PegMachine
