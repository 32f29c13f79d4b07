import PegMachine.Code.Emission
import PegMachine.Pattern

/-!
# Programs

A pattern is compiled in three steps.  It is resolved, which fails if it refers to rules outside of
any grammar; its code is laid out, followed by the instruction that ends a successful match; and
jumps are threaded.  The last instruction is where the machine ends up when all alternatives have
failed.
-/

set_option autoImplicit false

namespace PegMachine

/-- The largest number of instructions of a program. -/
def maxInstructions : Nat := UInt32.size - 1

/-- A program of the matching machine. -/
structure Program (α : Type) where
  /-- The instructions. -/
  code : Array (Instr α)

/-- What can be chosen about compilation. -/
structure CompileOptions where
  /-- Whether jumps to jumps are shortened. -/
  thread : Bool := true
  /-- The largest number of instructions asked for; `maxInstructions` is a limit in any case. -/
  limit : Nat := maxInstructions

namespace Program

variable {α : Type}

/-- The address of the last instruction, where a match that has failed ends up. -/
def giveUp (p : Program α) : Nat := p.code.size - 1

/-- The instructions of a resolved expression, before jumps are threaded. -/
def layout (e : Expr α) : List (Instr α) :=
  e.emit Segment.resolveCalls [] false none .full 0 ++ [.halt, .giveUp]

/-- The program of a pattern. -/
def compile (options : CompileOptions) (p : Pattern α) : Except Error (Program α) := do
  let root ← p.root.resolve p.refs []
  let code : Segment α := ⟨0, (layout root).toArray⟩
  if min options.limit maxInstructions < code.code.size then throw .tooLarge
  return ⟨if options.thread then code.threadJumps.code else code.code⟩

/-- A line of a listing. -/
def line (addr : Nat) (instr : Instr α) : String :=
  Instr.addressText addr ++ ": " ++ instr.text ++ "\n"

/-- The listing of the program: a blank line, then the instructions, each with its address. -/
def text (p : Program α) : String := "\n" ++ String.join (p.code.toList.mapIdx line)

end Program
end PegMachine
