import PegMachine.Action
import PegMachine.Program

/-!
# The matching machine

The machine runs a program on a subject.  It has a position in the subject and a stack of frames.  A
frame pushed for a choice says where to go on, and from which position, if the current alternative
fails; a frame pushed for a call says only where to return to.  To fail is to drop frames down to
one of the first kind, and to go on there.  The bottom frame leads to the last instruction, where
the whole match has failed.

Actions are logged when they start.  A frame remembers the length of the log, and failing cuts the
log back to it, so that in the end the log holds the actions of the successful match, in the order
in which they started.

* `exec` — what one instruction does; `step` — what the next one does.
* `run` — at most the given number of steps.
* `Program.matchAt` — a match of a subject from an offset on.
-/

set_option autoImplicit false

namespace PegMachine

/-- An entry of the stack. -/
structure Frame where
  /-- Where to go on. -/
  resume : Nat
  /-- From which position, if the frame was pushed for a choice. -/
  pos : Option Nat
  /-- The length of the log when the frame was pushed, or last moved up. -/
  logged : Nat

/-- An action in the log. -/
structure Entry (α : Type) where
  /-- The action. -/
  action : α
  /-- The position where it started. -/
  start : Nat
  /-- Where matching went on after it, once it has ended. -/
  stop : Option Nat

/-- The state of the machine, with the store of the actions. -/
structure State (α σ : Type) where
  /-- The address of the next instruction. -/
  ip : Nat
  /-- The position in the subject. -/
  pos : Nat
  /-- The stack, its top first. -/
  frames : List Frame
  /-- The actions started so far. -/
  log : Array (Entry α)
  /-- The places in the log of the actions that have not ended, the latest first. -/
  opened : List Nat
  /-- What the actions keep. -/
  store : σ

/-- How a match ends. -/
inductive Verdict where
  /-- It succeeded, and ended at the given position. -/
  | success (stop : Nat)
  /-- It failed. -/
  | failure
  /-- An action answered with a position that is not from `pos` to `length`. -/
  | badAnswer (answer pos length : Nat)
  /-- The program is none that compilation makes. -/
  | broken
deriving DecidableEq

/-- Where a match that started at `start` has ended, which is where it started unless it
succeeded. -/
def Verdict.stopFrom (start : Nat) : Verdict → Nat
  | success stop => stop
  | _ => start

/-- What comes after a step. -/
inductive Outcome (α σ : Type) where
  /-- Another step. -/
  | next (s : State α σ)
  /-- Nothing more. -/
  | final (v : Verdict) (store : σ)

namespace State

variable {α σ : Type}

/-- Goes on with the next instruction. -/
def advance (s : State α σ) : State α σ := { s with ip := s.ip + 1 }

/-- Consumes a character. -/
def consume (s : State α σ) : State α σ := { s with ip := s.ip + 1, pos := s.pos + 1 }

/-- Goes on at another address. -/
def goto (s : State α σ) (target : Nat) : State α σ := { s with ip := target }

/-- Cuts the log back to its first `n` actions. -/
def rollback (s : State α σ) (n : Nat) : State α σ :=
  { s with log := s.log.take n, opened := s.opened.dropWhile (n ≤ ·) }

/-- Pushes a frame that remembers the log as it is. -/
def push (s : State α σ) (resume : Nat) (pos : Option Nat) : State α σ :=
  { s with frames := ⟨resume, pos, s.log.size⟩ :: s.frames }

/-- Drops the top frame. -/
def pop (s : State α σ) : State α σ := { s with frames := s.frames.tail }

/-- Makes the top frame resume from the current position and log. -/
def moveUp (s : State α σ) : State α σ :=
  match s.frames with
  | [] => s
  | f :: rest => { s with frames := { f with pos := some s.pos, logged := s.log.size } :: rest }

/-- Drops the top frame, and returns to its position and log. -/
def moveBack (s : State α σ) : State α σ :=
  match s.frames with
  | [] => s
  | f :: rest => { s with frames := rest, pos := f.pos.getD s.pos }.rollback f.logged

/-- The latest frame that was pushed for a choice, with its position, and the frames below it. -/
def unwind : List Frame → Option (Frame × Nat × List Frame)
  | [] => none
  | f :: rest =>
    match f.pos with
    | some pos => some (f, pos, rest)
    | none => unwind rest

/-- Fails: goes on where the latest choice says. -/
def fail (s : State α σ) : Outcome α σ :=
  match unwind s.frames with
  | none => .final .broken s.store
  | some (f, pos, rest) =>
    .next ({ s with ip := f.resume, pos := pos, frames := rest }.rollback f.logged)

end State

namespace Machine

variable {α σ : Type}

/-- The first position from `pos` on whose character is not in the class. -/
def spanEnd (k : CharClass) (subject : Array Char) (pos : Nat) : Nat :=
  if h : pos < subject.size then
    if k.contains subject[pos].toNat then spanEnd k subject (pos + 1) else pos
  else pos
termination_by subject.size - pos

/-- Commits the actions of the log that have ended, in the order in which they started. -/
def commitAll (acts : Actions α σ) (subject : Array Char) (log : Array (Entry α)) (store : σ) : σ :=
  log.foldl (fun store e =>
    match e.stop with
    | some stop => acts.onCommit e.action subject e.start stop store
    | none => store) store

/-- Consumes the next character if it is as wanted, and fails otherwise. -/
def consumeIf (want : Char → Bool) (subject : Array Char) (s : State α σ) : Outcome α σ :=
  match subject[s.pos]? with
  | some c => if want c then .next s.consume else s.fail
  | none => s.fail

/-- Goes on if the next character is as wanted, and jumps otherwise. -/
def testFor (want : Char → Bool) (target : Nat) (subject : Array Char) (s : State α σ) :
    Outcome α σ :=
  match subject[s.pos]? with
  | some c => if want c then .next s.advance else .next (s.goto target)
  | none => .next (s.goto target)

/-- Starts an action. -/
def openAction (a : α) (s : State α σ) : State α σ :=
  { s.advance with opened := s.log.size :: s.opened, log := s.log.push ⟨a, s.pos, none⟩ }

/-- Ends the action started last: asks it whether the match is welcome, and goes on where it says,
which must not be before the end of the match nor past the end of the subject. -/
def closeAction (acts : Actions α σ) (subject : Array Char) (s : State α σ) : Outcome α σ :=
  match s.opened with
  | [] => .final .broken s.store
  | i :: opened =>
    match s.log[i]? with
    | none => .final .broken s.store
    | some e =>
      match acts.onMatch e.action subject e.start s.pos s.store with
      | (none, store) => { s with opened := opened, store := store }.fail
      | (some answer, store) =>
        if answer < s.pos ∨ subject.size < answer then
          .final (.badAnswer answer s.pos subject.size) store
        else
          .next { s.advance with
            pos := answer, opened := opened, store := store
            log := s.log.setIfInBounds i { e with stop := some answer } }

/-- What an instruction does, in a match that started at the position `start`. -/
def exec (acts : Actions α σ) (subject : Array Char) (start : Nat) (instr : Instr α)
    (s : State α σ) : Outcome α σ :=
  match instr with
  | .any => consumeIf (fun _ => true) subject s
  | .tested _ => consumeIf (fun _ => true) subject s
  | .char c => consumeIf (fun d => d == c) subject s
  | .set k => consumeIf (fun d => k.contains d.toNat) subject s
  | .testAny t => testFor (fun _ => true) t subject s
  | .testChar c t => testFor (fun d => d == c) t subject s
  | .testSet k t => testFor (fun d => k.contains d.toNat) t subject s
  | .span k => .next { s.advance with pos := spanEnd k subject s.pos }
  | .behind n => if s.pos - start < n then s.fail else .next { s.advance with pos := s.pos - n }
  | .ret =>
    match s.frames with
    | [] => .final .broken s.store
    | f :: _ => .next (s.pop.goto f.resume)
  | .halt => .final (.success s.pos) (commitAll acts subject s.log s.store)
  | .giveUp => .final .failure s.store
  | .choice t => .next (s.push t (some s.pos)).advance
  | .jump t => .next (s.goto t)
  | .call t => .next ((s.push (s.ip + 1) none).goto t)
  | .openCall _ => .final .broken s.store
  | .commit t => .next (s.pop.goto t)
  | .partialCommit t => .next (s.moveUp.goto t)
  | .backCommit t => .next (s.moveBack.goto t)
  | .failTwice => s.pop.fail
  | .fail => s.fail
  | .openAction a => .next (openAction a s)
  | .closeAction => closeAction acts subject s

/-- What the next instruction does; there is nothing to do where no instruction stands. -/
def step (acts : Actions α σ) (code : Array (Instr α)) (subject : Array Char) (start : Nat)
    (s : State α σ) : Outcome α σ :=
  match code[s.ip]? with
  | none => .final .broken s.store
  | some instr => exec acts subject start instr s

/-- Runs the machine until the match has ended, if that takes at most the given number of steps. -/
def run (acts : Actions α σ) (code : Array (Instr α)) (subject : Array Char) (start : Nat) :
    Nat → State α σ → Option (Verdict × σ)
  | 0, _ => none
  | steps + 1, s =>
    match step acts code subject start s with
    | .next s => run acts code subject start steps s
    | .final v store => some (v, store)

/-- The state in which a match starts: at the first instruction, with a frame that leads to the last
one. -/
def start (p : Program α) (offset : Nat) (store : σ) : State α σ :=
  ⟨0, offset, [⟨p.giveUp, some offset, 0⟩], #[], [], store⟩

end Machine

/-- Matches a subject from an offset on, in at most the given number of steps.  What lies before the
offset is never looked at. -/
def Program.matchAt {α σ : Type} (p : Program α) (acts : Actions α σ) (subject : Array Char)
    (offset : Nat) (store : σ) (steps : Nat) : Except Error (Option (Verdict × σ)) :=
  if subject.size < offset then .error (.invalidOffset offset subject.size)
  else .ok (Machine.run acts p.code subject offset steps (Machine.start p offset store))

/-- The complaint about an action that answered with a position that it must not go to. -/
def badAnswerMessage (answer pos length : Nat) : String :=
  "action returned position " ++ toString answer ++ " outside " ++ toString pos ++ "..="
    ++ toString length

end PegMachine
