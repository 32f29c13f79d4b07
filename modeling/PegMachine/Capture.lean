import PegMachine.Action

/-!
# Captures

A *capturer* is a store that successful matches write to, and a mark in a pattern says which
capturer to write to and how.  There are three kinds: one collects the substrings that are matched,
one keeps the last substring for each of several names, and one collects positions.  Nothing is
written before the whole match has succeeded, and nothing is ever read by the match.

Each kind of capturer has names of its own, and a capturer that was never written to is empty.
-/

set_option autoImplicit false

namespace PegMachine

/-- A substring and its offset in the subject. -/
structure Capture where
  /-- Where the substring starts. -/
  offset : Nat
  /-- The substring. -/
  value : String
deriving DecidableEq

/-- A part of the subject. -/
def substring (subject : Array Char) (start stop : Nat) : String :=
  String.ofList (subject.extract start stop).toList

/-! ## Capturers -/

/-- The substrings captured, in the order in which they were committed. -/
structure Capturer where
  /-- The captures, the earliest first. -/
  items : Array Capture := #[]
deriving DecidableEq

namespace Capturer

/-- Adds a capture. -/
def push (c : Capturer) (x : Capture) : Capturer := ⟨c.items.push x⟩

/-- The captures ordered by offset; those with the same offset stay in the order of commits. -/
def captures (c : Capturer) : List Capture :=
  c.items.toList.mergeSort fun x y => x.offset ≤ y.offset

/-- The capture committed last. -/
def peek? (c : Capturer) : Option Capture := c.items.back?

/-- Removes the capture committed last. -/
def pop (c : Capturer) : Capturer := ⟨c.items.pop⟩

/-- The number of captures. -/
def size (c : Capturer) : Nat := c.items.size

end Capturer

/-- The last substring captured for each name. -/
structure NamedCapturer where
  /-- The names that have been captured, each once, with their substrings. -/
  items : List (String × String) := []
deriving DecidableEq

namespace NamedCapturer

/-- Sets the substring of a name. -/
def put (c : NamedCapturer) (name value : String) : NamedCapturer :=
  ⟨(name, value) :: c.items.filter fun x => x.1 != name⟩

/-- The substring of a name. -/
def get? (c : NamedCapturer) (name : String) : Option String := c.items.lookup name

end NamedCapturer

/-- The positions captured. -/
structure PositionCapturer where
  /-- The positions, in the order in which they were committed. -/
  items : Array Nat := #[]
deriving DecidableEq

namespace PositionCapturer

/-- Adds a position. -/
def push (c : PositionCapturer) (pos : Nat) : PositionCapturer := ⟨c.items.push pos⟩

/-- The positions in ascending order. -/
def positions (c : PositionCapturer) : List Nat := c.items.toList.mergeSort

/-- The number of positions. -/
def size (c : PositionCapturer) : Nat := c.items.size

end PositionCapturer

/-! ## Capturers by name -/

/-- Values by name; a name that was never set has the empty value. -/
structure Shelf (β : Type) where
  /-- The names that have been set, each once, with their values. -/
  items : List (String × β) := []
deriving DecidableEq

namespace Shelf

variable {β : Type}

/-- The value of a name. -/
def get (s : Shelf β) (empty : β) (name : String) : β := (s.items.lookup name).getD empty

/-- Sets the value of a name. -/
def put (s : Shelf β) (name : String) (value : β) : Shelf β :=
  ⟨(name, value) :: s.items.filter fun x => x.1 != name⟩

end Shelf

/-- The kinds of capturers. -/
inductive CapturerKind where
  /-- Capturers of substrings. -/
  | substrings
  /-- Capturers of named substrings. -/
  | named
  /-- Capturers of positions. -/
  | positions
deriving DecidableEq

/-- All capturers of the three kinds. -/
structure Captures where
  /-- The capturers of substrings. -/
  substrings : Shelf Capturer := {}
  /-- The capturers of named substrings. -/
  named : Shelf NamedCapturer := {}
  /-- The capturers of positions. -/
  positions : Shelf PositionCapturer := {}
deriving DecidableEq

namespace Captures

/-- The capturer of substrings with the given name. -/
def capturer (c : Captures) (id : String) : Capturer := c.substrings.get {} id

/-- The capturer of named substrings with the given name. -/
def namedCapturer (c : Captures) (id : String) : NamedCapturer := c.named.get {} id

/-- The capturer of positions with the given name. -/
def positionCapturer (c : Captures) (id : String) : PositionCapturer := c.positions.get {} id

/-- Replaces a capturer of substrings. -/
def setCapturer (c : Captures) (id : String) (x : Capturer) : Captures :=
  { c with substrings := c.substrings.put id x }

/-- Replaces a capturer of named substrings. -/
def setNamedCapturer (c : Captures) (id : String) (x : NamedCapturer) : Captures :=
  { c with named := c.named.put id x }

/-- Replaces a capturer of positions. -/
def setPositionCapturer (c : Captures) (id : String) (x : PositionCapturer) : Captures :=
  { c with positions := c.positions.put id x }

/-- Removes the capture committed last from a capturer of substrings, and returns it. -/
def pop (c : Captures) (id : String) : Option Capture × Captures :=
  ((c.capturer id).peek?, c.setCapturer id (c.capturer id).pop)

/-- Removes everything from a capturer. -/
def clear (c : Captures) (kind : CapturerKind) (id : String) : Captures :=
  match kind with
  | .substrings => c.setCapturer id {}
  | .named => c.setNamedCapturer id {}
  | .positions => c.setPositionCapturer id {}

end Captures

/-! ## Marks -/

/-- What to write when a match is committed. -/
inductive Mark where
  /-- The substring, to the capturer `id`. -/
  | substring (id : String)
  /-- The substring, under the name `key`, to the capturer `id`. -/
  | named (id key : String)
  /-- The position where the match starts, to the capturer `id`. -/
  | position (id : String)
deriving DecidableEq

namespace Mark

/-- Writes what the mark asks for. -/
def commit (m : Mark) (subject : Array Char) (start stop : Nat) (c : Captures) : Captures :=
  match m with
  | substring id =>
    c.setCapturer id ((c.capturer id).push ⟨start, PegMachine.substring subject start stop⟩)
  | named id key =>
    c.setNamedCapturer id
      ((c.namedCapturer id).put key (PegMachine.substring subject start stop))
  | position id => c.setPositionCapturer id ((c.positionCapturer id).push start)

/-- Marks welcome every match, and go on where it ended. -/
def actions : Actions Mark Captures where
  onMatch _ _ _ stop c := (some stop, c)
  onCommit := commit

end Mark
end PegMachine
