/-!
# Trees drawn as text

A tree of labels is drawn with one node a line.  The lines of a child hang from a rail: the first
line of a child carries a branch, `├── ` or `└── ` for the last child, and its other lines carry the
rail on, `│   ` or blanks below the last child.
-/

set_option autoImplicit false

namespace PegMachine.Text

/-- A tree of labels. -/
inductive Tree where
  | node (label : String) (children : List Tree)

namespace Tree

/-- A tree without children. -/
def leaf (label : String) : Tree := node label []

/-- Puts `first` in front of the first line and `others` in front of the others. -/
def hang (first others : String) : List String → List String
  | [] => []
  | line :: rest => (first ++ line) :: rest.map (others ++ ·)

mutual

/-- The lines of a tree. -/
def lines : Tree → List String
  | node label children => label :: branches children

/-- The lines of the children, each hung from the rail. -/
def branches : List Tree → List String
  | [] => []
  | [t] => hang "└── " "    " (lines t)
  | t :: ts => hang "├── " "│   " (lines t) ++ branches ts

end

/-- The drawing, every line ended by a line feed. -/
def text (t : Tree) : String := String.join (t.lines.map (· ++ "\n"))

end Tree
end PegMachine.Text
