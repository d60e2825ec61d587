import Assembler.Storage.View

/-! Nested values to be stored into a grid, one for each element. -/

namespace Assembler

inductive ValueTree where
  | leaf (value : Word)
  | node (children : List ValueTree)

namespace ValueTree

mutual

def hasShape : ValueTree → List Nat → Bool
  | .leaf _, [] => true
  | .node children, extent :: rest => children.length == extent && allHaveShape children rest
  | _, _ => false

def allHaveShape : List ValueTree → List Nat → Bool
  | [], _ => true
  | child :: others, shape => child.hasShape shape && allHaveShape others shape

end

mutual

def leaves : ValueTree → List Word
  | .leaf value => [value]
  | .node children => allLeaves children

def allLeaves : List ValueTree → List Word
  | [] => []
  | child :: others => child.leaves ++ allLeaves others

end

end ValueTree

def Grid.zip (g : Grid) (values : ValueTree) : Except Fault (List (Cell × Word)) :=
  if values.hasShape g.shape then .ok (g.elements.zip values.leaves)
  else .error (.wrongShape g.name g.shape)

end Assembler
