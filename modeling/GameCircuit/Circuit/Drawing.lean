import GameCircuit.Circuit.Basic
import GameCircuit.Language.Printing

/-!
# Drawing a circuit

Writes a circuit as a graph in the DOT language.
-/

namespace GameCircuit

namespace Circuit

variable (c : Circuit) (l : Lexicon)

/-- The colour of a proposition: those of the state and those of moves stand out. -/
def fill (id : Nat) : String :=
  if c.base.contains id then "grey" else if c.inputs.contains id then "lightblue" else "white"

/-- How a component is drawn. -/
def attributes (id : Nat) : Kind → String
  | .proposition name underlying =>
    "shape=circle, style=filled, fillcolor=" ++ c.fill id ++ ", label=\"" ++
      l.showAtom (underlying.getD name) ++ "\""
  | .and => "shape=invhouse, label=\"AND\""
  | .or => "shape=ellipse, label=\"OR\""
  | .not => "shape=invtriangle, label=\"NOT\""
  | .constant true => "shape=doublecircle, label=\"TRUE\""
  | .constant false => "shape=doublecircle, label=\"FALSE\""
  | .transition => "shape=box, label=\"TRANSITION\""

/-- The name of a node. -/
def node (id : Nat) : String := "\"@" ++ toString id ++ "\""

/-- A component and the links that leave it. -/
def drawComponent (id : Nat) (component : Component) : String :=
  "    " ++ node id ++ " [" ++ c.attributes l id component.kind ++ "];\n" ++
    String.join (component.outputs.map fun output =>
      "    " ++ node id ++ " -> " ++ node output ++ ";\n")

/-- The circuit as a graph. -/
def draw : String :=
  "digraph propnet \x7b\n" ++
    String.join (c.live.map fun (id, component) => c.drawComponent l id component) ++ "\x7d\n"

end Circuit

end GameCircuit
