import TemporalMonitor.Graph.Basic

/-!
# Drawings of graphs

The text from which a graph-drawing program draws a guarded graph: one line per node, then an arrow
into the initial node, then one line per edge. Accepting nodes get a double circle, and the initial
node is bold.

## Main definitions

* `Dot.Style`, `Dot.Mark` — how the graph and a node are drawn
* `Dot.escape` — text inside quotes
* `Graph.dot` — the whole text
-/

namespace TemporalMonitor

namespace Dot

/-- How a graph is drawn. -/
structure Style where
  /-- The name of the drawing. -/
  title : String := "automaton"
  /-- Whether the graph grows to the right instead of down. -/
  leftToRight : Bool := true
  /-- Whether the position of a node is shown after its name. -/
  showIds : Bool := false

/-- How a node is drawn. -/
structure Mark where
  /-- Whether the node gets a double circle. -/
  accepting : Bool := false
  /-- Text shown below the name. -/
  note : Option String := none

/-- The characters, with `new` in place of every `c`. -/
def replaceChar (c : Char) (new cs : List Char) : List Char :=
  cs.flatMap fun d => if d = c then new else [d]

/-- How text is written inside quotes: with a backslash before every backslash and every quote, and
a backslash and the letter n for a line break. Backslashes come first, so that those which are put
in for the other two are left alone. -/
def escape (text : String) : String :=
  .ofList (replaceChar '\n' ['\\', 'n'] (replaceChar '"' ['\\', '"']
    (replaceChar '\\' ['\\', '\\'] text.toList)))

/-- Text in quotes. -/
def quote (text : String) : String := "\"" ++ escape text ++ "\""

/-- What is shown in a node. -/
def nodeLabel (style : Style) (mark : Mark) (id : NodeId) (name : String) : String :=
  (if style.showIds then name ++ " [" ++ id.render ++ "]" else name) ++
    match mark.note with
    | some note => "\n" ++ note
    | none => ""

/-- The line of a node. -/
def nodeLine (style : Style) (mark : Mark) (isInitial : Bool) (id : NodeId) (name : String) :
    String :=
  "  " ++ id.render ++ " [label=" ++ quote (nodeLabel style mark id name) ++
    (if mark.accepting then ", shape=doublecircle" else "") ++
    (if isInitial then ", style=bold" else "") ++ "];\n"

/-- The lines of the arrow into the initial node. -/
def initialLines (id : NodeId) : String :=
  "  __start [shape=point, style=invis];\n  __start -> " ++ id.render ++ ";\n"

/-- The line of an edge. -/
def transitionLine (t : Transition) : String :=
  "  " ++ NodeId.render t.source ++ " -> " ++ NodeId.render t.edge.target ++
    " [label=" ++ quote t.edge.guard.render ++ "];\n"

end Dot

/-- The text that draws a graph, given how each node is drawn. -/
def Graph.dot {κ : Type} (style : Dot.Style) (mark : NodeId → Dot.Mark) (g : Graph κ) : String :=
  "digraph " ++ Dot.quote style.title ++ " \x7b\n" ++
    (if style.leftToRight then "  rankdir=LR;\n" else "") ++
    "  node [shape=circle];\n" ++
    String.join (g.nodeIds.map fun id =>
      Dot.nodeLine style (mark id) (g.initial == some id) id (g.nameOf id)) ++
    (match g.initial with
      | some id => Dot.initialLines id
      | none => "") ++
    String.join (g.transitions.map Dot.transitionLine) ++ "\x7d\n"

end TemporalMonitor
