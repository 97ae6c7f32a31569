import Mathlib.Data.List.Basic
import TemporalMonitor.Graph.Dot
import TemporalMonitor.Proofs.UniqueReading

/-!
# What can be read off a drawing

Every line of a drawing can be told from what comes after it, and the lines of nodes, of the arrow
into the initial node and of edges begin differently. Text in quotes ends at the first quote without
a backslash before it, whatever characters the text holds. A drawing therefore determines what its
lines show.

## Main definitions

* `Dot.ShownNode`, `Dot.ShownEdge` — what the line of a node and of an edge shows
* `Graph.shownNodes`, `Graph.shownEdges` — what a drawing shows

## Main results

* `Dot.toList_escape` — the three replacements act on every character on its own
* `Dot.uniquelyRead_quote` — text in quotes
* `Graph.dot_eq_iff` — two drawings are equal exactly if they show the same
-/

namespace TemporalMonitor

namespace Dot

/-! ### Text in quotes -/

/-- How a character is written inside quotes. -/
def escapeChar (c : Char) : List Char :=
  if c = '\\' then ['\\', '\\'] else if c = '"' then ['\\', '"']
  else if c = '\n' then ['\\', 'n'] else [c]

/-- Since backslashes are replaced first, no replacement acts on the outcome of another. -/
theorem toList_escape (text : String) : (escape text).toList = text.toList.flatMap escapeChar := by
  rw [escape, String.toList_ofList]
  simp only [replaceChar, List.flatMap_assoc]
  refine List.flatMap_congr fun c _ => ?_
  by_cases hbackslash : c = '\\'
  · simp [escapeChar, hbackslash]
  · by_cases hquote : c = '"'
    · simp [escapeChar, hquote]
    · simp [escapeChar, hbackslash, hquote]

theorem uniquelyRead_escapeChar : UniquelyRead Anything escapeChar := by
  intro c d r s _ _ h
  unfold escapeChar at h
  split_ifs at h <;> grind

theorem toList_quote (text : String) :
    (quote text).toList = ['"'] ++ (text.toList.flatMap escapeChar ++ ['"']) := by
  simp [quote, toList_escape]

/-- No character is written inside quotes as a quote alone. -/
theorem quote_ne_escapeChar (c : Char) (r t : List Char) : '"' :: r ≠ escapeChar c ++ t := by
  unfold escapeChar
  split_ifs <;> simp_all [eq_comm]

theorem uniquelyRead_quote : UniquelyRead Anything fun text : String => (quote text).toList := by
  intro x y r s hr hs h
  have hbody := (uniquelyRead_escapeChar.flatMap fun _ _ => trivial).append_const
    (c := ['"']) fun r => ⟨trivial, fun c t => quote_ne_escapeChar c r t⟩
  simp only [toList_quote] at h
  obtain ⟨hxy, hrs⟩ := hbody.const_append ['"'] hr hs h
  exact ⟨String.toList_inj.mp hxy, hrs⟩

/-! ### Lines -/

/-- What the line of a node shows: its position, its label, and whether it is accepting and whether
it is initial. -/
abbrev ShownNode := NodeId × String × Bool × Bool

/-- What the line of an edge shows: source, target and label. -/
abbrev ShownEdge := NodeId × NodeId × String

theorem toList_render (id : NodeId) : (NodeId.render id).toList = ['n'] ++ Nat.toDigits 10 id := by
  simp [NodeId.render]

theorem uniquelyRead_render :
    UniquelyRead (EndsRun Char.isDigit) fun id : NodeId => (NodeId.render id).toList := by
  simpa only [toList_render] using uniquelyRead_toDigits.const_append ['n']

/-- How the marks of a node are written, up to the end of the line. -/
def marksText (v : Bool × Bool) : List Char :=
  (if v.1 then ", shape=doublecircle" else "").toList ++
    ((if v.2 then ", style=bold" else "").toList ++ "];\n".toList)

/-- The line of a node. -/
def nodeText (v : ShownNode) : List Char :=
  "  ".toList ++ ((NodeId.render v.1).toList ++ (" [label=".toList ++
    ((quote v.2.1).toList ++ marksText v.2.2)))

/-- The line of an edge. -/
def edgeText (v : ShownEdge) : List Char :=
  "  ".toList ++ ((NodeId.render v.1).toList ++ (" -> ".toList ++ ((NodeId.render v.2.1).toList ++
    (" [label=".toList ++ ((quote v.2.2).toList ++ "];\n".toList)))))

/-- The lines of the arrow into the initial node. -/
def initialText : Option NodeId → List Char
  | some id => "  __start [shape=point, style=invis];\n  __start -> ".toList ++
      ((NodeId.render id).toList ++ ";\n".toList)
  | none => []

theorem initialText_some (id : NodeId) : initialText (some id) =
    "  __start [shape=point, style=invis];\n  __start -> ".toList ++
      ((NodeId.render id).toList ++ ";\n".toList) := rfl

theorem initialText_none : initialText none = [] := rfl

theorem uniquelyRead_marksText : UniquelyRead Anything marksText := by
  rintro ⟨a, b⟩ ⟨a', b'⟩ r s _ _ h
  cases a <;> cases b <;> cases a' <;> cases b' <;> simp_all [marksText]

theorem uniquelyRead_nodeText : UniquelyRead Anything nodeText := by
  have hlabel := (uniquelyRead_quote.append uniquelyRead_marksText fun _ _ h => h).const_append
    " [label=".toList
  exact (uniquelyRead_render.append hlabel fun _ _ _ => rfl).const_append _

theorem uniquelyRead_edgeText : UniquelyRead Anything edgeText := by
  have hquoted := uniquelyRead_quote.append_const (c := "];\n".toList) fun _ => trivial
  have hlabel := hquoted.const_append " [label=".toList
  have htarget := (uniquelyRead_render.append hlabel fun _ _ _ => rfl).const_append " -> ".toList
  exact (uniquelyRead_render.append htarget fun _ _ _ => rfl).const_append _

/-- The lines of nodes and of edges differ after the position they begin with. -/
theorem edgeText_append_ne_nodeText (e : ShownEdge) (v : ShownNode) (r s : List Char) :
    edgeText e ++ r ≠ nodeText v ++ s := by
  intro h
  simp only [edgeText, nodeText, List.append_assoc] at h
  have hrest := (uniquelyRead_render (by rfl) (by rfl) (List.append_cancel_left h)).2
  simp at hrest

/-- Without an initial node nothing is written for it, so nothing that reads like the arrow may
follow. -/
theorem uniquelyRead_initialText :
    UniquelyRead (fun r => ∀ id t, r ≠ initialText (some id) ++ t) initialText := by
  have hsome := (uniquelyRead_render.append_const (c := ";\n".toList) fun _ => rfl).const_append
    "  __start [shape=point, style=invis];\n  __start -> ".toList
  intro x y r s hr hs h
  cases x with
  | none =>
    cases y with
    | none => exact ⟨rfl, h⟩
    | some j => exact absurd h (hr j s)
  | some i =>
    cases y with
    | none => exact absurd h.symm (hs i r)
    | some j =>
      obtain ⟨rfl, hrs⟩ := hsome trivial trivial h
      exact ⟨rfl, hrs⟩

/-! ### Whole drawings -/

/-- The lines of the nodes, of the arrow and of the edges, up to the end of the drawing. -/
def bodyText (v : List ShownNode × Option NodeId × List ShownEdge) : List Char :=
  v.1.flatMap nodeText ++ (initialText v.2.1 ++ (v.2.2.flatMap edgeText ++ "\x7d\n".toList))

/-- After the nodes and the arrow come lines of edges, or the end. -/
theorem edges_append_ne_initialText (es : List ShownEdge) (id : NodeId) (r t : List Char) :
    es.flatMap edgeText ++ "\x7d\n".toList ++ r ≠ initialText (some id) ++ t := by
  rw [initialText_some]
  cases es with
  | nil => simp
  | cons e es => simp [edgeText, toList_render]

/-- After the nodes no further node comes. -/
theorem rest_append_ne_nodeText (id : Option NodeId) (es : List ShownEdge) (v : ShownNode)
    (r t : List Char) :
    initialText id ++ (es.flatMap edgeText ++ "\x7d\n".toList) ++ r ≠ nodeText v ++ t := by
  cases id with
  | some id =>
    rw [initialText_some]
    simp [nodeText, toList_render]
  | none =>
    rw [initialText_none, List.nil_append]
    cases es with
    | nil => simp [nodeText]
    | cons e es =>
      rw [List.flatMap_cons, List.append_assoc, List.append_assoc]
      exact edgeText_append_ne_nodeText e v _ _

theorem toList_nodeLine (style : Style) (mark : Mark) (isInitial : Bool) (id : NodeId)
    (name : String) : (nodeLine style mark isInitial id name).toList =
      nodeText (id, nodeLabel style mark id name, mark.accepting, isInitial) := by
  simp only [nodeLine, nodeText, marksText, String.toList_append, List.append_assoc]

theorem toList_transitionLine (t : Transition) : (transitionLine t).toList =
    edgeText (t.source, t.edge.target, t.edge.guard.render) := by
  simp only [transitionLine, edgeText, String.toList_append, List.append_assoc]

theorem toList_initialLines (id : NodeId) : (initialLines id).toList = initialText (some id) := by
  unfold initialLines
  simp only [String.toList_append, List.append_assoc]
  exact (initialText_some id).symm

/-- The lines before those of the nodes, which depend on the style only. -/
def firstLines (style : Style) : List Char :=
  ("digraph " ++ quote style.title ++ " \x7b\n" ++
    (if style.leftToRight then "  rankdir=LR;\n" else "") ++ "  node [shape=circle];\n").toList

theorem uniquelyRead_bodyText : UniquelyRead Anything bodyText := by
  have hedges := (uniquelyRead_edgeText.flatMap fun _ _ => trivial).append_const
    (c := "\x7d\n".toList) fun r => ⟨trivial, fun e t => by simp [edgeText]⟩
  have hrest := uniquelyRead_initialText.append hedges fun es r _ id t =>
    edges_append_ne_initialText es id r t
  exact (uniquelyRead_nodeText.flatMap fun _ _ => trivial).append hrest fun v r _ =>
    ⟨trivial, fun x t => rest_append_ne_nodeText v.1 v.2 x r t⟩

end Dot

namespace Graph

variable {κ κ' : Type} {style : Dot.Style} {mark mark' : NodeId → Dot.Mark}

/-- What the drawing shows of the nodes, in order. -/
def shownNodes (g : Graph κ) (style : Dot.Style) (mark : NodeId → Dot.Mark) : List Dot.ShownNode :=
  g.nodeIds.map fun id => (id, Dot.nodeLabel style (mark id) id (g.nameOf id),
    (mark id).accepting, g.initial == some id)

/-- What the drawing shows of the edges, in order. -/
def shownEdges (g : Graph κ) : List Dot.ShownEdge :=
  g.transitions.map fun t => (t.source, t.edge.target, t.edge.guard.render)

theorem toList_dot (g : Graph κ) (style : Dot.Style) (mark : NodeId → Dot.Mark) :
    (g.dot style mark).toList =
      Dot.firstLines style ++ Dot.bodyText (g.shownNodes style mark, g.initial, g.shownEdges) := by
  unfold dot Dot.firstLines Dot.bodyText shownNodes shownEdges
  simp only [String.toList_append, String.toList_join, List.flatMap_map, List.append_assoc,
    Dot.toList_nodeLine, Dot.toList_transitionLine]
  cases g.initial with
  | none => rfl
  | some id => rw [Dot.toList_initialLines]

/-- Two drawings in the same style are equal exactly if they show the same nodes, the same initial
node and the same edges. -/
theorem dot_eq_iff {g : Graph κ} {h : Graph κ'} : g.dot style mark = h.dot style mark' ↔
    g.shownNodes style mark = h.shownNodes style mark' ∧ g.initial = h.initial ∧
      g.shownEdges = h.shownEdges := by
  rw [← String.toList_inj, toList_dot, toList_dot, List.append_cancel_left_eq]
  constructor
  · intro heq
    have hbody := Dot.uniquelyRead_bodyText (r := []) (s := []) trivial trivial (by simpa using heq)
    simpa using hbody.1
  · rintro ⟨hnodes, hinitial, hedges⟩
    rw [hnodes, hinitial, hedges]

end Graph

end TemporalMonitor
