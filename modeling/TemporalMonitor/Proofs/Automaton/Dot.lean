import TemporalMonitor.Automaton.Dot
import TemporalMonitor.Proofs.Graph.Dot

/-!
# Drawings of automata lose nothing

The drawing of an automaton on finite words shows the names, the initial node, the accepting nodes
and the edges with the texts of their guards. Under a generalized Büchi condition the indices of the
sets of a node stand below its name. A name may itself look like a name with indices below it, but
the indices of a node are in its last line, and only a node with a double circle has any.

## Main definitions

* `Graph.LooksLike` — graphs that differ at most in what is not drawn

## Main results

* `Graph.dot_eq_iff_looksLike` — drawings of graphs, given when the nodes are drawn alike
* `GeneralizedBuchi.label_eq_iff` — label and circle of a node determine its name and its sets
* `dot_eq_iff_sameAutomaton` — drawings of automata
-/

namespace TemporalMonitor

/-! ### Graphs drawn alike -/

namespace Graph

variable {κ κ' : Type} {style : Dot.Style} {mark mark' : NodeId → Dot.Mark}
variable {g : Graph κ} {h : Graph κ'}

/-- The graphs have as many nodes, with the same names, the same initial node, and the same edges up
to the texts of their guards, all in the same order. -/
structure LooksLike (g : Graph κ) (h : Graph κ') : Prop where
  size_eq : g.size = h.size
  names_eq : g.nodeIds.map g.nameOf = h.nodeIds.map h.nameOf
  initial_eq : g.initial = h.initial
  edges_eq : g.shownEdges = h.shownEdges

theorem map_nodeIds_eq_iff {α : Type} {f f' : NodeId → α} :
    g.nodeIds.map f = h.nodeIds.map f' ↔ g.size = h.size ∧ ∀ id < g.size, f id = f' id := by
  unfold nodeIds
  constructor
  · intro heq
    have hsize : g.size = h.size := by simpa using congrArg List.length heq
    rw [← hsize, List.map_inj_left] at heq
    exact ⟨hsize, fun id hid => heq id (List.mem_range.mpr hid)⟩
  · rintro ⟨hsize, hsame⟩
    rw [← hsize]
    exact List.map_congr_left fun id hid => hsame id (List.mem_range.mp hid)

/-- If a node is drawn alike in two graphs exactly when it has the same name and `Same` holds of it,
then the drawings are equal exactly when the graphs look alike and `Same` holds of every node. -/
theorem dot_eq_iff_looksLike {Same : NodeId → Prop}
    (hsame : ∀ id, Dot.nodeLabel style (mark id) id (g.nameOf id) =
        Dot.nodeLabel style (mark' id) id (h.nameOf id) ∧
          (mark id).accepting = (mark' id).accepting ↔ g.nameOf id = h.nameOf id ∧ Same id) :
    g.dot style mark = h.dot style mark' ↔ g.LooksLike h ∧ ∀ id < g.size, Same id := by
  rw [dot_eq_iff, shownNodes, shownNodes, map_nodeIds_eq_iff]
  constructor
  · rintro ⟨⟨hsize, hnodes⟩, hinitial, hedges⟩
    have hboth : ∀ id < g.size, g.nameOf id = h.nameOf id ∧ Same id := by
      intro id hid
      have hshown := hnodes id hid
      simp only [Prod.mk.injEq, true_and] at hshown
      exact (hsame id).mp ⟨hshown.1, hshown.2.1⟩
    have hnames := map_nodeIds_eq_iff.mpr ⟨hsize, fun id hid => (hboth id hid).1⟩
    exact ⟨⟨hsize, hnames, hinitial, hedges⟩, fun id hid => (hboth id hid).2⟩
  · rintro ⟨hlooks, hall⟩
    refine ⟨⟨hlooks.size_eq, fun id hid => ?_⟩, hlooks.initial_eq, hlooks.edges_eq⟩
    have hname := (map_nodeIds_eq_iff.mp hlooks.names_eq).2 id hid
    obtain ⟨hlabel, haccepting⟩ := (hsame id).mpr ⟨hname, hall id hid⟩
    rw [hlabel, haccepting, hlooks.initial_eq]

end Graph

/-! ### Indices below a name -/

/-- Where a line break comes last can be seen from the end of a text. -/
theorem append_lineBreak_inj {l m r s : List Char} (hr : ¬ '\n' ∈ r) (hs : ¬ '\n' ∈ s)
    (h : l ++ '\n' :: r = m ++ '\n' :: s) : l = m ∧ r = s := by
  have hplain : ∀ {t : List Char}, ¬ '\n' ∈ t → ∀ c ∈ t.reverse, (c != '\n') = true := by
    intro t ht c hc
    rw [bne_iff_ne]
    rintro rfl
    exact ht (List.mem_reverse.mp hc)
  have hreverse := congrArg List.reverse h
  simp only [List.reverse_append, List.reverse_cons, List.append_assoc, List.singleton_append]
    at hreverse
  obtain ⟨hrs, hlm⟩ := append_inj_of_endsRun (hplain hr) (hplain hs) (by rfl) (by rfl) hreverse
  exact ⟨List.reverse_injective (List.cons.inj hlm).2, List.reverse_injective hrs⟩

namespace Dot

/-- Indices with commas between them, of which there is at least one. -/
def indicesText (v : Nat × List Nat) : List Char :=
  Nat.toDigits 10 v.1 ++ v.2.flatMap fun i => [','] ++ Nat.toDigits 10 i

theorem toList_intercalate_indices (i : Nat) (is : List Nat) :
    (",".intercalate ((i :: is).map fun i => toString i)).toList = indicesText (i, is) := by
  rw [String.toList_intercalate]
  induction is generalizing i with
  | nil => simp [indicesText, List.intercalate]
  | cons j is ih =>
    have hrest := ih j
    simp only [List.map_cons, indicesText, List.flatMap_cons] at hrest ⊢
    rw [List.intercalate_cons_cons, hrest]
    simp

theorem uniquelyRead_indicesText :
    UniquelyRead Anything fun v : Nat × List Nat => indicesText v ++ ['\x7d'] := by
  have hitem := uniquelyRead_toDigits.const_append [',']
  have hlist := hitem.flatMap fun _ _ => rfl
  refine (uniquelyRead_toDigits.append hlist fun is r hr => ?_).append_const
    fun r => ⟨rfl, by simp⟩
  cases is with
  | nil => exact hr.1
  | cons i is => rfl

theorem lineBreak_notMem_indicesText (v : Nat × List Nat) : ¬ '\n' ∈ indicesText v := by
  have hdigits : ∀ n, ¬ '\n' ∈ Nat.toDigits 10 n := fun n hn => by
    have hdigit := Nat.isDigit_of_mem_toDigits (by decide) (by decide) hn
    exact absurd hdigit (by decide)
  simp [indicesText, hdigits]

/-- The line below the name of a node in some set. -/
def noteText (v : Nat × List Nat) : List Char := "acc \x7b".toList ++ (indicesText v ++ ['\x7d'])

theorem noteText_injective {v w : Nat × List Nat} (h : noteText v = noteText w) : v = w :=
  (uniquelyRead_indicesText.const_append "acc \x7b".toList (r := []) (s := []) trivial trivial
    (congrArg (· ++ []) h)).1

theorem lineBreak_notMem_noteText (v : Nat × List Nat) : ¬ '\n' ∈ noteText v := by
  simp [noteText, lineBreak_notMem_indicesText]

end Dot

namespace GeneralizedBuchi

variable {c c' : GeneralizedBuchi NodeId} {id : NodeId} {i : Nat} {is : List Nat}

theorem label_of_memberships_eq_nil (h : c.memberships id = []) (name : String) :
    Dot.nodeLabel {} (c.dotMark id) id name = name ∧ (c.dotMark id).accepting = false := by
  have hmark : c.dotMark id = {} := by
    unfold dotMark
    rw [h]
  rw [hmark]
  exact ⟨String.append_empty, rfl⟩

theorem label_of_memberships_eq_cons (h : c.memberships id = i :: is) (name : String) :
    (Dot.nodeLabel {} (c.dotMark id) id name).toList = name.toList ++ '\n' :: Dot.noteText (i, is) ∧
      (c.dotMark id).accepting = true := by
  have hmark : c.dotMark id = ⟨true, some
      ("acc \x7b" ++ ",".intercalate ((i :: is).map fun i => toString i) ++ "\x7d")⟩ := by
    unfold dotMark
    rw [h]
  rw [hmark]
  refine ⟨?_, rfl⟩
  have hindices := Dot.toList_intercalate_indices i is
  simp only [Dot.nodeLabel, Dot.noteText, String.toList_append, hindices]
  simp

/-- The label and the circle of a node determine its name and the indices of its sets. -/
theorem label_eq_iff {name name' : String} :
    Dot.nodeLabel {} (c.dotMark id) id name = Dot.nodeLabel {} (c'.dotMark id) id name' ∧
        (c.dotMark id).accepting = (c'.dotMark id).accepting ↔
      name = name' ∧ c.memberships id = c'.memberships id := by
  constructor
  · rintro ⟨hlabel, hcircle⟩
    cases hc : c.memberships id with
    | nil =>
      obtain ⟨hname, hplain⟩ := label_of_memberships_eq_nil hc name
      cases hc' : c'.memberships id with
      | nil =>
        rw [hname, (label_of_memberships_eq_nil hc' name').1] at hlabel
        exact ⟨hlabel, rfl⟩
      | cons i' is' =>
        rw [hplain, (label_of_memberships_eq_cons hc' name').2] at hcircle
        cases hcircle
    | cons i is =>
      obtain ⟨hnote, hdouble⟩ := label_of_memberships_eq_cons hc name
      cases hc' : c'.memberships id with
      | nil =>
        rw [hdouble, (label_of_memberships_eq_nil hc' name').2] at hcircle
        cases hcircle
      | cons i' is' =>
        -- the last line break is the one between name and indices
        rw [← String.toList_inj, hnote, (label_of_memberships_eq_cons hc' name').1] at hlabel
        obtain ⟨hname, hindices⟩ := append_lineBreak_inj (Dot.lineBreak_notMem_noteText _)
          (Dot.lineBreak_notMem_noteText _) hlabel
        cases Dot.noteText_injective hindices
        exact ⟨String.toList_inj.mp hname, rfl⟩
  · rintro ⟨rfl, hsets⟩
    have hmark : c.dotMark id = c'.dotMark id := by
      unfold dotMark
      rw [hsets]
    rw [hmark]
    exact ⟨rfl, rfl⟩

end GeneralizedBuchi

/-! ### Automata -/

/-- The drawings of two automata on finite words are equal exactly if their graphs look alike and
the same nodes accept. The drawings of two generalized Büchi automata are equal exactly if their
graphs look alike and every node is in the sets with the same indices. -/
theorem dot_eq_iff_sameAutomaton {κ κ' : Type} :
    (∀ (a : FiniteAutomaton κ) (b : FiniteAutomaton κ'), a.dot = b.dot ↔
      a.graph.LooksLike b.graph ∧ ∀ id < a.graph.size, a.isAccepting id = b.isAccepting id) ∧
    ∀ (a : GeneralizedBuchiAutomaton κ) (b : GeneralizedBuchiAutomaton κ'),
      a.dot GeneralizedBuchi.dotMark = b.dot GeneralizedBuchi.dotMark ↔ a.graph.LooksLike b.graph ∧
        ∀ id < a.graph.size, a.acceptance.memberships id = b.acceptance.memberships id := by
  refine ⟨fun a b => Graph.dot_eq_iff_looksLike fun id => ?_,
    fun a b => Graph.dot_eq_iff_looksLike fun id => GeneralizedBuchi.label_eq_iff⟩
  have hlabel : ∀ accepting name, Dot.nodeLabel {} { accepting } id name = name :=
    fun _ _ => String.append_empty
  rw [hlabel, hlabel]

end TemporalMonitor
