import Boring.South.TinyXmlRuns

/- The loops of a program over the children of a node. -/
namespace TinyXmlWalks
open LinkedCells DoublyLinked RoseTrees TinyXmlDom TinyXmlForests TinyXmlDeletion TinyXmlLinks
open TinyXmlClones TinyXmlEdits TinyXmlCalls TinyXmlRuns
open SouthHeap (Ptr NULL addressSpace chain_length_lt)
open TinyXmlText (Chars)

section Model

/-- strcmp of Value() -/
def valued (value : Chars) (n : Node) : Bool := n.content.value = value

/-- The loops of these functions: from a link of `p` on to the first node that is hit. -/
def hitFrom (h : Dom) (start next : Node → Ptr) (hit : Node → Bool) (p : Ptr) :
    Except Fault Ptr := do
  firstHit h next hit addressSpace (start (← h.read p))

def firstChild (h : Dom) (value : Chars) (this : Ptr) : Except Fault Ptr :=
  hitFrom h Node.firstChild Node.next (valued value) this

def lastChild (h : Dom) (value : Chars) (this : Ptr) : Except Fault Ptr :=
  hitFrom h Node.lastChild Node.prev (valued value) this

def nextSibling (h : Dom) (value : Chars) (node : Ptr) : Except Fault Ptr :=
  hitFrom h Node.next Node.next (valued value) node

def previousSibling (h : Dom) (value : Chars) (node : Ptr) : Except Fault Ptr :=
  hitFrom h Node.prev Node.prev (valued value) node

def iterateChildren (h : Dom) (this : Ptr) (value : Chars) (previous : Ptr) :
    Except Fault Ptr :=
  if previous = NULL then firstChild h value this else nextSibling h value previous

def firstChildElement (h : Dom) (this : Ptr) : Except Fault Ptr :=
  hitFrom h Node.firstChild Node.next (·.content.isElement) this

def nextSiblingElement (h : Dom) (node : Ptr) : Except Fault Ptr :=
  hitFrom h Node.next Node.next (·.content.isElement) node

/-- for (node = begins; node; node = advance(node)) of a program: the nodes it visits. -/
def loop (begins : Except Fault Ptr) (advance : Ptr → Except Fault Ptr) :
    Except Fault (List Ptr) := do
  collect NULL advance addressSpace (← begins)

end Model

variable {h : Dom} {g : Grove} {this : Ptr}

theorem children_chain (rep : Represents [] h g) (live : Live h this) :
    ∃ t cells, h.cell this = some t ∧ cells.map Prod.fst = g.kids this ∧
      Chain h Node.next t.firstChild cells := by
  obtain ⟨t, built⟩ := live
  obtain ⟨cells, addresses, chain⟩ := linked_segment (rep.linked this)
  rw [← (rep.ends this t built).1] at chain
  exact ⟨t, cells, built, addresses, chain⟩

theorem children_back (rep : Represents [] h g) (live : Live h this) :
    ∃ t cells, h.cell this = some t ∧ cells.map Prod.fst = (g.kids this).reverse ∧
      Chain h Node.prev t.lastChild cells := by
  obtain ⟨t, built⟩ := live
  obtain ⟨cells, addresses, chain⟩ := linked_back (rep.linked this)
  rw [← (rep.ends this t built).2] at chain
  exact ⟨t, cells, built, addresses, chain⟩

theorem any_content (rep : Represents [] h g) (f : Content → Bool) (p : Ptr) :
    (h.cell p).any (fun n => f n.content) = (g.content p).any f := by
  rw [← rep.content, Option.any_map]

/-- A loop from hit to hit along one of the links visits the hits of the walk. -/
theorem loop_visits {start next : Node → Ptr} (f : Content → Bool) {t : Node}
    {cells : List (Ptr × Node)} {advance : Ptr → Except Fault Ptr} (rep : Represents [] h g)
    (built : h.cell this = some t) (chain : Chain h next (start t) cells)
    (same : ∀ p, p ≠ NULL → advance p = hitFrom h next next (fun n => f n.content) p) :
    loop (hitFrom h start next (fun n => f n.content) this) advance =
      .ok ((cells.map Prod.fst).filter fun p => (g.content p).any f) := by
  have short := chain_length_lt chain
  have begun : hitFrom h start next (fun n => f n.content) this =
      .ok ((hits (fun n => f n.content) cells).headD NULL) := by
    rw [hitFrom, Memory.read_held built]
    exact firstHit_chain chain short
  refine (loop_chain chain short short begun same).trans ?_
  rw [hits_filter chain]
  simp only [any_content rep]

/-- In a forest of nodes, the loops with IterateChildren of a value visit the children with
    that value, each once and in their order, the loop back with LastChild and PreviousSibling
    the same ones from behind, and the loop over elements the children that are elements. -/
theorem loops_visit_children (rep : Represents [] h g) (live : Live h this) (value : Chars) :
    loop (iterateChildren h this value NULL) (iterateChildren h this value) =
      .ok ((g.kids this).filter fun p => (g.content p).any (·.value = value)) ∧
    loop (lastChild h value this) (previousSibling h value) =
      .ok ((g.kids this).filter fun p => (g.content p).any (·.value = value)).reverse ∧
    loop (firstChildElement h this) (nextSiblingElement h) =
      .ok ((g.kids this).filter fun p => (g.content p).any Content.isElement) := by
  obtain ⟨t, cells, built, addresses, chain⟩ := children_chain rep live
  obtain ⟨t', back, built', backwards, chain'⟩ := children_back rep live
  refine ⟨?forward, ?backward, ?elements⟩
  case forward =>
    rw [← addresses]
    exact loop_visits (fun c => c.value = value) rep built chain fun p filled => if_neg filled
  case backward =>
    rw [← List.filter_reverse, ← backwards]
    exact loop_visits (fun c => c.value = value) rep built' chain' fun p _ => rfl
  case elements =>
    rw [← addresses]
    exact loop_visits Content.isElement rep built chain fun p _ => rfl

/-- The only child of an element is visited from both sides. -/
theorem loops_visit_family : ∃ h : Dom,
    loop (iterateChildren h 1 [98] NULL) (iterateChildren h 1 [98]) = .ok [2] ∧
      loop (lastChild h [98] 1) (previousSibling h [98]) = .ok [2] ∧
      loop (firstChildElement h 1) (nextSiblingElement h) = .ok [2] := by
  obtain ⟨h, rep⟩ := pair_represents (.element [97] []) (b := .element [98] []) rfl
  have live : Live h 1 := rep.lister (c := 2) (by decide)
  obtain ⟨forward, backward, elements⟩ := loops_visit_children rep live [98]
  exact ⟨h, forward, backward, elements⟩

end TinyXmlWalks
