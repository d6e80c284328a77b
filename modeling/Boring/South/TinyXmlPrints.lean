import Boring.South.TinyXmlRoundTrip
import Boring.South.TinyXmlRuns

/- Accept and PrintS on nodes with links: the printer meets the tree that the links stand for. -/
namespace TinyXmlPrints
open LinkedCells DoublyLinked RoseTrees TinyXmlDom TinyXmlForests TinyXmlDeletion TinyXmlLinks
open TinyXmlEdits TinyXmlCalls
open SouthHeap (Ptr NULL addressSpace chain_length_lt)
open TinyXmlText (Chars)
open TinyXmlTree (TiXmlNode TiXmlPrinter newPrinter doIndent doLineBreak visited attributePrint
  declarationPrint visitLine visitText commentStart commentEnd)
open TinyXmlParser (documentParse)
open TinyXmlRoundTrip (StorableDocument settle single_name printS_read_back)

section Model

def isPlainText : Content → Bool
  | .text _ cdata => !cdata
  | _ => false

def visitEnter (h : Dom) (q : TiXmlPrinter) (element : Node) (value : Chars)
    (attributes : List (Chars × Chars)) : Except Fault TiXmlPrinter := do
  let q := (doIndent q).write (60 :: value)
  let q := (visited attributes).foldl (fun q a => q.write (32 :: attributePrint a)) q
  if element.firstChild = NULL then
    let q := doLineBreak (q.write [32, 47, 62])
    return { q with depth := q.depth + 1 }
  else do
    let q := q.write [62]
    let first ← h.read element.firstChild
    let q := if isPlainText first.content && element.lastChild = element.firstChild then
        { q with simpleTextPrint := true }
      else doLineBreak q
    return { q with depth := q.depth + 1 }

def visitExit (q : TiXmlPrinter) (element : Node) (value : Chars) : TiXmlPrinter :=
  let q := { q with depth := q.depth - 1 }
  if element.firstChild = NULL then q
  else
    let q := if q.simpleTextPrint then { q with simpleTextPrint := false } else doIndent q
    doLineBreak (q.write ([60, 47] ++ value ++ [62]))

/-- The loop over the children. The printer never asks it to stop. -/
def acceptSiblings (h : Dom) (accept : Ptr → TiXmlPrinter → Except Fault TiXmlPrinter) :
    Nat → Ptr → TiXmlPrinter → Except Fault TiXmlPrinter
  | 0, _, _ => .error .endlessLoop
  | fuel + 1, node, q =>
    if node = NULL then .ok q
    else do
      let q ← accept node q
      let n ← h.read node
      acceptSiblings h accept fuel n.next q

def accept (h : Dom) : Nat → Ptr → TiXmlPrinter → Except Fault TiXmlPrinter
  | 0, _, _ => .error .endlessLoop
  | fuel + 1, p, q => do
    let n ← h.read p
    match n.content with
    | .document .. => acceptSiblings h (accept h fuel) addressSpace n.firstChild q
    | .element value attributes => do
      let q ← visitEnter h q n value attributes
      let q ← acceptSiblings h (accept h fuel) addressSpace n.firstChild q
      return visitExit q n value
    | .comment value => return visitLine q (commentStart ++ value ++ commentEnd)
    | .unknown value => return visitLine q (60 :: value ++ [62])
    | .text value cdata => return visitText q value cdata
    | .declaration _ version encoding standalone =>
      return visitLine q (declarationPrint version encoding standalone)

def printS (h : Dom) (document : Ptr) : Except Fault Chars := do
  return (← accept h addressSpace document newPrinter).cStr

end Model

/-- The tree that is printed. Only elements show their children, and no list of children holds
    a document. -/
def shown : RoseTree (Option Content) → TiXmlNode
  | .node (some (.element value attributes)) ts => .element value attributes (ts.map shown)
  | .node (some (.comment value)) _ => .comment value
  | .node (some (.unknown value)) _ => .unknown value
  | .node (some (.text value cdata)) _ => .text value cdata
  | .node (some (.declaration _ version encoding standalone)) _ =>
    .declaration version encoding standalone
  | .node (some (.document value ..)) ts => .element value [] (ts.map shown)
  | .node none _ => .comment []

def shownAll (g : Grove) (ts : List (RoseTree Ptr)) : List TiXmlNode :=
  ts.map fun t => shown (t.map g.content)

variable {h : Dom} {g : Grove} {a : Ptr} {ts : List (RoseTree Ptr)}

theorem shown_element {value : Chars} {attributes : List (Chars × Chars)}
    (content : g.content a = some (.element value attributes)) :
    shown ((RoseTree.node a ts).map g.content) = .element value attributes (shownAll g ts) := by
  rw [RoseTree.map_node, content, shown, List.map_map]
  rfl

theorem shown_plainText (t : RoseTree Ptr) {c : Content} (content : g.content t.root = some c) :
    TinyXmlTree.isPlainText (shown (t.map g.content)) = isPlainText c := by
  cases t with
  | node b us =>
    rw [RoseTree.map_node, show g.content b = some c from content]
    cases c <;> simp [shown, TinyXmlTree.isPlainText, isPlainText]

theorem acceptSiblings_prints {visit : Ptr → TiXmlPrinter → Except Fault TiXmlPrinter}
    (each : ∀ t ∈ ts, ∀ q, visit t.root q =
      .ok (TinyXmlTree.accept (shown (t.map g.content)) q))
    {before : Ptr} (list : Linked h Node.prev Node.next before (ts.map RoseTree.root) NULL)
    {fuel : Nat} (enough : ts.length < fuel) (q : TiXmlPrinter) :
    acceptSiblings h visit fuel ((ts.map RoseTree.root).headD NULL) q =
      .ok (TinyXmlTree.acceptAll (shownAll g ts) q) := by
  induction ts generalizing before fuel q with
  | nil =>
    obtain ⟨fuel, rfl⟩ : ∃ n, fuel = n + 1 := ⟨fuel - 1, by omega⟩
    simp [acceptSiblings, shownAll, TinyXmlTree.acceptAll]
  | cons t ts ih =>
    obtain ⟨fuel, rfl⟩ : ∃ n, fuel = n + 1 := ⟨fuel - 1, by omega⟩
    obtain ⟨⟨n, held, -, on⟩, rest⟩ := list
    have later := ih (fun u member => each u (by simp [member])) rest (by simpa using enough)
    rw [← on] at later
    simp only [List.map_cons, List.headD_cons, acceptSiblings,
      if_neg (Memory.address_ne_null held), each t (by simp), bind, Except.bind,
      Memory.read_held held, later, shownAll, TinyXmlTree.acceptAll]

theorem visitEnter_enters {n : Node} (rep : Represents [] h g) (held : h.cell a = some n)
    (list : g.kids a = ts.map RoseTree.root) (q : TiXmlPrinter) (value : Chars)
    (attributes : List (Chars × Chars)) :
    visitEnter h q n value attributes =
      .ok (TinyXmlTree.visitEnter q value attributes (shownAll g ts)) := by
  obtain ⟨first, last⟩ := rep.ends a n held
  rw [list] at first last
  cases ts with
  | nil =>
    have none_ : n.firstChild = NULL := first
    simp [visitEnter, none_, TinyXmlTree.visitEnter, shownAll, pure, Except.pure]
  | cons t ts =>
    obtain ⟨m, child⟩ := rep.kid_held (p := a) (c := t.root) (by simp [list])
    have content : g.content t.root = some m.content := by
      rw [← rep.content, child, Option.map_some]
    have start : n.firstChild = t.root := first
    have nodup := rep.nodup a
    rw [list, List.map_cons, List.nodup_cons] at nodup
    have single : decide (n.lastChild = t.root) = (ts.map RoseTree.root).isEmpty := by
      cases ts with
      | nil => simp [last]
      | cons u us =>
        obtain ⟨empty, ends, -⟩ := end_pointer (null_outside rep a)
        have ends := ends fun null => by
          have gone := empty null
          rw [list] at gone
          cases gone
        have other : n.lastChild ≠ t.root := fun same => nodup.1 (by
          rw [list, ← last, same, List.map_cons, List.map_cons, List.getLast?_cons_cons] at ends
          exact List.mem_of_getLast? ends)
        simp [other]
    simp only [visitEnter, start, if_neg (Memory.address_ne_null child), Memory.read_held child,
      bind, Except.bind, pure, Except.pure, single, TinyXmlTree.visitEnter, shownAll,
      List.map_cons, shown_plainText t content, List.isEmpty_map]

theorem visitExit_exits {n : Node} (rep : Represents [] h g) (held : h.cell a = some n)
    (list : g.kids a = ts.map RoseTree.root) (q : TiXmlPrinter) (value : Chars) :
    visitExit q n value = TinyXmlTree.visitExit q value (shownAll g ts) := by
  have first := (rep.ends a n held).1
  rw [list] at first
  cases ts with
  | nil =>
    have none_ : n.firstChild = NULL := first
    simp [visitExit, none_, TinyXmlTree.visitExit, shownAll]
  | cons t ts =>
    obtain ⟨m, child⟩ := rep.kid_held (p := a) (c := t.root) (by simp [list])
    have start : n.firstChild = t.root := first
    simp [visitExit, start, Memory.address_ne_null child, TinyXmlTree.visitExit, shownAll]

theorem children_print {visit : Ptr → TiXmlPrinter → Except Fault TiXmlPrinter} {n : Node}
    (rep : Represents [] h g) (held : h.cell a = some n) (list : ts.map RoseTree.root = g.kids a)
    (each : ∀ t ∈ ts, ∀ q, visit t.root q =
      .ok (TinyXmlTree.accept (shown (t.map g.content)) q)) (q : TiXmlPrinter) :
    acceptSiblings h visit addressSpace n.firstChild q =
      .ok (TinyXmlTree.acceptAll (shownAll g ts) q) := by
  have linked := rep.linked a
  rw [← list] at linked
  have short := linked_length linked
  rw [List.length_map] at short
  rw [(rep.ends a n held).1, ← list]
  exact acceptSiblings_prints each linked short q

theorem kid_nested {t : RoseTree Ptr} (rep : Represents [] h g)
    (list : ts.map RoseTree.root = g.kids a) (member : t ∈ ts) :
    ∃ n, h.cell t.root = some n ∧ n.content.isDocument = false := by
  have child : t.root ∈ g.kids a := list ▸ List.mem_map_of_mem member
  obtain ⟨n, held, -, nested⟩ := rep.child a _ child
  exact ⟨n, held, nested⟩

theorem accept_prints (rep : Represents [] h g) (t : RoseTree Ptr) : ∀ fuel q, t.depth ≤ fuel →
    Unfolds g.kids t → (∃ n, h.cell t.root = some n ∧ n.content.isDocument = false) →
    accept h fuel t.root q = .ok (TinyXmlTree.accept (shown (t.map g.content)) q) := by
  induction t using RoseTree.induct with
  | node a ts each =>
    intro fuel q deep unfolds plain
    obtain ⟨n, held, plain⟩ := plain
    have held : h.cell a = some n := held
    obtain ⟨fuel, rfl⟩ : ∃ n, fuel = n + 1 := ⟨fuel - 1, by rw [RoseTree.depth] at deep; omega⟩
    have content : g.content a = some n.content := by rw [← rep.content, held, Option.map_some]
    cases unfolds with
    | node list below =>
      have children := children_print rep held list fun t member q => by
        have := RoseTree.depth_child (a := a) member
        exact each t member fuel q (by omega) (below t member) (kid_nested rep list member)
      cases kind : n.content with
      | document value error tabsize bom =>
        rw [kind] at plain
        cases plain
      | element value attributes =>
        rw [kind] at content
        rw [shown_element content, TinyXmlTree.accept]
        simp only [RoseTree.root_node, accept, Memory.read_held held, bind, Except.bind, kind,
          visitEnter_enters rep held list.symm, children, visitExit_exits rep held list.symm, pure,
          Except.pure]
      | _ =>
        simp only [RoseTree.root_node, accept, Memory.read_held held, bind, Except.bind, kind,
          RoseTree.map_node, content, shown, TinyXmlTree.accept, pure, Except.pure]

theorem document_prints {n : Node} (rep : Represents [] h g) (held : h.cell a = some n)
    (document : n.content.isDocument = true) (unfolds : Unfolds g.kids (.node a ts)) {fuel : Nat}
    (deep : (RoseTree.node a ts).depth ≤ fuel) (q : TiXmlPrinter) :
    accept h fuel a q = .ok (TinyXmlTree.acceptAll (shownAll g ts) q) := by
  obtain ⟨fuel, rfl⟩ : ∃ n, fuel = n + 1 := ⟨fuel - 1, by rw [RoseTree.depth] at deep; omega⟩
  cases unfolds with
  | node list below =>
    have children := children_print rep held list fun t member q => by
      have := RoseTree.depth_child (a := a) member
      exact accept_prints rep t fuel q (by omega) (below t member) (kid_nested rep list member)
    cases kind : n.content with
    | document value error tabsize bom =>
      simp only [accept, Memory.read_held held, bind, Except.bind, kind, children]
    | _ =>
      rw [kind] at document
      cases document

/-- PrintS of a document with links is PrintS of the trees below it. -/
theorem printS_shows {p : Ptr} (rep : Represents [] h g)
    (document : (g.content p).any Content.isDocument = true) :
    ∃ ts, Unfolds g.kids (.node p ts) ∧ printS h p = .ok (TinyXmlTree.printS (shownAll g ts)) := by
  obtain ⟨c, content, isDocument⟩ := (Option.any_eq_true _ _).mp document
  rw [← rep.content, Option.map_eq_some_iff] at content
  obtain ⟨n, held, rfl⟩ := content
  obtain ⟨⟨a, ts⟩, rfl, standing, -, deep⟩ := represents_tree rep ⟨n, held⟩
  have held : h.cell a = some n := held
  refine ⟨ts, standing.unfolds, ?_⟩
  rw [RoseTree.root_node, printS, document_prints rep held isDocument standing.unfolds deep]
  rfl

/-- A document with an empty element. -/
def emptyB : Grove :=
  ((((⟨fun _ => none, fun _ => []⟩ : Grove).added 1 (.document [] none 4 false)).added 2
    (.element [98] [])).relist 1 [2])

theorem emptyB_unfolds : Unfolds emptyB.kids (.node 1 [.node 2 []]) :=
  .node rfl fun t member => by
    obtain rfl := List.mem_singleton.mp member
    exact .node rfl fun u inside => nomatch inside

theorem emptyB_storable : StorableDocument .UNKNOWN [.element [98] [] []] :=
  ⟨.element (single_name (by decide) (by decide)) (by simp) (by simp) (by simp)
    (by simp [TinyXmlAccepted.Apart]), rfl, trivial⟩

end TinyXmlPrints
