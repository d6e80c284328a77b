import Boring.Library.RoseTrees
import Boring.South.TinyXmlDom

/- What the links of the nodes stand for: every node with the list of its children. The code
   of tinyxml.cpp changes one list at a time, and each change keeps the links in step. -/
namespace TinyXmlForests
open LinkedCells DoublyLinked RoseTrees TinyXmlDom
open SouthHeap (Ptr NULL addressSpace chain_length_lt)

structure Grove where
  content : Ptr → Option Content
  kids : Ptr → List Ptr

namespace Grove

def added (g : Grove) (x : Ptr) (content : Content) : Grove :=
  { g with content := Function.update g.content x (some content) }

def edited (g : Grove) (p : Ptr) (f : Content → Content) : Grove :=
  { g with content := Function.update g.content p ((g.content p).map f) }

def relist (g : Grove) (this : Ptr) (list : List Ptr) : Grove :=
  { g with kids := Function.update g.kids this list }

def without (g : Grove) (dead : List Ptr) : Grove where
  content := fun p => if p ∈ dead then none else g.content p
  kids := fun p => if p ∈ dead then [] else g.kids p

theorem added_content (g : Grove) (x q : Ptr) (content : Content) :
    (g.added x content).content q = if q = x then some content else g.content q :=
  Function.update_apply ..

theorem edited_content (g : Grove) (p q : Ptr) (f : Content → Content) :
    (g.edited p f).content q = if q = p then (g.content q).map f else g.content q := by
  by_cases here : q = p
  · rw [if_pos here, here]
    exact Function.update_self ..
  · rw [if_neg here]
    exact Function.update_of_ne here ..

end Grove

/-- The links of the nodes are those of the lists, and no list holds a document. A node in no
    list has no links, but for the nodes in `opened`, which point to a parent that does not
    list them. -/
structure Represents (opened : List Ptr) (h : Dom) (g : Grove) : Prop where
  content : ∀ p, (h.cell p).map Node.content = g.content p
  unbuilt : ∀ p, h.cell p = none → g.kids p = []
  ends : ∀ p n, h.cell p = some n →
    n.firstChild = (g.kids p).headD NULL ∧ n.lastChild = (g.kids p).getLastD NULL
  linked : ∀ p, Linked h Node.prev Node.next NULL (g.kids p) NULL
  child : ∀ p, ∀ c ∈ g.kids p, ∃ n, h.cell c = some n ∧ n.parent = p ∧
    n.content.isDocument = false
  loose : ∀ p n, h.cell p = some n → (∀ q, p ∉ g.kids q) → p ∉ opened →
    n.parent = NULL ∧ n.prev = NULL ∧ n.next = NULL
  ancestry : ∀ p n, h.cell p = some n → ∃ cells, Chain h Node.parent p cells

def Above (h : Dom) (a p : Ptr) : Prop :=
  ∃ cells, Chain h Node.parent p cells ∧ a ∈ cells.map Prod.fst

variable {opened : List Ptr} {h h' : Dom} {g : Grove}

section Lists

theorem Represents.nodup (rep : Represents opened h g) (p : Ptr) : (g.kids p).Nodup :=
  linked_nodup (rep.linked p)

theorem Represents.apart (rep : Represents opened h g) {a b c : Ptr} (first : c ∈ g.kids a)
    (second : c ∈ g.kids b) : a = b := by
  obtain ⟨n, held, rfl, -⟩ := rep.child a c first
  obtain ⟨n', held', rfl, -⟩ := rep.child b c second
  rw [Option.some.inj (held.symm.trans held')]

theorem Represents.lister (rep : Represents opened h g) {p c : Ptr} (member : c ∈ g.kids p) :
    ∃ n, h.cell p = some n := by
  cases built : h.cell p with
  | none =>
    rw [rep.unbuilt p built] at member
    cases member
  | some n => exact ⟨n, rfl⟩

theorem Represents.kid_held (rep : Represents opened h g) {p c : Ptr} (member : c ∈ g.kids p) :
    ∃ n, h.cell c = some n := by
  obtain ⟨n, held, -, -⟩ := rep.child p c member
  exact ⟨n, held⟩

theorem Represents.forest (rep : Represents opened h g) : Forest g.kids := by
  refine ⟨rep.nodup, fun a b c => rep.apart, ?_⟩
  have lengths : ∀ p, ∃ n, ∀ cells, Chain h Node.parent p cells → n = cells.length := fun p => by
    by_cases ends : ∃ cells, Chain h Node.parent p cells
    · obtain ⟨cells, chain⟩ := ends
      exact ⟨cells.length, fun other chain' => by rw [chain_unique chain chain']⟩
    · exact ⟨0, fun cells chain => absurd ⟨cells, chain⟩ ends⟩
  choose length measured using lengths
  refine ⟨fun p => addressSpace - length p, fun p c member => ?_⟩
  obtain ⟨n, held⟩ := rep.lister member
  obtain ⟨cells, chain⟩ := rep.ancestry p n held
  obtain ⟨m, held', rfl, -⟩ := rep.child p c member
  have longer : Chain h Node.parent c ((c, m) :: cells) := ⟨rfl, held', chain⟩
  have short := chain_length_lt longer
  have here := measured m.parent cells chain
  have there := measured c _ longer
  rw [List.length_cons] at there short
  show addressSpace - length c < addressSpace - length m.parent
  omega

theorem above_self {p : Ptr} {n : Node} (rep : Represents opened h g) (held : h.cell p = some n) :
    Above h p p := by
  obtain ⟨cells, chain⟩ := rep.ancestry p n held
  refine ⟨cells, chain, ?_⟩
  cases cells with
  | nil => exact absurd chain (Memory.address_ne_null held)
  | cons cell cells => exact List.mem_cons.mpr (.inl chain.1)

theorem null_outside (rep : Represents opened h g) (p : Ptr) : NULL ∉ g.kids p := by
  intro member
  obtain ⟨n, held⟩ := rep.kid_held member
  exact Memory.address_ne_null held rfl

end Lists

section Ancestry

theorem chain_redirected {x p : Ptr} {n : Node} {tail cells : List (Ptr × Node)}
    (same : ∀ q, q ≠ x → (h'.cell q).map Node.parent = (h.cell q).map Node.parent)
    (here : h'.cell x = some n) (target : Chain h Node.parent n.parent tail)
    (outside : x ∉ tail.map Prod.fst) (chain : Chain h Node.parent p cells) :
    ∃ cells', Chain h' Node.parent p cells' := by
  have carried : ∀ {p q : Ptr} {walk : List (Ptr × Node)}, Segment h Node.parent p walk q →
      x ∉ walk.map Prod.fst → ∃ walk', Segment h' Node.parent p walk' q :=
    fun {p q walk} seg apart => by
      have links : ∀ cell ∈ walk, (h'.cell cell.1).map Node.parent = some cell.2.parent :=
        fun cell member => by
          have other : cell.1 ≠ x := fun equal =>
            apart (equal ▸ List.mem_map.mpr ⟨cell, member, rfl⟩)
          rw [same _ other, segment_held seg member, Option.map_some]
      obtain ⟨walk', -, seg'⟩ := segment_links seg links
      exact ⟨walk', seg'⟩
  obtain ⟨tail', chain'⟩ := carried target outside
  by_cases passes : x ∈ cells.map Prod.fst
  · obtain ⟨⟨a, c⟩, member, rfl⟩ := List.mem_map.mp passes
    obtain ⟨front, back, rfl⟩ := List.append_of_mem member
    have distinct := chain_nodup chain
    rw [List.map_append, List.nodup_append] at distinct
    obtain ⟨middle, walk, at_, -⟩ := segment_append.mp chain
    obtain rfl : middle = a := at_
    obtain ⟨front', walk'⟩ := carried walk fun inside =>
      distinct.2.2 _ inside middle (by simp) rfl
    exact ⟨front' ++ (middle, n) :: tail', segment_append.mpr ⟨middle, walk', rfl, here, chain'⟩⟩
  · exact carried chain passes

theorem chain_same {p : Ptr} {cells : List (Ptr × Node)}
    (same : ∀ q, (h'.cell q).map Node.parent = (h.cell q).map Node.parent)
    (chain : Chain h Node.parent p cells) :
    ∃ cells', cells'.map Prod.fst = cells.map Prod.fst ∧ Chain h' Node.parent p cells' :=
  segment_links chain fun cell member => by
    rw [same, segment_held chain member, Option.map_some]

end Ancestry

section Changes

def spliced (this x : Ptr) (xs ys : List Ptr) (q : Ptr) (n : Node) : Node :=
  { n with
    parent := if q = x then this else n.parent
    prev := if q = x then xs.getLastD NULL else if ys.head? = some q then x else n.prev
    next := if q = x then ys.headD NULL else if xs.getLast? = some q then x else n.next
    firstChild := if q = this ∧ xs = [] then x else n.firstChild
    lastChild := if q = this ∧ ys = [] then x else n.lastChild }

def unspliced (this : Ptr) (xs ys : List Ptr) (q : Ptr) (n : Node) : Node :=
  { n with
    prev := if ys.head? = some q then xs.getLastD NULL else n.prev
    next := if xs.getLast? = some q then ys.headD NULL else n.next
    firstChild := if q = this ∧ xs = [] then ys.headD NULL else n.firstChild
    lastChild := if q = this ∧ ys = [] then xs.getLastD NULL else n.lastChild }

theorem relist_here (g : Grove) (this : Ptr) (list : List Ptr) :
    (g.relist this list).kids this = list := Function.update_self ..

theorem relist_other {this q : Ptr} (g : Grove) (list : List Ptr) (other : q ≠ this) :
    (g.relist this list).kids q = g.kids q := Function.update_of_ne other ..

theorem headD_of_head {xs : List Ptr} {q d : Ptr} (first : xs.head? = some q) :
    xs.headD d = q := by
  cases xs with
  | nil => cases first
  | cons a rest => simpa using first

theorem ends_spliced {xs ys : List Ptr} (x : Ptr) :
    (xs ++ x :: ys).headD NULL = (if xs = [] then x else (xs ++ ys).headD NULL) ∧
      (xs ++ x :: ys).getLastD NULL = if ys = [] then x else (xs ++ ys).getLastD NULL := by
  constructor
  · cases xs <;> simp
  · cases ys with
    | nil => simp
    | cons y ys => simp [List.getLastD_eq_getLast?]

theorem ends_unspliced {xs ys : List Ptr} (x : Ptr) :
    (xs ++ ys).headD NULL = (if xs = [] then ys.headD NULL else (xs ++ x :: ys).headD NULL) ∧
      (xs ++ ys).getLastD NULL =
        if ys = [] then xs.getLastD NULL else (xs ++ x :: ys).getLastD NULL := by
  constructor
  · cases xs <;> simp
  · cases ys with
    | nil => simp
    | cons y ys => simp [List.getLastD_eq_getLast?]

theorem Represents.ends_apart (rep : Represents opened h g) {this q c : Ptr} {xs ys : List Ptr}
    (inside : ∀ a ∈ xs ++ ys, a ∈ g.kids this) (away : q ≠ this) (member : c ∈ g.kids q) :
    ys.head? ≠ some c ∧ xs.getLast? ≠ some c := by
  refine ⟨fun first => away ?_, fun last => away ?_⟩
  · exact rep.apart member (inside c (by simp [List.mem_of_head? first]))
  · exact rep.apart member (inside c (by simp [List.mem_of_getLast? last]))

/-- `x`, which no list holds and which is not above `this`, is put into its list. -/
theorem represents_splice {this x : Ptr} {xs ys : List Ptr} {n : Node}
    (rep : Represents opened h g) (list : g.kids this = xs ++ ys)
    (live : ∃ t, h.cell this = some t) (node : h.cell x = some n)
    (plain : n.content.isDocument = false) (unlisted : ∀ q, x ∉ g.kids q)
    (below : ¬ Above h x this)
    (cells : ∀ q, h'.cell q = (h.cell q).map (spliced this x xs ys q)) :
    Represents (opened.filter (· ≠ x)) h' (g.relist this (xs ++ x :: ys)) := by
  obtain ⟨t, built⟩ := live
  have outside : x ∉ xs ++ ys := list ▸ unlisted this
  have nodup : (xs ++ ys).Nodup := list ▸ rep.nodup this
  have apart {q c : Ptr} (away : q ≠ this) (member : c ∈ g.kids q) :
      c ≠ x ∧ ys.head? ≠ some c ∧ xs.getLast? ≠ some c :=
    ⟨fun same => unlisted q (same ▸ member), rep.ends_apart (by simp [list]) away member⟩
  refine ⟨?content, ?unbuilt, ?ends, ?linked, ?child, ?loose, ?ancestry⟩
  case content =>
    intro q
    rw [cells, Option.map_map]
    exact rep.content q
  case unbuilt =>
    intro q gone
    rw [cells, Option.map_eq_none_iff] at gone
    have away : q ≠ this := by
      rintro rfl
      rw [built] at gone
      cases gone
    rw [relist_other g _ away, rep.unbuilt q gone]
  case ends =>
    intro q m held
    rw [cells, Option.map_eq_some_iff] at held
    obtain ⟨m, held, rfl⟩ := held
    obtain ⟨first, last⟩ := rep.ends q m held
    by_cases here : q = this
    · subst here
      rw [relist_here, (ends_spliced x).1, (ends_spliced x).2, ← list]
      simp only [spliced, true_and, first, last, and_self]
    · rw [relist_other g _ here]
      simp only [spliced, here, false_and, if_false, first, last, and_self]
  case linked =>
    intro q
    by_cases here : q = this
    · subst here
      rw [relist_here]
      have linked := rep.linked q
      rw [list] at linked
      refine linked_insert linked nodup
        ⟨spliced q x xs ys x n, by rw [cells, node]; rfl, by simp [spliced], by simp [spliced]⟩
        fun a member p k found => ?_
      obtain ⟨c, held, rfl, rfl⟩ := found
      have away : a ≠ x := fun same => outside (same ▸ member)
      exact ⟨spliced q x xs ys a c, by rw [cells, held]; rfl, by simp [spliced, away],
        by simp [spliced, away]⟩
    · rw [relist_other g _ here]
      refine linked_frame (rep.linked q) fun a member p k found => ?_
      obtain ⟨c, held, rfl, rfl⟩ := found
      obtain ⟨away, notFirst, notLast⟩ := apart here member
      exact ⟨spliced this x xs ys a c, by rw [cells, held]; rfl,
        by simp [spliced, away, notFirst], by simp [spliced, away, notLast]⟩
  case child =>
    intro q c member
    by_cases here : q = this
    · subst here
      rw [relist_here, List.mem_append, List.mem_cons] at member
      by_cases new : c = x
      · subst new
        exact ⟨spliced q c xs ys c n, by rw [cells, node]; rfl, by simp [spliced], plain⟩
      · have old : c ∈ g.kids q := by
          rw [list, List.mem_append]
          rcases member with front | same | back
          · exact .inl front
          · exact absurd same new
          · exact .inr back
        obtain ⟨m, held, up, other⟩ := rep.child q c old
        exact ⟨spliced q x xs ys c m, by rw [cells, held]; rfl, by simpa [spliced, new] using up,
          other⟩
    · rw [relist_other g _ here] at member
      obtain ⟨m, held, up, other⟩ := rep.child q c member
      exact ⟨spliced this x xs ys c m, by rw [cells, held]; rfl,
        by simpa [spliced, (apart here member).1] using up, other⟩
  case loose =>
    intro q m held alone unopened
    rw [cells, Option.map_eq_some_iff] at held
    obtain ⟨m, held, rfl⟩ := held
    have inList := alone this
    rw [relist_here, List.mem_append, List.mem_cons, not_or, not_or] at inList
    obtain ⟨front, away, back⟩ := inList
    have still : ∀ p, q ∉ g.kids p := fun p member => by
      by_cases here : p = this
      · rw [here, list, List.mem_append] at member
        exact member.elim front back
      · exact alone p (by rw [relist_other g _ here]; exact member)
    have closed : q ∉ opened := fun open_ =>
      unopened (List.mem_filter.mpr ⟨open_, by simpa using away⟩)
    have notFirst : ys.head? ≠ some q := fun first => back (List.mem_of_head? first)
    have notLast : xs.getLast? ≠ some q := fun last => front (List.mem_of_getLast? last)
    simpa [spliced, away, notFirst, notLast] using rep.loose q m held still closed
  case ancestry =>
    intro q m held
    rw [cells, Option.map_eq_some_iff] at held
    obtain ⟨m, held, -⟩ := held
    obtain ⟨walk, chain⟩ := rep.ancestry q m held
    obtain ⟨up, target⟩ := rep.ancestry this t built
    have target' : Chain h Node.parent (spliced this x xs ys x n).parent up := by
      simpa [spliced] using target
    refine chain_redirected (x := x) (fun p away => ?_) (by rw [cells, node]; rfl) target'
      (fun inside => below ⟨up, target, inside⟩) chain
    rw [cells, Option.map_map]
    congr 1
    funext m
    simp [spliced, away]

theorem represents_unsplice {this x : Ptr} {xs ys : List Ptr}
    (rep : Represents opened h g) (list : g.kids this = xs ++ x :: ys)
    (cells : ∀ q, h'.cell q = (h.cell q).map (unspliced this xs ys q)) :
    Represents (x :: opened) h' (g.relist this (xs ++ ys)) := by
  have nodup : (xs ++ x :: ys).Nodup := list ▸ rep.nodup this
  have inside (q : Ptr) (member : q ∈ xs ++ ys) : q ∈ g.kids this := by
    rw [list]
    rw [List.mem_append] at member ⊢
    exact member.imp id (List.mem_cons_of_mem x)
  refine ⟨?content, ?unbuilt, ?ends, ?linked, ?child, ?loose, ?ancestry⟩
  case content =>
    intro q
    rw [cells, Option.map_map]
    exact rep.content q
  case unbuilt =>
    intro q gone
    rw [cells, Option.map_eq_none_iff] at gone
    have empty := rep.unbuilt q gone
    have away : q ≠ this := by
      rintro rfl
      rw [list] at empty
      simp at empty
    rw [relist_other g _ away, empty]
  case ends =>
    intro q m held
    rw [cells, Option.map_eq_some_iff] at held
    obtain ⟨m, held, rfl⟩ := held
    obtain ⟨first, last⟩ := rep.ends q m held
    by_cases here : q = this
    · subst here
      rw [relist_here, (ends_unspliced x).1, (ends_unspliced x).2, ← list]
      simp only [unspliced, true_and, first, last, and_self]
    · rw [relist_other g _ here]
      simp only [unspliced, here, false_and, if_false, first, last, and_self]
  case linked =>
    intro q
    by_cases here : q = this
    · subst here
      rw [relist_here]
      have linked := rep.linked q
      rw [list] at linked
      refine linked_remove linked nodup fun a member p k found => ?_
      obtain ⟨c, held, rfl, rfl⟩ := found
      exact ⟨unspliced q xs ys a c, by rw [cells, held]; rfl, rfl, rfl⟩
    · rw [relist_other g _ here]
      refine linked_frame (rep.linked q) fun a member p k found => ?_
      obtain ⟨c, held, rfl, rfl⟩ := found
      obtain ⟨notFirst, notLast⟩ := rep.ends_apart inside here member
      exact ⟨unspliced this xs ys a c, by rw [cells, held]; rfl,
        by simp [unspliced, notFirst], by simp [unspliced, notLast]⟩
  case child =>
    intro q c member
    have old : c ∈ g.kids q := by
      by_cases here : q = this
      · subst here
        rw [relist_here] at member
        exact inside c member
      · rwa [relist_other g _ here] at member
    obtain ⟨m, held, up⟩ := rep.child q c old
    exact ⟨unspliced this xs ys c m, by rw [cells, held]; rfl, up⟩
  case loose =>
    intro q m held alone unopened
    rw [cells, Option.map_eq_some_iff] at held
    obtain ⟨m, held, rfl⟩ := held
    rw [List.mem_cons, not_or] at unopened
    have out : q ∉ xs ++ ys := by
      have inList := alone this
      rwa [relist_here] at inList
    have still : ∀ p, q ∉ g.kids p := fun p member => by
      by_cases here : p = this
      · rw [here, list, List.mem_append, List.mem_cons] at member
        rw [List.mem_append, not_or] at out
        rcases member with front | same | back
        · exact out.1 front
        · exact unopened.1 same
        · exact out.2 back
      · exact alone p (by rw [relist_other g _ here]; exact member)
    have notFirst : ys.head? ≠ some q := fun first => out (by simp [List.mem_of_head? first])
    have notLast : xs.getLast? ≠ some q := fun last => out (by simp [List.mem_of_getLast? last])
    simpa [unspliced, notFirst, notLast] using rep.loose q m held still unopened.2
  case ancestry =>
    intro q m held
    rw [cells, Option.map_eq_some_iff] at held
    obtain ⟨m, held, -⟩ := held
    obtain ⟨walk, chain⟩ := rep.ancestry q m held
    have parents (p : Ptr) : (h'.cell p).map Node.parent = (h.cell p).map Node.parent := by
      rw [cells, Option.map_map]
      rfl
    obtain ⟨walk', -, chain'⟩ := chain_same parents chain
    exact ⟨walk', chain'⟩

theorem elements_held {t : RoseTree Ptr} (rep : Represents opened h g) (unfolds : Unfolds g.kids t)
    (live : ∃ n, h.cell t.root = some n) : ∀ a ∈ t.elements, ∃ n, h.cell a = some n := by
  intro a member
  by_cases top : a = t.root
  · exact top ▸ live
  · obtain ⟨b, -, below⟩ := unfolds_parent unfolds member top
    exact rep.kid_held below

section Deletions

variable {t : RoseTree Ptr}

theorem kids_outside (rep : Represents opened h g) (unfolds : Unfolds g.kids t)
    (unlisted : ∀ q, t.root ∉ g.kids q) {p c : Ptr} (away : p ∉ t.elements)
    (member : c ∈ g.kids p) : c ∉ t.elements := by
  intro within
  have below : c ≠ t.root := fun same => unlisted p (same ▸ member)
  obtain ⟨b, above, child⟩ := unfolds_parent unfolds within below
  exact away (rep.apart member child ▸ above)

theorem parent_outside (rep : Represents opened h g) (unfolds : Unfolds g.kids t)
    (live : ∃ n, h.cell t.root = some n)
    (others : ∀ x ∈ opened, x ≠ t.root → ∀ n, h.cell x = some n → n.parent ∉ t.elements)
    {q : Ptr} {c : Node} (held : h.cell q = some c) (away : q ∉ t.elements) :
    c.parent ∉ t.elements := by
  intro within
  by_cases listed : ∃ p, q ∈ g.kids p
  · obtain ⟨p, member⟩ := listed
    obtain ⟨c', held', rfl, -⟩ := rep.child p q member
    obtain rfl := Option.some.inj (held.symm.trans held')
    exact away (unfolds_kids unfolds within q member)
  · have alone : ∀ p, q ∉ g.kids p := fun p member => listed ⟨p, member⟩
    have other : q ≠ t.root := fun same => away (same ▸ t.root_mem)
    by_cases open_ : q ∈ opened
    · exact others q open_ other c held within
    · obtain ⟨n, built⟩ := elements_held rep unfolds live _ within
      rw [(rep.loose q c held alone open_).1] at built
      exact Memory.address_ne_null built rfl

theorem without_kids (g : Grove) (s : List Ptr) (q : Ptr) :
    (g.without s).kids q = if q ∈ s then [] else g.kids q := rfl

/-- A node in no list is deleted with all that is below it. -/
theorem represents_without (rep : Represents opened h g)
    (unfolds : Unfolds g.kids t) (live : ∃ n, h.cell t.root = some n)
    (unlisted : ∀ q, t.root ∉ g.kids q)
    (others : ∀ x ∈ opened, x ≠ t.root → ∀ n, h.cell x = some n → n.parent ∉ t.elements)
    (cells : ∀ q, h'.cell q = if q ∈ t.elements then none else h.cell q) :
    Represents (opened.filter (· ≠ t.root)) h' (g.without t.elements) := by
  have carried {q : Ptr} (away : q ∉ t.elements) : h'.cell q = h.cell q := by
    rw [cells, if_neg away]
  have held' {q : Ptr} {n : Node} (held : h'.cell q = some n) :
      q ∉ t.elements ∧ h.cell q = some n := by
    by_cases within : q ∈ t.elements
    · simp [cells, within] at held
    · exact ⟨within, (carried within).symm.trans held⟩
  refine ⟨?content, ?unbuilt, ?ends, ?linked, ?child, ?loose, ?ancestry⟩
  case content =>
    intro q
    rw [cells, Grove.without]
    by_cases within : q ∈ t.elements
    · simp [within]
    · simpa [within] using rep.content q
  case unbuilt =>
    intro q gone
    rw [without_kids]
    split
    · rfl
    · rename_i away
      exact rep.unbuilt q ((carried away).symm.trans gone)
  case ends =>
    intro q m held
    obtain ⟨away, held⟩ := held' held
    rw [without_kids, if_neg away]
    exact rep.ends q m held
  case linked =>
    intro q
    rw [without_kids]
    split
    · simp [Linked]
    · rename_i away
      refine linked_frame (rep.linked q) fun a member p k found => ?_
      obtain ⟨c, held, back, on⟩ := found
      exact ⟨c, (carried (kids_outside rep unfolds unlisted away member)).trans held, back, on⟩
  case child =>
    intro q c member
    rw [without_kids] at member
    split at member
    · cases member
    · rename_i away
      obtain ⟨m, held, up⟩ := rep.child q c member
      exact ⟨m, (carried (kids_outside rep unfolds unlisted away member)).trans held, up⟩
  case loose =>
    intro q m held alone unopened
    obtain ⟨away, held⟩ := held' held
    have other : q ≠ t.root := fun same => away (same ▸ t.root_mem)
    refine rep.loose q m held (fun p member => ?_) fun open_ =>
      unopened (List.mem_filter.mpr ⟨open_, by simpa using other⟩)
    by_cases within : p ∈ t.elements
    · exact away (unfolds_kids unfolds within q member)
    · exact alone p (by rwa [without_kids, if_neg within])
  case ancestry =>
    intro q m held
    obtain ⟨away, kept⟩ := held' held
    obtain ⟨walk, chain⟩ := rep.ancestry q m kept
    -- the way up from a node that stays never enters the tree
    have avoids := segment_avoids chain away fun a c held =>
      parent_outside rep unfolds live others held
    exact ⟨walk, segment_frame chain fun a member => carried (avoids a member)⟩

end Deletions

end Changes

end TinyXmlForests
