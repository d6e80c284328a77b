import Boring.South.TinyXmlClones

/- Insertions, ReplaceChild, RemoveChild and Clear, each as a change of one list of children. -/
namespace TinyXmlEdits
open LinkedCells DoublyLinked RoseTrees TinyXmlDom TinyXmlForests TinyXmlDeletion TinyXmlLinks
open TinyXmlClones
open SouthHeap (Ptr NULL addressSpace)

variable {opened : List Ptr} {h h' : Dom} {g g' : Grove} {this x : Ptr} {xs ys : List Ptr}

theorem sibling_links (rep : Represents opened h g) (list : g.kids this = xs ++ x :: ys) :
    ∃ n, h.cell x = some n ∧ n.parent = this ∧ n.prev = xs.getLastD NULL ∧
      n.next = ys.headD NULL ∧ n.content.isDocument = false := by
  obtain ⟨n, held, up, plain⟩ := rep.child this x (by simp [list])
  have linked := rep.linked this
  rw [list] at linked
  obtain ⟨-, ⟨m, held', back, on⟩, -⟩ := linked_append.mp linked
  obtain rfl := Option.some.inj (held.symm.trans held')
  exact ⟨n, held, up, back, on, plain⟩

theorem sides_filled (rep : Represents opened h g) (list : g.kids this = xs ++ x :: ys) :
    (NULL ∉ xs ∧ ∀ a ∈ xs, ∃ n, h.cell a = some n) ∧
      NULL ∉ ys ∧ ∀ a ∈ ys, ∃ n, h.cell a = some n := by
  have front : ∀ a ∈ xs, a ∈ g.kids this := fun a member => by simp [list, member]
  have back : ∀ a ∈ ys, a ∈ g.kids this := fun a member => by simp [list, member]
  exact ⟨⟨fun member => null_outside rep this (front NULL member), fun a member =>
      rep.kid_held (front a member)⟩,
    fun member => null_outside rep this (back NULL member), fun a member =>
      rep.kid_held (back a member)⟩

theorem atChild_passes {Out : Type} {refused : Out} {body : Except Fault (Dom × Out)}
    (rep : Represents opened h g) (member : x ∈ g.kids this) :
    atChild h this x refused body = body := by
  obtain ⟨n, held, up, -⟩ := rep.child this x member
  simp only [atChild, if_neg (Memory.address_ne_null held), Memory.read_held held, bind,
    Except.bind, up, ne_eq, not_true_eq_false, if_false]

theorem atChild_refuses {Out : Type} {refused : Out} {body : Except Fault (Dom × Out)}
    (rep : Represents [] h g) (live : x = NULL ∨ ∃ n, h.cell x = some n)
    (alive : ∃ n, h.cell this = some n) (outside : x ∉ g.kids this) :
    atChild h this x refused body = .ok (h, refused) := by
  rcases live with rfl | ⟨n, held⟩
  · simp [atChild]
  · have away : n.parent ≠ this := fun up => by
      by_cases listed : ∃ q, x ∈ g.kids q
      · obtain ⟨q, member⟩ := listed
        obtain ⟨m, held', up', -⟩ := rep.child q x member
        obtain rfl := Option.some.inj (held.symm.trans held')
        exact outside (up ▸ up'.symm ▸ member)
      · obtain ⟨t, built⟩ := alive
        have alone := rep.loose x n held (fun q member => listed ⟨q, member⟩) (by simp)
        exact Memory.address_ne_null built (up.symm.trans alone.1)
    simp only [atChild, if_neg (Memory.address_ne_null held), Memory.read_held held, bind,
      Except.bind, if_pos away]

section Inserting

/-- `x` stands in no list and can be put into that of `this`. -/
structure Insertable (h : Dom) (g : Grove) (this x : Ptr) : Prop where
  rep : Represents [] h g
  live : ∃ t, h.cell this = some t
  node : ∃ n, h.cell x = some n ∧ n.content.isDocument = false
  unlisted : ∀ q, x ∉ g.kids q
  below : ¬ Under g.kids x this

theorem Insertable.other (insertable : Insertable h g this x) : x ≠ this := by
  rintro rfl
  exact insertable.below .refl

theorem Insertable.spliced (insertable : Insertable h g this x)
    (list : g.kids this = xs ++ ys) (cells : Mapped h h' (spliced this x xs ys)) :
    Represents [] h' (g.relist this (xs ++ x :: ys)) := by
  obtain ⟨n, held, plain⟩ := insertable.node
  exact represents_splice insertable.rep list insertable.live held plain insertable.unlisted
    ((above_iff insertable.rep insertable.live).not.mpr insertable.below) cells

theorem linkBefore_represents {b : Ptr} (insertable : Insertable h g this x)
    (list : g.kids this = xs ++ b :: ys) :
    ∃ h', linkBefore h this b x = .ok (h', x) ∧
      Represents [] h' (g.relist this (xs ++ x :: b :: ys)) := by
  obtain ⟨n, held, -⟩ := insertable.node
  obtain ⟨m, sibling, -, back, -⟩ := sibling_links insertable.rep list
  obtain ⟨⟨filled, alive⟩, -, -⟩ := sides_filled insertable.rep list
  have nodup := insertable.rep.nodup this
  rw [list, List.nodup_append] at nodup
  have outside := insertable.unlisted this
  simp only [list, List.mem_append, List.mem_cons, not_or] at outside
  obtain ⟨h1, run1, cells1⟩ := modify_mapped ⟨n, held⟩
    fun n => { n with parent := this, next := b, prev := xs.getLastD NULL }
  obtain ⟨h2, run2, cells2⟩ := setNext_aimed x filled
    (fun a member => mapped_live cells1 (alive a member)) (mapped_live cells1 insertable.live)
  obtain ⟨h3, run3, cells3⟩ := modify_mapped
    (mapped_live cells2 (mapped_live cells1 ⟨m, sibling⟩)) fun b => { b with prev := x }
  have all := mapped_trans (mapped_trans cells1 cells2) cells3
  refine ⟨h3, ?_, insertable.spliced list fun q => (all q).trans ?_⟩
  · simp only [linkBefore, Memory.read_held sibling, bind, Except.bind, back, run1, run2, run3]
  · congr 1
    funext k
    have notLast : xs.getLast? ≠ some x := fun last => outside.1 (List.mem_of_getLast? last)
    by_cases there : q = x
    · subst there
      simp [TinyXmlForests.spliced, aimed, insertable.other, notLast, outside.2.1]
    · by_cases here : q = b
      · subst here
        simp [TinyXmlForests.spliced, aimed, there]
      · simp [TinyXmlForests.spliced, aimed, there, here, Ne.symm here]

theorem linkAfter_represents {a : Ptr} (insertable : Insertable h g this x)
    (list : g.kids this = xs ++ a :: ys) :
    ∃ h', linkAfter h this a x = .ok (h', x) ∧
      Represents [] h' (g.relist this (xs ++ a :: x :: ys)) := by
  obtain ⟨n, held, -⟩ := insertable.node
  obtain ⟨m, sibling, -, -, on, -⟩ := sibling_links insertable.rep list
  obtain ⟨-, filled, alive⟩ := sides_filled insertable.rep list
  have outside := insertable.unlisted this
  simp only [list, List.mem_append, List.mem_cons, not_or] at outside
  obtain ⟨h1, run1, cells1⟩ := modify_mapped ⟨n, held⟩
    fun n => { n with parent := this, prev := a, next := ys.headD NULL }
  obtain ⟨h2, run2, cells2⟩ := setPrev_led x filled
    (fun a member => mapped_live cells1 (alive a member)) (mapped_live cells1 insertable.live)
  obtain ⟨h3, run3, cells3⟩ := modify_mapped
    (mapped_live cells2 (mapped_live cells1 ⟨m, sibling⟩)) fun a => { a with next := x }
  have all := mapped_trans (mapped_trans cells1 cells2) cells3
  have list' : g.kids this = (xs ++ [a]) ++ ys := by simpa using list
  have cells : Mapped h h3 (TinyXmlForests.spliced this x (xs ++ [a]) ys) := fun q => by
    rw [all]
    congr 1
    funext k
    have notFirst : ys.head? ≠ some x := fun first => outside.2.2 (List.mem_of_head? first)
    by_cases there : q = x
    · subst there
      simp [TinyXmlForests.spliced, led, insertable.other, notFirst, outside.2.1]
    · by_cases here : q = a
      · subst here
        simp [TinyXmlForests.spliced, led, there]
      · simp [TinyXmlForests.spliced, led, there, here, Ne.symm here]
  have spliced := insertable.spliced list' cells
  rw [List.append_assoc, List.singleton_append] at spliced
  refine ⟨h3, ?_, spliced⟩
  simp only [linkAfter, Memory.read_held sibling, bind, Except.bind, on, run1, run2, run3]

theorem linkEndChild_inserts (insertable : Insertable h g this x) :
    ∃ h', linkEndChild h this x = .ok (h', x) ∧
      Represents [] h' (g.relist this (g.kids this ++ [x])) := by
  obtain ⟨n, held, plain⟩ := insertable.node
  obtain ⟨h', run, rep, -⟩ := linkEndChild_represents insertable.rep insertable.live held plain
    insertable.unlisted insertable.below
  exact ⟨h', run, rep⟩

end Inserting

section Removing

theorem kid_tree (rep : Represents opened h g) (member : x ∈ g.kids this) :
    ∃ t : RoseTree Ptr, t.root = x ∧ Unfolds g.kids t ∧ this ∉ t.elements := by
  obtain ⟨t, rfl, unfolds⟩ := rep.forest.unfolds x
  exact ⟨t, rfl, unfolds, rep.forest.lister_outside unfolds member⟩

theorem taken_out (rep : Represents opened h g) (list : g.kids this = xs ++ x :: ys) (q : Ptr) :
    x ∉ (g.relist this (xs ++ ys)).kids q := by
  intro member
  have nodup := rep.nodup this
  rw [list, List.nodup_append, List.nodup_cons] at nodup
  by_cases here : q = this
  · rw [here, relist_here, List.mem_append] at member
    exact member.elim (fun front => nodup.2.2 x front x (by simp) rfl) nodup.2.1.1
  · rw [relist_other g _ here] at member
    exact here (rep.apart member (by simp [list]))

theorem removeChild_represents (rep : Represents [] h g) (list : g.kids this = xs ++ x :: ys) :
    ∃ h' t, removeChild h this x = .ok (h', true) ∧ t.root = x ∧ Unfolds g.kids t ∧
      Represents [] h' ((g.relist this (xs ++ ys)).without t.elements) := by
  have member : x ∈ g.kids this := by simp [list]
  obtain ⟨n, held, up, back, on, -⟩ := sibling_links rep list
  have live := rep.lister member
  obtain ⟨⟨filled', alive'⟩, filled, alive⟩ := sides_filled rep list
  obtain ⟨h1, run1, cells1⟩ := setPrev_led (xs.getLastD NULL) filled alive live
  obtain ⟨h2, run2, cells2⟩ := setNext_aimed (ys.headD NULL) filled'
    (fun a member => mapped_live cells1 (alive' a member)) (mapped_live cells1 live)
  have cells : Mapped h h2 (unspliced this xs ys) := fun q => mapped_trans cells1 cells2 q
  have rep2 : Represents [x] h2 (g.relist this (xs ++ ys)) := represents_unsplice rep list cells
  obtain ⟨t, rfl, unfolds, outside⟩ := kid_tree rep member
  obtain ⟨h', run3, -, rep3⟩ := deleteNode_represents rep2 (relisted_unfolds unfolds outside)
    (mapped_live cells2 (mapped_live cells1 ⟨n, held⟩)) (taken_out rep list)
    (fun y member other => absurd (List.mem_singleton.mp member) other)
  refine ⟨h', t, ?_, rfl, unfolds, by simpa using rep3⟩
  rw [removeChild, atChild_passes rep member]
  simp only [Memory.read_held held, bind, Except.bind, on, back, run1, run2, run3]

end Removing

section Replacing

def mapped (h : Dom) (f : Ptr → Node → Node) : Dom :=
  ⟨fun q => (h.cell q).map (f q), by rw [h.nullFree]; rfl⟩

theorem relist_twice (g : Grove) (this : Ptr) (xs ys : List Ptr) :
    (g.relist this xs).relist this ys = g.relist this ys := by
  simp [Grove.relist]

theorem linkInPlace_represents {r : Ptr} (insertable : Insertable h g this x)
    (list : g.kids this = xs ++ r :: ys) :
    ∃ h' t, linkInPlace h this r x = .ok (h', x) ∧ t.root = r ∧ Unfolds g.kids t ∧
      Represents [] h' ((g.relist this (xs ++ x :: ys)).without t.elements) := by
  have rep := insertable.rep
  have member : r ∈ g.kids this := by simp [list]
  obtain ⟨n, held, plain⟩ := insertable.node
  obtain ⟨m, child, up, back, on, -⟩ := sibling_links rep list
  obtain ⟨⟨filled', alive'⟩, filled, alive⟩ := sides_filled rep list
  have outside := insertable.unlisted this
  simp only [list, List.mem_append, List.mem_cons, not_or] at outside
  obtain ⟨h1, run1, cells1⟩ := modify_mapped ⟨n, held⟩
    fun n => { n with next := ys.headD NULL, prev := xs.getLastD NULL }
  obtain ⟨h2, run2, cells2⟩ := setPrev_led x filled
    (fun a member => mapped_live cells1 (alive a member)) (mapped_live cells1 insertable.live)
  obtain ⟨h3, run3, cells3⟩ := setNext_aimed x filled'
    (fun a member => mapped_live cells2 (mapped_live cells1 (alive' a member)))
    (mapped_live cells2 (mapped_live cells1 insertable.live))
  have all := mapped_trans (mapped_trans cells1 cells2) cells3
  obtain ⟨t, rfl, unfolds, apart⟩ := kid_tree rep member
  have xAway : x ∉ t.elements := unlisted_outside unfolds insertable.unlisted outside.2.1
  -- the same with the parent of `x` written before the deletion
  let between := mapped h (unspliced this xs ys)
  have rep1 : Represents [t.root] between (g.relist this (xs ++ ys)) :=
    represents_unsplice rep list fun q => rfl
  let placed := mapped between (spliced this x xs ys)
  have parents (q : Ptr) : (between.cell q).map Node.parent = (h.cell q).map Node.parent := by
    simp only [between, mapped, Option.map_map]
    rfl
  have rep2 : Represents [t.root] placed (g.relist this (xs ++ x :: ys)) := by
    have alone : ∀ q, x ∉ (g.relist this (xs ++ ys)).kids q := fun q inside => by
      by_cases here : q = this
      · rw [here, relist_here, List.mem_append] at inside
        exact inside.elim outside.1 outside.2.2
      · exact insertable.unlisted q (by rwa [relist_other g _ here] at inside)
    have below : ¬ Above between x this := fun above => by
      obtain ⟨cells, chain, inside⟩ := above
      obtain ⟨cells', same, chain'⟩ := chain_same (fun q => (parents q).symm) chain
      exact insertable.below ((above_iff rep insertable.live).mp ⟨cells', chain', same ▸ inside⟩)
    obtain ⟨b, built⟩ := insertable.live
    have spliced : Represents _ placed ((g.relist this (xs ++ ys)).relist this (xs ++ x :: ys)) :=
      represents_splice rep1 (relist_here ..)
      ⟨unspliced this xs ys this b, by simp [between, mapped, built]⟩
      (n := unspliced this xs ys x n) (by simp [between, mapped, held]) plain alone below
      fun q => rfl
    rw [relist_twice] at spliced
    exact represents_opened spliced fun y inside => List.mem_of_mem_filter inside
  have same (q : Ptr) : placed.cell q =
      (h3.cell q).map fun k => if q = x then { k with parent := this } else k := by
    simp only [placed, between, mapped]
    rw [all, Option.map_map, Option.map_map]
    congr 1
    funext k
    have notFirst : ys.head? ≠ some x := fun first => outside.2.2 (List.mem_of_head? first)
    have notLast : xs.getLast? ≠ some x := fun last => outside.1 (List.mem_of_getLast? last)
    by_cases there : q = x
    · subst there
      simp [spliced, unspliced, aimed, led, insertable.other, notFirst, notLast]
    · by_cases first : ys.head? = some q <;> by_cases last : xs.getLast? = some q <;>
        by_cases here : q = this <;> by_cases front : xs = [] <;> by_cases end_ : ys = [] <;>
        simp_all [spliced, unspliced, aimed, led]
  have kept : ∀ a ∈ t.elements, h3.cell a = placed.cell a := fun a within => by
    have other : a ≠ x := fun equal => xAway (equal ▸ within)
    simp only [same, if_neg other]
    exact Option.map_id'.symm
  have alive2 : ∃ k, placed.cell t.root = some k := by
    rw [← kept _ t.root_mem]
    exact mapped_live all ⟨m, child⟩
  have unfolds2 : Unfolds (g.relist this (xs ++ x :: ys)).kids t := relisted_unfolds unfolds apart
  obtain ⟨nodup, deep⟩ := tree_bounds rep2 unfolds2 alive2
  obtain ⟨h4, run4, freed⟩ := deleteNode_frees t addressSpace h3
    (standing_frame (represents_standing rep2 unfolds2 alive2) kept) nodup deep
  obtain ⟨h5, run5, cells5⟩ := modify_mapped (a := x) (h := h4)
    (by rw [freed, if_neg xAway]; exact mapped_live all ⟨n, held⟩)
    fun n => { n with parent := this }
  have rep5 : Represents ([t.root].filter (· ≠ t.root)) h5
      ((g.relist this (xs ++ x :: ys)).without t.elements) := by
    refine represents_without rep2 unfolds2 alive2 (fun q inside => ?_)
      (fun y inside other => absurd (List.mem_singleton.mp inside) other) fun q => ?_
    · have gone := taken_out rep list q
      by_cases here : q = this
      · rw [here, relist_here, List.mem_append] at gone
        rw [here, relist_here, List.mem_append, List.mem_cons] at inside
        rcases inside with front | equal | back
        · exact gone (.inl front)
        · exact outside.2.1 equal.symm
        · exact gone (.inr back)
      · rw [relist_other g _ here] at gone inside
        exact gone inside
    · rw [cells5, freed, same]
      split
      · rfl
      · rfl
  refine ⟨h5, t, ?_, rfl, unfolds, by simpa using rep5⟩
  simp only [linkInPlace, Memory.read_held child, bind, Except.bind, on, back, run1, run2, run3,
    run4, run5]

end Replacing

section Clearing

def emptied (this q : Ptr) (n : Node) : Node :=
  if q = this then { n with firstChild := NULL, lastChild := NULL } else n

theorem relisted_without (g : Grove) {xs ys : List Ptr} {list : List Ptr} (outside : this ∉ xs) :
    (((g.relist this list).without xs).relist this []).without ys =
      (g.relist this []).without (xs ++ ys) := by
  simp only [Grove.without, Grove.relist, List.mem_append, Grove.mk.injEq]
  constructor <;> funext p
  · by_cases first : p ∈ xs <;> by_cases second : p ∈ ys <;> simp [first, second]
  · by_cases here : p = this
    · subst here
      simp [outside]
    · by_cases first : p ∈ xs <;> by_cases second : p ∈ ys <;>
        simp [Function.update_of_ne here, first, second]

theorem represents_cleared (ts : List (RoseTree Ptr)) : ∀ h h' g, Represents [] h g →
    g.kids this = ts.map RoseTree.root → (∀ t ∈ ts, Unfolds g.kids t) →
    (∀ q, h'.cell q = if q ∈ ts.flatMap RoseTree.elements then none
      else (h.cell q).map (emptied this q)) →
    Represents [] h' ((g.relist this []).without (ts.flatMap RoseTree.elements)) := by
  induction ts with
  | nil =>
    intro h h' g rep list _ cells
    have same : h' = h := memory_ext fun q => by
      rw [cells, List.flatMap_nil, if_neg (List.not_mem_nil)]
      cases held : h.cell q with
      | none => rfl
      | some n =>
        by_cases here : q = this
        · obtain ⟨first, last⟩ := rep.ends q n held
          rw [here, list] at first last
          cases n
          simp_all [emptied]
        · simp [emptied, here]
    have old : (g.relist this []).without [] = g := by
      have kept : Function.update g.kids this [] = g.kids := by
        rw [← show g.kids this = [] from list, Function.update_eq_self]
      simp only [Grove.without, Grove.relist, List.not_mem_nil, if_false, kept]
    rw [same, List.flatMap_nil, old]
    exact rep
  | cons t ts ih =>
    intro h h' g rep list below cells
    have member : t.root ∈ g.kids this := by simp [list]
    have unfolds := below t (by simp)
    have outside := rep.forest.lister_outside unfolds member
    have list' : g.kids this = [] ++ t.root :: ts.map RoseTree.root := by simpa using list
    -- first the child leaves the list, then its tree goes
    let between := mapped h (unspliced this [] (ts.map RoseTree.root))
    have rep1 : Represents [t.root] between (g.relist this (ts.map RoseTree.root)) :=
      represents_unsplice rep list' fun q => rfl
    have unfolds1 : Unfolds (g.relist this (ts.map RoseTree.root)).kids t :=
      relisted_unfolds unfolds outside
    obtain ⟨n, held⟩ := rep.kid_held member
    have live : ∃ k, between.cell t.root = some k :=
      ⟨unspliced this [] (ts.map RoseTree.root) t.root n, by simp [between, mapped, held]⟩
    obtain ⟨h1, -, freed, rep2⟩ := deleteNode_represents rep1 unfolds1 live
      (by simpa using taken_out rep list')
      (fun y member other => absurd (List.mem_singleton.mp member) other)
    have rep3 : Represents [] h1 ((g.relist this (ts.map RoseTree.root)).without t.elements) := by
      simpa using rep2
    have nodup := rep.nodup this
    rw [list, List.map_cons, List.nodup_cons] at nodup
    have later := ih h1 h' _ rep3 (by simp [Grove.without, outside, relist_here])
      (fun u inside => unfolds_frame (below u (by simp [inside])) fun a within => by
        have root : u.root ∈ g.kids this := by simp [list, List.mem_map_of_mem inside]
        have other : a ≠ this := fun same =>
          rep.forest.lister_outside (below u (by simp [inside])) root (same ▸ within)
        have away : a ∉ t.elements := fun also => nodup.1 (by
          rw [rep.forest.disjoint unfolds (below u (by simp [inside])) rfl rfl member root also
            within]
          exact List.mem_map_of_mem inside)
        simp [Grove.without, away, relist_other g _ other])
      fun q => by
        rw [cells, freed, List.flatMap_cons]
        by_cases among : q ∈ ts.flatMap RoseTree.elements
        · rw [if_pos among, if_pos (List.mem_append_right _ among)]
        · by_cases here : q ∈ t.elements
          · rw [if_pos here, if_pos (List.mem_append_left _ here), if_neg among, Option.map_none]
          · rw [if_neg here, if_neg among, if_neg (by simp [here, among])]
            simp only [between, mapped, Option.map_map]
            congr 1
            funext k
            have notFirst : (ts.map RoseTree.root).head? ≠ some q := fun first => by
              obtain ⟨u, inside, rfl⟩ := List.mem_map.mp (List.mem_of_head? first)
              exact among (List.mem_flatMap.mpr ⟨u, inside, u.root_mem⟩)
            generalize ts.map RoseTree.root = roots at notFirst ⊢
            by_cases self : q = this
            · subst self
              simp [emptied, unspliced, notFirst]
            · simp [emptied, unspliced, self, notFirst]
    rwa [relisted_without g outside] at later

theorem clear_represents (rep : Represents [] h g) (live : ∃ n, h.cell this = some n) :
    ∃ h' t, clear h this = .ok h' ∧ t.root = this ∧ Unfolds g.kids t ∧
      Represents [] h' ((g.relist this []).without (t.children.flatMap RoseTree.elements)) := by
  obtain ⟨n, held⟩ := live
  obtain ⟨⟨a, ts⟩, rfl, standing, nodup, deep⟩ := represents_tree rep ⟨n, held⟩
  rw [RoseTree.elements_node, List.nodup_cons] at nodup
  have held : h.cell a = some n := held
  have list := standing_roots standing
  have below : ∀ t ∈ ts, Unfolds g.kids t := fun t member =>
    (standing_child standing member).unfolds
  have linked := rep.linked a
  rw [← list] at linked
  obtain ⟨h1, run, freed⟩ := eachSibling_deletes
    (fun t member h standing => deleteNode_frees t addressSpace h standing
      ((List.nodup_flatMap.mp nodup.2).1 t member)
      (Nat.le_of_lt (Nat.lt_of_lt_of_le (RoseTree.depth_child (a := a) member) deep)))
    nodup.2 (fun t member => standing_child standing member) linked
    (by simpa using linked_length linked)
  obtain ⟨h2, run2, cells⟩ := modify_mapped (h := h1) (a := a)
    ⟨n, by rw [freed, if_neg nodup.1]; exact held⟩
    fun n => { n with firstChild := NULL, lastChild := NULL }
  refine ⟨h2, .node a ts, ?_, rfl, standing.unfolds,
    represents_cleared ts h h2 g rep list.symm below fun q => ?_⟩
  · rw [list, ← (rep.ends a n held).1] at run
    simp only [clear, RoseTree.root_node, Memory.read_held held, bind, Except.bind, run, run2]
  · rw [cells, freed]
    split
    · rfl
    · rfl

end Clearing

end TinyXmlEdits
