import Boring.South.TinyXmlLinks

/- Clone copies a tree to new nodes and leaves the old ones alone. -/
namespace TinyXmlClones
open LinkedCells DoublyLinked RoseTrees TinyXmlDom TinyXmlForests TinyXmlDeletion TinyXmlLinks
open SouthHeap (Ptr NULL addressSpace)

/-- What the clone of a tree holds: only elements and documents keep their children. -/
def clonedTree : RoseTree (Option Content) → RoseTree (Option Content)
  | .node c ts => .node (c.map Content.cloned)
      (if c.any Content.clonesChildren then ts.map clonedTree else [])

theorem clonedTree_node (c : Option Content) (ts : List (RoseTree (Option Content))) :
    clonedTree (.node c ts) = .node (c.map Content.cloned)
      (if c.any Content.clonesChildren then ts.map clonedTree else []) := by
  rw [clonedTree]

theorem cloned_isDocument (c : Content) : c.cloned.isDocument = c.isDocument := by
  cases c <;> rfl

structure Supplied (h : Dom) (supply : List Ptr) (n : Nat) : Prop where
  nodup : supply.Nodup
  fresh : ∀ a ∈ supply, h.Fresh a
  enough : n ≤ supply.length

/-- Nodes are added, the links of those in `touched` change, and the lists of those in
    `relisted`. -/
structure Extends (added touched relisted : List Ptr) (h h' : Dom) (g g' : Grove) : Prop where
  cell : ∀ q, q ∉ added → q ∉ touched → h'.cell q = h.cell q
  content : ∀ q, q ∉ added → g'.content q = g.content q
  kids : ∀ q, q ∉ added → q ∉ relisted → g'.kids q = g.kids q

structure Copied (h : Dom) (g : Grove) (t : RoseTree Ptr) (supply rest : List Ptr) (h' : Dom)
    (g' : Grove) (t' : RoseTree Ptr) : Prop where
  rep : Represents [] h' g'
  unfolds : Unfolds g'.kids t'
  unlisted : ∀ q, t'.root ∉ g'.kids q
  used : supply = t'.elements ++ rest
  same : t'.map g'.content = clonedTree (t.map g.content)
  keeps : Extends t'.elements [] [] h h' g g'

def Copies (clone : Dom → List Ptr → Ptr → Except Fault (Dom × List Ptr × Ptr))
    (t : RoseTree Ptr) : Prop :=
  ∀ h g supply, Represents [] h g → Unfolds g.kids t → (∃ n, h.cell t.root = some n) →
    Supplied h supply (clonedTree (t.map g.content)).elements.length →
    ∃ h' g' t' rest, clone h supply t.root = .ok (h', rest, t'.root) ∧
      Copied h g t supply rest h' g' t'

/-- The trees `vs'` have been added behind `vs` below `target`, as the clones of `us`. -/
structure CopiedList (target : Ptr) (vs us : List (RoseTree Ptr)) (h : Dom) (g : Grove)
    (supply rest : List Ptr) (h' : Dom) (g' : Grove) (vs' : List (RoseTree Ptr)) : Prop where
  rep : Represents [] h' g'
  list : g'.kids target = (vs ++ vs').map RoseTree.root
  unfolds : ∀ v ∈ vs ++ vs', Unfolds g'.kids v
  unlisted : ∀ q, target ∉ g'.kids q
  used : supply = vs'.flatMap RoseTree.elements ++ rest
  same : vs'.map (RoseTree.map g'.content) = us.map fun u => clonedTree (u.map g.content)
  keeps : Extends (vs'.flatMap RoseTree.elements) (target :: vs.map RoseTree.root) [target]
    h h' g g'

variable {h h' : Dom} {g g' : Grove} {t t' : RoseTree Ptr} {supply rest : List Ptr}

theorem copied_root (copied : Copied h g t supply rest h' g' t') {n : Node}
    (rep : Represents [] h g) (held : h.cell t.root = some n) :
    ∃ m, h'.cell t'.root = some m ∧ m.content = n.content.cloned := by
  have same := copied.same
  cases t with
  | node a ts =>
    cases t' with
    | node b us =>
      rw [RoseTree.map_node, RoseTree.map_node, clonedTree_node, RoseTree.node.injEq, ← rep.content,
        show h.cell a = some n from held, ← copied.rep.content, Option.map_some,
        Option.map_some, Option.map_eq_some_iff] at same
      exact same.1

theorem unlisted_not_under {x p : Ptr} (unlisted : ∀ q, p ∉ g.kids q) (other : x ≠ p) :
    ¬ Under g.kids x p := by
  intro under
  cases under with
  | refl => exact other rfl
  | tail _ child => exact unlisted _ child

theorem unlisted_outside {p : Ptr} (unfolds : Unfolds g.kids t) (unlisted : ∀ q, p ∉ g.kids q)
    (other : p ≠ t.root) : p ∉ t.elements := by
  intro member
  obtain ⟨a, -, child⟩ := unfolds_parent unfolds member other
  exact unlisted a child

theorem live_not_fresh {q : Ptr} (supplied : ∀ a ∈ supply, h.Fresh a)
    (live : ∃ n, h.cell q = some n) : q ∉ supply := by
  intro member
  obtain ⟨n, held⟩ := live
  rw [(supplied q member).2] at held
  cases held

theorem relisted_unfolds {target : Ptr} {list : List Ptr} (unfolds : Unfolds g.kids t)
    (outside : target ∉ t.elements) : Unfolds (g.relist target list).kids t :=
  unfolds_frame unfolds fun _ member => relist_other g list fun same => outside (same ▸ member)

theorem copy_turn {clone : Dom → List Ptr → Ptr → Except Fault (Dom × List Ptr × Ptr)}
    {target a : Ptr} {u : RoseTree Ptr} {vs : List (RoseTree Ptr)} (copies : Copies clone u)
    (rep : Represents [] h g) (unlisted : ∀ q, target ∉ g.kids q)
    (live : ∃ n, h.cell target = some n) (list : g.kids target = vs.map RoseTree.root)
    (below : ∀ v ∈ vs, Unfolds g.kids v) (child : u.root ∈ g.kids a)
    (unfolds : Unfolds g.kids u)
    (supplied : Supplied h supply (clonedTree (u.map g.content)).elements.length) :
    ∃ h1 h2 g2 v rest, clone h supply u.root = .ok (h1, rest, v.root) ∧
      linkEndChild h1 target v.root = .ok (h2, v.root) ∧
      CopiedList target vs [u] h g supply rest h2 g2 [v] := by
  obtain ⟨n, held, -, plain⟩ := rep.child a _ child
  obtain ⟨h1, g1, v, rest, run, copied⟩ := copies h g supply rep unfolds ⟨n, held⟩ supplied
  obtain ⟨m, root, content⟩ := copied_root copied rep held
  have new : ∀ q ∈ v.elements, h.Fresh q := fun q member =>
    supplied.fresh q (by rw [copied.used]; simp [member])
  have old {q : Ptr} (live : ∃ n, h.cell q = some n) : q ∉ v.elements := live_not_fresh new live
  have other : v.root ≠ target := fun same => old live (same ▸ v.root_mem)
  have still {q : Ptr} (live : ∃ n, h.cell q = some n) : h1.cell q = h.cell q :=
    copied.keeps.cell q (old live) (by simp)
  have kept : g1.kids target = vs.map RoseTree.root := by
    rw [copied.keeps.kids target (old live) (by simp), list]
  have unlisted1 : ∀ q, target ∉ g1.kids q := fun q member => by
    by_cases added : q ∈ v.elements
    · exact old live (unfolds_kids copied.unfolds added target member)
    · exact unlisted q (by rwa [copied.keeps.kids q added (by simp)] at member)
  obtain ⟨h2, link, rep2, cells⟩ := linkEndChild_represents copied.rep
    ((still live).symm ▸ live) root (by rw [content, cloned_isDocument, plain])
    copied.unlisted (unlisted_not_under unlisted1 other)
  rw [kept] at rep2
  have stays {w : RoseTree Ptr} (member : w ∈ vs) : Unfolds g1.kids w := by
    have inList : w.root ∈ g.kids target := by
      rw [list]
      exact List.mem_map.mpr ⟨w, member, rfl⟩
    exact unfolds_frame (below w member) fun b within => copied.keeps.kids b
      (old (elements_held rep (below w member) (rep.kid_held inList) b within)) (by simp)
  refine ⟨h1, h2, _, v, rest, run, link, rep2, ?list, ?unfolds, ?unlisted, ?used, ?same, ?keeps⟩
  case list => rw [relist_here, List.map_append, List.map_singleton]
  case unfolds =>
    intro w member
    rcases List.mem_append.mp member with front | last
    · refine relisted_unfolds (stays front) fun within => ?_
      refine unlisted_outside (stays front) unlisted1 (fun same => ?_) within
      exact unlisted1 target (by rw [kept, same]; exact List.mem_map.mpr ⟨w, front, rfl⟩)
    · rw [List.mem_singleton.mp last]
      exact relisted_unfolds copied.unfolds (old live)
  case unlisted =>
    intro q member
    by_cases here : q = target
    · rw [here, relist_here, List.mem_append, List.mem_singleton, ← kept] at member
      exact member.elim (unlisted1 target) fun same => other same.symm
    · exact unlisted1 q (by rwa [relist_other g1 _ here] at member)
  case used => simpa using copied.used
  case same =>
    show [v.map g1.content] = [clonedTree (u.map g.content)]
    rw [copied.same]
  case keeps =>
    rw [List.flatMap_singleton]
    refine ⟨fun q added touched => ?_, fun q added => copied.keeps.content q added,
      fun q added away => ?_⟩
    · rw [List.mem_cons, not_or, ← kept] at touched
      rw [cells q (fun same => added (same ▸ v.root_mem)) touched.1 touched.2,
        copied.keeps.cell q added (by simp)]
    · rw [relist_other g1 _ (by simpa using away), copied.keeps.kids q added (by simp)]

theorem represents_live (rep : Represents [] h g) {q : Ptr} :
    (∃ n, h.cell q = some n) ↔ ∃ c, g.content q = some c := by
  simp only [← rep.content, Option.map_eq_some_iff]
  constructor
  · rintro ⟨n, held⟩
    exact ⟨_, n, held, rfl⟩
  · rintro ⟨_, n, held, -⟩
    exact ⟨n, held⟩

theorem keeps_tree {added touched : List Ptr} {target : Ptr} {u : RoseTree Ptr}
    (keeps : Extends added touched [target] h h' g g') (unfolds : Unfolds g.kids u)
    (old : ∀ q ∈ u.elements, q ∉ added) (outside : target ∉ u.elements) :
    Unfolds g'.kids u ∧ u.map g'.content = u.map g.content :=
  ⟨unfolds_frame unfolds fun b member => keeps.kids b (old b member) fun same =>
      outside (List.mem_singleton.mp same ▸ member),
    RoseTree.map_congr fun b member => keeps.content b (old b member)⟩

/-- The loop of CopyTo between two turns: below `target` stand the clones `vs`, and the children
    `us` of `a` are still to come. -/
structure Copying (target a before : Ptr) (vs us : List (RoseTree Ptr)) (h : Dom) (g : Grove) :
    Prop where
  rep : Represents [] h g
  apart : a ≠ target
  unlisted : ∀ q, target ∉ g.kids q
  live : ∃ n, h.cell target = some n
  list : g.kids target = vs.map RoseTree.root
  below : ∀ v ∈ vs, Unfolds g.kids v
  among : ∀ u ∈ us, u.root ∈ g.kids a ∧ Unfolds g.kids u
  linked : Linked h Node.prev Node.next before (us.map RoseTree.root) NULL

section Loops

variable {target a before : Ptr} {u v w : RoseTree Ptr} {vs us ts vs' : List (RoseTree Ptr)}

theorem CopiedList.old (copied : CopiedList target vs ts h g supply rest h' g' vs')
    (fresh : ∀ a ∈ supply, h.Fresh a) {q : Ptr} (live : ∃ n, h.cell q = some n) :
    q ∉ vs'.flatMap RoseTree.elements := fun member =>
  live_not_fresh fresh live (by rw [copied.used]; exact List.mem_append_left _ member)

theorem Copying.away (loop : Copying target a before vs us h g) (member : w ∈ us) :
    w.root ≠ target ∧ w.root ∉ vs.map RoseTree.root := by
  obtain ⟨inList, -⟩ := loop.among w member
  refine ⟨fun same => loop.unlisted a (same ▸ inList), fun also => loop.apart ?_⟩
  exact loop.rep.apart inList (loop.list ▸ also)

theorem Copying.stays (loop : Copying target a before vs us h g)
    (copied : CopiedList target vs ts h g supply rest h' g' vs')
    (fresh : ∀ a ∈ supply, h.Fresh a) (member : w ∈ us) :
    Unfolds g'.kids w ∧ w.map g'.content = w.map g.content ∧ h'.cell w.root = h.cell w.root := by
  obtain ⟨inList, below⟩ := loop.among w member
  have live := loop.rep.kid_held inList
  obtain ⟨unfolds, same⟩ := keeps_tree copied.keeps below
    (fun b within => copied.old fresh (elements_held loop.rep below live b within))
    (unlisted_outside below loop.unlisted (Ne.symm (loop.away member).1))
  refine ⟨unfolds, same, copied.keeps.cell _ (copied.old fresh live) ?_⟩
  rw [List.mem_cons, not_or]
  exact loop.away member

theorem Copying.next (loop : Copying target a before vs (u :: us) h g)
    (turn : CopiedList target vs [u] h g supply rest h' g' [v])
    (fresh : ∀ a ∈ supply, h.Fresh a) : Copying target a u.root (vs ++ [v]) us h' g' := by
  have stays {w : RoseTree Ptr} (member : w ∈ us) :=
    loop.stays turn fresh (List.mem_cons_of_mem u member)
  refine ⟨turn.rep, loop.apart, turn.unlisted, ?live, turn.list, turn.unfolds, ?among, ?linked⟩
  case live =>
    rw [represents_live turn.rep, turn.keeps.content target (turn.old fresh loop.live)]
    exact (represents_live loop.rep).mp loop.live
  case among =>
    intro w member
    refine ⟨?_, (stays member).1⟩
    have lister := loop.rep.lister (loop.among u (by simp)).1
    rw [turn.keeps.kids a (turn.old fresh lister) (by simpa using loop.apart)]
    exact (loop.among w (by simp [member])).1
  case linked =>
    refine linked_frame loop.linked.2 fun b member p k found => ?_
    obtain ⟨w, inside, rfl⟩ := List.mem_map.mp member
    obtain ⟨c, held, back, on⟩ := found
    exact ⟨c, (stays inside).2.2.trans held, back, on⟩

theorem supplied_next (loop : Copying target a before vs (u :: us) h g)
    (turn : CopiedList target vs [u] h g supply rest h' g' [v])
    (supplied : Supplied h supply
      ((u :: us).flatMap fun u => (clonedTree (u.map g.content)).elements).length) :
    Supplied h' rest (us.flatMap fun u => (clonedTree (u.map g'.content)).elements).length := by
  have used := turn.used
  rw [List.flatMap_singleton] at used
  have nodup := supplied.nodup
  rw [used, List.nodup_append] at nodup
  have unlive {b : Ptr} (member : b ∈ rest) (live : ∃ n, h.cell b = some n) : False :=
    live_not_fresh supplied.fresh live (by rw [used]; exact List.mem_append_right _ member)
  refine ⟨nodup.2.1, fun b member => ?_, ?_⟩
  · have fresh := supplied.fresh b (by rw [used]; exact List.mem_append_right _ member)
    refine ⟨fresh.1, (turn.keeps.cell b (fun also => ?_) ?_).trans fresh.2⟩
    · exact nodup.2.2 b (by simpa using also) b member rfl
    · rw [List.mem_cons, not_or]
      refine ⟨fun same => unlive member (same ▸ loop.live), fun also => unlive member ?_⟩
      exact loop.rep.kid_held (loop.list ▸ also)
  · have sizes : (us.flatMap fun w => (clonedTree (w.map g'.content)).elements) =
        us.flatMap fun w => (clonedTree (w.map g.content)).elements :=
      List.flatMap_congr fun w member => by
        rw [(loop.stays turn supplied.fresh (List.mem_cons_of_mem u member)).2.1]
    have same : v.map g'.content = clonedTree (u.map g.content) := List.singleton_inj.mp turn.same
    have lengths := supplied.enough
    rw [List.flatMap_cons, List.length_append, used, List.length_append, ← v.elements.length_map,
      ← RoseTree.elements_map, same] at lengths
    rw [sizes]
    omega

theorem copied_cons {h2 : Dom} {g2 : Grove} {rest2 : List Ptr}
    (loop : Copying target a before vs (u :: us) h g)
    (turn : CopiedList target vs [u] h g supply rest h' g' [v])
    (nodup : supply.Nodup) (fresh : ∀ a ∈ supply, h.Fresh a)
    (later : CopiedList target (vs ++ [v]) us h' g' rest rest2 h2 g2 vs') :
    CopiedList target vs (u :: us) h g supply rest2 h2 g2 (v :: vs') := by
  have used := turn.used
  have keeps := turn.keeps
  rw [List.flatMap_singleton] at used keeps
  rw [used, List.nodup_append] at nodup
  have disjoint {q : Ptr} (member : q ∈ v.elements) : q ∉ vs'.flatMap RoseTree.elements :=
    fun also => nodup.2.2 q member q (by rw [later.used]; simp [also]) rfl
  refine ⟨later.rep, by simpa using later.list, by simpa using later.unfolds, later.unlisted,
    ?used, ?same, ?keeps⟩
  case used => rw [used, later.used, List.flatMap_cons, List.append_assoc]
  case same =>
    have same : v.map g'.content = clonedTree (u.map g.content) := List.singleton_inj.mp turn.same
    rw [List.map_cons, List.map_cons, later.same, ← same]
    congr 1
    · exact RoseTree.map_congr fun b member => later.keeps.content b (disjoint member)
    · refine List.map_congr_left fun w member => ?_
      rw [(loop.stays turn fresh (List.mem_cons_of_mem u member)).2.1]
  case keeps =>
    refine ⟨fun q added touched => ?_, fun q added => ?_, fun q added away => ?_⟩ <;>
      rw [List.flatMap_cons, List.mem_append, not_or] at added
    · rw [← keeps.cell q added.1 touched]
      refine later.keeps.cell q added.2 ?_
      rw [List.mem_cons, not_or] at touched ⊢
      refine ⟨touched.1, ?_⟩
      rw [List.map_append, List.mem_append, not_or]
      refine ⟨touched.2, fun last => added.1 ?_⟩
      rw [List.map_singleton, List.mem_singleton] at last
      exact last ▸ v.root_mem
    · rw [later.keeps.content q added.2, keeps.content q added.1]
    · rw [later.keeps.kids q added.2 away, keeps.kids q added.1 away]

/-- The loop of CopyTo adds the clones of the children, in their order. -/
theorem copyChildren_copies {clone : Dom → List Ptr → Ptr → Except Fault (Dom × List Ptr × Ptr)}
    (copies : ∀ u ∈ us, Copies clone u) {fuel : Nat} (enough : us.length < fuel)
    (loop : Copying target a before vs us h g) (supplied : Supplied h supply
      (us.flatMap fun u => (clonedTree (u.map g.content)).elements).length) :
    ∃ h' g' vs' rest,
      copyChildren clone target fuel h supply ((us.map RoseTree.root).headD NULL) =
        .ok (h', rest) ∧ CopiedList target vs us h g supply rest h' g' vs' := by
  obtain ⟨fuel, rfl⟩ : ∃ n, fuel = n + 1 := ⟨fuel - 1, by omega⟩
  induction us generalizing fuel h g supply before vs with
  | nil =>
    refine ⟨h, g, [], supply, by simp [copyChildren], loop.rep, by simpa using loop.list,
      by simpa using loop.below, loop.unlisted, rfl, rfl, fun _ _ _ => rfl, fun _ _ => rfl,
      fun _ _ _ => rfl⟩
  | cons u us ih =>
    obtain ⟨child, unfolds⟩ := loop.among u (by simp)
    obtain ⟨n, held⟩ := loop.rep.kid_held child
    have room := supplied.enough
    rw [List.flatMap_cons, List.length_append] at room
    obtain ⟨h1, h2, g2, v, rest, run, link, turn⟩ := copy_turn (copies u (by simp)) loop.rep
      loop.unlisted loop.live loop.list loop.below child unfolds
      ⟨supplied.nodup, supplied.fresh, by omega⟩
    have self := (loop.stays turn supplied.fresh (List.mem_cons_self ..)).2.2.trans held
    obtain ⟨fuel, rfl⟩ : ∃ n, fuel = n + 1 := ⟨fuel - 1, by simp at enough; omega⟩
    obtain ⟨h', g', vs', rest', later, copied⟩ := ih (fun w member => copies w (by simp [member]))
      (loop.next turn supplied.fresh) (supplied_next loop turn supplied) fuel
      (by simpa using enough)
    refine ⟨h', g', v :: vs', rest', ?_,
      copied_cons loop turn supplied.nodup supplied.fresh copied⟩
    simp only [List.map_cons, List.headD_cons, copyChildren,
      if_neg (Memory.address_ne_null held), bind, Except.bind, run, link, Memory.read_held self]
    obtain ⟨-, next⟩ := links_unique loop.linked.1 ⟨n, held, rfl, rfl⟩
    rw [← next]
    exact later

end Loops

theorem new_keeps {x : Ptr} (rep : Represents [] h g) (fresh : h.Fresh x) (content : Content) :
    Represents [] (h.put x (some (newNode content)) fresh.1) (g.added x content) ∧
      Extends [x] [] [] h (h.put x (some (newNode content)) fresh.1) g (g.added x content) := by
  refine ⟨represents_new rep fresh content, fun q added _ => ?_, fun q added => ?_,
    fun _ _ _ => rfl⟩
  · rw [Memory.put_cell, Function.update_of_ne (by simpa using added)]
  · rw [Grove.added_content, if_neg (by simpa using added)]

theorem new_stays {x : Ptr} (rep : Represents [] h g) (fresh : h.Fresh x) (content : Content)
    (unfolds : Unfolds g.kids t) (live : ∃ n, h.cell t.root = some n) :
    t.map (g.added x content).content = t.map g.content := by
  refine RoseTree.map_congr fun b within => (new_keeps rep fresh content).2.content b ?_
  rw [List.mem_singleton]
  rintro rfl
  obtain ⟨n, held⟩ := elements_held rep unfolds live _ within
  rw [fresh.2] at held
  cases held

section Nodes

variable {a x : Ptr} {n : Node} {ts : List (RoseTree Ptr)} {content : Content}

theorem child_among (unfolds : Unfolds g.kids (.node a ts)) (member : t ∈ ts) :
    t.root ∈ g.kids a ∧ Unfolds g.kids t := by
  cases unfolds with
  | node roots each =>
    rw [← roots]
    exact ⟨List.mem_map.mpr ⟨t, member, rfl⟩, each t member⟩

theorem new_copying (rep : Represents [] h g) (fresh : h.Fresh x) (held : h.cell a = some n)
    (unfolds : Unfolds g.kids (.node a ts)) :
    Copying x a NULL [] ts (h.put x (some (newNode content)) fresh.1) (g.added x content) := by
  obtain ⟨rep1, keeps1⟩ := new_keeps rep fresh content
  have other : a ≠ x := by
    rintro rfl
    rw [fresh.2] at held
    cases held
  have unlisted : ∀ q, x ∉ g.kids q := fresh_unlisted rep fresh
  refine ⟨rep1, other, unlisted, ⟨newNode content, ?_⟩, rep.unbuilt x fresh.2, by simp,
    fun t member => child_among unfolds member, ?_⟩
  · rw [Memory.put_cell, Function.update_self]
  · cases unfolds with
    | node roots _ =>
      rw [roots]
      exact rep1.linked a

theorem new_supplied (rep : Represents [] h g) {size : Nat} (fresh : h.Fresh x)
    (unfolds : Unfolds g.kids (.node a ts)) (supplied : Supplied h (x :: rest) (size + 1))
    (sizes : (ts.flatMap fun t => (clonedTree (t.map g.content)).elements).length = size) :
    Supplied (h.put x (some (newNode content)) fresh.1) rest
      (ts.flatMap fun t => (clonedTree (t.map (g.added x content).content)).elements).length := by
  obtain ⟨nodup, free, enough⟩ := supplied
  rw [List.nodup_cons] at nodup
  refine ⟨nodup.2, fun b member => ?_, ?_⟩
  · have away : b ≠ x := fun same => nodup.1 (same ▸ member)
    refine ⟨(free b (by simp [member])).1, ?_⟩
    rw [Memory.put_cell, Function.update_of_ne away]
    exact (free b (by simp [member])).2
  · have stays {t : RoseTree Ptr} (member : t ∈ ts) :
        t.map (g.added x content).content = t.map g.content := by
      obtain ⟨child, below⟩ := child_among unfolds member
      exact new_stays rep fresh content below (rep.kid_held child)
    rw [List.flatMap_congr fun t member => by rw [stays member], sizes]
    simpa using enough

theorem new_copied {h1 : Dom} {g1 : Grove} {vs : List (RoseTree Ptr)} {rest1 : List Ptr}
    (rep : Represents [] h g) (fresh : h.Fresh x) (nodup : x ∉ rest) (held : h.cell a = some n)
    (keepsKids : n.content.clonesChildren = true) (unfolds : Unfolds g.kids (.node a ts))
    (loop : CopiedList x [] ts (h.put x (some (newNode n.content.cloned)) fresh.1)
      (g.added x n.content.cloned) rest rest1 h1 g1 vs) :
    Copied h g (.node a ts) (x :: rest) rest1 h1 g1 (.node x vs) := by
  have used := loop.used
  have keeps := (new_keeps rep fresh n.content.cloned).2
  have content : g.content a = some n.content := by rw [← rep.content, held, Option.map_some]
  have outside : x ∉ vs.flatMap RoseTree.elements := fun member =>
    nodup (by rw [used]; exact List.mem_append_left _ member)
  refine ⟨loop.rep, .node loop.list.symm loop.unfolds, loop.unlisted, ?used, ?same, ?keeps⟩
  case used => rw [RoseTree.elements_node, List.cons_append, ← used]
  case same =>
    have top : g1.content x = some n.content.cloned := by
      rw [loop.keeps.content x outside, Grove.added_content, if_pos rfl]
    rw [RoseTree.map_node, RoseTree.map_node, clonedTree_node, top, content, Option.any_some,
      if_pos keepsKids, loop.same, List.map_map, Option.map_some]
    congr 1
    refine List.map_congr_left fun t member => ?_
    obtain ⟨child, below⟩ := child_among unfolds member
    rw [new_stays rep fresh _ below (rep.kid_held child)]
    rfl
  case keeps =>
    refine ⟨fun q added _ => ?_, fun q added => ?_, fun q added _ => ?_⟩ <;>
      rw [RoseTree.elements_node, List.mem_cons, not_or] at added
    · rw [loop.keeps.cell q added.2 (by simpa using added.1),
        keeps.cell q (by simpa using added.1) (by simp)]
    · rw [loop.keeps.content q added.2, keeps.content q (by simpa using added.1)]
    · rw [loop.keeps.kids q added.2 (by simpa using added.1)]
      rfl

end Nodes

/-- Clone of any node copies its tree. -/
theorem cloneNode_copies (t : RoseTree Ptr) :
    ∀ fuel, t.depth ≤ fuel → Copies (cloneNode fuel) t := by
  induction t using RoseTree.induct with
  | node a ts each =>
    intro fuel deep h g supply rep unfolds live supplied
    obtain ⟨fuel, rfl⟩ : ∃ n, fuel = n + 1 := ⟨fuel - 1, by rw [RoseTree.depth] at deep; omega⟩
    have shallow : ∀ t ∈ ts, t.depth ≤ fuel := fun t member => by
      have := RoseTree.depth_child (a := a) member
      omega
    obtain ⟨n, held⟩ := live
    have held : h.cell a = some n := held
    have content : g.content a = some n.content := by rw [← rep.content, held, Option.map_some]
    obtain ⟨nodup, fresh, enough⟩ := supplied
    rw [RoseTree.map_node, clonedTree_node, RoseTree.elements_node, List.length_cons,
      content, Option.any_some] at enough
    obtain ⟨x, rest, rfl⟩ : ∃ x rest, supply = x :: rest := by
      cases supply with
      | nil => simp at enough
      | cons x rest => exact ⟨x, rest, rfl⟩
    have freshX := fresh x (by simp)
    by_cases copies : n.content.clonesChildren = true
    · rw [if_pos copies, List.map_map, List.flatMap_map] at enough
      have loop := @new_copying _ _ a x n ts n.content.cloned rep freshX held unfolds
      obtain ⟨h', g', vs, rest', run, copied⟩ := copyChildren_copies
        (fun t member => each t member fuel (shallow t member))
        (by simpa using linked_length loop.linked) loop
        (new_supplied rep freshX unfolds ⟨nodup, fresh, enough⟩ rfl)
      refine ⟨h', g', .node x vs, rest', ?_,
        new_copied rep freshX (List.nodup_cons.mp nodup).1 held copies unfolds copied⟩
      have first : (ts.map RoseTree.root).headD NULL = n.firstChild := by
        cases unfolds with
        | node roots _ => rw [roots, (rep.ends a n held).1]
      rw [first] at run
      simp only [cloneNode, RoseTree.root_node, Memory.read_held held, bind, Except.bind,
        List.headD_cons, Memory.malloc_fresh _ freshX, if_pos copies, List.tail_cons, run]
    · obtain ⟨rep1, keeps1⟩ := new_keeps rep freshX n.content.cloned
      have empty : (g.added x n.content.cloned).kids x = [] := rep.unbuilt x freshX.2
      have unlisted : ∀ q, x ∉ g.kids q := fresh_unlisted rep freshX
      refine ⟨_, _, .node x [], rest, ?run, rep1, .node empty.symm (by simp), unlisted, by simp,
        ?same, by simpa using keeps1⟩
      case run =>
        simp only [cloneNode, RoseTree.root_node, Memory.read_held held, bind, Except.bind,
          List.headD_cons, Memory.malloc_fresh _ freshX, if_neg copies, List.tail_cons]
      case same =>
        rw [RoseTree.map_node, RoseTree.map_node, clonedTree_node, content, Grove.added_content,
          if_pos rfl, Option.any_some, if_neg copies, Option.map_some, List.map_nil]

end TinyXmlClones
