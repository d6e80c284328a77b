import Boring.South.TinyXmlForests

/- What `delete` of a node does: the whole tree below it is freed, each node once, and nothing
   else changes. -/
namespace TinyXmlDeletion
open LinkedCells DoublyLinked RoseTrees TinyXmlDom TinyXmlForests
open SouthHeap (Ptr NULL addressSpace chain_length_lt)

/-- The links along which the loops over children walk, in all of a tree. -/
structure Standing (h : Dom) (kids : Ptr → List Ptr) (t : RoseTree Ptr) : Prop where
  unfolds : Unfolds kids t
  first : ∀ a ∈ t.elements, ∃ n, h.cell a = some n ∧ n.firstChild = (kids a).headD NULL
  linked : ∀ a ∈ t.elements, Linked h Node.prev Node.next NULL (kids a) NULL

def Freed (h h' : Dom) (dead : List Ptr) : Prop :=
  ∀ q, h'.cell q = if q ∈ dead then none else h.cell q

variable {h h' : Dom} {kids : Ptr → List Ptr} {t : RoseTree Ptr} {ts : List (RoseTree Ptr)}
  {a : Ptr}

theorem standing_frame (standing : Standing h kids t)
    (same : ∀ a ∈ t.elements, h'.cell a = h.cell a) : Standing h' kids t := by
  refine ⟨standing.unfolds, fun a member => ?_, fun a member => ?_⟩
  · rw [same a member]
    exact standing.first a member
  · refine linked_frame (standing.linked a member) fun c child p n found => ?_
    obtain ⟨cell, held, back, on⟩ := found
    exact ⟨cell, (same c (unfolds_kids standing.unfolds member c child)).trans held, back, on⟩

theorem standing_child (standing : Standing h kids (.node a ts)) (member : t ∈ ts) :
    Standing h kids t := by
  have inside : ∀ b ∈ t.elements, b ∈ (RoseTree.node a ts).elements := fun b within => by
    rw [RoseTree.elements_node]
    exact List.mem_cons_of_mem _ (List.mem_flatMap.mpr ⟨t, member, within⟩)
  cases standing.unfolds with
  | node list each =>
    exact ⟨each t member, fun b within => standing.first b (inside b within),
      fun b within => standing.linked b (inside b within)⟩

theorem standing_roots (standing : Standing h kids (.node a ts)) :
    ts.map RoseTree.root = kids a := by
  cases standing.unfolds with
  | node list each => exact list

theorem freed_nil (h : Dom) : Freed h h [] := fun q => by simp

theorem freed_append {h1 h2 : Dom} {xs ys : List Ptr} (first : Freed h h1 xs)
    (second : Freed h1 h2 ys) : Freed h h2 (xs ++ ys) := by
  intro q
  rw [second, first]
  by_cases here : q ∈ ys <;> by_cases there : q ∈ xs <;> simp [here, there]

theorem linked_length {before : Ptr} {xs : List Ptr}
    (list : Linked h Node.prev Node.next before xs NULL) : xs.length < addressSpace := by
  obtain ⟨cells, rfl, chain⟩ := linked_segment list
  rw [List.length_map]
  exact chain_length_lt chain

theorem eachSibling_deletes {body : Dom → Ptr → Except Fault Dom}
    (deletes : ∀ t ∈ ts, ∀ h, Standing h kids t → ∃ h', body h t.root = .ok h' ∧
      Freed h h' t.elements)
    (nodup : (ts.flatMap RoseTree.elements).Nodup) (standing : ∀ t ∈ ts, Standing h kids t)
    {before : Ptr} (list : Linked h Node.prev Node.next before (ts.map RoseTree.root) NULL)
    {fuel : Nat} (enough : ts.length < fuel) :
    ∃ h', eachSibling body fuel h ((ts.map RoseTree.root).headD NULL) = .ok h' ∧
      Freed h h' (ts.flatMap RoseTree.elements) := by
  induction ts generalizing h before fuel with
  | nil =>
    obtain ⟨fuel, rfl⟩ : ∃ n, fuel = n + 1 := ⟨fuel - 1, by omega⟩
    exact ⟨h, by simp [eachSibling], freed_nil h⟩
  | cons t ts ih =>
    obtain ⟨fuel, rfl⟩ : ∃ n, fuel = n + 1 := ⟨fuel - 1, by omega⟩
    obtain ⟨⟨n, held, -, on⟩, rest⟩ := list
    rw [List.flatMap_cons, List.nodup_append] at nodup
    obtain ⟨-, nodup, apart⟩ := nodup
    obtain ⟨h1, run, freed⟩ := deletes t (by simp) h (standing t (by simp))
    have kept : ∀ u ∈ ts, ∀ b ∈ u.elements, h1.cell b = h.cell b := fun u member b within => by
      rw [freed, if_neg]
      exact fun inside => apart b inside b (List.mem_flatMap.mpr ⟨u, member, within⟩) rfl
    have rest' : Linked h1 Node.prev Node.next t.root (ts.map RoseTree.root) NULL := by
      refine linked_frame rest fun b member p k found => ?_
      obtain ⟨u, inside, rfl⟩ := List.mem_map.mp member
      obtain ⟨c, held, back, on⟩ := found
      exact ⟨c, (kept u inside _ u.root_mem).trans held, back, on⟩
    obtain ⟨h2, later, freed'⟩ := ih (fun u member => deletes u (by simp [member])) nodup
      (fun u member => standing_frame (standing u (by simp [member])) (kept u member)) rest'
      (by simpa using enough)
    refine ⟨h2, ?_, by rw [List.flatMap_cons]; exact freed_append freed freed'⟩
    rw [← on] at later
    simp only [List.map_cons, List.headD_cons, eachSibling, if_neg (Memory.address_ne_null held),
      Memory.read_held held, bind, Except.bind, run, later]

theorem deleteNode_frees (t : RoseTree Ptr) : ∀ fuel h, Standing h kids t → t.elements.Nodup →
    t.depth ≤ fuel → ∃ h', deleteNode fuel h t.root = .ok h' ∧ Freed h h' t.elements := by
  induction t using RoseTree.induct with
  | node a ts each =>
    intro fuel h standing nodup deep
    rw [RoseTree.elements_node, List.nodup_cons] at nodup
    obtain ⟨fuel, rfl⟩ : ∃ n, fuel = n + 1 := ⟨fuel - 1, by rw [RoseTree.depth] at deep; omega⟩
    obtain ⟨n, held, first⟩ := standing.first a (by simp)
    have list := standing.linked a (by simp)
    rw [← standing_roots standing] at list first
    have shallow : ∀ t ∈ ts, t.depth ≤ fuel := fun t member => by
      have := RoseTree.depth_child (a := a) member
      omega
    have distinct : ∀ t ∈ ts, t.elements.Nodup := (List.nodup_flatMap.mp nodup.2).1
    obtain ⟨h1, run, freed⟩ := eachSibling_deletes
      (fun t member h standing => each t member fuel h standing (distinct t member)
        (shallow t member))
      nodup.2 (fun t member => standing_child standing member) list
      (by simpa using linked_length list)
    have still : h1.cell a = some n := by rw [freed, if_neg nodup.1, held]
    refine ⟨h1.put a none (Memory.address_ne_null still), ?_, fun q => ?_⟩
    · simp only [RoseTree.root_node, deleteNode, Memory.read_held held, bind, Except.bind, first,
        run, Memory.free_held still]
    · rw [Memory.put_cell, RoseTree.elements_node]
      by_cases here : q = a
      · simp [here]
      · rw [Function.update_of_ne here, freed]
        simp [here]

section Forests

variable {opened : List Ptr} {g : Grove} {p : Ptr}

theorem held_length_lt {xs : List Ptr} (nodup : xs.Nodup) (held : ∀ a ∈ xs, a ≠ NULL) :
    xs.length < addressSpace := by
  have whole : ((NULL :: xs).map UInt32.toNat).Nodup := by
    apply List.Nodup.map (fun _ _ => UInt32.toNat_inj.mp)
    exact List.nodup_cons.mpr ⟨fun member => held NULL member rfl, nodup⟩
  have inside : (NULL :: xs).map UInt32.toNat ⊆ List.range addressSpace := by
    intro n member
    obtain ⟨a, _, rfl⟩ := List.mem_map.mp member
    exact List.mem_range.mpr a.toNat_lt
  have bounded := whole.length_le_of_subset inside
  simp only [List.length_map, List.length_cons, List.length_range] at bounded
  omega

theorem represents_standing (rep : Represents opened h g) (unfolds : Unfolds g.kids t)
    (live : ∃ n, h.cell t.root = some n) : Standing h g.kids t :=
  ⟨unfolds, fun a member => by
    obtain ⟨n, held⟩ := elements_held rep unfolds live a member
    exact ⟨n, held, (rep.ends a n held).1⟩, fun a _ => rep.linked a⟩

theorem represents_tree (rep : Represents opened h g) (live : ∃ n, h.cell p = some n) :
    ∃ t : RoseTree Ptr, t.root = p ∧ Standing h g.kids t ∧ t.elements.Nodup ∧
      t.depth ≤ addressSpace := by
  obtain ⟨t, rfl, unfolds⟩ := rep.forest.unfolds p
  have nodup := rep.forest.elements_nodup unfolds
  have short := held_length_lt nodup fun a member => by
    obtain ⟨n, held⟩ := elements_held rep unfolds live a member
    exact Memory.address_ne_null held
  have := t.depth_le
  exact ⟨t, rfl, represents_standing rep unfolds live, nodup, by omega⟩

theorem tree_bounds (rep : Represents opened h g) (unfolds : Unfolds g.kids t)
    (live : ∃ n, h.cell t.root = some n) : t.elements.Nodup ∧ t.depth ≤ addressSpace := by
  obtain ⟨u, same, standing, nodup, deep⟩ := represents_tree rep live
  obtain rfl := unfolds_unique standing.unfolds unfolds same
  exact ⟨nodup, deep⟩

/-- A node in no list is deleted with its tree, and the rest stays as it is. -/
theorem deleteNode_represents (rep : Represents opened h g) (unfolds : Unfolds g.kids t)
    (live : ∃ n, h.cell t.root = some n) (unlisted : ∀ q, t.root ∉ g.kids q)
    (others : ∀ x ∈ opened, x ≠ t.root → ∀ n, h.cell x = some n → n.parent ∉ t.elements) :
    ∃ h', deleteNode addressSpace h t.root = .ok h' ∧ Freed h h' t.elements ∧
      Represents (opened.filter (· ≠ t.root)) h' (g.without t.elements) := by
  obtain ⟨nodup, deep⟩ := tree_bounds rep unfolds live
  obtain ⟨h', run, freed⟩ := deleteNode_frees t addressSpace h
    (represents_standing rep unfolds live) nodup deep
  exact ⟨h', run, freed, represents_without rep unfolds live unlisted others freed⟩

theorem represents_opened {opened' : List Ptr} (rep : Represents opened h g)
    (sub : ∀ x ∈ opened, x ∈ opened') : Represents opened' h g :=
  { rep with loose := fun p n held alone unopened =>
      rep.loose p n held alone fun member => unopened (sub p member) }

theorem memory_ext {h h' : Dom} (same : ∀ q, h'.cell q = h.cell q) : h' = h := by
  cases h
  cases h'
  simpa using funext same

end Forests

end TinyXmlDeletion
