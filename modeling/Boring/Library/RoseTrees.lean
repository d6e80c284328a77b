import Mathlib.Data.List.Nodup
import Mathlib.Logic.Relation
import Mathlib.Data.List.Basic

/- Forests given by the children of each element, and the trees they unfold to. -/
namespace RoseTrees

variable {α β : Type}

inductive RoseTree (α : Type) where
  | node (root : α) (children : List (RoseTree α))

namespace RoseTree

def root : RoseTree α → α
  | node a _ => a

def children : RoseTree α → List (RoseTree α)
  | node _ ts => ts

theorem induct {motive : RoseTree α → Prop}
    (node : ∀ a ts, (∀ t ∈ ts, motive t) → motive (.node a ts)) : ∀ t, motive t
  | .node a ts => node a ts fun t _ => induct node t

def elements : RoseTree α → List α
  | node a ts => a :: ts.flatMap elements

def map (f : α → β) : RoseTree α → RoseTree β
  | node a ts => node (f a) (ts.map (map f))

def depth : RoseTree α → Nat
  | node _ ts => (ts.map depth).foldr max 0 + 1

@[simp] theorem root_node (a : α) (ts : List (RoseTree α)) : (node a ts).root = a := rfl

@[simp] theorem children_node (a : α) (ts : List (RoseTree α)) : (node a ts).children = ts := rfl

@[simp] theorem elements_node (a : α) (ts : List (RoseTree α)) :
    (node a ts).elements = a :: ts.flatMap elements := by
  rw [elements]

@[simp] theorem map_node (f : α → β) (a : α) (ts : List (RoseTree α)) :
    (node a ts).map f = node (f a) (ts.map (map f)) := by
  rw [map]

theorem elements_map (f : α → β) (t : RoseTree α) : (t.map f).elements = t.elements.map f := by
  induction t using induct with
  | node a ts each =>
    simp only [map_node, elements_node, List.map_cons, List.flatMap_map, List.map_flatMap]
    congr 1
    exact List.flatMap_congr each

theorem map_congr {f g : α → β} {t : RoseTree α} (same : ∀ a ∈ t.elements, f a = g a) :
    t.map f = t.map g := by
  induction t using induct with
  | node a ts each =>
    rw [map_node, map_node, same a (by simp)]
    congr 1
    refine List.map_congr_left fun t member => each t member fun b within => same b ?_
    rw [elements_node]
    exact List.mem_cons_of_mem _ (List.mem_flatMap.mpr ⟨t, member, within⟩)

theorem root_mem (t : RoseTree α) : t.root ∈ t.elements := by
  cases t
  simp

theorem le_foldr_max {n : Nat} {ns : List Nat} (member : n ∈ ns) : n ≤ ns.foldr max 0 := by
  induction ns with
  | nil => cases member
  | cons m ns ih =>
    rw [List.foldr_cons]
    rcases List.mem_cons.mp member with rfl | later
    · exact Nat.le_max_left _ _
    · exact Nat.le_trans (ih later) (Nat.le_max_right _ _)

theorem depth_child {a : α} {t : RoseTree α} {ts : List (RoseTree α)} (member : t ∈ ts) :
    t.depth < (node a ts).depth := by
  rw [depth.eq_def (node a ts)]
  exact Nat.lt_succ_of_le (le_foldr_max (List.mem_map.mpr ⟨t, member, rfl⟩))

theorem foldr_max_le {b : Nat} {ns : List Nat} (each : ∀ n ∈ ns, n ≤ b) :
    ns.foldr max 0 ≤ b := by
  induction ns with
  | nil => exact Nat.zero_le b
  | cons n ns ih =>
    rw [List.foldr_cons, Nat.max_le]
    exact ⟨each n (by simp), ih fun m member => each m (by simp [member])⟩

theorem elements_child {t : RoseTree α} {ts : List (RoseTree α)} (member : t ∈ ts) :
    t.elements.length ≤ (ts.flatMap elements).length := by
  induction ts with
  | nil => cases member
  | cons u ts ih =>
    rw [List.flatMap_cons, List.length_append]
    rcases List.mem_cons.mp member with rfl | later
    · omega
    · have := ih later
      omega

theorem depth_le (t : RoseTree α) : t.depth ≤ t.elements.length := by
  induction t using induct with
  | node a ts each =>
    rw [depth, elements_node, List.length_cons]
    refine Nat.succ_le_succ (foldr_max_le fun n member => ?_)
    obtain ⟨t, inside, rfl⟩ := List.mem_map.mp member
    exact Nat.le_trans (each t inside) (elements_child inside)

end RoseTree

/-- The tree of an element and all that is below it. -/
inductive Unfolds (kids : α → List α) : RoseTree α → Prop
  | node {a : α} {ts : List (RoseTree α)} (list : ts.map RoseTree.root = kids a)
      (each : ∀ t ∈ ts, Unfolds kids t) : Unfolds kids (.node a ts)

/-- Nothing is listed twice, and nothing is below itself. -/
structure Forest (kids : α → List α) : Prop where
  nodup : ∀ a, (kids a).Nodup
  apart : ∀ a b c, c ∈ kids a → c ∈ kids b → a = b
  grounded : ∃ rank : α → Nat, ∀ a, ∀ c ∈ kids a, rank c < rank a

def Under (kids : α → List α) (a c : α) : Prop :=
  Relation.ReflTransGen (fun a c => c ∈ kids a) a c

variable {kids kids' : α → List α} {t u : RoseTree α}

theorem unfolds_unique (left : Unfolds kids t) (right : Unfolds kids u)
    (same : t.root = u.root) : t = u := by
  induction left generalizing u with
  | @node a ts list each ih =>
    cases right with
    | @node b us list' each' =>
      obtain rfl : a = b := same
      have roots : ts.map RoseTree.root = us.map RoseTree.root := list.trans list'.symm
      suffices ts = us by rw [this]
      clear list list'
      induction ts generalizing us with
      | nil =>
        cases us with
        | nil => rfl
        | cons u us => cases roots
      | cons t ts later =>
        cases us with
        | nil => cases roots
        | cons u us =>
          rw [List.map_cons, List.map_cons, List.cons.injEq] at roots
          rw [ih t (by simp) (each' u (by simp)) roots.1,
            later (fun t member => each t (by simp [member]))
              (fun t member => ih t (by simp [member]))
              (fun u member => each' u (by simp [member])) roots.2]

theorem unfolds_kids {a : α} (unfolds : Unfolds kids t) (member : a ∈ t.elements) :
    ∀ c ∈ kids a, c ∈ t.elements := by
  induction unfolds with
  | @node b ts list each ih =>
    intro c child
    rw [RoseTree.elements_node] at member ⊢
    refine List.mem_cons_of_mem _ (List.mem_flatMap.mpr ?_)
    rcases List.mem_cons.mp member with rfl | below
    · rw [← list] at child
      obtain ⟨t, inside, rfl⟩ := List.mem_map.mp child
      exact ⟨t, inside, t.root_mem⟩
    · obtain ⟨t, inside, within⟩ := List.mem_flatMap.mp below
      exact ⟨t, inside, ih t inside within c child⟩

theorem unfolds_parent {c : α} (unfolds : Unfolds kids t) (member : c ∈ t.elements)
    (below : c ≠ t.root) : ∃ a ∈ t.elements, c ∈ kids a := by
  induction unfolds with
  | @node b ts list each ih =>
    rw [RoseTree.elements_node] at member
    rcases List.mem_cons.mp member with here | inside
    · exact absurd here below
    · obtain ⟨t, among, within⟩ := List.mem_flatMap.mp inside
      by_cases first : c = t.root
      · refine ⟨b, by simp, ?_⟩
        rw [← list, first]
        exact List.mem_map.mpr ⟨t, among, rfl⟩
      · obtain ⟨a, above, child⟩ := ih t among within first
        refine ⟨a, ?_, child⟩
        rw [RoseTree.elements_node]
        exact List.mem_cons_of_mem _ (List.mem_flatMap.mpr ⟨t, among, above⟩)

theorem mem_elements (unfolds : Unfolds kids t) {c : α} :
    c ∈ t.elements ↔ Under kids t.root c := by
  constructor
  · intro member
    induction unfolds with
    | @node b ts list each ih =>
      rw [RoseTree.elements_node] at member
      rcases List.mem_cons.mp member with rfl | below
      · exact .refl
      · obtain ⟨t, among, within⟩ := List.mem_flatMap.mp below
        refine .head ?_ (ih t among within)
        rw [RoseTree.root_node, ← list]
        exact List.mem_map.mpr ⟨t, among, rfl⟩
  · intro under
    induction under with
    | refl => exact t.root_mem
    | tail _ child ih => exact unfolds_kids unfolds ih _ child

theorem unfolds_frame (unfolds : Unfolds kids t) (same : ∀ a ∈ t.elements, kids' a = kids a) :
    Unfolds kids' t := by
  induction unfolds with
  | @node b ts list each ih =>
    refine .node (list.trans (same b (by simp)).symm) fun t member => ih t member fun a within => ?_
    refine same a ?_
    rw [RoseTree.elements_node]
    exact List.mem_cons_of_mem _ (List.mem_flatMap.mpr ⟨t, member, within⟩)

theorem unfolds_ranked {rank : α → Nat} (falls : ∀ a, ∀ c ∈ kids a, rank c < rank a)
    (unfolds : Unfolds kids t) : ∀ a ∈ t.elements, rank a ≤ rank t.root := by
  induction unfolds with
  | @node b ts list each ih =>
    intro a member
    rw [RoseTree.elements_node] at member
    rcases List.mem_cons.mp member with rfl | below
    · exact Nat.le_refl _
    · obtain ⟨t, among, within⟩ := List.mem_flatMap.mp below
      have child : t.root ∈ kids b := by
        rw [← list]
        exact List.mem_map.mpr ⟨t, among, rfl⟩
      exact Nat.le_trans (ih t among a within) (Nat.le_of_lt (falls b _ child))

namespace Forest

theorem unfolds (forest : Forest kids) (a : α) : ∃ t : RoseTree α, t.root = a ∧ Unfolds kids t := by
  obtain ⟨rank, falls⟩ := forest.grounded
  induction bound : rank a using Nat.strongRecOn generalizing a with
  | ind n ih =>
    have each : ∀ c ∈ kids a, ∃ t : RoseTree α, t.root = c ∧ Unfolds kids t := fun c child =>
      ih (rank c) (bound ▸ falls a c child) c rfl
    obtain ⟨ts, roots, below⟩ : ∃ ts : List (RoseTree α),
        ts.map RoseTree.root = kids a ∧ ∀ t ∈ ts, Unfolds kids t := by
      generalize kids a = list at each
      induction list with
      | nil => exact ⟨[], rfl, by simp⟩
      | cons c list later =>
        obtain ⟨t, here, first⟩ := each c (by simp)
        obtain ⟨ts, roots, others⟩ := later fun d member => each d (by simp [member])
        exact ⟨t :: ts, by rw [List.map_cons, here, roots], by simpa using ⟨first, others⟩⟩
    exact ⟨.node a ts, rfl, .node roots below⟩

theorem lister_outside (forest : Forest kids) {a : α} (unfolds : Unfolds kids t)
    (child : t.root ∈ kids a) : a ∉ t.elements := by
  obtain ⟨rank, falls⟩ := forest.grounded
  intro member
  exact absurd (falls a _ child) (Nat.not_lt_of_le (unfolds_ranked falls unfolds a member))

theorem not_cyclic (forest : Forest kids) {a x : α} (child : x ∈ kids a) (under : Under kids x a) :
    False := by
  obtain ⟨t, rfl, unfolds⟩ := forest.unfolds x
  exact forest.lister_outside unfolds child ((mem_elements unfolds).mpr under)

theorem disjoint (forest : Forest kids) {a c d x : α} {t u : RoseTree α} (left : Unfolds kids t)
    (right : Unfolds kids u) (first : t.root = c) (second : u.root = d) (child : c ∈ kids a)
    (child' : d ∈ kids a) (inLeft : x ∈ t.elements) (inRight : x ∈ u.elements) : c = d := by
  obtain ⟨rank, falls⟩ := forest.grounded
  induction bound : rank a - rank x using Nat.strongRecOn generalizing x with
  | ind n ih =>
    by_cases topLeft : x = t.root
    · by_cases topRight : x = u.root
      · rw [← first, ← second, ← topLeft, ← topRight]
      · -- then `u` holds the parent of `x`, which is `a`
        obtain ⟨b, above, below⟩ := unfolds_parent right inRight topRight
        obtain rfl := forest.apart a b x (topLeft ▸ first ▸ child) below
        have := unfolds_ranked falls right a above
        have := falls a d child'
        rw [second] at *
        omega
    · obtain ⟨b, above, below⟩ := unfolds_parent left inLeft topLeft
      by_cases topRight : x = u.root
      · obtain rfl := forest.apart a b x (topRight ▸ second ▸ child') below
        have := unfolds_ranked falls left a above
        have := falls a c child
        rw [first] at *
        omega
      · obtain ⟨b', above', below'⟩ := unfolds_parent right inRight topRight
        obtain rfl := forest.apart b b' x below below'
        have lower := falls b x below
        have upper := unfolds_ranked falls left b above
        have top := falls a c child
        rw [first] at upper
        exact ih (rank a - rank b) (by omega) above above' rfl

theorem elements_nodup (forest : Forest kids) (unfolds : Unfolds kids t) : t.elements.Nodup := by
  induction unfolds with
  | @node a ts list each ih =>
    rw [RoseTree.elements_node, List.nodup_cons]
    obtain ⟨rank, falls⟩ := forest.grounded
    have child : ∀ t ∈ ts, t.root ∈ kids a := fun t member => by
      rw [← list]
      exact List.mem_map.mpr ⟨t, member, rfl⟩
    constructor
    · intro below
      obtain ⟨t, among, within⟩ := List.mem_flatMap.mp below
      have := unfolds_ranked falls (each t among) a within
      have := falls a _ (child t among)
      omega
    · rw [List.nodup_flatMap]
      refine ⟨ih, ?_⟩
      have roots : ts.Pairwise fun t u => t.root ≠ u.root := by
        have nodup := forest.nodup a
        rw [← list] at nodup
        exact List.pairwise_map.mp nodup
      refine List.Pairwise.imp_of_mem (fun {t u} first second other => ?_) roots
      intro x inLeft inRight
      exact other (forest.disjoint (each t first) (each u second) rfl rfl (child t first)
        (child u second) inLeft inRight)

end Forest

end RoseTrees
