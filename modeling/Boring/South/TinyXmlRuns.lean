import Boring.Library.StepRuns
import Boring.South.TinyXmlCalls

/- Runs of calls. The links stay consistent exactly as long as every call is safe. -/
namespace TinyXmlRuns
open LinkedCells DoublyLinked RoseTrees TinyXmlDom TinyXmlForests TinyXmlDeletion TinyXmlLinks
open TinyXmlClones TinyXmlEdits TinyXmlCalls StepRuns
open SouthHeap (Ptr NULL addressSpace)

variable {h h' : Dom} {g g' : Grove} {this p x : Ptr}

section Laws

theorem listed_parent (rep : Represents [] h g) {n : Node} (held : h.cell p = some n) :
    n.parent ≠ NULL ↔ p ∈ g.kids n.parent := by
  constructor
  · intro parent
    by_contra outside
    refine parent (rep.loose p n held (fun q member => outside ?_) (by simp)).1
    obtain ⟨m, held', rfl, -⟩ := rep.child q p member
    rwa [← Option.some.inj (held.symm.trans held')] at member
  · intro member null
    obtain ⟨t, built⟩ := rep.lister member
    exact Memory.address_ne_null built null

theorem first_law (rep : Represents [] h g) {n : Node} (held : h.cell p = some n)
    (some_ : n.firstChild ≠ NULL) :
    ∃ m, h.cell n.firstChild = some m ∧ m.parent = p ∧ m.prev = NULL := by
  rw [(rep.ends p n held).1] at some_ ⊢
  cases list : g.kids p with
  | nil => simp [list] at some_
  | cons a ys =>
    obtain ⟨m, held', up, back, -⟩ := sibling_links rep (show g.kids p = [] ++ a :: ys from list)
    exact ⟨m, held', up, back⟩

theorem last_law (rep : Represents [] h g) {n : Node} (held : h.cell p = some n)
    (some_ : n.lastChild ≠ NULL) :
    ∃ m, h.cell n.lastChild = some m ∧ m.next = NULL := by
  rw [(rep.ends p n held).2] at some_ ⊢
  have last := (end_pointer (null_outside rep p)).2.1 some_
  obtain ⟨xs, list⟩ := List.getLast?_eq_some_iff.mp last
  obtain ⟨m, held', -, -, on, -⟩ := sibling_links rep list
  exact ⟨m, held', on⟩

theorem next_law (rep : Represents [] h g) {n : Node} (held : h.cell p = some n)
    (some_ : n.next ≠ NULL) :
    ∃ m, h.cell n.next = some m ∧ m.prev = p ∧ m.parent = n.parent := by
  have parent : n.parent ≠ NULL := fun null => some_ <| by
    refine (rep.loose p n held (fun q member => ?_) (by simp)).2.2
    obtain ⟨m, held', rfl, -⟩ := rep.child q p member
    obtain rfl := Option.some.inj (held.symm.trans held')
    obtain ⟨t, built⟩ := rep.lister member
    exact Memory.address_ne_null built null
  obtain ⟨xs, ys, list⟩ := List.append_of_mem ((listed_parent rep held).mp parent)
  obtain ⟨n', held', -, -, on, -⟩ := sibling_links rep list
  obtain rfl := Option.some.inj (held.symm.trans held')
  cases ys with
  | nil => exact absurd on some_
  | cons a ys =>
    have list' : g.kids n.parent = (xs ++ [p]) ++ a :: ys := by simpa using list
    obtain ⟨m, next, up, back, -⟩ := sibling_links rep list'
    rw [on]
    exact ⟨m, next, by simpa using back, up⟩

theorem front_law (rep : Represents [] h g) (member : x ∈ g.kids p) :
    (∃ t, h.cell p = some t ∧ t.firstChild = x) ∨
      ∃ b n, b ≠ x ∧ b ∈ g.kids p ∧ h.cell b = some n ∧ n.next = x := by
  obtain ⟨xs, ys, list⟩ := List.append_of_mem member
  have nodup := rep.nodup p
  rw [list] at nodup
  rcases List.eq_nil_or_concat xs with rfl | ⟨front, b, rfl⟩
  · obtain ⟨t, built⟩ := rep.lister member
    exact .inl ⟨t, built, by rw [(rep.ends p t built).1, list]; rfl⟩
  · have list' : g.kids p = front ++ b :: x :: ys := by simpa using list
    obtain ⟨n, held, -, -, on, -⟩ := sibling_links rep list'
    refine .inr ⟨b, n, ?_, by simp [list'], held, on⟩
    rintro rfl
    simp [List.nodup_append] at nodup

end Laws

section Breaking

theorem delete_breaks (rep : Represents [] h g) (member : x ∈ g.kids p) {after : Dom}
    (run : deleteNode addressSpace h x = .ok after) : ¬ Represents [] after g' := by
  intro rep'
  obtain ⟨t, rfl, unfolds, outside⟩ := kid_tree rep member
  have live := rep.kid_held member
  obtain ⟨nodup, deep⟩ := tree_bounds rep unfolds live
  obtain ⟨h', run', freed⟩ := deleteNode_frees t addressSpace h
    (represents_standing rep unfolds live) nodup deep
  obtain rfl := Except.ok.inj (run.symm.trans run')
  obtain ⟨k, held⟩ := live
  have gone : after.cell t.root = none := by rw [freed, if_pos t.root_mem]
  have notNull := Memory.address_ne_null held
  rcases front_law rep member with ⟨n, built, first⟩ | ⟨b, n, other, sibling, built, on⟩
  · obtain ⟨m, dangling, -⟩ := first_law rep' (p := p) (n := n)
      (by rw [freed, if_neg outside, built]) (by rw [first]; exact notNull)
    rw [first, gone] at dangling
    cases dangling
  · have away : b ∉ t.elements := fun within => by
      obtain ⟨a, above, child⟩ := unfolds_parent unfolds within other
      exact outside (rep.apart sibling child ▸ above)
    obtain ⟨m, dangling, -⟩ := next_law rep' (p := b) (n := n)
      (by rw [freed, if_neg away, built]) (by rw [on]; exact notNull)
    rw [on, gone] at dangling
    cases dangling

def relinked (g : Grove) (this x q : Ptr) (n : Node) : Node :=
  let n := if q = x then
    { n with parent := this, prev := (g.kids this).getLastD NULL, next := NULL } else n
  let n := aimed this (g.kids this) x q n
  if q = this then { n with lastChild := x } else n

theorem relinked_parent (g : Grove) (q : Ptr) (n : Node) :
    (relinked g this x q n).parent = if q = x then this else n.parent := by
  simp only [relinked, aimed]
  by_cases self : q = x
  · simp only [if_pos self]
    split <;> rfl
  · simp only [if_neg self]
    split <;> rfl

theorem linkEndChild_relinks {n : Node} (rep : Represents [] h g) (live : Live h this)
    (held : h.cell x = some n) (plain : n.content.isDocument = false) :
    ∃ h', linkEndChild h this x = .ok (h', x) ∧ Mapped h h' (relinked g this x) := by
  obtain ⟨t, built⟩ := live
  have last := (rep.ends this t built).2
  obtain ⟨h1, run1, cells1⟩ := modify_mapped ⟨n, held⟩
    fun n => { n with parent := this, prev := (g.kids this).getLastD NULL, next := NULL }
  obtain ⟨h2, run2, cells2⟩ := setNext_aimed x (null_outside rep this)
    (fun a member => mapped_live cells1 (rep.kid_held member)) (mapped_live cells1 ⟨t, built⟩)
  obtain ⟨h3, run3, cells3⟩ := modify_mapped
    (mapped_live cells2 (mapped_live cells1 ⟨t, built⟩)) fun t => { t with lastChild := x }
  refine ⟨h3, ?_, fun q => mapped_trans (mapped_trans cells1 cells2) cells3 q⟩
  simp only [linkEndChild, Memory.read_held held, bind, Except.bind, plain, Bool.false_eq_true,
    if_false, Memory.read_held built, last, run1, run2, run3]

theorem relink_breaks {n : Node} (rep : Represents [] h g) (live : Live h this)
    (held : h.cell x = some n) (member : x ∈ g.kids p)
    (cells : Mapped h h' (relinked g this x)) : ¬ Represents [] h' g' := by
  intro rep'
  have notNull := Memory.address_ne_null held
  have node : ∃ m, h'.cell x = some m ∧ m.parent = this ∧
      m.prev = (g.kids this).getLastD NULL := by
    refine ⟨_, by rw [cells, held]; rfl, ?_, ?_⟩ <;> by_cases self : x = this <;>
      simp [relinked, aimed, self]
  obtain ⟨m, linked, up, back⟩ := node
  rcases front_law rep member with ⟨t, built, first⟩ | ⟨b, k, other, sibling, built, on⟩
  · -- the first child of `p`
    have kept : ∃ t', h'.cell p = some t' ∧ t'.firstChild = x := by
      refine ⟨_, by rw [cells, built]; rfl, ?_⟩
      have filled : p = this → g.kids this ≠ [] := by
        rintro rfl empty
        rw [empty] at member
        cases member
      by_cases here : p = this <;> by_cases self : p = x <;>
        simp_all [relinked, aimed]
    obtain ⟨t', built', first'⟩ := kept
    obtain ⟨m', linked', up', alone⟩ := first_law rep' built' (by rw [first']; exact notNull)
    rw [first', linked] at linked'
    obtain rfl := Option.some.inj linked'
    obtain rfl : this = p := up.symm.trans up'
    have empty := (end_pointer (null_outside rep this)).1 (back.symm.trans alone)
    rw [empty] at member
    cases member
  · -- the child behind `b`
    have kept : ∃ k', h'.cell b = some k' ∧ k'.next = x := by
      refine ⟨_, by rw [cells, built]; rfl, ?_⟩
      by_cases here : b = this
      · subst here
        by_cases last : (g.kids b).getLast? = some b <;> simp [relinked, aimed, last, other, on]
      · by_cases last : (g.kids this).getLast? = some b <;>
          simp [relinked, aimed, last, here, other, on]
    obtain ⟨k', built', on'⟩ := kept
    obtain ⟨m', linked', back', -⟩ := next_law rep' built' (by rw [on']; exact notNull)
    rw [on', linked] at linked'
    obtain rfl := Option.some.inj linked'
    obtain ⟨t, held'⟩ := live
    have last : t.lastChild = b := by rw [(rep.ends this t held').2, ← back, back']
    obtain ⟨k', ends, stop⟩ := last_law rep held' (by
      rw [last]
      exact Memory.address_ne_null built)
    rw [last, built] at ends
    obtain rfl := Option.some.inj ends
    exact notNull (on.symm.trans stop)

theorem cycle_breaks {n : Node} (rep : Represents [] h g) (live : Live h this)
    (held : h.cell x = some n) (unlisted : ∀ q, x ∉ g.kids q) (above : Above h x this)
    (cells : Mapped h h' (relinked g this x)) : ¬ Represents [] h' g' := by
  intro rep'
  have member : x ∈ g'.kids this := by
    have linked : h'.cell x = some (relinked g this x x n) := by rw [cells, held]; rfl
    have up : (relinked g this x x n).parent = this := by rw [relinked_parent, if_pos rfl]
    obtain ⟨t, built⟩ := live
    have listed := (listed_parent rep' linked).mp (by
      rw [up]
      exact Memory.address_ne_null built)
    rwa [up] at listed
  have under : Under g'.kids x this := by
    refine Relation.ReflTransGen.mono (fun a c child => ?_) _ _ ((above_iff rep live).mp above)
    have other : c ≠ x := fun same => unlisted a (same ▸ child)
    obtain ⟨k, stays, up, -⟩ := rep.child a c child
    obtain ⟨t, built⟩ := rep.lister child
    have linked : h'.cell c = some (relinked g this x c k) := by rw [cells, stays]; rfl
    have up' : (relinked g this x c k).parent = a := by rw [relinked_parent, if_neg other, up]
    have listed := (listed_parent rep' linked).mp (by
      rw [up']
      exact Memory.address_ne_null built)
    rwa [up'] at listed
  exact rep'.forest.not_cyclic member under

/-- An unsafe call that returns leaves links that stand for no lists. -/
theorem perform_breaks {call : Call} {after : Dom} {answer : Answer} (rep : Represents [] h g)
    (callable : Callable h call) (unsafe_ : ¬ Safe h call)
    (run : perform h call = .ok (after, answer)) : ¬ Represents [] after g' := by
  cases call with
  | delete node =>
    obtain ⟨n, held⟩ := callable
    have parent : n.parent ≠ NULL := fun null => unsafe_ fun m held' => by
      rwa [← Option.some.inj (held.symm.trans held')]
    cases deleted : deleteNode addressSpace h node with
    | error fault => simp [perform, deleted, bind, Except.bind] at run
    | ok h' =>
      simp only [perform, deleted, bind, Except.bind, pure, Except.pure, Except.ok.injEq,
        Prod.mk.injEq] at run
      exact run.1 ▸ delete_breaks rep ((listed_parent rep held).mp parent) deleted
  | linkEndChild this node =>
    obtain ⟨live, n, held⟩ := callable
    by_cases document : n.content.isDocument = true
    · -- a document has no parent, so `this` is deleted with it
      have unlisted : ∀ q, node ∉ g.kids q := fun q member => by
        obtain ⟨m, held', -, plain⟩ := rep.child q node member
        rw [← Option.some.inj (held.symm.trans held'), document] at plain
        cases plain
      have above : Above h node this := by
        by_contra below
        refine unsafe_ ⟨fun m held' => ?_, below⟩
        exact (rep.loose node m held' unlisted (by simp)).1
      obtain ⟨t, rfl, unfolds⟩ := rep.forest.unfolds node
      obtain ⟨h1, deleted, freed, -⟩ := deleteNode_represents rep unfolds ⟨n, held⟩ unlisted
        (by simp)
      have gone : h1.cell this = none := by
        rw [freed, if_pos ((mem_elements unfolds).mpr ((above_iff rep live).mp above))]
      have fails : getDocument h1 this = .error (Memory.missing NULL this) := by
        obtain ⟨t, built⟩ := live
        obtain ⟨fuel, turns⟩ : ∃ fuel, addressSpace = fuel + 1 := ⟨addressSpace - 1, rfl⟩
        simp only [getDocument, turns, search, if_neg (Memory.address_ne_null built), Memory.read,
          gone, bind, Except.bind]
      simp only [perform, linkEndChild, Memory.read_held held, document, if_true, deleted,
        refuseDocument, fails, bind, Except.bind] at run
      cases run
    · have plain : n.content.isDocument = false := by simpa using document
      obtain ⟨h3, linked, cells⟩ := linkEndChild_relinks rep live held plain
      simp only [perform, linked, bind, Except.bind, pure, Except.pure, Except.ok.injEq,
        Prod.mk.injEq] at run
      rw [← run.1]
      by_cases listed : ∃ q, node ∈ g.kids q
      · obtain ⟨q, member⟩ := listed
        exact relink_breaks rep live held member cells
      · have unlisted : ∀ q, node ∉ g.kids q := fun q member => listed ⟨q, member⟩
        refine cycle_breaks rep live held unlisted ?_ cells
        by_contra below
        refine unsafe_ ⟨fun m held' => ?_, below⟩
        exact (rep.loose node m held' unlisted (by simp)).1
  | _ => exact absurd trivial unsafe_

end Breaking

section Runs

def Consistent (s : Except Fault Dom) : Prop := ∃ h g, s = .ok h ∧ Represents [] h g

def step (s : Except Fault Dom) (call : Call) (t : Except Fault Dom) : Prop :=
  ∃ h, s = .ok h ∧ Callable h call ∧ t = (perform h call).map Prod.fst

def SafeIn (s : Except Fault Dom) (call : Call) : Prop := ∀ h, s = .ok h → Safe h call

theorem step_keeps (s : Except Fault Dom) (call : Call) (t : Except Fault Dom)
    (safe : SafeIn s call) (taken : step s call t) (consistent : Consistent s) :
    Consistent t := by
  obtain ⟨h, rfl, callable, rfl⟩ := taken
  obtain ⟨h', g, same, rep⟩ := consistent
  obtain rfl := Except.ok.inj same
  obtain ⟨h', g', answer, run, -, rep'⟩ := perform_represents rep callable (safe h rfl)
  exact ⟨h', g', by rw [run]; rfl, rep'⟩

theorem step_breaks (s : Except Fault Dom) (call : Call) (t : Except Fault Dom)
    (unsafe_ : ¬ SafeIn s call) (taken : step s call t) (consistent : Consistent s) :
    ¬ Consistent t := by
  obtain ⟨h, rfl, callable, rfl⟩ := taken
  obtain ⟨h', g, same, rep⟩ := consistent
  rintro ⟨after, g', ends, rep'⟩
  obtain rfl := Except.ok.inj same
  have bad : ¬ Safe h call := fun safe => unsafe_ fun h' same => Except.ok.inj same ▸ safe
  cases run : perform h call with
  | error fault => simp [run, Except.map] at ends
  | ok result =>
    rw [run] at ends
    have same : result.1 = after := Except.ok.inj ends
    exact perform_breaks rep callable bad run (same ▸ rep')

/-- In a run of calls, the links are consistent in every state that is visited, and no memory
    is misused, if and only if every call is safe where it is made. -/
theorem links_consistent_iff {s : Except Fault Dom} {path : List (Call × Except Fault Dom)}
    (start : Consistent s) (valid : Path step s path) :
    (∀ t ∈ visited s path, Consistent t) ↔ StepsMeet SafeIn s path :=
  visited_good_iff (fun _ (good : Consistent _) => good) step_keeps step_breaks start valid

theorem above_root {a : Ptr} {n : Node} (held : h.cell p = some n) (root : n.parent = NULL)
    (above : Above h a p) : a = p := by
  obtain ⟨cells, chain, member⟩ := above
  cases cells with
  | nil => cases member
  | cons cell cells =>
    obtain ⟨rfl, held', up⟩ := chain
    rw [← Option.some.inj (held.symm.trans held'), root] at up
    cases cells with
    | nil => exact List.mem_singleton.mp member
    | cons next cells => exact absurd up.1 (Ne.symm (Memory.address_ne_null up.2.1))

theorem empty_represents : Represents [] (Memory.empty : Dom) ⟨fun _ => none, fun _ => []⟩ where
  content _ := rfl
  unbuilt _ _ := rfl
  ends _ _ held := nomatch held
  linked _ := trivial
  child _ _ member := nomatch member
  loose _ _ held := nomatch held
  ancestry _ _ held := nomatch held

theorem pair_represents (a : Content) {b : Content} (nested : b.isDocument = false) :
    ∃ h, Represents [] h
      ((((⟨fun _ => none, fun _ => []⟩ : Grove).added 1 a).added 2 b).relist 1 [2]) := by
  have parent := represents_new (x := 1) empty_represents ⟨by decide, rfl⟩ a
  have child := represents_new (x := 2) parent ⟨by decide, rfl⟩ b
  obtain ⟨h, -, rep, -⟩ := @linkEndChild_represents _ _ 2 1 _ child ⟨_, rfl⟩ rfl nested
    (fun q member => nomatch member)
    (unlisted_not_under (fun q member => nomatch member) (by decide))
  exact ⟨h, rep⟩

def performed (s : Except Fault Dom) (call : Call) : Except Fault Dom := do
  let h ← s
  return (← perform h call).1

def family : List Call :=
  [.new 1 (.element [97] []), .new 2 (.element [98] []), .linkEndChild 1 2]

theorem family_runs : Path step (.ok Memory.empty) (trace performed (.ok Memory.empty) family) :=
  ⟨⟨_, rfl, ⟨⟨by decide, rfl⟩, rfl⟩, rfl⟩, ⟨_, rfl, ⟨⟨by decide, rfl⟩, rfl⟩, rfl⟩,
    ⟨_, rfl, ⟨⟨_, rfl⟩, _, rfl⟩, rfl⟩, trivial⟩

theorem family_safe : StepsMeet SafeIn (.ok Memory.empty)
    (trace performed (.ok Memory.empty) family) := by
  refine ⟨fun _ _ => trivial, fun _ _ => trivial, fun h same => ?_, trivial⟩
  obtain rfl := Except.ok.inj same
  refine ⟨fun n held => ?_, fun above => ?_⟩
  · obtain rfl := Option.some.inj held
    rfl
  · exact absurd (above_root (n := newNode (.element [97] [])) rfl rfl above) (by decide)

theorem relinking_unsafe : ¬ StepsMeet SafeIn (.ok Memory.empty)
    (trace performed (.ok Memory.empty) (family ++ [.linkEndChild 1 2])) := by
  rintro ⟨-, -, -, safe, -⟩
  have parent := (safe _ rfl).1 _ rfl
  exact absurd parent (by decide)

/-- Linking the child once is fine, linking it again is not. -/
theorem links_consistent_family :
    (∀ t ∈ visited (.ok Memory.empty) (trace performed (.ok Memory.empty) family),
      Consistent t) ∧
    ¬ ∀ t ∈ visited (.ok Memory.empty)
      (trace performed (.ok Memory.empty) (family ++ [.linkEndChild 1 2])), Consistent t := by
  have start : Consistent (.ok Memory.empty) := ⟨_, _, rfl, empty_represents⟩
  have longer : Path step (.ok Memory.empty)
      (trace performed (.ok Memory.empty) (family ++ [.linkEndChild 1 2])) :=
    ⟨⟨_, rfl, ⟨⟨by decide, rfl⟩, rfl⟩, rfl⟩, ⟨_, rfl, ⟨⟨by decide, rfl⟩, rfl⟩, rfl⟩,
      ⟨_, rfl, ⟨⟨_, rfl⟩, _, rfl⟩, rfl⟩, ⟨_, rfl, ⟨⟨_, rfl⟩, _, rfl⟩, rfl⟩, trivial⟩
  exact ⟨(links_consistent_iff start family_runs).mpr family_safe, fun all =>
    relinking_unsafe ((links_consistent_iff start longer).mp all)⟩

def Root (h : Dom) (p : Ptr) : Prop := ∃ n, h.cell p = some n ∧ n.parent = NULL

def deleteAll : Dom → List Ptr → Except Fault Dom
  | h, [] => .ok h
  | h, p :: rest => do
    let h ← deleteNode addressSpace h p
    deleteAll h rest

theorem has_root {cells : List (Ptr × Node)} (chain : Chain h Node.parent p cells)
    (filled : cells ≠ []) : ∃ r, Root h r := by
  induction cells generalizing p with
  | nil => exact absurd rfl filled
  | cons cell rest ih =>
    obtain ⟨-, held, up⟩ := chain
    by_cases top : rest = []
    · rw [top] at up
      exact ⟨cell.1, cell.2, held, up⟩
    · exact ih up top

theorem rootless_empty (rep : Represents [] h g) (none_ : ∀ r, ¬ Root h r) :
    h = Memory.empty := by
  refine memory_ext fun q => ?_
  cases held : h.cell q with
  | none => rfl
  | some n =>
    obtain ⟨cells, chain⟩ := rep.ancestry q n held
    have filled : cells ≠ [] := fun empty => by
      rw [empty] at chain
      exact Memory.address_ne_null held chain
    obtain ⟨r, root⟩ := has_root chain filled
    exact absurd root (none_ r)

theorem deleteAll_empties {roots : List Ptr} (rep : Represents [] h g) (nodup : roots.Nodup)
    (all : ∀ p, p ∈ roots ↔ Root h p) : deleteAll h roots = .ok Memory.empty := by
  induction roots generalizing h g with
  | nil =>
    rw [deleteAll, rootless_empty rep fun r root => List.not_mem_nil ((all r).mpr root)]
  | cons p rest ih =>
    have unlisted {q : Ptr} (root : Root h q) : ∀ a, q ∉ g.kids a := fun a member => by
      obtain ⟨n, held, null⟩ := root
      obtain ⟨m, held', rfl, -⟩ := rep.child a q member
      obtain rfl := Option.some.inj (held.symm.trans held')
      exact (listed_parent rep held).mpr member null
    have root := (all p).mp (by simp)
    obtain ⟨n, held, -⟩ := id root
    obtain ⟨t, rfl, unfolds⟩ := rep.forest.unfolds p
    obtain ⟨h1, run, freed, rep1⟩ := deleteNode_represents rep unfolds ⟨n, held⟩ (unlisted root)
      (by simp)
    rw [List.nodup_cons] at nodup
    simp only [deleteAll, run, bind, Except.bind]
    refine ih (by simpa using rep1) nodup.2 fun q => ⟨fun member => ?_, fun rooted => ?_⟩
    · have other : q ≠ t.root := fun same => nodup.1 (same ▸ member)
      have stays := (all q).mp (by simp [member])
      have outside := unlisted_outside unfolds (unlisted stays) other
      rwa [Root, freed, if_neg outside]
    · obtain ⟨m, held', null⟩ := rooted
      rw [freed] at held'
      split at held'
      · cases held'
      · rename_i outside
        have other : q ≠ t.root := fun same => outside (same ▸ t.root_mem)
        simpa [other] using (all q).mpr ⟨m, held', null⟩

/-- After a run of safe calls, deleting the nodes without a parent, in any order, frees every
    node once and leaves none. -/
theorem roots_hold_everything {path : List (Call × Except Fault Dom)}
    (valid : Path step (.ok Memory.empty) path)
    (safe : StepsMeet SafeIn (.ok Memory.empty) path) :
    ∃ h, last (.ok Memory.empty) path = .ok h ∧ ∀ roots : List Ptr, roots.Nodup →
      (∀ p, p ∈ roots ↔ Root h p) → deleteAll h roots = .ok Memory.empty := by
  have start : Consistent (.ok Memory.empty) := ⟨_, _, rfl, empty_represents⟩
  obtain ⟨h, g, ends, rep⟩ := invariant_visited step_keeps start valid safe _
    (last_visited _ path)
  exact ⟨h, ends, fun roots nodup all => deleteAll_empties rep nodup all⟩

/-- The child goes with its parent. -/
theorem family_holds_everything : ∃ h,
    last (.ok Memory.empty) (trace performed (.ok Memory.empty) family) = .ok h ∧
    ∀ roots : List Ptr, roots.Nodup → (∀ p, p ∈ roots ↔ Root h p) →
      deleteAll h roots = .ok Memory.empty :=
  roots_hold_everything family_runs family_safe

def returns (h : Dom) (made : Call × Answer) (h' : Dom) : Prop :=
  Callable h made.1 ∧ perform h made.1 = .ok (h', made.2)

/-- A run of safe calls goes along with a run on the lists of children, which makes the same
    calls and gets the same answers. -/
theorem links_refine_lists {path : List ((Call × Answer) × Dom)} (rep : Represents [] h g)
    (valid : Path returns h path) (safe : StepsMeet (fun h made => Safe h made.1) h path) :
    ∃ lists, Path Effect g lists ∧ labels lists = labels path ∧
      Represents [] (last h path) (last g lists) := by
  induction path generalizing h g with
  | nil => exact ⟨[], trivial, rfl, rep⟩
  | cons first rest ih =>
    obtain ⟨⟨call, answer⟩, h1⟩ := first
    obtain ⟨⟨callable, run⟩, later⟩ := valid
    obtain ⟨h2, g1, answer', run', effect, rep1⟩ := perform_represents rep callable safe.1
    obtain ⟨rfl, rfl⟩ := Prod.mk.inj (Except.ok.inj (run'.symm.trans run))
    obtain ⟨lists, steps, same, rep'⟩ := ih rep1 later safe.2
    exact ⟨((call, answer'), g1) :: lists, ⟨effect, steps⟩, congrArg ((call, answer') :: ·) same,
      rep'⟩

/-- The element and its child. -/
theorem links_refine_family : ∃ lists : List ((Call × Answer) × Grove),
    Path Effect ⟨fun _ => none, fun _ => []⟩ lists ∧
      labels lists = family.zip [.node 1, .node 2, .node 2] := by
  obtain ⟨lists, steps, same, -⟩ := @links_refine_lists _ _
    [((family[0], .node 1), _), ((family[1], .node 2), _), ((family[2], .node 2), _)]
    empty_represents
    ⟨⟨⟨⟨by decide, rfl⟩, rfl⟩, rfl⟩, ⟨⟨⟨by decide, rfl⟩, rfl⟩, rfl⟩,
      ⟨⟨⟨_, rfl⟩, _, rfl⟩, rfl⟩, trivial⟩
    ⟨trivial, trivial, ⟨fun n held => Option.some.inj held ▸ rfl, fun above =>
      absurd (above_root (n := newNode (.element [97] [])) rfl rfl above) (by decide)⟩, trivial⟩
  exact ⟨lists, steps, same⟩

end Runs

end TinyXmlRuns
