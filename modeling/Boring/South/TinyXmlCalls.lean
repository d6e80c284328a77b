import Mathlib.Algebra.Order.BigOperators.Group.List
import Mathlib.Algebra.Order.Group.Nat
import Boring.South.TinyXmlEdits

/- A program's calls to a DOM, and what each does to the lists of children. -/
namespace TinyXmlCalls
open LinkedCells DoublyLinked RoseTrees TinyXmlDom TinyXmlForests TinyXmlDeletion TinyXmlLinks
open TinyXmlClones TinyXmlEdits
open SouthHeap (Ptr NULL addressSpace)
open TinyXmlText (Chars)

inductive Call where
  | new (node : Ptr) (content : Content)
  | delete (node : Ptr)
  | clear (this : Ptr)
  | linkEndChild (this node : Ptr)
  | insertEndChild (this addThis : Ptr) (supply : List Ptr)
  | insertBeforeChild (this beforeThis addThis : Ptr) (supply : List Ptr)
  | insertAfterChild (this afterThis addThis : Ptr) (supply : List Ptr)
  | replaceChild (this replaceThis withThis : Ptr) (supply : List Ptr)
  | removeChild (this removeThis : Ptr)
  | setValue (this : Ptr) (value : Chars)
  | setAttribute (this : Ptr) (name value : Chars)
  | removeAttribute (this : Ptr) (name : Chars)

inductive Answer where
  | nothing
  | node (p : Ptr)
  | done (b : Bool)

def perform (h : Dom) : Call → Except Fault (Dom × Answer)
  | .new node content => do return (← h.malloc node (newNode content), .node node)
  | .delete node => do return (← deleteNode addressSpace h node, .nothing)
  | .clear this => do return (← clear h this, .nothing)
  | .linkEndChild this node => do
    let (h, p) ← linkEndChild h this node
    return (h, .node p)
  | .insertEndChild this addThis supply => do
    let (h, p) ← insertEndChild h this addThis supply
    return (h, .node p)
  | .insertBeforeChild this beforeThis addThis supply => do
    let (h, p) ← insertBeforeChild h this beforeThis addThis supply
    return (h, .node p)
  | .insertAfterChild this afterThis addThis supply => do
    let (h, p) ← insertAfterChild h this afterThis addThis supply
    return (h, .node p)
  | .replaceChild this replaceThis withThis supply => do
    let (h, p) ← replaceChild h this replaceThis withThis supply
    return (h, .node p)
  | .removeChild this removeThis => do
    let (h, b) ← removeChild h this removeThis
    return (h, .done b)
  | .setValue this value => do return (← edit h this (Content.setValue value), .nothing)
  | .setAttribute this name value => do
    return (← edit h this (Content.setAttribute name value), .nothing)
  | .removeAttribute this name => do
    return (← edit h this (Content.removeAttribute name), .nothing)

section Conditions

def Live (h : Dom) (p : Ptr) : Prop := ∃ n, h.cell p = some n

structure Enough (h : Dom) (p : Ptr) (supply : List Ptr) : Prop where
  nodup : supply.Nodup
  fresh : ∀ a ∈ supply, h.Fresh a
  enough : ∀ ps : List Ptr, ps.Nodup → (∀ q ∈ ps, Above h p q) → ps.length ≤ supply.length

/-- What every caller keeps to: its pointers are live, or NULL where the code checks for it, and
    `new` finds memory. -/
def Callable (h : Dom) : Call → Prop
  | .new node content => h.Fresh node ∧ content.New
  | .delete node => Live h node
  | .clear this => Live h this
  | .linkEndChild this node => Live h this ∧ Live h node
  | .insertEndChild this addThis supply => Live h this ∧ Live h addThis ∧ Enough h addThis supply
  | .insertBeforeChild this child addThis supply
  | .insertAfterChild this child addThis supply
  | .replaceChild this child addThis supply =>
    Live h this ∧ (child = NULL ∨ Live h child) ∧ Live h addThis ∧ Enough h addThis supply
  | .removeChild this child => Live h this ∧ (child = NULL ∨ Live h child)
  | .setValue this _ => Live h this
  | .setAttribute this _ _ | .removeAttribute this _ =>
    ∃ n, h.cell this = some n ∧ n.content.isElement = true

/-- What the code does not check: only a node without a parent is deleted, or linked, and never
    below itself. -/
def Safe (h : Dom) : Call → Prop
  | .delete node => ∀ n, h.cell node = some n → n.parent = NULL
  | .linkEndChild this node =>
    (∀ n, h.cell node = some n → n.parent = NULL) ∧ ¬ Above h node this
  | _ => True

end Conditions

section Effects

def Cloned (g : Grove) (p : Ptr) (supply : List Ptr) (g' : Grove) (x : Ptr) : Prop :=
  ∃ t t' : RoseTree Ptr, t.root = p ∧ Unfolds g.kids t ∧ t'.root = x ∧ Unfolds g'.kids t' ∧
    t'.elements <+: supply ∧ (∀ q ∈ t'.elements, g.content q = none) ∧
    t'.map g'.content = clonedTree (t.map g.content) ∧
    ∀ q, q ∉ t'.elements → g'.content q = g.content q ∧ g'.kids q = g.kids q

/-- The insertions of a copy: a document is refused, another node is cloned and put in its
    place. -/
def Places (g : Grove) (this addThis : Ptr) (supply : List Ptr)
    (place : Grove → Ptr → Grove → Prop) (answer : Answer) (g' : Grove) : Prop :=
  ((g.content addThis).any Content.isDocument = true ∧ Refused g this g' ∧ answer = .node NULL) ∨
    ((g.content addThis).any Content.isDocument = false ∧
      ∃ g1 x, Cloned g addThis supply g1 x ∧ place g1 x g' ∧ answer = .node x)

def AtChild (g : Grove) (this child : Ptr) (refused answer : Answer) (g' : Grove)
    (body : List Ptr → List Ptr → Prop) : Prop :=
  (child ∉ g.kids this ∧ answer = refused ∧ g' = g) ∨
    ∃ xs ys, g.kids this = xs ++ child :: ys ∧ body xs ys

/-- What a call does, in terms of the contents and the lists of children. -/
def Effect (g : Grove) (step : Call × Answer) (g' : Grove) : Prop :=
  match step.1 with
  | .new node content =>
    g.content node = none ∧ content.New ∧ g' = g.added node content ∧ step.2 = .node node
  | .delete node =>
    ∃ t : RoseTree Ptr, t.root = node ∧ Unfolds g.kids t ∧ g' = g.without t.elements ∧
      step.2 = .nothing
  | .clear this =>
    ∃ t : RoseTree Ptr, t.root = this ∧ Unfolds g.kids t ∧
      g' = (g.relist this []).without (t.children.flatMap RoseTree.elements) ∧ step.2 = .nothing
  | .linkEndChild this node =>
    ((g.content node).any Content.isDocument = false ∧
      g' = g.relist this (g.kids this ++ [node]) ∧ step.2 = .node node) ∨
    ((g.content node).any Content.isDocument = true ∧
      ∃ t : RoseTree Ptr, t.root = node ∧ Unfolds g.kids t ∧
        Refused (g.without t.elements) this g' ∧ step.2 = .node NULL)
  | .insertEndChild this addThis supply =>
    Places g this addThis supply
      (fun g1 x g' => g' = g1.relist this (g.kids this ++ [x])) step.2 g'
  | .insertBeforeChild this b addThis supply =>
    AtChild g this b (.node NULL) step.2 g' fun xs ys =>
      Places g this addThis supply
        (fun g1 x g' => g' = g1.relist this (xs ++ x :: b :: ys)) step.2 g'
  | .insertAfterChild this a addThis supply =>
    AtChild g this a (.node NULL) step.2 g' fun xs ys =>
      Places g this addThis supply
        (fun g1 x g' => g' = g1.relist this (xs ++ a :: x :: ys)) step.2 g'
  | .replaceChild this r withThis supply =>
    AtChild g this r (.node NULL) step.2 g' fun xs ys =>
      Places g this withThis supply (fun g1 x g' => ∃ t : RoseTree Ptr, t.root = r ∧
        Unfolds g1.kids t ∧ g' = (g1.relist this (xs ++ x :: ys)).without t.elements) step.2 g'
  | .removeChild this r =>
    AtChild g this r (.done false) step.2 g' fun xs ys => ∃ t : RoseTree Ptr, t.root = r ∧
      Unfolds g.kids t ∧ g' = (g.relist this (xs ++ ys)).without t.elements ∧ step.2 = .done true
  | .setValue this value => g' = g.edited this (Content.setValue value) ∧ step.2 = .nothing
  | .setAttribute this name value =>
    g' = g.edited this (Content.setAttribute name value) ∧ step.2 = .nothing
  | .removeAttribute this name =>
    g' = g.edited this (Content.removeAttribute name) ∧ step.2 = .nothing

end Effects

variable {h h' : Dom} {g g' : Grove} {this p x : Ptr} {supply : List Ptr}

section Cloning

theorem clonedTree_size (t : RoseTree (Option Content)) :
    (clonedTree t).elements.length ≤ t.elements.length := by
  induction t using RoseTree.induct with
  | node c ts each =>
    rw [clonedTree_node, RoseTree.elements_node, RoseTree.elements_node, List.length_cons,
      List.length_cons]
    split
    · rw [List.flatMap_map, List.length_flatMap, List.length_flatMap]
      exact Nat.succ_le_succ (List.sum_le_sum each)
    · simp

theorem enough_supplied {t : RoseTree Ptr} (rep : Represents [] h g) (unfolds : Unfolds g.kids t)
    (live : Live h t.root) (enough : Enough h t.root supply) :
    Supplied h supply (clonedTree (t.map g.content)).elements.length := by
  refine ⟨enough.nodup, enough.fresh, ?_⟩
  have all := enough.enough t.elements (tree_bounds rep unfolds live).1 fun q member =>
    (above_iff rep (elements_held rep unfolds live q member)).mpr
      ((mem_elements unfolds).mp member)
  have size := clonedTree_size (t.map g.content)
  rw [RoseTree.elements_map, List.length_map] at size
  omega

theorem cloneNode_clones (rep : Represents [] h g) (live : Live h this) (alive : Live h p)
    (plain : (g.content p).any Content.isDocument = false) (enough : Enough h p supply) :
    ∃ h1 g1 rest x, cloneNode addressSpace h supply p = .ok (h1, rest, x) ∧
      Cloned g p supply g1 x ∧ g1.kids this = g.kids this ∧ Insertable h1 g1 this x := by
  obtain ⟨t, rfl, unfolds⟩ := rep.forest.unfolds p
  obtain ⟨n, held⟩ := alive
  have supplied := enough_supplied rep unfolds ⟨n, held⟩ enough
  obtain ⟨h1, g1, t', rest, run, copied⟩ := cloneNode_copies t addressSpace
    (tree_bounds rep unfolds ⟨n, held⟩).2 h g supply rep unfolds ⟨n, held⟩ supplied
  obtain ⟨m, root, content⟩ := copied_root copied rep held
  have fresh : ∀ q ∈ t'.elements, h.Fresh q := fun q member =>
    supplied.fresh q (by rw [copied.used]; simp [member])
  have old : this ∉ t'.elements := live_not_fresh fresh live
  have document : n.content.isDocument = false := by
    rw [← rep.content, held] at plain
    exact plain
  refine ⟨h1, g1, rest, t'.root, run, ⟨t, t', rfl, unfolds, rfl, copied.unfolds,
    ⟨rest, copied.used.symm⟩, fun q member => ?_, copied.same, fun q away => ?_⟩, ?_, ?_⟩
  · rw [← rep.content, (fresh q member).2, Option.map_none]
  · exact ⟨copied.keeps.content q away, copied.keeps.kids q away (by simp)⟩
  · exact copied.keeps.kids this old (by simp)
  · refine ⟨copied.rep, ?_, ⟨m, root, ?_⟩, copied.unlisted, fun under => ?_⟩
    · rw [copied.keeps.cell this old (by simp)]
      exact live
    · rw [content, cloned_isDocument, document]
    · exact old ((mem_elements copied.unfolds).mpr under)

theorem cloneChild_places (place : Grove → Ptr → Grove → Prop)
    {insert : Dom → Ptr → Except Fault (Dom × Ptr)} (rep : Represents [] h g)
    (live : Live h this) (alive : Live h p) (enough : Enough h p supply)
    (inserts : ∀ h1 g1 x, Insertable h1 g1 this x → g1.kids this = g.kids this →
      ∃ h' g', insert h1 x = .ok (h', x) ∧ place g1 x g' ∧ Represents [] h' g') :
    ∃ h' g' q, cloneChild h this p supply insert = .ok (h', q) ∧
      Places g this p supply place (.node q) g' ∧ Represents [] h' g' := by
  obtain ⟨n, held⟩ := alive
  have content : g.content p = some n.content := by rw [← rep.content, held, Option.map_some]
  by_cases document : n.content.isDocument = true
  · obtain ⟨h', g', run, refused, rep'⟩ := refuseDocument_represents rep live
    refine ⟨h', g', NULL, ?_, .inl ⟨by rw [content]; exact document, refused, rfl⟩, rep'⟩
    simp only [cloneChild, Memory.read_held held, bind, Except.bind, if_pos document, run]
  · have plain : (g.content p).any Content.isDocument = false := by
      rw [content]
      simpa using document
    obtain ⟨h1, g1, rest, x, run, cloned, kept, insertable⟩ :=
      cloneNode_clones rep live ⟨n, held⟩ plain enough
    obtain ⟨h', g', run', placed, rep'⟩ := inserts h1 g1 x insertable kept
    refine ⟨h', g', x, ?_, .inr ⟨plain, g1, x, cloned, placed, rfl⟩, rep'⟩
    simp only [cloneChild, Memory.read_held held, bind, Except.bind, if_neg document, run, run']

end Cloning

section Performing

theorem setValue_isDocument (value : Chars) (c : Content) :
    (c.setValue value).isDocument = c.isDocument := by
  cases c <;> rfl

theorem setAttribute_isDocument (name value : Chars) (c : Content) :
    (c.setAttribute name value).isDocument = c.isDocument := by
  cases c <;> rfl

theorem removeAttribute_isDocument (name : Chars) (c : Content) :
    (c.removeAttribute name).isDocument = c.isDocument := by
  cases c <;> rfl

theorem edit_represents {f : Content → Content} (rep : Represents [] h g) (live : Live h this)
    (class_ : ∀ c, (f c).isDocument = c.isDocument) :
    ∃ h', edit h this f = .ok h' ∧ Represents [] h' (g.edited this f) := by
  obtain ⟨n, held⟩ := live
  exact ⟨_, modify_held held _, represents_content rep class_⟩

variable {child : Ptr}

theorem insertion_acts (link : Dom → Ptr → Except Fault (Dom × Ptr))
    (place : List Ptr → List Ptr → Grove → Ptr → Grove → Prop) (rep : Represents [] h g)
    (live : Live h this)
    (pointer : child = NULL ∨ Live h child) (alive : Live h p) (enough : Enough h p supply)
    (links : ∀ h1 g1 x xs ys, Insertable h1 g1 this x → g1.kids this = xs ++ child :: ys →
      ∃ h' g', link h1 x = .ok (h', x) ∧ place xs ys g1 x g' ∧ Represents [] h' g') :
    ∃ h' g' q, atChild h this child NULL (cloneChild h this p supply link) = .ok (h', q) ∧
      AtChild g this child (.node NULL) (.node q) g'
        (fun xs ys => Places g this p supply (place xs ys) (.node q) g') ∧
      Represents [] h' g' := by
  by_cases member : child ∈ g.kids this
  · obtain ⟨xs, ys, list⟩ := List.append_of_mem member
    obtain ⟨h', g', q, run, placed, rep'⟩ := cloneChild_places (place xs ys) rep live alive
      enough fun h1 g1 x insertable kept => links h1 g1 x xs ys insertable (kept.trans list)
    exact ⟨h', g', q, by rw [atChild_passes rep member, run], .inr ⟨xs, ys, list, placed⟩, rep'⟩
  · exact ⟨h, g, NULL, atChild_refuses rep pointer live member, .inl ⟨member, rfl, rfl⟩, rep⟩

theorem linkEndChild_effect (rep : Represents [] h g) (live : Live h this) (alive : Live h x)
    (safe : Safe h (.linkEndChild this x)) :
    ∃ h' g' p, linkEndChild h this x = .ok (h', p) ∧
      Effect g (.linkEndChild this x, .node p) g' ∧ Represents [] h' g' := by
  obtain ⟨n, held⟩ := alive
  obtain ⟨loose, below⟩ := safe
  have content : g.content x = some n.content := by rw [← rep.content, held, Option.map_some]
  have unlisted : ∀ q, x ∉ g.kids q := fun q member => by
    obtain ⟨m, held', rfl, -⟩ := rep.child q x member
    obtain ⟨t, built⟩ := rep.lister member
    exact Memory.address_ne_null built (loose m held')
  by_cases document : n.content.isDocument = true
  · obtain ⟨t, rfl, unfolds⟩ := rep.forest.unfolds x
    obtain ⟨h1, run, freed, rep1⟩ := deleteNode_represents rep unfolds ⟨n, held⟩ unlisted
      (by simp)
    have live1 : Live h1 this := by
      rw [Live, freed, if_neg]
      · exact live
      · exact fun member => below ((above_iff rep live).mpr ((mem_elements unfolds).mp member))
    obtain ⟨h', g', run', refused, rep'⟩ := refuseDocument_represents (by simpa using rep1) live1
    refine ⟨h', g', NULL, ?_, .inr ⟨by rw [content]; exact document, t, rfl, unfolds, refused, rfl⟩,
      rep'⟩
    simp only [linkEndChild, Memory.read_held held, bind, Except.bind, if_pos document, run, run']
  · have plain : n.content.isDocument = false := by simpa using document
    obtain ⟨h', run, rep'⟩ := linkEndChild_inserts
      ⟨rep, live, ⟨n, held, plain⟩, unlisted, (above_iff rep live).not.mp below⟩
    exact ⟨h', _, x, run, .inl ⟨by rw [content]; exact plain, rfl, rfl⟩, rep'⟩

/-- A safe call returns, and its effect on the links is the one on the lists. -/
theorem perform_represents {call : Call} (rep : Represents [] h g) (callable : Callable h call)
    (safe : Safe h call) :
    ∃ h' g' answer, perform h call = .ok (h', answer) ∧ Effect g (call, answer) g' ∧
      Represents [] h' g' := by
  cases call with
  | new node content =>
    obtain ⟨fresh, new⟩ := callable
    refine ⟨_, _, .node node, ?_, ⟨?_, new, rfl, rfl⟩, represents_new rep fresh content⟩
    · simp only [perform, Memory.malloc_fresh _ fresh, bind, Except.bind, pure, Except.pure]
    · rw [← rep.content, fresh.2, Option.map_none]
  | delete node =>
    obtain ⟨n, held⟩ := callable
    obtain ⟨t, rfl, unfolds⟩ := rep.forest.unfolds node
    have unlisted : ∀ q, t.root ∉ g.kids q := fun q member => by
      obtain ⟨m, held', rfl, -⟩ := rep.child q _ member
      obtain ⟨b, built⟩ := rep.lister member
      exact Memory.address_ne_null built (safe m held')
    obtain ⟨h', run, -, rep'⟩ := deleteNode_represents rep unfolds ⟨n, held⟩ unlisted (by simp)
    refine ⟨h', _, .nothing, ?_, ⟨t, rfl, unfolds, rfl, rfl⟩, by simpa using rep'⟩
    simp only [perform, run, bind, Except.bind, pure, Except.pure]
  | clear this =>
    obtain ⟨h', t, run, rfl, unfolds, rep'⟩ := clear_represents rep callable
    refine ⟨h', _, .nothing, ?_, ⟨t, rfl, unfolds, rfl, rfl⟩, rep'⟩
    simp only [perform, run, bind, Except.bind, pure, Except.pure]
  | linkEndChild this node =>
    obtain ⟨h', g', p, run, effect, rep'⟩ := linkEndChild_effect rep callable.1 callable.2 safe
    refine ⟨h', g', .node p, ?_, effect, rep'⟩
    simp only [perform, run, bind, Except.bind, pure, Except.pure]
  | insertEndChild this addThis supply =>
    obtain ⟨live, alive, enough⟩ := callable
    obtain ⟨h', g', p, run, effect, rep'⟩ := cloneChild_places
      (fun g1 x g' => g' = g1.relist this (g.kids this ++ [x])) rep live alive enough
      fun h1 g1 x insertable kept => by
        obtain ⟨h', run, rep'⟩ := linkEndChild_inserts insertable
        exact ⟨h', _, run, by rw [kept], rep'⟩
    refine ⟨h', g', .node p, ?_, effect, rep'⟩
    simp only [perform, insertEndChild, run, bind, Except.bind, pure, Except.pure]
  | insertBeforeChild this b addThis supply =>
    obtain ⟨live, pointer, alive, enough⟩ := callable
    obtain ⟨h', g', p, run, effect, rep'⟩ := insertion_acts (linkBefore · this b ·)
      (fun xs ys g1 x g' => g' = g1.relist this (xs ++ x :: b :: ys)) rep live pointer
      alive enough fun h1 g1 x xs ys insertable list => by
        obtain ⟨h', run, rep'⟩ := linkBefore_represents insertable list
        exact ⟨h', _, run, rfl, rep'⟩
    refine ⟨h', g', .node p, ?_, effect, rep'⟩
    simp only [perform, insertBeforeChild, run, bind, Except.bind, pure, Except.pure]
  | insertAfterChild this a addThis supply =>
    obtain ⟨live, pointer, alive, enough⟩ := callable
    obtain ⟨h', g', p, run, effect, rep'⟩ := insertion_acts (linkAfter · this a ·)
      (fun xs ys g1 x g' => g' = g1.relist this (xs ++ a :: x :: ys)) rep live pointer
      alive enough fun h1 g1 x xs ys insertable list => by
        obtain ⟨h', run, rep'⟩ := linkAfter_represents insertable list
        exact ⟨h', _, run, rfl, rep'⟩
    refine ⟨h', g', .node p, ?_, effect, rep'⟩
    simp only [perform, insertAfterChild, run, bind, Except.bind, pure, Except.pure]
  | replaceChild this r withThis supply =>
    obtain ⟨live, pointer, alive, enough⟩ := callable
    obtain ⟨h', g', p, run, effect, rep'⟩ := insertion_acts (linkInPlace · this r ·)
      (fun xs ys g1 x g' => ∃ t : RoseTree Ptr, t.root = r ∧ Unfolds g1.kids t ∧
        g' = (g1.relist this (xs ++ x :: ys)).without t.elements) rep live pointer
      alive enough fun h1 g1 x xs ys insertable list => by
        obtain ⟨h', t, run, root, unfolds, rep'⟩ := linkInPlace_represents insertable list
        exact ⟨h', _, run, ⟨t, root, unfolds, rfl⟩, rep'⟩
    refine ⟨h', g', .node p, ?_, effect, rep'⟩
    simp only [perform, replaceChild, run, bind, Except.bind, pure, Except.pure]
  | removeChild this r =>
    obtain ⟨live, pointer⟩ := callable
    by_cases member : r ∈ g.kids this
    · obtain ⟨xs, ys, list⟩ := List.append_of_mem member
      obtain ⟨h', t, run, root, unfolds, rep'⟩ := removeChild_represents rep list
      refine ⟨h', _, .done true, ?_, .inr ⟨xs, ys, list, t, root, unfolds, rfl, rfl⟩, rep'⟩
      simp only [perform, run, bind, Except.bind, pure, Except.pure]
    · refine ⟨h, g, .done false, ?_, .inl ⟨member, rfl, rfl⟩, rep⟩
      simp only [perform, removeChild, atChild_refuses rep pointer live member, bind,
        Except.bind, pure, Except.pure]
  | setValue this value =>
    obtain ⟨h', run, rep'⟩ := edit_represents rep callable (setValue_isDocument value)
    refine ⟨h', _, .nothing, ?_, ⟨rfl, rfl⟩, rep'⟩
    simp only [perform, run, bind, Except.bind, pure, Except.pure]
  | setAttribute this name value =>
    obtain ⟨n, held, -⟩ := callable
    obtain ⟨h', run, rep'⟩ :=
      edit_represents rep ⟨n, held⟩ (setAttribute_isDocument name value)
    refine ⟨h', _, .nothing, ?_, ⟨rfl, rfl⟩, rep'⟩
    simp only [perform, run, bind, Except.bind, pure, Except.pure]
  | removeAttribute this name =>
    obtain ⟨n, held, -⟩ := callable
    obtain ⟨h', run, rep'⟩ := edit_represents rep ⟨n, held⟩ (removeAttribute_isDocument name)
    refine ⟨h', _, .nothing, ?_, ⟨rfl, rfl⟩, rep'⟩
    simp only [perform, run, bind, Except.bind, pure, Except.pure]

end Performing

end TinyXmlCalls
