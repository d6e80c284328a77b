import Boring.South.TinyXmlDeletion

/- A new node, the way up to the document, and LinkEndChild. -/
namespace TinyXmlLinks
open LinkedCells DoublyLinked RoseTrees TinyXmlDom TinyXmlForests TinyXmlDeletion
open SouthHeap (Ptr NULL addressSpace chain_length_lt)
open TinyXmlParser (TiXmlError)

variable {opened : List Ptr} {h h' : Dom} {g : Grove} {p x this : Ptr}

theorem fresh_unlisted (rep : Represents opened h g) (fresh : h.Fresh x) (q : Ptr) :
    x ∉ g.kids q := by
  intro member
  obtain ⟨n, held⟩ := rep.kid_held member
  rw [fresh.2] at held
  cases held

theorem represents_new (rep : Represents opened h g) (fresh : h.Fresh x) (content : Content) :
    Represents opened (h.put x (some (newNode content)) fresh.1) (g.added x content) := by
  have empty : g.kids x = [] := rep.unbuilt x fresh.2
  have other {q : Ptr} (away : q ≠ x) :
      (h.put x (some (newNode content)) fresh.1).cell q = h.cell q := by
    rw [Memory.put_cell, Function.update_of_ne away]
  have here : (h.put x (some (newNode content)) fresh.1).cell x = some (newNode content) := by
    rw [Memory.put_cell, Function.update_self]
  refine ⟨?content, ?unbuilt, ?ends, ?linked, ?child, ?loose, ?ancestry⟩
  case content =>
    intro q
    by_cases same : q = x
    · subst same
      rw [here, Grove.added_content, if_pos rfl]
      rfl
    · rw [other same, Grove.added_content, if_neg same, rep.content]
  case unbuilt =>
    intro q gone
    by_cases same : q = x
    · rw [same, here] at gone
      cases gone
    · exact rep.unbuilt q (by rwa [other same] at gone)
  case ends =>
    intro q n held
    by_cases same : q = x
    · subst same
      rw [here] at held
      obtain rfl := Option.some.inj held
      show _ = (g.kids q).headD NULL ∧ _ = (g.kids q).getLastD NULL
      rw [empty]
      exact ⟨rfl, rfl⟩
    · exact rep.ends q n (by rwa [other same] at held)
  case linked =>
    intro q
    refine linked_frame (rep.linked q) fun a member p k found => ?_
    obtain ⟨c, held, back, on⟩ := found
    have away : a ≠ x := fun same => fresh_unlisted rep fresh q (same ▸ member)
    exact ⟨c, (other away).trans held, back, on⟩
  case child =>
    intro q c member
    have away : c ≠ x := fun same => fresh_unlisted rep fresh q (same ▸ member)
    obtain ⟨n, held, up, plain⟩ := rep.child q c member
    exact ⟨n, (other away).trans held, up, plain⟩
  case loose =>
    intro q n held alone unopened
    by_cases same : q = x
    · rw [same, here] at held
      obtain rfl := Option.some.inj held
      exact ⟨rfl, rfl, rfl⟩
    · exact rep.loose q n (by rwa [other same] at held) alone unopened
  case ancestry =>
    intro q n held
    by_cases same : q = x
    · subst same
      exact ⟨[(q, newNode content)], rfl, here, rfl⟩
    · rw [other same] at held
      obtain ⟨cells, chain⟩ := rep.ancestry q n held
      exact ⟨cells, segment_update_frame chain _ fresh.1 (fresh_outside chain fresh)⟩

section Ancestors

theorem above_iff (rep : Represents [] h g) (live : ∃ n, h.cell p = some n) {a : Ptr} :
    Above h a p ↔ Under g.kids a p := by
  constructor
  · rintro ⟨cells, chain, member⟩
    clear live
    induction cells generalizing p with
    | nil => cases member
    | cons cell cells ih =>
      obtain ⟨b, n⟩ := cell
      obtain ⟨rfl, held, up⟩ := chain
      rcases List.mem_cons.mp member with rfl | later
      · exact .refl
      · refine .tail (ih up later) ?_
        by_cases listed : ∃ q, p ∈ g.kids q
        · obtain ⟨q, child⟩ := listed
          obtain ⟨n', held', rfl, -⟩ := rep.child q p child
          rwa [Option.some.inj (held.symm.trans held')] at *
        · have loose := rep.loose p n held (fun q child => listed ⟨q, child⟩) (by simp)
          cases cells with
          | nil => cases later
          | cons next cells =>
            exact absurd (up.1.symm.trans loose.1 : next.1 = NULL)
              (Memory.address_ne_null up.2.1)
  · intro under
    induction under with
    | refl =>
      obtain ⟨n, held⟩ := live
      exact above_self rep held
    | @tail b c _ child ih =>
      obtain ⟨n, held, rfl, -⟩ := rep.child b c child
      obtain ⟨cells, chain, member⟩ := ih (rep.lister child)
      exact ⟨(c, n) :: cells, ⟨rfl, held, chain⟩, List.mem_cons_of_mem _ member⟩

def DocumentOf (g : Grove) (d p : Ptr) : Prop :=
  Under g.kids d p ∧ ∃ c, g.content d = some c ∧ c.isDocument = true

theorem getDocument_finds (rep : Represents [] h g) (live : ∃ n, h.cell p = some n) :
    (∃ d, getDocument h p = .ok d ∧ DocumentOf g d p) ∨
      getDocument h p = .ok NULL ∧ ∀ d, ¬ DocumentOf g d p := by
  obtain ⟨n, held⟩ := live
  obtain ⟨cells, chain⟩ := rep.ancestry p n held
  have found {a : Ptr} {c : Node} (member : (a, c) ∈ cells) :
      Under g.kids a p ∧ g.content a = some c.content := by
    refine ⟨(above_iff rep ⟨n, held⟩).mp ⟨cells, chain, List.mem_map.mpr ⟨_, member, rfl⟩⟩, ?_⟩
    rw [← rep.content, segment_held chain member, Option.map_some]
  by_cases document : ∃ cell ∈ cells, cell.2.content.isDocument = true
  · left
    obtain ⟨before, ⟨a, c⟩, after, split, hits, passes⟩ :
        ∃ before cell after, cells = before ++ cell :: after ∧
          cell.2.content.isDocument = true ∧
          ∀ other ∈ before, other.2.content.isDocument = false := by
      rcases erase_cases cells fun cell => cell.2.content.isDocument with ⟨none, -⟩ |
        ⟨before, cell, after, split, hits, passes, -⟩
      · obtain ⟨cell, member, hits⟩ := document
        rw [none cell member] at hits
        cases hits
      · exact ⟨before, cell, after, split, hits, passes⟩
    subst split
    obtain ⟨under, content⟩ := found (a := a) (c := c) (by simp)
    have short := chain_length_lt chain
    rw [List.length_append] at short
    exact ⟨a, search_hits chain passes hits (by omega), under, c.content, content, hits⟩
  · right
    have passes : ∀ cell ∈ cells, cell.2.content.isDocument = false := fun cell member => by
      rw [Bool.eq_false_iff]
      exact fun hits => document ⟨cell, member, hits⟩
    refine ⟨search_misses chain passes (chain_length_lt chain), ?_⟩
    rintro d ⟨under, c, content, hits⟩
    obtain ⟨cells', chain', member⟩ := (above_iff rep ⟨n, held⟩).mpr under
    obtain rfl := chain_unique chain chain'
    obtain ⟨⟨a, m⟩, inside, rfl⟩ := List.mem_map.mp member
    obtain rfl : m.content = c := Option.some.inj ((found inside).2.symm.trans content)
    rw [passes _ inside] at hits
    cases hits

/-- What stands after a document was refused as a child of `this`: the document above it, if
    there is one, has its error. -/
def Refused (g : Grove) (this : Ptr) (g' : Grove) : Prop :=
  (∃ d, DocumentOf g d this ∧ g' = g.edited d (Content.setError .DOCUMENT_TOP_ONLY)) ∨
    (∀ d, ¬ DocumentOf g d this) ∧ g' = g

theorem setError_isDocument (err : TiXmlError) (c : Content) :
    (c.setError err).isDocument = c.isDocument := by
  unfold Content.setError
  split <;> rfl

theorem represents_content {f : Content → Content} (rep : Represents opened h g)
    (class_ : ∀ c, (f c).isDocument = c.isDocument) :
    Represents opened (changed h p fun n => { n with content := f n.content })
      (g.edited p f) := by
  have links (q : Ptr) : (changed h p fun n => { n with content := f n.content }).cell q =
      (h.cell q).map fun n => { n with content := if q = p then f n.content else n.content } := by
    rw [changed_cell]
    split
    · rfl
    · cases h.cell q <;> rfl
  have held' {q : Ptr} {n : Node} (held : h.cell q = some n) :
      (changed h p fun n => { n with content := f n.content }).cell q =
        some { n with content := if q = p then f n.content else n.content } := by
    rw [links, held, Option.map_some]
  refine ⟨?content, ?unbuilt, ?ends, ?linked, ?child, ?loose, ?ancestry⟩
  case content =>
    intro q
    rw [changed_cell, Grove.edited_content, ← rep.content]
    split
    · rw [Option.map_map, Option.map_map]
      rfl
    · rfl
  case unbuilt =>
    intro q gone
    rw [links, Option.map_eq_none_iff] at gone
    exact rep.unbuilt q gone
  case ends =>
    intro q n held
    rw [links, Option.map_eq_some_iff] at held
    obtain ⟨n, held, rfl⟩ := held
    exact rep.ends q n held
  case linked =>
    intro q
    refine linked_frame (rep.linked q) fun a member p k found => ?_
    obtain ⟨c, held, back, on⟩ := found
    exact ⟨_, held' held, back, on⟩
  case child =>
    intro q c member
    obtain ⟨n, held, up, plain⟩ := rep.child q c member
    refine ⟨_, held' held, up, ?_⟩
    show (if c = p then f n.content else n.content).isDocument = false
    split
    · rw [class_, plain]
    · exact plain
  case loose =>
    intro q n held alone unopened
    rw [links, Option.map_eq_some_iff] at held
    obtain ⟨n, held, rfl⟩ := held
    exact rep.loose q n held alone unopened
  case ancestry =>
    intro q n held
    rw [links, Option.map_eq_some_iff] at held
    obtain ⟨n, held, -⟩ := held
    obtain ⟨cells, chain⟩ := rep.ancestry q n held
    have parents (q : Ptr) : ((changed h p fun n => { n with content := f n.content }).cell q).map
        Node.parent = (h.cell q).map Node.parent := by
      rw [links, Option.map_map]
      rfl
    obtain ⟨cells', -, chain'⟩ := chain_same parents chain
    exact ⟨cells', chain'⟩

theorem refuseDocument_represents (rep : Represents [] h g) (live : ∃ n, h.cell this = some n) :
    ∃ h' g', refuseDocument h this = .ok h' ∧ Refused g this g' ∧ Represents [] h' g' := by
  rcases getDocument_finds rep live with ⟨d, run, document⟩ | ⟨run, none⟩
  · obtain ⟨c, content, -⟩ := document.2
    rw [← rep.content, Option.map_eq_some_iff] at content
    obtain ⟨n, held, -⟩ := content
    refine ⟨_, _, ?_, .inl ⟨d, document, rfl⟩,
      represents_content rep (setError_isDocument .DOCUMENT_TOP_ONLY)⟩
    simp only [refuseDocument, run, bind, Except.bind, if_neg (Memory.address_ne_null held)]
    exact modify_held held _
  · exact ⟨h, g, by simp [refuseDocument, run, bind, Except.bind], .inr ⟨none, rfl⟩, rep⟩

end Ancestors

section Linking

theorem end_pointer {xs : List Ptr} (filled : NULL ∉ xs) :
    (xs.getLastD NULL = NULL → xs = []) ∧
      (xs.getLastD NULL ≠ NULL → xs.getLast? = some (xs.getLastD NULL)) ∧
      (xs.headD NULL = NULL → xs = []) ∧
      (xs.headD NULL ≠ NULL → xs.head? = some (xs.headD NULL)) := by
  cases first : xs.head? with
  | none =>
    obtain rfl := List.head?_eq_none_iff.mp first
    simp
  | some a =>
    have start : xs.headD NULL = a := headD_of_head first
    cases last : xs.getLast? with
    | none =>
      obtain rfl := List.getLast?_eq_none_iff.mp last
      cases first
    | some b =>
      have ends : xs.getLastD NULL = b := by rw [List.getLastD_eq_getLast?, last]; rfl
      refine ⟨fun null => ?_, fun _ => by rw [ends], fun null => ?_, fun _ => by rw [start]⟩
      · exact absurd (List.mem_of_getLast? last) (by rw [← ends, null]; exact filled)
      · exact absurd (List.mem_of_head? first) (by rw [← start, null]; exact filled)

/-- The cell in front of `x`, or its parent where there is none, points to it. -/
def aimed (this : Ptr) (xs : List Ptr) (x q : Ptr) (n : Node) : Node :=
  { n with
    next := if xs.getLast? = some q then x else n.next
    firstChild := if q = this ∧ xs = [] then x else n.firstChild }

def led (this : Ptr) (ys : List Ptr) (x q : Ptr) (n : Node) : Node :=
  { n with
    prev := if ys.head? = some q then x else n.prev
    lastChild := if q = this ∧ ys = [] then x else n.lastChild }

def Mapped (h h' : Dom) (f : Ptr → Node → Node) : Prop := ∀ q, h'.cell q = (h.cell q).map (f q)

theorem mapped_live {f : Ptr → Node → Node} (mapped : Mapped h h' f) {q : Ptr}
    (live : ∃ n, h.cell q = some n) : ∃ n, h'.cell q = some n := by
  obtain ⟨n, held⟩ := live
  exact ⟨f q n, by rw [mapped, held, Option.map_some]⟩

theorem modify_mapped {a : Ptr} (live : ∃ n, h.cell a = some n) (f : Node → Node) :
    ∃ h', modify h a f = .ok h' ∧ Mapped h h' fun q n => if q = a then f n else n := by
  obtain ⟨h', run, cells, -⟩ := modify_live live f
  refine ⟨h', run, fun q => ?_⟩
  rw [cells]
  by_cases here : q = a
  · simp only [if_pos here]
  · simp only [if_neg here]
    exact Option.map_id'.symm

theorem setNext_aimed {xs : List Ptr} (x : Ptr) (filled : NULL ∉ xs)
    (alive : ∀ a ∈ xs, ∃ n, h.cell a = some n) (live : ∃ n, h.cell this = some n) :
    ∃ h', setNext h this (xs.getLastD NULL) x = .ok h' ∧ Mapped h h' (aimed this xs x) := by
  obtain ⟨empty, last, -⟩ := end_pointer filled
  by_cases null : xs.getLastD NULL = NULL
  · obtain rfl := empty null
    obtain ⟨h', run, cells⟩ := modify_mapped live fun t => { t with firstChild := x }
    refine ⟨h', by rw [setNext, if_neg (not_not_intro null)]; exact run, fun q => ?_⟩
    rw [cells]
    congr 1
    funext n
    by_cases here : q = this <;> simp [aimed, here]
  · have last := last null
    obtain ⟨h', run, cells⟩ := modify_mapped (alive _ (List.mem_of_getLast? last))
      fun l => { l with next := x }
    refine ⟨h', by rw [setNext, if_pos null]; exact run, fun q => ?_⟩
    rw [cells]
    congr 1
    funext n
    have some_ : xs ≠ [] := fun none => null (by rw [none]; rfl)
    by_cases here : q = xs.getLastD NULL
    · simp only [aimed, last, here, some_, and_false, if_true, if_false]
    · simp only [aimed, if_neg here, last, Option.some.injEq, if_neg (Ne.symm here), some_,
        and_false, if_false]

theorem setPrev_led {ys : List Ptr} (x : Ptr) (filled : NULL ∉ ys)
    (alive : ∀ a ∈ ys, ∃ n, h.cell a = some n) (live : ∃ n, h.cell this = some n) :
    ∃ h', setPrev h this (ys.headD NULL) x = .ok h' ∧ Mapped h h' (led this ys x) := by
  obtain ⟨-, -, empty, first⟩ := end_pointer filled
  by_cases null : ys.headD NULL = NULL
  · obtain rfl := empty null
    obtain ⟨h', run, cells⟩ := modify_mapped live fun t => { t with lastChild := x }
    refine ⟨h', by rw [setPrev, if_neg (not_not_intro null)]; exact run, fun q => ?_⟩
    rw [cells]
    congr 1
    funext n
    by_cases here : q = this <;> simp [led, here]
  · have first := first null
    obtain ⟨h', run, cells⟩ := modify_mapped (alive _ (List.mem_of_head? first))
      fun r => { r with prev := x }
    refine ⟨h', by rw [setPrev, if_pos null]; exact run, fun q => ?_⟩
    rw [cells]
    congr 1
    funext n
    have some_ : ys ≠ [] := fun none => null (by rw [none]; rfl)
    by_cases here : q = ys.headD NULL
    · simp only [led, first, here, some_, and_false, if_true, if_false]
    · simp only [led, if_neg here, first, Option.some.injEq, if_neg (Ne.symm here), some_,
        and_false, if_false]

theorem mapped_trans {h1 h2 : Dom} {f f' : Ptr → Node → Node} (first : Mapped h h1 f)
    (second : Mapped h1 h2 f') : Mapped h h2 fun q n => f' q (f q n) := by
  intro q
  rw [second, first, Option.map_map]
  rfl

theorem linkEndChild_splices {n : Node} (rep : Represents opened h g)
    (live : ∃ t, h.cell this = some t) (node : h.cell x = some n)
    (plain : n.content.isDocument = false) (unlisted : ∀ q, x ∉ g.kids q)
    (below : ¬ Above h x this) :
    ∃ h', linkEndChild h this x = .ok (h', x) ∧
      Mapped h h' (spliced this x (g.kids this) []) := by
  obtain ⟨t, built⟩ := live
  have other : x ≠ this := by
    rintro rfl
    exact below (above_self rep built)
  have last := (rep.ends this t built).2
  obtain ⟨h1, run1, cells1⟩ := modify_mapped ⟨n, node⟩
    fun n => { n with parent := this, prev := t.lastChild, next := NULL }
  obtain ⟨h2, run2, cells2⟩ := setNext_aimed x (null_outside rep this)
    (fun a member => mapped_live cells1 (rep.kid_held member)) (mapped_live cells1 ⟨t, built⟩)
  obtain ⟨h3, run3, cells3⟩ := modify_mapped
    (mapped_live cells2 (mapped_live cells1 ⟨t, built⟩)) fun t => { t with lastChild := x }
  have all := mapped_trans (mapped_trans cells1 cells2) cells3
  rw [← last] at run2
  refine ⟨h3, ?_, fun q => (all q).trans ?_⟩
  · simp only [linkEndChild, Memory.read_held node, bind, Except.bind, plain,
      Bool.false_eq_true, if_false, Memory.read_held built, run1, run2, run3]
  · congr 1
    funext m
    have outside : (g.kids this).getLast? ≠ some x := fun last =>
      unlisted this (List.mem_of_getLast? last)
    by_cases here : q = this
    · subst here
      simp [spliced, aimed, Ne.symm other]
    · by_cases there : q = x
      · subst there
        simp [spliced, aimed, other, outside, last]
      · simp [spliced, aimed, here, there]

theorem spliced_away {xs ys : List Ptr} {q : Ptr} (notNode : q ≠ x) (notThis : q ≠ this)
    (outside : q ∉ xs ++ ys) (n : Node) : spliced this x xs ys q n = n := by
  have notFirst : ys.head? ≠ some q := fun first => outside (by simp [List.mem_of_head? first])
  have notLast : xs.getLast? ≠ some q := fun last => outside (by simp [List.mem_of_getLast? last])
  simp [spliced, notNode, notThis, notFirst, notLast]

/-- The nodes whose links LinkEndChild changes are the two it is given and the children. -/
theorem linkEndChild_represents {n : Node} (rep : Represents [] h g)
    (live : ∃ t, h.cell this = some t) (node : h.cell x = some n)
    (plain : n.content.isDocument = false) (unlisted : ∀ q, x ∉ g.kids q)
    (below : ¬ Under g.kids x this) :
    ∃ h', linkEndChild h this x = .ok (h', x) ∧
      Represents [] h' (g.relist this (g.kids this ++ [x])) ∧
      ∀ q, q ≠ x → q ≠ this → q ∉ g.kids this → h'.cell q = h.cell q := by
  have notAbove := (above_iff rep live).not.mpr below
  obtain ⟨h', run, cells⟩ := linkEndChild_splices rep live node plain unlisted notAbove
  refine ⟨h', run, represents_splice rep (List.append_nil _).symm live node plain unlisted
    notAbove cells, fun q notNode notThis outside => ?_⟩
  rw [cells]
  cases h.cell q with
  | none => rfl
  | some m => rw [Option.map_some, spliced_away notNode notThis (by simpa using outside)]

end Linking

end TinyXmlLinks
