import Boring.Library.StepRuns
import Boring.South.SouthHeap

/- The target list of one monitor over any run of `monitor_add_target` and
   `monitor_del_target`. The specification is the list of targets itself, which an
   addition extends at its end and a deletion shortens by its first match. -/
namespace MonitorTargets
open LinkedCells StepRuns SouthHeap

structure TargetData where
  label : CString
  unit : Option CString
  type : Int
  value : CString
  pm : Ptr
  deriving DecidableEq

def data (t : Target) : TargetData := ⟨t.label, t.unit, t.type, t.value, t.pm⟩

def statusData (pm : Ptr) (value : CString) : TargetData :=
  ⟨XML_PROP_VALUE_WORK_STATUS, none, DATA_TYPE_INT32, value, pm⟩

/-- A NULL string argument is none. `ptAt` is the address `malloc` returns. -/
inductive Call where
  | add (ptAt : Ptr) (label value unit : Option CString) (type : Int)
  | del (label : Option CString)

def exec (pm : Ptr) (h : Heap) : Call → Except Fault Heap
  | .add ptAt label value unit type =>
    (monitorAddTarget h pm ptAt label value unit type).map Prod.snd
  | .del label => (monitorDelTarget h pm label).map Prod.snd

/-- The specification: what a call makes of the targets behind the status target. -/
def listed (pm : Ptr) (added : List TargetData) : Call → List TargetData
  | .add _ (some label) (some value) (some unit) type =>
    added ++ [⟨label, some unit, type, value, pm⟩]
  | .del (some label) => added.eraseP (·.label = label)
  | _ => added

def MallocFresh (h : Heap) : Call → Prop
  | .add ptAt (some _) (some _) (some _) _ => h.target.Fresh ptAt
  | _ => True

abbrev State := Except Fault Heap × List TargetData

/-- The code and the specification take each call side by side; nothing follows a fault. -/
def advance (pm : Ptr) (s : State) (call : Call) : State :=
  (s.1.bind (exec pm · call), listed pm s.2 call)

def step (pm : Ptr) : StepRel State Call
  | (.ok h, added), call, next => MallocFresh h call ∧ next = advance pm (.ok h, added) call
  | (.error _, _), _, _ => False

def RemovesTail (added : List TargetData) : Call → Prop
  | .del (some label) => ∃ before t, added = before ++ [t] ∧ t.label = label ∧
      ∀ u ∈ before, u.label ≠ label
  | _ => False

structure Shape (h : Heap) (pm first : Ptr) (m : Monitor) (cells : List (Ptr × Target)) :
    Prop where
  held : h.monitor.cell pm = some m
  chain : Chain h.target Target.next m.target cells
  head : cells.head?.map Prod.fst = some first
  tail : cells.getLast?.map Prod.fst = some m.cru
  counted : m.itarget.toNat = cells.length

def Consistent (pm first : Ptr) (status : TargetData) : State → Prop
  | (.ok h, added) => ∃ m cells, Shape h pm first m cells ∧
      cells.map (fun cell => data cell.2) = status :: added
  | (.error _, _) => False

theorem shape_not_null {h : Heap} {pm first : Ptr} {m : Monitor} {cells : List (Ptr × Target)}
    (shape : Shape h pm first m cells) : pm ≠ NULL :=
  Memory.address_ne_null shape.held

theorem shape_last_cell {h : Heap} {pm first : Ptr} {m : Monitor} {cells : List (Ptr × Target)}
    (shape : Shape h pm first m cells) : ∃ before t, cells = before ++ [(m.cru, t)] := by
  have tail := shape.tail
  rcases List.eq_nil_or_concat cells with empty | ⟨before, ⟨a, t⟩, rfl⟩
  · simp [empty] at tail
  · have same : a = m.cru := by simpa using tail
    exact ⟨before, t, by simp [same]⟩

/-- What a call on the targets of `pm` leaves alone: all but its two fields and its targets. -/
structure Retargets (h h' : Heap) (pm : Ptr) (m m' : Monitor) (cells cells' : List (Ptr × Target)) :
    Prop where
  same : m' = { m with cru := m'.cru, itarget := m'.itarget }
  monitor : h'.monitor.cell = Function.update h.monitor.cell pm (some m')
  device : h'.device = h.device
  frame : ∀ x, x ∉ cells.map Prod.fst → x ∉ cells'.map Prod.fst →
    h'.target.cell x = h.target.cell x
  gained : ∀ x ∈ cells'.map Prod.fst, x ∈ cells.map Prod.fst ∨ h.target.cell x = none

theorem retargets_refl {h : Heap} {pm : Ptr} {m : Monitor} (cells : List (Ptr × Target))
    (held : h.monitor.cell pm = some m) : Retargets h h pm m m cells cells :=
  ⟨rfl, by rw [← held, Function.update_eq_self], rfl, fun _ _ _ => rfl, fun _ => .inl⟩

theorem add_appends {h : Heap} {pm first ptAt : Ptr} {m : Monitor}
    {cells : List (Ptr × Target)} (shape : Shape h pm first m cells)
    (fresh : h.target.Fresh ptAt) (label value unit : CString) (type : Int) :
    ∃ h' m' cells', monitorAddTarget h pm ptAt (some label) (some value) (some unit) type =
        .ok (0, h') ∧ Shape h' pm first m' cells' ∧ Retargets h h' pm m m' cells cells' ∧
      cells'.map (fun cell => data cell.2) =
        cells.map (fun cell => data cell.2) ++ [⟨label, some unit, type, value, pm⟩] := by
  obtain ⟨before, cru, rfl⟩ := shape_last_cell shape
  have cruHeld : h.target.cell m.cru = some cru := segment_held shape.chain (by simp)
  have apart := fresh_outside shape.chain fresh
  have cruApart : m.cru ≠ ptAt := by
    rintro rfl
    simp at apart
  let t : Target := { label, unit := some unit, type, value, next := NULL, pm }
  have cruKept (t : Target) : (h.target.put ptAt (some t) fresh.1).cell m.cru = some cru := by
    simp [Function.update_of_ne cruApart, cruHeld]
  have pushed := chain_push shape.chain fresh t { cru with next := ptAt }
    (Memory.address_ne_null cruHeld) rfl rfl
  have counted := shape.counted
  have room := chain_length_lt pushed
  simp only [List.length_append, List.length_cons, List.length_nil] at counted room
  refine ⟨⟨_, h.monitor.put pm (some { m with cru := ptAt, itarget := m.itarget + 1 })
    (shape_not_null shape), h.device⟩, { m with cru := ptAt, itarget := m.itarget + 1 },
    before ++ [(m.cru, { cru with next := ptAt }), (ptAt, t)], ?_, ⟨?_, pushed, ?_, ?_, ?_⟩,
    ⟨rfl, rfl, rfl, ?_, ?_⟩, ?_⟩
  · simp only [monitorAddTarget, if_neg (shape_not_null shape), bind, Except.bind,
      Memory.malloc_fresh _ fresh, Memory.read_held shape.held, Memory.read_held (cruKept _),
      Memory.write_held _ (cruKept _), Memory.write_held _ shape.held, t]
    rfl
  · simp
  · have head := shape.head
    cases before <;> simpa using head
  · simp
  · simp only [List.length_append, List.length_cons, List.length_nil]
    exact counter_up counted room
  · intro x outside new
    simp only [List.map_append, List.map_cons, List.map_nil, List.mem_append, List.mem_cons,
      List.not_mem_nil, or_false, not_or] at outside new
    simp [Function.update_of_ne outside.2, Function.update_of_ne new.2.2]
  · intro x member
    simp only [List.map_append, List.map_cons, List.map_nil, List.mem_append, List.mem_cons,
      List.not_mem_nil, or_false] at member ⊢
    rcases member with front | rfl | rfl
    · exact .inl (.inl front)
    · exact .inl (.inr rfl)
    · exact .inr fresh.2
  · simp [data, t]

theorem unlink_bypasses {h : Heap} {pm a b : Ptr} {ta tb : Target} {m : Monitor}
    {before after : List (Ptr × Target)} (held : h.monitor.cell pm = some m)
    (chain : Chain h.target Target.next m.target (before ++ (b, tb) :: (a, ta) :: after)) :
    ∃ target, unlinkTarget h pm b a ta = .ok ⟨target, h.monitor.put pm
        (some { m with itarget := m.itarget - 1 }) (Memory.address_ne_null held), h.device⟩ ∧
      Chain target Target.next m.target (before ++ (b, { tb with next := ta.next }) :: after) ∧
      target.cell a = none ∧ ∀ x, x ≠ a → x ≠ b → target.cell x = h.target.cell x := by
  have heldA : h.target.cell a = some ta := segment_held chain (by simp)
  have heldB : h.target.cell b = some tb := segment_held chain (by simp)
  have neA := Memory.address_ne_null heldA
  have neB := Memory.address_ne_null heldB
  have distinct := chain_nodup chain
  simp only [List.map_append, List.map_cons, List.nodup_append, List.nodup_cons, List.mem_cons,
    not_or] at distinct
  obtain ⟨_, ⟨⟨notSame, _⟩, outsideAfter, _⟩, disjoint⟩ := distinct
  have bypassed := chain_bypass chain { tb with next := ta.next } neB rfl
  have outside : a ∉ (before ++ (b, { tb with next := ta.next }) :: after).map Prod.fst := by
    simp only [List.map_append, List.map_cons, List.mem_append, List.mem_cons, not_or]
    exact ⟨fun member => disjoint a member a (by simp) rfl, Ne.symm notSame, outsideAfter⟩
  let bypass := h.target.put b (some { tb with next := ta.next }) neB
  let cleared := bypass.put a (some { ta with next := NULL }) neA
  have keptA : bypass.cell a = some ta := by
    simp [bypass, Function.update_of_ne (Ne.symm notSame), heldA]
  have alone : Chain cleared Target.next a [(a, { ta with next := NULL })] := by
    simp [Segment, cleared]
  let monitor := h.monitor.put pm (some { m with itarget := m.itarget - 1 })
    (Memory.address_ne_null held)
  obtain ⟨target, run, released⟩ :=
    targetDestroy_chain (h := ⟨cleared, monitor, h.device⟩) alone (chain_length_lt alone)
  refine ⟨target, ?_, ?_, by simpa using released a, ?_⟩
  · simp only [unlinkTarget, bind, Except.bind, Memory.read_held heldB, Memory.write_held _ heldB]
    rw [Memory.write_held _ keptA]
    simp only [Memory.read_held held, Memory.write_held _ held]
    exact run
  · exact released_chain released (segment_update_frame bypassed _ neA outside)
      (by simpa using outside)
  · intro x notA notB
    rw [released x, if_neg (by simpa using notA)]
    simp [cleared, bypass, Function.update_of_ne notA, Function.update_of_ne notB]

theorem del_misses {h : Heap} {pm : Ptr} {m : Monitor} {head : Ptr × Target}
    {rest : List (Ptr × Target)} {label : CString} (held : h.monitor.cell pm = some m)
    (chain : Chain h.target Target.next m.target (head :: rest))
    (others : ∀ cell ∈ rest, cell.2.label ≠ label) :
    monitorDelTarget h pm (some label) = .ok (0, h) := by
  obtain ⟨a, t⟩ := head
  obtain ⟨here, heldFirst, chain⟩ := chain
  have run : delTargetLoop pm label h a t.next = .ok h := by
    refine search_misses chain (fun cell member => ?_) (chain_length_lt chain)
    exact strcmp_differs (others cell member)
  simp [monitorDelTarget, Memory.address_ne_null held, bind, Except.bind, Memory.read_held held,
    here, Memory.read_held heldFirst, run]

theorem del_unlinks {h : Heap} {pm a : Ptr} {m : Monitor} {ta : Target}
    {head : Ptr × Target} {passed behind : List (Ptr × Target)} {label : CString}
    (held : h.monitor.cell pm = some m)
    (chain : Chain h.target Target.next m.target (head :: (passed ++ (a, ta) :: behind)))
    (passes : ∀ cell ∈ passed, cell.2.label ≠ label) (found : ta.label = label) :
    ∃ target front b tb, monitorDelTarget h pm (some label) = .ok (0, ⟨target, h.monitor.put pm
        (some { m with itarget := m.itarget - 1 }) (Memory.address_ne_null held), h.device⟩) ∧
      head :: passed = front ++ [(b, tb)] ∧
      Chain target Target.next m.target (front ++ (b, { tb with next := ta.next }) :: behind) ∧
      target.cell a = none ∧ ∀ x, x ≠ a → x ≠ b → target.cell x = h.target.cell x := by
  -- the status target is never tested, so the match has a cell before it
  obtain ⟨front, ⟨b, tb⟩, split⟩ := cons_eq_concat head passed
  have whole : head :: (passed ++ (a, ta) :: behind) = front ++ (b, tb) :: (a, ta) :: behind := by
    rw [← List.cons_append, split, List.append_assoc]
    rfl
  obtain ⟨target, run, chain', freed, frame⟩ := unlink_bypasses held (whole ▸ chain)
  obtain ⟨p, st⟩ := head
  obtain ⟨atFirst, heldFirst, tail⟩ := chain
  have predecessor : addressBefore p passed = b := by
    have same := addressBefore_concat p b tb front
    rwa [← split] at same
  have loop : delTargetLoop pm label h p st.next =
      unlinkTarget h pm (addressBefore p passed) a ta := by
    have room := chain_length_lt tail
    simp only [List.length_append] at room
    exact search_hits tail (fun cell member => strcmp_differs (passes cell member))
      (strcmp_same found) (by omega)
  refine ⟨target, front, b, tb, ?_, split, chain', freed, frame⟩
  simp [monitorDelTarget, Memory.address_ne_null held, bind, Except.bind, Memory.read_held held,
    atFirst, Memory.read_held heldFirst, loop, predecessor, run]

theorem redirect_data {head : Ptr × Target} {passed front behind : List (Ptr × Target)}
    {b next : Ptr} {tb : Target} (split : head :: passed = front ++ [(b, tb)]) :
    (front ++ (b, { tb with next }) :: behind).map (fun cell => data cell.2) =
      (head :: (passed ++ behind)).map (fun cell => data cell.2) := by
  rw [← List.cons_append, split]
  simp [data]

theorem redirect_addresses {head : Ptr × Target} {passed front behind : List (Ptr × Target)}
    {b next : Ptr} {tb : Target} (split : head :: passed = front ++ [(b, tb)]) :
    (front ++ (b, { tb with next }) :: behind).map Prod.fst =
      (head :: (passed ++ behind)).map Prod.fst := by
  rw [← List.cons_append, split]
  simp

theorem del_keeps {h : Heap} {pm first a : Ptr} {m : Monitor} {ta : Target}
    {head : Ptr × Target} {passed behind : List (Ptr × Target)} {label : CString}
    (shape : Shape h pm first m (head :: (passed ++ (a, ta) :: behind)))
    (passes : ∀ cell ∈ passed, cell.2.label ≠ label) (found : ta.label = label)
    (more : behind ≠ []) :
    ∃ h' m' cells', monitorDelTarget h pm (some label) = .ok (0, h') ∧
      Shape h' pm first m' cells' ∧
      Retargets h h' pm m m' (head :: (passed ++ (a, ta) :: behind)) cells' ∧
      cells'.map (fun cell => data cell.2) =
        (head :: (passed ++ behind)).map (fun cell => data cell.2) := by
  obtain ⟨target, front, b, tb, run, split, chain, freed, frame⟩ :=
    del_unlinks shape.held shape.chain passes found
  have addresses := @redirect_addresses _ _ _ behind _ ta.next _ split
  refine ⟨_, { m with itarget := m.itarget - 1 }, _, run, ⟨by simp, chain, ?_, ?_, ?_⟩,
    ⟨rfl, rfl, rfl, ?_, ?_⟩, redirect_data split⟩
  · have same := congrArg List.head? addresses
    rw [List.head?_map] at same
    rw [same]
    simpa using shape.head
  · have same := congrArg List.getLast? addresses
    rw [List.getLast?_map] at same
    rw [same]
    have tail := shape.tail
    rw [← List.cons_append, List.getLast?_append_of_ne_nil _ (by simp),
      List.getLast?_cons_of_ne_nil more] at tail
    rw [← List.cons_append, List.map_append, List.getLast?_append_of_ne_nil _ (by simpa using more),
      List.getLast?_map]
    exact tail
  · have counted := shape.counted
    have lengths := congrArg List.length addresses
    rw [List.length_map, List.length_map] at lengths
    simp only [List.length_cons, List.length_append] at lengths counted
    apply counter_down
    simp only [List.length_append, List.length_cons]
    omega
  · intro x outside kept
    refine frame x ?_ ?_
    · rintro rfl
      exact outside (by simp)
    · rintro rfl
      exact kept (by simp)
  · intro x member
    rw [addresses] at member
    simp only [List.map_cons, List.map_append, List.mem_cons, List.mem_append] at member ⊢
    tauto

theorem del_tail_dangles {h : Heap} {pm first a : Ptr} {m : Monitor} {ta : Target}
    {head : Ptr × Target} {passed : List (Ptr × Target)} {label : CString}
    (shape : Shape h pm first m (head :: (passed ++ [(a, ta)])))
    (passes : ∀ cell ∈ passed, cell.2.label ≠ label) (found : ta.label = label) :
    ∃ h' m', monitorDelTarget h pm (some label) = .ok (0, h') ∧
      h'.monitor.cell pm = some m' ∧ h'.target.cell m'.cru = none := by
  obtain ⟨target, _, _, _, run, _, _, freed, _⟩ :=
    del_unlinks shape.held shape.chain passes found
  refine ⟨_, { m with itarget := m.itarget - 1 }, run, by simp, ?_⟩
  have tail := shape.tail
  rw [← List.cons_append, List.getLast?_append_of_ne_nil _ (by simp)] at tail
  have same : a = m.cru := by simpa using tail
  exact same ▸ freed

theorem cells_at_match {cells : List (Ptr × Target)} {status t : TargetData}
    {before after : List TargetData} {label : CString}
    (listing : cells.map (fun cell => data cell.2) = status :: (before ++ t :: after))
    (others : ∀ u ∈ before, u.label ≠ label) (found : t.label = label) :
    ∃ head passed a ta behind, cells = head :: (passed ++ (a, ta) :: behind) ∧
      data head.2 = status ∧ passed.map (fun cell => data cell.2) = before ∧
      behind.map (fun cell => data cell.2) = after ∧
      (∀ cell ∈ passed, cell.2.label ≠ label) ∧ ta.label = label := by
  obtain ⟨head, rest, rfl, headData, restData⟩ := List.map_eq_cons_iff.mp listing
  obtain ⟨passed, tail, rfl, passedData, tailData⟩ := List.map_eq_append_iff.mp restData
  obtain ⟨⟨a, ta⟩, behind, rfl, foundData, behindData⟩ := List.map_eq_cons_iff.mp tailData
  refine ⟨head, passed, a, ta, behind, rfl, headData, passedData, behindData, ?_, ?_⟩
  · intro cell member
    have inData : data cell.2 ∈ before := passedData ▸ List.mem_map.mpr ⟨cell, member, rfl⟩
    exact others _ inData
  · exact (congrArg TargetData.label foundData).trans found

theorem exec_add {h : Heap} {pm ptAt : Ptr} {label value unit : CString} {type : Int} {h' : Heap}
    (run : monitorAddTarget h pm ptAt (some label) (some value) (some unit) type = .ok (0, h')) :
    exec pm h (.add ptAt (some label) (some value) (some unit) type) = .ok h' := by
  simp [exec, run, Except.map]

theorem exec_del {h : Heap} {pm : Ptr} {label : CString} {h' : Heap}
    (run : monitorDelTarget h pm (some label) = .ok (0, h')) :
    exec pm h (.del (some label)) = .ok h' := by
  simp [exec, run, Except.map]

def Refused : Call → Prop
  | .add _ (some _) (some _) (some _) _ => False
  | .del (some _) => False
  | _ => True

theorem refused_changes_nothing {pm : Ptr} {h : Heap} {added : List TargetData} {call : Call}
    (refused : Refused call) : exec pm h call = .ok h ∧ listed pm added call = added := by
  cases call with
  | add ptAt label value unit type =>
    cases label <;> cases value <;> cases unit <;>
      simp_all [Refused, exec, listed, monitorAddTarget, Except.map]
  | del label =>
    cases label with
    | none => simp [exec, listed, monitorDelTarget, Except.map]
    | some label => exact refused.elim

theorem call_cases (call : Call) : Refused call ∨
    (∃ ptAt label value unit type,
      call = .add ptAt (some label) (some value) (some unit) type) ∨
    ∃ label, call = .del (some label) := by
  cases call with
  | add ptAt label value unit type =>
    cases label <;> cases value <;> cases unit <;> simp [Refused]
  | del label => cases label <;> simp [Refused]

theorem exec_retargets {h : Heap} {pm first : Ptr} {m : Monitor} {cells : List (Ptr × Target)}
    {status : TargetData} {added : List TargetData} {call : Call}
    (shape : Shape h pm first m cells) (fresh : MallocFresh h call)
    (listing : cells.map (fun cell => data cell.2) = status :: added)
    (allowed : ¬ RemovesTail added call) :
    ∃ h' m' cells', exec pm h call = .ok h' ∧ Shape h' pm first m' cells' ∧
      Retargets h h' pm m m' cells cells' ∧
      cells'.map (fun cell => data cell.2) = status :: listed pm added call := by
  rcases call_cases call with refused | ⟨ptAt, label, value, unit, type, rfl⟩ | ⟨label, rfl⟩
  · obtain ⟨same, sameList⟩ := @refused_changes_nothing pm h added call refused
    exact ⟨h, m, cells, same, shape, retargets_refl cells shape.held, by rw [sameList, listing]⟩
  · obtain ⟨h', m', cells', run, shape', changed, listing'⟩ :=
      add_appends shape fresh label value unit type
    exact ⟨h', m', cells', exec_add run, shape', changed, by rw [listing', listing]; rfl⟩
  · rcases erase_cases added (·.label = label) with
      ⟨misses, same⟩ | ⟨before, t, after, rfl, found, others, erased⟩
    · simp only [decide_eq_false_iff_not] at misses
      obtain ⟨head, rest, rfl, _, others⟩ := List.map_eq_cons_iff.mp listing
      have passes (cell : Ptr × Target) (member : cell ∈ rest) : cell.2.label ≠ label :=
        misses (data cell.2) (others ▸ List.mem_map_of_mem member)
      exact ⟨h, m, _, exec_del (del_misses shape.held shape.chain passes), shape,
        retargets_refl _ shape.held, by rw [listed, same, listing]⟩
    · simp only [decide_eq_true_eq, decide_eq_false_iff_not] at found others
      obtain ⟨head, passed, a, ta, behind, rfl, headData, rfl, rfl, passes, foundCell⟩ :=
        cells_at_match listing others found
      have more : behind ≠ [] := by
        rintro rfl
        exact allowed ⟨_, t, by simp, found, others⟩
      obtain ⟨h', m', cells', run, shape', changed, listing'⟩ :=
        del_keeps shape passes foundCell more
      exact ⟨h', m', cells', exec_del run, shape', changed,
        by rw [listing', listed, erased, List.map_cons, headData, List.map_append]⟩

theorem step_keeps {pm first : Ptr} {status : TargetData} (s : State) (call : Call)
    (t : State) (allowed : ¬ RemovesTail s.2 call)
    (taken : step pm s call t) (consistent : Consistent pm first status s) :
    Consistent pm first status t := by
  obtain ⟨outcome, added⟩ := s
  cases outcome with
  | error fault => exact taken.elim
  | ok h =>
    obtain ⟨fresh, rfl⟩ := taken
    change Consistent pm first status (exec pm h call, listed pm added call)
    obtain ⟨m, cells, shape, listing⟩ := consistent
    obtain ⟨h', m', cells', run, shape', -, listing'⟩ :=
      exec_retargets shape fresh listing allowed
    rw [run]
    exact ⟨m', cells', shape', listing'⟩

theorem dangling_not_consistent {h : Heap} {pm first : Ptr} {status : TargetData}
    {added : List TargetData} {m : Monitor} (held : h.monitor.cell pm = some m)
    (dangles : h.target.cell m.cru = none) : ¬ Consistent pm first status (.ok h, added) := by
  rintro ⟨m', cells, shape, _⟩
  obtain rfl : m = m' := Option.some.inj (held.symm.trans shape.held)
  obtain ⟨front, t, rfl⟩ := shape_last_cell shape
  have live : h.target.cell m.cru = some t := segment_held shape.chain (by simp)
  rw [dangles] at live
  cases live

theorem step_breaks {pm first : Ptr} {status : TargetData} (s : State) (call : Call)
    (t : State) (refused : ¬ ¬ RemovesTail s.2 call)
    (taken : step pm s call t) (consistent : Consistent pm first status s) :
    ¬ Consistent pm first status t := by
  have removes := not_not.mp refused
  obtain ⟨outcome, added⟩ := s
  cases outcome with
  | error fault => exact taken.elim
  | ok h =>
    obtain ⟨fresh, rfl⟩ := taken
    change ¬ Consistent pm first status (exec pm h call, listed pm added call)
    obtain ⟨m, cells, shape, listing⟩ := consistent
    cases call with
    | add => exact removes.elim
    | del label =>
      cases label with
      | none => exact removes.elim
      | some label =>
        obtain ⟨before, last, rfl, found, others⟩ := removes
        obtain ⟨head, passed, a, ta, behind, rfl, _, _, noneBehind, passes, foundCell⟩ :=
          cells_at_match listing others found
        obtain rfl : behind = [] := List.map_eq_nil_iff.mp noneBehind
        obtain ⟨h', m', run, held, dangles⟩ := del_tail_dangles shape passes foundCell
        rw [exec_del run]
        exact dangling_not_consistent held dangles

theorem new_consistent {h h0 : Heap} {pmAt ptAt pm : Ptr} {label : CString} {stat : Int}
    (made : monitorNew h pmAt ptAt (some label) stat = .ok (h0, pm)) :
    ∃ value, status stat = .ok value ∧
      Consistent pm ptAt (statusData pm value) (.ok h0, []) := by
  obtain ⟨value, shown, rfl, freshTarget, freshMonitor, rfl⟩ := monitorNew_ok made
  refine ⟨value, shown, newMonitor ptAt label stat, [(ptAt, statusTarget pm value)], ?_, rfl⟩
  exact ⟨by simp, ⟨rfl, by simp, rfl⟩, rfl, rfl, rfl⟩

/-- The list, its tail pointer and its counter agree with the specification in every
    state of a run exactly when no call of the run deletes the last added target. -/
theorem target_list_consistent_iff {h h0 : Heap} {pmAt ptAt pm : Ptr} {label : CString}
    {stat : Int} {path : List (Call × State)}
    (made : monitorNew h pmAt ptAt (some label) stat = .ok (h0, pm))
    (valid : Path (step pm) (.ok h0, []) path) :
    ∃ value, status stat = .ok value ∧
      ((∀ u ∈ visited (.ok h0, []) path, Consistent pm ptAt (statusData pm value) u) ↔
        StepsMeet (fun s call => ¬ RemovesTail s.2 call) (.ok h0, []) path) := by
  obtain ⟨value, shown, consistent⟩ := new_consistent made
  exact ⟨value, shown,
    visited_good_iff (fun _ good => good) step_keeps step_breaks consistent valid⟩

def labelA : CString := ⟨[97], by decide⟩

def labelB : CString := ⟨[98], by decide⟩

def addA : Call := .add 48 (some labelA) (some labelA) (some labelA) 1

def addB : Call := .add 64 (some labelB) (some labelB) (some labelB) 1

def delA : Call := .del (some labelA)

/-- Targets a and b are added and a is deleted again. -/
theorem target_list_after_inner_delete :
    ∃ h0, monitorNew Heap.empty 16 32 (some labelA) 0 = .ok (h0, 16) ∧ ∃ value,
      ∀ u ∈ visited (.ok h0, []) (trace (advance 16) (.ok h0, []) [addA, addB, delA]),
        Consistent 16 32 (statusData 16 value) u := by
  refine ⟨_, rfl, ?_⟩
  obtain ⟨value, _, exactly⟩ := @target_list_consistent_iff Heap.empty _ 16 32 16 labelA 0
    (trace (advance 16) (.ok _, []) [addA, addB, delA]) rfl
    ⟨⟨⟨by decide, rfl⟩, rfl⟩, ⟨⟨by decide, rfl⟩, rfl⟩, ⟨trivial, rfl⟩, trivial⟩
  refine ⟨value, exactly.mpr ⟨not_false, not_false, ?_, trivial⟩⟩
  rintro ⟨before, t, split, found, _⟩
  have last : some labelB = (before ++ [t]).getLast?.map TargetData.label :=
    congrArg (fun added : List TargetData => added.getLast?.map TargetData.label) split
  have same : labelB = t.label := by simpa using last
  exact absurd (same.trans found) (by decide)

/-- Target a is added and deleted: the run the specification does not survive. -/
theorem deleting_the_tail_breaks_the_list : ∃ h0 h1 h2,
    monitorNew Heap.empty 16 32 (some labelA) 0 = .ok (h0, 16) ∧
    exec 16 h0 addA = .ok h1 ∧ exec 16 h1 delA = .ok h2 ∧
    ¬ Consistent 16 32 (statusData 16 ⟨[48], by decide⟩) (.ok h2, []) := by
  exact ⟨_, _, _, rfl, rfl, rfl, dangling_not_consistent rfl rfl⟩

end MonitorTargets
