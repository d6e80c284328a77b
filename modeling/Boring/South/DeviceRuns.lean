import Boring.South.DeviceMonitors

/- One device over any run of calls on its list and on the targets of the monitors in it. -/
namespace DeviceRuns
open LinkedCells StepRuns SouthHeap MonitorTargets DeviceMonitors

inductive DeviceCall where
  | list (call : ListCall)
  | targets (pm : Ptr) (call : Call)

def runDevice (pd : Ptr) (h : Heap) : DeviceCall → Except Fault Heap
  | .list call => runCall pd h call
  | .targets pm call => exec pm h call

abbrev Placed := Ptr × MonitorData

/-- The first target shows the status, and the calls on targets leave it alone. -/
def retargeted (pm : Ptr) (call : Call) (x : Placed) : Placed :=
  if x.1 = pm then
    (pm, { x.2 with targets := x.2.targets.take 1 ++ listed pm (x.2.targets.drop 1) call })
  else x

def enrolled (monitors : List Placed) : DeviceCall → List Placed
  | .list (.add pmAt _ (some label) stat) => monitors ++ [(pmAt, freshMonitor pmAt label stat)]
  | .list (.del (some label)) => monitors.eraseP (·.2.label = label)
  | .list _ => monitors
  | .targets pm call => monitors.map (retargeted pm call)

/-- The program asks for fresh memory and knows the monitor from the list. -/
def Callable (h : Heap) (monitors : List Placed) : DeviceCall → Prop
  | .list call => NewSucceeds h call
  | .targets pm call => pm ∈ monitors.map Prod.fst ∧ MallocFresh h call

def RemovesEnd (monitors : List Placed) : DeviceCall → Prop
  | .list call => RemovesLast (monitors.map Prod.snd) call
  | .targets pm call => ∃ m, (pm, m) ∈ monitors ∧ RemovesTail (m.targets.drop 1) call

abbrev DeviceState := Except Fault Heap × List Placed

def advanceDevice (pd : Ptr) (s : DeviceState) (call : DeviceCall) : DeviceState :=
  (s.1.bind (runDevice pd · call), enrolled s.2 call)

def deviceStep (pd : Ptr) : StepRel DeviceState DeviceCall
  | (.ok h, monitors), call, next =>
    Callable h monitors call ∧ next = advanceDevice pd (.ok h, monitors) call
  | (.error _, _), _, _ => False

def placed (e : Entry) : Placed := (e.1, monitorData e)

def Tailed (e : Entry) : Prop :=
  e.2.2.getLast?.map Prod.fst = some e.2.1.cru ∧ e.2.1.itarget.toNat = e.2.2.length

def Kept (pd : Ptr) (ip device : CString) : DeviceState → Prop
  | (.ok h, monitors) => ∃ d entries, Listed h pd d entries ∧ d.ip = ip ∧ d.label = device ∧
      (∀ e ∈ entries, Tailed e) ∧ entries.map placed = monitors
  | (.error _, _) => False

theorem kept_delivers {pd : Ptr} {ip device : CString} {outcome : Except Fault Heap}
    {monitors : List Placed} (kept : Kept pd ip device (outcome, monitors)) :
    Delivers pd ip device (outcome, monitors.map Prod.snd) := by
  refine tracked_delivers _ ?_
  cases outcome with
  | error fault => exact kept.elim
  | ok h =>
    obtain ⟨d, entries, listed, sameIp, sameLabel, -, rfl⟩ := kept
    exact ⟨d, entries, listed, sameIp, sameLabel, by rw [List.map_map]; rfl⟩

section Frames

variable {h h' : Heap} {pd pm : Ptr} {d : Device} {m m' : Monitor}
  {cells cells' : List (Ptr × Target)}

theorem owned_retargets {before after : List Holding} {first : Ptr}
    (owned : Owned h.target pd (before ++ (first, some pd, cells) :: after))
    (changed : Retargets h h' pm m m' cells cells') {first' : Ptr}
    (chain : Chain h'.target Target.next first' cells') :
    Owned h'.target pd (before ++ (first', some pd, cells') :: after) := by
  obtain ⟨others, own, apart⟩ := owned_without owned
  have outside {x : Ptr} (among : x ∈ targetAddresses (before ++ after)) :
      x ∉ cells.map Prod.fst ∧ x ∉ cells'.map Prod.fst := by
    refine ⟨fun inside => apart x inside among, fun inside => ?_⟩
    rcases changed.gained x inside with old | free
    · exact apart x old among
    · obtain ⟨y, member, target⟩ := List.mem_flatMap.mp among
      obtain ⟨cell, held, rfl⟩ := List.mem_map.mp target
      simp [segment_held (others.chains y member) held] at free
  have moved : (targetAddresses (before ++ (first', some pd, cells') :: after)).Perm
      (cells'.map Prod.fst ++ targetAddresses (before ++ after)) :=
    List.Perm.flatMap_right _ List.perm_middle
  have members (x : Holding) (member : x ∈ before ++ (first', some pd, cells') :: after) :
      x = (first', some pd, cells') ∨ x ∈ before ++ after := by
    simp only [List.mem_append, List.mem_cons] at member ⊢
    tauto
  refine ⟨fun x member => ?_, ?_, fun x member => ?_⟩
  · rcases members x member with rfl | old
    · exact chain
    · refine segment_frame (others.chains x old) fun a inside => ?_
      obtain ⟨notOld, notNew⟩ := outside (List.mem_flatMap.mpr ⟨x, old, inside⟩)
      exact changed.frame a notOld notNew
  · rw [moved.nodup_iff, List.nodup_append]
    exact ⟨chain_nodup chain, others.apart, fun a new b old same => (outside old).2 (same ▸ new)⟩
  · rcases members x member with rfl | old
    · rfl
    · exact others.attached x old

theorem listed_retargets {before after : List Entry}
    (listed : Listed h pd d (before ++ (pm, m, cells) :: after))
    (changed : Retargets h h' pm m m' cells cells')
    (chain : Chain h'.target Target.next m'.target cells') :
    Listed h' pd d (before ++ (pm, m', cells') :: after) := by
  obtain ⟨⟨held, monitors, owned, counted⟩, tail⟩ := listed
  have attached : m.pd = some pd := owned.attached (holding (pm, m, cells)) (by simp)
  have same := changed.same
  refine ⟨⟨changed.device ▸ held, ?_, ?_, by simpa using counted⟩, fun _ => ?_⟩
  · simp only [nodes, List.map_append, List.map_cons] at monitors ⊢
    exact chain_rewrite monitors changed.monitor (by rw [same])
  · simp only [holding, List.map_append, List.map_cons, attached] at owned ⊢
    have attached' : m'.pd = some pd := by rw [same]; exact attached
    rw [attached']
    exact owned_retargets owned changed chain
  · rw [← tail (by simp), ← List.getLast?_map, ← List.getLast?_map]
    simp

end Frames

theorem retargeted_self {pm : Ptr} {call : Call} {x : Placed} (other : x.1 ≠ pm) :
    retargeted pm call x = x := if_neg other

/-- One call on the targets of a monitor in the list. -/
theorem exec_relists {h : Heap} {pd pm : Ptr} {d : Device} {entries : List Entry} {call : Call}
    (listed : Listed h pd d entries) (tailed : ∀ e ∈ entries, Tailed e)
    (known : pm ∈ (entries.map placed).map Prod.fst) (fresh : MallocFresh h call)
    (allowed : ¬ RemovesEnd (entries.map placed) (.targets pm call)) :
    ∃ h' entries', exec pm h call = .ok h' ∧ Listed h' pd d entries' ∧
      (∀ e ∈ entries', Tailed e) ∧
      entries'.map placed = (entries.map placed).map (retargeted pm call) := by
  obtain ⟨_, inside, same⟩ := List.mem_map.mp known
  obtain ⟨⟨a, m, cells⟩, member, rfl⟩ := List.mem_map.mp inside
  obtain rfl : pm = a := same.symm
  obtain ⟨before, after, rfl⟩ := List.append_of_mem member
  obtain ⟨tail, counted⟩ := tailed _ member
  have held : h.monitor.cell pm = some m :=
    segment_held listed.chain (List.mem_map.mpr ⟨_, member, rfl⟩)
  have chain : Chain h.target Target.next m.target cells :=
    listed.owned.chains (holding (pm, m, cells)) (List.mem_map_of_mem member)
  obtain ⟨head, rest, rfl⟩ : ∃ head rest, cells = head :: rest :=
    List.exists_cons_of_ne_nil fun none => by simp [none] at tail
  have shape : Shape h pm head.1 m (head :: rest) := ⟨held, chain, rfl, tail, counted⟩
  obtain ⟨h', m', cells', run, shape', changed, listing⟩ :=
    exec_retargets shape fresh (List.map_cons ..) fun removes => allowed ⟨_, inside, removes⟩
  refine ⟨h', _, run, listed_retargets listed changed shape'.chain, fun e among => ?_, ?_⟩
  · simp only [List.mem_append, List.mem_cons] at among
    rcases among with front | rfl | back
    · exact tailed e (by simp [front])
    · exact ⟨shape'.tail, shape'.counted⟩
    · exact tailed e (by simp [back])
  · -- no other entry stands at the address of the monitor
    have distinct := chain_nodup listed.chain
    simp only [nodes, List.map_append, List.map_cons, List.map_map, List.nodup_append,
      List.nodup_cons, List.mem_cons] at distinct
    have others (e : Entry) (among : e ∈ before ∨ e ∈ after) :
        retargeted pm call (placed e) = placed e := by
      refine retargeted_self fun same => ?_
      rcases among with front | back
      · exact distinct.2.2 _ (List.mem_map_of_mem front) _ (.inl rfl) same
      · exact distinct.2.1.1 (List.mem_map.mpr ⟨e, back, same⟩)
    have here : placed (pm, m', cells') = retargeted pm call (placed (pm, m, head :: rest)) := by
      simp only [retargeted, placed, monitorData, listing, List.map_cons, if_true]
      rw [changed.same]
      rfl
    simp only [List.map_append, List.map_cons, List.map_map, here]
    congr 1
    · exact List.map_congr_left fun e front => (others e (.inl front)).symm
    · congr 1
      exact List.map_congr_left fun e back => (others e (.inr back)).symm

theorem placed_unlinked (entries : List Entry) :
    (entries.map unlinked).map placed = entries.map placed := List.map_map

theorem tailed_unlinked {entries : List Entry} :
    (∀ e ∈ entries.map unlinked, Tailed e) ↔ ∀ e ∈ entries, Tailed e := List.forall_mem_map

theorem relisted_placed (pd : Ptr) (entries : List Entry) (call : ListCall) :
    (relisted pd entries call).map placed = enrolled (entries.map placed) (.list call) := by
  rcases call with ⟨pmAt, ptAt, _ | label, stat⟩ | _ | label
  · rfl
  · have same := relisted_data pd [] (.add pmAt ptAt (some label) stat)
    simp only [relisted, List.nil_append, List.map_cons, List.map_nil, enlisted,
      List.cons.injEq, and_true] at same
    simp [relisted, enrolled, placed, same]
    rfl
  · rfl
  · rw [relisted, enrolled, List.eraseP_map]
    rfl

theorem relisted_tailed {h : Heap} {pd : Ptr} {entries : List Entry} {call : ListCall}
    (tailed : ∀ e ∈ entries, Tailed e) (succeeds : NewSucceeds h call) :
    ∀ e ∈ relisted pd entries call, Tailed e := by
  rcases call with ⟨pmAt, ptAt, _ | label, stat⟩ | _ | label
  · exact tailed
  · obtain ⟨-, -, value, shown⟩ := succeeds
    intro e member
    rcases List.mem_append.mp member with old | new
    · exact tailed e old
    · rw [List.mem_singleton.mp new, freshEntry, shown]
      exact ⟨rfl, rfl⟩
  · exact tailed
  · exact fun e member => tailed e (List.mem_of_mem_eraseP member)

theorem deviceStep_keeps {pd : Ptr} {ip device : CString} (s : DeviceState) (call : DeviceCall)
    (t : DeviceState) (allowed : ¬ RemovesEnd s.2 call) (taken : deviceStep pd s call t)
    (kept : Kept pd ip device s) : Kept pd ip device t := by
  obtain ⟨outcome, monitors⟩ := s
  cases outcome with
  | error fault => exact taken.elim
  | ok h =>
    obtain ⟨callable, rfl⟩ := taken
    change Kept pd ip device (runDevice pd h call, enrolled monitors call)
    obtain ⟨d, entries, listed, sameIp, sameLabel, tailed, rfl⟩ := kept
    cases call with
    | list call =>
      have list : ¬ RemovesLast (entries.map monitorData) call := by
        simpa [RemovesEnd, placed, Function.comp_def] using allowed
      obtain ⟨h', d', entries', run, listed', keptIp, keptLabel, listing⟩ :=
        runCall_relists listed callable list
      rw [runDevice, run]
      refine ⟨d', entries', listed', keptIp.trans sameIp, keptLabel.trans sameLabel, ?_, ?_⟩
      · rw [← tailed_unlinked, listing, tailed_unlinked]
        exact relisted_tailed tailed callable
      · rw [← placed_unlinked, listing, placed_unlinked, relisted_placed]
    | targets pm call =>
      obtain ⟨known, fresh⟩ := callable
      obtain ⟨h', entries', run, listed', tailed', listing⟩ :=
        exec_relists listed tailed known fresh allowed
      rw [runDevice, run]
      exact ⟨d, entries', listed', sameIp, sameLabel, tailed', listing⟩

theorem new_kept {h h0 : Heap} {pdAt pd : Ptr} {ip label : CString}
    (made : deviceNew h pdAt (some ip) (some label) = .ok (h0, pd)) :
    Kept pd ip label (.ok h0, []) := by
  obtain ⟨d, entries, listed, sameIp, sameLabel, none⟩ := new_tracked made
  obtain rfl : entries = [] := List.map_eq_nil_iff.mp none
  exact ⟨d, [], listed, sameIp, sameLabel, nofun, rfl⟩

end DeviceRuns
