import Boring.South.MonitorTargets
import Boring.South.SouthXml

/- The monitor list of one device over any run of `device_add_monitor`, each time of a
   monitor fresh from `monitor_new`, and `device_del_monitor`, and what `upload` sends
   after it. The specification is the list of monitors itself. -/
namespace DeviceMonitors
open LinkedCells StepRuns SouthHeap SouthXml MonitorTargets

structure MonitorData where
  label : CString
  stat : Int
  targets : List TargetData

/-- A monitor of the list with the address it has and the targets it owns. -/
abbrev Entry := Ptr × Monitor × List (Ptr × Target)

def monitorData (e : Entry) : MonitorData :=
  ⟨e.2.1.label, e.2.1.stat, e.2.2.map fun cell => data cell.2⟩

def unlinked (e : Entry) : Entry := (e.1, { e.2.1 with next := NULL }, e.2.2)

/-- `pmAt` and `ptAt` are the addresses `malloc` returns to `monitor_new`. -/
inductive ListCall where
  | add (pmAt ptAt : Ptr) (label : Option CString) (stat : Int)
  | del (label : Option CString)

def runCall (pd : Ptr) (h : Heap) : ListCall → Except Fault Heap
  | .add pmAt ptAt label stat => do
    let (h, pm) ← monitorNew h pmAt ptAt label stat
    (deviceAddMonitor h pd pm).map Prod.snd
  | .del label => (deviceDelMonitor h pd label).map Prod.snd

def freshMonitor (pm : Ptr) (label : CString) (stat : Int) : MonitorData :=
  match status stat with
  | .ok value => ⟨label, stat, [statusData pm value]⟩
  | .error _ => ⟨label, stat, []⟩

def enlisted (monitors : List MonitorData) : ListCall → List MonitorData
  | .add pmAt _ (some label) stat => monitors ++ [freshMonitor pmAt label stat]
  | .del (some label) => monitors.eraseP (·.label = label)
  | _ => monitors

/-- `monitor_new` succeeds: both allocations do, and the status is one of the three. -/
def NewSucceeds (h : Heap) : ListCall → Prop
  | .add pmAt ptAt (some _) stat =>
    h.monitor.Fresh pmAt ∧ h.target.Fresh ptAt ∧ ∃ value, status stat = .ok value
  | _ => True

abbrev ListState := Except Fault Heap × List MonitorData

def advanceList (pd : Ptr) (s : ListState) (call : ListCall) : ListState :=
  (s.1.bind (runCall pd · call), enlisted s.2 call)

def listStep (pd : Ptr) : StepRel ListState ListCall
  | (.ok h, monitors), call, next =>
    NewSucceeds h call ∧ next = advanceList pd (.ok h, monitors) call
  | (.error _, _), _, _ => False

def RemovesLast (monitors : List MonitorData) : ListCall → Prop
  | .del (some label) => ∃ before m, monitors = before ++ [m] ∧ before ≠ [] ∧ m.label = label ∧
      ∀ other ∈ before, other.label ≠ label
  | _ => False

section Documents

variable (p : Platform)

def targetOf (t : TargetData) : Target := ⟨t.label, t.unit, t.type, t.value, NULL, t.pm⟩

/-- The specification of `monitor_to_string`: the document depends on the monitor's own
    data, its device's label and the static string alone. -/
def monitorDocument (device : CString) (m : MonitorData) : Run Bytes :=
  serviceDocument p (commandElement p m.label (pure device)
    (m.targets.mapM fun t => targetMakeXml p (targetOf t)))

def documents (ip device : CString) (monitors : List MonitorData) : Run (List (Bytes × Bytes)) :=
  monitors.mapM fun m => do
    let szXml ← monitorDocument p device m
    return (ip.bytes, szXml)

end Documents

/-- The three redundant views of the list agree, and an upload sends exactly the
    documents of the listed monitors in order. -/
def Delivers (pd : Ptr) (ip device : CString) : ListState → Prop
  | (.ok h, monitors) => ∃ d cells, h.device.cell pd = some d ∧
      Chain h.monitor Monitor.next d.monitor cells ∧
      (cells ≠ [] → cells.getLast?.map Prod.fst = some d.curmon) ∧
      d.imonitor.toNat = cells.length ∧ cells.length = monitors.length ∧
      ∀ p : Platform, p.transportLoads = true →
        upload p h pd = do
          let calls ← documents p ip device monitors
          return (0, calls)
  | (.error _, _) => False

def nodes (entries : List Entry) : List (Ptr × Monitor) := entries.map fun e => (e.1, e.2.1)

abbrev Holding := Ptr × Option Ptr × List (Ptr × Target)

def holding (e : Entry) : Holding := (e.2.1.target, e.2.1.pd, e.2.2)

def targetAddresses (holdings : List Holding) : List Ptr :=
  holdings.flatMap fun x => x.2.2.map Prod.fst

structure Owned (m : Memory NULL Target) (pd : Ptr) (holdings : List Holding) : Prop where
  chains : ∀ x ∈ holdings, Chain m Target.next x.1 x.2.2
  apart : (targetAddresses holdings).Nodup
  attached : ∀ x ∈ holdings, x.2.1 = some pd

/-- What a deletion keeps in every case: all but the tail pointer. -/
structure Linked (h : Heap) (pd : Ptr) (d : Device) (entries : List Entry) : Prop where
  held : h.device.cell pd = some d
  chain : Chain h.monitor Monitor.next d.monitor (nodes entries)
  owned : Owned h.target pd (entries.map holding)
  counted : d.imonitor.toNat = entries.length

structure Listed (h : Heap) (pd : Ptr) (d : Device) (entries : List Entry) : Prop
    extends Linked h pd d entries where
  tail : entries ≠ [] → entries.getLast?.map Prod.fst = some d.curmon

def Tracked (pd : Ptr) (ip device : CString) : ListState → Prop
  | (.ok h, monitors) => ∃ d entries, Listed h pd d entries ∧ d.ip = ip ∧ d.label = device ∧
      entries.map monitorData = monitors
  | (.error _, _) => False

theorem data_unlinked (entries : List Entry) :
    (entries.map unlinked).map monitorData = entries.map monitorData := List.map_map

theorem lift_ok {α : Type} (x : α) : (liftM (Except.ok x : Except Fault α) : Run α) = pure x := rfl

theorem targetsMakeXml_chain (p : Platform) {h : Heap} {pt : Ptr} {cells : List (Ptr × Target)}
    {fuel : Nat} (chain : Chain h.target Target.next pt cells) (enough : cells.length < fuel) :
    targetsMakeXml p h fuel pt =
      (cells.map fun cell => data cell.2).mapM fun t => targetMakeXml p (targetOf t) := by
  induction cells generalizing pt fuel with
  | nil =>
    obtain ⟨f, rfl⟩ : ∃ f, fuel = f + 1 := ⟨fuel - 1, by omega⟩
    have atNull : pt = NULL := chain
    simp [targetsMakeXml, atNull]
  | cons cell rest ih =>
    obtain ⟨f, rfl⟩ : ∃ f, fuel = f + 1 := ⟨fuel - 1, by omega⟩
    obtain ⟨here, held, tail⟩ := chain
    subst here
    have left : rest.length < f := by simpa using enough
    simp only [targetsMakeXml, if_neg (Memory.address_ne_null held), Memory.read_held held,
      lift_ok, pure_bind, List.map_cons, List.mapM_cons, ih tail left]
    rfl

theorem owned_without {m : Memory NULL Target} {pd : Ptr} {x : Holding}
    {before after : List Holding} (owned : Owned m pd (before ++ x :: after)) :
    Owned m pd (before ++ after) ∧ Chain m Target.next x.1 x.2.2 ∧
      ∀ a ∈ x.2.2.map Prod.fst, a ∉ targetAddresses (before ++ after) := by
  have still (y : Holding) (member : y ∈ before ++ after) : y ∈ before ++ x :: after := by
    rcases List.mem_append.mp member with front | back
    · exact List.mem_append_left _ front
    · exact List.mem_append_right _ (List.mem_cons_of_mem _ back)
  have moved : (targetAddresses (before ++ x :: after)).Perm
      (x.2.2.map Prod.fst ++ targetAddresses (before ++ after)) := by
    exact List.Perm.flatMap_right _ List.perm_middle
  have distinct := moved.nodup_iff.mp owned.apart
  rw [List.nodup_append] at distinct
  refine ⟨⟨fun y member => owned.chains y (still y member), distinct.2.1,
    fun y member => owned.attached y (still y member)⟩, owned.chains x (by simp), ?_⟩
  intro a own other
  exact distinct.2.2 a own a other rfl

theorem owned_released {m m' : Memory NULL Target} {pd : Ptr} {freed : List Ptr}
    {holdings : List Holding} (released : Released m freed m') (owned : Owned m pd holdings)
    (apart : ∀ a ∈ freed, a ∉ targetAddresses holdings) : Owned m' pd holdings := by
  refine ⟨fun x member => ?_, owned.apart, owned.attached⟩
  apply released_chain released (owned.chains x member)
  intro a inside own
  exact apart a inside (List.mem_flatMap.mpr ⟨x, member, own⟩)

theorem owned_push {m : Memory NULL Target} {pd ptAt : Ptr} {holdings : List Holding}
    (owned : Owned m pd holdings) (fresh : m.Fresh ptAt) {t : Target} (ends : t.next = NULL) :
    Owned (m.put ptAt (some t) fresh.1) pd (holdings ++ [(ptAt, some pd, [(ptAt, t)])]) := by
  have outside : ptAt ∉ targetAddresses holdings := by
    intro member
    obtain ⟨x, inside, own⟩ := List.mem_flatMap.mp member
    exact fresh_outside (owned.chains x inside) fresh own
  refine ⟨?_, ?_, ?_⟩
  · intro x member
    rcases List.mem_append.mp member with old | new
    · exact segment_update_frame (owned.chains x old) _ fresh.1
        (fresh_outside (owned.chains x old) fresh)
    · obtain rfl := List.mem_singleton.mp new
      exact ⟨rfl, by simp, ends⟩
  · have concat : targetAddresses (holdings ++ [(ptAt, some pd, [(ptAt, t)])]) =
        targetAddresses holdings ++ [ptAt] := by
      simp [targetAddresses]
    rw [concat]
    exact List.nodup_append.mpr ⟨owned.apart, by simp, fun a member b new same =>
      outside (List.mem_singleton.mp new ▸ same ▸ member)⟩
  · intro x member
    rcases List.mem_append.mp member with old | new
    · exact owned.attached x old
    · obtain rfl := List.mem_singleton.mp new
      rfl

theorem uploadLoop_entries (p : Platform) {h : Heap} {pd pm : Ptr} {d : Device} {ip : CString}
    {entries : List Entry} {fuel : Nat} (held : h.device.cell pd = some d)
    (chain : Chain h.monitor Monitor.next pm (nodes entries))
    (owned : Owned h.target pd (entries.map holding)) (enough : entries.length < fuel) :
    uploadLoop p h ip fuel pm = documents p ip d.label (entries.map monitorData) := by
  induction entries generalizing pm fuel with
  | nil =>
    obtain ⟨f, rfl⟩ : ∃ f, fuel = f + 1 := ⟨fuel - 1, by omega⟩
    have atNull : pm = NULL := chain
    simp [uploadLoop, atNull, documents]
  | cons e rest ih =>
    obtain ⟨f, rfl⟩ : ∃ f, fuel = f + 1 := ⟨fuel - 1, by omega⟩
    obtain ⟨here, heldMonitor, tail⟩ := chain
    subst here
    have left : rest.length < f := by simpa using enough
    have later := @ih _ f tail (@owned_without _ pd (holding e) [] _ owned).1 left
    have targets : Chain h.target Target.next e.2.1.target e.2.2 :=
      owned.chains (holding e) (by simp)
    have own := targetsMakeXml_chain p targets (chain_length_lt targets)
    have attached : e.2.1.pd = some pd := owned.attached (holding e) (by simp)
    have label : deviceLabel h e.2.1 = .ok d.label := by
      simp [deviceLabel, attached, Memory.read_held held, bind, Except.bind, pure, Except.pure]
    simp only [uploadLoop, if_neg (Memory.address_ne_null heldMonitor),
      Memory.read_held heldMonitor, lift_ok, pure_bind, later, monitorToString, monitorMakeXml,
      own, label, documents, List.map_cons, List.mapM_cons, bind_assoc]
    rfl

theorem tracked_delivers {pd : Ptr} {ip device : CString} (s : ListState)
    (tracked : Tracked pd ip device s) : Delivers pd ip device s := by
  obtain ⟨outcome, monitors⟩ := s
  cases outcome with
  | error fault => exact tracked
  | ok h =>
    obtain ⟨d, entries, listed, rfl, rfl, rfl⟩ := tracked
    refine ⟨d, _, listed.held, listed.chain, ?_, by simpa [nodes] using listed.counted,
      by simp [nodes], ?_⟩
    · intro nonempty
      have tail := listed.tail (by simpa [nodes] using nonempty)
      rw [nodes, List.getLast?_map, Option.map_map]
      exact tail
    · intro p loads
      have notNull := Memory.address_ne_null listed.held
      have room := chain_length_lt listed.chain
      rw [nodes, List.length_map] at room
      simp only [upload, if_neg notNull, loads, Memory.read_held listed.held, lift_ok, pure_bind,
        uploadLoop_entries p listed.held listed.chain listed.owned room]
      rfl

theorem linked_release {h : Heap} {pd a : Ptr} {d : Device} {entries : List Entry} {m : Monitor}
    {cells : List (Ptr × Target)} (linked : Linked h pd d entries)
    (held : h.monitor.cell a = some m) (ends : m.next = NULL)
    (chain : Chain h.target Target.next m.target cells)
    (outside : a ∉ (nodes entries).map Prod.fst)
    (apart : ∀ x ∈ cells.map Prod.fst, x ∉ targetAddresses (entries.map holding)) :
    ∃ h', monitorDestory addressSpace h a = .ok h' ∧ Linked h' pd d entries ∧
      h'.monitor.cell a = none := by
  obtain ⟨target, run, released⟩ := monitorDestory_detached held ends chain
  refine ⟨_, run, ⟨linked.held, ?_, owned_released released linked.owned apart, linked.counted⟩,
    by simp⟩
  exact segment_update_frame linked.chain none (Memory.address_ne_null held) outside

theorem unlink_head {h : Heap} {pd a : Ptr} {d : Device} {m : Monitor}
    {cells : List (Ptr × Target)} {behind : List Entry}
    (linked : Linked h pd d ((a, m, cells) :: behind)) :
    ∃ h', unlinkMonitor h pd NULL a m = .ok h' ∧
      Linked h' pd { d with monitor := m.next, imonitor := d.imonitor - 1 } behind := by
  obtain ⟨heldDevice, chain, owned, counted⟩ := linked
  have outside := (List.nodup_cons.mp (chain_nodup chain)).1
  obtain ⟨_, held, tail⟩ := chain
  have notNull := Memory.address_ne_null held
  obtain ⟨ownedBehind, own, apart⟩ := @owned_without _ pd (holding (a, m, cells)) [] _ owned
  let d' : Device := { d with monitor := m.next, imonitor := d.imonitor - 1 }
  let cleared : Heap := ⟨h.target, h.monitor.put a (some { m with next := NULL }) notNull,
    h.device.put pd (some d') (Memory.address_ne_null heldDevice)⟩
  have rest : Linked cleared pd d' behind :=
    ⟨by simp [cleared], segment_update_frame tail _ notNull outside, ownedBehind,
      counter_down counted⟩
  obtain ⟨h', run, linked', _⟩ := @linked_release cleared pd a d' behind { m with next := NULL }
    cells rest (by simp [cleared]) rfl own outside apart
  exact ⟨h', (unlinkMonitor_head heldDevice held).trans run, linked'⟩

theorem unlink_inner {h : Heap} {pd a b : Ptr} {d : Device} {m mb : Monitor}
    {cells own : List (Ptr × Target)} {passed behind : List Entry}
    (linked : Linked h pd d (passed ++ (b, mb, own) :: (a, m, cells) :: behind)) :
    ∃ h', unlinkMonitor h pd b a m = .ok h' ∧
      Linked h' pd { d with imonitor := d.imonitor - 1 }
        (passed ++ (b, { mb with next := m.next }, own) :: behind) ∧
      h'.monitor.cell a = none := by
  obtain ⟨heldDevice, chain, owned, counted⟩ := linked
  have distinct := chain_nodup chain
  simp only [nodes, List.map_append, List.map_cons] at chain distinct
  have heldA : h.monitor.cell a = some m := segment_held chain (by simp)
  have heldB : h.monitor.cell b = some mb := segment_held chain (by simp)
  have neA := Memory.address_ne_null heldA
  have neB := Memory.address_ne_null heldB
  simp only [List.nodup_append, List.nodup_cons, List.mem_cons, not_or] at distinct
  obtain ⟨_, ⟨⟨notSame, _⟩, outsideBehind, _⟩, disjoint⟩ := distinct
  let entries' : List Entry := passed ++ (b, { mb with next := m.next }, own) :: behind
  have holdings : entries'.map holding =
      (passed ++ [(b, mb, own)]).map holding ++ behind.map holding := by
    simp [entries', holding]
  have regrouped : (passed ++ (b, mb, own) :: (a, m, cells) :: behind).map holding =
      (passed ++ [(b, mb, own)]).map holding ++ holding (a, m, cells) :: behind.map holding := by
    simp
  rw [regrouped] at owned
  obtain ⟨ownedRest, ownA, apart⟩ := owned_without owned
  rw [← holdings] at ownedRest apart
  have outside : a ∉ (nodes entries').map Prod.fst := by
    simp only [entries', nodes, List.map_append, List.map_cons, List.mem_append, List.mem_cons,
      not_or]
    exact ⟨fun member => disjoint a member a (by simp) rfl, Ne.symm notSame, outsideBehind⟩
  let d' : Device := { d with imonitor := d.imonitor - 1 }
  let bypass := h.monitor.put b (some { mb with next := m.next }) neB
  let cleared : Heap := ⟨h.target, bypass.put a (some { m with next := NULL }) neA,
    h.device.put pd (some d') (Memory.address_ne_null heldDevice)⟩
  have keptA : bypass.cell a = some m := by
    simp [bypass, Function.update_of_ne (Ne.symm notSame), heldA]
  have bypassed : Chain bypass Monitor.next d.monitor (nodes entries') := by
    simpa only [entries', nodes, List.map_append, List.map_cons] using
      chain_bypass chain { mb with next := m.next } neB rfl
  have counted' : d'.imonitor.toNat = entries'.length := by
    apply counter_down
    simp only [entries', List.length_append, List.length_cons] at counted ⊢
    omega
  have rest : Linked cleared pd d' entries' :=
    ⟨by simp [cleared], segment_update_frame bypassed _ neA outside, ownedRest, counted'⟩
  obtain ⟨h', run, linked', freed⟩ := @linked_release cleared pd a d' _ { m with next := NULL }
    cells rest (by simp [cleared]) rfl ownA outside apart
  exact ⟨h', (unlinkMonitor_inner heldDevice heldB keptA).trans run, linked', freed⟩

theorem linked_not_null {h : Heap} {pd : Ptr} {d : Device} {entries : List Entry}
    (linked : Linked h pd d entries) : pd ≠ NULL :=
  Memory.address_ne_null linked.held

theorem del_none {h : Heap} {pd : Ptr} {d : Device} {entries : List Entry}
    (linked : Linked h pd d entries) {label : CString}
    (others : ∀ e ∈ entries, e.2.1.label ≠ label) :
    deviceDelMonitor h pd (some label) = .ok (0, h) := by
  have run : delMonitorLoop pd label h NULL d.monitor = .ok h := by
    refine search_misses linked.chain (fun cell member => ?_) (chain_length_lt linked.chain)
    obtain ⟨e, inside, rfl⟩ := List.mem_map.mp member
    exact strcmp_differs (others e inside)
  simp [deviceDelMonitor, linked_not_null linked, bind, Except.bind,
    Memory.read_held linked.held, run]

theorem del_match {h : Heap} {pd a : Ptr} {d : Device} {m : Monitor}
    {cells : List (Ptr × Target)} {passed behind : List Entry} {label : CString}
    (linked : Linked h pd d (passed ++ (a, m, cells) :: behind))
    (passes : ∀ e ∈ passed, e.2.1.label ≠ label) (found : m.label = label) {h' : Heap}
    (run : unlinkMonitor h pd (addressBefore NULL (nodes passed)) a m = .ok h') :
    deviceDelMonitor h pd (some label) = .ok (0, h') := by
  have chain := linked.chain
  have room := chain_length_lt chain
  simp only [nodes, List.map_append, List.map_cons, List.length_append] at chain room
  have loop : delMonitorLoop pd label h NULL d.monitor =
      unlinkMonitor h pd (addressBefore NULL (nodes passed)) a m := by
    refine search_hits chain (fun cell member => ?_) (strcmp_same found)
      (Nat.lt_of_le_of_lt (Nat.le_add_right _ _) room)
    obtain ⟨e, inside, rfl⟩ := List.mem_map.mp member
    exact strcmp_differs (passes e inside)
  simp [deviceDelMonitor, linked_not_null linked, bind, Except.bind,
    Memory.read_held linked.held, loop, run]

theorem del_relists {h : Heap} {pd a : Ptr} {d : Device} {m : Monitor}
    {cells : List (Ptr × Target)} {passed behind : List Entry} {label : CString}
    (listed : Listed h pd d (passed ++ (a, m, cells) :: behind))
    (passes : ∀ e ∈ passed, e.2.1.label ≠ label) (found : m.label = label)
    (safe : passed = [] ∨ behind ≠ []) :
    ∃ h' d' entries, deviceDelMonitor h pd (some label) = .ok (0, h') ∧
      Listed h' pd d' entries ∧ d'.ip = d.ip ∧ d'.label = d.label ∧
      entries.map unlinked = (passed ++ behind).map unlinked := by
  rcases List.eq_nil_or_concat' passed with rfl | ⟨front, ⟨b, mb, own⟩, rfl⟩
  · obtain ⟨h', run, linked⟩ := unlink_head listed.toLinked
    refine ⟨h', _, behind, del_match listed.toLinked passes found run, ⟨linked, ?_⟩, rfl, rfl, rfl⟩
    intro more
    have tail := listed.tail (by simp)
    rwa [List.nil_append, List.getLast?_cons_of_ne_nil more] at tail
  · have more : behind ≠ [] := by simpa using safe
    have linked := listed.toLinked
    rw [List.append_assoc, List.singleton_append] at linked
    obtain ⟨h', run, linked', _⟩ := unlink_inner linked
    have predecessor : addressBefore NULL (nodes (front ++ [(b, mb, own)])) = b := by
      simp only [nodes, List.map_append, List.map_cons, List.map_nil]
      exact addressBefore_concat ..
    refine ⟨h', _, _, del_match listed.toLinked passes found (by rw [predecessor]; exact run),
      ⟨linked', ?_⟩, rfl, rfl, by simp [unlinked]⟩
    intro _
    have tail := listed.tail (by simp)
    rw [List.getLast?_append_of_ne_nil _ (by simp), List.getLast?_cons_of_ne_nil more] at tail
    rw [List.getLast?_append_of_ne_nil _ (by simp), List.getLast?_cons_of_ne_nil more]
    exact tail

theorem del_last_dangles {h : Heap} {pd a : Ptr} {d : Device} {m : Monitor}
    {cells : List (Ptr × Target)} {passed : List Entry} {label : CString}
    (listed : Listed h pd d (passed ++ [(a, m, cells)]))
    (passes : ∀ e ∈ passed, e.2.1.label ≠ label) (found : m.label = label)
    (several : passed ≠ []) :
    ∃ h' d' entries, deviceDelMonitor h pd (some label) = .ok (0, h') ∧
      Linked h' pd d' entries ∧ entries ≠ [] ∧ h'.monitor.cell d'.curmon = none := by
  rcases List.eq_nil_or_concat' passed with rfl | ⟨front, ⟨b, mb, own⟩, rfl⟩
  · exact (several rfl).elim
  · have linked := listed.toLinked
    simp only [List.append_assoc, List.cons_append, List.nil_append] at linked
    obtain ⟨h', run, linked', freed⟩ := unlink_inner linked
    have predecessor : addressBefore NULL (nodes (front ++ [(b, mb, own)])) = b := by
      simp only [nodes, List.map_append, List.map_cons, List.map_nil]
      exact addressBefore_concat ..
    refine ⟨h', _, _, del_match listed.toLinked passes found (by rw [predecessor]; exact run),
      linked', by simp, ?_⟩
    have tail := listed.tail (by simp)
    have same : a = d.curmon := by simpa using tail
    exact same ▸ freed

theorem dangling_not_delivers {h : Heap} {pd : Ptr} {ip device : CString} {d : Device}
    {entries : List Entry} {monitors : List MonitorData} (linked : Linked h pd d entries)
    (nonempty : entries ≠ []) (dangles : h.monitor.cell d.curmon = none) :
    ¬ Delivers pd ip device (.ok h, monitors) := by
  rintro ⟨d', cells, held, chain, tail, _⟩
  obtain rfl : d = d' := Option.some.inj (linked.held.symm.trans held)
  obtain rfl : nodes entries = cells := chain_unique linked.chain chain
  rcases List.eq_nil_or_concat' (nodes entries) with none | ⟨front, ⟨a, m⟩, split⟩
  · exact nonempty (List.map_eq_nil_iff.mp none)
  · rw [split] at tail chain
    have same : a = d.curmon := by simpa using tail (by simp)
    have live : h.monitor.cell a = some m := segment_held chain (by simp)
    rw [same, dangles] at live
    cases live

def attached (pd ptAt : Ptr) (label : CString) (stat : Int) : Monitor :=
  { newMonitor ptAt label stat with pd := some pd }

def freshEntry (pd pmAt ptAt : Ptr) (label : CString) (stat : Int) : Entry :=
  (pmAt, attached pd ptAt label stat, match status stat with
    | .ok value => [(ptAt, statusTarget pmAt value)]
    | .error _ => [])

theorem add_lists {h : Heap} {pd pmAt ptAt : Ptr} {d : Device} {entries : List Entry}
    {label value : CString} {stat : Int} (listed : Listed h pd d entries)
    (freshMonitor : h.monitor.Fresh pmAt) (freshTarget : h.target.Fresh ptAt)
    (shown : status stat = .ok value) :
    ∃ h' d' entries', runCall pd h (.add pmAt ptAt (some label) stat) = .ok h' ∧
      Listed h' pd d' entries' ∧ d'.ip = d.ip ∧ d'.label = d.label ∧
      entries'.map unlinked =
        (entries ++ [freshEntry pd pmAt ptAt label stat]).map unlinked := by
  rw [freshEntry, shown]
  have linked := listed.toLinked
  have owned := @owned_push _ pd ptAt _ linked.owned freshTarget (statusTarget pmAt value) rfl
  let added : Entry := (pmAt, attached pd ptAt label stat, [(ptAt, statusTarget pmAt value)])
  let d' : Device := { d with curmon := pmAt, imonitor := d.imonitor + 1 }
  let target := h.target.put ptAt (some (statusTarget pmAt value)) freshTarget.1
  let monitor := h.monitor.put pmAt (some (attached pd ptAt label stat)) freshMonitor.1
  let made : Heap := ⟨target, h.monitor.put pmAt (some (newMonitor ptAt label stat))
    freshMonitor.1, h.device⟩
  have created (m : Monitor) : (h.monitor.put pmAt (some m) freshMonitor.1).cell pmAt = some m := by
    simp
  rcases List.eq_nil_or_concat' entries with rfl | ⟨front, ⟨c, mc, own⟩, rfl⟩
  · have atNull : d.monitor = NULL := linked.chain
    let device := h.device.put pd (some { d' with monitor := pmAt }) (linked_not_null linked)
    refine ⟨⟨target, monitor, device⟩, { d' with monitor := pmAt }, [added], ?_,
      ⟨⟨by simp [device], ⟨rfl, created _, rfl⟩, owned, ?_⟩, fun _ => rfl⟩, rfl, rfl, rfl⟩
    · have run := @deviceAddMonitor_first made pd pmAt d _ linked.held (created _) atNull
      simp only [made, target, Memory.put_put] at run
      simp only [runCall, monitorNew_fresh label freshMonitor freshTarget shown, bind, Except.bind,
        run]
      rfl
    · exact counter_up linked.counted (by decide)
  · have same : c = d.curmon := by simpa using listed.tail (by simp)
    subst c
    have chain := linked.chain
    have counted := linked.counted
    simp only [nodes, List.map_append, List.map_cons, List.map_nil] at chain
    have nonempty := chain_filled chain (by simp)
    have heldCur : h.monitor.cell d.curmon = some mc := segment_held chain (by simp)
    have curmonApart := Memory.fresh_ne freshMonitor heldCur
    have keptCur (m : Monitor) :
        (h.monitor.put pmAt (some m) freshMonitor.1).cell d.curmon = some mc := by
      simp [Function.update_of_ne curmonApart, heldCur]
    have pushed := chain_push chain freshMonitor (attached pd ptAt label stat)
      { mc with next := pmAt } (Memory.address_ne_null heldCur) rfl rfl
    have room := chain_length_lt pushed
    simp only [List.length_append, List.length_cons, List.length_nil, List.length_map]
      at counted room
    let device := h.device.put pd (some d') (linked_not_null linked)
    refine ⟨⟨target, monitor.put d.curmon (some { mc with next := pmAt })
        (Memory.address_ne_null heldCur), device⟩, d',
      front ++ [(d.curmon, { mc with next := pmAt }, own), added], ?_,
      ⟨⟨by simp [device], ?_, ?_, ?_⟩, ?_⟩, rfl, rfl, ?_⟩
    · have run := @deviceAddMonitor_behind made pd pmAt d _ mc linked.held (created _) nonempty
        (by simp only [made, Memory.put_put]; exact keptCur _)
      simp only [made, target, Memory.put_put] at run
      simp only [runCall, monitorNew_fresh label freshMonitor freshTarget shown, bind, Except.bind,
        run]
      rfl
    · simpa [nodes, added] using pushed
    · simpa [holding, added, attached, newMonitor] using owned
    · simp only [List.length_append, List.length_cons, List.length_nil]
      exact counter_up counted room
    · simp [added, d']
    · simp [unlinked, added, attached, newMonitor]

theorem runCall_del {h h' : Heap} {pd : Ptr} {label : CString}
    (run : deviceDelMonitor h pd (some label) = .ok (0, h')) :
    runCall pd h (.del (some label)) = .ok h' := by
  simp [runCall, run, Except.map]

/-- The list of the entries behind a call, but for the links of their monitors. -/
def relisted (pd : Ptr) (entries : List Entry) : ListCall → List Entry
  | .add pmAt ptAt (some label) stat => entries ++ [freshEntry pd pmAt ptAt label stat]
  | .del (some label) => entries.eraseP (·.2.1.label = label)
  | _ => entries

theorem relisted_data (pd : Ptr) (entries : List Entry) (call : ListCall) :
    (relisted pd entries call).map monitorData = enlisted (entries.map monitorData) call := by
  rcases call with ⟨pmAt, ptAt, _ | label, stat⟩ | _ | label
  · rfl
  · cases shown : status stat <;>
      simp [relisted, enlisted, monitorData, freshEntry, freshMonitor, attached, newMonitor,
        statusData, statusTarget, data, shown]
  · rfl
  · rw [relisted, enlisted, List.eraseP_map]
    rfl

/-- One call on a list whose `_curmon` is its last monitor. -/
theorem runCall_relists {h : Heap} {pd : Ptr} {d : Device} {entries : List Entry} {call : ListCall}
    (listed : Listed h pd d entries) (succeeds : NewSucceeds h call)
    (allowed : ¬ RemovesLast (entries.map monitorData) call) :
    ∃ h' d' entries', runCall pd h call = .ok h' ∧ Listed h' pd d' entries' ∧ d'.ip = d.ip ∧
      d'.label = d.label ∧ entries'.map unlinked = (relisted pd entries call).map unlinked := by
  rcases call with ⟨pmAt, ptAt, _ | label, stat⟩ | _ | label
  · -- without a label there is no monitor to add and none to find
    exact ⟨h, d, entries, by simp [runCall, monitorNew, deviceAddMonitor, bind, Except.bind,
      Except.map], listed, rfl, rfl, rfl⟩
  · obtain ⟨freshMonitor, freshTarget, value, shown⟩ := succeeds
    exact add_lists listed freshMonitor freshTarget shown
  · exact ⟨h, d, entries, by simp [runCall, deviceDelMonitor, Except.map], listed, rfl, rfl, rfl⟩
  · rcases erase_cases entries (·.2.1.label = label) with
      ⟨misses, same⟩ | ⟨passed, ⟨a, m, cells⟩, behind, rfl, found, others, erased⟩
    · simp only [decide_eq_false_iff_not] at misses
      exact ⟨h, d, entries, runCall_del (del_none listed.toLinked misses), listed, rfl, rfl,
        by rw [relisted, same]⟩
    · simp only [decide_eq_true_eq, decide_eq_false_iff_not] at found others
      have safe : passed = [] ∨ behind ≠ [] := by
        by_contra last
        simp only [not_or, not_not] at last
        obtain ⟨nonempty, rfl⟩ := last
        refine allowed ⟨passed.map monitorData, monitorData (a, m, cells), by simp, by simpa,
          found, fun other member => ?_⟩
        obtain ⟨e, inside, rfl⟩ := List.mem_map.mp member
        exact others e inside
      obtain ⟨h', d', entries', run, listed', keptIp, keptLabel, listing⟩ :=
        del_relists listed others found safe
      exact ⟨h', d', entries', runCall_del run, listed', keptIp, keptLabel,
        by rw [relisted, erased, listing]⟩

theorem entries_at_match {entries : List Entry} {t : MonitorData} {before after : List MonitorData}
    {label : CString} (listing : entries.map monitorData = before ++ t :: after)
    (others : ∀ other ∈ before, other.label ≠ label) (found : t.label = label) :
    ∃ passed a m cells behind, entries = passed ++ (a, m, cells) :: behind ∧
      passed.map monitorData = before ∧ behind.map monitorData = after ∧
      (∀ e ∈ passed, e.2.1.label ≠ label) ∧ m.label = label := by
  obtain ⟨passed, rest, rfl, passedData, restData⟩ := List.map_eq_append_iff.mp listing
  obtain ⟨⟨a, m, cells⟩, behind, rfl, foundData, behindData⟩ := List.map_eq_cons_iff.mp restData
  refine ⟨passed, a, m, cells, behind, rfl, passedData, behindData, ?_, ?_⟩
  · intro e member
    exact others (monitorData e) (passedData ▸ List.mem_map.mpr ⟨e, member, rfl⟩)
  · exact (congrArg MonitorData.label foundData).trans found

theorem listStep_keeps {pd : Ptr} {ip device : CString} (s : ListState) (call : ListCall)
    (t : ListState) (allowed : ¬ RemovesLast s.2 call) (taken : listStep pd s call t)
    (tracked : Tracked pd ip device s) : Tracked pd ip device t := by
  obtain ⟨outcome, monitors⟩ := s
  cases outcome with
  | error fault => exact taken.elim
  | ok h =>
    obtain ⟨succeeds, rfl⟩ := taken
    change Tracked pd ip device (runCall pd h call, enlisted monitors call)
    obtain ⟨d, entries, listed, sameIp, sameLabel, rfl⟩ := tracked
    obtain ⟨h', d', entries', run, listed', keptIp, keptLabel, listing⟩ :=
      runCall_relists listed succeeds allowed
    rw [run]
    refine ⟨d', entries', listed', keptIp.trans sameIp, keptLabel.trans sameLabel, ?_⟩
    rw [← data_unlinked, listing, data_unlinked, relisted_data]

theorem listStep_breaks {pd : Ptr} {ip device : CString} (s : ListState) (call : ListCall)
    (t : ListState) (refused : ¬ ¬ RemovesLast s.2 call) (taken : listStep pd s call t)
    (tracked : Tracked pd ip device s) : ¬ Delivers pd ip device t := by
  have removes := not_not.mp refused
  obtain ⟨outcome, monitors⟩ := s
  cases outcome with
  | error fault => exact taken.elim
  | ok h =>
    obtain ⟨_, rfl⟩ := taken
    change ¬ Delivers pd ip device (runCall pd h call, enlisted monitors call)
    obtain ⟨d, entries, listed, _, _, listing⟩ := tracked
    rcases call with ⟨pmAt, ptAt, label, stat⟩ | _ | label
    · exact removes.elim
    · exact removes.elim
    · obtain ⟨before, last, rfl, several, found, others⟩ := removes
      obtain ⟨passed, a, m, cells, behind, rfl, passedData, noneBehind, passes, foundMonitor⟩ :=
        entries_at_match listing others found
      obtain rfl : behind = [] := List.map_eq_nil_iff.mp noneBehind
      have nonempty : passed ≠ [] := by
        rintro rfl
        exact several passedData.symm
      obtain ⟨h', d', entries', run, linked, more, dangles⟩ :=
        del_last_dangles listed passes foundMonitor nonempty
      rw [runCall_del run]
      exact dangling_not_delivers linked more dangles

theorem new_tracked {h h0 : Heap} {pdAt pd : Ptr} {ip label : CString}
    (made : deviceNew h pdAt (some ip) (some label) = .ok (h0, pd)) :
    Tracked pd ip label (.ok h0, []) := by
  let d : Device := { label, ip, monitor := NULL, curmon := NULL, imonitor := 0 }
  cases allocated : h.device.malloc pdAt d with
  | error fault => simp [deviceNew, bind, Except.bind, allocated, d] at made
  | ok device =>
    simp only [deviceNew, bind, Except.bind, allocated, d, Except.ok.injEq, Prod.mk.injEq] at made
    obtain ⟨rfl, rfl⟩ := made
    obtain ⟨fresh, rfl⟩ := Memory.malloc_ok allocated
    refine ⟨d, [], ⟨⟨by simp, rfl, ⟨?_, List.nodup_nil, ?_⟩, rfl⟩, fun more => absurd rfl more⟩,
      rfl, rfl, rfl⟩
    · intro x member
      cases member
    · intro x member
      cases member

/-- In a run from `device_new` the list keeps its shape and every upload delivers the
    listed monitors exactly when no call removes the last of two or more monitors. -/
theorem monitor_list_delivers_iff {h h0 : Heap} {pdAt pd : Ptr} {ip label : CString}
    {path : List (ListCall × ListState)}
    (made : deviceNew h pdAt (some ip) (some label) = .ok (h0, pd))
    (valid : Path (listStep pd) (.ok h0, []) path) :
    (∀ u ∈ visited (.ok h0, []) path, Delivers pd ip label u) ↔
      StepsMeet (fun s call => ¬ RemovesLast s.2 call) (.ok h0, []) path :=
  visited_good_iff tracked_delivers listStep_keeps listStep_breaks (new_tracked made) valid

def newA : ListCall := .add 16 32 (some labelA) 0

def newB : ListCall := .add 48 64 (some labelB) 0

/-- Monitors a and b are added and a is deleted again. -/
theorem monitor_list_after_head_delete :
    ∃ h0, deviceNew Heap.empty 8 (some labelA) (some labelB) = .ok (h0, 8) ∧
      ∀ u ∈ visited (.ok h0, [])
          (trace (advanceList 8) (.ok h0, []) [newA, newB, .del (some labelA)]),
        Delivers 8 labelA labelB u := by
  refine ⟨_, rfl, ?_⟩
  refine (@monitor_list_delivers_iff Heap.empty _ 8 8 labelA labelB
    (trace (advanceList 8) (.ok _, []) [newA, newB, .del (some labelA)]) rfl
    ⟨⟨⟨⟨by decide, rfl⟩, ⟨by decide, rfl⟩, _, rfl⟩, rfl⟩,
      ⟨⟨⟨by decide, rfl⟩, ⟨by decide, rfl⟩, _, rfl⟩, rfl⟩, ⟨trivial, rfl⟩, trivial⟩).mpr
    ⟨not_false, not_false, ?_, trivial⟩
  rintro ⟨before, m, split, _, found, _⟩
  have last : some labelB = (before ++ [m]).getLast?.map MonitorData.label :=
    congrArg (fun monitors : List MonitorData => monitors.getLast?.map MonitorData.label) split
  have same : labelB = m.label := by simpa using last
  exact absurd (same.trans found) (by decide)

/-- Monitors a and b are added and b is deleted: `_curmon` is not the remaining monitor. -/
theorem deleting_the_last_of_two_breaks_the_list : ∃ h0 h1 h2 h3 remaining,
    deviceNew Heap.empty 8 (some labelA) (some labelB) = .ok (h0, 8) ∧
    runCall 8 h0 newA = .ok h1 ∧ runCall 8 h1 newB = .ok h2 ∧
    runCall 8 h2 (.del (some labelB)) = .ok h3 ∧
    enlisted (enlisted (enlisted [] newA) newB) (.del (some labelB)) = [remaining] ∧
    ¬ Delivers 8 labelA labelB (.ok h3, [remaining]) := by
  refine ⟨_, _, _, _, _, rfl, rfl, rfl, rfl, rfl, ?_⟩
  rintro ⟨d, cells, held, chain, tail, _, length, _⟩
  have head : some (16 : Ptr) = some d.monitor := congrArg (Option.map Device.monitor) held
  have curmon : some (48 : Ptr) = some d.curmon := congrArg (Option.map Device.curmon) held
  obtain ⟨⟨a, m⟩, rfl⟩ := List.length_eq_one_iff.mp length
  have first : d.monitor = a := chain.1
  have last : a = d.curmon := by simpa using tail (by simp)
  rw [← first, ← Option.some.inj head, ← Option.some.inj curmon] at last
  exact absurd last (by decide)

end DeviceMonitors
