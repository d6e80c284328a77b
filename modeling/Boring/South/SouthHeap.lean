import Boring.Library.LinkedCells

/- The structures of southxml.h and the list operations of south.cpp. Each struct type
   has its own typed memory; a pointer is a 32-bit address, as in the Win32 build.
   Addresses that `malloc` returns are arguments, so any allocator is covered. -/
namespace SouthHeap
open LinkedCells

abbrev Ptr := UInt32

def NULL : Ptr := 0

/-- A walk along `_next` that takes more steps than there are addresses never ends. -/
def addressSpace : Nat := UInt32.size

structure CString where
  bytes : List UInt8
  terminated : 0 ∉ bytes
  deriving DecidableEq

def strcmp : List UInt8 → List UInt8 → Int
  | [], [] => 0
  | [], y :: _ => -y.toNat
  | x :: _, [] => x.toNat
  | x :: xs, y :: ys => if x = y then strcmp xs ys else (x.toNat : Int) - y.toNat

theorem byte_toNat_pos {b : UInt8} (nonzero : b ≠ 0) : 0 < b.toNat := by
  apply Nat.pos_of_ne_zero
  intro zero
  exact nonzero (UInt8.toNat_inj.mp zero)

theorem strcmp_zero_iff (s t : CString) : strcmp s.bytes t.bytes = 0 ↔ s = t := by
  obtain ⟨xs, hx⟩ := s
  obtain ⟨ys, hy⟩ := t
  simp only [CString.mk.injEq]
  induction xs generalizing ys with
  | nil =>
    cases ys with
    | nil => simp [strcmp]
    | cons y ys =>
      have := byte_toNat_pos (b := y) (by rintro rfl; simp at hy)
      simp only [strcmp, List.nil_eq, reduceCtorEq, iff_false]
      omega
  | cons x xs ih =>
    cases ys with
    | nil =>
      have := byte_toNat_pos (b := x) (by rintro rfl; simp at hx)
      simp only [strcmp, reduceCtorEq, iff_false]
      omega
    | cons y ys =>
      simp only [List.mem_cons, not_or] at hx hy
      simp only [strcmp, List.cons.injEq]
      split
      · rename_i same
        simpa [same] using ih hx.2 ys hy.2
      · rename_i differs
        simp only [differs, false_and, iff_false]
        intro equal
        exact differs (UInt8.toNat_inj.mp (by omega))

theorem strcmp_same {s t : CString} (same : s = t) :
    decide (strcmp s.bytes t.bytes = 0) = true :=
  decide_eq_true ((strcmp_zero_iff s t).mpr same)

theorem strcmp_differs {s t : CString} (differs : s ≠ t) :
    decide (strcmp s.bytes t.bytes = 0) = false :=
  decide_eq_false fun zero => differs ((strcmp_zero_iff s t).mp zero)

structure Target where
  label : CString
  unit : Option CString
  type : Int
  value : CString
  next : Ptr
  pm : Ptr

/-- `pd` is none until `device_add_monitor` fills it: `monitor_new` leaves it unset. -/
structure Monitor where
  stat : Int
  label : CString
  target : Ptr
  cru : Ptr
  itarget : UInt32
  next : Ptr
  pd : Option Ptr

structure Device where
  label : CString
  ip : CString
  monitor : Ptr
  curmon : Ptr
  imonitor : UInt32

structure Heap where
  target : Memory NULL Target
  monitor : Memory NULL Monitor
  device : Memory NULL Device

def Heap.empty : Heap := ⟨Memory.empty, Memory.empty, Memory.empty⟩

def DATA_TYPE_INT32 : Int := 1

/-- 工作状态, in the GBK encoding of the source file. -/
def XML_PROP_VALUE_WORK_STATUS : CString :=
  ⟨[0xb9, 0xa4, 0xd7, 0xf7, 0xd7, 0xb4, 0xcc, 0xac], by decide⟩

def status : Int → Except Fault CString
  | 0 => .ok ⟨[48], by decide⟩
  | 1 => .ok ⟨[49], by decide⟩
  | 2 => .ok ⟨[50], by decide⟩
  | _ => .error .outOfBounds

def targetDestroy : Nat → Heap → Ptr → Except Fault Heap
  | 0, _, _ => .error .endlessLoop
  | fuel + 1, h, pt =>
    if pt = NULL then .ok h
    else do
      let temp ← h.target.read pt
      let h ← targetDestroy fuel h temp.next
      let target ← h.target.free pt
      .ok { h with target }

def statusTarget (pm : Ptr) (value : CString) : Target :=
  { label := XML_PROP_VALUE_WORK_STATUS, unit := none, type := DATA_TYPE_INT32, value,
    next := NULL, pm }

def newMonitor (pt : Ptr) (label : CString) (stat : Int) : Monitor :=
  { stat, label, target := pt, cru := pt, itarget := 1, next := NULL, pd := none }

def monitorNew (h : Heap) (pmAt ptAt : Ptr) (label : Option CString) (stat : Int) :
    Except Fault (Heap × Ptr) :=
  match label with
  | none => .ok (h, NULL)
  | some label => do
    let value ← status stat
    let monitor ← h.monitor.malloc pmAt (newMonitor ptAt label stat)
    let target ← h.target.malloc ptAt (statusTarget pmAt value)
    .ok ({ h with target, monitor }, pmAt)

def monitorAddTarget (h : Heap) (pm ptAt : Ptr) (label value unit : Option CString)
    (type : Int) : Except Fault (Int × Heap) :=
  if pm = NULL then .ok (-1, h)
  else match label, value, unit with
  | some label, some value, some unit => do
    let target ← h.target.malloc ptAt { label, unit := some unit, type, value, next := NULL, pm }
    let m ← h.monitor.read pm
    let cru ← target.read m.cru
    let target ← target.write m.cru { cru with next := ptAt }
    let monitor ← h.monitor.write pm { m with cru := ptAt, itarget := m.itarget + 1 }
    .ok (0, { h with target, monitor })
  | _, _, _ => .ok (-1, h)

/-- The branch of `monitor_del_target` that found the label in `t`, stored at `pt`. -/
def unlinkTarget (h : Heap) (pm ptemp pt : Ptr) (t : Target) : Except Fault Heap := do
  let prev ← h.target.read ptemp
  let target ← h.target.write ptemp { prev with next := t.next }
  let target ← target.write pt { t with next := NULL }
  let m ← h.monitor.read pm
  let monitor ← h.monitor.write pm { m with itarget := m.itarget - 1 }
  targetDestroy addressSpace { h with target, monitor } pt

def delTargetLoop (pm : Ptr) (label : CString) (h : Heap) (ptemp pt : Ptr) : Except Fault Heap :=
  search h.target Target.next (fun t => strcmp t.label.bytes label.bytes = 0)
    (unlinkTarget h pm) h addressSpace ptemp pt

def monitorDelTarget (h : Heap) (pm : Ptr) (label : Option CString) :
    Except Fault (Int × Heap) :=
  if pm = NULL then .ok (-1, h)
  else match label with
  | none => .ok (-1, h)
  | some label => do
    let m ← h.monitor.read pm
    let first ← h.target.read m.target
    let h ← delTargetLoop pm label h m.target first.next
    .ok (0, h)

/-- memcpy of one character over the first one. An empty text would lose its terminator. -/
def copyFirst : CString → CString → Except Fault CString
  | ⟨_ :: rest, kept⟩, ⟨c :: _, given⟩ => .ok ⟨c :: rest, by simp_all⟩
  | _, ⟨[], _⟩ => .ok ⟨[], by simp⟩
  | ⟨[], _⟩, ⟨_ :: _, _⟩ => .error .outOfBounds

def monitorSetStat (h : Heap) (pm : Ptr) (stat : Int) : Except Fault (Int × Heap) :=
  if pm = NULL then .ok (-1, h)
  else do
    let m ← h.monitor.read pm
    let first ← h.target.read m.target
    let text ← status stat
    let value ← copyFirst first.value text
    let target ← h.target.write m.target { first with value }
    .ok (0, { h with target })

def monitorDestory : Nat → Heap → Ptr → Except Fault Heap
  | 0, _, _ => .error .endlessLoop
  | fuel + 1, h, pm =>
    if pm = NULL then .ok h
    else do
      let temp ← h.monitor.read pm
      let h ← monitorDestory fuel h temp.next
      let h ← targetDestroy addressSpace h temp.target
      let monitor ← h.monitor.free pm
      .ok { h with monitor }

def deviceNew (h : Heap) (pdAt : Ptr) (ip label : Option CString) :
    Except Fault (Heap × Ptr) :=
  match ip, label with
  | some ip, some label => do
    let device ← h.device.malloc pdAt
      { label, ip, monitor := NULL, curmon := NULL, imonitor := 0 }
    .ok ({ h with device }, pdAt)
  | _, _ => .ok (h, NULL)

def deviceAddMonitor (h : Heap) (pd pm : Ptr) : Except Fault (Int × Heap) :=
  if pd = NULL ∨ pm = NULL then .ok (-1, h)
  else do
    let m ← h.monitor.read pm
    let monitor ← h.monitor.write pm { m with pd := some pd }
    let d ← h.device.read pd
    if d.monitor = NULL then do
      let device ← h.device.write pd
        { d with monitor := pm, curmon := pm, imonitor := d.imonitor + 1 }
      .ok (0, { h with monitor, device })
    else do
      let cur ← monitor.read d.curmon
      let monitor ← monitor.write d.curmon { cur with next := pm }
      let device ← h.device.write pd { d with curmon := pm, imonitor := d.imonitor + 1 }
      .ok (0, { h with monitor, device })

/-- The branch of `device_del_monitor` that found the label in `m`, stored at `pm`;
    `ptemp` is NULL when `pm` is the head of the list. -/
def unlinkMonitor (h : Heap) (pd ptemp pm : Ptr) (m : Monitor) : Except Fault Heap := do
  let d ← h.device.read pd
  if ptemp = NULL then do
    let device ← h.device.write pd { d with monitor := m.next, imonitor := d.imonitor - 1 }
    let monitor ← h.monitor.write pm { m with next := NULL }
    monitorDestory addressSpace { h with monitor, device } pm
  else do
    let prev ← h.monitor.read ptemp
    let monitor ← h.monitor.write ptemp { prev with next := m.next }
    let device ← h.device.write pd { d with imonitor := d.imonitor - 1 }
    let monitor ← monitor.write pm { m with next := NULL }
    monitorDestory addressSpace { h with monitor, device } pm

def delMonitorLoop (pd : Ptr) (label : CString) (h : Heap) (ptemp pm : Ptr) : Except Fault Heap :=
  search h.monitor Monitor.next (fun m => strcmp m.label.bytes label.bytes = 0)
    (unlinkMonitor h pd) h addressSpace ptemp pm

def deviceDelMonitor (h : Heap) (pd : Ptr) (label : Option CString) :
    Except Fault (Int × Heap) :=
  if pd = NULL then .ok (-1, h)
  else match label with
  | none => .ok (-1, h)
  | some label => do
    let d ← h.device.read pd
    let h ← delMonitorLoop pd label h NULL d.monitor
    .ok (0, h)

def deviceDestory (h : Heap) (pd : Ptr) : Except Fault Heap :=
  if pd = NULL then .ok h
  else do
    let temp ← h.device.read pd
    let h ← monitorDestory addressSpace h temp.monitor
    let device ← h.device.free pd
    .ok { h with device }

/-- A chain of non-null 32-bit addresses is shorter than the address space, so no
    counter of its cells wraps and no walk along it runs out of steps. -/
theorem chain_length_lt {Cell : Type} {m : Memory NULL Cell} {next : Cell → Ptr} {p : Ptr}
    {cells : List (Ptr × Cell)} (chain : Chain m next p cells) :
    cells.length < addressSpace := by
  have whole : ((NULL :: cells.map Prod.fst).map UInt32.toNat).Nodup := by
    apply List.Nodup.map (fun _ _ => UInt32.toNat_inj.mp)
    exact List.nodup_cons.mpr ⟨chain_addresses_not_null chain, chain_nodup chain⟩
  have inside : (NULL :: cells.map Prod.fst).map UInt32.toNat ⊆ List.range addressSpace := by
    intro n member
    obtain ⟨a, _, rfl⟩ := List.mem_map.mp member
    exact List.mem_range.mpr a.toNat_lt
  have bounded := whole.length_le_of_subset inside
  simp only [List.length_map, List.length_cons, List.length_range] at bounded
  omega

theorem counter_up {n : UInt32} {length : Nat} (counted : n.toNat = length)
    (room : length + 1 < addressSpace) : (n + 1).toNat = length + 1 := by
  rw [UInt32.toNat_add, counted]
  exact Nat.mod_eq_of_lt room

theorem counter_down {n : UInt32} {length : Nat} (counted : n.toNat = length + 1) :
    (n - 1).toNat = length := by
  have positive : (1 : UInt32) ≤ n := by
    rw [UInt32.le_iff_toNat_le, counted]
    simp
  rw [UInt32.toNat_sub_of_le _ _ positive, counted]
  simp

section Calls

variable {h : Heap} {pd pm : Ptr} {d : Device} {m : Monitor}

theorem deviceNew_fresh {pdAt : Ptr} (ip label : CString) (fresh : h.device.Fresh pdAt) :
    deviceNew h pdAt (some ip) (some label) = .ok (⟨h.target, h.monitor, h.device.put pdAt
      (some { label, ip, monitor := NULL, curmon := NULL, imonitor := 0 }) fresh.1⟩, pdAt) := by
  simp only [deviceNew, Memory.malloc_fresh _ fresh, bind, Except.bind]

theorem monitorNew_fresh {pmAt ptAt : Ptr} (label : CString) {value : CString} {stat : Int}
    (freshMonitor : h.monitor.Fresh pmAt) (freshTarget : h.target.Fresh ptAt)
    (shown : status stat = .ok value) : monitorNew h pmAt ptAt (some label) stat =
      .ok (⟨h.target.put ptAt (some (statusTarget pmAt value)) freshTarget.1,
        h.monitor.put pmAt (some (newMonitor ptAt label stat)) freshMonitor.1,
        h.device⟩, pmAt) := by
  simp only [monitorNew, shown, Memory.malloc_fresh _ freshMonitor,
    Memory.malloc_fresh _ freshTarget, bind, Except.bind]

theorem deviceAddMonitor_first (built : h.device.cell pd = some d)
    (held : h.monitor.cell pm = some m) (empty : d.monitor = NULL) :
    deviceAddMonitor h pd pm = .ok (0, ⟨h.target,
      h.monitor.put pm (some { m with pd := some pd }) (Memory.address_ne_null held),
      h.device.put pd (some { d with monitor := pm, curmon := pm, imonitor := d.imonitor + 1 })
        (Memory.address_ne_null built)⟩) := by
  simp only [deviceAddMonitor, Memory.address_ne_null built, Memory.address_ne_null held, or_self,
    if_false, Memory.read_held held, Memory.write_held _ held, Memory.read_held built, empty,
    if_true, Memory.write_held _ built, bind, Except.bind]

theorem deviceAddMonitor_behind {c : Monitor} (built : h.device.cell pd = some d)
    (held : h.monitor.cell pm = some m) (filled : d.monitor ≠ NULL)
    (heldCur : (h.monitor.put pm (some { m with pd := some pd })
      (Memory.address_ne_null held)).cell d.curmon = some c) :
    deviceAddMonitor h pd pm = .ok (0, ⟨h.target,
      (h.monitor.put pm (some { m with pd := some pd }) (Memory.address_ne_null held)).put d.curmon
        (some { c with next := pm }) (Memory.address_ne_null heldCur),
      h.device.put pd (some { d with curmon := pm, imonitor := d.imonitor + 1 })
        (Memory.address_ne_null built)⟩) := by
  simp only [deviceAddMonitor, Memory.address_ne_null built, Memory.address_ne_null held, or_self,
    if_false, Memory.read_held held, Memory.write_held _ held, Memory.read_held built,
    if_neg filled, Memory.read_held heldCur, Memory.write_held _ heldCur,
    Memory.write_held _ built, bind, Except.bind]

theorem unlinkMonitor_head (built : h.device.cell pd = some d)
    (held : h.monitor.cell pm = some m) :
    unlinkMonitor h pd NULL pm m = monitorDestory addressSpace ⟨h.target,
      h.monitor.put pm (some { m with next := NULL }) (Memory.address_ne_null held),
      h.device.put pd (some { d with monitor := m.next, imonitor := d.imonitor - 1 })
        (Memory.address_ne_null built)⟩ pm := by
  simp only [unlinkMonitor, Memory.read_held built, if_true, Memory.write_held _ built,
    Memory.write_held _ held, bind, Except.bind]

theorem unlinkMonitor_inner {ptemp : Ptr} {prev : Monitor} (built : h.device.cell pd = some d)
    (heldPrev : h.monitor.cell ptemp = some prev)
    (held : (h.monitor.put ptemp (some { prev with next := m.next })
      (Memory.address_ne_null heldPrev)).cell pm = some m) :
    unlinkMonitor h pd ptemp pm m = monitorDestory addressSpace ⟨h.target,
      (h.monitor.put ptemp (some { prev with next := m.next })
        (Memory.address_ne_null heldPrev)).put pm (some { m with next := NULL })
          (Memory.address_ne_null held),
      h.device.put pd (some { d with imonitor := d.imonitor - 1 })
        (Memory.address_ne_null built)⟩ pm := by
  simp only [unlinkMonitor, Memory.read_held built, if_neg (Memory.address_ne_null heldPrev),
    Memory.read_held heldPrev, Memory.write_held _ heldPrev, Memory.write_held _ built,
    Memory.write_held _ held, bind, Except.bind]

end Calls

theorem monitorNew_ok {h h0 : Heap} {pmAt ptAt pm : Ptr} {label : CString} {stat : Int}
    (made : monitorNew h pmAt ptAt (some label) stat = .ok (h0, pm)) :
    ∃ value, status stat = .ok value ∧ pm = pmAt ∧
      ∃ (freshTarget : h.target.Fresh ptAt) (freshMonitor : h.monitor.Fresh pmAt),
        h0 = ⟨h.target.put ptAt (some (statusTarget pmAt value)) freshTarget.1,
          h.monitor.put pmAt (some (newMonitor ptAt label stat)) freshMonitor.1, h.device⟩ := by
  simp only [monitorNew, bind, Except.bind] at made
  cases shown : status stat with
  | error fault => simp [shown] at made
  | ok value =>
    cases allocMonitor : h.monitor.malloc pmAt (newMonitor ptAt label stat) with
    | error fault => simp [shown, allocMonitor] at made
    | ok monitor =>
      cases allocTarget : h.target.malloc ptAt (statusTarget pmAt value) with
      | error fault => simp [shown, allocMonitor, allocTarget] at made
      | ok target =>
        simp only [shown, allocMonitor, allocTarget, Except.ok.injEq, Prod.mk.injEq] at made
        obtain ⟨rfl, rfl⟩ := made
        obtain ⟨freshTarget, rfl⟩ := Memory.malloc_ok allocTarget
        obtain ⟨freshMonitor, rfl⟩ := Memory.malloc_ok allocMonitor
        exact ⟨value, rfl, rfl, freshTarget, freshMonitor, rfl⟩

/-- `m'` is `m` with the addresses of `freed` released and nothing else changed. -/
def Released {Cell : Type} (m : Memory NULL Cell) (freed : List Ptr) (m' : Memory NULL Cell) :
    Prop :=
  ∀ x, m'.cell x = if x ∈ freed then none else m.cell x

theorem released_chain {Cell : Type} {m m' : Memory NULL Cell} {freed : List Ptr}
    {next : Cell → Ptr} {p : Ptr} {cells : List (Ptr × Cell)} (released : Released m freed m')
    (chain : Chain m next p cells) (apart : ∀ a ∈ freed, a ∉ cells.map Prod.fst) :
    Chain m' next p cells := by
  apply segment_frame chain
  intro a member
  rw [released a, if_neg fun inside => apart a inside member]

theorem targetDestroy_chain {h : Heap} {pt : Ptr} {cells : List (Ptr × Target)} {fuel : Nat}
    (chain : Chain h.target Target.next pt cells) (enough : cells.length < fuel) :
    ∃ target, targetDestroy fuel h pt = .ok { h with target } ∧
      Released h.target (cells.map Prod.fst) target := by
  induction cells generalizing pt fuel with
  | nil =>
    obtain ⟨f, rfl⟩ : ∃ f, fuel = f + 1 := ⟨fuel - 1, by omega⟩
    have atNull : pt = NULL := chain
    exact ⟨h.target, by simp [targetDestroy, atNull], fun x => by simp⟩
  | cons cell rest ih =>
    obtain ⟨a, t⟩ := cell
    obtain ⟨f, rfl⟩ : ∃ f, fuel = f + 1 := ⟨fuel - 1, by omega⟩
    have distinct := chain_nodup chain
    simp only [List.map_cons, List.nodup_cons] at distinct
    obtain ⟨here, held, tail⟩ := chain
    subst here
    have left : rest.length < f := by simpa using enough
    obtain ⟨target, run, released⟩ := ih tail left
    have still : target.cell pt = some t := by rw [released pt, if_neg distinct.1, held]
    refine ⟨target.put pt none (Memory.address_ne_null held), ?_, ?_⟩
    · simp [targetDestroy, Memory.address_ne_null held, Memory.read_held held, run,
        Memory.free_held still, bind, Except.bind]
    · intro x
      by_cases same : x = pt
      · simp [same]
      · rw [Memory.put_cell, Function.update_of_ne same, released x]
        simp only [List.map_cons, List.mem_cons, same, false_or]

theorem monitorDestory_detached {h : Heap} {pm : Ptr} {m : Monitor}
    {cells : List (Ptr × Target)} (held : h.monitor.cell pm = some m) (ends : m.next = NULL)
    (chain : Chain h.target Target.next m.target cells) :
    ∃ target, monitorDestory addressSpace h pm =
        .ok ⟨target, h.monitor.put pm none (Memory.address_ne_null held), h.device⟩ ∧
      Released h.target (cells.map Prod.fst) target := by
  obtain ⟨target, run, released⟩ := targetDestroy_chain chain (chain_length_lt chain)
  refine ⟨target, ?_, released⟩
  have fuel : addressSpace = (addressSpace - 2) + 1 + 1 := by decide
  rw [fuel]
  simp only [monitorDestory, if_neg (Memory.address_ne_null held), Memory.read_held held, bind,
    Except.bind, ends, if_true, run]
  rw [Memory.free_held held]

end SouthHeap
