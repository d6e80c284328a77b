import Boring.South.MonitorXml

/- Any number of devices and monitors over any run of `device_new`, `monitor_new`,
   `device_add_monitor` and `device_del_monitor`. An addition accepts every monitor, so the
   lists stay a forest only while each one puts a monitor that is in no list behind the
   last monitor of its device. -/
namespace DeviceForests
open LinkedCells StepRuns SouthHeap SouthXml DeviceMonitors MonitorXml

/-- Addresses that `malloc` returns are arguments of the calls. -/
inductive ForestCall where
  | deviceNew (pdAt : Ptr) (ip label : Option CString)
  | monitorNew (pmAt ptAt : Ptr) (label : Option CString) (stat : Int)
  | add (pd pm : Ptr)
  | del (pd : Ptr) (label : Option CString)

def runForest (h : Heap) : ForestCall → Except Fault Heap
  | .deviceNew pdAt ip label => (deviceNew h pdAt ip label).map Prod.fst
  | .monitorNew pmAt ptAt label stat => (monitorNew h pmAt ptAt label stat).map Prod.fst
  | .add pd pm => (deviceAddMonitor h pd pm).map Prod.snd
  | .del pd label => (deviceDelMonitor h pd label).map Prod.snd

def LiveDevice (h : Heap) (pd : Ptr) : Prop := ∃ d, h.device.cell pd = some d

def LiveMonitor (h : Heap) (pm : Ptr) : Prop := ∃ m, h.monitor.cell pm = some m

/-- The pointers of a call are NULL or alive. A failed allocation changes nothing, so
    only those that succeed are steps. -/
def Callable (h : Heap) : ForestCall → Prop
  | .deviceNew pdAt (some _) (some _) => h.device.Fresh pdAt
  | .deviceNew _ _ _ => True
  | .monitorNew pmAt ptAt label stat => NewSucceeds h (.add pmAt ptAt label stat)
  | .add pd pm => (pd = NULL ∨ LiveDevice h pd) ∧ (pm = NULL ∨ LiveMonitor h pm)
  | .del pd _ => pd = NULL ∨ LiveDevice h pd

abbrev ForestState := Except Fault Heap

def forestStep : StepRel ForestState ForestCall
  | .ok h, call, next => Callable h call ∧ next = runForest h call
  | .error _, _, _ => False

/-- The list of one device ends, and so do the loops and the recursion along it, which
    visit each of its monitors once. -/
structure Traversed (h : Heap) (pd : Ptr) (d : Device) (entries : List Entry) : Prop where
  ends : Chain h.monitor Monitor.next d.monitor (nodes entries)
  attached : ∀ e ∈ entries, e.2.1.pd = some pd
  uploads : ∀ p : Platform, p.transportLoads = true → ∀ str, ∃ calls str',
    documents p d.ip d.label (entries.map monitorData) str = .ok (calls, str') ∧
      upload p h pd str = .ok ((0, calls), str') ∧ calls.length = entries.length
  deletes : ∀ label, ∃ h', deviceDelMonitor h pd (some label) = .ok (0, h')
  destroys : ∃ h', deviceDestory h pd = .ok h' ∧
    Released h.monitor ((nodes entries).map Prod.fst) h'.monitor

def Forest : ForestState → Prop
  | .ok h => ∃ lists : Ptr → List Entry,
      (∀ pd d, h.device.cell pd = some d → Traversed h pd d (lists pd)) ∧
      ∀ pd pd', LiveDevice h pd → LiveDevice h pd' → pd ≠ pd' →
        ∀ a ∈ (nodes (lists pd)).map Prod.fst, a ∉ (nodes (lists pd')).map Prod.fst
  | .error _ => False

def InList (h : Heap) (pd pm : Ptr) : Prop :=
  ∃ d cells, h.device.cell pd = some d ∧ Chain h.monitor Monitor.next d.monitor cells ∧
    pm ∈ cells.map Prod.fst

def EndsAtCurmon (h : Heap) (d : Device) : Prop :=
  d.monitor = NULL ∨
    ∃ before m, Chain h.monitor Monitor.next d.monitor (before ++ [(d.curmon, m)])

def TailKnown (s : ForestState) (call : ForestCall) : Prop :=
  match s, call with
  | .ok h, .add pd pm => pd = NULL ∨ pm = NULL ∨ ∀ d, h.device.cell pd = some d → EndsAtCurmon h d
  | _, _ => True

def Unlisted (s : ForestState) (call : ForestCall) : Prop :=
  match s, call with
  | .ok h, .add pd pm => pd = NULL ∨ pm = NULL ∨ ∀ other, ¬ InList h other pm
  | _, _ => True

section Invariant

/-- `lists` holds the cells of each device's list. A monitor in none of them has no
    successor. -/
structure Listing (device : Memory NULL Device) (monitor : Memory NULL Monitor)
    (lists : Ptr → List (Ptr × Monitor)) : Prop where
  chain : ∀ pd d, device.cell pd = some d → Chain monitor Monitor.next d.monitor (lists pd)
  unbuilt : ∀ pd, device.cell pd = none → lists pd = []
  attached : ∀ pd, ∀ cell ∈ lists pd, cell.2.pd = some pd
  loose : ∀ a m, monitor.cell a = some m → (∀ pd, a ∉ (lists pd).map Prod.fst) → m.next = NULL

/-- `own` holds the targets of each monitor. -/
structure Owning (monitor : Memory NULL Monitor) (target : Memory NULL Target)
    (own : Ptr → List (Ptr × Target)) : Prop where
  targets : ∀ a m, monitor.cell a = some m → Chain target Target.next m.target (own a)
  gone : ∀ a, monitor.cell a = none → own a = []
  apart : ∀ a b, a ≠ b → ∀ x ∈ (own a).map Prod.fst, x ∉ (own b).map Prod.fst

def Orderly : ForestState → Prop
  | .ok h => ∃ lists own, Listing h.device h.monitor lists ∧ Owning h.monitor h.target own
  | .error _ => False

end Invariant

variable {device : Memory NULL Device} {monitor : Memory NULL Monitor}
  {target : Memory NULL Target} {lists : Ptr → List (Ptr × Monitor)}
  {own : Ptr → List (Ptr × Target)}

theorem listing_live (listing : Listing device monitor lists) {pd : Ptr}
    (filled : lists pd ≠ []) : ∃ d, device.cell pd = some d := by
  cases built : device.cell pd with
  | none => exact absurd (listing.unbuilt pd built) filled
  | some d => exact ⟨d, rfl⟩

theorem listing_lister (listing : Listing device monitor lists) {pd a : Ptr}
    (member : a ∈ (lists pd).map Prod.fst) : ∃ d, device.cell pd = some d := by
  obtain ⟨cell, inside, _⟩ := List.mem_map.mp member
  exact listing_live listing (List.ne_nil_of_mem inside)

theorem listing_held (listing : Listing device monitor lists) {pd : Ptr}
    {cell : Ptr × Monitor} (member : cell ∈ lists pd) :
    monitor.cell cell.1 = some cell.2 := by
  obtain ⟨d, built⟩ := listing_live listing (List.ne_nil_of_mem member)
  exact segment_held (listing.chain pd d built) member

theorem listing_apart (listing : Listing device monitor lists) {pd pd' a : Ptr}
    (here : a ∈ (lists pd).map Prod.fst) (there : a ∈ (lists pd').map Prod.fst) : pd = pd' := by
  obtain ⟨⟨b, m⟩, member, rfl⟩ := List.mem_map.mp here
  obtain ⟨⟨c, n⟩, member', same⟩ := List.mem_map.mp there
  obtain rfl : c = b := same
  have cell : m = n :=
    Option.some.inj ((listing_held listing member).symm.trans (listing_held listing member'))
  have named := listing.attached pd _ member
  have named' := listing.attached pd' _ member'
  simp only [cell] at named named'
  exact Option.some.inj (named.symm.trans named')

theorem inList_iff {h : Heap} (listing : Listing h.device h.monitor lists) (pd pm : Ptr) :
    InList h pd pm ↔ pm ∈ (lists pd).map Prod.fst := by
  constructor
  · rintro ⟨d, cells, built, chain, member⟩
    rwa [chain_unique (listing.chain pd d built) chain]
  · intro member
    obtain ⟨d, built⟩ := listing_lister listing member
    exact ⟨d, lists pd, built, listing.chain pd d built, member⟩

theorem listing_relist {device' : Memory NULL Device} {monitor' : Memory NULL Monitor}
    {pd : Ptr} {d' : Device} {cells : List (Ptr × Monitor)}
    (listing : Listing device monitor lists)
    (built : device'.cell = Function.update device.cell pd (some d'))
    (chain : Chain monitor' Monitor.next d'.monitor cells)
    (attached : ∀ cell ∈ cells, cell.2.pd = some pd)
    (frame : ∀ a, a ∉ (lists pd).map Prod.fst → a ∉ cells.map Prod.fst →
      monitor'.cell a = monitor.cell a)
    (gained : ∀ a ∈ cells.map Prod.fst,
      a ∈ (lists pd).map Prod.fst ∨ ∀ other, a ∉ (lists other).map Prod.fst)
    (lost : ∀ a ∈ (lists pd).map Prod.fst, a ∉ cells.map Prod.fst →
      ∀ m, monitor'.cell a = some m → m.next = NULL) :
    Listing device' monitor' (Function.update lists pd cells) := by
  constructor
  · intro other d held
    by_cases same : other = pd
    · subst other
      simp only [built, Function.update_self, Option.some.injEq] at held ⊢
      exact held ▸ chain
    · simp only [built, Function.update_of_ne same] at held ⊢
      apply segment_frame (listing.chain other d held)
      intro a member
      have elsewhere : a ∉ (lists pd).map Prod.fst := fun here =>
        same (listing_apart listing member here)
      exact frame a elsewhere fun inside =>
        ((gained a inside).resolve_left elsewhere) other member
  · intro other absent
    have differs : other ≠ pd := by
      rintro rfl
      simp [built] at absent
    simp only [built, Function.update_of_ne differs] at absent ⊢
    exact listing.unbuilt other absent
  · intro other cell member
    by_cases same : other = pd
    · subst other
      rw [Function.update_self] at member
      exact attached cell member
    · rw [Function.update_of_ne same] at member
      exact listing.attached other cell member
  · intro a m held outside
    have left : a ∉ cells.map Prod.fst := by simpa using outside pd
    by_cases listed : a ∈ (lists pd).map Prod.fst
    · exact lost a listed left m held
    · rw [frame a listed left] at held
      apply listing.loose a m held
      intro other
      by_cases same : other = pd
      · exact same ▸ listed
      · simpa [Function.update_of_ne same] using outside other

theorem owning_frame {monitor' : Memory NULL Monitor} (owning : Owning monitor target own)
    (same : ∀ a, (monitor'.cell a).map Monitor.target = (monitor.cell a).map Monitor.target) :
    Owning monitor' target own := by
  constructor
  · intro a m held
    obtain ⟨old, kept, start⟩ := Memory.kept_held (same a).symm held
    exact start ▸ owning.targets a old kept
  · intro a absent
    apply owning.gone a
    simpa [absent] using (same a).symm
  · exact owning.apart

theorem owning_reown {monitor' : Memory NULL Monitor} {target' : Memory NULL Target} {pm : Ptr}
    {cells : List (Ptr × Target)} (owning : Owning monitor target own)
    (chain : ∀ m, monitor'.cell pm = some m → Chain target' Target.next m.target cells)
    (gone : monitor'.cell pm = none → cells = [])
    (same : ∀ b, b ≠ pm →
      (monitor'.cell b).map Monitor.target = (monitor.cell b).map Monitor.target)
    (frame : ∀ b, b ≠ pm → ∀ x ∈ (own b).map Prod.fst, target'.cell x = target.cell x)
    (apart : ∀ b, b ≠ pm → ∀ x ∈ cells.map Prod.fst, x ∉ (own b).map Prod.fst) :
    Owning monitor' target' (Function.update own pm cells) := by
  constructor
  · intro b m held
    by_cases here : b = pm
    · subst b
      rw [Function.update_self]
      exact chain m held
    · obtain ⟨old, kept, start⟩ := Memory.kept_held (same b here).symm held
      rw [Function.update_of_ne here, ← start]
      exact segment_frame (owning.targets b old kept) (frame b here)
  · intro b absent
    by_cases here : b = pm
    · subst b
      rw [Function.update_self]
      exact gone absent
    · rw [Function.update_of_ne here]
      apply owning.gone b
      simpa [absent] using (same b here).symm
  · intro b c differs x member other
    by_cases here : b = pm
    · subst b
      rw [Function.update_self] at member
      rw [Function.update_of_ne (Ne.symm differs)] at other
      exact apart c (Ne.symm differs) x member other
    · rw [Function.update_of_ne here] at member
      by_cases there : c = pm
      · subst c
        rw [Function.update_self] at other
        exact apart b here x other member
      · rw [Function.update_of_ne there] at other
        exact owning.apart b c differs x member other

theorem owning_release {monitor' : Memory NULL Monitor} {target' : Memory NULL Target} {a : Ptr}
    (owning : Owning monitor target own) (freed : monitor'.cell a = none)
    (same : ∀ b, b ≠ a →
      (monitor'.cell b).map Monitor.target = (monitor.cell b).map Monitor.target)
    (released : Released target ((own a).map Prod.fst) target') :
    Owning monitor' target' (Function.update own a []) := by
  refine owning_reown owning ?_ (fun _ => rfl) same ?_ (by simp)
  · intro m held
    simp [freed] at held
  · intro b differs x member
    rw [released x, if_neg (owning.apart b a differs x member)]

theorem deviceNew_listing {pdAt : Ptr} {d : Device} (listing : Listing device monitor lists)
    (fresh : device.Fresh pdAt) (empty : d.monitor = NULL) :
    Listing (device.put pdAt (some d) fresh.1) monitor lists := by
  have unlisted := listing.unbuilt pdAt fresh.2
  have relisted := @listing_relist _ _ _ (device.put pdAt (some d) fresh.1) monitor pdAt d []
    listing rfl empty (by simp) (fun _ _ _ => rfl) (by simp) (by simp [unlisted])
  rwa [← unlisted, Function.update_eq_self] at relisted

theorem listing_fresh (listing : Listing device monitor lists) {pmAt : Ptr}
    (fresh : monitor.Fresh pmAt) (pd : Ptr) : pmAt ∉ (lists pd).map Prod.fst := by
  intro member
  obtain ⟨cell, inside, same⟩ := List.mem_map.mp member
  exact Memory.fresh_ne fresh (listing_held listing inside) same

theorem monitorNew_listing {pmAt : Ptr} {m : Monitor} (listing : Listing device monitor lists)
    (fresh : monitor.Fresh pmAt) (ends : m.next = NULL) :
    Listing device (monitor.put pmAt (some m) fresh.1) lists := by
  constructor
  · intro pd d built
    exact segment_update_frame (listing.chain pd d built) _ fresh.1
      (listing_fresh listing fresh pd)
  · exact listing.unbuilt
  · exact listing.attached
  · intro a n held outside
    by_cases same : a = pmAt
    · subst a
      have here : m = n := by simpa using held
      exact here ▸ ends
    · simp only [Memory.put_cell, Function.update_of_ne same] at held
      exact listing.loose a n held outside

theorem owning_fresh (owning : Owning monitor target own) {ptAt : Ptr}
    (fresh : target.Fresh ptAt) (b : Ptr) : ptAt ∉ (own b).map Prod.fst := by
  cases held : monitor.cell b with
  | none => simp [owning.gone b held]
  | some n => exact fresh_outside (owning.targets b n held) fresh

theorem monitorNew_owning {pmAt ptAt : Ptr} {m : Monitor} {t : Target}
    (owning : Owning monitor target own) (freshMonitor : monitor.Fresh pmAt)
    (freshTarget : target.Fresh ptAt) (starts : m.target = ptAt) (ends : t.next = NULL) :
    Owning (monitor.put pmAt (some m) freshMonitor.1) (target.put ptAt (some t) freshTarget.1)
      (Function.update own pmAt [(ptAt, t)]) := by
  have outside := owning_fresh owning freshTarget
  apply owning_reown owning
  · intro n held
    obtain rfl : m = n := by simpa using held
    exact ⟨starts, by simp, ends⟩
  · intro absent
    simp at absent
  · intro b differs
    simp [Function.update_of_ne differs]
  · intro b _ x member
    have notNew : x ≠ ptAt := fun same => outside b (same ▸ member)
    simp [Function.update_of_ne notNew]
  · intro b _ x new
    obtain rfl : x = ptAt := by simpa using new
    exact outside b

theorem add_first {h : Heap} {pd pm : Ptr} {d : Device} {m : Monitor}
    (listing : Listing h.device h.monitor lists) (owning : Owning h.monitor h.target own)
    (built : h.device.cell pd = some d) (held : h.monitor.cell pm = some m)
    (unlisted : ∀ other, pm ∉ (lists other).map Prod.fst) (empty : d.monitor = NULL) :
    ∃ h', deviceAddMonitor h pd pm = .ok (0, h') ∧ Orderly (.ok h') := by
  have ends := listing.loose pm m held unlisted
  have none : lists pd = [] := chain_unique (listing.chain pd d built) empty
  refine ⟨_, deviceAddMonitor_first built held empty,
    Function.update lists pd [(pm, { m with pd := some pd })], own, ?_, ?_⟩
  · apply listing_relist listing
    · rfl
    · exact ⟨rfl, by simp, ends⟩
    · simp
    · intro a _ outside
      have differs : a ≠ pm := by simpa using outside
      simp [Function.update_of_ne differs]
    · intro a new
      obtain rfl : a = pm := by simpa using new
      exact .inr unlisted
    · simp [none]
  · apply owning_frame owning
    exact Memory.put_keeps held Monitor.target (by rfl) (Memory.address_ne_null held)

theorem add_behind {h : Heap} {pd pm : Ptr} {d : Device} {m c : Monitor}
    {before : List (Ptr × Monitor)} (listing : Listing h.device h.monitor lists)
    (owning : Owning h.monitor h.target own) (built : h.device.cell pd = some d)
    (held : h.monitor.cell pm = some m) (unlisted : ∀ other, pm ∉ (lists other).map Prod.fst)
    (split : lists pd = before ++ [(d.curmon, c)]) :
    ∃ h', deviceAddMonitor h pd pm = .ok (0, h') ∧ Orderly (.ok h') := by
  have notNull := Memory.address_ne_null held
  have ends := listing.loose pm m held unlisted
  have chain := listing.chain pd d built
  have member : (d.curmon, c) ∈ lists pd := by simp [split]
  have heldCur := listing_held listing member
  have listedCur : d.curmon ∈ (lists pd).map Prod.fst := List.mem_map_of_mem member
  have apart : d.curmon ≠ pm := fun same => unlisted pd (same ▸ listedCur)
  have notNullCur := Memory.address_ne_null heldCur
  have nonempty := chain_filled chain (List.ne_nil_of_mem member)
  let first := h.monitor.put pm (some { m with pd := some pd }) notNull
  let monitor := first.put d.curmon (some { c with next := pm }) notNullCur
  have keptCur : first.cell d.curmon = some c := by
    simp only [first, Memory.put_cell, Function.update_of_ne apart]
    exact heldCur
  have frame (a : Ptr) (notCur : a ≠ d.curmon) (notNew : a ≠ pm) :
      monitor.cell a = h.monitor.cell a := by
    simp [monitor, first, Function.update_of_ne notCur, Function.update_of_ne notNew]
  refine ⟨_, deviceAddMonitor_behind built held nonempty keptCur, Function.update lists pd
    (before ++ [(d.curmon, { c with next := pm }), (pm, { m with pd := some pd })]), own, ?_, ?_⟩
  · apply listing_relist listing
    · rfl
    · rw [split] at chain
      exact chain_hook chain (split ▸ unlisted pd) _ _ notNull notNullCur rfl ends
    · have named := listing.attached pd
      simp only [split, List.mem_append, List.mem_singleton] at named
      intro cell inside
      simp only [List.mem_append, List.mem_cons, List.not_mem_nil, or_false] at inside
      rcases inside with old | rfl | rfl
      · exact named cell (.inl old)
      · exact named (d.curmon, c) (.inr rfl)
      · rfl
    · intro a _ outside
      simp only [List.map_append, List.map_cons, List.map_nil, List.mem_append, List.mem_cons,
        List.not_mem_nil, or_false, not_or] at outside
      exact frame a outside.2.1 outside.2.2
    · intro a inside
      simp only [List.map_append, List.map_cons, List.map_nil, List.mem_append, List.mem_cons,
        List.not_mem_nil, or_false, ← or_assoc] at inside
      rcases inside with old | rfl
      · exact .inl (by simpa [split] using old)
      · exact .inr unlisted
    · intro a old outside
      simp only [split, List.map_append, List.map_cons, List.map_nil, List.mem_append,
        List.mem_singleton] at old
      simp only [List.map_append, List.map_cons, List.map_nil, List.mem_append, List.mem_cons,
        List.not_mem_nil, or_false, not_or] at outside
      exact absurd old (not_or.mpr ⟨outside.1, outside.2.1⟩)
  · apply owning_frame owning
    intro a
    exact (Memory.put_keeps keptCur Monitor.target (by rfl) notNullCur a).trans
      (Memory.put_keeps held Monitor.target (by rfl) notNull a)

theorem release_orderly {h : Heap} {a : Ptr} {m : Monitor} (held : h.monitor.cell a = some m)
    (ends : m.next = NULL)
    (listing : Listing h.device (h.monitor.put a none (Memory.address_ne_null held)) lists)
    (owning : Owning h.monitor h.target own) :
    ∃ h', monitorDestory addressSpace h a = .ok h' ∧ Orderly (.ok h') := by
  obtain ⟨target, run, released⟩ := monitorDestory_detached held ends (owning.targets a m held)
  refine ⟨_, run, lists, _, listing, owning_release owning ?_ ?_ released⟩
  · simp
  · intro b differs
    simp [Function.update_of_ne differs]

theorem unlink_first {h : Heap} {pd a : Ptr} {d : Device} {m : Monitor}
    {behind : List (Ptr × Monitor)} (listing : Listing h.device h.monitor lists)
    (owning : Owning h.monitor h.target own) (built : h.device.cell pd = some d)
    (split : lists pd = (a, m) :: behind) :
    ∃ h', unlinkMonitor h pd NULL a m = .ok h' ∧ Orderly (.ok h') := by
  have chain := listing.chain pd d built
  have listed : a ∈ (lists pd).map Prod.fst := by simp [split]
  rw [split] at chain
  have outside := (List.nodup_cons.mp (chain_nodup chain)).1
  obtain ⟨_, held, tail⟩ := chain
  have notNull := Memory.address_ne_null held
  let d' : Device := { d with monitor := m.next, imonitor := d.imonitor - 1 }
  let cleared : Heap := ⟨h.target, h.monitor.put a (some { m with next := NULL }) notNull,
    h.device.put pd (some d') (Memory.address_ne_null built)⟩
  have heldCleared : cleared.monitor.cell a = some { m with next := NULL } := by simp [cleared]
  have frame (b : Ptr) (differs : b ≠ a) :
      (cleared.monitor.put a none notNull).cell b = h.monitor.cell b := by
    simp [cleared, Function.update_of_ne differs]
  have relisted : Listing cleared.device (cleared.monitor.put a none notNull)
      (Function.update lists pd behind) := by
    apply listing_relist listing
    · rfl
    · apply segment_frame tail
      intro b member
      exact frame b fun same => outside (same ▸ member)
    · intro cell member
      exact listing.attached pd cell (by simp [split, member])
    · intro b outsideList _
      apply frame b
      rintro rfl
      exact outsideList listed
    · intro b member
      exact .inl (by simp [split, member])
    · intro b old notBehind n kept
      simp only [split, List.map_cons, List.mem_cons] at old
      obtain rfl := old.resolve_right notBehind
      simp at kept
  have owners : Owning cleared.monitor cleared.target own := by
    apply owning_frame owning
    exact Memory.put_keeps held Monitor.target (by rfl) notNull
  obtain ⟨h', run, orderly⟩ := release_orderly heldCleared rfl relisted owners
  exact ⟨h', (unlinkMonitor_head built held).trans run, orderly⟩

theorem unlink_behind {h : Heap} {pd a b : Ptr} {d : Device} {m mb : Monitor}
    {front behind : List (Ptr × Monitor)} (listing : Listing h.device h.monitor lists)
    (owning : Owning h.monitor h.target own) (built : h.device.cell pd = some d)
    (split : lists pd = front ++ (b, mb) :: (a, m) :: behind) :
    ∃ h', unlinkMonitor h pd b a m = .ok h' ∧ Orderly (.ok h') := by
  have chain := listing.chain pd d built
  have named := listing.attached pd
  have listedA : a ∈ (lists pd).map Prod.fst := by simp [split]
  have listedB : b ∈ (lists pd).map Prod.fst := by simp [split]
  rw [split] at chain
  have heldA : h.monitor.cell a = some m := segment_held chain (by simp)
  have heldB : h.monitor.cell b = some mb := segment_held chain (by simp)
  have neA := Memory.address_ne_null heldA
  have neB := Memory.address_ne_null heldB
  simp only [split, List.mem_append, List.mem_cons] at named
  have distinct := chain_nodup chain
  simp only [List.map_append, List.map_cons, List.nodup_append, List.nodup_cons, List.mem_cons,
    not_or] at distinct
  obtain ⟨_, ⟨⟨notSame, _⟩, outsideBehind, _⟩, disjoint⟩ := distinct
  let cells := front ++ (b, { mb with next := m.next }) :: behind
  have outside : a ∉ cells.map Prod.fst := by
    simp only [cells, List.map_append, List.map_cons, List.mem_append, List.mem_cons, not_or]
    exact ⟨fun member => disjoint a member a (by simp) rfl, Ne.symm notSame, outsideBehind⟩
  let d' : Device := { d with imonitor := d.imonitor - 1 }
  let bypass := h.monitor.put b (some { mb with next := m.next }) neB
  let cleared : Heap := ⟨h.target, bypass.put a (some { m with next := NULL }) neA,
    h.device.put pd (some d') (Memory.address_ne_null built)⟩
  have keptA : bypass.cell a = some m := by
    simp [bypass, Function.update_of_ne (Ne.symm notSame), heldA]
  have heldCleared : cleared.monitor.cell a = some { m with next := NULL } := by simp [cleared]
  have frame (x : Ptr) (notA : x ≠ a) (notB : x ≠ b) :
      (cleared.monitor.put a none neA).cell x = h.monitor.cell x := by
    simp [cleared, bypass, Function.update_of_ne notA, Function.update_of_ne notB]
  have bypassed : Chain bypass Monitor.next d'.monitor cells :=
    chain_bypass chain { mb with next := m.next } neB rfl
  have relisted : Listing cleared.device (cleared.monitor.put a none neA)
      (Function.update lists pd cells) := by
    apply listing_relist listing
    · rfl
    · exact segment_update_frame (segment_update_frame bypassed _ neA outside) _ neA outside
    · intro cell member
      simp only [cells, List.mem_append, List.mem_cons] at member
      rcases member with old | rfl | old
      · exact named cell (.inl old)
      · exact named (b, mb) (.inr (.inl rfl))
      · exact named cell (.inr (.inr (.inr old)))
    · intro x outsideList _
      apply frame x
      · rintro rfl
        exact outsideList listedA
      · rintro rfl
        exact outsideList listedB
    · intro x member
      simp only [cells, List.map_append, List.map_cons, List.mem_append, List.mem_cons] at member
      left
      simp only [split, List.map_append, List.map_cons, List.mem_append, List.mem_cons]
      exact member.imp_right (Or.imp_right .inr)
    · intro x old notListed n kept
      have notA : x ≠ a := by
        rintro rfl
        simp at kept
      simp only [split, List.map_append, List.map_cons, List.mem_append, List.mem_cons] at old
      simp only [cells, List.map_append, List.map_cons, List.mem_append, List.mem_cons, not_or]
        at notListed
      simp [notListed, notA] at old
  have owners : Owning cleared.monitor cleared.target own := by
    apply owning_frame owning
    intro x
    exact (Memory.put_keeps keptA Monitor.target (by rfl) neA x).trans
      (Memory.put_keeps heldB Monitor.target (by rfl) neB x)
  obtain ⟨h', run, orderly⟩ := release_orderly heldCleared rfl relisted owners
  exact ⟨h', (unlinkMonitor_inner built heldB keptA).trans run, orderly⟩

theorem del_orderly {h : Heap} {pd : Ptr} {d : Device} (label : CString)
    (listing : Listing h.device h.monitor lists) (owning : Owning h.monitor h.target own)
    (built : h.device.cell pd = some d) :
    ∃ h', deviceDelMonitor h pd (some label) = .ok (0, h') ∧ Orderly (.ok h') := by
  have chain := listing.chain pd d built
  have room := chain_length_lt chain
  have loops (h' : Heap) (loop : delMonitorLoop pd label h NULL d.monitor = .ok h') :
      deviceDelMonitor h pd (some label) = .ok (0, h') := by
    simp [deviceDelMonitor, Memory.address_ne_null built, bind, Except.bind,
      Memory.read_held built, loop]
  rcases erase_cases (lists pd) fun cell => cell.2.label = label with
    ⟨misses, _⟩ | ⟨passed, ⟨a, m⟩, behind, split, found, others, _⟩
  · refine ⟨h, loops h (search_misses chain ?_ room), lists, own, listing, owning⟩
    intro cell member
    exact strcmp_differs (of_decide_eq_false (misses cell member))
  · rw [split] at chain room
    have loop : delMonitorLoop pd label h NULL d.monitor =
        unlinkMonitor h pd (addressBefore NULL passed) a m := by
      apply search_hits chain
      · intro cell member
        exact strcmp_differs (of_decide_eq_false (others cell member))
      · exact strcmp_same (of_decide_eq_true found)
      · simp only [List.length_append] at room
        omega
    rcases List.eq_nil_or_concat' passed with rfl | ⟨front, ⟨b, mb⟩, rfl⟩
    · obtain ⟨h', run, orderly⟩ := unlink_first listing owning built split
      exact ⟨h', loops h' (loop.trans run), orderly⟩
    · rw [List.append_assoc, List.singleton_append] at split
      obtain ⟨h', run, orderly⟩ := unlink_behind listing owning built split
      rw [addressBefore_concat] at loop
      exact ⟨h', loops h' (loop.trans run), orderly⟩

section Traversals

/-- A document is always built: nothing in it can fail once the texts are there. -/
def Builds {α : Type} (x : Run α) : Prop := ∀ str, ∃ a str', x str = .ok (a, str')

theorem builds_pure {α : Type} (a : α) : Builds (pure a : Run α) := fun str => ⟨a, str, rfl⟩

theorem builds_bind {α β : Type} {x : Run α} {f : α → Run β} (first : Builds x)
    (second : ∀ a, Builds (f a)) : Builds (x >>= f) := by
  intro str
  obtain ⟨a, middle, run⟩ := first str
  obtain ⟨b, str', later⟩ := second a middle
  refine ⟨b, str', ?_⟩
  simp only [bind, StateT.bind, Except.bind, run]
  exact later

theorem builds_renders {α : Type} {p : Platform} {x : Run α} {texts : List Bytes}
    {expected : α → Prop} {apart : Prop} (renders : Renders p x texts expected apart) :
    Builds x := by
  intro str
  obtain ⟨a, run, _⟩ := renders str
  exact ⟨a, _, run⟩

theorem builds_mapM {α β : Type} {f : α → Run β} (each : ∀ a, Builds (f a)) (xs : List α) :
    ∀ str, ∃ ys str', xs.mapM f str = .ok (ys, str') ∧ ys.length = xs.length := by
  induction xs with
  | nil => exact fun str => ⟨[], str, rfl, rfl⟩
  | cons x xs ih =>
    intro str
    obtain ⟨y, middle, run⟩ := each x str
    obtain ⟨ys, str', later, count⟩ := ih middle
    refine ⟨y :: ys, str', ?_, by simp [count]⟩
    simp only [List.mapM_cons, bind, StateT.bind, Except.bind, run, later]
    rfl

theorem builds_monitorDocument (p : Platform) (label : CString) (m : MonitorData) :
    Builds (monitorDocument p label m) := by
  refine builds_bind (builds_renders (renders_toUtf8 _)) fun service => ?_
  refine builds_bind (builds_renders (renders_toUtf8 _)) fun info => ?_
  exact builds_bind (builds_renders (renders_command m.label label m.targets)) fun command =>
    builds_pure _

def entriesOf (own : Ptr → List (Ptr × Target)) (cells : List (Ptr × Monitor)) : List Entry :=
  cells.map fun cell => (cell.1, cell.2, own cell.1)

theorem nodes_entriesOf (own : Ptr → List (Ptr × Target)) (cells : List (Ptr × Monitor)) :
    nodes (entriesOf own cells) = cells := by
  simp [nodes, entriesOf, Function.comp_def]

theorem entries_owned {pd : Ptr} {cells : List (Ptr × Monitor)}
    (owning : Owning monitor target own) (distinct : (cells.map Prod.fst).Nodup)
    (held : ∀ cell ∈ cells, monitor.cell cell.1 = some cell.2)
    (attached : ∀ cell ∈ cells, cell.2.pd = some pd) :
    Owned target pd ((entriesOf own cells).map holding) := by
  have addresses : targetAddresses ((entriesOf own cells).map holding) =
      cells.flatMap fun cell => (own cell.1).map Prod.fst := by
    simp [targetAddresses, entriesOf, holding, List.flatMap_map]
  constructor
  · intro x member
    simp only [entriesOf, List.map_map, List.mem_map, Function.comp_apply, holding] at member
    obtain ⟨cell, inside, rfl⟩ := member
    exact owning.targets cell.1 cell.2 (held cell inside)
  · rw [addresses, List.nodup_flatMap]
    constructor
    · intro cell inside
      exact chain_nodup (owning.targets cell.1 cell.2 (held cell inside))
    · apply (List.pairwise_map.mp distinct).imp
      intro cell other differs x here there
      exact owning.apart cell.1 other.1 differs x here there
  · intro x member
    simp only [entriesOf, List.map_map, List.mem_map, Function.comp_apply, holding] at member
    obtain ⟨cell, inside, rfl⟩ := member
    exact attached cell inside

theorem monitorDestory_chain {h : Heap} {pm : Ptr} {cells : List (Ptr × Monitor)} {fuel : Nat}
    (owning : Owning h.monitor h.target own)
    (chain : Chain h.monitor Monitor.next pm cells) (enough : cells.length < fuel) :
    ∃ target monitor, monitorDestory fuel h pm = .ok ⟨target, monitor, h.device⟩ ∧
      Released h.monitor (cells.map Prod.fst) monitor ∧
      Released h.target (cells.flatMap fun cell => (own cell.1).map Prod.fst) target := by
  induction cells generalizing pm fuel with
  | nil =>
    obtain ⟨f, rfl⟩ : ∃ f, fuel = f + 1 := ⟨fuel - 1, by omega⟩
    have atNull : pm = NULL := chain
    exact ⟨h.target, h.monitor, by simp [monitorDestory, atNull], fun x => by simp,
      fun x => by simp⟩
  | cons cell rest ih =>
    obtain ⟨a, m⟩ := cell
    obtain ⟨f, rfl⟩ : ∃ f, fuel = f + 1 := ⟨fuel - 1, by omega⟩
    have distinct := (List.nodup_cons.mp (chain_nodup chain)).1
    obtain ⟨here, held, tail⟩ := chain
    subst here
    have left : rest.length < f := by simpa using enough
    obtain ⟨target, monitor, run, freed, released⟩ := ih tail left
    have still : monitor.cell pm = some m := by rw [freed pm, if_neg distinct, held]
    have ownKept : Chain target Target.next m.target (own pm) := by
      apply released_chain released (owning.targets pm m held)
      intro x member
      obtain ⟨other, inside, own⟩ := List.mem_flatMap.mp member
      have differs : other.1 ≠ pm := fun same =>
        distinct (List.mem_map.mpr ⟨other, inside, same⟩)
      exact owning.apart other.1 pm differs x own
    obtain ⟨target', run', released'⟩ :=
      @targetDestroy_chain ⟨target, monitor, h.device⟩ _ _ _ ownKept (chain_length_lt ownKept)
    refine ⟨target', monitor.put pm none (Memory.address_ne_null held), ?_, ?_, ?_⟩
    · simp only [monitorDestory, if_neg (Memory.address_ne_null held), Memory.read_held held, run,
        run', Memory.free_held still, bind, Except.bind]
    · intro x
      by_cases same : x = pm
      · simp [same]
      · simp only [Memory.put_cell, Function.update_of_ne same, freed x, List.map_cons,
          List.mem_cons, same, false_or]
    · intro x
      simp only [released' x, released x, List.flatMap_cons, List.mem_append]
      by_cases inside : x ∈ (own pm).map Prod.fst
      · simp only [inside, true_or, if_true]
      · simp only [inside, false_or, if_false]

theorem orderly_traversed {h : Heap} {pd : Ptr} {d : Device}
    (listing : Listing h.device h.monitor lists) (owning : Owning h.monitor h.target own)
    (built : h.device.cell pd = some d) : Traversed h pd d (entriesOf own (lists pd)) := by
  have chain := listing.chain pd d built
  have room := chain_length_lt chain
  have notNull := Memory.address_ne_null built
  have owned := @entries_owned _ _ own pd _ owning (chain_nodup chain)
    (fun cell member => segment_held chain member) (listing.attached pd)
  constructor
  · rwa [nodes_entriesOf]
  · intro e member
    obtain ⟨cell, inside, rfl⟩ := List.mem_map.mp member
    exact listing.attached pd cell inside
  · intro p loads str
    have loop := @uploadLoop_entries p h pd d.monitor d d.ip (entriesOf own (lists pd))
      addressSpace built (by rwa [nodes_entriesOf]) owned (by simpa [entriesOf] using room)
    have each (m : MonitorData) : Builds do
        let szXml ← monitorDocument p d.label m
        return (d.ip.bytes, szXml) :=
      builds_bind (builds_monitorDocument p d.label m) fun _ => builds_pure _
    obtain ⟨calls, str', run, count⟩ :=
      builds_mapM each ((entriesOf own (lists pd)).map monitorData) str
    have loop' : uploadLoop p h d.ip addressSpace d.monitor str = .ok (calls, str') :=
      (congrFun loop str).trans run
    refine ⟨calls, str', run, ?_, by simpa using count⟩
    simp only [upload, if_neg notNull, loads, Memory.read_held built, lift_ok, pure_bind]
    simp only [bind, StateT.bind, Except.bind, loop', Bool.not_true, Bool.false_eq_true, if_false]
    rfl
  · intro label
    obtain ⟨h', run, _⟩ := del_orderly label listing owning built
    exact ⟨h', run⟩
  · obtain ⟨target, monitor, run, freed, _⟩ := monitorDestory_chain owning chain room
    refine ⟨⟨target, monitor, h.device.put pd none notNull⟩, ?_, by rwa [nodes_entriesOf]⟩
    simp only [deviceDestory, if_neg notNull, Memory.read_held built, run, Memory.free_held built,
      bind, Except.bind]

end Traversals

theorem orderly_forest (s : ForestState) (orderly : Orderly s) : Forest s := by
  cases s with
  | error fault => exact orderly
  | ok h =>
    obtain ⟨lists, own, listing, owning⟩ := orderly
    refine ⟨fun pd => entriesOf own (lists pd), ?_, ?_⟩
    · intro pd d built
      exact orderly_traversed listing owning built
    · intro pd pd' _ _ differs a here there
      rw [nodes_entriesOf] at here there
      exact differs (listing_apart listing here there)

theorem endsAtCurmon_cases {h : Heap} {pd : Ptr} {d : Device}
    (listing : Listing h.device h.monitor lists) (built : h.device.cell pd = some d)
    (ends : EndsAtCurmon h d) :
    d.monitor = NULL ∨ ∃ before c, lists pd = before ++ [(d.curmon, c)] := by
  rcases ends with empty | ⟨before, c, chain⟩
  · exact .inl empty
  · exact .inr ⟨before, c, chain_unique (listing.chain pd d built) chain⟩

theorem forestStep_orderly (s : ForestState) (call : ForestCall) (t : ForestState)
    (tail : TailKnown s call) (unlisted : Unlisted s call) (taken : forestStep s call t)
    (orderly : Orderly s) : Orderly t := by
  cases s with
  | error fault => exact orderly.elim
  | ok h =>
    obtain ⟨callable, rfl⟩ := taken
    have unchanged := orderly
    obtain ⟨lists, own, listing, owning⟩ := orderly
    cases call with
    | deviceNew pdAt ip label =>
      rcases ip with _ | ip
      · exact unchanged
      · rcases label with _ | label
        · exact unchanged
        · simp only [runForest, deviceNew_fresh ip label callable, Except.map]
          exact ⟨lists, own, deviceNew_listing listing callable rfl, owning⟩
    | monitorNew pmAt ptAt label stat =>
      rcases label with _ | label
      · exact unchanged
      · obtain ⟨freshMonitor, freshTarget, value, shown⟩ := callable
        simp only [runForest, monitorNew_fresh label freshMonitor freshTarget shown, Except.map]
        exact ⟨lists, _, monitorNew_listing listing freshMonitor rfl,
          monitorNew_owning owning freshMonitor freshTarget rfl rfl⟩
    | add pd pm =>
      by_cases refused : pd = NULL ∨ pm = NULL
      · simp only [runForest, deviceAddMonitor, if_pos refused]
        exact unchanged
      · obtain ⟨noDevice, noMonitor⟩ := not_or.mp refused
        obtain ⟨d, built⟩ := callable.1.resolve_left noDevice
        obtain ⟨m, held⟩ := callable.2.resolve_left noMonitor
        have ends := (tail.resolve_left noDevice).resolve_left noMonitor d built
        have apart (other : Ptr) : pm ∉ (lists other).map Prod.fst := fun member =>
          (unlisted.resolve_left noDevice).resolve_left noMonitor other
            ((inList_iff listing other pm).mpr member)
        have added : ∃ h', deviceAddMonitor h pd pm = .ok (0, h') ∧ Orderly (.ok h') := by
          rcases endsAtCurmon_cases listing built ends with empty | ⟨before, c, split⟩
          · exact add_first listing owning built held apart empty
          · exact add_behind listing owning built held apart split
        obtain ⟨h', run, orderly⟩ := added
        simpa only [runForest, run, Except.map] using orderly
    | del pd label =>
      by_cases noDevice : pd = NULL
      · simp only [runForest, deviceDelMonitor, if_pos noDevice]
        exact unchanged
      · rcases label with _ | label
        · simp only [runForest, deviceDelMonitor, if_neg noDevice]
          exact unchanged
        · obtain ⟨d, built⟩ := callable.resolve_left noDevice
          obtain ⟨h', run, orderly⟩ := del_orderly label listing owning built
          simpa only [runForest, run, Except.map] using orderly

/-- What an addition of any live monitor does: it names its new device, and of all the
    links at most that of `_curmon` changes. -/
structure Added (h h' : Heap) (pd pm : Ptr) (d : Device) : Prop where
  names : (h'.monitor.cell pm).map Monitor.pd = some (some pd)
  links : ∀ a, d.monitor = NULL ∨ a ≠ d.curmon →
    (h'.monitor.cell a).map Monitor.next = (h.monitor.cell a).map Monitor.next
  back : d.monitor ≠ NULL → (h'.monitor.cell d.curmon).map Monitor.next = some pm
  start : d.monitor ≠ NULL → (h'.device.cell pd).map Device.monitor = some d.monitor
  curmon : (h'.device.cell pd).map Device.curmon = some pm
  devices : ∀ other, other ≠ pd → h'.device.cell other = h.device.cell other
  keeps : ∀ a, (h'.monitor.cell a).map (fun m => (m.stat, m.target, m.cru)) =
    (h.monitor.cell a).map fun m => (m.stat, m.target, m.cru)
  targets : h'.target = h.target

theorem add_effect {h : Heap} {pd pm : Ptr} {d : Device} {m : Monitor}
    (built : h.device.cell pd = some d) (held : h.monitor.cell pm = some m)
    (live : d.monitor = NULL ∨ LiveMonitor h d.curmon) :
    ∃ h', deviceAddMonitor h pd pm = .ok (0, h') ∧ Added h h' pd pm d := by
  have notNull := Memory.address_ne_null held
  let first := h.monitor.put pm (some { m with pd := some pd }) notNull
  have firstKeeps {α : Type} (f : Monitor → α) (same : f { m with pd := some pd } = f m) (a : Ptr) :
      (first.cell a).map f = (h.monitor.cell a).map f :=
    Memory.put_keeps held f same notNull a
  by_cases empty : d.monitor = NULL
  · refine ⟨_, deviceAddMonitor_first built held empty, by simp, fun a _ => firstKeeps _ rfl a,
      fun filled => absurd empty filled, fun filled => absurd empty filled, by simp, ?_,
      firstKeeps _ rfl, rfl⟩
    intro other differs
    simp [Function.update_of_ne differs]
  · obtain ⟨c, heldCur⟩ := live.resolve_left empty
    obtain ⟨c', keptCur⟩ : ∃ c', first.cell d.curmon = some c' := by
      have links := firstKeeps Monitor.next rfl d.curmon
      exact (Memory.kept_held links heldCur).imp fun _ kept => kept.1
    refine ⟨_, deviceAddMonitor_behind built held empty keptCur, ?_, ?_, fun _ => by simp,
      fun _ => by simp, by simp, ?_, ?_, rfl⟩
    · by_cases same : pm = d.curmon
      · have written : some { m with pd := some pd } = some c' := by
          rw [← keptCur, ← same]
          simp [first]
        simp [← same, ← Option.some.inj written]
      · simp [Function.update_of_ne same]
    · intro a outside
      simp only [Memory.put_cell, Function.update_of_ne (outside.resolve_left empty)]
      exact firstKeeps _ rfl a
    · intro other differs
      simp [Function.update_of_ne differs]
    · intro a
      rw [← firstKeeps _ rfl a]
      exact Memory.put_keeps keptCur _ (by rfl) (Memory.address_ne_null heldCur) a

theorem shared_breaks {h h' : Heap} {pd other pm : Ptr} {d : Device}
    (listing : Listing h.device h.monitor lists) (listed : pm ∈ (lists other).map Prod.fst)
    (differs : other ≠ pd) (outside : d.monitor = NULL ∨ d.curmon ∉ (lists other).map Prod.fst)
    (added : Added h h' pd pm d) : ¬ Forest (.ok h') := by
  rintro ⟨entries, traversed, _⟩
  obtain ⟨o, built⟩ := listing_lister listing listed
  have good := traversed other o ((added.devices other differs).trans built)
  have kept (x : Ptr × Monitor) (member : x ∈ lists other) :
      (h'.monitor.cell x.1).map Monitor.next = some x.2.next := by
    have notCur : d.monitor = NULL ∨ x.1 ≠ d.curmon :=
      outside.imp_right fun apart same => apart (same ▸ List.mem_map_of_mem member)
    rw [added.links x.1 notCur, listing_held listing member, Option.map_some]
  obtain ⟨cells, addresses, chain⟩ := segment_links (listing.chain other o built) kept
  rw [← addresses, ← chain_unique good.ends chain] at listed
  obtain ⟨cell, inside, rfl⟩ := List.mem_map.mp listed
  obtain ⟨e, member, rfl⟩ := List.mem_map.mp inside
  have held := segment_held good.ends inside
  have names := added.names
  rw [held, Option.map_some, good.attached e member] at names
  exact differs (Option.some.inj (Option.some.inj names))

theorem relinked_breaks {h h' : Heap} {pd pm : Ptr} {d : Device} {c : Monitor}
    {before : List (Ptr × Monitor)} (listing : Listing h.device h.monitor lists)
    (built : h.device.cell pd = some d) (split : lists pd = before ++ [(d.curmon, c)])
    (listed : pm ∈ (lists pd).map Prod.fst) (added : Added h h' pd pm d) :
    ¬ Forest (.ok h') := by
  rintro ⟨entries, traversed, _⟩
  have chain := listing.chain pd d built
  have filled := chain_filled chain (by simp [split])
  have distinct := chain_nodup chain
  rw [split] at chain listed distinct
  simp only [List.map_append, List.map_cons, List.map_nil, List.nodup_append] at distinct
  obtain ⟨d', built', sameStart⟩ := Option.map_eq_some_iff.mp (added.start filled)
  obtain ⟨n, heldCur, sameNext⟩ := Option.map_eq_some_iff.mp (added.back filled)
  have good := (traversed pd d' built').ends
  rw [sameStart] at good
  obtain ⟨middle, toCur, rfl, _⟩ := segment_append.mp chain
  have kept (x : Ptr × Monitor) (member : x ∈ before) :
      (h'.monitor.cell x.1).map Monitor.next = some x.2.next := by
    have notCur : x.1 ≠ d.curmon := distinct.2.2 x.1 (List.mem_map_of_mem member) _ (by simp)
    rw [added.links x.1 (.inr notCur), segment_held toCur member, Option.map_some]
  -- the way to the monitor, and the way from it to the last one
  have ways : ∃ way loop, Segment h'.monitor Monitor.next d.monitor way pm ∧
      Segment h'.monitor Monitor.next pm loop d.curmon := by
    simp only [List.map_append, List.map_cons, List.map_nil, List.mem_append,
      List.mem_singleton] at listed
    rcases listed with inside | rfl
    · obtain ⟨⟨a, m⟩, member, rfl⟩ := List.mem_map.mp inside
      obtain ⟨front, rest, rfl⟩ := List.append_of_mem member
      obtain ⟨middle', toA, here, fromA⟩ := segment_append.mp toCur
      rw [here] at toA
      obtain ⟨way, _, first⟩ := segment_links toA fun x inFront => kept x (by simp [inFront])
      have fromHere : Segment h.monitor Monitor.next a ((a, m) :: rest) d.curmon := ⟨rfl, fromA⟩
      obtain ⟨loop, _, second⟩ := segment_links fromHere
        fun x inRest => kept x (List.mem_append_right _ inRest)
      exact ⟨way, loop, first, second⟩
    · obtain ⟨way, _, first⟩ := segment_links toCur kept
      exact ⟨way, [], first, rfl⟩
  obtain ⟨way, loop, first, second⟩ := ways
  have cycle : Segment h'.monitor Monitor.next pm (loop ++ [(d.curmon, n)]) pm :=
    segment_append.mpr ⟨_, second, rfl, heldCur, sameNext⟩
  obtain ⟨rest, _, fromMonitor⟩ := chain_after first good
  exact cycle_endless cycle (by simp) rest fromMonitor

theorem forestStep_breaks (s : ForestState) (call : ForestCall) (t : ForestState)
    (listed : ¬ Unlisted s call) (tail : TailKnown s call) (taken : forestStep s call t)
    (orderly : Orderly s) : ¬ Forest t := by
  cases s with
  | error fault => exact orderly.elim
  | ok h =>
    obtain ⟨callable, rfl⟩ := taken
    obtain ⟨lists, own, listing, owning⟩ := orderly
    cases call with
    | deviceNew | monitorNew | del => exact absurd trivial listed
    | add pd pm =>
      simp only [Unlisted, not_or, not_forall, not_not] at listed
      obtain ⟨noDevice, noMonitor, other, inList⟩ := listed
      obtain ⟨d, built⟩ := callable.1.resolve_left noDevice
      obtain ⟨m, held⟩ := callable.2.resolve_left noMonitor
      have ends := (tail.resolve_left noDevice).resolve_left noMonitor d built
      have member := (inList_iff listing other pm).mp inList
      have cases := endsAtCurmon_cases listing built ends
      have live : d.monitor = NULL ∨ LiveMonitor h d.curmon := by
        apply cases.imp_right
        rintro ⟨before, c, split⟩
        exact ⟨c, @listing_held _ _ _ listing pd (d.curmon, c) (by simp [split])⟩
      obtain ⟨h', run, added⟩ := add_effect built held live
      simp only [runForest, run, Except.map]
      by_cases same : other = pd
      · subst other
        rcases cases with empty | ⟨before, c, split⟩
        · have none : lists pd = [] := chain_unique (listing.chain pd d built) empty
          rw [none] at member
          simp at member
        · exact relinked_breaks listing built split member added
      · have outside : d.monitor = NULL ∨ d.curmon ∉ (lists other).map Prod.fst := by
          apply cases.imp_right
          rintro ⟨before, c, split⟩ shared
          exact same (listing_apart listing shared (by simp [split]))
        exact shared_breaks listing member same outside added

theorem empty_orderly : Orderly (.ok Heap.empty) := by
  refine ⟨fun _ => [], fun _ => [], ⟨?_, fun _ _ => rfl, ?_, ?_⟩, ⟨?_, fun _ _ => rfl, ?_⟩⟩
  · intro pd d built
    cases built
  · intro pd cell member
    cases member
  · intro a m held
    cases held
  · intro a m held
    cases held
  · intro a b _ x member
    cases member

theorem forest_iff_unlisted {path : List (ForestCall × ForestState)}
    (valid : Path forestStep (.ok Heap.empty) path)
    (tails : StepsMeet TailKnown (.ok Heap.empty) path) :
    (∀ s ∈ visited (.ok Heap.empty) path, Forest s) ↔
      StepsMeet Unlisted (.ok Heap.empty) path := by
  have restricted := path_meets valid tails
  refine visited_good_iff orderly_forest ?_ ?_ empty_orderly restricted
  · intro s call t unlisted taken orderly
    exact forestStep_orderly s call t taken.1 unlisted taken.2 orderly
  · intro s call t listed taken orderly
    exact forestStep_breaks s call t listed taken.1 taken.2 orderly

/-- In every run that puts only unlisted monitors behind the last monitor of their device,
    every state is a forest; and a run that knows its last monitors but adds a listed one
    does not keep it. -/
theorem device_lists_forest {path : List (ForestCall × ForestState)}
    (valid : Path forestStep (.ok Heap.empty) path) :
    (StepsMeet (fun s call => TailKnown s call ∧ Unlisted s call) (.ok Heap.empty) path →
      ∀ s ∈ visited (.ok Heap.empty) path, Forest s) ∧
    (StepsMeet TailKnown (.ok Heap.empty) path →
      (∀ s ∈ visited (.ok Heap.empty) path, Forest s) →
        StepsMeet Unlisted (.ok Heap.empty) path) := by
  constructor
  · intro meets
    obtain ⟨tails, unlisted⟩ := steps_meet_and.mp meets
    exact (forest_iff_unlisted valid tails).mpr unlisted
  · intro tails every
    exact (forest_iff_unlisted valid tails).mp every

def advanceForest (s : ForestState) (call : ForestCall) : ForestState := s.bind (runForest · call)

theorem letter_terminated : (0 : UInt8) ∉ [97] := by
  decide

def labelled : CString := ⟨[97], letter_terminated⟩

def newDevice (pdAt : Ptr) : ForestCall := .deviceNew pdAt (some labelled) (some labelled)

def newListed (pmAt ptAt : Ptr) : ForestCall := .monitorNew pmAt ptAt (some labelled) 0

theorem unlisted_alone {h : Heap} {pd pm : Ptr} {d : Device} {cells : List (Ptr × Monitor)}
    (alone : ∀ other, other ≠ pd → h.device.cell other = none) (built : h.device.cell pd = some d)
    (chain : Chain h.monitor Monitor.next d.monitor cells) (absent : pm ∉ cells.map Prod.fst)
    (other : Ptr) : ¬ InList h other pm := by
  rintro ⟨o, listed, held, chain', member⟩
  by_cases same : other = pd
  · subst other
    obtain rfl := Option.some.inj (built.symm.trans held)
    exact absent (chain_unique chain chain' ▸ member)
  · rw [alone other same] at held
    cases held

def twoMonitors : List ForestCall :=
  [newDevice 1, newListed 2 3, newListed 4 5, .add 1 2, .add 1 4, .del 1 (some labelled)]

/-- One device with two monitors, of which the first is deleted again. -/
theorem two_monitors_keep_the_forest :
    Path forestStep (.ok Heap.empty) (trace advanceForest (.ok Heap.empty) twoMonitors) ∧
      ∀ s ∈ visited (.ok Heap.empty) (trace advanceForest (.ok Heap.empty) twoMonitors),
        Forest s := by
  have valid : Path forestStep (.ok Heap.empty)
      (trace advanceForest (.ok Heap.empty) twoMonitors) :=
    ⟨⟨⟨by decide, rfl⟩, rfl⟩, ⟨⟨⟨by decide, rfl⟩, ⟨by decide, rfl⟩, _, rfl⟩, rfl⟩,
      ⟨⟨⟨by decide, rfl⟩, ⟨by decide, rfl⟩, _, rfl⟩, rfl⟩,
      ⟨⟨.inr ⟨_, rfl⟩, .inr ⟨_, rfl⟩⟩, rfl⟩, ⟨⟨.inr ⟨_, rfl⟩, .inr ⟨_, rfl⟩⟩, rfl⟩,
      ⟨.inr ⟨_, rfl⟩, rfl⟩, trivial⟩
  refine ⟨valid, (device_lists_forest valid).1
    ⟨⟨trivial, trivial⟩, ⟨trivial, trivial⟩, ⟨trivial, trivial⟩, ⟨?_, ?_⟩, ⟨?_, ?_⟩,
      ⟨trivial, trivial⟩, trivial⟩⟩
  · refine .inr (.inr fun d built => .inl ?_)
    obtain rfl := Option.some.inj built
    rfl
  · refine .inr (.inr (@unlisted_alone _ 1 2 _ [] ?_ rfl ?_ (by simp)))
    · exact fun other differs => Function.update_of_ne differs _ _
    · rfl
  · refine .inr (.inr fun d built => .inr ⟨[], ?_⟩)
    obtain rfl := Option.some.inj built
    exact ⟨_, rfl, rfl, rfl⟩
  · refine .inr (.inr (@unlisted_alone _ 1 4 _ [(2, attached 1 3 labelled 0)] ?_ rfl ?_ ?_))
    · exact fun other differs =>
        (Function.update_of_ne differs _ _).trans (Function.update_of_ne differs _ _)
    · exact ⟨rfl, rfl, rfl⟩
    · decide

theorem self_linked_breaks {h : Heap} {pd pm : Ptr}
    (start : (h.device.cell pd).map Device.monitor = some pm)
    (back : (h.monitor.cell pm).map Monitor.next = some pm) : ¬ Forest (.ok h) := by
  rintro ⟨lists, traversed, _⟩
  obtain ⟨d, built, rfl⟩ := Option.map_eq_some_iff.mp start
  obtain ⟨m, held, same⟩ := Option.map_eq_some_iff.mp back
  have cycle : Segment h.monitor Monitor.next d.monitor [(d.monitor, m)] d.monitor :=
    ⟨rfl, held, same⟩
  exact cycle_endless cycle (by simp) _ (traversed pd d built).ends

def addedTwice : List ForestCall := [newDevice 1, newListed 2 3, .add 1 2, .add 1 2]

/-- The same monitor is added twice. -/
theorem adding_twice_closes_a_cycle : ∃ h,
    Path forestStep (.ok Heap.empty) (trace advanceForest (.ok Heap.empty) addedTwice) ∧
    last (.ok Heap.empty) (trace advanceForest (.ok Heap.empty) addedTwice) = .ok h ∧
    ¬ Forest (.ok h) := by
  refine ⟨_, ⟨⟨⟨by decide, rfl⟩, rfl⟩, ⟨⟨⟨by decide, rfl⟩, ⟨by decide, rfl⟩, _, rfl⟩, rfl⟩,
    ⟨⟨.inr ⟨_, rfl⟩, .inr ⟨_, rfl⟩⟩, rfl⟩, ⟨⟨.inr ⟨_, rfl⟩, .inr ⟨_, rfl⟩⟩, rfl⟩, trivial⟩, rfl, ?_⟩
  exact @self_linked_breaks _ 1 2 rfl rfl

end DeviceForests
