import Boring.South.DeviceForests

/- The two copies of a monitor's status, the number `_stat` and the text of its first
   target, over any run on any number of monitors and devices. `monitor_set_stat` only
   writes the text. -/
namespace MonitorStatus
open LinkedCells StepRuns SouthHeap MonitorTargets DeviceMonitors DeviceForests

inductive StatusCall where
  | deviceNew (pdAt : Ptr) (ip label : Option CString)
  | monitorNew (pmAt ptAt : Ptr) (label : Option CString) (stat : Int)
  | setStat (pm : Ptr) (stat : Int)
  | addTarget (pm ptAt : Ptr) (label value unit : Option CString) (type : Int)
  | delTarget (pm : Ptr) (label : Option CString)
  | addMonitor (pd pm : Ptr)

def runStatus (h : Heap) : StatusCall → Except Fault Heap
  | .deviceNew pdAt ip label => runForest h (.deviceNew pdAt ip label)
  | .monitorNew pmAt ptAt label stat => runForest h (.monitorNew pmAt ptAt label stat)
  | .setStat pm stat => (monitorSetStat h pm stat).map Prod.snd
  | .addTarget pm ptAt label value unit type => exec pm h (.add ptAt label value unit type)
  | .delTarget pm label => exec pm h (.del label)
  | .addMonitor pd pm => runForest h (.add pd pm)

/-- The statuses are those of `enum statu`, and the pointers are NULL or alive. -/
def StatusCallable (h : Heap) : StatusCall → Prop
  | .deviceNew pdAt ip label => Callable h (.deviceNew pdAt ip label)
  | .monitorNew pmAt ptAt label stat => Callable h (.monitorNew pmAt ptAt label stat)
  | .setStat pm stat => (pm = NULL ∨ LiveMonitor h pm) ∧ ∃ text, status stat = .ok text
  | .addTarget pm ptAt label value unit type =>
    (pm = NULL ∨ LiveMonitor h pm) ∧ MallocFresh h (.add ptAt label value unit type)
  | .delTarget pm _ => pm = NULL ∨ LiveMonitor h pm
  | .addMonitor pd pm => Callable h (.add pd pm)

abbrev StatusState := Except Fault Heap

def statusStep : StepRel StatusState StatusCall
  | .ok h, call, next => StatusCallable h call ∧ next = runStatus h call
  | .error _, _, _ => False

/-- The text of the first target denotes the stored status. -/
def Agrees : StatusState → Prop
  | .ok h => ∀ pm m, h.monitor.cell pm = some m →
      ∃ t, h.target.cell m.target = some t ∧ status m.stat = .ok t.value
  | .error _ => False

/-- The status given to `monitor_set_stat` is the one the monitor was made with, and
    `monitor_add_target` does not find the target behind `_cru` freed (the allocator may
    have handed out the same memory again). -/
def KeepsStatus (s : StatusState) (call : StatusCall) : Prop :=
  match s, call with
  | .ok h, .setStat pm stat => ∀ m, h.monitor.cell pm = some m → stat = m.stat
  | .ok h, .addTarget pm ptAt (some _) (some _) (some _) _ => ∀ m, h.monitor.cell pm = some m →
      m.cru = ptAt ∨ ∃ cru, h.target.cell m.cru = some cru
  | _, _ => True

def CurmonLive (h : Heap) : Prop :=
  ∀ pd d, h.device.cell pd = some d → d.monitor = NULL ∨ LiveMonitor h d.curmon

def Tended : StatusState → Prop
  | .ok h => Agrees (.ok h) ∧ CurmonLive h ∧ ∃ own, Owning h.monitor h.target own
  | .error _ => False

theorem status_cases {stat : Int} {text : CString} (shown : status stat = .ok text) :
    (stat = 0 ∨ stat = 1 ∨ stat = 2) ∧ ∃ c, text.bytes = [c] := by
  unfold status at shown
  split at shown
  · exact ⟨.inl rfl, _, congrArg CString.bytes (Except.ok.inj shown).symm⟩
  · exact ⟨.inr (.inl rfl), _, congrArg CString.bytes (Except.ok.inj shown).symm⟩
  · exact ⟨.inr (.inr rfl), _, congrArg CString.bytes (Except.ok.inj shown).symm⟩
  · cases shown

theorem status_injective {stat stat' : Int} {text : CString} (shown : status stat = .ok text)
    (shown' : status stat' = .ok text) : stat = stat' := by
  have differs : status 0 ≠ status 1 ∧ status 0 ≠ status 2 ∧ status 1 ≠ status 2 := by decide
  have same := shown.trans shown'.symm
  rcases (status_cases shown).1 with rfl | rfl | rfl <;>
    rcases (status_cases shown').1 with rfl | rfl | rfl <;> simp_all

theorem copyFirst_status {stat stat' : Int} {value text : CString}
    (shown : status stat = .ok value) (given : status stat' = .ok text) :
    copyFirst value text = .ok text := by
  obtain ⟨c, single⟩ := (status_cases shown).2
  obtain ⟨c', single'⟩ := (status_cases given).2
  obtain ⟨bytes, kept⟩ := value
  obtain ⟨bytes', kept'⟩ := text
  obtain rfl : bytes = [c] := single
  obtain rfl : bytes' = [c'] := single'
  rfl

variable {h : Heap} {own : Ptr → List (Ptr × Target)}

theorem owned_head (owning : Owning h.monitor h.target own) {pm : Ptr} {m : Monitor} {t : Target}
    (held : h.monitor.cell pm = some m) (first : h.target.cell m.target = some t) :
    ∃ rest, own pm = (m.target, t) :: rest := by
  have chain := owning.targets pm m held
  cases cells : own pm with
  | nil =>
    rw [cells] at chain
    exact absurd chain (Memory.address_ne_null first)
  | cons cell rest =>
    rw [cells] at chain
    obtain ⟨a, c⟩ := cell
    obtain ⟨rfl, heldFirst, _⟩ := chain
    obtain rfl := Option.some.inj (first.symm.trans heldFirst)
    exact ⟨rest, rfl⟩

theorem agrees_frame {h' : Heap} (agrees : Agrees (.ok h))
    (monitors : ∀ a, (h'.monitor.cell a).map (fun m => (m.stat, m.target)) =
      (h.monitor.cell a).map fun m => (m.stat, m.target))
    (texts : ∀ pm m, h.monitor.cell pm = some m →
      (h'.target.cell m.target).map Target.value = (h.target.cell m.target).map Target.value) :
    Agrees (.ok h') := by
  intro pm m' held'
  obtain ⟨m, held, kept⟩ := Memory.kept_held (monitors pm).symm held'
  obtain ⟨sameStat, sameTarget⟩ := Prod.mk.inj kept
  obtain ⟨t, first, shown⟩ := agrees pm m held
  obtain ⟨t', first', sameText⟩ := Memory.kept_held (texts pm m held) first
  exact ⟨t', sameTarget ▸ first', by rw [← sameStat, shown, sameText]⟩

theorem owning_replace {monitor : Memory NULL Monitor} {target target' : Memory NULL Target}
    {pm : Ptr} {m : Monitor} {cells : List (Ptr × Target)} (owning : Owning monitor target own)
    (held : monitor.cell pm = some m) (chain : Chain target' Target.next m.target cells)
    (frame : ∀ b, b ≠ pm → ∀ x ∈ (own b).map Prod.fst, target'.cell x = target.cell x)
    (apart : ∀ b, b ≠ pm → ∀ x ∈ cells.map Prod.fst, x ∉ (own b).map Prod.fst) :
    Owning monitor target' (Function.update own pm cells) := by
  refine owning_reown owning ?_ ?_ (fun _ _ => rfl) frame apart
  · intro n held'
    obtain rfl := Option.some.inj (held.symm.trans held')
    exact chain
  · intro absent
    simp [held] at absent

theorem owning_untouched {monitor : Memory NULL Monitor} {target target' : Memory NULL Target}
    (owning : Owning monitor target own)
    (frame : ∀ b, ∀ x ∈ (own b).map Prod.fst, target'.cell x = target.cell x) :
    Owning monitor target' own :=
  ⟨fun b n held => segment_frame (owning.targets b n held) (frame b), owning.gone, owning.apart⟩

theorem curmon_kept {h' : Heap} (live : CurmonLive h) (devices : h'.device = h.device)
    (monitors : ∀ a, (h'.monitor.cell a).map Monitor.stat = (h.monitor.cell a).map Monitor.stat) :
    CurmonLive h' := by
  intro pd d built
  rw [devices] at built
  apply (live pd d built).imp_right
  rintro ⟨n, heldCur⟩
  exact (Memory.kept_held (monitors d.curmon) heldCur).imp fun _ found => found.1

theorem setStat_effect {pm : Ptr} {m : Monitor} {stat : Int} {text : CString}
    (agrees : Agrees (.ok h)) (held : h.monitor.cell pm = some m)
    (given : status stat = .ok text) :
    ∃ t target, monitorSetStat h pm stat = .ok (0, { h with target }) ∧
      h.target.cell m.target = some t ∧ status m.stat = .ok t.value ∧
      target.cell = Function.update h.target.cell m.target (some { t with value := text }) := by
  obtain ⟨t, first, shown⟩ := agrees pm m held
  refine ⟨t, h.target.put m.target (some { t with value := text }) (Memory.address_ne_null first),
    ?_, first, shown, rfl⟩
  simp only [monitorSetStat, if_neg (Memory.address_ne_null held), Memory.read_held held,
    Memory.read_held first, given, copyFirst_status shown given, Memory.write_held _ first, bind,
    Except.bind]

theorem setStat_tended {pm : Ptr} {m : Monitor} {text : CString} (tended : Tended (.ok h))
    (held : h.monitor.cell pm = some m) (given : status m.stat = .ok text) :
    Tended ((monitorSetStat h pm m.stat).map Prod.snd) := by
  obtain ⟨agrees, live, own, owning⟩ := tended
  obtain ⟨t, target, run, first, shown, written⟩ := setStat_effect agrees held given
  obtain rfl : text = t.value := Except.ok.inj (given.symm.trans shown)
  have unchanged (x : Ptr) : target.cell x = h.target.cell x := by
    rw [written]
    by_cases same : x = m.target
    · rw [same, Function.update_self, first]
    · rw [Function.update_of_ne same]
  rw [run]
  refine ⟨agrees_frame agrees (fun _ => rfl) ?_, live, own,
    owning_untouched owning fun _ x _ => unchanged x⟩
  intro pm' m' _
  exact congrArg _ (unchanged m'.target)

theorem setStat_breaks {pm : Ptr} {m : Monitor} {stat : Int} {text : CString}
    (agrees : Agrees (.ok h)) (held : h.monitor.cell pm = some m)
    (given : status stat = .ok text) (differs : stat ≠ m.stat) :
    ¬ Agrees ((monitorSetStat h pm stat).map Prod.snd) := by
  obtain ⟨t, target, run, _, _, written⟩ := setStat_effect agrees held given
  rw [run]
  intro after
  obtain ⟨t', first', shown'⟩ := after pm m held
  rw [written, Function.update_self] at first'
  obtain rfl := Option.some.inj first'
  exact differs (status_injective given shown')

theorem addTarget_effect {pm ptAt : Ptr} {m : Monitor} {label value unit : CString} {type : Int}
    (held : h.monitor.cell pm = some m) (fresh : h.target.Fresh ptAt)
    (live : m.cru = ptAt ∨ ∃ cru, h.target.cell m.cru = some cru) :
    ∃ t c target, monitorAddTarget h pm ptAt (some label) (some value) (some unit) type =
        .ok (0, ⟨target, h.monitor.put pm (some { m with cru := ptAt, itarget := m.itarget + 1 })
          (Memory.address_ne_null held), h.device⟩) ∧ t.next = NULL ∧
      (h.target.put ptAt (some t) fresh.1).cell m.cru = some c ∧
      target.cell = Function.update (Function.update h.target.cell ptAt (some t)) m.cru
        (some { c with next := ptAt }) := by
  obtain ⟨t, made⟩ : ∃ t : Target,
    t = { label, unit := some unit, type, value, next := NULL, pm } := ⟨_, rfl⟩
  obtain ⟨c, heldCru⟩ : ∃ c, (h.target.put ptAt (some t) fresh.1).cell m.cru = some c := by
    by_cases same : m.cru = ptAt
    · exact ⟨t, by simp [same]⟩
    · obtain ⟨cru, kept⟩ := live.resolve_left same
      exact ⟨cru, by simpa [Function.update_of_ne same] using kept⟩
  refine ⟨t, c, (h.target.put ptAt (some t) fresh.1).put m.cru (some { c with next := ptAt })
    (Memory.address_ne_null heldCru), ?_, by rw [made], heldCru, rfl⟩
  simp only [monitorAddTarget, if_neg (Memory.address_ne_null held), ← made,
    Memory.malloc_fresh _ fresh, Memory.read_held held, Memory.read_held heldCru,
    Memory.write_held _ heldCru, Memory.write_held _ held, bind, Except.bind]

theorem addTarget_owning {monitor : Memory NULL Monitor} {target target' : Memory NULL Target}
    {ptAt cru : Ptr} {t c : Target} (owning : Owning monitor target own)
    (fresh : target.Fresh ptAt) (ends : t.next = NULL)
    (heldCru : (target.put ptAt (some t) fresh.1).cell cru = some c)
    (written : target'.cell = Function.update (Function.update target.cell ptAt (some t)) cru
      (some { c with next := ptAt })) : ∃ own', Owning monitor target' own' := by
  have new := owning_fresh owning fresh
  have frame (b x : Ptr) (member : x ∈ (own b).map Prod.fst) (notCru : x ≠ cru) :
      target'.cell x = target.cell x := by
    have notNew : x ≠ ptAt := fun same => new b (same ▸ member)
    rw [written, Function.update_of_ne notCru, Function.update_of_ne notNew]
  by_cases listed : ∃ b, cru ∈ (own b).map Prod.fst
  · obtain ⟨b, member⟩ := listed
    obtain ⟨⟨a, old⟩, inside, rfl⟩ := List.mem_map.mp member
    obtain ⟨front, behind, split⟩ := List.append_of_mem inside
    obtain ⟨m, held⟩ : ∃ m, monitor.cell b = some m := by
      cases held : monitor.cell b with
      | none => simp [owning.gone b held] at inside
      | some m => exact ⟨m, rfl⟩
    have chain := owning.targets b m held
    have distinct := chain_nodup chain
    have notNew : a ≠ ptAt := fun same => new b (same ▸ member)
    rw [split] at chain distinct
    simp only [List.map_append, List.map_cons, List.nodup_append] at distinct
    obtain ⟨middle, toCru, rfl, _⟩ := segment_append.mp chain
    have inFront (x : Ptr) (front' : x ∈ front.map Prod.fst) : x ∈ (own b).map Prod.fst := by
      rw [split, List.map_append]
      exact List.mem_append_left _ front'
    refine ⟨Function.update own b (front ++ [(middle, { c with next := ptAt }), (ptAt, t)]),
      owning_replace owning held ?_ ?_ ?_⟩
    · refine segment_append.mpr ⟨middle, segment_frame toCru ?_, rfl, ?_, rfl, ?_, ends⟩
      · intro x front'
        apply frame b x (inFront x front')
        exact distinct.2.2 x front' middle (by simp)
      · rw [written, Function.update_self]
      · rw [written, Function.update_of_ne (Ne.symm notNew), Function.update_self]
    · intro other differs x member'
      apply frame other x member'
      rintro rfl
      exact owning.apart other b differs _ member' member
    · intro other differs x member'
      simp only [List.map_append, List.map_cons, List.map_nil, List.mem_append, List.mem_cons,
        List.not_mem_nil, or_false] at member'
      rcases member' with front' | rfl | rfl
      · exact owning.apart b other (Ne.symm differs) x (inFront x front')
      · exact owning.apart b other (Ne.symm differs) _ member
      · exact new other
  · refine ⟨own, owning_untouched owning fun b x member => frame b x member ?_⟩
    rintro rfl
    exact listed ⟨b, member⟩

theorem addTarget_tended {pm ptAt : Ptr} {m : Monitor} {label value unit : CString} {type : Int}
    (tended : Tended (.ok h)) (held : h.monitor.cell pm = some m) (fresh : h.target.Fresh ptAt)
    (behind : m.cru = ptAt ∨ ∃ cru, h.target.cell m.cru = some cru) :
    Tended (exec pm h (.add ptAt (some label) (some value) (some unit) type)) := by
  obtain ⟨agrees, live, own, owning⟩ := tended
  obtain ⟨t, c, target, run, ends, heldCru, written⟩ :=
    @addTarget_effect h pm ptAt m label value unit type held fresh behind
  rw [exec_add run]
  have keeps {α : Type} (f : Monitor → α)
      (same : f { m with cru := ptAt, itarget := m.itarget + 1 } = f m) :=
    Memory.put_keeps held f same (Memory.address_ne_null held)
  obtain ⟨own', owning'⟩ := addTarget_owning owning fresh ends heldCru written
  refine ⟨agrees_frame agrees (keeps _ rfl) ?_, curmon_kept live rfl (keeps _ rfl), own',
    owning_frame owning' (keeps Monitor.target rfl)⟩
  · intro pm' m' held'
    obtain ⟨first, heldFirst, _⟩ := agrees pm' m' held'
    have notNew := Memory.fresh_ne fresh heldFirst
    simp only [written]
    by_cases same : m'.target = m.cru
    · rw [same, Function.update_self]
      rw [Memory.put_cell, ← same, Function.update_of_ne notNew] at heldCru
      rw [← same, heldCru]
      rfl
    · rw [Function.update_of_ne same, Function.update_of_ne notNew]

theorem delTarget_tended {pm : Ptr} {m : Monitor} (label : CString) (tended : Tended (.ok h))
    (held : h.monitor.cell pm = some m) : Tended (exec pm h (.del (some label))) := by
  have unchanged := tended
  obtain ⟨agrees, live, own, owning⟩ := tended
  obtain ⟨t, first, _⟩ := agrees pm m held
  obtain ⟨rest, split⟩ := owned_head owning held first
  have chain := owning.targets pm m held
  rw [split] at chain
  rcases erase_cases rest fun cell => cell.2.label = label with
    ⟨misses, _⟩ | ⟨passed, ⟨a, ta⟩, behind, rfl, found, others, _⟩
  · rw [exec_del (del_misses held chain fun cell member => of_decide_eq_false (misses cell member))]
    exact unchanged
  · obtain ⟨target, front, b, tb, run, places, chain', _, frame⟩ := del_unlinks held chain
      (fun cell member => of_decide_eq_false (others cell member)) (of_decide_eq_true found)
    have addresses := @redirect_addresses _ _ _ behind _ ta.next _ places
    have texts := @redirect_data _ _ _ behind _ ta.next _ places
    have listedA : a ∈ (own pm).map Prod.fst := by simp [split]
    have listedB : b ∈ (own pm).map Prod.fst := by
      rw [split, ← List.cons_append, places]
      simp
    have apart (other : Ptr) (differs : other ≠ pm) (x : Ptr)
        (member : x ∈ (own other).map Prod.fst) : target.cell x = h.target.cell x := by
      apply frame x
      · rintro rfl
        exact owning.apart other pm differs _ member listedA
      · rintro rfl
        exact owning.apart other pm differs _ member listedB
    have keeps {α : Type} (f : Monitor → α) (same : f { m with itarget := m.itarget - 1 } = f m) :=
      Memory.put_keeps held f same (Memory.address_ne_null held)
    rw [exec_del run]
    refine ⟨agrees_frame agrees (keeps _ rfl) ?_, curmon_kept live rfl (keeps _ rfl), _,
      owning_frame (owning_replace owning held chain' apart ?_) (keeps Monitor.target rfl)⟩
    · intro pm' m' held'
      by_cases same : pm' = pm
      · subst pm'
        obtain rfl := Option.some.inj (held.symm.trans held')
        -- the first cell may have a new link, but its text is the old one
        obtain ⟨cell, cells, split', text, _⟩ := List.map_eq_cons_iff.mp texts
        rw [split'] at chain'
        have heldFirst : target.cell m.target = some cell.2 := chain'.1 ▸ chain'.2.1
        rw [heldFirst, first]
        exact congrArg some (congrArg TargetData.value text)
      · obtain ⟨t', first', _⟩ := agrees pm' m' held'
        obtain ⟨rest', split'⟩ := owned_head owning held' first'
        exact congrArg _ (apart pm' same m'.target (by simp [split']))
    · intro other differs x member
      apply owning.apart pm other (Ne.symm differs) x
      rw [addresses] at member
      rw [split]
      simp only [List.map_cons, List.map_append, List.mem_cons, List.mem_append] at member ⊢
      exact member.imp_right (Or.imp_right .inr)

theorem addMonitor_tended {pd pm : Ptr} {d : Device} {m : Monitor} (tended : Tended (.ok h))
    (built : h.device.cell pd = some d) (held : h.monitor.cell pm = some m) :
    Tended (runForest h (.add pd pm)) := by
  obtain ⟨agrees, live, own, owning⟩ := tended
  obtain ⟨h', run, added⟩ := add_effect built held (live pd d built)
  have keeps {α : Type} (f : Int × Ptr × Ptr → α) (a : Ptr) :
      (h'.monitor.cell a).map (fun m => f (m.stat, m.target, m.cru)) =
        (h.monitor.cell a).map fun m => f (m.stat, m.target, m.cru) := by
    simpa only [Option.map_map, Function.comp_def] using congrArg (Option.map f) (added.keeps a)
  have alive (a : Ptr) (n : Monitor) (old : h.monitor.cell a = some n) : LiveMonitor h' a :=
    (Memory.kept_held (keeps (·.1) a) old).imp fun _ found => found.1
  simp only [runForest, run, Except.map]
  refine ⟨agrees_frame agrees (keeps fun x => (x.1, x.2.1)) ?_, ?_, own, ?_⟩
  · intro pm' m' _
    rw [added.targets]
  · intro pd' d' built'
    by_cases same : pd' = pd
    · subst pd'
      have last := added.curmon
      rw [built', Option.map_some, Option.some.injEq] at last
      exact .inr (last ▸ alive pm m held)
    · rw [added.devices pd' same] at built'
      apply (live pd' d' built').imp_right
      rintro ⟨n, old⟩
      exact alive d'.curmon n old
  · rw [added.targets]
    exact owning_frame owning (keeps fun x => x.2.1)

theorem monitorNew_tended {pmAt ptAt : Ptr} {label value : CString} {stat : Int}
    (tended : Tended (.ok h)) (freshMonitor : h.monitor.Fresh pmAt)
    (freshTarget : h.target.Fresh ptAt) (shown : status stat = .ok value) :
    Tended (runForest h (.monitorNew pmAt ptAt (some label) stat)) := by
  obtain ⟨agrees, live, own, owning⟩ := tended
  simp only [runForest, monitorNew_fresh label freshMonitor freshTarget shown, Except.map]
  refine ⟨?_, ?_, _, monitorNew_owning owning freshMonitor freshTarget rfl rfl⟩
  · intro pm m held
    by_cases same : pm = pmAt
    · subst pm
      simp only [Memory.put_cell, Function.update_self, Option.some.injEq] at held
      subst m
      exact ⟨statusTarget pmAt value, by simp [newMonitor], shown⟩
    · simp only [Memory.put_cell, Function.update_of_ne same] at held
      obtain ⟨t, first, shown'⟩ := agrees pm m held
      have notNew := Memory.fresh_ne freshTarget first
      exact ⟨t, by simpa [Function.update_of_ne notNew] using first, shown'⟩
  · intro pd d built
    apply (live pd d built).imp_right
    rintro ⟨n, heldCur⟩
    have notNew := Memory.fresh_ne freshMonitor heldCur
    exact ⟨n, by simpa [Function.update_of_ne notNew] using heldCur⟩

theorem deviceNew_tended {pdAt : Ptr} {ip label : CString} (tended : Tended (.ok h))
    (fresh : h.device.Fresh pdAt) :
    Tended (runForest h (.deviceNew pdAt (some ip) (some label))) := by
  obtain ⟨agrees, live, own, owning⟩ := tended
  simp only [runForest, deviceNew_fresh ip label fresh, Except.map]
  refine ⟨agrees, ?_, own, owning⟩
  intro pd d built
  by_cases same : pd = pdAt
  · subst pd
    simp only [Memory.put_cell, Function.update_self, Option.some.injEq] at built
    exact .inl (congrArg Device.monitor built).symm
  · simp only [Memory.put_cell, Function.update_of_ne same] at built
    exact live pd d built

def ReturnsAtOnce : StatusCall → Prop
  | .deviceNew _ (some _) (some _) => False
  | .monitorNew _ _ (some _) _ => False
  | .setStat pm _ => pm = NULL
  | .addTarget pm _ (some _) (some _) (some _) _ => pm = NULL
  | .delTarget pm (some _) => pm = NULL
  | .addMonitor pd pm => pd = NULL ∨ pm = NULL
  | _ => True

theorem returnsAtOnce_unchanged {call : StatusCall} (early : ReturnsAtOnce call) :
    runStatus h call = .ok h := by
  cases call with
  | deviceNew pdAt ip label =>
    cases ip <;> cases label <;> simp_all [ReturnsAtOnce, runStatus, runForest, deviceNew,
      Except.map]
  | monitorNew pmAt ptAt label stat =>
    cases label <;> simp_all [ReturnsAtOnce, runStatus, runForest, monitorNew, Except.map]
  | setStat pm stat => simp_all [ReturnsAtOnce, runStatus, monitorSetStat, Except.map]
  | addTarget pm ptAt label value unit type =>
    cases label <;> cases value <;> cases unit <;>
      simp_all [ReturnsAtOnce, runStatus, exec, monitorAddTarget, Except.map]
  | delTarget pm label =>
    cases label <;> simp_all [ReturnsAtOnce, runStatus, exec, monitorDelTarget, Except.map]
  | addMonitor pd pm =>
    have refused : pd = NULL ∨ pm = NULL := early
    simp [runStatus, runForest, deviceAddMonitor, if_pos refused, Except.map]

theorem statusStep_keeps (s : StatusState) (call : StatusCall) (t : StatusState)
    (allowed : KeepsStatus s call) (taken : statusStep s call t) (tended : Tended s) :
    Tended t := by
  cases s with
  | error fault => exact taken.elim
  | ok h =>
    obtain ⟨callable, rfl⟩ := taken
    by_cases early : ReturnsAtOnce call
    · rw [returnsAtOnce_unchanged early]
      exact tended
    · cases call with
      | deviceNew pdAt ip label =>
        cases ip <;> cases label <;> simp only [ReturnsAtOnce, not_true] at early
        exact deviceNew_tended tended callable
      | monitorNew pmAt ptAt label stat =>
        cases label <;> simp only [ReturnsAtOnce, not_true] at early
        obtain ⟨freshMonitor, freshTarget, value, shown⟩ := callable
        exact monitorNew_tended tended freshMonitor freshTarget shown
      | setStat pm stat =>
        obtain ⟨m, held⟩ := callable.1.resolve_left early
        obtain ⟨text, given⟩ := callable.2
        obtain rfl := allowed m held
        exact setStat_tended tended held given
      | addTarget pm ptAt label value unit type =>
        cases label <;> cases value <;> cases unit <;> simp only [ReturnsAtOnce, not_true] at early
        obtain ⟨m, held⟩ := callable.1.resolve_left early
        exact addTarget_tended tended held callable.2 (allowed m held)
      | delTarget pm label =>
        cases label <;> simp only [ReturnsAtOnce, not_true] at early
        obtain ⟨m, held⟩ := callable.resolve_left early
        exact delTarget_tended _ tended held
      | addMonitor pd pm =>
        obtain ⟨noDevice, noMonitor⟩ := not_or.mp early
        obtain ⟨d, built⟩ := callable.1.resolve_left noDevice
        obtain ⟨m, held⟩ := callable.2.resolve_left noMonitor
        exact addMonitor_tended tended built held

theorem addTarget_dangling {pm ptAt : Ptr} {m : Monitor} {label value unit : CString} {type : Int}
    (held : h.monitor.cell pm = some m) (fresh : h.target.Fresh ptAt) (notNew : m.cru ≠ ptAt)
    (freed : h.target.cell m.cru = none) :
    ¬ Agrees (exec pm h (.add ptAt (some label) (some value) (some unit) type)) := by
  have gone (t : Target) : (h.target.put ptAt (some t) fresh.1).read m.cru =
      .error (Memory.missing NULL m.cru) := by
    simp [Memory.read, Function.update_of_ne notNew, freed]
  simp only [exec, monitorAddTarget, if_neg (Memory.address_ne_null held),
    Memory.malloc_fresh _ fresh, Memory.read_held held, gone, bind, Except.bind, Except.map]
  exact id

theorem statusStep_breaks (s : StatusState) (call : StatusCall) (t : StatusState)
    (refused : ¬ KeepsStatus s call) (taken : statusStep s call t) (tended : Tended s) :
    ¬ Agrees t := by
  cases s with
  | error fault => exact taken.elim
  | ok h =>
    obtain ⟨callable, rfl⟩ := taken
    cases call with
    | deviceNew | monitorNew | delTarget | addMonitor => exact absurd trivial refused
    | setStat pm stat =>
      simp only [KeepsStatus, not_forall] at refused
      obtain ⟨m, held, differs⟩ := refused
      obtain ⟨text, given⟩ := callable.2
      exact setStat_breaks tended.1 held given differs
    | addTarget pm ptAt label value unit type =>
      cases label <;> cases value <;> cases unit <;>
        simp only [KeepsStatus, not_true, not_forall, not_or, not_exists] at refused
      obtain ⟨m, held, notNew, freed⟩ := refused
      exact addTarget_dangling held callable.2 notNew (Option.eq_none_iff_forall_ne_some.mpr freed)

theorem empty_tended : Tended (.ok Heap.empty) := by
  refine ⟨?_, ?_, fun _ => [], ?_, fun _ _ => rfl, ?_⟩
  · intro pm m held
    cases held
  · intro pd d built
    cases built
  · intro a m held
    cases held
  · intro a b _ x member
    cases member

/-- The two copies of every monitor's status agree throughout a run exactly when each
    `monitor_set_stat` of the run sets the status the monitor was made with, and no
    `monitor_add_target` links behind a freed target. -/
theorem status_agrees_iff {path : List (StatusCall × StatusState)}
    (valid : Path statusStep (.ok Heap.empty) path) :
    (∀ s ∈ visited (.ok Heap.empty) path, Agrees s) ↔
      StepsMeet KeepsStatus (.ok Heap.empty) path := by
  refine visited_good_iff ?_ statusStep_keeps statusStep_breaks empty_tended valid
  intro s tended
  cases s with
  | error fault => exact tended
  | ok h => exact tended.1

def advanceStatus (s : StatusState) (call : StatusCall) : StatusState := s.bind (runStatus · call)

def newGood (pmAt ptAt : Ptr) : StatusCall := .monitorNew pmAt ptAt (some labelA) 0

def statusCalls : List StatusCall :=
  [newGood 2 3, .setStat 2 0, .addTarget 2 4 (some labelA) (some labelA) (some labelA) 1,
    .delTarget 2 (some labelA)]

/-- A monitor whose status is set to what it is, with a target that comes and goes. -/
theorem unchanged_status_agrees :
    Path statusStep (.ok Heap.empty) (trace advanceStatus (.ok Heap.empty) statusCalls) ∧
      ∀ s ∈ visited (.ok Heap.empty) (trace advanceStatus (.ok Heap.empty) statusCalls),
        Agrees s := by
  have valid : Path statusStep (.ok Heap.empty)
      (trace advanceStatus (.ok Heap.empty) statusCalls) :=
    ⟨⟨⟨⟨by decide, rfl⟩, ⟨by decide, rfl⟩, _, rfl⟩, rfl⟩, ⟨⟨.inr ⟨_, rfl⟩, _, rfl⟩, rfl⟩,
      ⟨⟨.inr ⟨_, rfl⟩, by decide, rfl⟩, rfl⟩, ⟨.inr ⟨_, rfl⟩, rfl⟩, trivial⟩
  refine ⟨valid, (status_agrees_iff valid).mpr ⟨trivial, ?_, ?_, trivial, trivial⟩⟩
  · intro m held
    obtain rfl := Option.some.inj held
    rfl
  · intro m held
    obtain rfl := Option.some.inj held
    exact .inr ⟨_, rfl⟩

/-- A monitor made in the good status is set to the bad one. -/
theorem set_status_leaves_stat : ∃ h,
    Path statusStep (.ok Heap.empty)
      (trace advanceStatus (.ok Heap.empty) [newGood 2 3, .setStat 2 2]) ∧
    last (.ok Heap.empty) (trace advanceStatus (.ok Heap.empty) [newGood 2 3, .setStat 2 2]) =
      .ok h ∧ ¬ Agrees (.ok h) := by
  refine ⟨_, ⟨⟨⟨⟨by decide, rfl⟩, ⟨by decide, rfl⟩, _, rfl⟩, rfl⟩,
    ⟨⟨.inr ⟨_, rfl⟩, _, rfl⟩, rfl⟩, trivial⟩, rfl, ?_⟩
  intro agrees
  obtain ⟨t, first, shown⟩ := agrees 2 _ rfl
  obtain rfl := Option.some.inj first
  cases shown

end MonitorStatus
