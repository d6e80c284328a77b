import Boring.South.DeviceMonitors

/- The XML of a monitor against the texts of that monitor alone. `toUtf8` returns one
   static string, so a text that does not convert is rendered as whatever was converted
   before it. -/
namespace MonitorXml
open LinkedCells SouthHeap SouthXml MonitorTargets DeviceMonitors

section Specification

variable (p : Platform)

/-- What a text stands for in the document: its conversion, or nothing. -/
def rendered (text : Bytes) : Bytes := (p.convert text).getD []

def unitAttribute (t : TargetData) : List (Bytes × Bytes) :=
  match t.unit with
  | none => []
  | some unit =>
    if unit.bytes = [] then [] else [(rendered p XML_PROP_UNIT, rendered p unit.bytes)]

def paramElement (t : TargetData) : Xml :=
  .element (rendered p XML_NODE_PARAM)
    ((rendered p XML_PROP_NAME, rendered p t.label.bytes) ::
      (unitAttribute p t ++ [(rendered p XML_PROP_TYPE, decimal t.type)]))
    [.text (rendered p t.value.bytes)]

def commandOf (label device : CString) (targets : List TargetData) : Xml :=
  .element (rendered p XML_NODE_CTL_CMD)
    [(rendered p XML_PROP_SOFT_NAME, rendered p label.bytes),
      (rendered p XML_PROP_TYPE_NAME, rendered p device.bytes)]
    (targets.map (paramElement p))

def argumentTexts (left right : Bytes) : List Bytes :=
  if p.rightFirst then [right, left] else [left, right]

def unitTexts (t : TargetData) : List Bytes :=
  match t.unit with
  | none => []
  | some unit => if unit.bytes = [] then [] else argumentTexts p XML_PROP_UNIT unit.bytes

def targetTexts (t : TargetData) : List Bytes :=
  XML_NODE_PARAM :: (argumentTexts p XML_PROP_NAME t.label.bytes ++
    (t.value.bytes :: (unitTexts p t ++ [XML_PROP_TYPE])))

def commandTexts (label device : CString) (targets : List TargetData) : List Bytes :=
  XML_NODE_CTL_CMD :: (argumentTexts p XML_PROP_SOFT_NAME label.bytes ++
    (argumentTexts p XML_PROP_TYPE_NAME device.bytes ++ targets.flatMap (targetTexts p)))

def afterTexts (str : Bytes) (texts : List Bytes) : Bytes :=
  texts.foldl (fun str text => (p.convert text).getD str) str

/-- Each text that does not convert finds the static string empty. -/
def Clean : Bytes → List Bytes → Prop
  | _, [] => True
  | str, text :: rest =>
    (p.convert text = none → str = []) ∧ Clean ((p.convert text).getD str) rest

instance decidableClean : ∀ str texts, Decidable (Clean p str texts)
  | _, [] => isTrue trivial
  | str, text :: rest =>
    @instDecidableAnd _ _ _ (decidableClean ((p.convert text).getD str) rest)

def UnitApart (t : TargetData) : Prop :=
  unitAttribute p t = [] ∨ rendered p XML_PROP_UNIT ≠ rendered p XML_PROP_NAME ∧
    rendered p XML_PROP_UNIT ≠ rendered p XML_PROP_TYPE

instance (t : TargetData) : Decidable (UnitApart p t) := instDecidableOr

def NamesApart (targets : List TargetData) : Prop :=
  rendered p XML_PROP_SOFT_NAME ≠ rendered p XML_PROP_TYPE_NAME ∧
    ∀ t ∈ targets, rendered p XML_PROP_NAME ≠ rendered p XML_PROP_TYPE ∧ UnitApart p t

end Specification

variable {p : Platform}

theorem afterTexts_append (str : Bytes) (first second : List Bytes) :
    afterTexts p str (first ++ second) = afterTexts p (afterTexts p str first) second :=
  List.foldl_append

theorem clean_append (str : Bytes) (first second : List Bytes) :
    Clean p str (first ++ second) ↔
      Clean p str first ∧ Clean p (afterTexts p str first) second := by
  induction first generalizing str with
  | nil => simp [Clean, afterTexts]
  | cons text rest ih =>
    simp only [List.cons_append, Clean, ih, and_assoc]
    rfl

variable (p) in
/-- The run converts the given texts, and what it returns is as `expected` exactly when
    the conversions were clean and `apart` holds. -/
def Renders {α : Type} (x : Run α) (texts : List Bytes) (expected : α → Prop) (apart : Prop) :
    Prop :=
  ∀ str, ∃ a, x str = .ok (a, afterTexts p str texts) ∧
    (expected a ↔ Clean p str texts ∧ apart)

theorem renders_pure {α : Type} {a : α} {expected : α → Prop} {apart : Prop}
    (same : expected a ↔ apart) : Renders p (pure a : Run α) [] expected apart := by
  intro str
  exact ⟨a, rfl, by simp [same, Clean]⟩

theorem renders_seq {α β : Type} {x : Run α} {f : α → Run β} {first second : List Bytes}
    {here : α → Prop} {expected : β → Prop} {apart apart' : Prop}
    (left : Renders p x first here apart)
    (right : ∀ a, Renders p (f a) second expected (here a ∧ apart')) :
    Renders p (x >>= f) (first ++ second) expected (apart ∧ apart') := by
  intro str
  obtain ⟨a, run, exactly⟩ := left str
  obtain ⟨b, later, exactly'⟩ := right a (afterTexts p str first)
  refine ⟨b, ?_, ?_⟩
  · simp only [bind, StateT.bind, Except.bind, run, later, afterTexts_append]
  · rw [exactly', exactly, clean_append]
    tauto

theorem renders_bind {α β : Type} {x : Run α} {f : α → Run β} {first second : List Bytes}
    {here : α → Prop} {expected : β → Prop} {apart : Prop} (left : Renders p x first here True)
    (right : ∀ a, Renders p (f a) second expected (here a ∧ apart)) :
    Renders p (x >>= f) (first ++ second) expected apart := by
  simpa only [true_and] using renders_seq left right

theorem renders_toUtf8 (text : Bytes) :
    Renders p (toUtf8 p text) [text] (· = rendered p text) True := by
  intro str
  refine ⟨(p.convert text).getD str, rfl, ?_⟩
  simp only [Clean, and_true, rendered]
  cases p.convert text with
  | none => simp
  | some converted => simp

theorem renders_twoArguments (left right : Bytes) :
    Renders p (twoArguments p (toUtf8 p left) (toUtf8 p right)) (argumentTexts p left right)
      (· = (rendered p left, rendered p right)) True := by
  unfold twoArguments argumentTexts
  split
  · refine renders_bind (renders_toUtf8 right) fun b => ?_
    refine renders_bind (renders_toUtf8 left) fun a => ?_
    apply renders_pure
    simp only [Prod.mk.injEq, and_true]
  · refine renders_bind (renders_toUtf8 left) fun a => ?_
    refine renders_bind (renders_toUtf8 right) fun b => ?_
    apply renders_pure
    simp only [Prod.mk.injEq, true_and, and_comm]

theorem setAttribute_length (attributes : List (Bytes × Bytes)) (name value : Bytes) :
    (setAttribute attributes name value).length ≤ attributes.length + 1 := by
  unfold setAttribute
  split <;> simp

theorem setAttribute_adds {attributes expected : List (Bytes × Bytes)} {name value : Bytes}
    {last : Bytes × Bytes} (room : attributes.length ≤ expected.length) :
    setAttribute attributes name value = expected ++ [last] ↔
      attributes = expected ∧ (name, value) = last ∧ ∀ a ∈ expected, last.1 ≠ a.1 := by
  unfold setAttribute
  split
  · rename_i taken
    constructor
    · intro same
      have lengths := congrArg List.length same
      simp only [List.length_map, List.length_append, List.length_singleton] at lengths
      omega
    · rintro ⟨rfl, rfl, apart⟩
      obtain ⟨a, member, same⟩ := List.any_eq_true.mp taken
      exact absurd (of_decide_eq_true same).symm (apart a member)
  · rename_i free
    simp only [List.any_eq_true, decide_eq_true_eq, not_exists, not_and] at free
    constructor
    · intro whole
      obtain ⟨rfl, same⟩ := List.append_inj' whole rfl
      obtain rfl := List.singleton_inj.mp same
      exact ⟨rfl, rfl, fun a member same => free a member same.symm⟩
    · rintro ⟨rfl, rfl, _⟩
      rfl

theorem renders_congr {α : Type} {x : Run α} {texts : List Bytes} {expected : α → Prop}
    {apart apart' : Prop} (renders : Renders p x texts expected apart)
    (same : apart ↔ apart') : Renders p x texts expected apart' := by
  intro str
  obtain ⟨a, run, exactly⟩ := renders str
  exact ⟨a, run, by rw [exactly, same]⟩

theorem renders_typed (t : TargetData) (name value : Bytes)
    {attributes expected : List (Bytes × Bytes)} (room : attributes.length ≤ expected.length)
    (spec : paramElement p t = .element (rendered p XML_NODE_PARAM)
      (expected ++ [(rendered p XML_PROP_TYPE, decimal t.type)])
      [.text (rendered p t.value.bytes)]) :
    Renders p (do
        let key ← toUtf8 p XML_PROP_TYPE
        return Xml.element name (setAttribute attributes key (decimal t.type)) [.text value])
      [XML_PROP_TYPE] (· = paramElement p t)
      (name = rendered p XML_NODE_PARAM ∧ value = rendered p t.value.bytes ∧
        attributes = expected ∧ ∀ a ∈ expected, rendered p XML_PROP_TYPE ≠ a.1) := by
  refine renders_bind (renders_toUtf8 _) fun key => renders_pure ?_
  rw [spec, Xml.element.injEq, setAttribute_adds room]
  simp only [Prod.mk.injEq, and_true, List.cons.injEq, Xml.text.injEq]
  tauto

theorem renders_unitless {t : TargetData} (none : unitAttribute p t = []) (name value : Bytes)
    (label : Bytes × Bytes) :
    Renders p (do
        let key ← toUtf8 p XML_PROP_TYPE
        return Xml.element name (setAttribute [label] key (decimal t.type)) [.text value])
      [XML_PROP_TYPE] (· = paramElement p t)
      (value = rendered p t.value.bytes ∧
        label = (rendered p XML_PROP_NAME, rendered p t.label.bytes) ∧
        name = rendered p XML_NODE_PARAM ∧
        rendered p XML_PROP_NAME ≠ rendered p XML_PROP_TYPE ∧ UnitApart p t) := by
  apply renders_congr (@renders_typed p t name value [label]
    [(rendered p XML_PROP_NAME, rendered p t.label.bytes)] (by simp)
    (by rw [paramElement, none]; rfl))
  simp only [UnitApart, none, true_or, List.cons.injEq, and_true, List.mem_singleton, forall_eq]
  constructor
  · rintro ⟨sameName, sameValue, sameLabel, apart⟩
    exact ⟨sameValue, sameLabel, sameName, apart.symm⟩
  · rintro ⟨sameValue, sameLabel, sameName, apart⟩
    exact ⟨sameName, sameValue, sameLabel, apart.symm⟩

theorem renders_unit {t : TargetData} {unit : Bytes}
    (shown : unitAttribute p t = [(rendered p XML_PROP_UNIT, rendered p unit)])
    (name value : Bytes) (label : Bytes × Bytes) :
    Renders p (do
        let (key, unit) ← twoArguments p (toUtf8 p XML_PROP_UNIT) (toUtf8 p unit)
        let attributes := setAttribute [label] key unit
        let key ← toUtf8 p XML_PROP_TYPE
        return Xml.element name (setAttribute attributes key (decimal t.type)) [.text value])
      (argumentTexts p XML_PROP_UNIT unit ++ [XML_PROP_TYPE]) (· = paramElement p t)
      (value = rendered p t.value.bytes ∧
        label = (rendered p XML_PROP_NAME, rendered p t.label.bytes) ∧
        name = rendered p XML_NODE_PARAM ∧
        rendered p XML_PROP_NAME ≠ rendered p XML_PROP_TYPE ∧ UnitApart p t) := by
  refine renders_bind (renders_twoArguments _ _) fun pair => ?_
  have added := @setAttribute_adds [label]
    [(rendered p XML_PROP_NAME, rendered p t.label.bytes)] pair.1 pair.2
    (rendered p XML_PROP_UNIT, rendered p unit) (by simp)
  rw [List.singleton_append] at added
  apply renders_congr (@renders_typed p t name value _
    [(rendered p XML_PROP_NAME, rendered p t.label.bytes),
      (rendered p XML_PROP_UNIT, rendered p unit)]
    (setAttribute_length [label] _ _) (by rw [paramElement, shown]; rfl))
  rw [added]
  simp only [UnitApart, shown, List.cons.injEq, and_true, List.mem_cons, List.not_mem_nil,
    or_false, forall_eq_or_imp, forall_eq, reduceCtorEq, false_or, Prod.eta]
  constructor
  · rintro ⟨sameName, sameValue, ⟨sameLabel, sameUnit, unitName⟩, typeName, typeUnit⟩
    exact ⟨sameUnit, sameValue, sameLabel, sameName, typeName.symm, unitName, typeUnit.symm⟩
  · rintro ⟨sameUnit, sameValue, sameLabel, sameName, nameType, unitName, unitType⟩
    exact ⟨sameName, sameValue, ⟨sameLabel, sameUnit, unitName⟩, nameType.symm, unitType.symm⟩

theorem renders_targetMakeXml (t : TargetData) :
    Renders p (targetMakeXml p (targetOf t)) (targetTexts p t) (· = paramElement p t)
      (rendered p XML_PROP_NAME ≠ rendered p XML_PROP_TYPE ∧ UnitApart p t) := by
  unfold targetMakeXml targetTexts
  refine renders_bind (renders_toUtf8 _) fun name => ?_
  refine renders_bind (renders_twoArguments _ _) fun label => ?_
  refine renders_bind (renders_toUtf8 _) fun value => ?_
  have first : setAttribute [] label.1 label.2 = [label] := rfl
  dsimp only [targetOf]
  rw [first]
  cases given : t.unit with
  | none =>
    rw [show unitTexts p t = [] by simp [unitTexts, given]]
    exact renders_unitless (by simp [unitAttribute, given]) name value label
  | some unit =>
    by_cases empty : unit.bytes = []
    · rw [show unitTexts p t = [] by simp [unitTexts, given, empty]]
      simp only [empty, if_true]
      exact renders_unitless (by simp [unitAttribute, given, empty]) name value label
    · rw [show unitTexts p t = argumentTexts p XML_PROP_UNIT unit.bytes by
        simp [unitTexts, given, empty]]
      simp only [empty, if_false]
      exact renders_unit (by simp [unitAttribute, given, empty]) name value label

theorem renders_targets (targets : List TargetData) :
    Renders p (targets.mapM fun t => targetMakeXml p (targetOf t))
      (targets.flatMap (targetTexts p)) (· = targets.map (paramElement p))
      (∀ t ∈ targets, rendered p XML_PROP_NAME ≠ rendered p XML_PROP_TYPE ∧ UnitApart p t) := by
  induction targets with
  | nil => exact renders_pure (by simp)
  | cons t rest ih =>
    rw [List.mapM_cons, List.flatMap_cons, List.forall_mem_cons]
    refine renders_seq (renders_targetMakeXml t) fun node => ?_
    rw [← List.append_nil (rest.flatMap (targetTexts p)), and_comm]
    refine renders_seq ih fun nodes => renders_pure ?_
    simp only [List.map_cons, List.cons.injEq]
    tauto

theorem renders_command (label device : CString) (targets : List TargetData) :
    Renders p (commandElement p label (pure device)
        (targets.mapM fun t => targetMakeXml p (targetOf t)))
      (commandTexts p label device targets) (· = commandOf p label device targets)
      (NamesApart p targets) := by
  unfold commandElement commandTexts
  refine renders_bind (renders_toUtf8 _) fun name => ?_
  refine renders_bind (renders_twoArguments _ _) fun soft => ?_
  dsimp only
  rw [pure_bind]
  refine renders_bind (renders_twoArguments _ _) fun type => ?_
  rw [← List.append_nil (targets.flatMap (targetTexts p))]
  apply renders_congr (@renders_seq p _ _ _ _ _ _ _ _ _
    (soft = (rendered p XML_PROP_SOFT_NAME, rendered p label.bytes) ∧
      type = (rendered p XML_PROP_TYPE_NAME, rendered p device.bytes) ∧
      name = rendered p XML_NODE_CTL_CMD ∧
      rendered p XML_PROP_SOFT_NAME ≠ rendered p XML_PROP_TYPE_NAME) (renders_targets targets)
    fun children => renders_pure ?_)
  · unfold NamesApart
    tauto
  · have first : setAttribute [] soft.1 soft.2 = [soft] := rfl
    have added := @setAttribute_adds [soft]
      [(rendered p XML_PROP_SOFT_NAME, rendered p label.bytes)] type.1 type.2
      (rendered p XML_PROP_TYPE_NAME, rendered p device.bytes) (by simp)
    rw [List.singleton_append] at added
    rw [first, commandOf, Xml.element.injEq, added]
    simp only [List.cons.injEq, and_true, List.mem_singleton, forall_eq, Prod.eta]
    constructor
    · rintro ⟨sameName, ⟨sameSoft, sameType, apart⟩, sameChildren⟩
      exact ⟨sameChildren, sameSoft, sameType, sameName, apart.symm⟩
    · rintro ⟨sameChildren, sameSoft, sameType, sameName, apart⟩
      exact ⟨sameName, ⟨sameSoft, sameType, apart.symm⟩, sameChildren⟩

theorem monitorMakeXml_renders (p : Platform) {h : Heap} {m : Monitor} {pd : Ptr} {d : Device}
    {cells : List (Ptr × Target)} (attached : m.pd = some pd) (built : h.device.cell pd = some d)
    (chain : Chain h.target Target.next m.target cells) :
    Renders p (monitorMakeXml p h m)
      (commandTexts p m.label d.label (cells.map fun cell => data cell.2))
      (· = commandOf p m.label d.label (cells.map fun cell => data cell.2))
      (NamesApart p (cells.map fun cell => data cell.2)) := by
  have label : deviceLabel h m = .ok d.label := by
    simp [deviceLabel, attached, Memory.read_held built, bind, Except.bind, pure, Except.pure]
  rw [monitorMakeXml, label, targetsMakeXml_chain p chain (chain_length_lt chain)]
  exact renders_command m.label d.label _

def remembered (p : Platform) (history : List Bytes) : Bytes := afterTexts p [] history

/-- After every history of conversions, `monitor_make_xml` appends the element of the
    monitor's own texts exactly when each of them that does not convert finds the static
    string empty, and the attribute names of an element convert to different texts. -/
theorem command_faithful_iff (p : Platform) {h : Heap} {m : Monitor} {pd : Ptr} {d : Device}
    {cells : List (Ptr × Target)} (attached : m.pd = some pd) (built : h.device.cell pd = some d)
    (chain : Chain h.target Target.next m.target cells) (history : List Bytes) :
    ∃ element str, monitorMakeXml p h m (remembered p history) = .ok (element, str) ∧
      (element = commandOf p m.label d.label (cells.map fun cell => data cell.2) ↔
        Clean p (remembered p history)
            (commandTexts p m.label d.label (cells.map fun cell => data cell.2)) ∧
          NamesApart p (cells.map fun cell => data cell.2)) := by
  obtain ⟨element, run, exactly⟩ :=
    monitorMakeXml_renders p attached built chain (remembered p history)
  exact ⟨element, _, run, exactly⟩

def utf8 (text : List Char) : Bytes := text.flatMap String.utf8EncodeChar

/-- The texts of southxml.h and south.h in GBK and in UTF-8. -/
def translations : List (Bytes × Bytes) :=
  [(XML_NODE_MNTR_SERIVICE, utf8 ['监', '控', '服', '务']),
   (XML_NODE_MNTR_INFO, utf8 ['监', '控', '信', '息']),
   (XML_NODE_CTL_CMD, utf8 ['控', '制', '命', '令']), (XML_NODE_PARAM, utf8 ['参', '数']),
   (XML_PROP_SOFT_NAME, utf8 ['软', '件', '名', '称']), (XML_PROP_NAME, utf8 ['名', '称']),
   (XML_PROP_TYPE, utf8 ['类', '型']), (XML_PROP_UNIT, utf8 ['单', '位']),
   (XML_PROP_TYPE_NAME, utf8 ['类', '型', '名', '称']),
   (XML_PROP_VALUE_WORK_STATUS.bytes, utf8 ['工', '作', '状', '态'])]

def fromGbk (text : Bytes) : Option Bytes :=
  if text.all (· < 128) then some text else translations.lookup text

/-- A system with that code page that fails to convert one text. -/
def converting (fails : Bytes) : Platform where
  convert text := if text = fails then none else fromGbk text
  rightFirst := true
  printed _ := []
  transportLoads := true

/-- A monitor all of whose texts convert, after another text was converted. -/
theorem converted_command_is_faithful : ∃ h0 h1 m d,
    deviceNew Heap.empty 8 (some labelA) (some labelB) = .ok (h0, 8) ∧
    runCall 8 h0 newA = .ok h1 ∧ h1.monitor.cell 16 = some m ∧ h1.device.cell 8 = some d ∧
    ∃ element str, monitorMakeXml (converting [99]) h1 m (remembered (converting [99]) [[120]]) =
        .ok (element, str) ∧
      element = commandOf (converting [99]) m.label d.label
        [statusData 16 ⟨[48], by decide⟩] := by
  refine ⟨_, _, attached 8 32 labelA 0, _, rfl, rfl, rfl, rfl, ?_⟩
  refine Exists.imp (fun element => Exists.imp fun str => And.imp_right fun exactly =>
    exactly.mpr ⟨by decide, by decide, by decide⟩) (@command_faithful_iff (converting [99]) _
    (attached 8 32 labelA 0) 8 _ [(32, statusTarget 16 ⟨[48], by decide⟩)] rfl ?_ ?_ [[120]])
  · rfl
  · exact ⟨rfl, rfl, rfl⟩

/-- The label b of a monitor does not convert: another text stands in its place. -/
theorem unconverted_label_shows_another_text : ∃ h0 h1 m d,
    deviceNew Heap.empty 8 (some labelA) (some labelA) = .ok (h0, 8) ∧
    runCall 8 h0 newB = .ok h1 ∧ h1.monitor.cell 48 = some m ∧ h1.device.cell 8 = some d ∧
    ∃ element, (∃ str, monitorMakeXml (converting [98]) h1 m (remembered (converting [98]) []) =
        .ok (element, str)) ∧
      element ≠ commandOf (converting [98]) m.label d.label
        [statusData 48 ⟨[48], by decide⟩] := by
  refine ⟨_, _, attached 8 64 labelB 0, _, rfl, rfl, rfl, rfl, ?_⟩
  have unclean : ¬ Clean (converting [98]) (remembered (converting [98]) [])
      (commandTexts (converting [98]) labelB labelA [statusData 48 ⟨[48], by decide⟩]) := by
    decide
  refine Exists.imp (fun element => And.imp (fun run => ⟨_, run⟩) fun exactly same =>
    unclean (exactly.mp same).1) (@monitorMakeXml_renders (converting [98]) _
    (attached 8 64 labelB 0) 8 _ [(64, statusTarget 48 ⟨[48], by decide⟩)] rfl ?_ ?_ _)
  · rfl
  · exact ⟨rfl, rfl, rfl⟩

end MonitorXml
