import Boring.South.DeviceForests
import Boring.South.DeviceRuns
import Boring.South.TinyXmlReferences
import Boring.South.TinyXmlRoundTrip

/- What an upload sends, read with TinyXML: the server finds the device and its monitors as they
   are in the list. -/
namespace UploadedXml
open LinkedCells StepRuns SouthHeap SouthXml MonitorTargets DeviceMonitors MonitorXml
open DeviceRuns (DeviceCall DeviceState RemovesEnd runDevice advanceDevice deviceStep kept_delivers
  deviceStep_keeps new_kept)
open TinyXmlText TinyXmlTree TinyXmlCodec TinyXmlParser TinyXmlAccepted TinyXmlLeaves
open TinyXmlReferences TinyXmlRoundTrip Outcomes

section Trees

mutual
/-- The nodes that southxml.cpp links are those of TinyXML. -/
def node : Xml → TiXmlNode
  | .declaration version encoding standalone => .declaration version encoding standalone
  | .element name attributes children => .element name attributes (linked children)
  | .text value => .text value false

def linked : List Xml → List TiXmlNode
  | [] => []
  | xml :: rest => node xml :: linked rest
end

variable (p : Platform)

/-- The document of a monitor as monitor_to_string builds it. -/
def monitorTree (device : CString) (m : MonitorData) : List TiXmlNode :=
  linked [.declaration [49, 46, 48] [85, 84, 70, 45, 56] [],
    .element (rendered p XML_NODE_MNTR_SERIVICE) []
      [.element (rendered p XML_NODE_MNTR_INFO) [] [commandOf p m.label device m.targets]]]

def NameConverts (text : Bytes) : Prop :=
  ∃ s, p.convert text = some s ∧ PlainName .UTF8 s

def ValueConverts (text : Bytes) : Prop :=
  ∃ s, p.convert text = some s ∧ Encodable .UTF8 s

def xmlNames : List Bytes :=
  [XML_NODE_MNTR_SERIVICE, XML_NODE_MNTR_INFO, XML_NODE_CTL_CMD, XML_NODE_PARAM,
    XML_PROP_SOFT_NAME, XML_PROP_NAME, XML_PROP_TYPE, XML_PROP_UNIT, XML_PROP_TYPE_NAME]

/-- The document is printed by TinyXML, and the names of southxml.h convert to different names. -/
structure Prints : Prop where
  printed : ∀ document, p.printed document = printS (linked document)
  names : ∀ text ∈ xmlNames, NameConverts p text
  apart : (xmlNames.map (rendered p)).Nodup

/-- The texts of a target, and of a monitor with its device, convert. -/
structure TargetConverts (t : TargetData) : Prop where
  label : ValueConverts p t.label.bytes
  value : ValueConverts p t.value.bytes
  unmarked : Unmarked .UTF8 (rendered p t.value.bytes)
  unit : ∀ unit ∈ t.unit, unit.bytes ≠ [] → ValueConverts p unit.bytes

structure MonitorConverts (device : CString) (m : MonitorData) : Prop where
  label : ValueConverts p m.label.bytes
  device : ValueConverts p device.bytes
  targets : ∀ t ∈ m.targets, TargetConverts p t

end Trees

section Storing

variable {p : Platform}

theorem name_rendered {text : Bytes} (converts : NameConverts p text) :
    PlainName .UTF8 (rendered p text) := by
  obtain ⟨s, given, name⟩ := converts
  rwa [rendered, given]

theorem value_rendered {text : Bytes} (converts : ValueConverts p text) :
    Encodable .UTF8 (rendered p text) := by
  obtain ⟨s, given, written⟩ := converts
  rwa [rendered, given]

theorem digit_byte {c : Char} (digit : c.isDigit = true) :
    48 ≤ UInt8.ofNat c.toNat ∧ UInt8.ofNat c.toNat ≤ 57 := by
  obtain ⟨low, high⟩ : 48 ≤ c.toNat ∧ c.toNat ≤ 57 := by
    simpa [Char.isDigit, UInt32.le_iff_toNat_le] using digit
  have small : c.toNat % 256 = c.toNat := Nat.mod_eq_of_lt (by omega)
  constructor <;> simp [UInt8.le_iff_toNat_le, small] <;> omega

theorem decimal_encodable (n : Int) : Encodable .UTF8 (decimal n) := by
  have each : ∀ c ∈ decimal n, c = 45 ∨ 48 ≤ c ∧ c ≤ 57 := by
    intro c member
    rcases List.mem_append.mp member with sign | digits
    · left
      split at sign <;> simp_all
    · obtain ⟨d, among, rfl⟩ := List.mem_map.mp digits
      exact .inr (digit_byte (Nat.isDigit_of_mem_toDigits (by omega) (by omega) among))
  refine ⟨ascii_characters fun c member => ?_, fun found => ?_⟩
  · rcases each c member with rfl | ⟨-, high⟩
    · decide
    · exact Nat.lt_of_le_of_lt (UInt8.le_iff_toNat_le.mp high) (by decide)
  · have inside := each 38 (found.subset (by simp))
    exact absurd inside (by decide)

theorem linked_map (nodes : List Xml) : linked nodes = nodes.map node := by
  induction nodes with
  | nil => rfl
  | cons xml rest ih => rw [linked, ih, List.map_cons]

theorem names_apart (prints : Prints p) :
    rendered p XML_PROP_SOFT_NAME ≠ rendered p XML_PROP_TYPE_NAME ∧
      rendered p XML_PROP_NAME ≠ rendered p XML_PROP_TYPE ∧
      rendered p XML_PROP_NAME ≠ rendered p XML_PROP_UNIT ∧
      rendered p XML_PROP_TYPE ≠ rendered p XML_PROP_UNIT := by
  have apart := prints.apart
  simp only [xmlNames, List.map_cons, List.map_nil, List.nodup_cons, List.mem_cons,
    List.not_mem_nil, or_false, not_or] at apart
  obtain ⟨-, -, -, -, soft, name, type, -⟩ := apart
  exact ⟨soft.2.2.2, name.1, name.2.1, type.1⟩

theorem param_storable {t : TargetData} (prints : Prints p) (converts : TargetConverts p t) :
    Storable .UTF8 (node (paramElement p t)) := by
  have named (text : Bytes) (among : text ∈ xmlNames) := name_rendered (prints.names text among)
  have unit : ∀ a ∈ unitAttribute p t, a.1 = rendered p XML_PROP_UNIT ∧ Encodable .UTF8 a.2 := by
    intro a member
    unfold unitAttribute at member
    cases given : t.unit with
    | none => simp [given] at member
    | some unit =>
      by_cases empty : unit.bytes = []
      · simp [given, empty] at member
      · obtain rfl : a = (rendered p XML_PROP_UNIT, rendered p unit.bytes) := by
          simpa [given, empty] using member
        exact ⟨rfl, value_rendered (converts.unit unit given empty)⟩
  have single : (unitAttribute p t).length ≤ 1 := by
    unfold unitAttribute
    split
    · simp
    · split <;> simp
  rw [paramElement, node]
  refine .element (named _ (by simp [xmlNames])) ?_ ?_ ?_ ?_
  · intro a member
    simp only [List.mem_cons, List.mem_append, List.not_mem_nil, or_false] at member
    rcases member with rfl | among | rfl
    · exact ⟨named _ (by simp [xmlNames]), value_rendered converts.label⟩
    · obtain ⟨same, written⟩ := unit a among
      rw [same]
      exact ⟨named _ (by simp [xmlNames]), written⟩
    · exact ⟨named _ (by simp [xmlNames]), decimal_encodable t.type⟩
  · obtain ⟨-, nameType, nameUnit, typeUnit⟩ := names_apart prints
    rcases attrs : unitAttribute p t with _ | ⟨a, _ | ⟨b, rest⟩⟩
    · simpa using nameType
    · have same := (unit a (by simp [attrs])).1
      simp only [List.singleton_append, List.map_cons, List.map_nil, List.nodup_cons,
        List.mem_cons, List.not_mem_nil, or_false, not_or, same, not_false_eq_true, List.nodup_nil,
        and_true]
      exact ⟨⟨nameUnit, nameType⟩, Ne.symm typeUnit⟩
    · simp [attrs] at single
  · intro c member
    obtain rfl : c = .text (rendered p t.value.bytes) false := by
      simpa [linked, node] using member
    exact .text (value_rendered converts.value) converts.unmarked
  · simp [linked, Apart]

theorem command_storable {device : CString} {m : MonitorData} (prints : Prints p)
    (converts : MonitorConverts p device m) :
    Storable .UTF8 (node (commandOf p m.label device m.targets)) := by
  have named (text : Bytes) (among : text ∈ xmlNames) := name_rendered (prints.names text among)
  rw [commandOf, node, linked_map, List.map_map]
  refine .element (named _ (by simp [xmlNames])) ?_ ?_ ?_ ?_
  · intro a member
    simp only [List.mem_cons, List.not_mem_nil, or_false] at member
    rcases member with rfl | rfl
    · exact ⟨named _ (by simp [xmlNames]), value_rendered converts.label⟩
    · exact ⟨named _ (by simp [xmlNames]), value_rendered converts.device⟩
  · simpa using (names_apart prints).1
  · intro c member
    obtain ⟨t, among, rfl⟩ := List.mem_map.mp member
    exact param_storable prints (converts.targets t among)
  · have tagged (t : TargetData) : isPlainText ((node ∘ paramElement p) t) = false := by
      simp [paramElement, node, isPlainText]
    induction m.targets with
    | nil => simp [Apart]
    | cons t rest ih =>
      exact apart_cons ih (.inl (tagged t))

theorem monitorTree_storable {encoding : TiXmlEncoding} {device : CString} {m : MonitorData}
    (known : encoding ≠ .LEGACY) (prints : Prints p) (converts : MonitorConverts p device m) :
    StorableDocument encoding (monitorTree p device m) := by
  have named (text : Bytes) (among : text ∈ xmlNames) := name_rendered (prints.names text among)
  have after : encodingAfter encoding (.declaration [49, 46, 48] [85, 84, 70, 45, 56] []) =
      .UTF8 := by
    cases encoding with
    | LEGACY => exact absurd rfl known
    | UNKNOWN => decide
    | UTF8 => rfl
  have single {c : TiXmlNode} {name : Chars} (plain : PlainName .UTF8 name)
      (inside : Storable .UTF8 c) : Storable .UTF8 (.element name [] [c]) :=
    .element plain (by simp) (by simp) (by simpa using inside) (by simp [Apart])
  refine ⟨?_, rfl, ?_⟩
  · rw [node]
    exact .declaration ⟨ascii_characters (by decide +kernel), by decide⟩
      ⟨ascii_characters (by decide +kernel), by decide⟩ ⟨.nil, by decide⟩
  · rw [node, after]
    simp only [linked, node]
    exact ⟨single (named _ (by simp [xmlNames])) (single (named _ (by simp [xmlNames]))
      (command_storable prints converts)), rfl, trivial⟩

end Storing

section Uploads

variable {p : Platform}

theorem converting_clean {texts : List Bytes}
    (each : ∀ text ∈ texts, ∃ s, p.convert text = some s) : ∀ str, Clean p str texts := by
  induction texts with
  | nil => exact fun _ => trivial
  | cons text rest ih =>
    intro str
    obtain ⟨s, given⟩ := each text (by simp)
    exact ⟨fun none => absurd (given.symm.trans none) (by simp),
      ih (fun other member => each other (by simp [member])) _⟩

theorem argument_converts {left right text : Bytes} (member : text ∈ argumentTexts p left right) :
    text = left ∨ text = right := by
  unfold argumentTexts at member
  split at member
  · exact (by simpa using member : text = right ∨ text = left).symm
  · simpa using member

theorem command_converts {device : CString} {m : MonitorData} (prints : Prints p)
    (converts : MonitorConverts p device m) :
    ∀ text ∈ commandTexts p m.label device m.targets, ∃ s, p.convert text = some s := by
  have name (text : Bytes) (among : text ∈ xmlNames) : ∃ s, p.convert text = some s := by
    obtain ⟨s, given, -⟩ := prints.names text among
    exact ⟨s, given⟩
  have value {text : Bytes} (good : ValueConverts p text) : ∃ s, p.convert text = some s := by
    obtain ⟨s, given, -⟩ := good
    exact ⟨s, given⟩
  intro text member
  simp only [commandTexts, List.mem_cons, List.mem_append, List.mem_flatMap] at member
  rcases member with rfl | soft | type | ⟨t, among, inside⟩
  · exact name _ (by simp [xmlNames])
  · rcases argument_converts soft with rfl | rfl
    · exact name _ (by simp [xmlNames])
    · exact value converts.label
  · rcases argument_converts type with rfl | rfl
    · exact name _ (by simp [xmlNames])
    · exact value converts.device
  · have target := converts.targets t among
    simp only [targetTexts, List.mem_cons, List.mem_append, List.not_mem_nil, or_false] at inside
    rcases inside with rfl | label | rfl | unit | rfl
    · exact name _ (by simp [xmlNames])
    · rcases argument_converts label with rfl | rfl
      · exact name _ (by simp [xmlNames])
      · exact value target.label
    · exact value target.value
    · unfold unitTexts at unit
      cases given : t.unit with
      | none => simp [given] at unit
      | some text' =>
        by_cases empty : text'.bytes = []
        · simp [given, empty] at unit
        · simp only [given, empty, if_false] at unit
          rcases argument_converts unit with rfl | rfl
          · exact name _ (by simp [xmlNames])
          · exact value (target.unit text' given empty)
    · exact name _ (by simp [xmlNames])

theorem toUtf8_converts {text : Bytes} (converts : NameConverts p text) (str : Bytes) :
    toUtf8 p text str = .ok (rendered p text, rendered p text) := by
  obtain ⟨s, given, -⟩ := converts
  simp [toUtf8, rendered, given]

theorem monitorDocument_prints {device : CString} {m : MonitorData} (prints : Prints p)
    (converts : MonitorConverts p device m) (str : Bytes) :
    ∃ str', monitorDocument p device m str = .ok (printS (monitorTree p device m), str') := by
  obtain ⟨a, run, exactly⟩ := renders_command (p := p) m.label device m.targets
    (rendered p XML_NODE_MNTR_INFO)
  obtain rfl : a = commandOf p m.label device m.targets := by
    obtain ⟨soft, nameType, nameUnit, typeUnit⟩ := names_apart prints
    exact exactly.mpr ⟨converting_clean (command_converts prints converts) _, soft,
      fun t _ => ⟨nameType, .inr ⟨Ne.symm nameUnit, Ne.symm typeUnit⟩⟩⟩
  have service := toUtf8_converts (prints.names XML_NODE_MNTR_SERIVICE (by simp [xmlNames])) str
  have info := toUtf8_converts (prints.names XML_NODE_MNTR_INFO (by simp [xmlNames]))
    (rendered p XML_NODE_MNTR_SERIVICE)
  refine ⟨afterTexts p (rendered p XML_NODE_MNTR_INFO) (commandTexts p m.label device m.targets),
    ?_⟩
  unfold monitorDocument
  generalize commandElement p m.label (pure device)
    (m.targets.mapM fun t => targetMakeXml p (targetOf t)) = command at run ⊢
  simp only [serviceDocument, bind, StateT.bind, service, Except.bind, info, run,
    pure_ends, prints.printed]
  rfl

theorem documents_print {device : CString} {monitors : List MonitorData} (ip : CString)
    (prints : Prints p) (each : ∀ m ∈ monitors, MonitorConverts p device m) (str : Bytes) :
    ∃ str', documents p ip device monitors str =
      .ok (monitors.map fun m => (ip.bytes, printS (monitorTree p device m)), str') := by
  induction monitors generalizing str with
  | nil => exact ⟨str, rfl⟩
  | cons m rest ih =>
    obtain ⟨first, printed⟩ := monitorDocument_prints prints (each m (by simp)) str
    obtain ⟨last, later⟩ := ih (fun other member => each other (by simp [member])) first
    refine ⟨last, ?_⟩
    unfold documents at later ⊢
    simp only [List.mapM_cons, bind, StateT.bind, Except.bind, printed, pure_ends,
      List.map_cons] at later ⊢
    rw [later]

/-- A system with the GBK code page, on which TinyXML prints. -/
def translating : Platform where
  convert := fromGbk
  rightFirst := true
  printed document := printS (linked document)
  transportLoads := true

theorem translating_prints : Prints translating := by
  have name {text s : Bytes} (given : translating.convert text = some s)
      (good : s.head?.any isNameStart = true ∧ s.all isNameChar = true ∧ markAhead s = false) :
      NameConverts translating text := by
    obtain ⟨start, each, mark⟩ := good
    cases s with
    | nil => simp at start
    | cons c s =>
      exact ⟨c :: s, given, ⟨⟨c, s, rfl, by simpa using start⟩, by simpa using each⟩, fun _ => mark⟩
  refine ⟨fun _ => rfl, fun text among => ?_, by decide +kernel⟩
  simp only [xmlNames, List.mem_cons, List.not_mem_nil, or_false] at among
  rcases among with rfl | rfl | rfl | rfl | rfl | rfl | rfl | rfl | rfl <;>
    exact name rfl (by decide +kernel)

theorem letter_converts (c : UInt8) (plain : c < 128 ∧ c ≠ 38) : ValueConverts translating [c] := by
  refine ⟨[c], by simp [translating, fromGbk, plain.1], ascii_characters (by simpa using plain.1),
    ?_⟩
  rintro ⟨before, after, found⟩
  have short := congrArg List.length found
  simp at short
  omega

def monitorA : MonitorData :=
  { freshMonitor 16 labelA 0 with
    targets := (freshMonitor 16 labelA 0).targets ++
      [⟨labelA, some labelA, DATA_TYPE_INT32, labelA, 16⟩] }

theorem monitorA_converts : MonitorConverts translating labelB monitorA := by
  refine ⟨letter_converts 97 (by decide), letter_converts 98 (by decide), fun t among => ?_⟩
  obtain rfl | rfl : t = statusData 16 ⟨[48], by decide⟩ ∨
      t = ⟨labelA, some labelA, DATA_TYPE_INT32, labelA, 16⟩ := by
    simpa [monitorA, freshMonitor, status] using among
  · refine ⟨⟨utf8 ['工', '作', '状', '态'], rfl, unicode_characters _, by decide +kernel⟩,
      letter_converts 48 (by decide), fun _ => by decide, ?_⟩
    intro unit given
    simp [statusData] at given
  · refine ⟨letter_converts 97 (by decide), letter_converts 97 (by decide), fun _ => by decide, ?_⟩
    intro unit given _
    obtain rfl : labelA = unit := Option.some.inj given
    exact letter_converts 97 (by decide)

end Uploads

end UploadedXml
