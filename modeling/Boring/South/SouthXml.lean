import Boring.South.SouthHeap

/- southxml.cpp: the XML document of a monitor and the upload of a device. The static
   string of `toUtf8` is the state of the state monad, so its history is explicit. -/
namespace SouthXml
open LinkedCells SouthHeap

abbrev Bytes := List UInt8

inductive Xml where
  | declaration (version encoding standalone : Bytes)
  | element (name : Bytes) (attributes : List (Bytes × Bytes)) (children : List Xml)
  | text (value : Bytes)

/-- What southxml.cpp takes from outside: the conversion of the operating system, which
    may fail, the order in which the compiler evaluates the two arguments of a call, the
    text TinyXML prints for a document, and whether the transport library loads. C++ leaves
    the order open for each call anew; a compiler is taken here to use one order throughout. -/
structure Platform where
  convert : Bytes → Option Bytes
  rightFirst : Bool
  printed : List Xml → Bytes
  transportLoads : Bool

abbrev Run (α : Type) := StateT Bytes (Except Fault) α

def XML_NODE_MNTR_SERIVICE : Bytes := [0xbc, 0xe0, 0xbf, 0xd8, 0xb7, 0xfe, 0xce, 0xf1]
def XML_NODE_MNTR_INFO : Bytes := [0xbc, 0xe0, 0xbf, 0xd8, 0xd0, 0xc5, 0xcf, 0xa2]
def XML_NODE_CTL_CMD : Bytes := [0xbf, 0xd8, 0xd6, 0xc6, 0xc3, 0xfc, 0xc1, 0xee]
def XML_NODE_PARAM : Bytes := [0xb2, 0xce, 0xca, 0xfd]
def XML_PROP_SOFT_NAME : Bytes := [0xc8, 0xed, 0xbc, 0xfe, 0xc3, 0xfb, 0xb3, 0xc6]
def XML_PROP_NAME : Bytes := [0xc3, 0xfb, 0xb3, 0xc6]
def XML_PROP_TYPE : Bytes := [0xc0, 0xe0, 0xd0, 0xcd]
def XML_PROP_UNIT : Bytes := [0xb5, 0xa5, 0xce, 0xbb]
/-- 类型名称, written out where `monitor_make_xml` names the device. -/
def XML_PROP_TYPE_NAME : Bytes := [0xc0, 0xe0, 0xd0, 0xcd, 0xc3, 0xfb, 0xb3, 0xc6]

section Documents

variable (p : Platform)

/-- A failed conversion leaves the static string as it was, and it is returned anyway. -/
def toUtf8 (pt : Bytes) : Run Bytes := fun str =>
  let str := (p.convert pt).getD str
  .ok (str, str)

def twoArguments (left right : Run Bytes) : Run (Bytes × Bytes) :=
  if p.rightFirst then do
    let b ← right
    let a ← left
    return (a, b)
  else do
    let a ← left
    let b ← right
    return (a, b)

/-- TiXmlElement::SetAttribute: FindOrCreate keeps one attribute of each name. -/
def setAttribute (attributes : List (Bytes × Bytes)) (name value : Bytes) :
    List (Bytes × Bytes) :=
  if attributes.any (·.1 = name) then
    attributes.map fun a => if a.1 = name then (name, value) else a
  else attributes ++ [(name, value)]

def decimal (n : Int) : Bytes :=
  (if n < 0 then [45] else []) ++ (Nat.toDigits 10 n.natAbs).map fun c => UInt8.ofNat c.toNat

/-- The label and the value of a target are never NULL once it exists. -/
def targetMakeXml (pt : Target) : Run Xml := do
  let name ← toUtf8 p XML_NODE_PARAM
  let (key, label) ← twoArguments p (toUtf8 p XML_PROP_NAME) (toUtf8 p pt.label.bytes)
  let attributes := setAttribute [] key label
  let value ← toUtf8 p pt.value.bytes
  let attributes ← match pt.unit with
    | none => pure attributes
    | some unit =>
      if unit.bytes = [] then pure attributes
      else do
        let (key, unit) ← twoArguments p (toUtf8 p XML_PROP_UNIT) (toUtf8 p unit.bytes)
        pure (setAttribute attributes key unit)
  let key ← toUtf8 p XML_PROP_TYPE
  return .element name (setAttribute attributes key (decimal pt.type)) [.text value]

def targetsMakeXml (h : Heap) : Nat → Ptr → Run (List Xml)
  | 0, _ => throw .endlessLoop
  | fuel + 1, pt =>
    if pt = NULL then pure []
    else do
      let t ← (h.target.read pt : Except Fault Target)
      let node ← targetMakeXml p t
      let rest ← targetsMakeXml h fuel t.next
      return node :: rest

def deviceLabel (h : Heap) (pm : Monitor) : Except Fault CString :=
  match pm.pd with
  | none => .error .uninitialised
  | some pd => do
    let device ← h.device.read pd
    return device.label

def commandElement (label : CString) (device : Run CString) (targets : Run (List Xml)) :
    Run Xml := do
  let name ← toUtf8 p XML_NODE_CTL_CMD
  let (key, label) ← twoArguments p (toUtf8 p XML_PROP_SOFT_NAME) (toUtf8 p label.bytes)
  let attributes := setAttribute [] key label
  let device ← device
  let (key, label) ← twoArguments p (toUtf8 p XML_PROP_TYPE_NAME) (toUtf8 p device.bytes)
  let attributes := setAttribute attributes key label
  let children ← targets
  return .element name attributes children

def monitorMakeXml (h : Heap) (pm : Monitor) : Run Xml :=
  commandElement p pm.label (deviceLabel h pm : Except Fault CString)
    (targetsMakeXml p h addressSpace pm.target)

def serviceDocument (command : Run Xml) : Run Bytes := do
  let service ← toUtf8 p XML_NODE_MNTR_SERIVICE
  let info ← toUtf8 p XML_NODE_MNTR_INFO
  let command ← command
  return p.printed [.declaration [49, 46, 48] [85, 84, 70, 45, 56] [],
    .element service [] [.element info [] [command]]]

def monitorToString (h : Heap) (pm : Monitor) : Run Bytes :=
  serviceDocument p (monitorMakeXml p h pm)

/-- The while loop of `upload`: the arguments of each call of the transport function. -/
def uploadLoop (h : Heap) (ip : CString) : Nat → Ptr → Run (List (Bytes × Bytes))
  | 0, _ => throw .endlessLoop
  | fuel + 1, pm =>
    if pm = NULL then pure []
    else do
      let m ← (h.monitor.read pm : Except Fault Monitor)
      let szXml ← monitorToString p h m
      let rest ← uploadLoop h ip fuel m.next
      return (ip.bytes, szXml) :: rest

def upload (h : Heap) (pd : Ptr) : Run (Int × List (Bytes × Bytes)) :=
  if pd = NULL then pure (-1, [])
  else if !p.transportLoads then pure (-1, [])
  else do
    let d ← (h.device.read pd : Except Fault Device)
    let calls ← uploadLoop p h d.ip addressSpace d.monitor
    return (0, calls)

end Documents

end SouthXml
