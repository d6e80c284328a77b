import Boring.Library.DoublyLinked
import Boring.South.SouthXml
import Boring.South.TinyXmlParser

/- TiXmlNode with its links: the operations of tinyxml.cpp on nodes that are allocated one by
   one. Assertions are those of a release build, which has none. Content keeps the strings of a
   node as ValueTStr() gives them; Value() is the C string in front of a NUL, which only a text
   and the value of an attribute may hold, read from a reference. -/
namespace TinyXmlDom
open LinkedCells DoublyLinked
open SouthHeap (Ptr NULL addressSpace)
open TinyXmlText (Chars cStr)
open TinyXmlParser (TiXmlError DocumentError errorString)

/-- The type of a node and its members other than the links. -/
inductive Content where
  | document (value : Chars) (error : Option DocumentError) (tabsize : Int)
      (useMicrosoftBOM : Bool)
  | element (value : Chars) (attributes : List (Chars × Chars))
  | comment (value : Chars)
  | unknown (value : Chars)
  | text (value : Chars) (cdata : Bool)
  | declaration (value version encoding standalone : Chars)

namespace Content

def isDocument : Content → Bool
  | .document .. => true
  | _ => false

def isElement : Content → Bool
  | .element .. => true
  | _ => false

def valueTStr : Content → Chars
  | .document value .. => value
  | .element value _ => value
  | .comment value => value
  | .unknown value => value
  | .text value _ => value
  | .declaration value .. => value

/-- TiXmlNode::Value -/
def value (content : Content) : Chars := cStr content.valueTStr

/-- TiXmlDocument::SetError without a position: the first error stays. -/
def setError (err : TiXmlError) : Content → Content
  | .document value none tabsize bom =>
    .document value (some ⟨err, errorString err, ⟨-1, -1⟩⟩) tabsize bom
  | content => content

def New : Content → Prop
  | .document _ error tabsize bom => error = none ∧ tabsize = 4 ∧ bom = false
  | .element _ attributes => attributes = []
  | _ => True

def setValue (value : Chars) : Content → Content
  | .document _ error tabsize bom => .document value error tabsize bom
  | .element _ attributes => .element value attributes
  | .comment _ => .comment value
  | .unknown _ => .unknown value
  | .text _ cdata => .text value cdata
  | .declaration _ version encoding standalone => .declaration value version encoding standalone

def setAttribute (name value : Chars) : Content → Content
  | .element own attributes => .element own (SouthXml.setAttribute attributes name value)
  | content => content

def removeAttribute (name : Chars) : Content → Content
  | .element own attributes => .element own (attributes.eraseP fun a => a.1 = name)
  | content => content

/-- What CopyTo writes to the clone: C strings, and the attributes one by one, as far as Next
    finds them. -/
def cloned : Content → Content
  | .element value attributes =>
    .element value ((TinyXmlTree.visited attributes).foldl
      (fun copied a => SouthXml.setAttribute copied a.1 (cStr a.2)) [])
  | .text value cdata => .text (cStr value) cdata
  | content => content

/-- Only these two classes copy their children. -/
def clonesChildren : Content → Bool
  | .document .. => true
  | .element .. => true
  | _ => false

end Content

structure Node where
  content : Content
  parent : Ptr
  firstChild : Ptr
  lastChild : Ptr
  prev : Ptr
  next : Ptr

abbrev Dom := Memory NULL Node

def newNode (content : Content) : Node := ⟨content, NULL, NULL, NULL, NULL, NULL⟩

def getDocument (h : Dom) (node : Ptr) : Except Fault Ptr :=
  search h Node.parent (fun n => n.content.isDocument) (fun _ node _ => .ok node) NULL
    addressSpace NULL node

/-- SetValue, SetAttribute and RemoveAttribute change the node alone. -/
def edit (h : Dom) (this : Ptr) (f : Content → Content) : Except Fault Dom :=
  modify h this fun n => { n with content := f n.content }

/-- The error that is set where a document would become a child. -/
def refuseDocument (h : Dom) (this : Ptr) : Except Fault Dom := do
  let document ← getDocument h this
  if document = NULL then .ok h
  else edit h document (Content.setError .DOCUMENT_TOP_ONLY)

section Deletion

/-- A loop over siblings that reads the next one before its body runs. -/
def eachSibling (body : Dom → Ptr → Except Fault Dom) : Nat → Dom → Ptr → Except Fault Dom
  | 0, _, _ => .error .endlessLoop
  | fuel + 1, h, node =>
    if node = NULL then .ok h
    else do
      let temp ← h.read node
      let h ← body h node
      eachSibling body fuel h temp.next

/-- delete: the destructor deletes the children first, in ClearThis of an element and in
    ~TiXmlNode of the others. -/
def deleteNode : Nat → Dom → Ptr → Except Fault Dom
  | 0, _, _ => .error .endlessLoop
  | fuel + 1, h, p => do
    let n ← h.read p
    let h ← eachSibling (deleteNode fuel) addressSpace h n.firstChild
    h.free p

def clear (h : Dom) (this : Ptr) : Except Fault Dom := do
  let n ← h.read this
  let h ← eachSibling (deleteNode addressSpace) addressSpace h n.firstChild
  modify h this fun n => { n with firstChild := NULL, lastChild := NULL }

end Deletion

/-- The links that lead to `node` from the front: those of the sibling before it, or of the
    parent where there is none. -/
def setNext (h : Dom) (this before node : Ptr) : Except Fault Dom :=
  if before ≠ NULL then modify h before fun l => { l with next := node }
  else modify h this fun t => { t with firstChild := node }

def setPrev (h : Dom) (this after node : Ptr) : Except Fault Dom :=
  if after ≠ NULL then modify h after fun r => { r with prev := node }
  else modify h this fun t => { t with lastChild := node }

section Insertion

def linkEndChild (h : Dom) (this node : Ptr) : Except Fault (Dom × Ptr) := do
  let n ← h.read node
  if n.content.isDocument then do
    let h ← deleteNode addressSpace h node
    let h ← refuseDocument h this
    .ok (h, NULL)
  else do
    let t ← h.read this
    let h ← modify h node fun n => { n with parent := this, prev := t.lastChild, next := NULL }
    let h ← setNext h this t.lastChild node
    let h ← modify h this fun t => { t with lastChild := node }
    .ok (h, node)

/-- The loop of CopyTo over the children. Addresses that `new` returns are taken from a list. -/
def copyChildren (clone : Dom → List Ptr → Ptr → Except Fault (Dom × List Ptr × Ptr))
    (target : Ptr) : Nat → Dom → List Ptr → Ptr → Except Fault (Dom × List Ptr)
  | 0, _, _, _ => .error .endlessLoop
  | fuel + 1, h, supply, node =>
    if node = NULL then .ok (h, supply)
    else do
      let (h, supply, copy) ← clone h supply node
      let (h, _) ← linkEndChild h target copy
      let n ← h.read node
      copyChildren clone target fuel h supply n.next

def cloneNode : Nat → Dom → List Ptr → Ptr → Except Fault (Dom × List Ptr × Ptr)
  | 0, _, _, _ => .error .endlessLoop
  | fuel + 1, h, supply, p => do
    let n ← h.read p
    let copy := supply.headD NULL
    let h ← h.malloc copy (newNode n.content.cloned)
    if n.content.clonesChildren then do
      let (h, supply) ←
        copyChildren (cloneNode fuel) copy addressSpace h supply.tail n.firstChild
      .ok (h, supply, copy)
    else .ok (h, supply.tail, copy)

/-- The part that the insertions share: a document is refused, another node is cloned. -/
def cloneChild (h : Dom) (this addThis : Ptr) (supply : List Ptr)
    (insert : Dom → Ptr → Except Fault (Dom × Ptr)) : Except Fault (Dom × Ptr) := do
  let a ← h.read addThis
  if a.content.isDocument then do
    let h ← refuseDocument h this
    .ok (h, NULL)
  else do
    let (h, _, node) ← cloneNode addressSpace h supply addThis
    insert h node

def insertEndChild (h : Dom) (this addThis : Ptr) (supply : List Ptr) :
    Except Fault (Dom × Ptr) :=
  cloneChild h this addThis supply fun h node => linkEndChild h this node

def linkBefore (h : Dom) (this beforeThis node : Ptr) : Except Fault (Dom × Ptr) := do
  let b ← h.read beforeThis
  let h ← modify h node fun n => { n with parent := this, next := beforeThis, prev := b.prev }
  let h ← setNext h this b.prev node
  let h ← modify h beforeThis fun b => { b with prev := node }
  .ok (h, node)

def linkAfter (h : Dom) (this afterThis node : Ptr) : Except Fault (Dom × Ptr) := do
  let a ← h.read afterThis
  let h ← modify h node fun n => { n with parent := this, prev := afterThis, next := a.next }
  let h ← setPrev h this a.next node
  let h ← modify h afterThis fun a => { a with next := node }
  .ok (h, node)

/-- The test that the operations at a child begin with. -/
def atChild {Out : Type} (h : Dom) (this child : Ptr) (refused : Out)
    (body : Except Fault (Dom × Out)) : Except Fault (Dom × Out) :=
  if child = NULL then .ok (h, refused)
  else do
    let c ← h.read child
    if c.parent ≠ this then .ok (h, refused) else body

def insertBeforeChild (h : Dom) (this beforeThis addThis : Ptr) (supply : List Ptr) :
    Except Fault (Dom × Ptr) :=
  atChild h this beforeThis NULL <| cloneChild h this addThis supply fun h node =>
    linkBefore h this beforeThis node

def insertAfterChild (h : Dom) (this afterThis addThis : Ptr) (supply : List Ptr) :
    Except Fault (Dom × Ptr) :=
  atChild h this afterThis NULL <| cloneChild h this addThis supply fun h node =>
    linkAfter h this afterThis node

end Insertion

section Removal

/-- The rest of ReplaceChild: the parent of the new node is written last. -/
def linkInPlace (h : Dom) (this replaceThis node : Ptr) : Except Fault (Dom × Ptr) := do
  let r ← h.read replaceThis
  let h ← modify h node fun n => { n with next := r.next, prev := r.prev }
  let h ← setPrev h this r.next node
  let h ← setNext h this r.prev node
  let h ← deleteNode addressSpace h replaceThis
  let h ← modify h node fun n => { n with parent := this }
  .ok (h, node)

def replaceChild (h : Dom) (this replaceThis withThis : Ptr) (supply : List Ptr) :
    Except Fault (Dom × Ptr) :=
  atChild h this replaceThis NULL <| cloneChild h this withThis supply fun h node =>
    linkInPlace h this replaceThis node

/-- Its debug build stops where the node is no child of `this`. -/
def removeChild (h : Dom) (this removeThis : Ptr) : Except Fault (Dom × Bool) :=
  atChild h this removeThis false do
    let r ← h.read removeThis
    let h ← setPrev h this r.next r.prev
    let h ← setNext h this r.prev r.next
    let h ← deleteNode addressSpace h removeThis
    .ok (h, true)

end Removal

end TinyXmlDom
