import Boring.South.TinyXmlText

/- The nodes of a document and the two ways in which tinyxml.cpp prints them. A text and the
   value of an attribute may hold a NUL, from a reference; the other strings are set from C
   strings and hold none. -/
namespace TinyXmlTree
open TinyXmlText

/-- The attributes of an element in the order of its attribute set. -/
inductive TiXmlNode where
  | element (value : Chars) (attributes : List (Chars × Chars)) (children : List TiXmlNode)
  | comment (value : Chars)
  | unknown (value : Chars)
  | text (value : Chars) (cdata : Bool)
  | declaration (version encoding standalone : Chars)

theorem TiXmlNode.induct {motive : TiXmlNode → Prop}
    (element : ∀ value attributes children, (∀ c ∈ children, motive c) →
      motive (.element value attributes children))
    (comment : ∀ value, motive (.comment value)) (unknown : ∀ value, motive (.unknown value))
    (text : ∀ value cdata, motive (.text value cdata))
    (declaration : ∀ version encoding standalone,
      motive (.declaration version encoding standalone)) : ∀ node, motive node
  | .element value attributes children =>
    element value attributes children fun c _ =>
      TiXmlNode.induct element comment unknown text declaration c
  | .comment value => comment value
  | .unknown value => unknown value
  | .text value cdata => text value cdata
  | .declaration version encoding standalone => declaration version encoding standalone

def toText : TiXmlNode → Bool
  | .text _ _ => true
  | _ => false

def isPlainText : TiXmlNode → Bool
  | .text _ cdata => !cdata
  | _ => false

/-- TiXmlAttribute::Next takes an attribute without name and value for the sentinel. -/
def visited : List (Chars × Chars) → List (Chars × Chars)
  | [] => []
  | a :: rest => a :: rest.takeWhile fun b => b.1 != [] || b.2 != []

/-- The quotes of TiXmlAttribute::Print. TiXmlString::find stops at a NUL. -/
def inQuotes (value n v : Chars) : Chars :=
  if 34 ∉ cStr value then n ++ [61, 34] ++ v ++ [34] else n ++ [61, 39] ++ v ++ [39]

/-- TiXmlAttribute::Print to a string, and with fprintf to a file. -/
def attributePrint (a : Chars × Chars) : Chars :=
  inQuotes a.2 (encodeString a.1) (encodeString a.2)

def attributeFilePrint (a : Chars × Chars) : Chars :=
  inQuotes a.2 (cStr (encodeString a.1)) (cStr (encodeString a.2))

/-- One entry of TiXmlDeclaration::Print, with its name and the quotes around its value. -/
def entryPrint (name value : Chars) : Chars :=
  if value = [] then [] else name ++ [61, 34] ++ value ++ [34, 32]

def versionName : Chars := [118, 101, 114, 115, 105, 111, 110]
def encodingName : Chars := [101, 110, 99, 111, 100, 105, 110, 103]
def standaloneName : Chars := [115, 116, 97, 110, 100, 97, 108, 111, 110, 101]

def declarationPrint (version encoding standalone : Chars) : Chars :=
  [60, 63, 120, 109, 108, 32] ++ entryPrint versionName version ++
    entryPrint encodingName encoding ++ entryPrint standaloneName standalone ++ [63, 62]

/-- <![CDATA[ and ]]>, <!-- and --> -/
def cdataStart : Chars := [60, 33, 91, 67, 68, 65, 84, 65, 91]
def cdataEnd : Chars := [93, 93, 62]
def commentStart : Chars := [60, 33, 45, 45]
def commentEnd : Chars := [45, 45, 62]

section Printer

structure TiXmlPrinter where
  depth : Nat
  simpleTextPrint : Bool
  buffer : Chars
  indent : Chars
  lineBreak : Chars

def newPrinter : TiXmlPrinter := ⟨0, false, [], [32, 32, 32, 32], [10]⟩

def setStreamPrinting (q : TiXmlPrinter) : TiXmlPrinter := { q with indent := [], lineBreak := [] }

def TiXmlPrinter.write (q : TiXmlPrinter) (s : Chars) : TiXmlPrinter :=
  { q with buffer := q.buffer ++ s }

def doIndent (q : TiXmlPrinter) : TiXmlPrinter :=
  q.write (List.replicate q.depth q.indent).flatten

def doLineBreak (q : TiXmlPrinter) : TiXmlPrinter := q.write q.lineBreak

def visitEnter (q : TiXmlPrinter) (value : Chars) (attributes : List (Chars × Chars))
    (children : List TiXmlNode) : TiXmlPrinter :=
  let q := (doIndent q).write (60 :: value)
  let q := (visited attributes).foldl (fun q a => q.write (32 :: attributePrint a)) q
  let q := match children with
    | [] => doLineBreak (q.write [32, 47, 62])
    | first :: others =>
      let q := q.write [62]
      if isPlainText first && others.isEmpty then { q with simpleTextPrint := true }
      else doLineBreak q
  { q with depth := q.depth + 1 }

def visitExit (q : TiXmlPrinter) (value : Chars) (children : List TiXmlNode) : TiXmlPrinter :=
  let q := { q with depth := q.depth - 1 }
  if children.isEmpty then q
  else
    let q := if q.simpleTextPrint then { q with simpleTextPrint := false } else doIndent q
    doLineBreak (q.write ([60, 47] ++ value ++ [62]))

def visitText (q : TiXmlPrinter) (value : Chars) (cdata : Bool) : TiXmlPrinter :=
  if cdata then doLineBreak ((doIndent q).write (cdataStart ++ value ++ cdataEnd))
  else if q.simpleTextPrint then q.write (encodeString value)
  else doLineBreak ((doIndent q).write (encodeString value))

/-- The other Visit functions: a line of its own for the node. -/
def visitLine (q : TiXmlPrinter) (line : Chars) : TiXmlPrinter :=
  doLineBreak ((doIndent q).write line)

mutual
def accept : TiXmlNode → TiXmlPrinter → TiXmlPrinter
  | .element value attributes children, q =>
    visitExit (acceptAll children (visitEnter q value attributes children)) value children
  | .comment value, q => visitLine q (commentStart ++ value ++ commentEnd)
  | .unknown value, q => visitLine q (60 :: value ++ [62])
  | .text value cdata, q => visitText q value cdata
  | .declaration version encoding standalone, q =>
    visitLine q (declarationPrint version encoding standalone)

def acceptAll : List TiXmlNode → TiXmlPrinter → TiXmlPrinter
  | [], q => q
  | node :: nodes, q => acceptAll nodes (accept node q)
end

def TiXmlPrinter.cStr (q : TiXmlPrinter) : Chars := TinyXmlText.cStr q.buffer

def printS (document : List TiXmlNode) : Chars := (acceptAll document newPrinter).cStr

end Printer

section Files

def fileIndent (depth : Nat) : Chars := List.replicate (4 * depth) 32

mutual
/-- What Print writes to a file for a node at some depth. -/
def filePrint : Nat → TiXmlNode → Chars
  | depth, .element value attributes children =>
    fileIndent depth ++ 60 :: value ++
      (visited attributes).flatMap (fun a => 32 :: attributeFilePrint a) ++
      if children.isEmpty then [32, 47, 62]
      else if children.length = 1 ∧ children.all toText then
        62 :: filePrintAll (depth + 1) children ++ [60, 47] ++ value ++ [62]
      else
        62 :: filePrintAll (depth + 1) children ++ 10 :: fileIndent depth ++ [60, 47] ++ value ++
          [62]
  | depth, .comment value => fileIndent depth ++ commentStart ++ value ++ commentEnd
  | depth, .unknown value => fileIndent depth ++ 60 :: value ++ [62]
  | depth, .text value cdata =>
    if cdata then 10 :: fileIndent depth ++ cdataStart ++ value ++ cdataEnd ++ [10]
    else cStr (encodeString value)
  | _, .declaration version encoding standalone => declarationPrint version encoding standalone

/-- The loop over the children: a line break in front of all that are no texts. -/
def filePrintAll : Nat → List TiXmlNode → Chars
  | _, [] => []
  | depth, node :: nodes =>
    (if toText node then [] else [10]) ++ filePrint depth node ++ filePrintAll depth nodes
end

def documentPrint (document : List TiXmlNode) : Chars :=
  document.flatMap fun node => filePrint 0 node ++ [10]

end Files

end TinyXmlTree
