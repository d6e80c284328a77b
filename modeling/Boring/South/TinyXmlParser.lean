import Boring.South.TinyXmlTree

/- tinyxmlparser.cpp: the Parse functions, with the errors they set in the document and the
   stamp from which rows and columns are counted. The asserts of a debug build are left out. -/
namespace TinyXmlParser
open TinyXmlText TinyXmlTree

inductive TiXmlError where
  | OPENING_FILE
  | PARSING_ELEMENT
  | FAILED_TO_READ_ELEMENT_NAME
  | READING_ELEMENT_VALUE
  | READING_ATTRIBUTES
  | PARSING_EMPTY
  | READING_END_TAG
  | PARSING_UNKNOWN
  | PARSING_COMMENT
  | PARSING_DECLARATION
  | DOCUMENT_EMPTY
  | PARSING_CDATA
  | DOCUMENT_TOP_ONLY
  deriving DecidableEq, Repr

def errorString : TiXmlError → String
  | .OPENING_FILE => "Failed to open file"
  | .PARSING_ELEMENT => "Error parsing Element."
  | .FAILED_TO_READ_ELEMENT_NAME => "Failed to read Element name"
  | .READING_ELEMENT_VALUE => "Error reading Element value."
  | .READING_ATTRIBUTES => "Error reading Attributes."
  | .PARSING_EMPTY => "Error: empty tag."
  | .READING_END_TAG => "Error reading end tag."
  | .PARSING_UNKNOWN => "Error parsing Unknown."
  | .PARSING_COMMENT => "Error parsing Comment."
  | .PARSING_DECLARATION => "Error parsing Declaration."
  | .DOCUMENT_EMPTY => "Error document empty."
  | .PARSING_CDATA => "Error parsing CDATA."
  | .DOCUMENT_TOP_ONLY =>
    "Error when TiXmlDocument added to document, because TiXmlDocument can only be at the root."

structure TiXmlCursor where
  row : Int
  col : Int
  deriving DecidableEq, Repr

structure DocumentError where
  errorId : TiXmlError
  errorDesc : String
  errorLocation : TiXmlCursor
  deriving DecidableEq, Repr

/-- TiXmlParsingData and the error of the document. The stamp is the text from it on. -/
structure Parsing where
  stamp : Chars
  tabsize : Int
  cursor : TiXmlCursor
  error : Option DocumentError

abbrev Reading (α : Type) := StateT Parsing (Except Fault) α

section Cursor

/-- One turn of the loop of Stamp: none where the pointer stays where it is. -/
def stampStep (encoding : TiXmlEncoding) (tabsize : Int) (p : Chars) (cursor : TiXmlCursor) :
    Option (Chars × TiXmlCursor) :=
  match p with
  | [] => none
  | 13 :: p => some (if p.head? = some 10 then p.tail else p, ⟨cursor.row + 1, 0⟩)
  | 10 :: p => some (if p.head? = some 13 then p.tail else p, ⟨cursor.row + 1, 0⟩)
  | 9 :: p => some (p, ⟨cursor.row, (cursor.col.tdiv tabsize + 1) * tabsize⟩)
  | 0xef :: rest =>
    if encoding = .UTF8 then
      match rest with
      | b :: c :: p =>
        if isMark 0xef b c then some (p, cursor) else some (p, ⟨cursor.row, cursor.col + 1⟩)
      | _ => none
    else some (rest, ⟨cursor.row, cursor.col + 1⟩)
  | c :: rest =>
    let step := if encoding = .UTF8 then utf8ByteTable c else 1
    some ((c :: rest).drop step, ⟨cursor.row, cursor.col + 1⟩)

def stampLoop (encoding : TiXmlEncoding) (tabsize : Int) (now : Chars) :
    Nat → Chars → TiXmlCursor → Except Fault (Chars × TiXmlCursor)
  | 0, _, _ => .error .outOfFuel
  | fuel + 1, p, cursor =>
    if p.length ≤ now.length then .ok (p, cursor)
    else match stampStep encoding tabsize p cursor with
      | none => .error .endlessLoop
      | some (p, cursor) => stampLoop encoding tabsize now fuel p cursor

def stampAt (encoding : TiXmlEncoding) (now : Chars) : Reading Unit := fun s =>
  if s.tabsize < 1 then .ok ((), s)
  else do
    let (p, cursor) ← stampLoop encoding s.tabsize now (s.stamp.length + 1) s.stamp s.cursor
    .ok ((), { s with stamp := p, cursor := cursor })

/-- TiXmlDocument::SetError: the first error stays. Without a pointer the location is cleared. -/
def setError (encoding : TiXmlEncoding) (err : TiXmlError) (pError : Ptr) : Reading Unit := do
  let s ← get
  if s.error.isSome then return ()
  match pError with
  | none => modify fun s => { s with error := some ⟨err, errorString err, ⟨-1, -1⟩⟩ }
  | some p =>
    stampAt encoding p
    modify fun s => { s with error := some ⟨err, errorString err, s.cursor⟩ }

end Cursor

def upTo (tag : Chars) : Chars → Chars × Chars
  | [] => ([], [])
  | c :: p =>
    if stringEqual (c :: p) tag false then ([], c :: p)
    else
      let (value, p) := upTo tag p
      (c :: value, p)

/-- The value of an attribute without quotes, and the character at which it stops. -/
def bareValue : Chars → Chars × Chars :=
  List.span fun c => !isWhiteSpace c && c != 47 && c != 62 && c != 39 && c != 34

/-- The error of an attribute goes to its document, if it has one. -/
def attributeError (document : Bool) (encoding : TiXmlEncoding) (pError : Ptr) : Reading Unit :=
  if document then setError encoding .READING_ATTRIBUTES pError else return ()

/-- TiXmlAttribute::Parse: the name and the value read so far, and the pointer behind it. -/
def attributeParse (document : Bool) (encoding : TiXmlEncoding) (p : Ptr) :
    Reading ((Chars × Chars) × Ptr) := do
  match skipWhiteSpace encoding p with
  | none => return (([], []), none)
  | some [] => return (([], []), none)
  | some p =>
    stampAt encoding p
    let (name, q) := readName (some p)
    match q with
    | none | some [] =>
      attributeError document encoding (some p)
      return ((name, []), none)
    | some q =>
      match skipWhiteSpace encoding (some q) with
      | some (61 :: q) =>
        match skipWhiteSpace encoding (some q) with
        | some (39 :: q) =>
          let (value, q) ← readText encoding false [39] q
          return ((name, value), q)
        | some (34 :: q) =>
          let (value, q) ← readText encoding false [34] q
          return ((name, value), q)
        | some (c :: q) =>
          let (value, q) := bareValue (c :: q)
          match q with
          | 39 :: _ | 34 :: _ =>
            attributeError document encoding (some q)
            return ((name, value), none)
          | _ => return ((name, value), some q)
        | q =>
          attributeError document encoding q
          return ((name, []), none)
      | q =>
        attributeError document encoding q
        return ((name, []), none)

/-- TiXmlComment::Parse, TiXmlUnknown::Parse and TiXmlText::Parse. -/
def commentParse (encoding : TiXmlEncoding) (p : Chars) : Reading (TiXmlNode × Ptr) := do
  match skipWhiteSpace encoding (some p) with
  | none =>
    setError encoding .PARSING_COMMENT none
    return (.comment [], none)
  | some p =>
    stampAt encoding p
    if !stringEqual p commentStart false then
      setError encoding .PARSING_COMMENT (some p)
      return (.comment [], none)
    let (value, p) := upTo commentEnd (p.drop commentStart.length)
    return (.comment value, some (p.drop commentEnd.length))

def unknownParse (encoding : TiXmlEncoding) (p : Chars) : Reading (TiXmlNode × Ptr) := do
  match skipWhiteSpace encoding (some p) with
  | none =>
    setError encoding .PARSING_UNKNOWN none
    return (.unknown [], none)
  | some p =>
    stampAt encoding p
    match p with
    | 60 :: p =>
      let (value, p) := p.span (· != 62)
      return (.unknown value, some (p.drop 1))
    | p =>
      setError encoding .PARSING_UNKNOWN (some p)
      return (.unknown [], none)

/-- The pointer is moved back to the '<' in front of what ReadText left. -/
def textParse (encoding : TiXmlEncoding) (cdata : Bool) (p : Chars) :
    Reading (TiXmlNode × Ptr) := do
  stampAt encoding p
  if cdata || stringEqual p cdataStart false then
    if !stringEqual p cdataStart false then
      setError encoding .PARSING_CDATA (some p)
      return (.text [] true, none)
    let (value, p) := upTo cdataEnd (p.drop cdataStart.length)
    let (_, p) ← readText encoding false cdataEnd p
    return (.text value true, p)
  else
    let (value, p) ← readText encoding true [60] p
    match p with
    | some (c :: p) => return (.text value false, some (60 :: c :: p))
    | _ => return (.text value false, none)

/-- The loop of TiXmlDeclaration::Parse over its three entries. Its attributes are local and
    have no document. -/
def declarationLoop (encoding : TiXmlEncoding) :
    Nat → Chars → Chars × Chars × Chars → Reading ((Chars × Chars × Chars) × Ptr)
  | 0, _, _ => throw .outOfFuel
  | fuel + 1, p, (version, enc, standalone) => do
    match p with
    | [] => return ((version, enc, standalone), none)
    | 62 :: p => return ((version, enc, standalone), some p)
    | c :: p =>
      let p := skipLoop encoding (c :: p)
      if stringEqual p versionName true then
        let (attrib, p) ← attributeParse false encoding (some p)
        declarationLoop encoding fuel (p.getD []) (cStr attrib.2, enc, standalone)
      else if stringEqual p encodingName true then
        let (attrib, p) ← attributeParse false encoding (some p)
        declarationLoop encoding fuel (p.getD []) (version, cStr attrib.2, standalone)
      else if stringEqual p standaloneName true then
        let (attrib, p) ← attributeParse false encoding (some p)
        declarationLoop encoding fuel (p.getD []) (version, enc, cStr attrib.2)
      else
        let p := p.dropWhile fun c => c != 62 && !isWhiteSpace c
        declarationLoop encoding fuel p (version, enc, standalone)

/-- "<?xml", in either case. -/
def xmlHeader : Chars := [60, 63, 120, 109, 108]

def declarationParse (encoding : TiXmlEncoding) (p : Chars) : Reading (TiXmlNode × Ptr) := do
  match skipWhiteSpace encoding (some p) with
  | none =>
    setError encoding .PARSING_DECLARATION none
    return (.declaration [] [] [], none)
  | some p =>
    if !stringEqual p xmlHeader true then
      setError encoding .PARSING_DECLARATION none
      return (.declaration [] [] [], none)
    stampAt encoding p
    let p := p.drop xmlHeader.length
    let ((version, enc, standalone), p) ← declarationLoop encoding (p.length + 1) p ([], [], [])
    return (.declaration version enc standalone, p)

inductive Kind where
  | declaration
  | comment
  | cdata
  | unknown
  | element
  deriving DecidableEq, Repr

def identify (encoding : TiXmlEncoding) (p : Chars) : Option Kind :=
  match skipWhiteSpace encoding (some p) with
  | some (60 :: q) =>
    if stringEqual (60 :: q) xmlHeader true then some .declaration
    else if stringEqual (60 :: q) commentStart false then some .comment
    else if stringEqual (60 :: q) cdataStart false then some .cdata
    else if stringEqual (60 :: q) [60, 33] false then some .unknown
    else if q.head?.any isNameStart then some .element
    else some .unknown
  | _ => none

/-- How the loop over the attributes of an element ends: the tag is done and the element too,
    or its content begins. -/
inductive TagEnd where
  | closed (p : Ptr)
  | opened (p : Chars)

def attributesLoop (encoding : TiXmlEncoding) :
    Nat → Chars → List (Chars × Chars) → Reading (List (Chars × Chars) × TagEnd)
  | 0, _, _ => throw .outOfFuel
  | fuel + 1, pErr, attributes => do
    match skipWhiteSpace encoding (some pErr) with
    | none | some [] =>
      setError encoding .READING_ATTRIBUTES (some pErr)
      return (attributes, .closed none)
    | some (47 :: p) =>
      match p with
      | 62 :: p => return (attributes, .closed (some p))
      | p =>
        setError encoding .PARSING_EMPTY (some p)
        return (attributes, .closed none)
    | some (62 :: p) => return (attributes, .opened p)
    | some p =>
      let (attrib, q) ← attributeParse true encoding (some p)
      match q with
      | none | some [] =>
        setError encoding .PARSING_ELEMENT (some p)
        return (attributes, .closed none)
      | some q =>
        -- the strange case of double attributes
        if attributes.any (·.1 == attrib.1) then
          setError encoding .PARSING_ELEMENT (some p)
          return (attributes, .closed none)
        else attributesLoop encoding fuel q (attributes ++ [attrib])

/-- TiXmlElement::Parse, with the function that reads the content. -/
def elementParse (readValue : Chars → Reading (List TiXmlNode × Ptr)) (encoding : TiXmlEncoding)
    (p : Chars) : Reading (TiXmlNode × Ptr) := do
  match skipWhiteSpace encoding (some p) with
  | none | some [] =>
    setError encoding .PARSING_ELEMENT none
    return (.element [] [] [], none)
  | some (c :: p) =>
    stampAt encoding (c :: p)
    if c != 60 then
      setError encoding .PARSING_ELEMENT (some (c :: p))
      return (.element [] [] [], none)
    let pErr := skipWhiteSpace encoding (some p)
    let (value, p) := readName pErr
    match p with
    | none | some [] =>
      setError encoding .FAILED_TO_READ_ELEMENT_NAME pErr
      return (.element value [] [], none)
    | some p =>
      let (attributes, tagEnd) ← attributesLoop encoding (p.length + 1) p []
      match tagEnd with
      | .closed p => return (.element value attributes [], p)
      | .opened p =>
        let (children, p) ← readValue p
        match p with
        | none | some [] =>
          setError encoding .READING_END_TAG p
          return (.element value attributes children, none)
        | some p =>
          let endTag := [60, 47] ++ value
          if stringEqual p endTag false then
            match skipWhiteSpace encoding (some (p.drop endTag.length)) with
            | some (62 :: p) => return (.element value attributes children, some p)
            | p =>
              setError encoding .READING_END_TAG p
              return (.element value attributes children, none)
          else
            setError encoding .READING_END_TAG (some p)
            return (.element value attributes children, none)

def nodeParse (readValue : Chars → Reading (List TiXmlNode × Ptr)) (encoding : TiXmlEncoding)
    (kind : Kind) (p : Chars) : Reading (TiXmlNode × Ptr) :=
  match kind with
  | .declaration => declarationParse encoding p
  | .comment => commentParse encoding p
  | .cdata => textParse encoding true p
  | .unknown => unknownParse encoding p
  | .element => elementParse readValue encoding p

def isBlank : TiXmlNode → Bool
  | .text value _ => value.all isWhiteSpace
  | _ => false

def readOn (readValue : Chars → Reading (List TiXmlNode × Ptr)) (encoding : TiXmlEncoding)
    (linked : List TiXmlNode) (p : Ptr) : Reading (List TiXmlNode × Ptr) :=
  match p with
  | none => do
    setError encoding .READING_ELEMENT_VALUE none
    return (linked, none)
  | some p => do
    let (more, p) ← readValue p
    return (linked ++ more, p)

/-- The loop of TiXmlElement::ReadValue: the children linked and the pointer it returns. -/
def readValue (encoding : TiXmlEncoding) : Nat → Chars → Reading (List TiXmlNode × Ptr)
  | 0, _ => throw .outOfFuel
  | fuel + 1, p =>
    match skipWhiteSpace encoding (some p) with
    | none => do
      setError encoding .READING_ELEMENT_VALUE none
      return ([], none)
    | some p =>
      if p = [] ∨ stringEqual p [60, 47] false then return ([], some p)
      else if p.head? ≠ some 60 then do
        let (node, p) ← textParse encoding false p
        readOn (readValue encoding fuel) encoding (if isBlank node then [] else [node]) p
      else match identify encoding p with
        | none => return ([], none)
        | some kind => do
          let (node, p) ← nodeParse (readValue encoding fuel) encoding kind p
          readOn (readValue encoding fuel) encoding [node] p

def utf8Names : List Chars := [[85, 84, 70, 45, 56], [85, 84, 70, 56]]

/-- What the document takes from a declaration when it does not know the encoding yet. -/
def encodingAfter (encoding : TiXmlEncoding) (node : TiXmlNode) : TiXmlEncoding :=
  match encoding, node with
  | .UNKNOWN, .declaration _ enc _ =>
    if cStr enc = [] then .UTF8
    else if utf8Names.any fun name => stringEqual (cStr enc) name true then .UTF8
    else .LEGACY
  | encoding, _ => encoding

/-- The loop of TiXmlDocument::Parse. It leaves at the first text outside the elements. -/
def documentLoop : Nat → TiXmlEncoding → Chars → Reading (List TiXmlNode × TiXmlEncoding × Ptr)
  | 0, _, _ => throw .outOfFuel
  | fuel + 1, encoding, p => do
    if p = [] then return ([], encoding, some [])
    match identify encoding p with
    | none => return ([], encoding, some p)
    | some kind =>
      let (node, p) ← nodeParse (readValue encoding (p.length + 1)) encoding kind p
      let encoding := encodingAfter encoding node
      match skipWhiteSpace encoding p with
      | none => return ([node], encoding, none)
      | some p =>
        let (nodes, ends) ← documentLoop fuel encoding p
        return (node :: nodes, ends)

structure TiXmlDocument where
  children : List TiXmlNode
  useMicrosoftBOM : Bool
  error : Option DocumentError

def emptyDocument (err : TiXmlError) : TiXmlDocument :=
  ⟨[], false, some ⟨err, errorString err, ⟨-1, -1⟩⟩⟩

def documentParse (tabsize : Int) (encoding : TiXmlEncoding) (p : Chars) :
    Except Fault TiXmlDocument :=
  if p = [] then .ok (emptyDocument .DOCUMENT_EMPTY)
  else do
    let useMicrosoftBOM := encoding = .UNKNOWN ∧ [0xef, 0xbb, 0xbf] <+: p
    let encoding := if useMicrosoftBOM then .UTF8 else encoding
    let p' := skipLoop encoding p
    let ((children, encoding, _), s) ←
      documentLoop (p'.length + 1) encoding p' ⟨p, tabsize, ⟨0, 0⟩, none⟩
    let s ←
      if children = [] then do
        let (_, s) ← setError encoding .DOCUMENT_EMPTY none s
        pure s
      else pure s
    return ⟨children, useMicrosoftBOM, s.error⟩

/-- The loop of LoadFile over the buffer: CR and CR LF become LF. -/
def normalizeNewLines : Chars → Chars
  | [] => []
  | 13 :: 10 :: p => 10 :: normalizeNewLines p
  | 13 :: p => 10 :: normalizeNewLines p
  | c :: p => c :: normalizeNewLines p

/-- TiXmlDocument::LoadFile with the bytes of the file, none when it does not open. -/
def loadFile (tabsize : Int) (encoding : TiXmlEncoding) (file : Option (List UInt8)) :
    Except Fault TiXmlDocument :=
  match file with
  | none => .ok (emptyDocument .OPENING_FILE)
  | some [] => .ok (emptyDocument .DOCUMENT_EMPTY)
  | some bytes => documentParse tabsize encoding (normalizeNewLines (bytes.takeWhile (· ≠ 0)))

end TinyXmlParser
