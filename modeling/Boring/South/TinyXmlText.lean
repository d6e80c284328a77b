import Mathlib.Data.List.TakeWhile

/- tinyxml.h, tinyxml.cpp and tinyxmlparser.cpp, the level of single characters: what is a
   blank, a name, an entity, and how a text is encoded for printing and read back. The asserts
   of a debug build are left out, such as that of StringEqual on a tag that it has found. -/
namespace TinyXmlText

/-- The characters of a C string up to its NUL. -/
abbrev Chars := List UInt8

/-- A pointer into the parsed string: null, or what stands from there to the NUL. -/
abbrev Ptr := Option Chars

/-- c_str() of a TiXmlString as it is read: a reference may have put a NUL into the string. -/
def cStr (s : Chars) : Chars := s.takeWhile (· ≠ 0)

theorem cStr_whole {s : Chars} (whole : 0 ∉ s) : cStr s = s := by
  rw [cStr, List.takeWhile_eq_self_iff]
  intro c member
  have other : c ≠ 0 := fun same => whole (same ▸ member)
  simpa using other

/-- A read behind the NUL, a loop that stays in place, and a recursion of the model cut off. -/
inductive Fault where
  | overrun
  | endlessLoop
  | outOfFuel
  deriving DecidableEq, Repr

inductive TiXmlEncoding where
  | UNKNOWN
  | UTF8
  | LEGACY
  deriving DecidableEq, Repr

def isWhiteSpace (c : UInt8) : Bool := c == 32 || (9 ≤ c && c ≤ 13)

def isalpha (c : UInt8) : Bool := (65 ≤ c && c ≤ 90) || (97 ≤ c && c ≤ 122)

def isalnum (c : UInt8) : Bool := isalpha c || (48 ≤ c && c ≤ 57)

def isAlpha (anyByte : UInt8) : Bool := if anyByte < 127 then isalpha anyByte else true

def isAlphaNum (anyByte : UInt8) : Bool := if anyByte < 127 then isalnum anyByte else true

def toLower (v : UInt8) : UInt8 := if 65 ≤ v && v ≤ 90 then v + 32 else v

/-- The table of 256 entries: the number of bytes that a lead byte announces. -/
def utf8ByteTable (lead : UInt8) : Nat :=
  if lead < 0xc2 then 1
  else if lead < 0xe0 then 2
  else if lead < 0xf0 then 3
  else if lead < 0xf5 then 4
  else 1

def entity : List (Chars × UInt8) :=
  [([38, 97, 109, 112, 59], 38),          -- &amp;
   ([38, 108, 116, 59], 60),              -- &lt;
   ([38, 103, 116, 59], 62),              -- &gt;
   ([38, 113, 117, 111, 116, 59], 34),    -- &quot;
   ([38, 97, 112, 111, 115, 59], 39)]     -- &apos;

def upperDigit (n : UInt8) : UInt8 := if n < 10 then 48 + n else 55 + n

def encodeChar (c : UInt8) : Chars :=
  if c = 38 then [38, 97, 109, 112, 59]
  else if c = 60 then [38, 108, 116, 59]
  else if c = 62 then [38, 103, 116, 59]
  else if c = 34 then [38, 113, 117, 111, 116, 59]
  else if c = 39 then [38, 97, 112, 111, 115, 59]
  else if c < 32 then [38, 35, 120, upperDigit (c / 16), upperDigit (c % 16), 59]
  else [c]

/-- The two loops of EncodeString. The flag is set inside the inner one, which copies what
    follows "&#x" until the next character is ';' or the last one. -/
def encodeLoop : Bool → Chars → Chars
  | _, [] => []
  | false, c :: rest =>
    if c = 38 ∧ rest.take 2 = [35, 120] then c :: encodeLoop true rest
    else encodeChar c ++ encodeLoop false rest
  | true, [c] => encodeChar c
  | true, c :: d :: rest => c :: encodeLoop (d != 59) (d :: rest)

def encodeString (str : Chars) : Chars := encodeLoop false str

/-- The byte order mark and the two noncharacters that UTF-8 input may hold anywhere. -/
def isMark (a b c : UInt8) : Bool :=
  a == 0xef && ((b == 0xbb && c == 0xbf) || (b == 0xbf && (c == 0xbe || c == 0xbf)))

def skipLoop (encoding : TiXmlEncoding) : Chars → Chars
  | a :: b :: c :: rest =>
    if encoding = .UTF8 ∧ isMark a b c then skipLoop encoding rest
    else if isWhiteSpace a then skipLoop encoding (b :: c :: rest)
    else a :: b :: c :: rest
  | a :: rest => if isWhiteSpace a then skipLoop encoding rest else a :: rest
  | [] => []

def skipWhiteSpace (encoding : TiXmlEncoding) : Ptr → Ptr
  | none => none
  | some [] => none
  | some p => some (skipLoop encoding p)

def isNameStart (c : UInt8) : Bool := isAlpha c || c == 95

def isNameChar (c : UInt8) : Bool :=
  isAlphaNum c || c == 95 || c == 45 || c == 46 || c == 58

def readName : Ptr → Chars × Ptr
  | some (c :: rest) =>
    if isNameStart c then
      ((c :: rest).takeWhile isNameChar, some ((c :: rest).dropWhile isNameChar))
    else ([], none)
  | _ => ([], none)

def tagLoop (same : UInt8 → UInt8 → Bool) : Chars → Chars → Bool
  | _, [] => true
  | [], _ :: _ => false
  | q :: p, t :: tag => same q t && tagLoop same p tag

def stringEqual (p tag : Chars) (ignoreCase : Bool) : Bool :=
  p != [] && tagLoop (if ignoreCase then fun q t => toLower q == toLower t else (· == ·)) p tag

/-- The bytes that are written for a code point; none from 0x200000 on. -/
def convertUTF32ToUTF8 (input : UInt32) : Chars :=
  let tail (n : UInt32) : UInt8 := (((input >>> n) ||| 0x80) &&& 0xbf).toUInt8
  if input < 0x80 then [input.toUInt8]
  else if input < 0x800 then [((input >>> 6) ||| 0xc0).toUInt8, tail 0]
  else if input < 0x10000 then [((input >>> 12) ||| 0xe0).toUInt8, tail 6, tail 0]
  else if input < 0x200000 then [((input >>> 18) ||| 0xf0).toUInt8, tail 12, tail 6, tail 0]
  else []

def hexValue (c : UInt8) : Option UInt32 :=
  if 48 ≤ c ∧ c ≤ 57 then some (c - 48).toUInt32
  else if 97 ≤ c ∧ c ≤ 102 then some (c - 97 + 10).toUInt32
  else if 65 ≤ c ∧ c ≤ 70 then some (c - 65 + 10).toUInt32
  else none

def decimalValue (c : UInt8) : Option UInt32 :=
  if 48 ≤ c ∧ c ≤ 57 then some (c - 48).toUInt32 else none

/-- The loop from the last digit to the left, up to the mark: 'x' or '#'. -/
def digitLoop (value : UInt8 → Option UInt32) (base : UInt32) (mark : UInt8) :
    Chars → UInt32 → UInt32 → Option UInt32
  | [], _, ucs => some ucs
  | q :: left, mult, ucs =>
    if q = mark then some ucs
    else match value q with
      | none => none
      | some digit => digitLoop value base mark left (mult * base) (ucs + mult * digit)

/-- A reference whose digits stand between `mark` and the first ';' of `q`. -/
def numericReference (encoding : TiXmlEncoding) (value : UInt8 → Option UInt32) (base : UInt32)
    (mark : UInt8) (q : Chars) : Option (Chars × Chars) :=
  match q.dropWhile (· ≠ 59) with
  | [] => none
  | _ :: rest =>
    match digitLoop value base mark (q.takeWhile (· ≠ 59)).reverse 1 0 with
    | none => none
    | some ucs =>
      if encoding = .UTF8 then some (convertUTF32ToUTF8 ucs, rest)
      else some ([ucs.toUInt8], rest)

/-- The entities of the table; any other '&' is passed over and gives no character. -/
def namedReference (p : Chars) : Chars × Chars :=
  match entity.find? fun e => e.1.isPrefixOf p with
  | some e => ([e.2], p.drop e.1.length)
  | none => ([], p.drop 1)

/-- `p` starts with '&'. The characters and what is left, or null. -/
def getEntity (encoding : TiXmlEncoding) (p : Chars) : Option (Chars × Chars) :=
  match p with
  | _ :: 35 :: 120 :: q =>
    if q = [] then none else numericReference encoding hexValue 16 120 q
  | _ :: 35 :: c :: q => numericReference encoding decimalValue 10 35 (c :: q)
  | p => some (namedReference p)

/-- Copying a sequence that the NUL cuts off leaves the pointer behind the NUL. -/
def getChar (encoding : TiXmlEncoding) (p : Chars) : Except Fault (Option (Chars × Chars)) :=
  match p with
  | [] => .error .overrun
  | c :: rest =>
    let length := if encoding = .UTF8 then utf8ByteTable c else 1
    if length = 1 then
      if c = 38 then .ok (getEntity encoding p) else .ok (some ([c], rest))
    else if p.length < length then .error .overrun
    else .ok (some (p.take length, p.drop length))

def keepLoop (encoding : TiXmlEncoding) (endTag : Chars) :
    Nat → Chars → Chars → Except Fault (Chars × Ptr)
  | 0, _, _ => .error .outOfFuel
  | fuel + 1, p, text =>
    if p = [] ∨ stringEqual p endTag false then .ok (text, some p)
    else do
      match ← getChar encoding p with
      | none => return (text, none)
      | some (cArr, p) => keepLoop encoding endTag fuel p (text ++ cArr)

/-- The loop that condenses white space: it becomes a single space in front of what follows. -/
def condenseLoop (encoding : TiXmlEncoding) (endTag : Chars) :
    Nat → Chars → Bool → Chars → Except Fault (Chars × Ptr)
  | 0, _, _, _ => .error .outOfFuel
  | fuel + 1, p, whitespace, text =>
    if p = [] ∨ stringEqual p endTag false then .ok (text, some p)
    else if isWhiteSpace p.head! then condenseLoop encoding endTag fuel p.tail true text
    else do
      let text := if whitespace then text ++ [32] else text
      match ← getChar encoding p with
      | none => return (text, none)
      | some (cArr, p) => condenseLoop encoding endTag fuel p false (text ++ cArr)

/-- The text in front of the end tag and the pointer behind it, null when nothing follows. -/
def readText (encoding : TiXmlEncoding) (trimWhiteSpace : Bool) (endTag : Chars) (p : Chars) :
    Except Fault (Chars × Ptr) := do
  let (text, p) ←
    if trimWhiteSpace then
      match skipWhiteSpace encoding (some p) with
      | none => pure ([], none)
      | some p => condenseLoop encoding endTag (p.length + 1) p false []
    else keepLoop encoding endTag (p.length + 1) p []
  match p with
  | none => return (text, none)
  | some p =>
    let p := p.drop endTag.length
    return (text, if p = [] then none else some p)

end TinyXmlText
