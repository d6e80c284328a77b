import Boring.South.TinyXmlRoundTrip

/- SaveFile and LoadFile: what comes between Print and Parse on the way through a file. -/
namespace TinyXmlFiles
open TinyXmlText TinyXmlTree TinyXmlLayouts TinyXmlCodec TinyXmlParser TinyXmlSafety
open TinyXmlAccepted TinyXmlLeaves TinyXmlRoundTrip

/-- A stream that was opened with "w": in text mode a line break becomes CR LF. -/
def fileBytes (textMode : Bool) (s : Chars) : List UInt8 :=
  if textMode then s.flatMap fun c => if c = 10 then [13, 10] else [c] else s

def byteOrderMark (useMicrosoftBOM : Bool) : Chars :=
  if useMicrosoftBOM then [0xef, 0xbb, 0xbf] else []

def saveFile (textMode : Bool) (document : TiXmlDocument) : List UInt8 :=
  fileBytes textMode (byteOrderMark document.useMicrosoftBOM ++ documentPrint document.children)

mutual
/-- What Print writes as it stands, without EncodeString. -/
def rawText : TiXmlNode → Chars
  | .element _ _ children => rawTexts children
  | .comment value => value
  | .unknown value => value
  | .text value cdata => if cdata then value else []
  | .declaration version encoding standalone => version ++ (encoding ++ standalone)

def rawTexts : List TiXmlNode → Chars
  | [] => []
  | node :: nodes => rawText node ++ rawTexts nodes
end

section Bytes

theorem normalize_legible {s : Chars} (legible : Legible s) : normalizeNewLines s = s := by
  induction s with
  | nil => rfl
  | cons c s ih =>
    obtain ⟨⟨-, other⟩, rest⟩ := legible_cons.mp legible
    rw [normalizeNewLines, ih rest]
    · rintro p rfl -
      exact other rfl
    · exact other

theorem normalize_fileBytes (textMode : Bool) {s : Chars} (legible : Legible s) :
    normalizeNewLines (fileBytes textMode s) = s := by
  cases textMode with
  | false => exact normalize_legible legible
  | true =>
    simp only [fileBytes, if_true]
    induction s with
    | nil => rfl
    | cons c s ih =>
      obtain ⟨⟨-, other⟩, rest⟩ := legible_cons.mp legible
      by_cases line : c = 10
      · subst line
        simp [normalizeNewLines, ih rest]
      · rw [List.flatMap_cons, if_neg line, List.singleton_append, normalizeNewLines, ih rest]
        · rintro p rfl -
          exact other rfl
        · exact other

theorem fileBytes_started {textMode : Bool} {s : Chars} (started : s ≠ []) :
    fileBytes textMode s ≠ [] := by
  obtain ⟨c, s, rfl⟩ := List.exists_cons_of_ne_nil started
  unfold fileBytes
  split
  · rw [List.flatMap_cons]
    split <;> simp
  · simp

theorem fileBytes_no_nul (textMode : Bool) {s : Chars} (legible : Legible s) :
    (fileBytes textMode s).takeWhile (· ≠ 0) = fileBytes textMode s := by
  rw [List.takeWhile_eq_self_iff]
  intro c member
  have other : c ≠ 0 := by
    unfold fileBytes at member
    split at member
    · obtain ⟨d, among, inside⟩ := List.mem_flatMap.mp member
      split at inside
      · rcases List.mem_cons.mp inside with rfl | later
        · decide
        · rw [List.mem_singleton.mp later]
          decide
      · rw [List.mem_singleton.mp inside]
        exact (legible d among).1
    · exact (legible c member).1
  simpa using other

end Bytes

section Layouts

variable {encoding : TiXmlEncoding}

theorem fileIndent_blank (depth : Nat) : Blank (fileIndent depth) := by
  intro c member
  rw [List.eq_of_mem_replicate member]
  rfl

theorem line_blank (depth : Nat) : Blank (10 :: fileIndent depth) := by
  intro c member
  rcases List.mem_cons.mp member with rfl | later
  · rfl
  · exact fileIndent_blank depth c later

theorem encoded_cStr {s : Chars} (plain : NoReference s) : cStr (encodeString s) = encodeString s :=
  cStr_whole (encodeString_legible plain).whole

theorem attributes_filePrint {attributes : List (Chars × Chars)}
    (written : ∀ a ∈ attributes, PlainName encoding a.1 ∧ Encodable encoding a.2) :
    (visited attributes).flatMap (fun a => 32 :: attributeFilePrint a) =
      (visited attributes).flatMap fun a => 32 :: attributePrint a := by
  rw [visited_all fun a member => name_long (written a member).1.1]
  refine List.flatMap_congr fun a member => congrArg (32 :: ·) ?_
  obtain ⟨plain, -, apart⟩ := written a member
  have name : cStr (encodeString a.1) = encodeString a.1 := by
    rw [encodeString_name plain.1.2, cStr_whole (name_legible plain.1).whole]
  rw [attributeFilePrint, attributePrint, name, encoded_cStr apart]

def Files (node : TiXmlNode) : Prop :=
  ∀ depth, ∃ before s behind, Blank before ∧ Blank behind ∧ Layout node s ∧
    filePrint depth node = before ++ s ++ behind

theorem filePrintAll_layouts {children : List TiXmlNode} (each : ∀ c ∈ children, Files c)
    (depth : Nat) : Layouts children (filePrintAll depth children) := by
  induction children with
  | nil => exact .done blank_nil
  | cons c children ih =>
    obtain ⟨before, s, behind, first, last, laid, printed⟩ := each c (by simp) depth
    have rest := (ih fun other member => each other (by simp [member])).gap last
    have line : Blank (if toText c then [] else [10]) := by
      split <;> simp [Blank, isWhiteSpace]
    have joined := Layouts.next (line.append first) laid rest
    rw [filePrintAll, printed]
    simpa using joined

theorem filePrint_files {node : TiXmlNode} (storable : Storable encoding node) : Files node := by
  induction node using TiXmlNode.induct with
  | element value attributes children each =>
    intro depth
    obtain ⟨written, each⟩ : (∀ a ∈ attributes, PlainName encoding a.1 ∧ Encodable encoding a.2) ∧
        ∀ c ∈ children, Files c := by
      cases storable with
      | element _ written _ inside _ =>
        exact ⟨written, fun c member => each c member (inside c member)⟩
    have margin := fileIndent_blank depth
    have entries := attributes_filePrint written
    refine ⟨fileIndent depth, ?_⟩
    cases children with
    | nil =>
      refine ⟨_, [], margin, blank_nil, .empty value attributes, ?_⟩
      simp [filePrint, startTag, entries]
    | cons first others =>
      have inside := filePrintAll_layouts each (depth + 1)
      by_cases alone : (first :: others).length = 1 ∧ (first :: others).all toText = true
      · refine ⟨_, [], margin, blank_nil, .content value attributes (by simp) inside, ?_⟩
        rw [filePrint, if_neg (by simp), if_pos alone]
        simp [startTag, endTag, entries]
      · refine ⟨_, [], margin, blank_nil,
          .content value attributes (by simp) (inside.behind (line_blank depth)), ?_⟩
        rw [filePrint, if_neg (by simp), if_neg alone]
        simp [startTag, endTag, entries]
  | comment value =>
    intro depth
    exact ⟨fileIndent depth, _, [], fileIndent_blank depth, blank_nil, .comment value,
      by simp [filePrint]⟩
  | unknown value =>
    intro depth
    exact ⟨fileIndent depth, _, [], fileIndent_blank depth, blank_nil, .unknown value,
      by simp [filePrint]⟩
  | text value cdata =>
    intro depth
    cases cdata with
    | false =>
      cases storable with
      | text written _ =>
        exact ⟨[], _, [], blank_nil, blank_nil, .text value,
          by simp [filePrint, encoded_cStr written.2]⟩
    | true =>
      exact ⟨_, _, [10], line_blank depth, by simp [Blank, isWhiteSpace], .cdata value,
        by simp [filePrint]⟩
  | declaration version encoding standalone =>
    intro depth
    exact ⟨[], _, [], blank_nil, blank_nil, .declaration version encoding standalone,
      by simp [filePrint]⟩

theorem documentPrint_layouts {document : List TiXmlNode}
    (storable : StorableDocument encoding document) :
    Layouts document (documentPrint document) := by
  have each (node) (member : node ∈ document) : ∃ before s behind, Blank before ∧ Blank behind ∧
      Layout node s ∧ filePrint 0 node ++ [10] = before ++ s ++ behind := by
    obtain ⟨encoding, writable⟩ := storable_each storable node member
    obtain ⟨before, s, behind, first, last, laid, printed⟩ := filePrint_files writable 0
    exact ⟨before, s, behind ++ [10], first, last.append (by simp [Blank, isWhiteSpace]), laid,
      by simp [printed]⟩
  have laid := @layouts_flatMap document (fun node => filePrint 0 node ++ [10]) each [] blank_nil
  simpa [documentPrint] using laid

end Layouts

section Printing

variable {encoding : TiXmlEncoding}

theorem fileIndent_legible (depth : Nat) : Legible (fileIndent depth) := by
  intro c member
  rw [List.eq_of_mem_replicate member]
  decide

theorem filePrintAll_legible {children : List TiXmlNode}
    (each : ∀ c ∈ children, Legible (rawText c) → ∀ depth, Legible (filePrint depth c)) :
    ∀ depth, Legible (rawTexts children) → Legible (filePrintAll depth children) := by
  induction children with
  | nil => exact fun _ _ => legible_nil
  | cons c children ih =>
    intro depth raw
    rw [rawTexts, legible_append] at raw
    have line : Legible (if toText c then [] else [10]) := by split <;> simp
    rw [filePrintAll, legible_append, legible_append]
    exact ⟨⟨line, each c (by simp) raw.1 depth⟩,
      ih (fun other member => each other (by simp [member])) depth raw.2⟩

theorem filePrint_legible {node : TiXmlNode} (storable : Storable encoding node)
    (raw : Legible (rawText node)) : ∀ depth, Legible (filePrint depth node) := by
  induction node using TiXmlNode.induct with
  | element value attributes children each =>
    intro depth
    cases storable with
    | element name written _ inside _ =>
      have named := name_legible name.1
      have tag := startTag_legible written
      rw [← attributes_filePrint written] at tag
      have margin := fileIndent_legible depth
      have content := filePrintAll_legible (fun c member raw =>
        each c member (inside c member) raw) (depth + 1) raw
      rw [filePrint]
      split_ifs <;> simp [named, tag, margin, content]
  | comment value =>
    intro depth
    rw [rawText] at raw
    simp [filePrint, fileIndent_legible, raw, commentStart, commentEnd]
  | unknown value =>
    intro depth
    rw [rawText] at raw
    simp [filePrint, fileIndent_legible, raw]
  | text value cdata =>
    intro depth
    cases storable with
    | text written unmarked =>
      simpa [filePrint, encoded_cStr written.2] using encodeString_legible written.2
    | cdata _ open_ =>
      rw [rawText, if_pos rfl] at raw
      simp [filePrint, fileIndent_legible, raw, cdataStart, cdataEnd]
  | declaration version enc standalone =>
    intro depth
    rw [rawText, legible_append, legible_append] at raw
    have first := @entry_legible versionName version (by simp [versionName]) raw.1
    have second := @entry_legible encodingName enc (by simp [encodingName]) raw.2.1
    have third := @entry_legible standaloneName standalone (by simp [standaloneName]) raw.2.2
    simp [filePrint, declarationPrint, first, second, third]

theorem documentPrint_legible : ∀ {document : List TiXmlNode} {encoding : TiXmlEncoding},
    StorableDocument encoding document → Legible (rawTexts document) →
    Legible (documentPrint document) := by
  intro document
  induction document with
  | nil => exact fun _ _ => legible_nil
  | cons node nodes ih =>
    intro encoding storable raw
    rw [rawTexts, legible_append] at raw
    have rest := ih storable.2.2 raw.2
    unfold documentPrint at rest ⊢
    rw [List.flatMap_cons, legible_append]
    exact ⟨by simp [filePrint_legible storable.1 raw.1], rest⟩

end Printing

section Files

theorem documentPrint_ended {document : List TiXmlNode} (started : document ≠ []) :
    [10] <:+ documentPrint document := by
  obtain ⟨front, last, rfl⟩ : ∃ front last, document = front ++ [last] := by
    rcases document.eq_nil_or_concat with rfl | ⟨front, last, rfl⟩
    · exact absurd rfl started
    · exact ⟨front, last, List.concat_eq_append ..⟩
  simp only [documentPrint, List.flatMap_append, List.flatMap_singleton]
  rw [← List.append_assoc]
  exact List.suffix_append _ _

theorem layouts_long {encoding : TiXmlEncoding} {nodes : List TiXmlNode} {text : Chars}
    (storable : StorableDocument encoding nodes) (laid : Layouts nodes text)
    (started : nodes ≠ []) : 2 ≤ text.length := by
  cases laid with
  | done => exact absurd rfl started
  | @next node nodes gap s inner blank first rest =>
    obtain ⟨t, rfl, long⟩ := layout_tag first storable.2.1
    have more := List.length_pos_iff.mpr long
    simp only [List.length_append, List.length_cons]
    omega

theorem skipLoop_mark (text : Chars) :
    skipLoop .UTF8 (byteOrderMark true ++ text) = skipLoop .UTF8 text := by
  simp [byteOrderMark, skipLoop, isMark]

theorem mark_free {encoding : TiXmlEncoding} {nodes : List TiXmlNode} {text : Chars}
    (storable : StorableDocument encoding nodes) (laid : Layouts nodes text)
    (started : nodes ≠ []) (free : ¬ Stuck text) : ¬ Stuck (byteOrderMark true ++ text) := by
  rintro ⟨rest, found, short⟩
  have long := layouts_long storable laid started
  exact free ⟨rest, List.suffix_of_suffix_length_le found (List.suffix_append _ _)
    (by rw [List.length_cons]; omega), short⟩

/-- A document comes back from the file that SaveFile has written, in either mode of the stream
    and with the byte order mark or without it. -/
theorem file_read_back {encoding : TiXmlEncoding} {document : TiXmlDocument} (textMode : Bool)
    (tabsize : Int)
    (storable : StorableDocument (if document.useMicrosoftBOM then .UTF8 else encoding)
      document.children) (raw : Legible (rawTexts document.children))
    (started : document.children ≠ [])
    (known : document.useMicrosoftBOM = true → encoding ≠ .LEGACY) :
    loadFile tabsize encoding (some (saveFile textMode document)) =
      .ok ⟨document.children.map settle,
        decide (encoding = .UNKNOWN ∧ document.useMicrosoftBOM = true), none⟩ := by
  obtain ⟨children, bom, error⟩ := document
  simp only at storable raw started known ⊢
  have laid := documentPrint_layouts storable
  have ended := documentPrint_ended started
  have free := ended_free storable laid started ended
  have legible : Legible (byteOrderMark bom ++ documentPrint children) := by
    rw [legible_append]
    exact ⟨by cases bom <;> simp [byteOrderMark], documentPrint_legible storable raw⟩
  have long : byteOrderMark bom ++ documentPrint children ≠ [] := by
    intro empty
    rw [(List.append_eq_nil_iff.mp empty).2] at ended
    simp at ended
  obtain ⟨c, bytes, shape⟩ : ∃ c bytes,
      saveFile textMode ⟨children, bom, error⟩ = c :: bytes :=
    List.exists_cons_of_ne_nil (fileBytes_started long)
  have text : normalizeNewLines ((c :: bytes).takeWhile (· ≠ 0)) =
      byteOrderMark bom ++ documentPrint children := by
    rw [← shape]
    exact (congrArg normalizeNewLines (fileBytes_no_nul textMode legible)).trans
      (normalize_fileBytes textMode legible)
  rw [shape, loadFile]
  · rw [text]
    cases bom with
    | false =>
      have read := layouts_read_back tabsize laid storable started free
      simpa [byteOrderMark] using read
    | true =>
      have read := @parse_printed .UTF8 encoding _ _ _ tabsize
        (by cases encoding with
          | LEGACY => exact absurd rfl (known rfl)
          | _ => simp [byteOrderMark])
        (skipLoop_mark _) laid storable ⟨started, long⟩ (mark_free storable laid started free)
      simpa [byteOrderMark] using read
  · simp

theorem greeting_file_read_back :
    loadFile 4 .UNKNOWN (some (saveFile true ⟨greeting, false, none⟩)) =
      .ok ⟨greeting.map settle, false, none⟩ :=
  @file_read_back .UNKNOWN ⟨greeting, false, none⟩ true 4 greeting_storable
    (by unfold Legible; decide +kernel) (by simp [greeting]) (by simp)

end Files

end TinyXmlFiles
