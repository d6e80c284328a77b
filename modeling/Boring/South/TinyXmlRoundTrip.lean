import Boring.South.TinyXmlLeaves
import Mathlib.Data.List.Chain

/- What both printers write, Parse reads back: the tree as it was, with the white space of its
   texts condensed. -/
namespace TinyXmlRoundTrip
open TinyXmlText TinyXmlTree TinyXmlLayouts TinyXmlCodec TinyXmlParser TinyXmlSafety
open TinyXmlAccepted TinyXmlLeaves Outcomes

section Trees

variable (encoding : TiXmlEncoding)

/-- The trees that survive being printed. -/
inductive Storable : TiXmlNode → Prop where
  | element {value : Chars} {attributes : List (Chars × Chars)} {children : List TiXmlNode}
      (name : PlainName encoding value)
      (written : ∀ a ∈ attributes, PlainName encoding a.1 ∧ Encodable encoding a.2)
      (distinct : (attributes.map Prod.fst).Nodup)
      (inside : ∀ c ∈ children, Storable c) (apart : Apart children) :
      Storable (.element value attributes children)
  | comment {value : Chars} (whole : 0 ∉ value) (open_ : ¬ commentEnd <:+: value) :
      Storable (.comment value)
  | unknown {value : Chars} (whole : 0 ∉ value) (other : ReadsUnknown value) :
      Storable (.unknown value)
  | text {value : Chars} (written : Encodable encoding value)
      (unmarked : Unmarked encoding value) : Storable (.text value false)
  | cdata {value : Chars} (whole : 0 ∉ value) (open_ : ¬ cdataEnd <:+: value) :
      Storable (.text value true)
  | declaration {version enc standalone : Chars} (first : Quotable encoding version)
      (second : Quotable encoding enc) (third : Quotable encoding standalone) :
      Storable (.declaration version enc standalone)

mutual
/-- What reading makes of the texts: their white space is condensed, and blank ones go. -/
def settle : TiXmlNode → TiXmlNode
  | .element value attributes children => .element value attributes (settleAll children)
  | .text value false => .text (condensed false (leftTrimmed value)) false
  | node => node

def settleAll : List TiXmlNode → List TiXmlNode
  | [] => []
  | node :: nodes =>
    if isPlainText node && isBlank (settle node) then settleAll nodes
    else settle node :: settleAll nodes
end

end Trees

section Elements

variable {buffer : Chars} {encoding : TiXmlEncoding}

theorem visited_all {attributes : List (Chars × Chars)} (named : ∀ a ∈ attributes, a.1 ≠ []) :
    visited attributes = attributes := by
  cases attributes with
  | nil => rfl
  | cons a rest =>
    have all : rest.takeWhile (fun b => b.1 != [] || b.2 != []) = rest :=
      List.takeWhile_eq_self_iff.mpr fun b member => by simp [named b (by simp [member])]
    rw [visited, all]

theorem name_long {s : Chars} (name : IsName s) : s ≠ [] := by
  obtain ⟨⟨c, rest, rfl, -⟩, -⟩ := name
  simp

theorem startTag_legible {attributes : List (Chars × Chars)}
    (written : ∀ a ∈ attributes, PlainName encoding a.1 ∧ Encodable encoding a.2) :
    Legible ((visited attributes).flatMap fun a => 32 :: attributePrint a) := by
  rw [visited_all fun a member => name_long (written a member).1.1]
  intro c member
  obtain ⟨a, among, inside⟩ := List.mem_flatMap.mp member
  obtain ⟨plain, -, apart⟩ := written a among
  rcases List.mem_cons.mp inside with rfl | later
  · decide
  · exact attribute_legible plain.1 apart c later

theorem elementParse_yields {value tail rest : Chars} {attributes : List (Chars × Chars)}
    {children : List TiXmlNode} {tagEnd : TagEnd}
    {readValue : Chars → Reading (List TiXmlNode × Ptr)} (free : ¬ Stuck buffer)
    (name : PlainName encoding value)
    (written : ∀ a ∈ attributes, PlainName encoding a.1 ∧ Encodable encoding a.2)
    (distinct : (attributes.map Prod.fst).Nodup)
    (start : ∃ c r, tail = c :: r ∧ (c = 32 ∨ c = 62))
    (ends : ∀ fuel all, Yields (Calm buffer) (attributesLoop encoding (fuel + 1) tail all)
      (all, tagEnd))
    (content : tagEnd = .closed (some rest) ∧ children = [] ∨ ∃ inner, tagEnd = .opened inner ∧
      Yields (Calm buffer) (readValue inner) (children, some (endTag value ++ 62 :: rest))) :
    Yields (Calm buffer)
      (elementParse readValue encoding (startTag value attributes ++ tail))
      (.element value attributes children, some rest) := by
  obtain ⟨c, r, rfl, first⟩ := start
  have all := visited_all fun a member => name_long (written a member).1.1
  set entries := attributes.flatMap (fun a => 32 :: attributePrint a) ++ c :: r with more
  obtain ⟨d, left, shape, low, stop⟩ : ∃ d left, entries = d :: left ∧ d < 128 ∧
      isNameChar d = false := by
    rw [more]
    cases attributes with
    | nil => exact ⟨c, r, rfl, by rcases first with rfl | rfl <;> decide,
        by rcases first with rfl | rfl <;> decide⟩
    | cons a others => exact ⟨32, _, rfl, by decide, by decide⟩
  have text : startTag value attributes ++ c :: r = 60 :: (value ++ d :: left) := by
    rw [← shape, more]
    simp [startTag, all]
  have skipped : skipWhiteSpace encoding (some (value ++ d :: left)) =
      some (value ++ d :: left) := by
    rw [skipWhiteSpace_started (by simp)]
    exact congrArg some (skipLoop_name left name low blank_nil)
  have loop := attributes_yield free (by simp) ends written [] ((d :: left).length + 1)
    (by simpa using distinct) (by rw [← more, shape]; omega)
  rw [← more, shape, List.nil_append] at loop
  unfold elementParse
  rw [text, skipWhiteSpace_tag]
  refine (stamp_yields encoding _ free).andThen ?_
  simp only [bne_self_eq_false, Bool.false_eq_true, if_false, skipped,
    readName_name left name.1 stop]
  refine loop.andThen ?_
  rcases content with ⟨rfl, rfl⟩ | ⟨inner, rfl, inside⟩
  · exact yields_pure _
  · have equal : stringEqual (endTag value ++ 62 :: rest) ([60, 47] ++ value) false = true :=
      (stringEqual_starts _ _).mpr ⟨by simp [endTag], List.prefix_append _ _⟩
    have dropped : (endTag value ++ 62 :: rest).drop ([60, 47] ++ value).length = 62 :: rest :=
      List.drop_left
    have closes : skipWhiteSpace encoding (some (62 :: rest)) = some (62 :: rest) := by
      rw [skipWhiteSpace_started (by simp),
        skipLoop_stop (by decide) fun _ => markAhead_lead _ (by decide)]
    refine inside.andThen ?_
    obtain ⟨m, after, start⟩ : ∃ m after, endTag value ++ 62 :: rest = m :: after :=
      List.exists_cons_of_ne_nil (by simp [endTag])
    rw [start] at equal dropped ⊢
    simp only [equal, if_true, dropped, closes]
    exact yields_pure _

end Elements

section Nodes

variable {buffer : Chars} {encoding : TiXmlEncoding}

/-- The pointer behind a node: a section at the end of the input leaves a null pointer. -/
def Left (rest : Chars) (q : Ptr) : Prop := q = some rest ∨ q = none ∧ rest = []

/-- Whatever follows it, the text of a node begins with a tag and is read as that node. -/
def ReadsBack (buffer : Chars) (encoding : TiXmlEncoding) (node : TiXmlNode) : Prop :=
  ∀ s rest fuel, Layout node s → (s ++ rest).length ≤ fuel →
    (s ++ rest).head? = some 60 ∧ stringEqual (s ++ rest) [60, 47] false = false ∧
    ∃ kind q, identify encoding (s ++ rest) = some kind ∧ Left rest q ∧
      Yields (Calm buffer) (nodeParse (readValue encoding fuel) encoding kind (s ++ rest))
        (settle node, q)

theorem no_end_tag {c : UInt8} (p : Chars) (other : c ≠ 47) :
    stringEqual (60 :: c :: p) [60, 47] false = false := by
  simp [stringEqual, tagLoop, other]

theorem readValue_skips {p r : Chars} (same : skipLoop encoding p = skipLoop encoding r)
    (started : p ≠ [] ∧ r ≠ []) (fuel : Nat) :
    readValue encoding fuel p = readValue encoding fuel r := by
  cases fuel with
  | zero => rfl
  | succ fuel =>
    rw [readValue, readValue, skipWhiteSpace_started started.1, skipWhiteSpace_started started.2,
      same]

theorem readOn_yields {linked more : List TiXmlNode} {r : Chars} {q : Ptr}
    {readValue : Chars → Reading (List TiXmlNode × Ptr)}
    (content : Yields (Calm buffer) (readValue r) (more, q)) :
    Yields (Calm buffer) (readOn readValue encoding linked (some r)) (linked ++ more, q) :=
  content.andThen (yields_pure _)

theorem layout_tag {node : TiXmlNode} {s : Chars} (laid : Layout node s)
    (tagged : isPlainText node = false) : ∃ t, s = 60 :: t ∧ t ≠ [] := by
  cases laid with
  | empty value attributes => exact ⟨_, rfl, by simp⟩
  | content value attributes some inside => exact ⟨_, rfl, by simp⟩
  | comment value => exact ⟨_, rfl, by simp⟩
  | unknown value => exact ⟨_, rfl, by simp⟩
  | text value => exact absurd tagged (by simp [isPlainText])
  | cdata value => exact ⟨_, rfl, by simp⟩
  | declaration version enc standalone => exact ⟨_, rfl, by simp⟩

theorem layouts_tag {nodes : List TiXmlNode} {inner : Chars} (laid : Layouts nodes inner)
    (tagged : ∀ c ∈ nodes.head?, isPlainText c = false) (rest : Chars) :
    ∃ gap more, Blank gap ∧ inner ++ 60 :: 47 :: rest = gap ++ 60 :: more ∧ more ≠ [] := by
  cases laid with
  | done blank => exact ⟨inner, 47 :: rest, blank, rfl, by simp⟩
  | @next node nodes gap s inner blank first others =>
    obtain ⟨t, rfl, long⟩ := layout_tag first (tagged node rfl)
    exact ⟨gap, t ++ (inner ++ 60 :: 47 :: rest), blank, by simp, by simp [long]⟩

theorem tag_turn {node : TiXmlNode} {nodes : List TiXmlNode} {gap s more : Chars} {q : Ptr}
    {fuel : Nat} (laid : Layout node s) (tagged : isPlainText node = false) (blank : Blank gap)
    (reads : ReadsBack buffer encoding node) (long : more ≠ [])
    (enough : (gap ++ s ++ more).length < fuel + 1)
    (later : ∀ fuel, more.length < fuel →
      Yields (Calm buffer) (readValue encoding fuel more) (nodes, q)) :
    Yields (Calm buffer) (readValue encoding (fuel + 1) (gap ++ (s ++ more)))
      (settle node :: nodes, q) := by
  obtain ⟨t, rfl, -⟩ := layout_tag laid tagged
  simp only [List.length_append, List.length_cons] at enough
  have shorter : more.length < fuel := by omega
  have fits : (60 :: t ++ more).length ≤ fuel := by
    simp only [List.length_append, List.length_cons]
    omega
  obtain ⟨-, open_, kind, r, known, behind, parsed⟩ := reads _ more fuel laid fits
  obtain rfl : r = some more := behind.resolve_right fun none => long none.2
  rw [List.cons_append] at open_ known parsed ⊢
  rw [readValue, skipWhiteSpace_started (by simp), skipLoop_gap _ blank, skipLoop_tag]
  simp only [open_, known, reduceCtorEq, Bool.false_eq_true, or_self, if_false, List.head?_cons,
    ne_eq, not_true]
  exact parsed.andThen (readOn_yields (later fuel shorter))

theorem text_turn {value gap gap' more : Chars} {nodes : List TiXmlNode} {q : Ptr} {fuel : Nat}
    (free : ¬ Stuck buffer) (written : Encodable encoding value)
    (unmarked : Unmarked encoding value) (blank : Blank gap) (blank' : Blank gap')
    (long : more ≠ [])
    (enough : (gap ++ (encodeString value ++ (gap' ++ 60 :: more))).length < fuel + 1)
    (later : ∀ fuel, (gap' ++ 60 :: more).length < fuel →
      Yields (Calm buffer) (readValue encoding fuel (gap' ++ 60 :: more)) (nodes, q)) :
    Yields (Calm buffer)
      (readValue encoding (fuel + 1) (gap ++ (encodeString value ++ (gap' ++ 60 :: more))))
      (settleAll [.text value false] ++ nodes, q) := by
  have skipped := skipLoop_encoded (gap' ++ 60 :: more) written.1 written.2 unmarked
  by_cases empty : leftTrimmed value = []
  · have gone : settleAll [.text value false] = [] := by
      simp [settleAll, settle, empty, condensed, isPlainText, isBlank]
    rw [if_pos empty] at skipped
    rw [gone, readValue_skips ((skipLoop_gap _ blank).trans skipped) (by simp)]
    exact later (fuel + 1) (by simp only [List.length_append] at enough ⊢; omega)
  · rw [if_neg empty] at skipped
    have trimmed : leftTrimmed (leftTrimmed value) = leftTrimmed value :=
      List.dropWhile_idempotent ..
    have written' : Encodable encoding (leftTrimmed value) :=
      ⟨written.1.leftTrimmed, written.2.leftTrimmed⟩
    have text := text_yields free written'
      (by rw [Unmarked, trimmed]; exact unmarked) (by rw [trimmed]; exact empty) blank' long
    obtain ⟨c, p, shape, outside⟩ := encodeString_outside written' empty
    have open_ : stringEqual (c :: (p ++ (gap' ++ 60 :: more))) [60, 47] false = false := by
      simp [stringEqual, tagLoop, outside]
    have left : settleAll [.text value false] =
        if isBlank (.text (condensed false (leftTrimmed value)) false) then []
        else [.text (condensed false (leftTrimmed value)) false] := by
      simp [settleAll, settle, isPlainText]
    rw [trimmed, shape, List.cons_append] at text
    rw [readValue, skipWhiteSpace_started (by simp), skipLoop_gap _ blank, skipped, shape, left,
      List.cons_append]
    simp only [open_, reduceCtorEq, Bool.false_eq_true, or_self, if_false, List.head?_cons, ne_eq,
      Option.some.injEq, outside, not_false_eq_true, if_true]
    refine text.andThen (readOn_yields ?_)
    rw [readValue_skips (r := gap' ++ 60 :: more) (skipLoop_gap _ blank').symm (by simp)]
    refine later fuel ?_
    obtain ⟨d, r, whole, -⟩ := encodeString_outside written fun none => empty (by rw [none]; rfl)
    rw [whole] at enough
    simp only [List.length_append, List.length_cons] at enough ⊢
    omega

theorem content_yields {nodes : List TiXmlNode} (free : ¬ Stuck buffer)
    (storable : ∀ c ∈ nodes, Storable encoding c) (apart : Apart nodes)
    (each : ∀ c ∈ nodes, isPlainText c = false → ReadsBack buffer encoding c) :
    ∀ inner rest fuel, Layouts nodes inner → (inner ++ 60 :: 47 :: rest).length < fuel →
      Yields (Calm buffer) (readValue encoding fuel (inner ++ 60 :: 47 :: rest))
        (settleAll nodes, some (60 :: 47 :: rest)) := by
  induction nodes with
  | nil =>
    intro inner rest fuel laid enough
    obtain ⟨fuel, rfl⟩ : ∃ n, fuel = n + 1 := ⟨fuel - 1, by omega⟩
    cases laid with
    | done blank =>
      rw [readValue, skipWhiteSpace_started (by simp), skipLoop_gap _ blank, skipLoop_tag]
      simp only [stringEqual, tagLoop]
      exact yields_pure _
  | cons node nodes ih =>
    intro inner rest fuel laid enough
    obtain ⟨fuel, rfl⟩ : ∃ n, fuel = n + 1 := ⟨fuel - 1, by omega⟩
    have later := ih (fun c member => storable c (by simp [member]))
      (List.isChain_cons.mp apart).2 fun c member => each c (by simp [member])
    cases laid with
    | @next _ _ gap s inner blank first others =>
      by_cases tagged : isPlainText node = false
      · have turn := tag_turn first tagged blank (each node (by simp) tagged) (by simp)
          (by simpa using enough) fun fuel fits => later inner rest fuel others fits
        have settled : settleAll (node :: nodes) = settle node :: settleAll nodes := by
          simp [settleAll, tagged]
        simpa [settled] using turn
      · cases first with
        | text value =>
          obtain ⟨gap', more, blank', shape, long⟩ := layouts_tag others
            (fun c head => by
              have no := (List.isChain_cons.mp apart).1 c head
              simpa [isPlainText] using no) rest
          obtain ⟨written, unmarked⟩ : Encodable encoding value ∧ Unmarked encoding value := by
            cases storable _ (List.mem_cons_self ..) with
            | text written unmarked => exact ⟨written, unmarked⟩
          have turn := @text_turn buffer encoding value gap gap' more (settleAll nodes)
            (some (60 :: 47 :: rest)) fuel free written unmarked blank blank' long
            (by rw [← shape]; simpa using enough) fun fuel fits => by
              rw [← shape] at fits ⊢
              exact later inner rest fuel others fits
          have settled : settleAll (.text value false :: nodes) =
              settleAll [.text value false] ++ settleAll nodes := by
            simp only [settleAll]
            split <;> rfl
          rw [settled]
          simpa [← shape] using turn
        | _ => exact absurd rfl tagged

theorem endTag_start (value rest : Chars) :
    endTag value ++ 62 :: rest = 60 :: 47 :: (value ++ 62 :: rest) := rfl

theorem element_reads {value : Chars} {attributes : List (Chars × Chars)}
    {children : List TiXmlNode} (free : ¬ Stuck buffer)
    (storable : Storable encoding (.element value attributes children))
    (each : ∀ c ∈ children, isPlainText c = false → ReadsBack buffer encoding c) :
    ReadsBack buffer encoding (.element value attributes children) := by
  cases storable with
  | element name written distinct inside apart =>
    intro s rest fuel laid enough
    have start : ∃ d t, isNameStart d = true ∧ value = d :: t := by
      obtain ⟨⟨⟨d, t, shape, start⟩, -⟩, -⟩ := name
      exact ⟨d, t, start, shape⟩
    obtain ⟨d, t, start, shape⟩ := start
    have tag (tail : Chars) : startTag value attributes ++ tail =
        60 :: d ::
          (t ++ ((visited attributes).flatMap (fun a => 32 :: attributePrint a) ++ tail)) := by
      simp [startTag, shape]
    cases laid with
    | empty =>
      have parsed := @elementParse_yields buffer encoding value (32 :: 47 :: 62 :: rest) rest
        attributes [] (.closed (some rest)) (readValue encoding fuel) free name written distinct
        ⟨32, _, rfl, .inl rfl⟩ (empty_end rest) (.inl ⟨rfl, rfl⟩)
      have text : startTag value attributes ++ [32, 47, 62] ++ rest =
          startTag value attributes ++ 32 :: 47 :: 62 :: rest := by simp
      refine ⟨?_, ?_, .element, some rest, ?_, .inl rfl, ?_⟩
      · rw [text, tag]
        rfl
      · rw [text, tag]
        exact no_end_tag _ (start_bytes d start).2.2
      · rw [text, tag]
        exact identify_element _ start
      · rw [text]
        simpa [nodeParse, settle, settleAll] using parsed
    | @content _ _ _ inner started inside' =>
      have text : startTag value attributes ++ 62 :: inner ++ endTag value ++ [62] ++ rest =
          startTag value attributes ++ 62 :: (inner ++ (endTag value ++ 62 :: rest)) := by simp
      rw [text] at enough ⊢
      have content := content_yields free inside apart each inner (value ++ 62 :: rest) fuel inside'
        (by
          rw [endTag_start, List.length_append, List.length_cons] at enough
          omega)
      rw [← endTag_start] at content
      have parsed := @elementParse_yields buffer encoding value
        (62 :: (inner ++ (endTag value ++ 62 :: rest))) rest attributes (settleAll children)
        (.opened _) (readValue encoding fuel) free name written distinct
        ⟨62, _, rfl, .inr rfl⟩ (content_end _) (.inr ⟨_, rfl, content⟩)
      refine ⟨?_, ?_, .element, some rest, ?_, .inl rfl, ?_⟩
      · rw [tag]
        rfl
      · rw [tag]
        exact no_end_tag _ (start_bytes d start).2.2
      · rw [tag]
        exact identify_element _ start
      · simpa [nodeParse, settle] using parsed

theorem node_reads {node : TiXmlNode} (free : ¬ Stuck buffer) (storable : Storable encoding node)
    (tagged : isPlainText node = false) : ReadsBack buffer encoding node := by
  induction node using TiXmlNode.induct with
  | element value attributes children each =>
    refine element_reads free storable fun c member plain => ?_
    cases storable with
    | element _ _ _ inside _ => exact each c member (inside c member) plain
  | comment value =>
    intro s rest fuel laid enough
    cases laid
    cases storable with
    | comment _ open_ =>
      refine ⟨rfl, no_end_tag _ (by decide), .comment, some rest, ?_, .inl rfl,
        comment_yields rest free open_⟩
      simpa using identify_comment (value ++ (commentEnd ++ rest))
  | unknown value =>
    intro s rest fuel laid enough
    cases laid
    cases storable with
    | unknown _ other =>
      have text : 60 :: value ++ [62] ++ rest = 60 :: (value ++ 62 :: rest) := by simp
      rw [text]
      refine ⟨rfl, ?_, .unknown, some rest, identify_unknown rest other, .inl rfl,
        unknown_yields rest free other.1⟩
      cases value with
      | nil => exact no_end_tag _ (by decide)
      | cons c value => exact no_end_tag _ fun same => other.2.2.1 (by rw [same]; rfl)
  | text value cdata =>
    intro s rest fuel laid enough
    cases laid with
    | text => exact absurd tagged (by simp [isPlainText])
    | cdata =>
      cases storable with
      | cdata _ open_ =>
        refine ⟨rfl, no_end_tag _ (by decide), .cdata, behindSection rest, ?_, ?_,
          cdata_yields rest free open_⟩
        · simpa using identify_cdata (value ++ (cdataEnd ++ rest))
        · unfold behindSection
          by_cases last : rest = []
          · exact .inr ⟨if_pos last, last⟩
          · exact .inl (if_neg last)
  | declaration version enc standalone =>
    intro s rest fuel laid enough
    cases laid
    cases storable with
    | declaration first second third =>
      refine ⟨rfl, no_end_tag _ (by decide), .declaration, some rest, ?_, .inl rfl,
        declaration_yields rest free first second third⟩
      simpa [declarationPrint, xmlHeader] using identify_declaration
        (32 :: (entryPrint versionName version ++ (entryPrint encodingName enc ++
          (entryPrint standaloneName standalone ++ 63 :: 62 :: rest))))

theorem layouts_whole {nodes : List TiXmlNode} {text : Chars} (laid : Layouts nodes text)
    (each : ∀ c ∈ nodes, ∀ s, Layout c s → 0 ∉ s) : 0 ∉ text := by
  have gap_whole {gap : Chars} (blank : Blank gap) : 0 ∉ gap :=
    fun member => absurd (blank 0 member) (by decide)
  induction nodes generalizing text with
  | nil =>
    cases laid with
    | done blank => exact gap_whole blank
  | cons node nodes ih =>
    cases laid with
    | @next _ _ gap s inner blank first rest =>
      have later := ih rest fun c member => each c (by simp [member])
      simp only [List.mem_append, not_or]
      exact ⟨⟨gap_whole blank, each node (by simp) s first⟩, later⟩

theorem layout_whole {node : TiXmlNode} (storable : Storable encoding node) :
    ∀ s, Layout node s → 0 ∉ s := by
  induction node using TiXmlNode.induct with
  | element value attributes children each =>
    intro s laid
    cases storable with
    | element name written _ inside _ =>
      have tag : 0 ∉ startTag value attributes := Legible.whole (by
        simp [startTag, name_legible name.1, startTag_legible written])
      have named := (name_legible name.1).whole
      cases laid with
      | empty => simp [tag]
      | content _ _ _ within =>
        have content := layouts_whole within fun c member => each c member (inside c member)
        simp [tag, named, content, endTag]
  | comment value =>
    intro s laid
    cases laid
    cases storable with
    | comment whole _ => simp [commentStart, commentEnd, whole]
  | unknown value =>
    intro s laid
    cases laid
    cases storable with
    | unknown whole _ => simp [whole]
  | text value cdata =>
    intro s laid
    cases storable with
    | text written _ =>
      cases laid
      exact (encodeString_legible written.2).whole
    | cdata whole _ =>
      cases laid
      simp [cdataStart, cdataEnd, whole]
  | declaration version enc standalone =>
    intro s laid
    cases laid
    cases storable with
    | declaration first second third =>
      have entry {name value : Chars} (named : 0 ∉ name) (quotable : Quotable encoding value) :
          0 ∉ entryPrint name value := by
        unfold entryPrint
        split <;> simp [named, quotable.2.2.2]
      have version_ := @entry versionName _ (by decide) first
      have encoding_ := @entry encodingName _ (by decide) second
      have standalone_ := @entry standaloneName _ (by decide) third
      simp [declarationPrint, version_, encoding_, standalone_]

end Nodes

section Documents

variable {buffer : Chars}

/-- A document as it is read from the top, with what a declaration says about the encoding. -/
def StorableDocument : TiXmlEncoding → List TiXmlNode → Prop
  | _, [] => True
  | encoding, node :: nodes => Storable encoding node ∧ isPlainText node = false ∧
      StorableDocument (encodingAfter encoding node) nodes

theorem storable_each {encoding : TiXmlEncoding} {nodes : List TiXmlNode}
    (storable : StorableDocument encoding nodes) :
    ∀ c ∈ nodes, ∃ encoding, Storable encoding c := by
  induction nodes generalizing encoding with
  | nil => simp
  | cons node nodes ih =>
    intro c member
    rcases List.mem_cons.mp member with rfl | later
    · exact ⟨encoding, storable.1⟩
    · exact ih storable.2.2 c later

theorem document_whole {encoding : TiXmlEncoding} {nodes : List TiXmlNode} {text : Chars}
    (storable : StorableDocument encoding nodes) (laid : Layouts nodes text) : 0 ∉ text :=
  layouts_whole laid fun c member s first => by
    obtain ⟨encoding, writable⟩ := storable_each storable c member
    exact layout_whole writable s first

theorem encodingAfter_settle (encoding : TiXmlEncoding) (node : TiXmlNode) :
    encodingAfter encoding (settle node) = encodingAfter encoding node := by
  cases node with
  | text value cdata => cases cdata <;> simp [settle, encodingAfter]
  | _ => simp [settle, encodingAfter]

theorem layouts_empty {encoding : TiXmlEncoding} {nodes : List TiXmlNode}
    (storable : StorableDocument encoding nodes) (laid : Layouts nodes []) : nodes = [] := by
  cases nodes with
  | nil => rfl
  | cons node nodes =>
    generalize same : ([] : Chars) = text at laid
    cases laid with
    | next blank first rest =>
      obtain ⟨t, rfl, -⟩ := layout_tag first storable.2.1
      simp at same

theorem documentLoop_yields {nodes : List TiXmlNode} (free : ¬ Stuck buffer) :
    ∀ inner fuel encoding, Layouts nodes inner → StorableDocument encoding nodes →
      (skipLoop encoding inner).length < fuel →
      ∃ ends, Yields (Calm buffer) (documentLoop fuel encoding (skipLoop encoding inner))
        (nodes.map settle, ends) := by
  induction nodes with
  | nil =>
    intro inner fuel encoding laid _ enough
    obtain ⟨fuel, rfl⟩ : ∃ n, fuel = n + 1 := ⟨fuel - 1, by omega⟩
    cases laid with
    | done blank =>
      have nothing : skipLoop encoding inner = [] := by
        have skipped := @skipLoop_gap encoding inner [] blank
        rwa [List.append_nil] at skipped
      rw [nothing]
      exact ⟨_, yields_pure _⟩
  | cons node nodes ih =>
    intro inner fuel encoding laid storable enough
    obtain ⟨fuel, rfl⟩ : ∃ n, fuel = n + 1 := ⟨fuel - 1, by omega⟩
    obtain ⟨writable, tagged, others⟩ := storable
    cases laid with
    | @next _ _ gap s inner blank first rest =>
      obtain ⟨t, rfl, -⟩ := layout_tag first tagged
      have skipped : skipLoop encoding (gap ++ 60 :: t ++ inner) = 60 :: t ++ inner := by
        rw [List.append_assoc, skipLoop_gap _ blank, List.cons_append, skipLoop_tag]
      obtain ⟨-, -, kind, q, known, left, parsed⟩ := node_reads free writable tagged
        (60 :: t) inner ((60 :: t ++ inner).length + 1) first (by omega)
      rw [skipped, List.length_append, List.length_cons] at enough
      rw [skipped]
      rw [List.cons_append] at known parsed ⊢
      by_cases last : skipWhiteSpace (encodingAfter encoding node) q = none
      · have nothing : inner = [] := by
          rcases left with rfl | ⟨-, empty⟩
          · exact skipWhiteSpace_none last
          · exact empty
        subst nothing
        obtain rfl := layouts_empty others rest
        refine ⟨(encodingAfter encoding node, none), ?_⟩
        unfold documentLoop
        simp only [reduceCtorEq, if_false, known]
        refine parsed.andThen ?_
        simp only [encodingAfter_settle, last]
        exact yields_pure _
      · obtain rfl : q = some inner := left.resolve_right fun none => last (by rw [none.1]; rfl)
        obtain ⟨ends, loop⟩ := ih inner fuel (encodingAfter encoding node) rest others
          (by have short := (skipLoop_suffix (encodingAfter encoding node) inner).length_le; omega)
        have next : skipWhiteSpace (encodingAfter encoding node) (some inner) =
            some (skipLoop (encodingAfter encoding node) inner) :=
          skipWhiteSpace_started fun empty => last (by rw [empty]; rfl)
        refine ⟨ends, ?_⟩
        unfold documentLoop
        simp only [reduceCtorEq, if_false, known]
        refine parsed.andThen ?_
        simp only [encodingAfter_settle, next]
        exact loop.andThen (yields_pure _)

theorem no_byte_order_mark {encoding : TiXmlEncoding} {nodes : List TiXmlNode} {text : Chars}
    (storable : StorableDocument encoding nodes) (laid : Layouts nodes text) :
    ¬ [0xef, 0xbb, 0xbf] <+: text := by
  have blank (gap : Chars) (more : Chars) (white : Blank gap)
      (other : ¬ [0xef, 0xbb, 0xbf] <+: more) : ¬ [0xef, 0xbb, 0xbf] <+: gap ++ more := by
    rintro ⟨rest, found⟩
    cases gap with
    | nil => exact other ⟨rest, found⟩
    | cons c gap =>
      have first : 0xef = c := (List.cons.inj found).1
      exact absurd (white c (by simp)) (by rw [← first]; decide)
  cases laid with
  | done white => simpa using blank text [] white (by simp)
  | @next node nodes gap s inner white first rest =>
    obtain ⟨t, rfl, -⟩ := layout_tag first storable.2.1
    rw [List.append_assoc]
    exact blank gap _ white (by simp [List.cons_prefix_cons])

theorem parse_printed {known encoding : TiXmlEncoding} {document : List TiXmlNode}
    {p text : Chars} (tabsize : Int)
    (finds : (if encoding = .UNKNOWN ∧ [0xef, 0xbb, 0xbf] <+: p then .UTF8 else encoding) = known)
    (skips : skipLoop known p = skipLoop known text) (laid : Layouts document text)
    (storable : StorableDocument known document) (started : document ≠ [] ∧ p ≠ [])
    (free : ¬ Stuck p) :
    documentParse tabsize encoding p = .ok ⟨document.map settle,
      decide (encoding = .UNKNOWN ∧ [0xef, 0xbb, 0xbf] <+: p), none⟩ := by
  have nonempty : document.map settle ≠ [] := by simpa using started.1
  obtain ⟨ends, loop⟩ := documentLoop_yields free text
    ((skipLoop known text).length + 1) known laid storable (by omega)
  obtain ⟨a, t, run, rfl, calm⟩ := (loop ⟨p, tabsize, ⟨0, 0⟩, none⟩
    ⟨List.suffix_refl _, rfl⟩).result
  simp only [documentParse, if_neg started.2, finds, skips, run, bind,
    Except.bind, pure, Except.pure, if_neg nonempty, calm.2]

/-- Whatever white space a document is printed with, Parse gives its tree back without an
    error. -/
theorem layouts_read_back {encoding : TiXmlEncoding} {document : List TiXmlNode} {text : Chars}
    (tabsize : Int) (laid : Layouts document text) (storable : StorableDocument encoding document)
    (started : document ≠ []) (free : ¬ Stuck text) :
    documentParse tabsize encoding text = .ok ⟨document.map settle, false, none⟩ := by
  have mark : ¬ (encoding = .UNKNOWN ∧ [0xef, 0xbb, 0xbf] <+: text) :=
    fun both => no_byte_order_mark storable laid both.2
  have long : text ≠ [] := by
    rintro rfl
    exact started (layouts_empty storable laid)
  rw [parse_printed tabsize (if_neg mark) rfl laid storable ⟨started, long⟩ free,
    decide_eq_false mark]

theorem layout_last {node : TiXmlNode} {s : Chars} (laid : Layout node s)
    (tagged : isPlainText node = false) : ∃ front, s = front ++ [62] := by
  cases laid with
  | empty value attributes => exact ⟨startTag value attributes ++ [32, 47], by simp⟩
  | content value attributes some inside => exact ⟨_, rfl⟩
  | comment value => exact ⟨commentStart ++ value ++ [45, 45], by simp [commentEnd]⟩
  | unknown value => exact ⟨60 :: value, rfl⟩
  | text value => exact absurd tagged (by simp [isPlainText])
  | cdata value => exact ⟨cdataStart ++ value ++ [93, 93], by simp [cdataEnd]⟩
  | declaration version enc standalone => exact ⟨_, (List.append_assoc _ [63] [62]).symm⟩

theorem layouts_last {encoding : TiXmlEncoding} {nodes : List TiXmlNode} {text : Chars}
    (storable : StorableDocument encoding nodes) (laid : Layouts nodes text)
    (started : nodes ≠ []) : ∃ front gap, Blank gap ∧ text = front ++ 62 :: gap := by
  induction nodes generalizing text encoding with
  | nil => exact absurd rfl started
  | cons node nodes ih =>
    cases laid with
    | @next _ _ gap s inner blank first rest =>
      obtain ⟨front, rfl⟩ := layout_last first storable.2.1
      by_cases last : nodes = []
      · subst last
        cases rest with
        | done behind => exact ⟨gap ++ front, inner, behind, by simp⟩
      · obtain ⟨front', gap', blank', rfl⟩ := ih storable.2.2 rest last
        exact ⟨gap ++ front ++ 62 :: front', gap', blank', by simp⟩

theorem ended_free {encoding : TiXmlEncoding} {document : List TiXmlNode} {text : Chars}
    (storable : StorableDocument encoding document) (laid : Layouts document text)
    (started : document ≠ []) (ended : [10] <:+ text) : ¬ Stuck text := by
  obtain ⟨front, gap, blank, rfl⟩ := layouts_last storable laid started
  obtain ⟨gap, rfl⟩ : ∃ gap', gap = gap' ++ [10] := by
    obtain ⟨pre, found⟩ := ended
    rcases gap.eq_nil_or_concat with rfl | ⟨gap', last, rfl⟩
    · exact absurd (List.append_inj_right' found rfl) (by simp)
    · rw [List.concat_eq_append] at found ⊢
      rw [← List.cons_append, ← List.append_assoc] at found
      exact ⟨gap', by rw [List.append_inj_right' found rfl]⟩
  rintro ⟨rest, ⟨pre, found⟩, short⟩
  rw [← List.cons_append, ← List.append_assoc] at found
  rcases rest with _ | ⟨b, _ | ⟨c, rest⟩⟩
  · exact absurd (List.append_inj_right' found rfl) (by simp)
  · have before : pre ++ [0xef] = front ++ 62 :: gap :=
      List.append_inj_left' ((by simp : pre ++ [0xef] ++ [b] = pre ++ [0xef, b]).trans found) rfl
    rcases gap.eq_nil_or_concat with rfl | ⟨gap', last, rfl⟩
    · exact absurd (List.append_inj_right' before rfl) (by simp)
    · rw [List.concat_eq_append, ← List.cons_append, ← List.append_assoc] at before
      obtain rfl : 0xef = last := by simpa using List.append_inj_right' before rfl
      exact absurd (blank 0xef (by simp)) (by decide)
  · simp only [List.length_cons] at short
    omega

theorem printS_read_back {encoding : TiXmlEncoding} {document : List TiXmlNode} (tabsize : Int)
    (storable : StorableDocument encoding document) (started : document ≠ []) :
    documentParse tabsize encoding (printS document) = .ok ⟨document.map settle, false, none⟩ := by
  obtain ⟨text, laid, ended, printed⟩ := printS_layouts document
  rw [printed, cStr_whole (document_whole storable laid)]
  exact layouts_read_back tabsize laid storable started
    (ended_free storable laid started (ended started))

theorem single_name {encoding : TiXmlEncoding} {c : UInt8} (start : isNameStart c = true)
    (other : c ≠ 0xef) : PlainName encoding [c] :=
  ⟨⟨⟨c, [], rfl, start⟩, by simpa using start_isNameChar c start⟩,
    fun _ => markAhead_lead [] other⟩

/-- <?xml version="1.0" ?> and an element with each kind of child. -/
def greeting : List TiXmlNode :=
  [.declaration [49, 46, 48] [] [],
   .element [97] [([98], [60, 34])]
    [.text [32, 104, 32, 32, 105, 32] false, .comment [45], .unknown [33, 100],
     .text [93, 93] true, .element [101] [] []]]

theorem greeting_storable : StorableDocument .UNKNOWN greeting := by
  have letter : PlainName .UTF8 [97] := single_name (by decide) (by decide)
  refine ⟨.declaration ?_ ?_ ?_, rfl, .element letter ?_ ?_ ?_ ?_, rfl, trivial⟩
  · exact ⟨ascii_characters (by decide +kernel), by decide, by decide, by decide⟩
  · exact ⟨.nil, by decide, by decide, by decide⟩
  · exact ⟨.nil, by decide, by decide, by decide⟩
  · intro a member
    rw [List.mem_singleton.mp member]
    exact ⟨single_name (by decide) (by decide), ascii_characters (by decide +kernel), by decide⟩
  · simp
  · intro c member
    simp only [List.mem_cons, List.not_mem_nil, or_false] at member
    rcases member with rfl | rfl | rfl | rfl | rfl
    · exact .text ⟨ascii_characters (by decide +kernel), by decide⟩ fun _ => by decide
    · exact .comment (by decide) (by decide)
    · exact .unknown (by decide) (by unfold ReadsUnknown; decide)
    · exact .cdata (by decide) (by decide)
    · exact .element (single_name (by decide) (by decide)) (by simp) (by simp) (by simp)
        (by simp [Apart])
  · simp [Apart, isPlainText]

/-- With any white space for the indent and the line break, and so with the empty ones of
    SetStreamPrinting, what the printer gives is parsed back as the tree that was printed. -/
theorem printer_read_back {encoding : TiXmlEncoding} {document : List TiXmlNode} (tabsize : Int)
    {indent lineBreak : Chars} (blank : Blank indent ∧ Blank lineBreak)
    (storable : StorableDocument encoding document) (started : document ≠ [])
    (free : ¬ Stuck (acceptAll document { newPrinter with indent, lineBreak }).cStr) :
    documentParse tabsize encoding
        (acceptAll document { newPrinter with indent, lineBreak }).cStr =
      .ok ⟨document.map settle, false, none⟩ := by
  obtain ⟨inner, laid, -, printed⟩ := acceptAll_layouts document
    { newPrinter with indent, lineBreak } rfl blank.1 blank.2
  have whole : (acceptAll document { newPrinter with indent, lineBreak }).cStr = inner := by
    rw [printed]
    exact cStr_whole (document_whole storable laid)
  rw [whole] at free ⊢
  exact layouts_read_back tabsize laid storable started free

theorem greeting_streamed_read_back : documentParse 4 .UNKNOWN
    (acceptAll greeting (setStreamPrinting newPrinter)).cStr =
    .ok ⟨greeting.map settle, false, none⟩ :=
  @printer_read_back .UNKNOWN greeting 4 [] [] ⟨blank_nil, blank_nil⟩ greeting_storable
    (by simp [greeting]) fun stuck => by
      obtain ⟨rest, found, -⟩ := stuck
      exact absurd (found.subset (List.mem_cons_self ..)) (by decide +kernel)

end Documents

end TinyXmlRoundTrip
