import Boring.South.TinyXmlTree

/- What both printers have in common: the same tags, with white space between them. -/
namespace TinyXmlLayouts
open TinyXmlText TinyXmlTree

def Blank (gap : Chars) : Prop := ∀ c ∈ gap, isWhiteSpace c = true

def startTag (value : Chars) (attributes : List (Chars × Chars)) : Chars :=
  60 :: value ++ (visited attributes).flatMap fun a => 32 :: attributePrint a

def endTag (value : Chars) : Chars := [60, 47] ++ value

mutual
/-- The texts that stand for a node, from its first character to its last. -/
inductive Layout : TiXmlNode → Chars → Prop where
  | empty (value : Chars) (attributes : List (Chars × Chars)) :
      Layout (.element value attributes []) (startTag value attributes ++ [32, 47, 62])
  | content (value : Chars) (attributes : List (Chars × Chars)) {children : List TiXmlNode}
      {inner : Chars} (some : children ≠ []) (inside : Layouts children inner) :
      Layout (.element value attributes children)
        (startTag value attributes ++ 62 :: inner ++ endTag value ++ [62])
  | comment (value : Chars) : Layout (.comment value) (commentStart ++ value ++ commentEnd)
  | unknown (value : Chars) : Layout (.unknown value) (60 :: value ++ [62])
  | text (value : Chars) : Layout (.text value false) (encodeString value)
  | cdata (value : Chars) : Layout (.text value true) (cdataStart ++ value ++ cdataEnd)
  | declaration (version encoding standalone : Chars) :
      Layout (.declaration version encoding standalone)
        (declarationPrint version encoding standalone)

/-- Nodes one after the other, with white space before, between and behind them. -/
inductive Layouts : List TiXmlNode → Chars → Prop where
  | done {gap : Chars} (blank : Blank gap) : Layouts [] gap
  | next {node : TiXmlNode} {nodes : List TiXmlNode} {gap s inner : Chars} (blank : Blank gap)
      (first : Layout node s) (rest : Layouts nodes inner) :
      Layouts (node :: nodes) (gap ++ s ++ inner)
end

theorem blank_nil : Blank [] := by simp [Blank]

theorem Blank.append {a b : Chars} (first : Blank a) (second : Blank b) : Blank (a ++ b) := by
  intro c member
  rcases List.mem_append.mp member with left | right
  · exact first c left
  · exact second c right

theorem Blank.replicate {gap : Chars} (blank : Blank gap) (n : Nat) :
    Blank (List.replicate n gap).flatten := by
  intro c member
  obtain ⟨part, among, inside⟩ := List.mem_flatten.mp member
  rw [List.eq_of_mem_replicate among] at inside
  exact blank c inside

theorem Layouts.gap {nodes : List TiXmlNode} {inner gap : Chars} (laid : Layouts nodes inner)
    (blank : Blank gap) : Layouts nodes (gap ++ inner) := by
  cases laid with
  | done later => exact .done (blank.append later)
  | @next node nodes gap' s inner' later first rest =>
    have joined := Layouts.next (blank.append later) first rest
    simpa using joined

theorem Layouts.behind {nodes : List TiXmlNode} {inner gap : Chars} (laid : Layouts nodes inner)
    (blank : Blank gap) : Layouts nodes (inner ++ gap) := by
  induction nodes generalizing inner with
  | nil =>
    cases laid with
    | done later => exact .done (later.append blank)
  | cons node nodes ih =>
    cases laid with
    | @next _ _ gap' s inner' before first rest =>
      have joined := Layouts.next before first (ih rest)
      simpa using joined

theorem layouts_flatMap {nodes : List TiXmlNode} {written : TiXmlNode → Chars}
    (each : ∀ node ∈ nodes, ∃ before s behind, Blank before ∧ Blank behind ∧
      Layout node s ∧ written node = before ++ s ++ behind) {inner : Chars}
    (blank : Blank inner) : Layouts nodes (nodes.flatMap written ++ inner) := by
  induction nodes with
  | nil => exact .done blank
  | cons node nodes ih =>
    obtain ⟨before, s, behind, first, last, laid, split⟩ := each node (by simp)
    have rest := (ih fun other member => each other (by simp [member])).gap last
    have joined := Layouts.next first laid rest
    simpa [split] using joined

section Printer

/-- What the printer appends for a node, up to a line break; the flag is down before and after. -/
def Appends (node : TiXmlNode) : Prop :=
  ∀ q : TiXmlPrinter, q.simpleTextPrint = false → Blank q.indent → Blank q.lineBreak →
    ∃ before s, Blank before ∧ Layout node s ∧
      accept node q = { q with buffer := q.buffer ++ (before ++ s ++ q.lineBreak) }

theorem write_attributes (attributes : List (Chars × Chars)) (q : TiXmlPrinter) :
    attributes.foldl (fun q a => q.write (32 :: attributePrint a)) q =
      q.write (attributes.flatMap fun a => 32 :: attributePrint a) := by
  induction attributes generalizing q with
  | nil => simp [TiXmlPrinter.write]
  | cons a attributes ih =>
    rw [List.foldl_cons, ih]
    simp [TiXmlPrinter.write]

theorem appends_line {node : TiXmlNode} {line : Chars} (laid : Layout node line)
    (printed : ∀ q, q.simpleTextPrint = false → accept node q = visitLine q line) :
    Appends node := by
  intro q down indent lineBreak
  refine ⟨(List.replicate q.depth q.indent).flatten, line, indent.replicate _, laid, ?_⟩
  rw [printed q down]
  simp [visitLine, doIndent, doLineBreak, TiXmlPrinter.write]

theorem acceptAll_appends {children : List TiXmlNode} (each : ∀ c ∈ children, Appends c)
    (q : TiXmlPrinter) (down : q.simpleTextPrint = false) (indent : Blank q.indent)
    (lineBreak : Blank q.lineBreak) :
    ∃ inner, Layouts children inner ∧ (children ≠ [] → q.lineBreak <:+ inner) ∧
      acceptAll children q = { q with buffer := q.buffer ++ inner } := by
  induction children generalizing q with
  | nil => exact ⟨[], .done blank_nil, fun started => absurd rfl started, by simp [acceptAll]⟩
  | cons c children ih =>
    obtain ⟨before, s, first, laid, printed⟩ := each c (by simp) q down indent lineBreak
    obtain ⟨inner, rest, ends, later⟩ := ih (fun other member => each other (by simp [member]))
      { q with buffer := q.buffer ++ (before ++ s ++ q.lineBreak) } down indent lineBreak
    refine ⟨before ++ s ++ (q.lineBreak ++ inner), .next first laid (rest.gap lineBreak), ?_, ?_⟩
    · intro _
      refine List.IsSuffix.trans ?_ (List.suffix_append (before ++ s) _)
      cases children with
      | nil =>
        obtain rfl : inner = [] := by
          have same := congrArg TiXmlPrinter.buffer later
          simpa [acceptAll] using same
        simp
      | cons _ _ => exact (ends (by simp)).trans (List.suffix_append _ _)
    · rw [acceptAll, printed, later]
      simp

def margin (q : TiXmlPrinter) : Chars := (List.replicate q.depth q.indent).flatten

theorem visitEnter_buffer (q : TiXmlPrinter) (value : Chars) (attributes : List (Chars × Chars))
    (first : TiXmlNode) (others : List TiXmlNode) :
    visitEnter q value attributes (first :: others) =
      let q := { q with
        buffer := q.buffer ++ (margin q ++ startTag value attributes ++ [62]),
        depth := q.depth + 1 }
      if isPlainText first && others.isEmpty then { q with simpleTextPrint := true }
      else doLineBreak q := by
  simp only [visitEnter, write_attributes]
  split <;> simp [doIndent, doLineBreak, TiXmlPrinter.write, startTag, margin]

theorem appends_element {value : Chars} {attributes : List (Chars × Chars)}
    {children : List TiXmlNode} (each : ∀ c ∈ children, Appends c) :
    Appends (.element value attributes children) := by
  intro q down indent lineBreak
  have before := indent.replicate q.depth
  match children, each with
  | [], _ =>
    refine ⟨_, _, before, .empty value attributes, ?_⟩
    simp only [accept, acceptAll, visitEnter, visitExit, write_attributes]
    simp [doIndent, doLineBreak, TiXmlPrinter.write, startTag]
  | first :: others, each =>
    have entered := visitEnter_buffer q value attributes first others
    by_cases simple : (isPlainText first && others.isEmpty) = true
    · rw [if_pos simple] at entered
      obtain ⟨plain, alone⟩ := Bool.and_eq_true_iff.mp simple
      obtain rfl : others = [] := List.isEmpty_iff.mp alone
      obtain ⟨text, rfl⟩ : ∃ text, first = .text text false := by
        cases first <;> simp_all [isPlainText]
      have inside := Layouts.next blank_nil (.text text) (.done blank_nil)
      refine ⟨_, _, before, .content value attributes (by simp) inside, ?_⟩
      rw [accept, entered]
      simp [acceptAll, accept, visitText, visitExit, doLineBreak, TiXmlPrinter.write, endTag,
        margin, down]
    · rw [if_neg simple] at entered
      obtain ⟨inner, inside, -, later⟩ := acceptAll_appends each (visitEnter q value attributes
        (first :: others)) (by rw [entered]; exact down) (by rw [entered]; exact indent)
        (by rw [entered]; exact lineBreak)
      have within := (inside.gap lineBreak).behind before
      refine ⟨_, _, before, .content value attributes (by simp) within, ?_⟩
      rw [accept, later, entered]
      simp [visitExit, doIndent, doLineBreak, TiXmlPrinter.write, endTag, margin, down]

theorem accept_appends (node : TiXmlNode) : Appends node := by
  induction node using TiXmlNode.induct with
  | element value attributes children each => exact appends_element each
  | comment value => exact appends_line (.comment value) fun q _ => by rw [accept]
  | unknown value => exact appends_line (.unknown value) fun q _ => by rw [accept]
  | text value cdata =>
    cases cdata with
    | false =>
      refine appends_line (.text value) fun q down => ?_
      simp [accept, visitText, visitLine, down]
    | true => exact appends_line (.cdata value) fun q _ => by simp [accept, visitText, visitLine]
  | declaration version encoding standalone =>
    exact appends_line (.declaration version encoding standalone) fun q _ => by rw [accept]

theorem acceptAll_layouts (document : List TiXmlNode) (q : TiXmlPrinter)
    (down : q.simpleTextPrint = false) (indent : Blank q.indent) (lineBreak : Blank q.lineBreak) :
    ∃ inner, Layouts document inner ∧ (document ≠ [] → q.lineBreak <:+ inner) ∧
      acceptAll document q = { q with buffer := q.buffer ++ inner } :=
  acceptAll_appends (fun c _ => accept_appends c) q down indent lineBreak

theorem printS_layouts (document : List TiXmlNode) :
    ∃ text, Layouts document text ∧ (document ≠ [] → [10] <:+ text) ∧
      printS document = cStr text := by
  obtain ⟨inner, laid, ends, printed⟩ := acceptAll_layouts document newPrinter rfl
    (by simp [newPrinter, Blank, isWhiteSpace]) (by simp [newPrinter, Blank, isWhiteSpace])
  refine ⟨inner, laid, ends, ?_⟩
  rw [printS, printed]
  rfl

end Printer

end TinyXmlLayouts
