import Boring.South.TinyXmlRoundTrip

/- A tree that has been printed and read once stays as it is. -/
namespace TinyXmlSettled
open TinyXmlText TinyXmlTree TinyXmlLayouts TinyXmlCodec TinyXmlParser TinyXmlSafety
open TinyXmlAccepted TinyXmlLeaves TinyXmlRoundTrip

section Texts

variable {encoding : TiXmlEncoding}

theorem condensed_again (whitespace : Bool) (s : Chars) :
    condensed false (condensed whitespace s) = condensed whitespace s := by
  induction s generalizing whitespace with
  | nil => rfl
  | cons c s ih =>
    by_cases space : c = 32
    · simpa [condensed, space] using ih true
    · cases whitespace <;> simp [condensed, space, ih false]

theorem leftTrimmed_condensed {s : Chars} (trimmed : leftTrimmed s = s) :
    leftTrimmed (condensed false s) = condensed false s := by
  cases s with
  | nil => rfl
  | cons c s =>
    have other : c ≠ 32 := by
      rintro rfl
      have short := congrArg List.length trimmed
      have left := (List.dropWhile_suffix (l := s) (· == 32)).length_le
      simp only [leftTrimmed, beq_self_eq_true, List.dropWhile_cons_of_pos,
        List.length_cons] at short
      omega
    simp [condensed, other, leftTrimmed]

theorem leftTrimmed_again (s : Chars) : leftTrimmed (leftTrimmed s) = leftTrimmed s :=
  List.dropWhile_idempotent ..

theorem settled_text (s : Chars) :
    condensed false (leftTrimmed (condensed false (leftTrimmed s))) =
      condensed false (leftTrimmed s) := by
  rw [leftTrimmed_condensed (leftTrimmed_again s), condensed_again]

theorem condensed_characters {s : Chars} (whole : Characters encoding s) :
    ∀ whitespace, Characters encoding (condensed whitespace s) := by
  have spaced (whitespace : Bool) {s : Chars} (rest : Characters encoding s) :
      Characters encoding ((if whitespace then [32] else []) ++ s) := by
    cases whitespace with
    | false => exact rest
    | true => exact .single (fun _ => by decide) rest
  induction whole with
  | nil => exact fun _ => .nil
  | @single c s length rest ih =>
    intro whitespace
    by_cases space : c = 32
    · simpa [condensed, space] using ih true
    · rw [condensed, if_neg space]
      exact spaced whitespace (.single length (ih false))
  | @sequence lead tail s utf8 length high rest ih =>
    intro whitespace
    by_cases space : lead = 32
    · subst space
      have single : utf8ByteTable 32 = 1 := by decide
      obtain rfl : tail = [] := List.length_eq_zero_iff.mp (by omega)
      simpa [condensed] using ih true
    · have word : 32 ∉ lead :: tail := by
        intro member
        rcases List.mem_cons.mp member with first | later
        · exact space first.symm
        · exact absurd (high 32 later) (by decide)
      rw [← List.cons_append, condensed_word whitespace (by simp) word, List.append_assoc]
      exact spaced whitespace (.sequence utf8 length high (ih false))

theorem condensed_start {word s : Chars} (plain : 32 ∉ word)
    (start : word <+: condensed false s) : word <+: s := by
  induction word generalizing s with
  | nil => exact List.nil_prefix
  | cons w word ih =>
    simp only [List.mem_cons, not_or] at plain
    have spaced (s : Chars) : ¬ w :: word <+: condensed true s := by
      induction s with
      | nil => simp [condensed]
      | cons c s none =>
        by_cases space : c = 32
        · simpa [condensed, space] using none
        · simp [condensed, space, List.cons_prefix_cons, Ne.symm plain.1]
    cases s with
    | nil => simp [condensed] at start
    | cons c s =>
      by_cases space : c = 32
      · exact absurd (by simpa [condensed, space] using start) (spaced s)
      · simp only [condensed, space, if_false, Bool.false_eq_true, List.nil_append,
          List.cons_prefix_cons] at start
        exact List.cons_prefix_cons.mpr ⟨start.1, ih plain.2 start.2⟩

theorem condensed_within {w : UInt8} {word s : Chars} (plain : 32 ∉ w :: word) :
    ∀ whitespace, w :: word <:+: condensed whitespace s → w :: word <:+: s := by
  induction s with
  | nil => exact fun _ found => found
  | cons c s ih =>
    intro whitespace found
    have first : w ≠ 32 := fun same => plain (by simp [same])
    by_cases space : c = 32
    · rw [condensed, if_pos space] at found
      exact (ih true found).trans (List.suffix_cons c s).isInfix
    · rw [condensed, if_neg space] at found
      have later : w :: word <:+: c :: condensed false s := by
        cases whitespace with
        | false => exact found
        | true =>
          rcases List.infix_cons_iff.mp found with here | later
          · exact absurd (List.cons_prefix_cons.mp here).1 first
          · exact later
      rcases List.infix_cons_iff.mp later with here | behind
      · refine List.IsPrefix.isInfix (condensed_start plain ?_)
        simpa [condensed, space] using here
      · exact (ih false behind).trans (List.suffix_cons c s).isInfix

theorem condensed_unmarked {s : Chars} (unmarked : markAhead s = false) :
    markAhead (condensed false s) = false := by
  rcases shape : condensed false s with _ | ⟨a, _ | ⟨b, _ | ⟨c, rest⟩⟩⟩
  · rfl
  · rfl
  · rfl
  · by_contra mark
    have mark : isMark a b c = true := by simpa [markAhead] using mark
    have plain : 32 ∉ [a, b, c] := by
      intro member
      simp only [List.mem_cons, List.not_mem_nil, or_false] at member
      rcases member with rfl | rfl | rfl <;> simp [isMark] at mark
    obtain ⟨more, rfl⟩ := condensed_start plain (s := s) ⟨rest, by rw [shape]; rfl⟩
    have none : isMark a b c = false := unmarked
    exact absurd mark (by simp [none])

theorem settled_encodable {s : Chars} (written : Encodable encoding s) :
    Encodable encoding (condensed false (leftTrimmed s)) :=
  ⟨condensed_characters written.1.leftTrimmed false,
    fun found => written.2.leftTrimmed (condensed_within (by decide) false found)⟩

theorem settled_unmarked {s : Chars} (unmarked : Unmarked encoding s) :
    Unmarked encoding (condensed false (leftTrimmed s)) := fun utf8 => by
  rw [leftTrimmed_condensed (leftTrimmed_again s)]
  exact condensed_unmarked (unmarked utf8)

end Texts

section Trees

variable {encoding : TiXmlEncoding}

theorem isPlainText_settle (node : TiXmlNode) :
    isPlainText (settle node) = isPlainText node := by
  cases node with
  | text value cdata => cases cdata <;> simp [settle, isPlainText]
  | _ => simp [settle, isPlainText]

theorem settleAll_members {nodes : List TiXmlNode} {c : TiXmlNode} (member : c ∈ settleAll nodes) :
    ∃ node ∈ nodes, c = settle node := by
  induction nodes with
  | nil => simp [settleAll] at member
  | cons node nodes ih =>
    rw [settleAll] at member
    split at member
    · obtain ⟨other, among, same⟩ := ih member
      exact ⟨other, by simp [among], same⟩
    · rcases List.mem_cons.mp member with same | later
      · exact ⟨node, by simp, same⟩
      · obtain ⟨other, among, same⟩ := ih later
        exact ⟨other, by simp [among], same⟩

theorem settleAll_apart {nodes : List TiXmlNode} (apart : Apart nodes) :
    Apart (settleAll nodes) := by
  induction nodes with
  | nil => exact apart
  | cons node nodes ih =>
    obtain ⟨next, rest⟩ := List.isChain_cons.mp apart
    rw [settleAll]
    split
    · exact ih rest
    · refine List.isChain_cons.mpr ⟨?_, ih rest⟩
      rintro c head ⟨plain, text⟩
      rw [isPlainText_settle] at plain
      cases nodes with
      | nil => simp [settleAll] at head
      | cons other nodes =>
        have tagged : isPlainText other = false := by
          simpa [plain] using next other rfl
        simp only [settleAll, tagged, Bool.false_and, Bool.false_eq_true, if_false, List.head?_cons,
          Option.mem_def, Option.some.injEq] at head
        rw [← head, isPlainText_settle, tagged] at text
        simp at text

theorem settleAll_again {nodes : List TiXmlNode}
    (each : ∀ c ∈ nodes, settle (settle c) = settle c) :
    settleAll (settleAll nodes) = settleAll nodes := by
  induction nodes with
  | nil => rfl
  | cons node nodes ih =>
    have rest := ih fun c member => each c (by simp [member])
    by_cases dropped : (isPlainText node && isBlank (settle node)) = true
    · rw [settleAll, if_pos dropped, rest]
    · rw [settleAll, if_neg dropped, settleAll, each node (by simp), isPlainText_settle,
        if_neg dropped, rest]

theorem settle_again (node : TiXmlNode) : settle (settle node) = settle node := by
  induction node using TiXmlNode.induct with
  | element value attributes children each => simp [settle, settleAll_again each]
  | text value cdata => cases cdata <;> simp [settle, settled_text]
  | comment value => simp [settle]
  | unknown value => simp [settle]
  | declaration version enc standalone => simp [settle]

theorem settle_storable {node : TiXmlNode} (storable : Storable encoding node) :
    Storable encoding (settle node) := by
  induction node using TiXmlNode.induct with
  | element value attributes children each =>
    cases storable with
    | element name written distinct inside apart =>
      rw [settle]
      refine .element name written distinct (fun c member => ?_) (settleAll_apart apart)
      obtain ⟨node, among, rfl⟩ := settleAll_members member
      exact each node among (inside node among)
  | text value cdata =>
    cases storable with
    | text written unmarked =>
      rw [settle]
      exact .text (settled_encodable written) (settled_unmarked unmarked)
    | cdata whole open_ =>
      simpa [settle] using @Storable.cdata encoding _ whole open_
  | comment value => simpa [settle] using storable
  | unknown value => simpa [settle] using storable
  | declaration version enc standalone => simpa [settle] using storable

theorem settle_storableDocument : ∀ {document : List TiXmlNode} {encoding : TiXmlEncoding},
    StorableDocument encoding document → StorableDocument encoding (document.map settle) := by
  intro document
  induction document with
  | nil => exact fun _ => trivial
  | cons node nodes ih =>
    intro encoding storable
    refine ⟨settle_storable storable.1, by rw [isPlainText_settle]; exact storable.2.1, ?_⟩
    rw [encodingAfter_settle]
    exact ih storable.2.2

/-- What PrintS gives is parsed back as the tree that was printed, but for the white space of its
    texts, and that tree is printed and parsed without any further change. -/
theorem read_tree_is_stable {encoding : TiXmlEncoding} {document : List TiXmlNode} (tabsize : Int)
    (storable : StorableDocument encoding document) (started : document ≠ []) :
    documentParse tabsize encoding (printS document) = .ok ⟨document.map settle, false, none⟩ ∧
      documentParse tabsize encoding (printS (document.map settle)) =
        .ok ⟨document.map settle, false, none⟩ := by
  refine ⟨printS_read_back tabsize storable started, ?_⟩
  have again := printS_read_back tabsize (settle_storableDocument storable)
    (by simpa using started : document.map settle ≠ [])
  rw [List.map_map] at again
  rw [again]
  congr 2
  exact List.map_congr_left fun node _ => settle_again node

theorem greeting_is_stable :
    documentParse 4 .UNKNOWN (printS greeting) = .ok ⟨greeting.map settle, false, none⟩ ∧
      documentParse 4 .UNKNOWN (printS (greeting.map settle)) =
        .ok ⟨greeting.map settle, false, none⟩ :=
  @read_tree_is_stable .UNKNOWN greeting 4 greeting_storable (by simp [greeting])

end Trees

end TinyXmlSettled
