import Boring.South.TinyXmlAccepted
import Boring.South.TinyXmlLayouts

/- What is printed for a name, an attribute or a node without children is read back as such,
   whatever follows it. -/
namespace TinyXmlLeaves
open TinyXmlText TinyXmlTree TinyXmlLayouts TinyXmlCodec TinyXmlParser TinyXmlSafety
open TinyXmlAccepted Outcomes

section Values

variable (encoding : TiXmlEncoding)

def Encodable (s : Chars) : Prop := Characters encoding s ∧ NoReference s

/-- A value that is printed between quotes as it stands. -/
def Quotable (s : Chars) : Prop := Characters encoding s ∧ 34 ∉ s ∧ 38 ∉ s ∧ 0 ∉ s

/-- In UTF-8 a name that begins with a mark would lose it. -/
def PlainName (s : Chars) : Prop := IsName s ∧ (encoding = .UTF8 → markAhead s = false)

/-- A tag that Identify takes for none of the others, and ReadValue for no end tag. -/
def ReadsUnknown (value : Chars) : Prop :=
  62 ∉ value ∧ value.head?.any isNameStart = false ∧ value.head? ≠ some 47 ∧
    stringEqual (60 :: value) xmlHeader true = false ∧
    ¬ commentStart <+: 60 :: value ∧ ¬ cdataStart <+: 60 :: value

end Values

section Names

variable {encoding : TiXmlEncoding}

theorem name_bytes : ∀ c : UInt8, (isNameStart c = true → isWhiteSpace c = false) ∧
    (isNameChar c = true → encodeChar c = [c] ∧ c ≠ 38 ∧ c ≠ 61 ∧ c ≠ 62 ∧ c ≠ 47 ∧
      isWhiteSpace c = false) :=
  HexText.forall_bytes (by decide +kernel)

theorem encodeString_name {s : Chars} (each : ∀ c ∈ s, isNameChar c = true) :
    encodeString s = s := by
  induction s with
  | nil => rfl
  | cons c s ih =>
    obtain ⟨same, other, -⟩ := (name_bytes c).2 (each c (by simp))
    have rest := ih fun d member => each d (by simp [member])
    unfold encodeString at rest ⊢
    rw [encodeLoop, if_neg (fun reference => other reference.1), same, rest]
    rfl

theorem markAhead_append (s : Chars) {c : UInt8} (rest : Chars) (low : c < 128) :
    markAhead (s ++ c :: rest) = markAhead s := by
  have others : c ≠ 0xef ∧ c ≠ 0xbb ∧ c ≠ 0xbf ∧ c ≠ 0xbe := by
    refine ⟨?_, ?_, ?_, ?_⟩ <;> rintro rfl <;> exact absurd low (by decide)
  rcases s with _ | ⟨a, _ | ⟨b, _ | ⟨d, s⟩⟩⟩
  · rw [List.nil_append, markAhead_lead _ others.1]
    rfl
  · cases rest <;> simp [markAhead, isMark, others]
  · simp [markAhead, isMark, others]
  · rfl

theorem takeWhile_stops {p : UInt8 → Bool} {s : Chars} {c : UInt8} (rest : Chars)
    (each : ∀ d ∈ s, p d = true) (stop : p c = false) :
    (s ++ c :: rest).takeWhile p = s ∧ (s ++ c :: rest).dropWhile p = c :: rest := by
  constructor
  · rw [List.takeWhile_append_of_pos each, List.takeWhile_cons_of_neg (by simp [stop]),
      List.append_nil]
  · rw [List.dropWhile_append_of_pos each, List.dropWhile_cons_of_neg (by simp [stop])]

theorem readName_name {s : Chars} {c : UInt8} (rest : Chars) (name : IsName s)
    (stop : isNameChar c = false) : readName (some (s ++ c :: rest)) = (s, some (c :: rest)) := by
  obtain ⟨taken, left⟩ := takeWhile_stops rest name.2 stop
  obtain ⟨⟨d, s, rfl, start⟩, -⟩ := name
  rw [List.cons_append] at taken left ⊢
  simp [readName, start, taken, left]

theorem skipLoop_name {s gap : Chars} {c : UInt8} (rest : Chars) (name : PlainName encoding s)
    (low : c < 128) (blank : Blank gap) :
    skipLoop encoding (gap ++ (s ++ c :: rest)) = s ++ c :: rest := by
  rw [skipLoop_gap _ blank]
  obtain ⟨⟨⟨d, t, rfl, start⟩, -⟩, unmarked⟩ := name
  exact skipLoop_stop ((name_bytes d).1 start) fun utf8 =>
    (markAhead_append (d :: t) rest low).trans (unmarked utf8)

theorem skipWhiteSpace_started {p : Chars} (started : p ≠ []) :
    skipWhiteSpace encoding (some p) = some (skipLoop encoding p) := by
  obtain ⟨c, p, rfl⟩ := List.exists_cons_of_ne_nil started
  rfl

end Names

section Bytes

/-- A C string ends at a NUL, and LoadFile replaces a CR. -/
def Legible (s : Chars) : Prop := ∀ c ∈ s, c ≠ 0 ∧ c ≠ 13

@[simp] theorem legible_nil : Legible [] := by simp [Legible]

@[simp] theorem legible_cons {c : UInt8} {s : Chars} :
    Legible (c :: s) ↔ (c ≠ 0 ∧ c ≠ 13) ∧ Legible s := List.forall_mem_cons

@[simp] theorem legible_append {a b : Chars} :
    Legible (a ++ b) ↔ Legible a ∧ Legible b := List.forall_mem_append

theorem Legible.whole {s : Chars} (legible : Legible s) : 0 ∉ s :=
  fun member => (legible 0 member).1 rfl

theorem encoded_bytes : ∀ c : UInt8, (∀ d ∈ encodeChar c, d ≠ 0 ∧ d ≠ 13) ∧
    (isNameChar c = true → c ≠ 0 ∧ c ≠ 13) :=
  HexText.forall_bytes (by decide +kernel)

theorem encodeString_legible {s : Chars} (plain : NoReference s) : Legible (encodeString s) := by
  induction s with
  | nil => simp [encodeString, encodeLoop]
  | cons c s ih =>
    rw [encodeString_cons plain, legible_append]
    exact ⟨(encoded_bytes c).1, ih plain.tail⟩

theorem name_legible {s : Chars} (name : IsName s) : Legible s :=
  fun c member => (encoded_bytes c).2 (name.2 c member)

end Bytes

section Attributes

variable {buffer : Chars} {encoding : TiXmlEncoding}

def Calm (buffer : Chars) (t : Parsing) : Prop := t.stamp <:+ buffer ∧ t.error = none

theorem stamp_yields (encoding : TiXmlEncoding) (now : Chars) (free : ¬ Stuck buffer) :
    Yields (Calm buffer) (stampAt encoding now) () := fun s calm =>
  (stampAt_ends encoding now calm.1).weaken
    (fun _ _ ends => ⟨rfl, ends.1, by rw [ends.2, calm.2]⟩) fun _ fault => free fault.2.2

theorem attribute_yields (document : Bool) {name value written gap rest : Chars} {q : UInt8}
    (free : ¬ Stuck buffer) (plain : PlainName encoding name) (blank : Blank gap)
    (quote : q = 39 ∨ q = 34)
    (read : readText encoding false [q] (written ++ q :: rest) = .ok (value, some rest)) :
    Yields (Calm buffer)
      (attributeParse document encoding (some (gap ++ (name ++ 61 :: q :: (written ++ q :: rest)))))
      ((name, value), some rest) := by
  have first := @skipWhiteSpace_started encoding
    (gap ++ (name ++ 61 :: q :: (written ++ q :: rest))) (by simp)
  rw [skipLoop_name _ plain (by decide) blank] at first
  have named := readName_name (q :: (written ++ q :: rest)) plain.1
    (by decide : isNameChar 61 = false)
  have equals : skipWhiteSpace encoding (some (61 :: q :: (written ++ q :: rest))) =
      some (61 :: q :: (written ++ q :: rest)) := by
    rw [skipWhiteSpace_started (by simp),
      skipLoop_stop (by decide) fun _ => markAhead_lead _ (by decide)]
  have opens : skipWhiteSpace encoding (some (q :: (written ++ q :: rest))) =
      some (q :: (written ++ q :: rest)) := by
    rcases quote with rfl | rfl <;>
      rw [skipWhiteSpace_started (by simp),
        skipLoop_stop (by decide) fun _ => markAhead_lead _ (by decide)]
  obtain ⟨d, t, start⟩ : ∃ d t, name ++ 61 :: q :: (written ++ q :: rest) = d :: t :=
    List.exists_cons_of_ne_nil (by simp)
  unfold attributeParse
  rw [first]
  rw [start] at named ⊢
  refine (stamp_yields encoding _ free).andThen ?_
  rw [named]
  simp only [equals, opens]
  rcases quote with rfl | rfl
  · exact yields_lift read (yields_pure _)
  · exact yields_lift read (yields_pure _)

theorem attributePrint_shape {a : Chars × Chars} (name : IsName a.1) :
    ∃ q, (q = 39 ∨ q = 34) ∧
      attributePrint a = a.1 ++ 61 :: q :: (encodeString a.2 ++ [q]) := by
  unfold attributePrint inQuotes
  by_cases quoted : 34 ∉ cStr a.2
  · exact ⟨34, .inr rfl, by simp [quoted, encodeString_name name.2]⟩
  · exact ⟨39, .inl rfl, by simp [quoted, encodeString_name name.2]⟩

theorem attribute_legible {a : Chars × Chars} (name : IsName a.1) (plain : NoReference a.2) :
    Legible (attributePrint a) := by
  obtain ⟨q, quote, shape⟩ := @attributePrint_shape a name
  have value := encodeString_legible plain
  rcases quote with rfl | rfl <;> simp [shape, name_legible name, value]

theorem entry_legible {name value : Chars} (named : Legible name) (raw : Legible value) :
    Legible (entryPrint name value) := by
  unfold entryPrint
  split <;> simp [named, raw]

theorem attributes_yield {tail : Chars} {tagEnd : TagEnd} (free : ¬ Stuck buffer)
    (started : tail ≠ [])
    (ends : ∀ fuel all, Yields (Calm buffer) (attributesLoop encoding (fuel + 1) tail all)
      (all, tagEnd)) {attributes : List (Chars × Chars)}
    (written : ∀ a ∈ attributes, PlainName encoding a.1 ∧ Encodable encoding a.2) :
    ∀ done fuel, ((done ++ attributes).map Prod.fst).Nodup →
      (attributes.flatMap (fun a => 32 :: attributePrint a) ++ tail).length < fuel →
      Yields (Calm buffer) (attributesLoop encoding fuel
        (attributes.flatMap (fun a => 32 :: attributePrint a) ++ tail) done)
        (done ++ attributes, tagEnd) := by
  induction attributes with
  | nil =>
    intro done fuel _ enough
    obtain ⟨fuel, rfl⟩ : ∃ n, fuel = n + 1 := ⟨fuel - 1, by omega⟩
    simpa using ends fuel done
  | cons a attributes ih =>
    intro done fuel distinct enough
    obtain ⟨fuel, rfl⟩ : ∃ n, fuel = n + 1 := ⟨fuel - 1, by omega⟩
    obtain ⟨plain, whole, apart⟩ := written a (by simp)
    obtain ⟨q, quote, shape⟩ := attributePrint_shape plain.1
    set more := attributes.flatMap (fun a => 32 :: attributePrint a) ++ tail with rest
    have follows : more ≠ [] := by simp [rest, started]
    have split : (a :: attributes).flatMap (fun a => 32 :: attributePrint a) ++ tail =
        [32] ++ (a.1 ++ 61 :: q :: (encodeString a.2 ++ q :: more)) := by
      simp [rest, shape]
    have closer : Closer q := by
      rcases quote with rfl | rfl
      · exact .inr (.inl rfl)
      · exact .inl rfl
    have parsed := @attribute_yields buffer encoding true a.1 a.2 _ [] more q free plain blank_nil
      quote (quoted_read_back whole apart closer follows)
    have skipped := @skipWhiteSpace_started encoding
      ([32] ++ (a.1 ++ 61 :: q :: (encodeString a.2 ++ q :: more))) (by simp)
    rw [skipLoop_name _ plain (by decide) (by simp [Blank, isWhiteSpace])] at skipped
    have fresh : (done.any fun b => b.1 == a.1) = false := by
      rw [List.any_eq_false]
      intro b member same
      rw [List.map_append, List.nodup_append] at distinct
      exact distinct.2.2 b.1 (List.mem_map_of_mem member) a.1 (by simp) (by simpa using same)
    have later := ih (fun b member => written b (by simp [member])) (done ++ [a]) fuel
      (by simpa using distinct) (by rw [split] at enough; simp at enough; omega)
    obtain ⟨⟨⟨d, t, name, start⟩, -⟩, -⟩ := plain
    have others := (name_bytes d).2 (start_isNameChar d start)
    rw [split, attributesLoop, skipped]
    rw [name, List.cons_append] at parsed ⊢
    split
    · rename_i none
      simp at none
    · rename_i none
      simp at none
    · rename_i slash
      exact absurd (List.cons.inj (Option.some.inj slash)).1 others.2.2.2.2.1
    · rename_i closes
      exact absurd (List.cons.inj (Option.some.inj closes)).1 others.2.2.2.1
    · rename_i same
      obtain rfl := Option.some.inj same
      have whole : a = (d :: t, a.2) := by rw [← name]
      rw [name] at fresh
      rw [whole, List.append_assoc, List.singleton_append] at later
      refine parsed.andThen ?_
      obtain ⟨m, left, shape⟩ := List.exists_cons_of_ne_nil follows
      simp only [shape, fresh, Bool.false_eq_true, if_false] at later ⊢
      rw [whole]
      exact later

theorem empty_end (rest : Chars) (fuel : Nat) (all : List (Chars × Chars)) :
    Yields (Calm buffer) (attributesLoop encoding (fuel + 1) (32 :: 47 :: 62 :: rest) all)
      (all, .closed (some rest)) := by
  have skipped : skipWhiteSpace encoding (some (32 :: 47 :: 62 :: rest)) =
      some (47 :: 62 :: rest) := by
    rw [skipWhiteSpace_started (by simp), skipLoop_blank _ (by decide),
      skipLoop_stop (by decide) fun _ => markAhead_lead _ (by decide)]
  rw [attributesLoop, skipped]
  exact yields_pure _

theorem content_end (inner : Chars) (fuel : Nat) (all : List (Chars × Chars)) :
    Yields (Calm buffer) (attributesLoop encoding (fuel + 1) (62 :: inner) all)
      (all, .opened inner) := by
  have skipped : skipWhiteSpace encoding (some (62 :: inner)) = some (62 :: inner) := by
    rw [skipWhiteSpace_started (by simp),
      skipLoop_stop (by decide) fun _ => markAhead_lead _ (by decide)]
  rw [attributesLoop, skipped]
  exact yields_pure _

end Attributes

section Leaves

variable {buffer : Chars} {encoding : TiXmlEncoding}

theorem skipWhiteSpace_tag (p : Chars) :
    skipWhiteSpace encoding (some (60 :: p)) = some (60 :: p) := by
  rw [skipWhiteSpace_started (by simp), skipLoop_tag]

theorem upTo_reads {a b : UInt8} (other : a ≠ b) {value : Chars} (rest : Chars)
    (open_ : ¬ [a, a, b] <:+: value) :
    upTo [a, a, b] (value ++ ([a, a, b] ++ rest)) = (value, [a, a, b] ++ rest) := by
  induction value with
  | nil =>
    have here : stringEqual (a :: a :: b :: rest) [a, a, b] false = true :=
      (stringEqual_starts _ _).mpr ⟨by simp, List.prefix_append [a, a, b] rest⟩
    simp [upTo, here]
  | cons c value ih =>
    have later := ih fun found => open_ (found.trans (List.suffix_cons c value).isInfix)
    have passes : stringEqual (c :: (value ++ ([a, a, b] ++ rest))) [a, a, b] false = false := by
      rw [Bool.eq_false_iff, ne_eq, stringEqual_starts]
      rintro ⟨-, found⟩
      rcases value with _ | ⟨d, _ | ⟨e, value⟩⟩
      · exact other (by simp_all [List.cons_prefix_cons])
      · exact other (by simp_all [List.cons_prefix_cons])
      · obtain ⟨rfl, rfl, rfl⟩ : a = c ∧ a = d ∧ b = e := by
          simpa [List.cons_prefix_cons] using found
        exact open_ ⟨[], value, rfl⟩
    rw [List.cons_append, upTo, passes, later]
    rfl

theorem comment_yields {value : Chars} (rest : Chars) (free : ¬ Stuck buffer)
    (open_ : ¬ commentEnd <:+: value) :
    Yields (Calm buffer) (commentParse encoding (commentStart ++ value ++ commentEnd ++ rest))
      (.comment value, some rest) := by
  have read : upTo commentEnd (value ++ (commentEnd ++ rest)) = (value, commentEnd ++ rest) :=
    upTo_reads (by decide) rest open_
  have start : stringEqual (commentStart ++ (value ++ (commentEnd ++ rest))) commentStart false =
      true := (stringEqual_starts _ _).mpr ⟨by simp [commentStart], List.prefix_append _ _⟩
  have skipped : skipWhiteSpace encoding (some (commentStart ++ (value ++ (commentEnd ++ rest)))) =
      some (commentStart ++ (value ++ (commentEnd ++ rest))) := skipWhiteSpace_tag _
  rw [List.append_assoc, List.append_assoc]
  unfold commentParse
  rw [skipped]
  refine (stamp_yields encoding _ free).andThen ?_
  simp only [start, List.drop_left, read]
  exact yields_pure _

theorem unknown_yields {value : Chars} (rest : Chars) (free : ¬ Stuck buffer)
    (open_ : 62 ∉ value) :
    Yields (Calm buffer) (unknownParse encoding (60 :: (value ++ 62 :: rest)))
      (.unknown value, some rest) := by
  obtain ⟨taken, left⟩ := @takeWhile_stops (· != 62) value 62 rest
    (fun c member => by
      have other : c ≠ 62 := fun same => open_ (same ▸ member)
      simpa using other) (by decide)
  unfold unknownParse
  rw [skipWhiteSpace_tag]
  refine (stamp_yields encoding _ free).andThen ?_
  simp only [List.span_eq_takeWhile_dropWhile, taken, left]
  exact yields_pure _

/-- A section that is the last of its document leaves a null pointer. -/
def behindSection (rest : Chars) : Ptr := if rest = [] then none else some rest

theorem cdata_yields {value : Chars} (rest : Chars) (free : ¬ Stuck buffer)
    (open_ : ¬ cdataEnd <:+: value) :
    Yields (Calm buffer) (textParse encoding true (cdataStart ++ value ++ cdataEnd ++ rest))
      (.text value true, behindSection rest) := by
  have read : upTo cdataEnd (value ++ (cdataEnd ++ rest)) = (value, cdataEnd ++ rest) :=
    upTo_reads (by decide) rest open_
  have start : stringEqual (cdataStart ++ (value ++ (cdataEnd ++ rest))) cdataStart false = true :=
    (stringEqual_starts _ _).mpr ⟨by simp [cdataStart], List.prefix_append _ _⟩
  have ends : stringEqual (cdataEnd ++ rest) cdataEnd false = true :=
    (stringEqual_starts _ _).mpr ⟨by simp [cdataEnd], List.prefix_append _ _⟩
  have passed : readText encoding false cdataEnd (cdataEnd ++ rest) =
      .ok ([], behindSection rest) := by
    simp only [readText, Bool.false_eq_true, if_false, keepLoop, ends, or_true, if_true, bind,
      Except.bind, pure, Except.pure, List.drop_left, behindSection]
  rw [List.append_assoc, List.append_assoc]
  unfold textParse
  refine (stamp_yields encoding _ free).andThen ?_
  simp only [start, Bool.true_or, if_true, List.drop_left, read]
  exact yields_lift passed (yields_pure _)

theorem encodeString_outside {s : Chars} (written : Encodable encoding s) (started : s ≠ []) :
    ∃ c p, encodeString s = c :: p ∧ c ≠ 60 := by
  revert started
  refine encoded_induction (motive := fun s e =>
    s ≠ [] → ∃ c p, e = c :: p ∧ c ≠ 60) (fun none => absurd rfl none) ?_ written.1 written.2
  intro v e s piece _ _
  obtain ⟨first, others, rfl⟩ := List.exists_cons_of_ne_nil piece.started
  exact ⟨first, others ++ encodeString s, rfl, by simpa using piece.closes.2.2⟩

theorem text_yields {s gap rest : Chars} (free : ¬ Stuck buffer) (written : Encodable encoding s)
    (unmarked : Unmarked encoding s) (started : leftTrimmed s ≠ []) (blank : Blank gap)
    (more : rest ≠ []) :
    Yields (Calm buffer) (textParse encoding false (encodeString s ++ (gap ++ 60 :: rest)))
      (.text (condensed false (leftTrimmed s)) false, some (60 :: rest)) := by
  have read := text_read_back written.1 written.2 unmarked started blank more
  have plain : stringEqual (encodeString s ++ (gap ++ 60 :: rest)) cdataStart false = false := by
    obtain ⟨c, p, shape, outside⟩ := encodeString_outside written (s := s) (by
      rintro rfl
      exact started rfl)
    rw [shape, Bool.eq_false_iff, ne_eq, stringEqual_starts]
    rintro ⟨-, found⟩
    exact outside (List.cons_prefix_cons.mp found).1.symm
  obtain ⟨c, p, rfl⟩ := List.exists_cons_of_ne_nil more
  unfold textParse
  refine (stamp_yields encoding _ free).andThen ?_
  simp only [plain, Bool.or_self, Bool.false_eq_true, if_false]
  exact yields_lift read (yields_pure _)

theorem keepLoop_turn {c : UInt8} {v s rest text : Chars} {fuel : Nat}
    (read : getChar encoding (c :: (v ++ (s ++ 34 :: rest))) = .ok (some (c :: v, s ++ 34 :: rest)))
    (open_ : c ≠ 34)
    (later : ∀ fuel text, (s ++ 34 :: rest).length < fuel →
      keepLoop encoding [34] fuel (s ++ 34 :: rest) text = .ok (text ++ s, some (34 :: rest)))
    (enough : (c :: (v ++ (s ++ 34 :: rest))).length < fuel) :
    keepLoop encoding [34] fuel (c :: (v ++ (s ++ 34 :: rest))) text =
      .ok (text ++ c :: (v ++ s), some (34 :: rest)) := by
  obtain ⟨fuel, rfl⟩ : ∃ n, fuel = n + 1 := ⟨fuel - 1, by omega⟩
  have passes : stringEqual (c :: (v ++ (s ++ 34 :: rest))) [34] false = false := by
    simpa [stringEqual_single] using open_
  simp only [List.length_cons, List.length_append] at enough
  have rest := later fuel (text ++ c :: v)
    (by simp only [List.length_cons, List.length_append]; omega)
  rw [keepLoop, if_neg (by simp [passes]), read]
  simpa [bind, Except.bind] using rest

theorem keepLoop_quoted {s : Chars} (rest : Chars) (whole : Characters encoding s)
    (plain : 34 ∉ s ∧ 38 ∉ s) : ∀ fuel text, (s ++ 34 :: rest).length < fuel →
      keepLoop encoding [34] fuel (s ++ 34 :: rest) text = .ok (text ++ s, some (34 :: rest)) := by
  induction whole with
  | nil =>
    intro fuel text enough
    obtain ⟨fuel, rfl⟩ : ∃ n, fuel = n + 1 := ⟨fuel - 1, by omega⟩
    simp [keepLoop, stringEqual_single]
  | @single c s length _ ih =>
    intro fuel text enough
    obtain ⟨quote, ampersand⟩ := plain
    simp only [List.mem_cons, not_or] at quote ampersand
    exact keepLoop_turn (v := []) (getChar_single _ (Ne.symm ampersand.1) length)
      (Ne.symm quote.1) (ih ⟨quote.2, ampersand.2⟩) enough
  | @sequence lead tail s utf8 length high _ ih =>
    subst utf8
    intro fuel text enough
    obtain ⟨quote, ampersand⟩ := plain
    simp only [List.mem_cons, List.mem_append, not_or] at quote ampersand
    have read : getChar .UTF8 (lead :: (tail ++ (s ++ 34 :: rest))) =
        .ok (some (lead :: tail, s ++ 34 :: rest)) := by
      by_cases long : tail = []
      · subst long
        exact getChar_single _ (Ne.symm ampersand.1) fun _ => length
      · exact getChar_sequence _ length long
    rw [← List.cons_append, List.append_assoc] at enough ⊢
    exact keepLoop_turn read (Ne.symm quote.1) (ih ⟨quote.2.2, ampersand.2.2⟩) enough

theorem quotable_read {s rest : Chars} (quotable : Quotable encoding s) (more : rest ≠ []) :
    readText encoding false [34] (s ++ 34 :: rest) = .ok (s, some rest) := by
  have read := keepLoop_quoted rest quotable.1 ⟨quotable.2.1, quotable.2.2.1⟩
    ((s ++ 34 :: rest).length + 1) [] (by omega)
  rw [List.nil_append] at read
  simp only [readText, Bool.false_eq_true, if_false, read, bind, Except.bind, pure, Except.pure]
  simp [more]

/-- The turn of the loop over a declaration that finds an entry by its name. -/
def Finds (encoding : TiXmlEncoding) (name : Chars) (set : Chars → Chars × Chars × Chars) : Prop :=
  ∀ fuel tail, declarationLoop encoding (fuel + 1) (32 :: (name ++ tail)) (set []) = do
    let (attrib, p) ← attributeParse false encoding (some (name ++ tail))
    declarationLoop encoding fuel (p.getD []) (set (cStr attrib.2))

theorem skipLoop_entry {c : UInt8} (name tail : Chars) (word : isWhiteSpace c = false)
    (other : c ≠ 0xef) :
    skipLoop encoding (32 :: (c :: name ++ tail)) = c :: name ++ tail := by
  rw [skipLoop_blank _ (by decide)]
  exact skipLoop_stop word fun _ => markAhead_lead _ other

theorem finds_version : Finds encoding versionName fun value => (value, [], []) := by
  intro fuel tail
  have found : stringEqual (versionName ++ tail) versionName true = true := by
    simp [stringEqual, tagLoop, versionName]
  have skipped : skipLoop encoding (32 :: (versionName ++ tail)) = versionName ++ tail :=
    skipLoop_entry _ tail (by decide) (by decide)
  rw [declarationLoop]
  · simp only [skipped, found, if_true]
  · decide

theorem finds_encoding (version : Chars) :
    Finds encoding encodingName fun value => (version, value, []) := by
  intro fuel tail
  have other : stringEqual (encodingName ++ tail) versionName true = false := by
    simp [stringEqual, tagLoop, versionName, encodingName, toLower]
  have found : stringEqual (encodingName ++ tail) encodingName true = true := by
    simp [stringEqual, tagLoop, encodingName]
  have skipped : skipLoop encoding (32 :: (encodingName ++ tail)) = encodingName ++ tail :=
    skipLoop_entry _ tail (by decide) (by decide)
  rw [declarationLoop]
  · simp only [skipped, other, found, if_true, Bool.false_eq_true, if_false]
  · decide

theorem finds_standalone (version enc : Chars) :
    Finds encoding standaloneName fun value => (version, enc, value) := by
  intro fuel tail
  have others : stringEqual (standaloneName ++ tail) versionName true = false ∧
      stringEqual (standaloneName ++ tail) encodingName true = false := by
    simp [stringEqual, tagLoop, versionName, encodingName, standaloneName, toLower]
  have found : stringEqual (standaloneName ++ tail) standaloneName true = true := by
    simp [stringEqual, tagLoop, standaloneName]
  have skipped : skipLoop encoding (32 :: (standaloneName ++ tail)) = standaloneName ++ tail :=
    skipLoop_entry _ tail (by decide) (by decide)
  rw [declarationLoop]
  · simp only [skipped, others.1, others.2, found, if_true, Bool.false_eq_true, if_false]
  · decide

theorem entry_yields {name value more : Chars} {set : Chars → Chars × Chars × Chars}
    {result : (Chars × Chars × Chars) × Ptr} (free : ¬ Stuck buffer)
    (plain : PlainName encoding name) (quotable : Quotable encoding value)
    (finds : Finds encoding name set)
    (later : ∀ fuel, (32 :: more).length < fuel →
      Yields (Calm buffer) (declarationLoop encoding fuel (32 :: more) (set value)) result) :
    ∀ fuel, (32 :: (entryPrint name value ++ more)).length < fuel →
      Yields (Calm buffer)
        (declarationLoop encoding fuel (32 :: (entryPrint name value ++ more)) (set []))
        result := by
  intro fuel enough
  by_cases empty : value = []
  · subst empty
    exact later fuel enough
  · obtain ⟨fuel, rfl⟩ : ∃ n, fuel = n + 1 := ⟨fuel - 1, by omega⟩
    have shape : entryPrint name value ++ more =
        name ++ (61 :: 34 :: (value ++ 34 :: (32 :: more))) := by
      simp [entryPrint, empty]
    rw [shape] at enough ⊢
    rw [finds fuel]
    simp only [List.length_cons, List.length_append] at enough
    have parsed := @attribute_yields buffer encoding false name value value [] (32 :: more) 34
      free plain blank_nil (.inr rfl) (quotable_read quotable (by simp))
    refine parsed.andThen ?_
    simp only [cStr_whole quotable.2.2.2]
    exact later fuel (by rw [List.length_cons]; omega)

theorem declaration_end (rest : Chars) (entries : Chars × Chars × Chars) :
    ∀ fuel, (32 :: 63 :: 62 :: rest).length < fuel →
      Yields (Calm buffer) (declarationLoop encoding fuel (32 :: 63 :: 62 :: rest) entries)
        (entries, some rest) := by
  intro fuel enough
  obtain ⟨fuel, rfl⟩ : ∃ n, fuel = n + 2 := ⟨fuel - 2, by simp at enough; omega⟩
  obtain ⟨version, enc, standalone⟩ := entries
  have skipped : skipLoop encoding (32 :: 63 :: 62 :: rest) = 63 :: 62 :: rest := by
    rw [skipLoop_blank _ (by decide)]
    exact skipLoop_stop (by decide) fun _ => markAhead_lead _ (by decide)
  have others : stringEqual (63 :: 62 :: rest) versionName true = false ∧
      stringEqual (63 :: 62 :: rest) encodingName true = false ∧
      stringEqual (63 :: 62 :: rest) standaloneName true = false := by
    simp [stringEqual, tagLoop, versionName, encodingName, standaloneName, toLower]
  have passed : (63 :: 62 :: rest).dropWhile (fun c => c != 62 && !isWhiteSpace c) =
      62 :: rest := by
    rw [List.dropWhile_cons_of_pos (by decide), List.dropWhile_cons_of_neg (by decide)]
  rw [declarationLoop]
  · simp only [skipped, others.1, others.2.1, others.2.2, passed, Bool.false_eq_true, if_false]
    exact yields_pure _
  · decide

theorem declaration_yields {version enc standalone : Chars} (rest : Chars) (free : ¬ Stuck buffer)
    (first : Quotable encoding version) (second : Quotable encoding enc)
    (third : Quotable encoding standalone) :
    Yields (Calm buffer)
      (declarationParse encoding (declarationPrint version enc standalone ++ rest))
      (.declaration version enc standalone, some rest) := by
  have named (s : Chars) (other : s.head? ≠ some 0xef) (name : IsName s) : PlainName encoding s :=
    ⟨name, fun _ => by
      obtain ⟨⟨c, t, rfl, -⟩, -⟩ := name
      exact markAhead_lead t (by simpa using other)⟩
  have loop := entry_yields free
    (named versionName (by decide) ⟨⟨_, _, rfl, by decide⟩, by decide +kernel⟩)
    first finds_version
    (entry_yields free (named encodingName (by decide) ⟨⟨_, _, rfl, by decide⟩, by decide +kernel⟩)
      second (finds_encoding version)
      (entry_yields free
        (named standaloneName (by decide) ⟨⟨_, _, rfl, by decide⟩, by decide +kernel⟩)
        third (finds_standalone version enc)
        (declaration_end rest (version, enc, standalone))))
  set text := 32 :: (entryPrint versionName version ++ (entryPrint encodingName enc ++
    (entryPrint standaloneName standalone ++ 63 :: 62 :: rest))) with inner
  have split : declarationPrint version enc standalone ++ rest = xmlHeader ++ text := by
    simp [declarationPrint, xmlHeader, inner]
  have start : stringEqual (xmlHeader ++ text) xmlHeader true = true := by
    simp [stringEqual, tagLoop, xmlHeader]
  have skipped : skipWhiteSpace encoding (some (xmlHeader ++ text)) = some (xmlHeader ++ text) :=
    skipWhiteSpace_tag _
  unfold declarationParse
  rw [split, skipped]
  simp only [start, Bool.not_true, Bool.false_eq_true, if_false]
  refine (stamp_yields encoding _ free).andThen ?_
  rw [List.drop_left]
  exact (loop (text.length + 1) (by omega)).andThen (yields_pure _)

end Leaves

section Tags

variable {encoding : TiXmlEncoding}

theorem tagLoop_before {same : UInt8 → UInt8 → Bool} {tag value : Chars} {c : UInt8}
    (rest : Chars) (apart : ∀ t ∈ tag, same c t = false) :
    tagLoop same (value ++ c :: rest) tag = tagLoop same value tag := by
  induction tag generalizing value with
  | nil => simp [tagLoop]
  | cons t tag ih =>
    cases value with
    | nil => simp [tagLoop, apart t (by simp)]
    | cons d value =>
      rw [List.cons_append, tagLoop, tagLoop, ih fun u member => apart u (by simp [member])]

theorem stringEqual_before {tag value : Chars} (rest : Chars) (started : value ≠ [])
    (apart : ∀ t ∈ tag, t ≠ 62 ∧ toLower t ≠ 62) (ignoreCase : Bool) :
    stringEqual (value ++ 62 :: rest) tag ignoreCase = stringEqual value tag ignoreCase := by
  have lower : toLower 62 = 62 := by decide
  have left : (value ++ 62 :: rest != []) = (value != []) := by
    rw [bne_iff_ne.mpr started, bne_iff_ne.mpr (by simp)]
  unfold stringEqual
  rw [left, tagLoop_before]
  · intro t member
    obtain ⟨plain, other⟩ := apart t member
    cases ignoreCase
    · simpa using Ne.symm plain
    · simpa [lower] using Ne.symm other

theorem identify_comment (p : Chars) : identify encoding (commentStart ++ p) = some .comment := by
  have skipped : skipWhiteSpace encoding (some (commentStart ++ p)) = some (commentStart ++ p) :=
    skipWhiteSpace_tag _
  rw [identify, skipped]
  simp [commentStart, xmlHeader, stringEqual, tagLoop, toLower]

theorem identify_cdata (p : Chars) : identify encoding (cdataStart ++ p) = some .cdata := by
  have skipped : skipWhiteSpace encoding (some (cdataStart ++ p)) = some (cdataStart ++ p) :=
    skipWhiteSpace_tag _
  rw [identify, skipped]
  simp [commentStart, cdataStart, xmlHeader, stringEqual, tagLoop, toLower]

theorem identify_declaration (p : Chars) :
    identify encoding (xmlHeader ++ p) = some .declaration := by
  have skipped : skipWhiteSpace encoding (some (xmlHeader ++ p)) = some (xmlHeader ++ p) :=
    skipWhiteSpace_tag _
  rw [identify, skipped]
  simp [xmlHeader, stringEqual, tagLoop]

theorem start_bytes : ∀ c : UInt8, isNameStart c = true → toLower c ≠ 63 ∧ c ≠ 33 ∧ c ≠ 47 :=
  HexText.forall_bytes (by decide +kernel)

theorem identify_element {c : UInt8} (p : Chars) (start : isNameStart c = true) :
    identify encoding (60 :: c :: p) = some .element := by
  obtain ⟨question, bang, -⟩ := start_bytes c start
  have lower : toLower 63 = 63 := by decide
  rw [identify, skipWhiteSpace_tag]
  simp [commentStart, cdataStart, xmlHeader, stringEqual, tagLoop, lower, question, bang, start]

theorem identify_unknown {value : Chars} (rest : Chars) (other : ReadsUnknown value) :
    identify encoding (60 :: (value ++ 62 :: rest)) = some .unknown := by
  obtain ⟨-, start, -, header, comment, section_⟩ := other
  have header' := @stringEqual_before xmlHeader (60 :: value) rest (by simp)
    (by decide +kernel) true
  have comment' := @stringEqual_before commentStart (60 :: value) rest (by simp)
    (by decide +kernel) false
  have section' := @stringEqual_before cdataStart (60 :: value) rest (by simp)
    (by decide +kernel) false
  have first : (value ++ 62 :: rest).head?.any isNameStart = false := by
    cases value with
    | nil => rfl
    | cons c value => simpa using start
  have comment : stringEqual (60 :: value) commentStart false = false := by
    rw [Bool.eq_false_iff, ne_eq, stringEqual_starts]
    exact fun found => comment found.2
  have section_ : stringEqual (60 :: value) cdataStart false = false := by
    rw [Bool.eq_false_iff, ne_eq, stringEqual_starts]
    exact fun found => section_ found.2
  rw [List.cons_append] at header' comment' section'
  rw [identify, skipWhiteSpace_tag]
  simp only [header', header, comment', comment, section', section_, first, Bool.false_eq_true,
    if_false, ite_self]

end Tags

end TinyXmlLeaves
