import Boring.South.TinyXmlText
import Boring.Base.HexText
import Mathlib.Data.List.Infix

/- What EncodeString writes, ReadText reads back. -/
namespace TinyXmlCodec
open TinyXmlText
open HexText (forall_bytes)

/-- A text without "&#x", which EncodeString would copy as it stands. -/
def NoReference (s : Chars) : Prop := ¬ [38, 35, 120] <:+: s

instance (s : Chars) : Decidable (NoReference s) := by unfold NoReference; infer_instance

/-- A text of whole characters: the bytes behind a lead byte are all there, and none is ASCII. -/
inductive Characters (encoding : TiXmlEncoding) : Chars → Prop where
  | nil : Characters encoding []
  | single {c : UInt8} {s : Chars} (length : encoding = .UTF8 → utf8ByteTable c = 1)
      (rest : Characters encoding s) : Characters encoding (c :: s)
  | sequence {lead : UInt8} {tail s : Chars} (utf8 : encoding = .UTF8)
      (length : utf8ByteTable lead = tail.length + 1) (high : ∀ t ∈ tail, 128 ≤ t)
      (rest : Characters encoding s) : Characters encoding (lead :: (tail ++ s))

theorem NoReference.tail {c : UInt8} {s : Chars} (plain : NoReference (c :: s)) :
    NoReference s := fun found => plain (found.trans (List.suffix_cons c s).isInfix)

theorem NoReference.append_right {a b : Chars} (plain : NoReference (a ++ b)) : NoReference b :=
  fun found => plain (found.trans (List.suffix_append a b).isInfix)

theorem NoReference.head {c : UInt8} {s : Chars} (plain : NoReference (c :: s)) :
    ¬ (c = 38 ∧ s.take 2 = [35, 120]) := by
  rintro ⟨rfl, next⟩
  refine plain ⟨[], s.drop 2, ?_⟩
  have split : s = [35, 120] ++ s.drop 2 := by
    conv_lhs => rw [← List.take_append_drop 2 s, next]
  simpa using split.symm

theorem encodeString_cons {c : UInt8} {s : Chars} (plain : NoReference (c :: s)) :
    encodeString (c :: s) = encodeChar c ++ encodeString s := by
  simp [encodeString, encodeLoop, plain.head]

theorem encodeChar_high : ∀ c : UInt8, 128 ≤ c → encodeChar c = [c] :=
  forall_bytes (by decide +kernel)

theorem lead_high : ∀ c : UInt8, utf8ByteTable c ≠ 1 → 128 ≤ c := forall_bytes (by decide +kernel)

theorem encodeString_high {tail s : Chars} (high : ∀ t ∈ tail, 128 ≤ t)
    (plain : NoReference (tail ++ s)) : encodeString (tail ++ s) = tail ++ encodeString s := by
  induction tail with
  | nil => rfl
  | cons t tail ih =>
    rw [List.cons_append] at plain
    rw [List.cons_append, encodeString_cons plain, encodeChar_high t (high t (by simp)),
      ih (fun u member => high u (by simp [member])) plain.tail]
    simp

theorem ascii_characters {encoding : TiXmlEncoding} {s : Chars} (low : ∀ c ∈ s, c < 128) :
    Characters encoding s := by
  induction s with
  | nil => exact .nil
  | cons c s ih =>
    refine .single (fun _ => ?_) (ih fun d member => low d (by simp [member]))
    by_contra lead
    exact absurd (low c (by simp)) (by simpa using lead_high c lead)

theorem two_digits {encoding : TiXmlEncoding} {a b : UInt8} {x y : UInt32} (rest : Chars)
    (first : hexValue a = some x) (second : hexValue b = some y)
    (plain : (a ≠ 59 ∧ a ≠ 120) ∧ b ≠ 59 ∧ b ≠ 120) :
    numericReference encoding hexValue 16 120 (a :: b :: 59 :: rest) =
      if encoding = .UTF8 then some (convertUTF32ToUTF8 (y + 16 * x), rest)
      else some ([(y + 16 * x).toUInt8], rest) := by
  simp [numericReference, plain, digitLoop, first, second]

theorem control_digits : ∀ c : UInt8, c < 32 →
    (hexValue (upperDigit (c / 16)) = some (c / 16).toUInt32 ∧
      hexValue (upperDigit (c % 16)) = some (c % 16).toUInt32) ∧
    ((upperDigit (c / 16) ≠ 59 ∧ upperDigit (c / 16) ≠ 120) ∧
      upperDigit (c % 16) ≠ 59 ∧ upperDigit (c % 16) ≠ 120) ∧
    convertUTF32ToUTF8 ((c % 16).toUInt32 + 16 * (c / 16).toUInt32) = [c] ∧
    ((c % 16).toUInt32 + 16 * (c / 16).toUInt32).toUInt8 = c :=
  forall_bytes (by decide +kernel)

theorem getEntity_control {c : UInt8} (encoding : TiXmlEncoding) (rest : Chars)
    (control : c < 32) : getEntity encoding (38 :: 35 :: 120 :: upperDigit (c / 16) ::
      upperDigit (c % 16) :: 59 :: rest) = some ([c], rest) := by
  obtain ⟨⟨first, second⟩, plain, wide, narrow⟩ := control_digits c control
  simp only [getEntity, reduceCtorEq, if_false, two_digits rest first second plain, wide, narrow,
    ite_self]

theorem getChar_single {encoding : TiXmlEncoding} {c : UInt8} (rest : Chars) (plain : c ≠ 38)
    (length : encoding = .UTF8 → utf8ByteTable c = 1) :
    getChar encoding (c :: rest) = .ok (some ([c], rest)) := by
  by_cases utf8 : encoding = .UTF8
  · simp [getChar, utf8, length utf8, plain]
  · simp [getChar, utf8, plain]

theorem getChar_ampersand (encoding : TiXmlEncoding) (rest : Chars) :
    getChar encoding (38 :: rest) = .ok (getEntity encoding (38 :: rest)) := by
  simp [getChar, utf8ByteTable]

theorem getChar_encodeChar {encoding : TiXmlEncoding} {c : UInt8} (rest : Chars)
    (length : encoding = .UTF8 → utf8ByteTable c = 1) :
    getChar encoding (encodeChar c ++ rest) = .ok (some ([c], rest)) := by
  unfold encodeChar
  split_ifs with amp lt gt quot apos control
  · subst amp
    simp [getChar_ampersand, getEntity, namedReference, entity]
  · subst lt
    simp [getChar_ampersand, getEntity, namedReference, entity]
  · subst gt
    simp [getChar_ampersand, getEntity, namedReference, entity]
  · subst quot
    simp [getChar_ampersand, getEntity, namedReference, entity]
  · subst apos
    simp [getChar_ampersand, getEntity, namedReference, entity]
  · simpa [getChar_ampersand] using getEntity_control encoding rest control
  · exact getChar_single rest amp length

theorem getChar_sequence {lead : UInt8} {tail : Chars} (rest : Chars)
    (length : utf8ByteTable lead = tail.length + 1) (long : tail ≠ []) :
    getChar .UTF8 (lead :: (tail ++ rest)) = .ok (some (lead :: tail, rest)) := by
  have positive : 0 < tail.length := List.length_pos_iff.mpr long
  have single : ¬ tail.length = 0 := by omega
  have fits : ¬ (tail.length + rest.length + 1 < tail.length + 1) := by omega
  simp [getChar, length, single, fits]

def markAhead : Chars → Bool
  | a :: b :: c :: _ => isMark a b c
  | _ => false

structure Piece (encoding : TiXmlEncoding) (v e : Chars) : Prop where
  read : ∀ rest, getChar encoding (e ++ rest) = .ok (some (v, rest))
  long : v ≠ []
  started : e ≠ []
  closes : e.head? ≠ some 34 ∧ e.head? ≠ some 39 ∧ e.head? ≠ some 60
  blank : ∀ c, e.head? = some c → isWhiteSpace c = true → c = 32 ∧ e = [32] ∧ v = [32]
  inside : 32 ∈ v → v = [32] ∧ e = [32]
  mark : encoding = .UTF8 → ∀ r s, markAhead (e ++ r) = markAhead (v ++ s)

theorem encodeChar_head : ∀ c : UInt8, encodeChar c ≠ [] ∧
    ((encodeChar c).head? ≠ some 34 ∧ (encodeChar c).head? ≠ some 39 ∧
      (encodeChar c).head? ≠ some 60) ∧
    (isWhiteSpace ((encodeChar c).headD 0) = true → c = 32 ∧ encodeChar c = [32]) ∧
    (c = 32 → encodeChar c = [32]) ∧ ((encodeChar c).headD 0 = 0xef → c = 0xef) :=
  forall_bytes (by decide +kernel)

theorem markAhead_lead {a : UInt8} (p : Chars) (other : a ≠ 0xef) :
    markAhead (a :: p) = false := by
  rcases p with _ | ⟨b, _ | ⟨c, p⟩⟩ <;> simp [markAhead, isMark, other]

theorem high_plain : ∀ c : UInt8, 128 ≤ c → c ≠ 34 ∧ c ≠ 39 ∧ c ≠ 60 ∧ c ≠ 32 ∧
    isWhiteSpace c = false := forall_bytes (by decide +kernel)

theorem piece_single {encoding : TiXmlEncoding} {c : UInt8}
    (length : encoding = .UTF8 → utf8ByteTable c = 1) : Piece encoding [c] (encodeChar c) := by
  obtain ⟨started, closes, blank, space, lead⟩ := encodeChar_head c
  refine ⟨fun rest => getChar_encodeChar rest length, by simp, started, closes, ?_, ?_, ?_⟩
  · intro d head white
    have first : (encodeChar c).headD 0 = d := by simp [List.headD_eq_head?_getD, head]
    obtain ⟨rfl, written⟩ := blank (by rw [first]; exact white)
    exact ⟨by rw [written] at head; exact (Option.some.inj head).symm, written, rfl⟩
  · intro member
    obtain rfl : c = 32 := by simpa [eq_comm] using member
    exact ⟨rfl, space rfl⟩
  · intro utf8 r s
    have other : c ≠ 0xef := by
      rintro rfl
      exact absurd (length utf8) (by decide)
    obtain ⟨first, others, written⟩ := List.exists_cons_of_ne_nil started
    have unmarked : first ≠ 0xef := by
      rintro rfl
      exact other (lead (by rw [written]; rfl))
    rw [written, List.cons_append, markAhead_lead _ unmarked, List.cons_append,
      markAhead_lead _ other]

theorem piece_sequence {lead : UInt8} {tail : Chars} (long : tail ≠ [])
    (length : utf8ByteTable lead = tail.length + 1) (high : ∀ t ∈ tail, 128 ≤ t) :
    Piece .UTF8 (lead :: tail) (lead :: tail) := by
  have positive : 0 < tail.length := List.length_pos_iff.mpr long
  obtain ⟨quot, apos, lt, space, white⟩ := high_plain lead (lead_high lead (by omega))
  refine ⟨fun rest => getChar_sequence rest length long, by simp, by simp,
    by simp [quot, apos, lt], ?_, ?_, ?_⟩
  · intro d head blank
    obtain rfl : lead = d := by simpa using head
    exact absurd blank (by simp [white])
  · intro member
    rcases List.mem_cons.mp member with first | later
    · exact absurd first.symm space
    · exact absurd rfl (high_plain 32 (high 32 later)).2.2.2.1
  · intro _ r s
    by_cases bom : lead = 0xef
    · subst bom
      have two : tail.length = 2 := by
        have three : utf8ByteTable 0xef = 3 := by decide
        omega
      obtain ⟨b, c, rfl⟩ := List.length_eq_two.mp two
      simp [markAhead]
    · rw [List.cons_append, markAhead_lead _ bom, List.cons_append, markAhead_lead _ bom]

/-- A property of a text and its encoded form that one more character in front keeps. -/
theorem encoded_induction {encoding : TiXmlEncoding} {motive : Chars → Chars → Prop}
    (nil : motive [] [])
    (step : ∀ v e s, Piece encoding v e → motive s (encodeString s) →
      motive (v ++ s) (e ++ encodeString s))
    {s : Chars} (whole : Characters encoding s) (plain : NoReference s) :
    motive s (encodeString s) := by
  induction whole with
  | nil => exact nil
  | @single c s length rest ih =>
    rw [encodeString_cons plain]
    exact step [c] _ s (piece_single length) (ih plain.tail)
  | @sequence lead tail s utf8 length high rest ih =>
    subst utf8
    have later := ih plain.tail.append_right
    by_cases long : tail = []
    · subst long
      rw [List.nil_append] at plain ⊢
      rw [encodeString_cons plain]
      exact step [lead] _ s (piece_single fun _ => by simpa using length) later
    · have positive : 0 < tail.length := List.length_pos_iff.mpr long
      have above : 128 ≤ lead := lead_high lead (by omega)
      rw [encodeString_cons plain, encodeChar_high lead above, encodeString_high high plain.tail]
      exact step (lead :: tail) (lead :: tail) s (piece_sequence long length high) later

/-- The tags that end a text: a quote of an attribute or the next '<'. -/
def Closer (q : UInt8) : Prop := q = 34 ∨ q = 39 ∨ q = 60

theorem stringEqual_single (c q : UInt8) (rest : Chars) :
    stringEqual (c :: rest) [q] false = (c == q) := by
  simp [stringEqual, tagLoop]

theorem piece_continues {encoding : TiXmlEncoding} {v e : Chars} {q : UInt8} (rest : Chars)
    (piece : Piece encoding v e) (closer : Closer q) :
    ¬ (e ++ rest = [] ∨ stringEqual (e ++ rest) [q] false = true) := by
  obtain ⟨first, others, rfl⟩ := List.exists_cons_of_ne_nil piece.started
  obtain ⟨quot, apos, lt⟩ := piece.closes
  simp only [List.head?_cons, ne_eq, Option.some.injEq] at quot apos lt
  rw [List.cons_append, stringEqual_single]
  rcases closer with rfl | rfl | rfl <;> simp [quot, apos, lt]

theorem keepLoop_reads {encoding : TiXmlEncoding} {s : Chars} {q : UInt8} (rest : Chars)
    (whole : Characters encoding s) (plain : NoReference s) (closer : Closer q) :
    ∀ fuel text, (encodeString s ++ q :: rest).length < fuel →
      keepLoop encoding [q] fuel (encodeString s ++ q :: rest) text =
        .ok (text ++ s, some (q :: rest)) := by
  refine encoded_induction (motive := fun s e => ∀ fuel text,
    (e ++ q :: rest).length < fuel → keepLoop encoding [q] fuel (e ++ q :: rest) text =
      .ok (text ++ s, some (q :: rest))) ?_ ?_ whole plain
  · intro fuel text enough
    obtain ⟨fuel, rfl⟩ : ∃ n, fuel = n + 1 := ⟨fuel - 1, by omega⟩
    simp [keepLoop, stringEqual_single]
  · intro v e s piece later fuel text enough
    obtain ⟨fuel, rfl⟩ : ∃ n, fuel = n + 1 := ⟨fuel - 1, by omega⟩
    have started : 0 < e.length := List.length_pos_iff.mpr piece.started
    rw [List.append_assoc] at enough ⊢
    rw [keepLoop, if_neg (piece_continues _ piece closer), piece.read]
    simp only [List.length_append, List.length_cons] at enough
    have read := later fuel (text ++ v) (by simp only [List.length_append, List.length_cons]; omega)
    simpa [bind, Except.bind] using read

/-- White space of a text as ReadText leaves it: one space between words, none at the end. -/
def condensed : Bool → Chars → Chars
  | _, [] => []
  | whitespace, c :: s =>
    if c = 32 then condensed true s
    else (if whitespace then [32] else []) ++ c :: condensed false s

theorem condensed_word {v s : Chars} (whitespace : Bool) (long : v ≠ []) (word : 32 ∉ v) :
    condensed whitespace (v ++ s) =
      (if whitespace then [32] else []) ++ v ++ condensed false s := by
  induction v generalizing whitespace with
  | nil => exact absurd rfl long
  | cons c v ih =>
    have other : c ≠ 32 := fun same => word (by simp [same])
    rw [List.cons_append, condensed, if_neg other]
    by_cases last : v = []
    · simp [last]
    · rw [ih false last fun member => word (by simp [member])]
      simp

theorem condenseLoop_gap {encoding : TiXmlEncoding} (gap rest : Chars)
    (blank : ∀ c ∈ gap, isWhiteSpace c = true) : ∀ fuel whitespace text,
      (gap ++ 60 :: rest).length < fuel →
      condenseLoop encoding [60] fuel (gap ++ 60 :: rest) whitespace text =
        .ok (text, some (60 :: rest)) := by
  induction gap with
  | nil =>
    intro fuel whitespace text enough
    obtain ⟨fuel, rfl⟩ : ∃ n, fuel = n + 1 := ⟨fuel - 1, by omega⟩
    simp [condenseLoop, stringEqual_single]
  | cons c gap ih =>
    intro fuel whitespace text enough
    obtain ⟨fuel, rfl⟩ : ∃ n, fuel = n + 1 := ⟨fuel - 1, by omega⟩
    have white : isWhiteSpace c = true := blank c (by simp)
    have open60 : c ≠ 60 := by
      rintro rfl
      exact absurd white (by decide)
    simp only [List.cons_append, List.length_cons] at enough
    have later := ih (fun d member => blank d (by simp [member])) fuel true text (by omega)
    simpa [condenseLoop, stringEqual_single, open60, white] using later

theorem condenseLoop_reads {encoding : TiXmlEncoding} {s : Chars} (gap rest : Chars)
    (whole : Characters encoding s) (plain : NoReference s)
    (blank : ∀ c ∈ gap, isWhiteSpace c = true) : ∀ fuel whitespace text,
      (encodeString s ++ (gap ++ 60 :: rest)).length < fuel →
      condenseLoop encoding [60] fuel (encodeString s ++ (gap ++ 60 :: rest)) whitespace text =
        .ok (text ++ condensed whitespace s, some (60 :: rest)) := by
  refine encoded_induction (motive := fun s e => ∀ fuel whitespace text,
    (e ++ (gap ++ 60 :: rest)).length < fuel →
    condenseLoop encoding [60] fuel (e ++ (gap ++ 60 :: rest)) whitespace text =
      .ok (text ++ condensed whitespace s, some (60 :: rest))) ?_ ?_ whole plain
  · intro fuel whitespace text enough
    simpa [condensed] using condenseLoop_gap gap rest blank fuel whitespace text enough
  · intro v e s piece later fuel whitespace text enough
    obtain ⟨fuel, rfl⟩ : ∃ n, fuel = n + 1 := ⟨fuel - 1, by omega⟩
    rw [List.append_assoc] at enough ⊢
    rw [condenseLoop, if_neg (piece_continues _ piece (.inr (.inr rfl)))]
    have started : 0 < e.length := List.length_pos_iff.mpr piece.started
    have shorter : (encodeString s ++ (gap ++ 60 :: rest)).length < fuel := by
      simp only [List.length_append, List.length_cons] at enough ⊢
      omega
    by_cases white : isWhiteSpace (e ++ (encodeString s ++ (gap ++ 60 :: rest))).head! = true
    · obtain ⟨first, others, rfl⟩ := List.exists_cons_of_ne_nil piece.started
      obtain ⟨rfl, single, rfl⟩ := piece.blank first rfl (by simpa using white)
      rw [if_pos white, single]
      simpa [condensed] using later fuel true text shorter
    · obtain ⟨first, others, rfl⟩ := List.exists_cons_of_ne_nil piece.started
      have word : 32 ∉ v := by
        intro member
        obtain ⟨-, single⟩ := piece.inside member
        exact white (by rw [single]; rfl)
      rw [if_neg white, piece.read, condensed_word whitespace piece.long word]
      cases whitespace with
      | false => simpa [bind, Except.bind] using later fuel false (text ++ v) shorter
      | true => simpa [bind, Except.bind] using later fuel false (text ++ 32 :: v) shorter

theorem skipLoop_blank {encoding : TiXmlEncoding} {c : UInt8} (p : Chars)
    (white : isWhiteSpace c = true) : skipLoop encoding (c :: p) = skipLoop encoding p := by
  have other : c ≠ 0xef := by
    rintro rfl
    exact absurd white (by decide)
  rcases p with _ | ⟨a, _ | ⟨b, p⟩⟩ <;> simp [skipLoop, white, isMark, other]

theorem skipLoop_gap {encoding : TiXmlEncoding} {gap : Chars} (p : Chars)
    (blank : ∀ c ∈ gap, isWhiteSpace c = true) :
    skipLoop encoding (gap ++ p) = skipLoop encoding p := by
  induction gap with
  | nil => rfl
  | cons c gap ih =>
    rw [List.cons_append, skipLoop_blank _ (blank c (by simp)),
      ih fun d member => blank d (by simp [member])]

theorem skipLoop_stop {encoding : TiXmlEncoding} {c : UInt8} {p : Chars}
    (word : isWhiteSpace c = false)
    (unmarked : encoding = .UTF8 → markAhead (c :: p) = false) :
    skipLoop encoding (c :: p) = c :: p := by
  rcases p with _ | ⟨a, _ | ⟨b, p⟩⟩
  · simp [skipLoop, word]
  · simp [skipLoop, word]
  · have ahead : ¬ (encoding = .UTF8 ∧ isMark c a b = true) := by
      rintro ⟨utf8, mark⟩
      have none : isMark c a b = false := unmarked utf8
      exact absurd mark (by simp [none])
    rw [skipLoop, if_neg ahead, if_neg (by simp [word])]

theorem skipLoop_tag (encoding : TiXmlEncoding) (p : Chars) :
    skipLoop encoding (60 :: p) = 60 :: p :=
  skipLoop_stop (by decide) fun _ => markAhead_lead p (by decide)

def leftTrimmed (s : Chars) : Chars := s.dropWhile (· == 32)

/-- In UTF-8 a text that begins with a mark would lose it. -/
def Unmarked (encoding : TiXmlEncoding) (s : Chars) : Prop :=
  encoding = .UTF8 → markAhead (leftTrimmed s) = false

theorem skipLoop_encoded {encoding : TiXmlEncoding} {s : Chars} (p : Chars)
    (whole : Characters encoding s) (plain : NoReference s) (unmarked : Unmarked encoding s) :
    skipLoop encoding (encodeString s ++ p) =
      if leftTrimmed s = [] then skipLoop encoding p else encodeString (leftTrimmed s) ++ p := by
  revert unmarked
  refine encoded_induction (motive := fun s e =>
    e = encodeString s → Unmarked encoding s → skipLoop encoding (e ++ p) =
      if leftTrimmed s = [] then skipLoop encoding p else encodeString (leftTrimmed s) ++ p)
    ?_ ?_ whole plain rfl
  · intro _ _
    simp [leftTrimmed]
  · intro v e s piece later written unmarked
    obtain ⟨first, others, rfl⟩ := List.exists_cons_of_ne_nil piece.started
    by_cases white : isWhiteSpace first = true
    · obtain ⟨rfl, single, rfl⟩ := piece.blank first rfl white
      obtain rfl : others = [] := by simpa using single
      have trimmed : leftTrimmed ([32] ++ s) = leftTrimmed s := by simp [leftTrimmed]
      rw [trimmed, List.append_assoc, List.singleton_append, skipLoop_blank _ white]
      exact later rfl fun utf8 => by rw [← trimmed]; exact unmarked utf8
    · have word : 32 ∉ v := by
        intro member
        have single := (piece.inside member).2
        simp only [List.cons.injEq] at single
        exact white (by rw [single.1]; decide)
      obtain ⟨c, v, rfl⟩ := List.exists_cons_of_ne_nil piece.long
      have other : c ≠ 32 := fun same => word (by simp [same])
      have trimmed : leftTrimmed (c :: v ++ s) = c :: v ++ s := by simp [leftTrimmed, other]
      have ahead : encoding = .UTF8 →
          markAhead (first :: (others ++ encodeString s ++ p)) = false := by
        intro utf8
        have same := piece.mark utf8 (encodeString s ++ p) s
        have none := unmarked utf8
        rw [trimmed] at none
        rw [none] at same
        simpa using same
      rw [trimmed, if_neg (by simp), ← written]
      simpa using skipLoop_stop (by simpa using white) ahead

/-- ReadText gives an attribute value back as it was before EncodeString, whatever follows
    the quote, and stops behind the quote. -/
theorem quoted_read_back {encoding : TiXmlEncoding} {s : Chars} {q : UInt8} {rest : Chars}
    (whole : Characters encoding s) (plain : NoReference s) (closer : Closer q)
    (more : rest ≠ []) :
    readText encoding false [q] (encodeString s ++ q :: rest) = .ok (s, some rest) := by
  have read := keepLoop_reads rest whole plain closer
    ((encodeString s ++ q :: rest).length + 1) [] (by omega)
  rw [List.nil_append] at read
  simp only [readText, Bool.false_eq_true, if_false, read, bind, Except.bind, pure, Except.pure]
  simp [more]

theorem Characters.leftTrimmed {encoding : TiXmlEncoding} {s : Chars}
    (whole : Characters encoding s) : Characters encoding (leftTrimmed s) := by
  induction whole with
  | nil => exact .nil
  | @single c s length rest ih =>
    by_cases space : c = 32
    · simpa [TinyXmlCodec.leftTrimmed, space] using ih
    · simpa [TinyXmlCodec.leftTrimmed, space] using Characters.single length rest
  | @sequence lead tail s utf8 length high rest ih =>
    by_cases space : lead = 32
    · subst space
      have single : utf8ByteTable 32 = 1 := by decide
      obtain rfl : tail = [] := List.length_eq_zero_iff.mp (by omega)
      simpa [TinyXmlCodec.leftTrimmed] using ih
    · simpa [TinyXmlCodec.leftTrimmed, space] using Characters.sequence utf8 length high rest

theorem NoReference.leftTrimmed {s : Chars} (plain : NoReference s) :
    NoReference (leftTrimmed s) :=
  fun found => plain (found.trans (List.dropWhile_suffix _).isInfix)

/-- A text between two tags keeps its words; white space before it, behind it and around its
    words is condensed. -/
theorem text_read_back {encoding : TiXmlEncoding} {s gap rest : Chars}
    (whole : Characters encoding s) (plain : NoReference s) (unmarked : Unmarked encoding s)
    (started : leftTrimmed s ≠ []) (blank : ∀ c ∈ gap, isWhiteSpace c = true)
    (more : rest ≠ []) :
    readText encoding true [60] (encodeString s ++ (gap ++ 60 :: rest)) =
      .ok (condensed false (leftTrimmed s), some rest) := by
  have skipped := skipLoop_encoded (gap ++ 60 :: rest) whole plain unmarked
  rw [if_neg started] at skipped
  have read := condenseLoop_reads gap rest whole.leftTrimmed plain.leftTrimmed blank
    ((encodeString (leftTrimmed s) ++ (gap ++ 60 :: rest)).length + 1) false [] (by omega)
  rw [List.nil_append] at read
  obtain ⟨c, p, start⟩ : ∃ c p, encodeString s ++ (gap ++ 60 :: rest) = c :: p :=
    List.exists_cons_of_ne_nil (by simp)
  rw [start] at skipped ⊢
  simp only [readText, if_true, skipWhiteSpace, skipped, read, bind, Except.bind, pure,
    Except.pure]
  simp [more]

end TinyXmlCodec
