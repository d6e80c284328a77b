import Boring.South.TinyXmlCodec
import Boring.South.TinyXmlSafety
import Mathlib.Data.List.Nodup

/- What Parse accepts without an error is well formed, and every Parse function moves on. -/
namespace TinyXmlAccepted
open TinyXmlText TinyXmlTree TinyXmlParser TinyXmlSafety Outcomes

def IsName (s : Chars) : Prop :=
  (∃ c rest, s = c :: rest ∧ isNameStart c = true) ∧ ∀ c ∈ s, isNameChar c = true

def GoodAttributes (attributes : List (Chars × Chars)) : Prop :=
  (∀ a ∈ attributes, IsName a.1) ∧ (attributes.map Prod.fst).Nodup

/-- No two texts that would be read as one. -/
def Apart (nodes : List TiXmlNode) : Prop :=
  nodes.IsChain fun a b => ¬ (isPlainText a = true ∧ isPlainText b = true)

inductive Accepted : TiXmlNode → Prop where
  | element {value : Chars} {attributes : List (Chars × Chars)} {children : List TiXmlNode}
      (name : IsName value) (good : GoodAttributes attributes)
      (inside : ∀ c ∈ children, Accepted c) (apart : Apart children) :
      Accepted (.element value attributes children)
  | comment {value : Chars} (open_ : ¬ commentEnd <:+: value) : Accepted (.comment value)
  | unknown {value : Chars} (open_ : 62 ∉ value) : Accepted (.unknown value)
  | text {value : Chars} (words : ¬ value.all isWhiteSpace = true) :
      Accepted (.text value false)
  | cdata {value : Chars} (open_ : ¬ cdataEnd <:+: value) : Accepted (.text value true)
  | declaration (version encoding standalone : Chars) :
      Accepted (.declaration version encoding standalone)

def Marked (node : TiXmlNode) : Prop := Accepted node ∧ isPlainText node = false

/-- From `s` to `t` the stamp stays in the input and the first error stays. -/
def Kept (buffer : Chars) (s t : Parsing) : Prop :=
  t.stamp <:+ buffer ∧ (s.error ≠ none → t.error = s.error)

def Behind (p : Chars) (q : Ptr) : Prop := ∀ r, q = some r → r <:+ p ∧ r.length < p.length

theorem Kept.trans {buffer : Chars} {s t u : Parsing} (first : Kept buffer s t)
    (second : Kept buffer t u) : Kept buffer s u := by
  refine ⟨second.1, fun some => ?_⟩
  rw [second.2 (by rw [first.2 some]; exact some), first.2 some]

theorem Kept.quiet {buffer : Chars} {s t : Parsing} (kept : Kept buffer s t)
    (quiet : t.error = none) : s.error = none := by
  by_contra some
  exact some (by rw [← kept.2 some]; exact quiet)

theorem behind_none (p : Chars) : Behind p none := by simp [Behind]

theorem Behind.longer {p r : Chars} {q : Ptr} (behind : Behind r q) (suffix : r <:+ p) :
    Behind p q := by
  intro r' ends
  obtain ⟨within, short⟩ := behind r' ends
  exact ⟨within.trans suffix, by have := suffix.length_le; omega⟩

theorem behind_suffix {p r : Chars} {c : UInt8} (suffix : r <:+ p) : Behind (c :: p) (some r) := by
  intro r' ends
  obtain rfl := Option.some.inj ends
  exact ⟨suffix.trans (List.suffix_cons c p), by
    have := suffix.length_le
    rw [List.length_cons]
    omega⟩

theorem Behind.shorter {p q r : Chars} (behind : Behind p (some q)) (suffix : r <:+ q) :
    Behind p (some r) := by
  intro r' ends
  obtain rfl := Option.some.inj ends
  obtain ⟨within, short⟩ := behind q rfl
  exact ⟨suffix.trans within, by have := suffix.length_le; omega⟩

theorem Behind.inside {p q buffer : Chars} (behind : Behind p (some q)) (inside : p <:+ buffer) :
    q <:+ buffer := (behind q rfl).1.trans inside

section Steps

variable {buffer : Chars} {s : Parsing}

theorem stamp_kept (encoding : TiXmlEncoding) (now : Chars) (inside : s.stamp <:+ buffer) :
    Ends (stampAt encoding now) s (fun _ t => Kept buffer s t) (Excused buffer encoding) :=
  (stampAt_ends encoding now inside).weaken (fun _ _ ends => ⟨ends.1, fun _ => ends.2⟩)
    fun _ fault => by
      obtain ⟨rfl, utf8, stuck⟩ := fault
      exact stuck_excused stuck utf8

theorem error_kept (encoding : TiXmlEncoding) (err : TiXmlError) (pError : Ptr)
    (inside : s.stamp <:+ buffer) :
    Ends (setError encoding err pError) s (fun _ t => Kept buffer s t ∧ t.error ≠ none)
      (Excused buffer encoding) :=
  (setError_ends encoding err pError inside).weaken
    (fun _ _ ends => ⟨⟨ends.1, ends.2.2⟩, ends.2.1⟩)
    fun _ fault => by
      obtain ⟨rfl, utf8, stuck⟩ := fault
      exact stuck_excused stuck utf8

/-- What a Parse function comes to: it moves on, and what it gives is accepted unless there is
    an error. -/
def Read {α : Type} (buffer p : Chars) (accepted : α × Ptr → Prop) (s : Parsing) (a : α × Ptr)
    (t : Parsing) : Prop := Kept buffer s t ∧ Behind p a.2 ∧ (t.error = none → accepted a)

theorem read_after {α : Type} {p : Chars} {accepted : α × Ptr → Prop} {t : Parsing}
    {x : Reading (α × Ptr)} {fault : Fault → Prop} (kept : Kept buffer s t)
    (ends : Ends x t (Read buffer p accepted t) fault) :
    Ends x t (Read buffer p accepted s) fault :=
  ends.imp fun _ _ read => ⟨kept.trans read.1, read.2⟩

theorem read_fails {α : Type} {value : α} {accepted : α × Ptr → Prop} {encoding : TiXmlEncoding}
    (err : TiXmlError) (pError : Ptr) (p : Chars) (inside : s.stamp <:+ buffer) :
    Ends (do setError encoding err pError; return (value, none)) s (Read buffer p accepted s)
      (Excused buffer encoding) :=
  (error_kept encoding err pError inside).andThen fun _ _ ends =>
    ends_pure ⟨ends.1, behind_none p, fun none => absurd none ends.2⟩

end Steps

theorem start_isNameChar : ∀ c, isNameStart c = true → isNameChar c = true :=
  HexText.forall_bytes (by decide +kernel)

theorem readName_spec {p : Ptr} {name r : Chars} (read : readName p = (name, some r)) :
    IsName name ∧ ∃ q, p = some q ∧ Behind q (some r) := by
  unfold readName at read
  split at read
  · rename_i c rest
    split at read
    · rename_i start
      obtain ⟨rfl, left⟩ := Prod.mk.inj read
      obtain rfl := Option.some.inj left
      have first := start_isNameChar c start
      refine ⟨⟨⟨c, rest.takeWhile isNameChar, by simp [first], start⟩,
        fun d member => List.mem_takeWhile_imp member⟩, _, rfl, ?_⟩
      rw [List.dropWhile_cons_of_pos first]
      exact behind_suffix (List.dropWhile_suffix _)
    · simp at read
  · simp at read

section Attributes

variable {buffer : Chars} {encoding : TiXmlEncoding}

theorem bareValue_suffix (p : Chars) : (bareValue p).2 <:+ p := by
  rw [bareValue, List.span_eq_takeWhile_dropWhile]
  exact List.dropWhile_suffix _

def Named (a : (Chars × Chars) × Ptr) : Prop := a.2 ≠ none → IsName a.1.1

theorem quoted_ends {p r name : Chars} {s : Parsing} (endTag : Chars) (within : Behind p (some r))
    (inside : p <:+ buffer) (stamp : s.stamp <:+ buffer) (good : IsName name) :
    Ends (do
      let (value, q) ← readText encoding false endTag r
      return ((name, value), q) : Reading ((Chars × Chars) × Ptr)) s (Read buffer p Named s)
      (Excused buffer encoding) := by
  have suffix := (within r rfl).1.trans inside
  refine ends_lift (fun a read => ?_) fun e fault => readText_fault suffix fault
  obtain ⟨value, q⟩ := a
  refine ends_pure ⟨⟨stamp, fun _ => rfl⟩, ?_, fun _ _ => good⟩
  intro rest ends
  obtain rfl : q = some rest := ends
  obtain ⟨-, start, before, -, rfl⟩ := readText_rest suffix read
  have short := (within r rfl).2
  have behind := (List.drop_suffix endTag.length start).trans before
  exact ⟨behind.trans (within r rfl).1, by have := behind.length_le; omega⟩

theorem attribute_fails {document : Bool} {a : Chars × Chars} {s : Parsing} (pError : Ptr)
    (p : Chars) (stamp : s.stamp <:+ buffer) :
    Ends (do attributeError document encoding pError; return (a, none)) s (Read buffer p Named s)
      (Excused buffer encoding) := by
  cases document with
  | true => exact read_fails .READING_ATTRIBUTES pError p stamp
  | false => exact ends_pure ⟨⟨stamp, fun _ => rfl⟩, behind_none p, fun _ some => absurd rfl some⟩

theorem attributeParse_ends (document : Bool) {p : Chars} {s : Parsing} (inside : p <:+ buffer)
    (stamp : s.stamp <:+ buffer) :
    Ends (attributeParse document encoding (some p)) s (Read buffer p Named s)
      (Excused buffer encoding) := by
  unfold attributeParse
  split
  · exact ends_pure ⟨⟨stamp, fun _ => rfl⟩, behind_none p, fun _ some => absurd rfl some⟩
  · exact ends_pure ⟨⟨stamp, fun _ => rfl⟩, behind_none p, fun _ some => absurd rfl some⟩
  · rename_i q _ skipped
    have suffix := skipWhiteSpace_some skipped
    refine (stamp_kept encoding q stamp).andThen fun _ t kept => ?_
    refine read_after kept ?_
    rcases read : readName (some q) with ⟨name, r⟩
    simp only
    split
    · exact attribute_fails (some q) p kept.1
    · exact attribute_fails (some q) p kept.1
    · rename_i r _
      obtain ⟨good, start, same, named⟩ := readName_spec read
      obtain rfl := Option.some.inj same
      have named := named.longer suffix
      split
      · rename_i r' equals
        have value : Behind p (some r') := named.shorter
          ((List.suffix_cons 61 r').trans (skipWhiteSpace_some equals))
        split
        · rename_i rest quote
          exact quoted_ends [39] (value.shorter ((List.suffix_cons 39 rest).trans
            (skipWhiteSpace_some quote))) inside kept.1 good
        · rename_i rest quote
          exact quoted_ends [34] (value.shorter ((List.suffix_cons 34 rest).trans
            (skipWhiteSpace_some quote))) inside kept.1 good
        · rename_i c rest _ _ bare
          have left := value.shorter ((bareValue_suffix (c :: rest)).trans
            (skipWhiteSpace_some bare))
          rcases read : bareValue (c :: rest) with ⟨text, q⟩
          rw [read] at left
          simp only
          split
          · exact attribute_fails _ p kept.1
          · exact attribute_fails _ p kept.1
          · exact ends_pure ⟨⟨kept.1, fun _ => rfl⟩, left, fun _ _ => good⟩
        · exact attribute_fails _ p kept.1
      · exact attribute_fails _ p kept.1

end Attributes

section Leaves

variable {buffer : Chars} {encoding : TiXmlEncoding}

theorem tagLoop_prefix (p tag : Chars) : tagLoop (· == ·) p tag = true ↔ tag <+: p := by
  induction tag generalizing p with
  | nil => simp [tagLoop]
  | cons t tag ih =>
    cases p with
    | nil => simp [tagLoop]
    | cons q p => simp [tagLoop, ih, List.cons_prefix_cons, @eq_comm _ q t]

theorem stringEqual_starts (p tag : Chars) :
    stringEqual p tag false = true ↔ p ≠ [] ∧ tag <+: p := by
  simp [stringEqual, ← tagLoop_prefix]

theorem upTo_spec (tag : Chars) (p : Chars) (long : tag ≠ []) :
    (upTo tag p).1 ++ (upTo tag p).2 = p ∧ ¬ tag <:+: (upTo tag p).1 := by
  induction p with
  | nil => simp [upTo, long]
  | cons c p ih =>
    rw [upTo]
    split
    · simp [long]
    · rename_i other
      refine ⟨by simp [ih.1], fun found => ?_⟩
      rcases List.infix_cons_iff.mp found with here | later
      · apply other
        rw [stringEqual_starts]
        refine ⟨by simp, here.trans ?_⟩
        conv_rhs => rw [← ih.1]
        exact List.prefix_append (c :: (upTo tag p).1) (upTo tag p).2
      · exact ih.2 later

theorem upTo_suffix (tag p : Chars) (long : tag ≠ []) : (upTo tag p).2 <:+ p := by
  have split := (upTo_spec tag p long).1
  conv_rhs => rw [← split]
  exact List.suffix_append _ _

theorem drop_behind {p : Chars} (n : Nat) (started : p ≠ []) (positive : 0 < n) :
    Behind p (some (p.drop n)) := by
  obtain ⟨c, p, rfl⟩ := List.exists_cons_of_ne_nil started
  obtain ⟨m, rfl⟩ : ∃ m, n = m + 1 := ⟨n - 1, by omega⟩
  exact behind_suffix (List.drop_suffix m p)

theorem commentParse_ends {p : Chars} {s : Parsing} (stamp : s.stamp <:+ buffer) :
    Ends (commentParse encoding p) s (Read buffer p (fun a => Marked a.1) s)
      (Excused buffer encoding) := by
  unfold commentParse
  split
  · exact read_fails .PARSING_COMMENT none p stamp
  · rename_i q skipped
    refine (stamp_kept encoding q stamp).andThen fun _ t kept => ?_
    refine read_after kept ?_
    split
    · exact read_fails .PARSING_COMMENT (some q) p kept.1
    · rename_i start
      have started : q ≠ [] := ((stringEqual_starts q commentStart).mp (by simpa using start)).1
      have behind := (drop_behind 4 started (by omega)).longer (skipWhiteSpace_some skipped)
      refine ends_pure ⟨⟨kept.1, fun _ => rfl⟩, ?_, fun _ => ⟨.comment
        (upTo_spec commentEnd _ (by simp [commentEnd])).2, rfl⟩⟩
      exact behind.shorter ((List.drop_suffix _ _).trans
        (upTo_suffix commentEnd _ (by simp [commentEnd])))

theorem unknownParse_ends {p : Chars} {s : Parsing} (stamp : s.stamp <:+ buffer) :
    Ends (unknownParse encoding p) s (Read buffer p (fun a => Marked a.1) s)
      (Excused buffer encoding) := by
  unfold unknownParse
  split
  · exact read_fails .PARSING_UNKNOWN none p stamp
  · rename_i q skipped
    refine (stamp_kept encoding q stamp).andThen fun _ t kept => ?_
    refine read_after kept ?_
    split
    · rename_i r
      have behind : Behind p (some r) := Behind.longer (behind_suffix (List.suffix_refl r))
        (skipWhiteSpace_some skipped)
      simp only [List.span_eq_takeWhile_dropWhile]
      refine ends_pure ⟨⟨kept.1, fun _ => rfl⟩, ?_, fun _ => ⟨.unknown fun member => ?_, rfl⟩⟩
      · exact behind.shorter ((List.drop_suffix _ _).trans (List.dropWhile_suffix _))
      · simpa using List.mem_takeWhile_imp member
    · exact read_fails .PARSING_UNKNOWN _ p kept.1

theorem cdataParse_ends {p : Chars} {s : Parsing} (inside : p <:+ buffer)
    (stamp : s.stamp <:+ buffer) :
    Ends (textParse encoding true p) s (Read buffer p (fun a => Marked a.1) s)
      (Excused buffer encoding) := by
  unfold textParse
  refine (stamp_kept encoding p stamp).andThen fun _ t kept => ?_
  refine read_after kept ?_
  rw [if_pos (by simp)]
  split
  · exact read_fails .PARSING_CDATA (some p) p kept.1
  · rename_i start
    have started : p ≠ [] := ((stringEqual_starts p cdataStart).mp (by simpa using start)).1
    have long : cdataEnd ≠ [] := by simp [cdataEnd]
    have behind := (drop_behind cdataStart.length started (by decide)).shorter
      (upTo_suffix cdataEnd _ long)
    refine ends_lift (fun a read => ?_) fun e fault => readText_fault (behind.inside inside) fault
    obtain ⟨text, q⟩ := a
    refine ends_pure ⟨⟨kept.1, fun _ => rfl⟩, ?_,
      fun _ => ⟨.cdata (upTo_spec cdataEnd _ long).2, rfl⟩⟩
    intro r ends
    obtain rfl : q = some r := ends
    obtain ⟨-, tag, before, -, rfl⟩ := readText_rest (behind.inside inside) read
    exact behind.shorter ((List.drop_suffix _ _).trans before) _ rfl

theorem textParse_ends {p : Chars} {s : Parsing} (inside : p <:+ buffer)
    (stamp : s.stamp <:+ buffer) (outside : p.head? ≠ some 60) :
    Ends (textParse encoding false p) s
      (Read buffer p (fun a => ∃ value, a.1 = .text value false ∧
        ∀ r, a.2 = some r → r.head? = some 60) s) (Excused buffer encoding) := by
  unfold textParse
  refine (stamp_kept encoding p stamp).andThen fun _ t kept => ?_
  refine read_after kept ?_
  have plain : stringEqual p cdataStart false = false := by
    rw [Bool.eq_false_iff, ne_eq, stringEqual_starts]
    rintro ⟨-, rest, rfl⟩
    exact outside rfl
  rw [plain, if_neg (by simp)]
  refine ends_lift (fun a read => ?_) fun e fault => readText_fault inside fault
  obtain ⟨value, q⟩ := a
  simp only
  split
  · rename_i c r
    refine ends_pure ⟨⟨kept.1, fun _ => rfl⟩, ?_, fun _ => ⟨value, rfl, ?_⟩⟩
    · obtain ⟨-, tag, before, equal, left⟩ := readText_rest inside read
      obtain ⟨-, rest, rfl⟩ := (stringEqual_starts tag [60]).mp equal
      obtain rfl : c :: r = rest := left
      have other : 60 :: c :: r ≠ p := by
        rintro rfl
        exact outside rfl
      intro r' ends
      obtain rfl := Option.some.inj ends
      refine ⟨before, Nat.lt_of_le_of_ne before.length_le fun same => ?_⟩
      exact other (before.eq_of_length same)
    · rintro r' ends
      obtain rfl := Option.some.inj ends
      rfl
  · exact ends_pure ⟨⟨kept.1, fun _ => rfl⟩, behind_none p, fun _ => ⟨value, rfl, by simp⟩⟩

theorem skipLoop_head {p r : Chars} {c : UInt8} (skipped : skipLoop encoding p = c :: r) :
    isWhiteSpace c = false := by
  induction p using skipLoop.induct encoding with
  | case1 a b d rest mark ih =>
    rw [skipLoop, if_pos mark] at skipped
    exact ih skipped
  | case2 a b d rest mark white ih =>
    rw [skipLoop, if_neg mark, if_pos white] at skipped
    exact ih skipped
  | case3 a b d rest mark white =>
    rw [skipLoop, if_neg mark, if_neg white] at skipped
    obtain ⟨rfl, -⟩ := List.cons.inj skipped
    simpa using white
  | case4 a rest short white ih =>
    rw [skipLoop.eq_2 _ _ _ short, if_pos white] at skipped
    exact ih skipped
  | case5 a rest short white =>
    rw [skipLoop.eq_2 _ _ _ short, if_neg white] at skipped
    obtain ⟨rfl, -⟩ := List.cons.inj skipped
    simpa using white
  | case6 => simp [skipLoop] at skipped

def Entries (buffer first : Chars) (s : Parsing) (a : (Chars × Chars × Chars) × Ptr)
    (t : Parsing) : Prop := Kept buffer s t ∧ ∀ r, a.2 = some r → r <:+ first

theorem entry_ends {first q : Chars} {s : Parsing} {fuel : Nat}
    {next : Chars → Chars → Reading ((Chars × Chars × Chars) × Ptr)}
    (within : q <:+ first) (inside : first <:+ buffer) (stamp : s.stamp <:+ buffer)
    (enough : 0 < fuel ∧ q.length ≤ fuel)
    (later : ∀ r value t, r <:+ first → r.length < fuel → t.stamp <:+ buffer →
      Ends (next r value) t (Entries buffer first t) (Excused buffer encoding)) :
    Ends (do
      let (attrib, p) ← attributeParse false encoding (some q)
      next (p.getD []) (cStr attrib.2)) s (Entries buffer first s) (Excused buffer encoding) := by
  refine (attributeParse_ends false (within.trans inside) stamp).andThen fun a t read => ?_
  obtain ⟨attrib, p⟩ := a
  obtain ⟨kept, behind, -⟩ := read
  have ends : Ends (next (p.getD []) (cStr attrib.2)) t (Entries buffer first t)
      (Excused buffer encoding) := by
    cases p with
    | none => exact later [] (cStr attrib.2) t List.nil_suffix enough.1 kept.1
    | some r =>
      obtain ⟨suffix, short⟩ := behind r rfl
      exact later r (cStr attrib.2) t (suffix.trans within) (by omega) kept.1
  exact ends.imp fun _ _ left => ⟨kept.trans left.1, left.2⟩

theorem passed_over {c : UInt8} (p : Chars) (open_ : c ≠ 62) :
    ((skipLoop encoding (c :: p)).dropWhile fun c => c != 62 && !isWhiteSpace c).length <
      (c :: p).length := by
  have suffix := skipLoop_suffix encoding (c :: p)
  have dropped := (List.dropWhile_suffix (l := skipLoop encoding (c :: p))
    fun c => c != 62 && !isWhiteSpace c).length_le
  rcases Nat.lt_or_ge (skipLoop encoding (c :: p)).length (c :: p).length with moved | stayed
  · omega
  · have same : skipLoop encoding (c :: p) = c :: p := suffix.eq_of_length_le stayed
    have word := skipLoop_head same
    rw [same, List.dropWhile_cons_of_pos (by simp [open_, word])]
    have short := (List.dropWhile_suffix (l := p) fun c => c != 62 && !isWhiteSpace c).length_le
    rw [List.length_cons]
    omega

theorem declarationLoop_ends {first : Chars} (inside : first <:+ buffer) :
    ∀ fuel p entries (s : Parsing), p <:+ first → p.length < fuel → s.stamp <:+ buffer →
    Ends (declarationLoop encoding fuel p entries) s (Entries buffer first s)
      (Excused buffer encoding) := by
  intro fuel
  induction fuel with
  | zero => exact fun p entries s _ enough => absurd enough (by omega)
  | succ fuel ih =>
    rintro p ⟨version, enc, standalone⟩ s within enough stamp
    unfold declarationLoop
    split
    · exact ends_pure ⟨⟨stamp, fun _ => rfl⟩, by simp⟩
    · rename_i p
      refine ends_pure ⟨⟨stamp, fun _ => rfl⟩, fun r ends => ?_⟩
      obtain rfl := Option.some.inj ends
      exact (List.suffix_cons 62 p).trans within
    · rename_i c p open_
      rw [List.length_cons] at enough
      have suffix := skipLoop_suffix encoding (c :: p)
      have shorter := suffix.length_le
      rw [List.length_cons] at shorter
      have fits : 0 < fuel ∧ (skipLoop encoding (c :: p)).length ≤ fuel := by omega
      have before := suffix.trans within
      simp only
      split
      · exact entry_ends before inside stamp fits fun r value t => ih r (value, enc, standalone) t
      · split
        · exact entry_ends before inside stamp fits fun r value t =>
            ih r (version, value, standalone) t
        · split
          · exact entry_ends before inside stamp fits fun r value t => ih r (version, enc, value) t
          · refine ih _ _ s ((List.dropWhile_suffix _).trans before) ?_ stamp
            exact Nat.lt_of_lt_of_le (passed_over p open_) (by rw [List.length_cons]; omega)

theorem declarationParse_ends {p : Chars} {s : Parsing} (inside : p <:+ buffer)
    (stamp : s.stamp <:+ buffer) :
    Ends (declarationParse encoding p) s (Read buffer p (fun a => Marked a.1) s)
      (Excused buffer encoding) := by
  unfold declarationParse
  split
  · exact read_fails .PARSING_DECLARATION none p stamp
  · rename_i q skipped
    split
    · exact read_fails .PARSING_DECLARATION none p stamp
    · rename_i start
      have started : q ≠ [] := by
        rintro rfl
        exact start (by simp [stringEqual])
      have behind := (drop_behind xmlHeader.length started (by decide)).longer
        (skipWhiteSpace_some skipped)
      refine (stamp_kept encoding q stamp).andThen fun _ t kept => ?_
      refine read_after kept ?_
      refine (declarationLoop_ends (behind.inside inside) _ _ _ t (List.suffix_refl _)
        (by omega) kept.1).andThen fun a u left => ?_
      refine ends_pure ⟨left.1, fun r ends => ?_, fun _ => ⟨.declaration _ _ _, rfl⟩⟩
      exact behind.shorter (left.2 r ends) r rfl

end Leaves

section Elements

variable {buffer : Chars} {encoding : TiXmlEncoding}

def TagEnd.pointer : TagEnd → Ptr
  | .closed p => p
  | .opened p => some p

/-- The attributes read so far are good unless there is an error, and there is one when the tag
    does not end. -/
def AttributesRead (buffer p : Chars) (s : Parsing) (a : List (Chars × Chars) × TagEnd)
    (t : Parsing) : Prop :=
  Kept buffer s t ∧ Behind p (TagEnd.pointer a.2) ∧ (t.error = none → GoodAttributes a.1) ∧
    (a.2 = .closed none → t.error ≠ none)

theorem attributes_fail {s : Parsing} {attributes : List (Chars × Chars)} (err : TiXmlError)
    (pError : Ptr) (p : Chars) (stamp : s.stamp <:+ buffer) :
    Ends (do setError encoding err pError; return (attributes, TagEnd.closed none)) s
      (AttributesRead buffer p s) (Excused buffer encoding) :=
  (error_kept encoding err pError stamp).andThen fun _ _ ends =>
    ends_pure ⟨ends.1, behind_none p, fun none => absurd none ends.2, fun _ => ends.2⟩

theorem GoodAttributes.add {attributes : List (Chars × Chars)} {a : Chars × Chars}
    (good : GoodAttributes attributes) (name : IsName a.1)
    (fresh : ¬ (attributes.any fun b => b.1 == a.1) = true) :
    GoodAttributes (attributes ++ [a]) := by
  refine ⟨?_, ?_⟩
  · intro b member
    rcases List.mem_append.mp member with before | last
    · exact good.1 b before
    · rw [List.mem_singleton.mp last]
      exact name
  · rw [List.map_append, List.nodup_append]
    refine ⟨good.2, by simp, ?_⟩
    rintro x before y last rfl
    obtain ⟨b, among, same⟩ := List.mem_map.mp before
    obtain rfl : x = a.1 := by simpa using last
    exact fresh (List.any_eq_true.mpr ⟨b, among, by simp [same]⟩)

theorem attributesLoop_ends : ∀ fuel p attributes (s : Parsing), p <:+ buffer →
    p.length < fuel → p ≠ [] → s.stamp <:+ buffer →
    (s.error = none → GoodAttributes attributes) →
    Ends (attributesLoop encoding fuel p attributes) s (AttributesRead buffer p s)
      (Excused buffer encoding) := by
  intro fuel
  induction fuel with
  | zero => exact fun p attributes s _ enough => absurd enough (by omega)
  | succ fuel ih =>
    intro p attributes s inside enough started stamp good
    unfold attributesLoop
    split
    · exact attributes_fail .READING_ATTRIBUTES (some p) p stamp
    · exact attributes_fail .READING_ATTRIBUTES (some p) p stamp
    · rename_i r skipped
      have behind : Behind p (some r) :=
        (behind_suffix (List.suffix_refl r)).longer (skipWhiteSpace_some skipped)
      split
      · rename_i r'
        exact ends_pure ⟨⟨stamp, fun _ => rfl⟩, behind.shorter (List.suffix_cons 62 r'), good,
          by simp⟩
      · exact attributes_fail .PARSING_EMPTY (some r) p stamp
    · rename_i r skipped
      have behind : Behind p (some r) :=
        (behind_suffix (List.suffix_refl r)).longer (skipWhiteSpace_some skipped)
      exact ends_pure ⟨⟨stamp, fun _ => rfl⟩, behind, good, by simp⟩
    · rename_i q _ _ _ skipped
      have suffix := skipWhiteSpace_some skipped
      refine (attributeParse_ends true (suffix.trans inside) stamp).andThen fun a t read => ?_
      obtain ⟨attrib, r⟩ := a
      obtain ⟨kept, behind, named⟩ := read
      suffices rest : Ends _ t (AttributesRead buffer p t) (Excused buffer encoding) from
        rest.imp fun _ _ read => ⟨kept.trans read.1, read.2⟩
      simp only
      split
      · exact attributes_fail .PARSING_ELEMENT (some q) p kept.1
      · exact attributes_fail .PARSING_ELEMENT (some q) p kept.1
      · rename_i r more
        obtain ⟨within, short⟩ := behind r rfl
        split
        · exact attributes_fail .PARSING_ELEMENT (some q) p kept.1
        · rename_i fresh
          have fits := suffix.length_le
          refine (ih r _ t ((within.trans suffix).trans inside) (by omega) more kept.1
            fun quiet => ?_).imp fun a u read => ?_
          · exact (good (kept.quiet quiet)).add (named quiet (by simp)) fresh
          · exact ⟨read.1, read.2.1.longer (within.trans suffix), read.2.2⟩

/-- The children that ReadValue links: well formed and apart, the first one no text when the
    content begins with a tag. -/
def Children (encoding : TiXmlEncoding) (p : Chars) (children : List TiXmlNode) : Prop :=
  (∀ c ∈ children, Accepted c) ∧ Apart children ∧
    ((skipLoop encoding p).head? = some 60 → ∀ c ∈ children.head?, isPlainText c = false)

def ValueRead (buffer : Chars) (encoding : TiXmlEncoding) (p : Chars) (s : Parsing)
    (a : List TiXmlNode × Ptr) (t : Parsing) : Prop :=
  Kept buffer s t ∧ (∀ r, a.2 = some r → r <:+ p) ∧ (t.error = none → Children encoding p a.1)

theorem children_nil (p : Chars) : Children encoding p [] := by simp [Children, Apart]

theorem elementParse_ends {p : Chars} {s : Parsing}
    {readValue : Chars → Reading (List TiXmlNode × Ptr)} (inside : p <:+ buffer)
    (stamp : s.stamp <:+ buffer)
    (content : ∀ r (t : Parsing), r <:+ p → r.length < p.length → t.stamp <:+ buffer →
      Ends (readValue r) t (ValueRead buffer encoding r t) (Excused buffer encoding)) :
    Ends (elementParse readValue encoding p) s (Read buffer p (fun a => Marked a.1) s)
      (Excused buffer encoding) := by
  unfold elementParse
  split
  · exact read_fails .PARSING_ELEMENT none p stamp
  · exact read_fails .PARSING_ELEMENT none p stamp
  · rename_i c q skipped
    have suffix := skipWhiteSpace_some skipped
    refine (stamp_kept encoding (c :: q) stamp).andThen fun _ t kept => ?_
    refine read_after kept ?_
    split
    · exact read_fails .PARSING_ELEMENT _ p kept.1
    · rcases read : readName (skipWhiteSpace encoding (some q)) with ⟨value, r⟩
      simp only [read]
      split
      · exact read_fails .FAILED_TO_READ_ELEMENT_NAME _ p kept.1
      · exact read_fails .FAILED_TO_READ_ELEMENT_NAME _ p kept.1
      · rename_i r more
        obtain ⟨name, start, skip, named⟩ := readName_spec read
        have behind : Behind p (some r) := ((named.longer (skipWhiteSpace_some skip)).longer
          (List.suffix_cons c q)).longer suffix
        refine (attributesLoop_ends _ r [] t (behind.inside inside) (by omega) more kept.1
          fun _ => ⟨by simp, by simp⟩).andThen fun a u tag => ?_
        obtain ⟨attributes, tagEnd⟩ := a
        obtain ⟨kept', left, good, done⟩ := tag
        refine read_after kept' ?_
        simp only
        split
        · rename_i q'
          refine ends_pure ⟨⟨kept'.1, fun _ => rfl⟩, left.longer (behind r rfl).1, fun quiet => ?_⟩
          exact ⟨.element name (good quiet) (by simp) (by simp [Apart]), rfl⟩
        · rename_i inner
          have within : Behind p (some inner) := left.longer (behind r rfl).1
          obtain ⟨before, short⟩ := within inner rfl
          refine (content inner u before short kept'.1).andThen fun a v value => ?_
          obtain ⟨children, q'⟩ := a
          obtain ⟨kept'', rest, accepted⟩ := value
          refine read_after kept'' ?_
          simp only
          split
          · exact read_fails .READING_END_TAG _ p kept''.1
          · exact read_fails .READING_END_TAG _ p kept''.1
          · rename_i q' _
            split
            · split
              · rename_i ends closed
                refine ends_pure ⟨⟨kept''.1, fun _ => rfl⟩, ?_, fun quiet => ?_⟩
                · exact within.shorter ((List.suffix_cons 62 ends).trans
                    ((skipWhiteSpace_some closed).trans
                      ((List.drop_suffix _ _).trans (rest q' rfl))))
                · obtain ⟨each, apart, -⟩ := accepted quiet
                  exact ⟨.element name (good (kept''.quiet quiet)) each apart, rfl⟩
              · exact read_fails .READING_END_TAG _ p kept''.1
            · exact read_fails .READING_END_TAG _ p kept''.1

theorem nodeParse_ends {p : Chars} {s : Parsing}
    {readValue : Chars → Reading (List TiXmlNode × Ptr)} (kind : Kind) (inside : p <:+ buffer)
    (stamp : s.stamp <:+ buffer)
    (content : ∀ r (t : Parsing), r <:+ p → r.length < p.length → t.stamp <:+ buffer →
      Ends (readValue r) t (ValueRead buffer encoding r t) (Excused buffer encoding)) :
    Ends (nodeParse readValue encoding kind p) s (Read buffer p (fun a => Marked a.1) s)
      (Excused buffer encoding) := by
  cases kind with
  | declaration => exact declarationParse_ends inside stamp
  | comment => exact commentParse_ends stamp
  | cdata => exact cdataParse_ends inside stamp
  | unknown => exact unknownParse_ends stamp
  | element => exact elementParse_ends inside stamp content

theorem value_fails {s : Parsing} {linked : List TiXmlNode} (p : Chars)
    (stamp : s.stamp <:+ buffer) :
    Ends (do setError encoding .READING_ELEMENT_VALUE none; return (linked, none)) s
      (ValueRead buffer encoding p s) (Excused buffer encoding) :=
  (error_kept encoding .READING_ELEMENT_VALUE none stamp).andThen fun _ _ ends =>
    ends_pure ⟨ends.1, by simp, fun none => absurd none ends.2⟩

theorem readOn_ends {p : Chars} {q : Ptr} {s : Parsing} {linked : List TiXmlNode}
    {readValue : Chars → Reading (List TiXmlNode × Ptr)} (behind : Behind p q)
    (stamp : s.stamp <:+ buffer)
    (content : ∀ r (t : Parsing), r <:+ p → r.length < p.length → t.stamp <:+ buffer →
      Ends (readValue r) t (ValueRead buffer encoding r t) (Excused buffer encoding))
    (joins : s.error = none → ∀ r more, q = some r → Children encoding r more →
      Children encoding p (linked ++ more)) :
    Ends (readOn readValue encoding linked q) s (ValueRead buffer encoding p s)
      (Excused buffer encoding) := by
  cases q with
  | none => exact value_fails p stamp
  | some r =>
    obtain ⟨within, short⟩ := behind r rfl
    refine (content r s within short stamp).andThen fun a t read => ?_
    obtain ⟨more, q⟩ := a
    obtain ⟨kept, rest, children⟩ := read
    exact ends_pure ⟨kept, fun r' ends => (rest r' ends).trans within,
      fun quiet => joins (kept.quiet quiet) r more rfl (children quiet)⟩

theorem apart_cons {node : TiXmlNode} {more : List TiXmlNode} (apart : Apart more)
    (other : isPlainText node = false ∨ ∀ c ∈ more.head?, isPlainText c = false) :
    Apart (node :: more) := by
  cases more with
  | nil => simp [Apart]
  | cons c more =>
    refine List.isChain_cons_cons.mpr ⟨?_, apart⟩
    rintro ⟨first, second⟩
    rcases other with plain | plain
    · exact absurd first (by simp [plain])
    · exact absurd second (by simp [plain c (by simp)])

theorem marked_joins {p r : Chars} {node : TiXmlNode} {more : List TiXmlNode}
    (marked : Marked node) (children : Children encoding r more) :
    Children encoding p ([node] ++ more) := by
  obtain ⟨each, apart, -⟩ := children
  refine ⟨?_, apart_cons apart (.inl marked.2), ?_⟩
  · intro c member
    rcases List.mem_cons.mp member with rfl | later
    · exact marked.1
    · exact each c later
  · intro _ c head
    obtain rfl : node = c := by simpa using head
    exact marked.2

theorem text_joins {p r : Chars} {value : Chars} {more : List TiXmlNode}
    (words : (skipLoop encoding p).head? ≠ some 60) (tag : r.head? = some 60)
    (children : Children encoding r more) :
    Children encoding p ((if isBlank (.text value false) then [] else [.text value false]) ++
      more) := by
  obtain ⟨each, apart, first⟩ := children
  have stays : (skipLoop encoding r).head? = some 60 := by
    obtain ⟨r, rfl⟩ := List.head?_eq_some_iff.mp tag
    rw [TinyXmlCodec.skipLoop_tag]
    rfl
  split
  · exact ⟨each, apart, fun opens => absurd opens words⟩
  · rename_i some
    refine ⟨?_, apart_cons apart (.inr (first stays)), fun opens => absurd opens words⟩
    intro c member
    rcases List.mem_cons.mp member with rfl | later
    · exact .text some
    · exact each c later

theorem readValue_ends : ∀ fuel p (s : Parsing), p <:+ buffer → p.length < fuel →
    s.stamp <:+ buffer →
    Ends (readValue encoding fuel p) s (ValueRead buffer encoding p s)
      (Excused buffer encoding) := by
  intro fuel
  induction fuel with
  | zero => exact fun p s _ enough => absurd enough (by omega)
  | succ fuel ih =>
    intro p s inside enough stamp
    have content : ∀ r (t : Parsing), r <:+ p → r.length < p.length → t.stamp <:+ buffer →
        Ends (readValue encoding fuel r) t (ValueRead buffer encoding r t)
          (Excused buffer encoding) :=
      fun r t within short kept => ih r t (within.trans inside) (by omega) kept
    unfold readValue
    split
    · exact value_fails p stamp
    · rename_i q skipped
      have suffix := skipWhiteSpace_some skipped
      have start := skipWhiteSpace_loop skipped
      split
      · refine ends_pure ⟨⟨stamp, fun _ => rfl⟩, fun r ends => ?_, fun _ => children_nil p⟩
        obtain rfl := Option.some.inj ends
        exact suffix
      · split
        · rename_i outside
          refine (textParse_ends (suffix.trans inside) stamp outside).andThen fun a t read => ?_
          obtain ⟨node, r⟩ := a
          obtain ⟨kept, behind, text⟩ := read
          refine (readOn_ends (behind.longer suffix) kept.1 content ?_).imp
            fun _ _ rest => ⟨kept.trans rest.1, rest.2⟩
          intro quiet r' more ends children
          obtain ⟨value, rfl, tag⟩ := text quiet
          exact text_joins (by rw [start]; exact outside) (tag r' ends) children
        · split
          · exact ends_pure ⟨⟨stamp, fun _ => rfl⟩, by simp, fun _ => children_nil p⟩
          · rename_i kind _
            refine (nodeParse_ends kind (suffix.trans inside) stamp fun r t within short =>
              content r t (within.trans suffix)
                (Nat.lt_of_lt_of_le short suffix.length_le)).andThen fun a t read => ?_
            obtain ⟨node, r⟩ := a
            obtain ⟨kept, behind, marked⟩ := read
            refine (readOn_ends (behind.longer suffix) kept.1 content ?_).imp
              fun _ _ rest => ⟨kept.trans rest.1, rest.2⟩
            exact fun quiet r' more _ children => marked_joins (marked quiet) children

end Elements

section Documents

variable {buffer : Chars}

def Truncated (buffer : Chars) (encoding : TiXmlEncoding) (e : Fault) : Prop :=
  e ≠ .outOfFuel ∧ ¬ Complete buffer ∧ encoding ≠ .LEGACY

theorem excused_truncated {encoding : TiXmlEncoding} {e : Fault}
    (excused : Excused buffer encoding e) : Truncated buffer encoding e :=
  ⟨excused.1, excused.2.1, by rw [excused.2.2]; decide⟩

theorem encodingAfter_legacy {encoding : TiXmlEncoding} {node : TiXmlNode}
    (other : encodingAfter encoding node ≠ .LEGACY) : encoding ≠ .LEGACY := by
  rintro rfl
  exact other (by cases node <;> rfl)

def DocumentRead (buffer : Chars) (s : Parsing) (a : List TiXmlNode × TiXmlEncoding × Ptr)
    (t : Parsing) : Prop :=
  Kept buffer s t ∧ (t.error = none → ∀ c ∈ a.1, Marked c)

theorem documentLoop_ends : ∀ fuel encoding p (s : Parsing), p <:+ buffer → p.length < fuel →
    s.stamp <:+ buffer →
    Ends (documentLoop fuel encoding p) s (DocumentRead buffer s) (Truncated buffer encoding) := by
  intro fuel
  induction fuel with
  | zero => exact fun encoding p s _ enough => absurd enough (by omega)
  | succ fuel ih =>
    intro encoding p s inside enough stamp
    unfold documentLoop
    split
    · exact ends_pure ⟨⟨stamp, fun _ => rfl⟩, by simp⟩
    · split
      · exact ends_pure ⟨⟨stamp, fun _ => rfl⟩, by simp⟩
      · rename_i kind _
        refine ((nodeParse_ends kind inside stamp fun r t within short kept =>
          readValue_ends _ r t (within.trans inside) (by omega) kept).weaken (fun _ _ read => read)
          fun _ => excused_truncated).andThen fun a t read => ?_
        obtain ⟨node, q⟩ := a
        obtain ⟨kept, behind, marked⟩ := read
        simp only
        split
        · refine ends_pure ⟨kept, fun quiet c member => ?_⟩
          rw [List.mem_singleton.mp member]
          exact marked quiet
        · rename_i r skipped
          obtain ⟨q, rfl⟩ : ∃ q', q = some q' := by
            cases q with
            | none => simp [skipWhiteSpace] at skipped
            | some q' => exact ⟨q', rfl⟩
          obtain ⟨within, short⟩ := behind q rfl
          have suffix := (skipWhiteSpace_some skipped)
          have fits := suffix.length_le
          refine ((ih (encodingAfter encoding node) r t ((suffix.trans within).trans inside)
            (by omega) kept.1).weaken (fun _ _ read => read) fun e fault =>
            ⟨fault.1, fault.2.1, encodingAfter_legacy fault.2.2⟩).andThen fun a u read => ?_
          obtain ⟨nodes, ends⟩ := a
          refine ends_pure ⟨kept.trans read.1, fun quiet c member => ?_⟩
          rcases List.mem_cons.mp member with rfl | later
          · exact marked (read.1.quiet quiet)
          · exact read.2 quiet c later

theorem setError_null (encoding : TiXmlEncoding) (err : TiXmlError) (s : Parsing) :
    ∃ t, setError encoding err none s = .ok (⟨⟩, t) ∧ t.error ≠ none := by
  cases already : s.error with
  | none => exact ⟨_, by simp [setError, already, get, getThe, MonadStateOf.get, StateT.get, bind,
      StateT.bind, Except.bind, pure, Except.pure, modify, modifyGet, MonadStateOf.modifyGet,
      StateT.modifyGet]; rfl, by simp⟩
  | some e => exact ⟨s, by simp [setError, already, get, getThe, MonadStateOf.get, StateT.get,
      bind, StateT.bind, Except.bind, pure, Except.pure]; rfl, by simp [already]⟩

/-- Every outcome of a parse. -/
theorem documentParse_outcomes (tabsize : Int) (encoding : TiXmlEncoding) (p : Chars) :
    (∃ d, documentParse tabsize encoding p = .ok d ∧
      (d.error = none → d.children ≠ [] ∧ ∀ c ∈ d.children, Marked c)) ∨
    ∃ e, documentParse tabsize encoding p = .error e ∧ Truncated p encoding e := by
  unfold documentParse
  by_cases empty : p = []
  · rw [if_pos empty]
    exact .inl ⟨_, rfl, fun quiet => absurd quiet (by simp [emptyDocument])⟩
  · rw [if_neg empty]
    simp only
    generalize known : (if encoding = .UNKNOWN ∧ [0xef, 0xbb, 0xbf] <+: p then TiXmlEncoding.UTF8
      else encoding) = enc
    set mark := decide (encoding = .UNKNOWN ∧ [0xef, 0xbb, 0xbf] <+: p)
    have same : enc ≠ .LEGACY → encoding ≠ .LEGACY := by
      rintro other rfl
      exact other (by rw [← known]; simp)
    have loop := @documentLoop_ends p ((skipLoop enc p).length + 1) enc (skipLoop enc p)
      ⟨p, tabsize, ⟨0, 0⟩, none⟩ (skipLoop_suffix enc p) (by omega) (List.suffix_refl p)
    unfold Ends at loop
    cases run : documentLoop ((skipLoop enc p).length + 1) enc (skipLoop enc p)
        ⟨p, tabsize, ⟨0, 0⟩, none⟩ with
    | error e =>
      rw [run] at loop
      exact .inr ⟨e, by simp [bind, Except.bind], loop.1, loop.2.1, same loop.2.2⟩
    | ok r =>
      obtain ⟨⟨children, enc', rest⟩, t⟩ := r
      rw [run] at loop
      by_cases none : children = []
      · obtain ⟨u, set, error⟩ := setError_null enc' .DOCUMENT_EMPTY t
        refine .inl ⟨⟨children, mark, u.error⟩, ?_, fun quiet => absurd quiet error⟩
        simp [bind, Except.bind, pure, Except.pure, none, set]
      · refine .inl ⟨⟨children, mark, t.error⟩, ?_, fun quiet => ⟨none, loop.2 quiet⟩⟩
        simp [bind, Except.bind, pure, Except.pure, none]

/-- Every parse ends. It reads behind the NUL or stays in place only on an input in which the
    NUL cuts a UTF-8 sequence off, and never in the legacy encoding. -/
theorem parse_ends (tabsize : Int) (encoding : TiXmlEncoding) (p : Chars) :
    (∃ d, documentParse tabsize encoding p = .ok d) ∨
      (¬ Complete p ∧ encoding ≠ .LEGACY ∧
        (documentParse tabsize encoding p = .error .overrun ∨
          documentParse tabsize encoding p = .error .endlessLoop)) := by
  rcases documentParse_outcomes tabsize encoding p with ⟨d, ends, -⟩ | ⟨e, fault, truncated⟩
  · exact .inl ⟨d, ends⟩
  · refine .inr ⟨truncated.2.1, truncated.2.2, ?_⟩
    cases e with
    | overrun => exact .inl fault
    | endlessLoop => exact .inr fault
    | outOfFuel => exact absurd rfl truncated.1

/- A mark cut off in front of the last character, and a lead byte that is the last one. -/
example : documentParse 4 .UNKNOWN [0xef, 0xbb, 0xbf, 60, 97, 0xef, 60] = .error .endlessLoop := by
  rfl

example : documentParse 4 .UTF8 [60, 97, 62, 0xf0] = .error .overrun := by rfl

/-- A document that is parsed without an error has a node, and all its nodes are well formed.
    No text stands outside its elements. -/
theorem accepted_is_well_formed {tabsize : Int} {encoding : TiXmlEncoding} {p : Chars}
    {d : TiXmlDocument} (parsed : documentParse tabsize encoding p = .ok d)
    (quiet : d.error = none) :
    d.children ≠ [] ∧ ∀ c ∈ d.children, Accepted c ∧ isPlainText c = false := by
  rcases documentParse_outcomes tabsize encoding p with ⟨d', ends, good⟩ | ⟨e, fault, -⟩
  · obtain rfl : d' = d := Except.ok.inj (ends.symm.trans parsed)
    exact good quiet
  · exact absurd (fault.symm.trans parsed) (by simp)

theorem nested_element_is_well_formed :
    (⟨[.element [97] [([98], [])] [.element [99] [] []]], false, none⟩ : TiXmlDocument).children ≠
        [] ∧
      ∀ c ∈ [TiXmlNode.element [97] [([98], [])] [.element [99] [] []]],
        Accepted c ∧ isPlainText c = false :=
  @accepted_is_well_formed 4 .UNKNOWN
    [60, 97, 32, 98, 61, 34, 34, 62, 60, 99, 47, 62, 60, 47, 97, 62]
    ⟨[.element [97] [([98], [])] [.element [99] [] []]], false, none⟩ rfl rfl

end Documents

end TinyXmlAccepted
