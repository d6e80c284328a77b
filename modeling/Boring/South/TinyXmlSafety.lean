import Boring.Library.Outcomes
import Boring.South.TinyXmlParser
import Mathlib.Data.List.Infix

/- No input makes the parser recurse without end, and only a UTF-8 sequence that the NUL cuts
   off makes it read behind the NUL or stay in place. What it accepts is well formed. -/
namespace TinyXmlSafety
open TinyXmlText TinyXmlTree TinyXmlParser Outcomes

section Scanning

/-- Every lead byte has its sequence in front of the NUL. -/
def Complete (p : Chars) : Prop :=
  ∀ c rest, (c :: rest) <:+ p → utf8ByteTable c ≤ rest.length + 1

def Excused (buffer : Chars) (encoding : TiXmlEncoding) (e : Fault) : Prop :=
  e ≠ .outOfFuel ∧ ¬ Complete buffer ∧ encoding = .UTF8

theorem skipLoop_suffix (encoding : TiXmlEncoding) (p : Chars) : skipLoop encoding p <:+ p := by
  induction p using skipLoop.induct encoding with
  | case1 a b c rest mark ih =>
    rw [skipLoop, if_pos mark]
    exact ih.trans (List.suffix_append [a, b, c] rest)
  | case2 a b c rest mark white ih =>
    rw [skipLoop, if_neg mark, if_pos white]
    exact ih.trans (List.suffix_cons a _)
  | case3 a b c rest mark white => rw [skipLoop, if_neg mark, if_neg white]
  | case4 a rest short white ih =>
    rw [skipLoop.eq_2 _ _ _ short, if_pos white]
    exact ih.trans (List.suffix_cons a _)
  | case5 a rest short white => rw [skipLoop.eq_2 _ _ _ short, if_neg white]
  | case6 => exact List.suffix_refl _

theorem skipWhiteSpace_loop {encoding : TiXmlEncoding} {p q : Chars}
    (skipped : skipWhiteSpace encoding (some p) = some q) : skipLoop encoding p = q := by
  cases p with
  | nil => simp [skipWhiteSpace] at skipped
  | cons c p => simpa [skipWhiteSpace] using skipped

theorem skipWhiteSpace_some {encoding : TiXmlEncoding} {p q : Chars}
    (skipped : skipWhiteSpace encoding (some p) = some q) : q <:+ p := by
  rw [← skipWhiteSpace_loop skipped]
  exact skipLoop_suffix encoding p

theorem skipWhiteSpace_none {encoding : TiXmlEncoding} {p : Chars}
    (skipped : skipWhiteSpace encoding (some p) = none) : p = [] := by
  cases p with
  | nil => rfl
  | cons c p => simp [skipWhiteSpace] at skipped

theorem numericReference_suffix {encoding : TiXmlEncoding} {value : UInt8 → Option UInt32}
    {base : UInt32} {mark : UInt8} {q r cs : Chars}
    (read : numericReference encoding value base mark q = some (cs, r)) : r <:+ q := by
  unfold numericReference at read
  split at read
  · simp at read
  · rename_i c rest split
    have inside : rest <:+ q := by
      have whole := List.dropWhile_suffix (l := q) (· ≠ 59)
      rw [split] at whole
      exact (List.suffix_cons c rest).trans whole
    split at read
    · simp at read
    · have same : rest = r := by
        split at read <;> simp_all
      rw [← same]
      exact inside

theorem namedReference_suffix (c : UInt8) (p : Chars) : (namedReference (c :: p)).2 <:+ p := by
  have long : ∀ e ∈ entity, 1 ≤ e.1.length := by decide
  unfold namedReference
  cases found : entity.find? fun e => e.1.isPrefixOf (c :: p) with
  | none => exact List.suffix_refl _
  | some e =>
    obtain ⟨n, more⟩ : ∃ n, e.1.length = n + 1 :=
      ⟨e.1.length - 1, by have := long e (List.mem_of_find?_eq_some found); omega⟩
    simp only [more, List.drop_succ_cons]
    exact List.drop_suffix n p

theorem getEntity_suffix {encoding : TiXmlEncoding} {c : UInt8} {p r cs : Chars}
    (read : getEntity encoding (c :: p) = some (cs, r)) : r <:+ p := by
  unfold getEntity at read
  split at read
  · rename_i q split
    obtain ⟨-, rfl⟩ := List.cons.inj split
    by_cases stop : q = []
    · simp [stop] at read
    · rw [if_neg stop] at read
      exact (numericReference_suffix read).trans (List.suffix_append [35, 120] q)
  · rename_i d q _ split
    obtain ⟨-, rfl⟩ := List.cons.inj split
    exact (numericReference_suffix read).trans (List.suffix_append [35] (d :: q))
  · obtain rfl : (namedReference (c :: p)).2 = r := by simp_all
    exact namedReference_suffix c p

def charLength (encoding : TiXmlEncoding) (c : UInt8) : Nat :=
  if encoding = .UTF8 then utf8ByteTable c else 1

theorem charLength_positive (encoding : TiXmlEncoding) (c : UInt8) : 0 < charLength encoding c := by
  unfold charLength utf8ByteTable
  split_ifs <;> simp

theorem getChar_cons (encoding : TiXmlEncoding) (c : UInt8) (p : Chars) :
    getChar encoding (c :: p) =
      if charLength encoding c = 1 then
        if c = 38 then .ok (getEntity encoding (c :: p)) else .ok (some ([c], p))
      else if (c :: p).length < charLength encoding c then .error .overrun
      else .ok (some ((c :: p).take (charLength encoding c),
        (c :: p).drop (charLength encoding c))) := rfl

theorem getChar_advances {encoding : TiXmlEncoding} {p r cs : Chars}
    (read : getChar encoding p = .ok (some (cs, r))) : r <:+ p ∧ r.length < p.length := by
  cases p with
  | nil => simp [getChar] at read
  | cons c p =>
    have behind : r <:+ p → r <:+ c :: p ∧ r.length < (c :: p).length := fun inside =>
      ⟨inside.trans (List.suffix_cons c p), by
        have short := inside.length_le
        rw [List.length_cons]
        omega⟩
    apply behind
    rw [getChar_cons] at read
    obtain ⟨n, several⟩ : ∃ n, charLength encoding c = n + 1 :=
      ⟨charLength encoding c - 1, by have := charLength_positive encoding c; omega⟩
    rw [several] at read
    split at read
    · split at read
      · exact getEntity_suffix (Except.ok.inj read)
      · obtain ⟨-, rfl⟩ := Prod.mk.inj (Option.some.inj (Except.ok.inj read))
        exact List.suffix_refl _
    · split at read
      · simp at read
      · obtain ⟨-, rfl⟩ := Prod.mk.inj (Option.some.inj (Except.ok.inj read))
        exact List.drop_suffix n p

theorem getChar_fault {encoding : TiXmlEncoding} {buffer p : Chars} {e : Fault}
    (inside : p <:+ buffer) (started : p ≠ []) (fault : getChar encoding p = .error e) :
    Excused buffer encoding e := by
  obtain ⟨c, p, rfl⟩ := List.exists_cons_of_ne_nil started
  rw [getChar_cons] at fault
  split at fault
  · split at fault <;> simp at fault
  · rename_i several
    split at fault
    · rename_i short
      obtain rfl : Fault.overrun = e := Except.error.inj fault
      by_cases utf8 : encoding = .UTF8
      · refine ⟨by simp, fun complete => ?_, utf8⟩
        have fits := complete c p inside
        rw [charLength, if_pos utf8, List.length_cons] at short
        omega
      · exact absurd (if_neg utf8) several
    · simp at fault

/-- A loop of ReadText over `p`: its faults come from the input, and where it stops it has
    reached the end tag or the NUL. -/
def Scans (buffer : Chars) (encoding : TiXmlEncoding) (endTag p : Chars)
    (x : Except Fault (Chars × Ptr)) : Prop :=
  (∀ e, x = .error e → Excused buffer encoding e) ∧
  ∀ text q, x = .ok (text, some q) → q <:+ p ∧ (q = [] ∨ stringEqual q endTag false = true)

theorem scans_stop {buffer : Chars} {encoding : TiXmlEncoding} {endTag p text : Chars}
    (stop : p = [] ∨ stringEqual p endTag false = true) :
    Scans buffer encoding endTag p (.ok (text, some p)) := by
  refine ⟨by simp, fun text' q ends => ?_⟩
  obtain ⟨-, rfl⟩ : text = text' ∧ p = q := by simpa using ends
  exact ⟨List.suffix_refl _, stop⟩

theorem Scans.longer {buffer : Chars} {encoding : TiXmlEncoding} {endTag p r : Chars}
    {x : Except Fault (Chars × Ptr)} (scans : Scans buffer encoding endTag r x)
    (inside : r <:+ p) : Scans buffer encoding endTag p x :=
  ⟨scans.1, fun text q ends => ⟨(scans.2 text q ends).1.trans inside, (scans.2 text q ends).2⟩⟩

theorem scans_getChar {buffer : Chars} {encoding : TiXmlEncoding} {endTag p text : Chars}
    {next : Chars → Chars → Except Fault (Chars × Ptr)} (inside : p <:+ buffer)
    (started : p ≠ []) (later : ∀ cs r, r <:+ p → r.length < p.length →
      Scans buffer encoding endTag r (next cs r)) :
    Scans buffer encoding endTag p (do
      match ← getChar encoding p with
      | none => return (text, none)
      | some (cArr, p) => next cArr p) := by
  cases read : getChar encoding p with
  | error e =>
    refine ⟨fun e' fault => ?_, fun _ _ ends => by simp [bind, Except.bind] at ends⟩
    obtain rfl : e = e' := by simpa [bind, Except.bind] using fault
    exact getChar_fault inside started read
  | ok outcome =>
    cases outcome with
    | none => exact ⟨fun e fault => by simp [bind, Except.bind, pure, Except.pure] at fault,
        fun _ _ ends => by simp [bind, Except.bind, pure, Except.pure] at ends⟩
    | some piece =>
      obtain ⟨cs, r⟩ := piece
      obtain ⟨suffix, short⟩ := getChar_advances read
      exact (later cs r suffix short).longer suffix

theorem keepLoop_scans {buffer : Chars} {encoding : TiXmlEncoding} {endTag : Chars} :
    ∀ fuel p text, p <:+ buffer → p.length < fuel →
      Scans buffer encoding endTag p (keepLoop encoding endTag fuel p text) := by
  intro fuel
  induction fuel with
  | zero => exact fun p text _ enough => absurd enough (by omega)
  | succ fuel ih =>
    intro p text inside enough
    rw [keepLoop]
    split
    · rename_i stop
      exact scans_stop stop
    · rename_i stop
      exact scans_getChar inside (fun empty => stop (.inl empty)) fun cs r suffix short =>
        ih r _ (suffix.trans inside) (by omega)

theorem condenseLoop_scans {buffer : Chars} {encoding : TiXmlEncoding} {endTag : Chars} :
    ∀ fuel p whitespace text, p <:+ buffer → p.length < fuel →
      Scans buffer encoding endTag p (condenseLoop encoding endTag fuel p whitespace text) := by
  intro fuel
  induction fuel with
  | zero => exact fun p whitespace text _ enough => absurd enough (by omega)
  | succ fuel ih =>
    intro p whitespace text inside enough
    rw [condenseLoop]
    split
    · rename_i stop
      exact scans_stop stop
    · rename_i stop
      obtain ⟨c, p, rfl⟩ := List.exists_cons_of_ne_nil fun empty => stop (.inl empty)
      split
      · have tail := List.suffix_cons c p
        rw [List.length_cons] at enough
        exact (ih p true text (tail.trans inside) (by omega)).longer tail
      · exact scans_getChar inside (by simp) fun cs r suffix short =>
          ih r _ _ (suffix.trans inside) (by omega)

theorem readText_loop {buffer : Chars} (encoding : TiXmlEncoding) (trim : Bool)
    (endTag : Chars) {p : Chars} (inside : p <:+ buffer) :
    ∃ x, Scans buffer encoding endTag p x ∧ readText encoding trim endTag p =
      x >>= fun (text, p) => match p with
        | none => pure (text, none)
        | some p => pure (text, if p.drop endTag.length = [] then none
            else some (p.drop endTag.length)) := by
  cases trim with
  | false =>
    exact ⟨keepLoop encoding endTag (p.length + 1) p [],
      keepLoop_scans _ p [] inside (by omega), rfl⟩
  | true =>
    cases skipped : skipWhiteSpace encoding (some p) with
    | none =>
      refine ⟨.ok ([], none), ⟨by simp, by simp⟩, ?_⟩
      simp [readText, skipped, bind, Except.bind, pure, Except.pure]
    | some q =>
      have suffix := skipWhiteSpace_some skipped
      refine ⟨condenseLoop encoding endTag (q.length + 1) q false [],
        (condenseLoop_scans _ q false [] (suffix.trans inside) (by omega)).longer suffix, ?_⟩
      simp only [readText, if_true, skipped]
      rfl

theorem readText_fault {buffer : Chars} {encoding : TiXmlEncoding} {trim : Bool}
    {endTag p : Chars} {e : Fault} (inside : p <:+ buffer)
    (fault : readText encoding trim endTag p = .error e) : Excused buffer encoding e := by
  obtain ⟨x, scans, loop⟩ := readText_loop encoding trim endTag inside
  rw [loop] at fault
  rcases x with e' | ⟨text, _ | q⟩
  · obtain rfl : e' = e := by simpa [bind, Except.bind] using fault
    exact scans.1 e' rfl
  · simp [bind, Except.bind, pure, Except.pure] at fault
  · simp [bind, Except.bind, pure, Except.pure] at fault

theorem readText_rest {buffer : Chars} {encoding : TiXmlEncoding} {trim : Bool}
    {endTag p text r : Chars} (inside : p <:+ buffer)
    (read : readText encoding trim endTag p = .ok (text, some r)) :
    r ≠ [] ∧ ∃ q, q <:+ p ∧ stringEqual q endTag false = true ∧ r = q.drop endTag.length := by
  obtain ⟨x, scans, loop⟩ := readText_loop encoding trim endTag inside
  rw [loop] at read
  rcases x with e' | ⟨text', _ | q⟩
  · simp [bind, Except.bind] at read
  · simp [bind, Except.bind, pure, Except.pure] at read
  · by_cases done : q.drop endTag.length = []
    · simp [bind, Except.bind, pure, Except.pure, done] at read
    · obtain ⟨-, rfl⟩ : text' = text ∧ q.drop endTag.length = r := by
        simpa [bind, Except.bind, pure, Except.pure, done] using read
      obtain ⟨suffix, stop⟩ := scans.2 text' q rfl
      refine ⟨done, q, suffix, stop.resolve_left fun empty => done (by simp [empty]), rfl⟩

end Scanning

section Stamping

/-- A lead byte of a mark that the NUL cuts off: Stamp does not get past it. -/
def Stuck (buffer : Chars) : Prop := ∃ rest, (0xef :: rest) <:+ buffer ∧ rest.length < 2

theorem stuck_excused {buffer : Chars} {encoding : TiXmlEncoding} (stuck : Stuck buffer)
    (utf8 : encoding = .UTF8) : Excused buffer encoding .endlessLoop := by
  obtain ⟨rest, inside, short⟩ := stuck
  refine ⟨by simp, fun complete => ?_, utf8⟩
  have three : utf8ByteTable 0xef = 3 := by decide
  have fits := complete 0xef rest inside
  omega

theorem stampStep_none {encoding : TiXmlEncoding} {tabsize : Int} {p : Chars}
    {cursor : TiXmlCursor} (stays : stampStep encoding tabsize p cursor = none)
    (started : p ≠ []) : encoding = .UTF8 ∧ ∃ rest, p = 0xef :: rest ∧ rest.length < 2 := by
  unfold stampStep at stays
  split at stays
  · exact absurd rfl started
  · simp at stays
  · simp at stays
  · simp at stays
  · rename_i rest
    split at stays
    · rename_i utf8
      split at stays
      · split at stays <;> simp at stays
      · rename_i short
        refine ⟨utf8, rest, rfl, ?_⟩
        rcases rest with _ | ⟨b, _ | ⟨c, p⟩⟩
        · simp
        · simp
        · exact absurd rfl (short b c p)
    · simp at stays
  · simp at stays

theorem stampStep_some {encoding : TiXmlEncoding} {tabsize : Int} {p r : Chars}
    {cursor cursor' : TiXmlCursor}
    (goes : stampStep encoding tabsize p cursor = some (r, cursor')) :
    r <:+ p ∧ r.length < p.length := by
  cases p with
  | nil => simp [stampStep] at goes
  | cons first p =>
    have behind : r <:+ p → r <:+ first :: p ∧ r.length < (first :: p).length := fun inside =>
      ⟨inside.trans (List.suffix_cons first p), by
        have short := inside.length_le
        rw [List.length_cons]
        omega⟩
    have newline (other : UInt8) : (if p.head? = some other then p.tail else p) <:+ p := by
      split
      · exact List.tail_suffix p
      · exact List.suffix_refl p
    apply behind
    unfold stampStep at goes
    split at goes
    · simp at goes
    · rename_i split
      obtain ⟨-, rfl⟩ := List.cons.inj split
      obtain ⟨rfl, -⟩ := Prod.mk.inj (Option.some.inj goes)
      exact newline 10
    · rename_i split
      obtain ⟨-, rfl⟩ := List.cons.inj split
      obtain ⟨rfl, -⟩ := Prod.mk.inj (Option.some.inj goes)
      exact newline 13
    · rename_i split
      obtain ⟨-, rfl⟩ := List.cons.inj split
      obtain ⟨rfl, -⟩ := Prod.mk.inj (Option.some.inj goes)
      exact List.suffix_refl _
    · rename_i rest split
      obtain ⟨-, rfl⟩ := List.cons.inj split
      split at goes
      · split at goes
        · rename_i b c q
          split at goes
          · obtain ⟨rfl, -⟩ := Prod.mk.inj (Option.some.inj goes)
            exact List.suffix_append [b, c] q
          · obtain ⟨rfl, -⟩ := Prod.mk.inj (Option.some.inj goes)
            exact List.suffix_append [b, c] q
        · simp at goes
      · obtain ⟨rfl, -⟩ := Prod.mk.inj (Option.some.inj goes)
        exact List.suffix_refl _
    · rename_i c rest _ _ _ _ split
      obtain ⟨-, rfl⟩ := List.cons.inj split
      obtain ⟨rfl, -⟩ := Prod.mk.inj (Option.some.inj goes)
      obtain ⟨n, several⟩ : ∃ n, charLength encoding c = n + 1 :=
        ⟨charLength encoding c - 1, by have := charLength_positive encoding c; omega⟩
      unfold charLength at several
      rw [several]
      exact List.drop_suffix n _

theorem stampLoop_ends {buffer : Chars} {encoding : TiXmlEncoding} {tabsize : Int} {now : Chars} :
    ∀ fuel p cursor, p <:+ buffer → p.length < fuel →
      (∀ e, stampLoop encoding tabsize now fuel p cursor = .error e →
        e = .endlessLoop ∧ encoding = .UTF8 ∧ Stuck buffer) ∧
      ∀ r cursor', stampLoop encoding tabsize now fuel p cursor = .ok (r, cursor') → r <:+ p := by
  intro fuel
  induction fuel with
  | zero => exact fun p cursor _ enough => absurd enough (by omega)
  | succ fuel ih =>
    intro p cursor inside enough
    rw [stampLoop]
    split
    · refine ⟨by simp, fun r cursor' ends => ?_⟩
      obtain ⟨rfl, -⟩ : p = r ∧ cursor = cursor' := by simpa using ends
      exact List.suffix_refl _
    · rename_i before
      have started : p ≠ [] := by
        rintro rfl
        exact before (by simp)
      cases step : stampStep encoding tabsize p cursor with
      | none =>
        refine ⟨fun e fault => ?_, by simp⟩
        obtain ⟨utf8, rest, rfl, short⟩ := stampStep_none step started
        exact ⟨(by simpa using fault.symm), utf8, rest, inside, short⟩
      | some next =>
        obtain ⟨r, cursor'⟩ := next
        obtain ⟨suffix, short⟩ := stampStep_some step
        obtain ⟨faults, rests⟩ := ih r cursor' (suffix.trans inside) (by omega)
        exact ⟨faults, fun r' cursor'' ends => (rests r' cursor'' ends).trans suffix⟩

theorem stampAt_ends {buffer : Chars} {s : Parsing} (encoding : TiXmlEncoding) (now : Chars)
    (inside : s.stamp <:+ buffer) :
    Ends (stampAt encoding now) s (fun _ t => t.stamp <:+ buffer ∧ t.error = s.error)
      fun e => e = .endlessLoop ∧ encoding = .UTF8 ∧ Stuck buffer := by
  unfold Ends stampAt
  by_cases off : s.tabsize < 1
  · simp only [off, if_true]
    exact ⟨inside, trivial⟩
  · simp only [off, if_false]
    obtain ⟨faults, rests⟩ := @stampLoop_ends buffer encoding s.tabsize now
      (s.stamp.length + 1) s.stamp s.cursor inside (by omega)
    cases run : stampLoop encoding s.tabsize now (s.stamp.length + 1) s.stamp s.cursor with
    | error e => exact faults e run
    | ok next => exact ⟨(rests next.1 next.2 run).trans inside, rfl⟩

theorem setError_ends {buffer : Chars} {s : Parsing} (encoding : TiXmlEncoding) (err : TiXmlError)
    (pError : Ptr) (inside : s.stamp <:+ buffer) :
    Ends (setError encoding err pError) s
      (fun _ t => t.stamp <:+ buffer ∧ t.error ≠ none ∧ (s.error ≠ none → t.error = s.error))
      fun e => e = .endlessLoop ∧ encoding = .UTF8 ∧ Stuck buffer := by
  unfold setError
  apply ends_get
  by_cases already : s.error.isSome = true
  · rw [if_pos already]
    have some : s.error ≠ none := by
      intro none
      simp [none] at already
    exact ends_pure ⟨inside, some, fun _ => rfl⟩
  · rw [if_neg already]
    have none : s.error = none := by simpa using already
    cases pError with
    | none => exact ends_modify ⟨inside, by simp, fun some => absurd none some⟩
    | some p =>
      refine (stampAt_ends encoding p inside).andThen fun _ t stamped => ?_
      exact ends_modify ⟨stamped.1, by simp, fun some => absurd none some⟩

end Stamping

end TinyXmlSafety
