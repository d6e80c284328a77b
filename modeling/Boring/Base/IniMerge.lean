import Boring.Base.IniRoundTrip

/- CIniFile::load into a store that is not empty: which settings it makes depends on the
   file alone, and they are merged into the store. -/
namespace IniMerge
open StringUtil Bindings IniFile IniBindings IniRoundTrip

abbrev Triple := Str × Str × Str

def setAll (mSection : Map Config) (entries : List Triple) : Map Config :=
  entries.foldl (fun m e => setIn m e.1 e.2.1 e.2.2) mSection

/-- An empty key makes the section, and no binding. -/
def assigned (entries : List Triple) : List ((Str × Str) × Str) :=
  entries.filterMap fun e => if e.2.1 = [] then none else some ((e.1, e.2.1), e.2.2)

theorem setAll_append (mSection : Map Config) (first second : List Triple) :
    setAll mSection (first ++ second) = setAll (setAll mSection first) second :=
  List.foldl_append

def Steady (run : Map Config → Except Fault (Str × Map Config)) : Prop :=
  (∃ fault, ∀ m, run m = .error fault) ∨
    ∃ next entries, ∀ m, run m = .ok (next, setAll m entries)

theorem steady_keep (next : Str) : Steady fun m => .ok (next, m) :=
  .inr ⟨next, [], fun _ => rfl⟩

theorem steady_set (next sect key value : Str) :
    Steady fun m => .ok (next, setIn m sect key value) :=
  .inr ⟨next, [(sect, key, value)], fun _ => rfl⟩

theorem steady_bind {A : Type} (first : Except Fault A)
    {run : A → Map Config → Except Fault (Str × Map Config)} (steady : ∀ a, Steady (run a)) :
    Steady fun m => first >>= fun a => run a m := by
  cases first with
  | error fault => exact .inl ⟨fault, fun _ => rfl⟩
  | ok a => exact steady a

theorem steady_ite {c : Prop} [Decidable c]
    {run other : Map Config → Except Fault (Str × Map Config)} (yes : Steady run)
    (no : Steady other) : Steady fun m => if c then run m else other m := by
  by_cases holds : c
  · simpa only [if_pos holds] using yes
  · simpa only [if_neg holds] using no

theorem loadLine_steady (host : Host) (sect buf : Str) :
    Steady fun m => loadLine host sect m buf := by
  have keep := steady_keep sect
  refine steady_bind _ fun line => steady_ite keep (steady_ite ?_ (steady_ite ?_ keep))
  · exact steady_ite (steady_bind _ steady_keep) keep
  · refine steady_bind _ fun line => steady_bind _ fun temp => steady_bind _ fun key => ?_
    refine steady_bind _ fun key => steady_bind _ fun val => steady_bind _ fun val => ?_
    exact steady_ite (steady_set sect sect key val) keep

theorem loadLoop_steady (host : Host) (fuel : Nat) (rest : Str) (eof : Bool) (sect : Str) :
    (∃ fault, ∀ m, loadLoop host fuel rest eof sect m = .error fault) ∨
      ∃ entries, ∀ m, loadLoop host fuel rest eof sect m = .ok (setAll m entries) := by
  induction fuel generalizing rest eof sect with
  | zero => exact .inl ⟨.endlessLoop, fun _ => rfl⟩
  | succ fuel ih =>
    simp only [loadLoop]
    by_cases ended : eof = true
    · exact .inr ⟨[], fun m => if_pos ended⟩
    · simp only [if_neg ended]
      cases fgets BUFF_LEN rest with
      | none => exact .inr ⟨[], fun _ => rfl⟩
      | some got =>
        obtain ⟨buf, rest, eof⟩ := got
        rcases loadLine_steady host sect buf with ⟨fault, fails⟩ | ⟨next, first, line⟩
        · exact .inl ⟨fault, fun m => by simp only [fails, bind, Except.bind]⟩
        · simp only [line, bind, Except.bind]
          rcases ih rest eof next with ⟨fault, fails⟩ | ⟨others, loop⟩
          · exact .inl ⟨fault, fun m => fails _⟩
          · exact .inr ⟨first ++ others, fun m => by rw [loop, setAll_append]⟩

theorem setIn_bindings (mSection : Map Config) (sect key value : Str) :
    bindings (setIn mSection sect key value) =
      replay (bindings mSection) (assignments (assigned [(sect, key, value)])) := by
  by_cases empty : key = []
  · subst empty
    funext p
    rw [setIn, bindings_insert, Config.set, if_pos rfl]
    by_cases same : p.1 = sect
    · rw [if_pos same, ← same]
      change _ = (mSection[p.1]?).bind fun conf => conf.mconf[p.2]?
      cases mSection[p.1]? <;> simp [Config.new]
    · rw [if_neg same]
      rfl
  · rw [bindings_setIn _ _ _ empty, assigned, List.filterMap_cons, if_neg empty]
    rfl

theorem setAll_bindings (mSection : Map Config) (entries : List Triple) :
    bindings (setAll mSection entries) =
      replay (bindings mSection) (assignments (assigned entries)) := by
  induction entries generalizing mSection with
  | nil => rfl
  | cons e rest ih =>
    have split : assigned (e :: rest) = assigned [e] ++ assigned rest := by
      rw [assigned, ← List.singleton_append, List.filterMap_append]
      rfl
    rw [split, assignments, List.map_append, replay_append]
    refine (ih _).trans ?_
    rw [setIn_bindings]
    rfl

theorem setIn_sections (mSection : Map Config) (sect key value other : Str) :
    (∃ conf, (setIn mSection sect key value)[other]? = some conf) ↔
      other = sect ∨ ∃ conf, mSection[other]? = some conf :=
  hasSection_insert mSection sect other _

theorem setAll_sections (mSection : Map Config) (entries : List Triple) (sect : Str) :
    (∃ conf, (setAll mSection entries)[sect]? = some conf) ↔
      (∃ e ∈ entries, e.1 = sect) ∨ ∃ conf, mSection[sect]? = some conf := by
  induction entries generalizing mSection with
  | nil => simp [setAll]
  | cons e rest ih =>
    have later := ih (setIn mSection e.1 e.2.1 e.2.2)
    rw [setIn_sections] at later
    apply later.trans
    rw [List.exists_mem_cons_iff, or_left_comm, or_assoc, eq_comm]

theorem named_setIn {mSection : Map Config} (sect key value : Str) (named : Named mSection) :
    Named (setIn mSection sect key value) := by
  intro other conf held
  rw [setIn, lookup_insert] at held
  by_cases same : other = sect
  · rw [if_pos same] at held
    obtain rfl := Option.some.inj held
    have old : ((mSection[sect]?).getD (Config.new sect)).strMainKey = sect := by
      cases found : mSection[sect]? with
      | none => rfl
      | some conf => exact named sect conf found
    unfold Config.set
    split <;> exact old.trans same.symm
  · rw [if_neg same] at held
    exact named other conf held

theorem named_setAll {mSection : Map Config} (entries : List Triple) (named : Named mSection) :
    Named (setAll mSection entries) := by
  induction entries generalizing mSection with
  | nil => exact named
  | cons e rest ih => exact ih (named_setIn _ _ _ named)

theorem named_empty : Named (∅ : Map Config) := by
  intro sect conf held
  simp at held

theorem everywhere_iff {name : Str → Prop} {entry : Str → Str → Prop} {mSection : Map Config} :
    Everywhere name entry mSection ↔ Named mSection ∧
      (∀ sect, (∃ conf, mSection[sect]? = some conf) → name sect) ∧
        ∀ p value, bindings mSection p = some value → entry p.2 value := by
  constructor
  · intro all
    refine ⟨fun sect conf held => (all sect conf held).1, ?_, ?_⟩
    · rintro sect ⟨conf, held⟩
      exact (all sect conf held).2.1
    · intro p value bound
      obtain ⟨conf, held, inside⟩ := Option.bind_eq_some_iff.mp bound
      exact (all p.1 conf held).2.2 p.2 value inside
  · rintro ⟨named, names, entries⟩ sect conf held
    refine ⟨named sect conf held, names sect ⟨conf, held⟩, ?_⟩
    intro key value inside
    exact entries (sect, key) value (Option.bind_eq_some_iff.mpr ⟨conf, held, inside⟩)

/-- A file's settings win over those of the store, and add to them. -/
theorem setAll_merges (mSection : Map Config) (entries : List Triple) (p : Str × Str) :
    bindings (setAll mSection entries) p =
      (bindings (setAll ∅ entries) p).or (bindings mSection p) := by
  rw [setAll_bindings, setAll_bindings, empty_unbound]
  exact replay_assignments ..

theorem everywhere_setAll {name : Str → Prop} {entry : Str → Str → Prop}
    {mSection : Map Config} {entries : List Triple} (store : Everywhere name entry mSection)
    (file : Everywhere name entry (setAll ∅ entries)) :
    Everywhere name entry (setAll mSection entries) := by
  rw [everywhere_iff] at store file ⊢
  refine ⟨named_setAll entries store.1, ?_, ?_⟩
  · intro sect held
    rcases (setAll_sections mSection entries sect).mp held with made | old
    · exact file.2.1 sect ((setAll_sections ∅ entries sect).mpr (.inl made))
    · exact store.2.1 sect old
  · intro p value bound
    rw [setAll_merges] at bound
    rcases Option.or_eq_some_iff.mp bound with found | ⟨_, kept⟩
    · exact file.2.2 p value found
    · exact store.2.2 p value kept

theorem storedAll_setAll (mSection : Map Config) (sections : List (Str × Config)) :
    storedAll mSection sections = setAll mSection
      (sections.flatMap fun e => e.2.mconf.toList.map fun x => (e.2.strMainKey, x.1, x.2)) := by
  induction sections generalizing mSection with
  | nil => rfl
  | cons e rest ih =>
    rw [List.flatMap_cons, setAll_append, ← ih]
    simp only [storedAll, List.foldl_cons, stored, setAll, List.foldl_map]

end IniMerge
