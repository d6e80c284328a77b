import Boring.Base.IniRoundTrip

/- CIniFile::save with stdio calls that fail: what the result and m_bIsChange say about
   the bytes that reached the file. -/
namespace FailedSaves
open StringUtil Bindings IniFile IniRoundTrip

/-- How the stdio calls of one write go: whether fopen succeeds, for each fprintf and for
    fclose the failure, if it fails. A failed fprintf puts a part of its text into the file,
    a failed fclose loses some of the last bytes. -/
structure Outcome where
  opens : Bool
  prints : Nat → Option Nat
  closes : Option Nat

def part (line : Str) : Option Nat → Str
  | none => line
  | some count => line.take count

def printed : List Str → (Nat → Option Nat) → Str
  | [], _ => []
  | line :: rest, prints => part line (prints 0) ++ printed rest fun i => prints (i + 1)

def Outcome.stdio (o : Outcome) : Stdio where
  opens := o.opens
  stored lines :=
    let content := printed lines o.prints
    match o.closes with
    | none => content
    | some lost => content.take (content.length - lost)
  closes := match o.closes with
    | none => 0
    | some _ => -1

def Complete (files : Files) (ini : CIniFile) : Prop :=
  files ini.strFileName = some (written ini.mSection).flatten

def Reported (o : Outcome) (files : Files) (ini : CIniFile) : Prop :=
  let (result, stored, after) := ini.save o.stdio files
  (¬ Complete stored ini → result ≠ 0 ∧ after.bIsChange = true) ∧
    (result = 0 → Complete stored ini)

def Whole (length : Nat) : Option Nat → Prop
  | none => True
  | some count => length ≤ count

def Lossless (ini : CIniFile) : Option Nat → Prop
  | none => True
  | some lost => lost = 0 ∨ written ini.mSection = []

def Harmless (o : Outcome) (ini : CIniFile) : Prop :=
  (∀ i line, (written ini.mSection)[i]? = some line → Whole line.length (o.prints i)) ∧
    Lossless ini o.closes

theorem part_length (line : Str) (o : Option Nat) : (part line o).length ≤ line.length ∧
    ((part line o).length = line.length ↔ Whole line.length o) := by
  cases o with
  | none => exact ⟨Nat.le_refl _, iff_of_true rfl trivial⟩
  | some count =>
    rw [part, List.length_take, Whole]
    omega

theorem printed_whole {lines : List Str} {prints : Nat → Option Nat}
    (whole : ∀ i line, lines[i]? = some line → Whole line.length (prints i)) :
    printed lines prints = lines.flatten := by
  induction lines generalizing prints with
  | nil => rfl
  | cons line rest ih =>
    have first : part line (prints 0) = line := by
      have fits := whole 0 line rfl
      cases outcome : prints 0 with
      | none => rfl
      | some count =>
        rw [outcome] at fits
        exact List.take_of_length_le fits
    rw [printed, first, ih fun i other found => whole (i + 1) other found, List.flatten_cons]

theorem printed_length (lines : List Str) (prints : Nat → Option Nat) :
    (printed lines prints).length ≤ lines.flatten.length ∧
      ((printed lines prints).length = lines.flatten.length →
        ∀ i line, lines[i]? = some line → Whole line.length (prints i)) := by
  induction lines generalizing prints with
  | nil => exact ⟨Nat.le_refl _, fun _ i line found => by simp at found⟩
  | cons line rest ih =>
    obtain ⟨bounded, later⟩ := ih fun i => prints (i + 1)
    obtain ⟨short, whole⟩ := part_length line (prints 0)
    rw [printed, List.flatten_cons, List.length_append, List.length_append]
    refine ⟨by omega, ?_⟩
    intro equal i other found
    cases i with
    | zero =>
      obtain rfl : line = other := by simpa using found
      exact whole.mp (by omega)
    | succ i => exact later (by omega) i other (by simpa using found)

theorem written_empty {mSection : Map Config} (none : (written mSection).flatten.length = 0) :
    written mSection = [] := by
  rw [List.length_eq_zero_iff, List.flatten_eq_nil_iff] at none
  apply List.eq_nil_iff_forall_not_mem.mpr
  intro line member
  have empty := none line member
  obtain ⟨e, _, inside⟩ := List.mem_flatMap.mp member
  simp only [Config.write, List.mem_cons, List.mem_append, List.mem_map, List.cons_append,
    List.not_mem_nil, or_false] at inside
  rcases inside with rfl | ⟨x, _, rfl⟩ | rfl
  · simp [headerLine] at empty
  · simp [settingLine] at empty
  · simp at empty

theorem stored_complete_iff (o : Outcome) (ini : CIniFile) :
    o.stdio.stored (written ini.mSection) = (written ini.mSection).flatten ↔ Harmless o ini := by
  obtain ⟨bounded, whole⟩ := printed_length (written ini.mSection) o.prints
  have empty := @written_empty ini.mSection
  unfold Harmless
  cases closing : o.closes with
  | none =>
    simp only [Outcome.stdio, closing, Lossless, and_true]
    constructor
    · intro equal
      exact whole (congrArg List.length equal)
    · exact printed_whole
  | some lost =>
    simp only [Outcome.stdio, closing, Lossless]
    constructor
    · intro equal
      have lengths := congrArg List.length equal
      rw [List.length_take] at lengths
      refine ⟨whole (by omega), ?_⟩
      rcases Nat.eq_zero_or_pos lost with none | some
      · exact .inl none
      · exact .inr (empty (by omega))
    · rintro ⟨texts, rfl | none⟩
      · rw [printed_whole texts, Nat.sub_zero, List.take_length]
      · rw [printed_whole texts, none, List.flatten_nil, List.take_nil]

theorem save_refused {o : Outcome} (refused : o.opens = false) (files : Files) (ini : CIniFile) :
    ini.save o.stdio files = (-1, files, ini) := by
  unfold CIniFile.save CIniFile.write
  exact if_neg (by simp [Outcome.stdio, refused])

theorem save_opened {o : Outcome} (opened : o.opens = true) (files : Files) (ini : CIniFile) :
    ini.save o.stdio files = (o.stdio.closes,
      Function.update files ini.strFileName (some (o.stdio.stored (written ini.mSection))),
      { ini with bIsChange := false }) := by
  unfold CIniFile.save CIniFile.write
  exact if_pos opened

theorem opened_reports_iff {o : Outcome} (opened : o.opens = true) (files : Files)
    (ini : CIniFile) : Reported o files ini ↔ Harmless o ini := by
  have complete : Complete (Function.update files ini.strFileName
      (some (o.stdio.stored (written ini.mSection)))) ini ↔ Harmless o ini := by
    rw [Complete, Function.update_self, Option.some.injEq, stored_complete_iff]
  rw [Reported, save_opened opened]
  simp only [complete, Bool.false_eq_true, and_false, imp_false, not_not]
  exact ⟨fun reported => reported.1, fun harmless => ⟨harmless, fun _ => harmless⟩⟩

/-- A failed save is reported and stays pending exactly when fopen fails, or no fprintf and
    no fclose loses a byte. -/
theorem save_reports_iff (o : Outcome) (files : Files) (ini : CIniFile)
    (changed : ini.bIsChange = true) :
    Reported o files ini ↔ o.opens = false ∨ Harmless o ini := by
  cases opening : o.opens with
  | false =>
    have failed : (-1 : Int) ≠ 0 := by decide
    rw [Reported, save_refused opening]
    exact iff_of_true ⟨fun _ => ⟨failed, changed⟩, fun zero => absurd zero failed⟩ (.inl rfl)
  | true =>
    rw [opened_reports_iff opening]
    exact (or_iff_right (by decide)).symm

def reliable : Outcome := ⟨true, fun _ => none, none⟩

def portSet : CIniFile := (CIniFile.new [ch 'f']).set [ch 'n'] [ch 'p'] [ch '1']

/-- fopen fails, and the change stays pending. -/
theorem unopened_save_reported :
    Reported { reliable with opens := false } (fun _ => none) portSet ↔
      false = false ∨ Harmless { reliable with opens := false } portSet :=
  save_reports_iff _ _ portSet rfl

theorem destroy_completes (files : Files) (ini : CIniFile) (changed : ini.bIsChange = true) :
    Complete (ini.destroy reliable.stdio files) ini := by
  have harmless : Harmless reliable ini := ⟨fun _ _ _ => trivial, trivial⟩
  rw [CIniFile.destroy, if_pos changed, save_opened rfl, Complete]
  exact (Function.update_self ..).trans (congrArg some ((stored_complete_iff _ ini).mpr harmless))

def diskFull : Outcome := { reliable with prints := fun i => if i = 1 then some 0 else none }

/-- The setting is lost, save returns 0 and the change is forgotten. -/
theorem full_disk_unreported :
    ¬ ∀ (o : Outcome) (files : Files) (ini : CIniFile), ini.bIsChange = true →
      Reported o files ini := by
  intro reported
  have save := reported diskFull (fun _ => none) portSet rfl
  have harmless := (opened_reports_iff rfl _ portSet).mp save
  have lost := harmless.1 1 [ch 'p', ch '=', ch '1', ch '\n'] rfl
  exact Nat.not_succ_le_zero 3 lost

end FailedSaves
