import Boring.Base.StringUtil
import Boring.Library.Bindings
import Mathlib.Tactic.Linarith

/- inifile.cpp: the class Config of one section, the class CIniFile, and the calls of
   stdio it makes. A std::map is a tree map in the order of the bytes. -/
namespace IniFile
open StringUtil Bindings

abbrev Map (α : Type) := Std.TreeMap Str α

structure Config where
  strMainKey : Str
  mconf : Map Str

namespace Config

def new (mainKey : Str) : Config := ⟨mainKey, ∅⟩

def get (c : Config) (key : Str) : Str :=
  match c.mconf[key]? with
  | some value => value
  | none => []

def set (c : Config) (key value : Str) : Config :=
  if key = [] then c else { c with mconf := c.mconf.insert key value }

def del (c : Config) (key : Str) : Config :=
  if c.mconf.contains key then { c with mconf := c.mconf.erase key } else c

end Config

structure CIniFile where
  bIsChange : Bool
  strFileName : Str
  mSection : Map Config

/-- The lines of `load` and of `set` that create a missing section and set a key in it. -/
def setIn (mSection : Map Config) (sect key value : Str) : Map Config :=
  let conf := (mSection[sect]?).getD (Config.new sect)
  mSection.insert sect (conf.set key value)

namespace CIniFile

def new (fileName : Str) : CIniFile := ⟨false, fileName, ∅⟩

def set (ini : CIniFile) (sect key value : Str) : CIniFile :=
  if sect ≠ [] ∧ key ≠ [] then
    { ini with mSection := setIn ini.mSection sect key value, bIsChange := true }
  else ini

def get (ini : CIniFile) (sect key defvalue : Str) : Str :=
  match ini.mSection[sect]? with
  | some conf => conf.get key
  | none => defvalue

def del (ini : CIniFile) (sect key : Str) : CIniFile :=
  match ini.mSection[sect]? with
  | some conf => { ini with mSection := ini.mSection.insert sect (conf.del key), bIsChange := true }
  | none => ini

end CIniFile

section Writing

/-- The characters of a string that %s prints: c_str() ends at the first NUL. -/
def cstr (s : Str) : Str := s.takeWhile (· ≠ 0)

def headerLine (mainKey : Str) : Str := ch '[' :: cstr mainKey ++ [ch ']', ch '\n']

def settingLine (e : Str × Str) : Str := cstr e.1 ++ ch '=' :: cstr e.2 ++ [ch '\n']

def Config.write (c : Config) : List Str :=
  headerLine c.strMainKey :: c.mconf.toList.map settingLine ++ [[ch '\n']]

def written (mSection : Map Config) : List Str :=
  mSection.toList.flatMap fun e => e.2.write

abbrev Files := Str → Option Str

/-- The results of stdio during one write: whether fopen succeeds, what reaches the file
    of the strings printed, and what fclose returns. -/
structure Stdio where
  opens : Bool
  stored : List Str → Str
  closes : Int

def Stdio.reliable : Stdio := ⟨true, List.flatten, 0⟩

def CIniFile.write (io : Stdio) (files : Files) (ini : CIniFile) : Int × Files × CIniFile :=
  if io.opens then
    (io.closes, Function.update files ini.strFileName (some (io.stored (written ini.mSection))),
      { ini with bIsChange := false })
  else (-1, files, ini)

def CIniFile.save (io : Stdio) (files : Files) (ini : CIniFile) : Int × Files × CIniFile :=
  ini.write io files

/-- ~CIniFile: what is still marked as changed is saved. -/
def CIniFile.destroy (io : Stdio) (files : Files) (ini : CIniFile) : Files :=
  if ini.bIsChange then (ini.save io files).2.1 else files

end Writing

section Reading

variable (host : Host)

def BUFF_LEN : Nat := 1024

/-- At most `count` characters up to and with a newline, the rest of the file, and
    whether the end of the file was met. -/
def readLine : Nat → Str → Str × Str × Bool
  | 0, rest => ([], rest, false)
  | _ + 1, [] => ([], [], true)
  | count + 1, c :: rest =>
    if c = ch '\n' then ([c], rest, false)
    else
      let (line, rest, eof) := readLine count rest
      (c :: line, rest, eof)

/-- fgets of `size` bytes: NULL at the end of the file with nothing read. -/
def fgets (size : Nat) (rest : Str) : Option (Str × Str × Bool) :=
  if rest = [] then none else some (readLine (size - 1) rest)

/-- One turn of the loop of `load` on the characters in `buf`. -/
def loadLine (sect : Str) (mSection : Map Config) (buf : Str) :
    Except Fault (Str × Map Config) := do
  let line ← trim host (cstr buf) blanks
  -- `_line[0]` of an empty string is NUL
  if line.headD 0 = ch '#' then .ok (sect, mSection)
  else if line.headD 0 = ch '[' then
    let nPos := findFirstOf host line [ch ']']
    if nPos ≠ npos host then do
      let sect ← substr line 1 (nPos - 1)
      .ok (sect, mSection)
    else .ok (sect, mSection)
  else if findFirstOf host line [ch '='] ≠ npos host then do
    let line ← trim host line blanks
    let temp ← str2vector host line (ch '=')
    let key ← index temp 0
    let key ← trim host key blanks
    let val ← index temp 1
    let val ← trim host val blanks
    if sect ≠ [] then .ok (sect, setIn mSection sect key val) else .ok (sect, mSection)
  else .ok (sect, mSection)

def loadLoop : Nat → Str → Bool → Str → Map Config → Except Fault (Map Config)
  | 0, _, _, _, _ => .error .endlessLoop
  | fuel + 1, rest, eof, sect, mSection =>
    if eof then .ok mSection
    else match fgets BUFF_LEN rest with
    | none => .ok mSection
    | some (buf, rest, eof) => do
      let (sect, mSection) ← loadLine host sect mSection buf
      loadLoop fuel rest eof sect mSection

def CIniFile.load (files : Files) (ini : CIniFile) : Except Fault (Int × CIniFile) :=
  match files ini.strFileName with
  | none => .ok (-1, ini)
  | some content => do
    let mSection ← loadLoop host (content.length + 1) content false [] ini.mSection
    .ok (0, { ini with mSection })

def CIniFile.init (files : Files) (ini : CIniFile) : Except Fault (Int × CIniFile) :=
  ini.load host files

/-- The overload that names the file. -/
def CIniFile.initNamed (files : Files) (fileName : Str) (ini : CIniFile) :
    Except Fault (Int × CIniFile) :=
  { ini with strFileName := fileName }.load host files

end Reading

def bindings (mSection : Map Config) : Lookup (Str × Str) Str := fun p =>
  (mSection[p.1]?).bind fun conf => conf.mconf[p.2]?

theorem compare_eq_iff (k other : Str) : compare k other = .eq ↔ other = k :=
  Std.LawfulEqCmp.compare_eq_iff_eq.trans eq_comm

theorem lookup_insert {α : Type} (m : Map α) (k other : Str) (v : α) :
    (m.insert k v)[other]? = if other = k then some v else m[other]? := by
  rw [Std.TreeMap.getElem?_insert]
  simp only [compare_eq_iff]

theorem lookup_erase {α : Type} (m : Map α) (k other : Str) :
    (m.erase k)[other]? = if other = k then none else m[other]? := by
  rw [Std.TreeMap.getElem?_erase]
  simp only [compare_eq_iff]

theorem set_lookup (c : Config) {key : Str} (value other : Str) (nonempty : key ≠ []) :
    (c.set key value).mconf[other]? = if other = key then some value else c.mconf[other]? := by
  rw [Config.set, if_neg nonempty, lookup_insert]

theorem del_lookup (c : Config) (key other : Str) :
    (c.del key).mconf[other]? = if other = key then none else c.mconf[other]? := by
  by_cases present : c.mconf.contains key = true
  · rw [Config.del, if_pos present, lookup_erase]
  · have absent : c.mconf[key]? = none :=
      Std.TreeMap.getElem?_eq_none_of_contains_eq_false (Bool.not_eq_true _ ▸ present)
    rw [Config.del, if_neg present]
    by_cases same : other = key
    · rw [if_pos same, same, absent]
    · rw [if_neg same]

theorem bindings_insert (mSection : Map Config) (sect : Str) (conf : Config) (p : Str × Str) :
    bindings (mSection.insert sect conf) p =
      if p.1 = sect then conf.mconf[p.2]? else bindings mSection p := by
  rw [bindings, lookup_insert]
  by_cases same : p.1 = sect
  · simp [same]
  · simp [same, bindings]

theorem bindings_setIn (mSection : Map Config) (sect value : Str) {key : Str}
    (nonempty : key ≠ []) : bindings (setIn mSection sect key value) =
      apply (bindings mSection) (.assign (sect, key) value) := by
  funext p
  obtain ⟨s, k⟩ := p
  rw [setIn, bindings_insert]
  by_cases same : s = sect
  · subst s
    by_cases sameKey : k = key
    · subst k
      simp [apply, set_lookup, nonempty]
    · have differs : (sect, k) ≠ (sect, key) := by simp [sameKey]
      simp only [if_true, apply, Function.update_of_ne differs, set_lookup _ _ _ nonempty,
        if_neg sameKey, bindings]
      cases mSection[sect]? <;> simp [Config.new]
  · have differs : (s, k) ≠ (sect, key) := by simp [same]
    simp [same, apply]

theorem bindings_del (ini : CIniFile) (sect key : Str) : bindings (ini.del sect key).mSection =
    apply (bindings ini.mSection) (.remove (sect, key)) := by
  funext p
  obtain ⟨s, k⟩ := p
  by_cases same : s = sect
  · subst s
    cases held : ini.mSection[sect]? with
    | none =>
      by_cases sameKey : k = key
      · simp [CIniFile.del, held, bindings, apply, sameKey]
      · have differs : (sect, k) ≠ (sect, key) := by simp [sameKey]
        simp [CIniFile.del, held, apply, Function.update_of_ne differs]
    | some conf =>
      rw [CIniFile.del, held, bindings_insert]
      by_cases sameKey : k = key
      · simp [del_lookup, apply, sameKey]
      · have differs : (sect, k) ≠ (sect, key) := by simp [sameKey]
        simp [del_lookup, apply, sameKey, bindings, held]
  · have differs : (s, k) ≠ (sect, key) := by simp [same]
    rw [apply, Function.update_of_ne differs, CIniFile.del]
    cases ini.mSection[sect]? with
    | none => rfl
    | some conf => simp [bindings_insert, same]

end IniFile
