import Boring.Base.StringUtil
import Mathlib.Data.List.DropRight

/- The hexadecimal functions of stringutil.cpp. A char is signed and is promoted to an int
   of 32 bits; a conversion back to char keeps the low byte. -/
namespace HexText
open StringUtil ListParts

abbrev CInt := BitVec 32

def toInt (c : UInt8) : CInt := c.toBitVec.signExtend 32

def toChar (n : CInt) : UInt8 := UInt8.ofBitVec (n.setWidth 8)

section Characters

def isdigit (c : CInt) : Bool := (48 : CInt).sle c && c.sle 57

def isalpha (c : CInt) : Bool :=
  ((65 : CInt).sle c && c.sle 90) || ((97 : CInt).sle c && c.sle 122)

def isupper (c : CInt) : Bool := (65 : CInt).sle c && c.sle 90

def c2i (c : UInt8) : CInt :=
  let n := toInt c
  if isdigit n then n - 48
  else if n.slt (toInt (ch 'A')) || ((toInt (ch 'F')).slt n && n.slt (toInt (ch 'a'))) ||
      (toInt (ch 'f')).slt n then -1
  else if isalpha n then if isupper n then n - 55 else n - 87
  else -1

def c2x (c : UInt8) : UInt8 :=
  let n := toInt c
  if (0 : CInt).sle n && n.sle 9 then toChar (n + 48)
  else if (10 : CInt).sle n && n.sle 15 then toChar (n + 55)
  else c

end Characters

def hexOf (c : UInt8) : Str :=
  [c2x (toChar ((toInt c &&& 0xf0).sshiftRight 4)), c2x (toChar (toInt c &&& 0x0f))]

def str2hex : Str → Str
  | [] => []
  | [c] => hexOf c
  | c :: next :: rest => hexOf c ++ ch ':' :: str2hex (next :: rest)

def charOf (hig low : UInt8) : UInt8 :=
  let hig := toChar (c2i hig)
  toChar ((toInt hig <<< 4) ||| toInt (toChar (c2i low)))

/-- The loop from the position of its iterator on, which it compares with the end. -/
def hex2strLoop (str : Str) : Nat → Nat → Except Fault Str
  | 0, _ => .error .endlessLoop
  | fuel + 1, it =>
    if it = str.length then .ok []
    else do
      let c ← index str it
      if c = ch ':' then hex2strLoop str fuel (it + 1)
      else
        let low ← index str (it + 1)
        let szRet ← hex2strLoop str fuel (it + 2)
        .ok (charOf c low :: szRet)

def hex2str (str : Str) : Except Fault Str := hex2strLoop str (str.length + 1) 0

section Reference

def hexDigits : Str :=
  [ch '0', ch '1', ch '2', ch '3', ch '4', ch '5', ch '6', ch '7', ch '8', ch '9',
    ch 'A', ch 'B', ch 'C', ch 'D', ch 'E', ch 'F']

def upper (c : UInt8) : UInt8 := if ch 'a' ≤ c ∧ c ≤ ch 'z' then c - 32 else c

def HexDigit (c : UInt8) : Prop := upper c ∈ hexDigits

instance (c : UInt8) : Decidable (HexDigit c) :=
  List.instDecidableMemOfLawfulBEq (upper c) hexDigits

def digitValue (c : UInt8) : Nat := hexDigits.idxOf (upper c)

abbrev Group := UInt8 × UInt8

def Group.value (g : Group) : UInt8 := UInt8.ofNat (16 * digitValue g.1 + digitValue g.2)

/-- A string of two-digit groups with any number of ':' around them. -/
inductive Groups : Str → List Group → Prop where
  | nil : Groups [] []
  | colon {h : Str} {groups : List Group} (rest : Groups h groups) :
      Groups (ch ':' :: h) groups
  | pair {a b : UInt8} {h : Str} {groups : List Group} (high : HexDigit a) (low : HexDigit b)
      (rest : Groups h groups) : Groups (a :: b :: h) ((a, b) :: groups)

def colonJoined (groups : List Str) : Str := [ch ':'].intercalate groups

def byteGroup (c : UInt8) : Group :=
  (hexDigits.getD (c.toNat / 16) 0, hexDigits.getD (c.toNat % 16) 0)

def Group.text (g : Group) : Str := [g.1, g.2]

def Group.uppercase (g : Group) : Group := (upper g.1, upper g.2)

end Reference

section Digits

theorem forall_bytes {p : UInt8 → Prop} (all : ∀ n : Fin 256, p (UInt8.ofFin n)) (c : UInt8) :
    p c := all c.toFin

theorem c2i_digit : ∀ c, HexDigit c → c2i c = BitVec.ofNat 32 (digitValue c) :=
  forall_bytes (by decide +kernel)

theorem digit_not_colon {c : UInt8} (digit : HexDigit c) : c ≠ ch ':' := by
  rintro rfl
  exact absurd digit (by decide)

theorem hexOf_byte : ∀ c, hexOf c = (byteGroup c).text :=
  forall_bytes (by decide +kernel)

theorem digitValue_lt {c : UInt8} (digit : HexDigit c) : digitValue c < 16 :=
  List.idxOf_lt_length_of_mem digit

theorem charOf_values : ∀ x y : Fin 16,
    toChar ((toInt (toChar (BitVec.ofNat 32 x.val)) <<< 4) |||
      toInt (toChar (BitVec.ofNat 32 y.val))) = UInt8.ofNat (16 * x.val + y.val) := by
  decide +kernel

theorem charOf_group {a b : UInt8} (high : HexDigit a) (low : HexDigit b) :
    charOf a b = Group.value (a, b) := by
  have values := charOf_values ⟨digitValue a, digitValue_lt high⟩ ⟨digitValue b, digitValue_lt low⟩
  rw [charOf, c2i_digit a high, c2i_digit b low]
  exact values

theorem hexDigits_value : ∀ n : Fin 16, HexDigit (hexDigits.getD n.val 0) ∧
    digitValue (hexDigits.getD n.val 0) = n.val := by
  decide

theorem byteGroup_spec (c : UInt8) : HexDigit (byteGroup c).1 ∧ HexDigit (byteGroup c).2 ∧
    digitValue (byteGroup c).1 = c.toNat / 16 ∧ digitValue (byteGroup c).2 = c.toNat % 16 := by
  have bound := c.toNat_lt
  obtain ⟨high, first⟩ := hexDigits_value ⟨c.toNat / 16, by omega⟩
  obtain ⟨low, second⟩ := hexDigits_value ⟨c.toNat % 16, by omega⟩
  exact ⟨high, low, first, second⟩

theorem byteGroup_value (c : UInt8) : (byteGroup c).value = c := by
  obtain ⟨_, _, first, second⟩ := byteGroup_spec c
  have whole : 16 * (c.toNat / 16) + c.toNat % 16 = c.toNat := by omega
  rw [Group.value, first, second, whole, UInt8.ofNat_toNat]

theorem digit_upper {c : UInt8} (digit : HexDigit c) :
    hexDigits.getD (digitValue c) 0 = upper c := by
  have inside := digitValue_lt digit
  change (hexDigits[digitValue c]?).getD 0 = _
  rw [List.getElem?_eq_getElem inside]
  exact List.getElem_idxOf inside

theorem value_byteGroup {a b : UInt8} (high : HexDigit a) (low : HexDigit b) :
    byteGroup (Group.value (a, b)) = Group.uppercase (a, b) := by
  have x := digitValue_lt high
  have y := digitValue_lt low
  have byte : (Group.value (a, b)).toNat = 16 * digitValue a + digitValue b := by
    rw [Group.value, UInt8.toNat_ofNat']
    change (16 * digitValue a + digitValue b) % 256 = _
    omega
  have first : (16 * digitValue a + digitValue b) / 16 = digitValue a := by omega
  have second : (16 * digitValue a + digitValue b) % 16 = digitValue b := by omega
  rw [byteGroup, byte, first, second, digit_upper high, digit_upper low]
  rfl

end Digits

section Decoding

def decode : Str → Except Fault Str
  | [] => .ok []
  | [c] => if c = ch ':' then .ok [] else .error .outOfBounds
  | c :: low :: rest =>
    if c = ch ':' then decode (low :: rest)
    else do
      let szRet ← decode rest
      .ok (charOf c low :: szRet)

theorem index_drop {str rest : Str} {it : Nat} {c : UInt8} (left : str.drop it = c :: rest) :
    index str it = .ok c ∧ str.drop (it + 1) = rest := by
  have inside : str[it]? = some c := by
    rw [← List.head?_drop, left]
    rfl
  constructor
  · rw [index, inside]
  · rw [← List.drop_drop, left]
    rfl

theorem hex2strLoop_decode {str : Str} {fuel it : Nat} (inside : it ≤ str.length)
    (enough : str.length - it < fuel) : hex2strLoop str fuel it = decode (str.drop it) := by
  induction fuel generalizing it with
  | zero => omega
  | succ fuel ih =>
    have length := List.length_drop (l := str) (i := it)
    match left : str.drop it with
    | [] =>
      rw [left, List.length_nil] at length
      rw [hex2strLoop, if_pos (by omega)]
      rfl
    | [c] =>
      obtain ⟨read, next⟩ := index_drop left
      rw [left, List.length_singleton] at length
      have beyond : index str (it + 1) = .error .outOfBounds := by
        rw [index, List.getElem?_eq_none (by omega)]
      simp only [hex2strLoop, if_neg (show it ≠ str.length by omega), read, beyond, bind,
        Except.bind, decode]
      split
      · rw [ih (by omega) (by omega), next]
        rfl
      · rfl
    | c :: low :: rest =>
      obtain ⟨read, next⟩ := index_drop left
      obtain ⟨readLow, nextLow⟩ := index_drop next
      rw [left, List.length_cons, List.length_cons] at length
      simp only [hex2strLoop, if_neg (show it ≠ str.length by omega), read, readLow, bind,
        Except.bind, decode]
      split
      · rw [ih (by omega) (by omega), next]
      · rw [ih (by omega) (by omega), nextLow]

theorem hex2str_decode (str : Str) : hex2str str = decode str :=
  hex2strLoop_decode (Nat.zero_le _) (Nat.lt_succ_self _)

variable {h : Str} {groups : List Group}

theorem groups_decode (grouped : Groups h groups) : decode h = .ok (groups.map Group.value) := by
  induction grouped with
  | nil => rfl
  | @colon h groups rest ih =>
    cases h with
    | nil => exact ih
    | cons c h => exact (if_pos rfl).trans ih
  | @pair a b h groups high low rest ih =>
    have notColon := digit_not_colon high
    rw [decode, if_neg notColon, ih, charOf_group high low]
    rfl

theorem str2hex_joined (s : Str) :
    str2hex s = colonJoined (s.map fun c => (byteGroup c).text) := by
  induction s with
  | nil => rfl
  | cons c rest ih =>
    cases rest with
    | nil =>
      rw [str2hex, hexOf_byte]
      simp [colonJoined]
    | cons next rest =>
      rw [str2hex, hexOf_byte, ih]
      simp [colonJoined, List.intercalate_cons_cons]

theorem str2hex_groups (s : Str) : Groups (str2hex s) (s.map byteGroup) := by
  induction s with
  | nil => exact .nil
  | cons c rest ih =>
    obtain ⟨high, low, _⟩ := byteGroup_spec c
    cases rest with
    | nil =>
      rw [str2hex, hexOf_byte]
      exact .pair high low .nil
    | cons next rest =>
      rw [str2hex, hexOf_byte]
      exact .pair high low (.colon ih)

theorem groups_digits (grouped : Groups h groups) :
    ∀ g ∈ groups, HexDigit g.1 ∧ HexDigit g.2 := by
  induction grouped with
  | nil => simp
  | colon rest ih => exact ih
  | pair high low rest ih =>
    intro g member
    rcases List.mem_cons.mp member with rfl | inside
    · exact ⟨high, low⟩
    · exact ih g inside

/-- Encoding and decoding are inverse to each other: every string comes back from its
    upper-case groups, and any grouped digits are re-encoded in upper case, one ':'
    between two groups. -/
theorem hex_round_trip :
    (∀ s, hex2str (str2hex s) = .ok s ∧
      str2hex s = colonJoined (s.map fun c => (byteGroup c).text)) ∧
    ∀ h groups, Groups h groups → hex2str h = .ok (groups.map Group.value) ∧
      str2hex (groups.map Group.value) =
        colonJoined (groups.map fun g => g.uppercase.text) := by
  constructor
  · intro s
    refine ⟨?_, str2hex_joined s⟩
    rw [hex2str_decode, groups_decode (str2hex_groups s), List.map_map]
    have same : Group.value ∘ byteGroup = id := funext byteGroup_value
    rw [same, List.map_id]
  · intro h groups grouped
    refine ⟨by rw [hex2str_decode, groups_decode grouped], ?_⟩
    rw [str2hex_joined, List.map_map]
    congr 1
    apply List.map_congr_left
    intro g member
    obtain ⟨high, low⟩ := groups_digits grouped g member
    exact congrArg Group.text (value_byteGroup high low)

/-- Separators in front, twice in the middle and behind, and digits in both cases. -/
theorem mixed_groups_are_decoded :
    hex2str [ch ':', ch 'f', ch 'F', ch ':', ch ':', ch '0', ch 'a', ch ':'] = .ok [255, 10] ∧
      str2hex [255, 10] = [ch 'F', ch 'F', ch ':', ch '0', ch 'A'] := by
  have grouped : Groups [ch ':', ch 'f', ch 'F', ch ':', ch ':', ch '0', ch 'a', ch ':']
      [(ch 'f', ch 'F'), (ch '0', ch 'a')] :=
    .colon (.pair (by decide) (by decide) (.colon (.colon (.pair (by decide) (by decide)
      (.colon .nil)))))
  exact hex_round_trip.2 _ _ grouped

end Decoding

section Ends

def Returns (str : Str) : Prop := ∃ szRet, decode str = .ok szRet

theorem returns_colon (rest : Str) : Returns (ch ':' :: rest) ↔ Returns rest := by
  cases rest with
  | nil => exact .rfl
  | cons c rest =>
    have step : decode (ch ':' :: c :: rest) = decode (c :: rest) := if_pos rfl
    unfold Returns
    rw [step]

theorem returns_pair {c : UInt8} (low : UInt8) (rest : Str) (other : c ≠ ch ':') :
    Returns (c :: low :: rest) ↔ Returns rest := by
  unfold Returns
  rw [decode, if_neg other]
  cases decode rest with
  | error fault => simp [bind, Except.bind]
  | ok szRet => simp [bind, Except.bind]

theorem returns_behind (front back : Str) :
    Returns (front ++ ch ':' :: back) ↔ Returns back := by
  induction front using List.twoStepInduction with
  | nil => exact returns_colon back
  | singleton c =>
    by_cases colon : c = ch ':'
    · rw [colon, List.singleton_append, returns_colon, returns_colon]
    · exact returns_pair _ back colon
  | cons_cons c low rest behind next =>
    by_cases colon : c = ch ':'
    · rw [colon, List.cons_append, returns_colon]
      exact next low
    · rw [List.cons_append, List.cons_append, returns_pair _ _ colon]
      exact behind

theorem returns_even (str : Str) (absent : ch ':' ∉ str) : Returns str ↔ Even str.length := by
  induction str using List.twoStepInduction with
  | nil => exact ⟨fun _ => ⟨0, rfl⟩, fun _ => ⟨[], rfl⟩⟩
  | singleton c =>
    have other : c ≠ ch ':' := fun same => absent (by simp [same])
    have fails : decode [c] = .error .outOfBounds := if_neg other
    unfold Returns
    rw [fails]
    simp
  | cons_cons c low rest behind _ =>
    simp only [List.mem_cons, not_or] at absent
    rw [returns_pair low rest (Ne.symm absent.1), behind absent.2.2, List.length_cons,
      List.length_cons, Nat.even_add_one, Nat.even_add_one, not_not]

def lastPart (str : Str) : Str := str.rtakeWhile (· ≠ ch ':')

/-- The loop stays inside its string and ends exactly when an even number of characters
    stands behind the last ':'. -/
theorem hex2str_ends_iff (str : Str) :
    (∃ szRet, hex2str str = .ok szRet) ↔ Even (lastPart str).length := by
  have absent : ch ':' ∉ lastPart str := fun member => by
    simpa using List.mem_rtakeWhile_imp member
  have split : str.rdropWhile (· ≠ ch ':') ++ lastPart str = str :=
    List.rdropWhile_append_rtakeWhile
  have even := returns_even (lastPart str) absent
  rw [hex2str_decode]
  change Returns str ↔ _
  rw [← even]
  rcases List.eq_nil_or_concat' (str.rdropWhile (· ≠ ch ':')) with none | ⟨front, c, some⟩
  · rw [none, List.nil_append] at split
    rw [split]
  · have kept := rdropWhile_last c (by rw [some, List.getLast?_concat])
    have last : c = ch ':' := by simpa using kept
    rw [some, last, List.append_assoc, List.singleton_append] at split
    conv_lhs => rw [← split]
    exact returns_behind front (lastPart str)

/-- A single digit makes the loop read at the end of its string. -/
theorem single_digit_overruns : ¬ ∀ str, ∃ szRet, hex2str str = .ok szRet := by
  intro ends
  obtain ⟨szRet, returns⟩ := ends [ch 'a']
  have fails : hex2str [ch 'a'] = .error .outOfBounds := rfl
  rw [fails] at returns
  cases returns

end Ends

end HexText
