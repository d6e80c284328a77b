import Mathlib.Data.List.Basic
import Mathlib.Data.List.Nodup
import Mathlib.Logic.Function.Basic

/- A typed memory of cells with a null address, and the singly linked chains in it.
   The null address is never allocated, which is a field of the memory. A memory operation
   that C leaves undefined ends in a `Fault`. -/
namespace LinkedCells

inductive Fault where
  | nullDereference
  | useAfterFree
  | addressInUse
  | outOfBounds
  | uninitialised
  | endlessLoop
  deriving DecidableEq, Repr

structure Memory {Addr : Type} (null : Addr) (Cell : Type) where
  cell : Addr → Option Cell
  nullFree : cell null = none

variable {Addr Cell : Type} {null : Addr}

namespace Memory

def empty : Memory null Cell := ⟨fun _ => none, rfl⟩

def Fresh (m : Memory null Cell) (a : Addr) : Prop := a ≠ null ∧ m.cell a = none

theorem address_ne_null {m : Memory null Cell} {a : Addr} {c : Cell}
    (held : m.cell a = some c) : a ≠ null := by
  rintro rfl
  simp [m.nullFree] at held

theorem kept_held {α : Type} {m m' : Memory null Cell} {a : Addr} {c : Cell} {f : Cell → α}
    (kept : (m'.cell a).map f = (m.cell a).map f) (held : m.cell a = some c) :
    ∃ c', m'.cell a = some c' ∧ f c' = f c := by
  rwa [held, Option.map_some, Option.map_eq_some_iff] at kept

theorem fresh_ne {m : Memory null Cell} {a b : Addr} {c : Cell} (fresh : m.Fresh a)
    (held : m.cell b = some c) : b ≠ a := by
  rintro rfl
  rw [fresh.2] at held
  cases held

variable [DecidableEq Addr]

def put (m : Memory null Cell) (a : Addr) (c : Option Cell) (ne : a ≠ null) : Memory null Cell where
  cell := Function.update m.cell a c
  nullFree := by rw [Function.update_of_ne ne.symm]; exact m.nullFree

def missing (null a : Addr) : Fault := if a = null then .nullDereference else .useAfterFree

def read (m : Memory null Cell) (a : Addr) : Except Fault Cell :=
  match m.cell a with
  | some c => .ok c
  | none => .error (missing null a)

/-- `free` and `write` need an allocated cell; `malloc` stores at the address chosen
    by the allocator, which must not be in use. -/
def write (m : Memory null Cell) (a : Addr) (c : Cell) : Except Fault (Memory null Cell) :=
  match held : m.cell a with
  | some _ => .ok (m.put a (some c) (address_ne_null held))
  | none => .error (missing null a)

def free (m : Memory null Cell) (a : Addr) : Except Fault (Memory null Cell) :=
  match held : m.cell a with
  | some _ => .ok (m.put a none (address_ne_null held))
  | none => .error (missing null a)

def malloc (m : Memory null Cell) (a : Addr) (c : Cell) : Except Fault (Memory null Cell) :=
  if ne : a = null then .error .nullDereference
  else match m.cell a with
    | some _ => .error .addressInUse
    | none => .ok (m.put a (some c) ne)

@[simp] theorem put_cell (m : Memory null Cell) (a : Addr) (c : Option Cell) (ne : a ≠ null) :
    (m.put a c ne).cell = Function.update m.cell a c := rfl

theorem put_put (m : Memory null Cell) (a : Addr) (c d : Option Cell) (ne ne' : a ≠ null) :
    (m.put a c ne).put a d ne' = m.put a d ne' := by
  simp [put]

theorem put_keeps {α : Type} {m : Memory null Cell} {a : Addr} {c d : Cell}
    (held : m.cell a = some c) (f : Cell → α) (same : f d = f c) (ne : a ≠ null) (b : Addr) :
    ((m.put a (some d) ne).cell b).map f = (m.cell b).map f := by
  by_cases here : b = a
  · simp [here, held, same]
  · simp [Function.update_of_ne here]

theorem read_held {m : Memory null Cell} {a : Addr} {c : Cell} (held : m.cell a = some c) :
    m.read a = .ok c := by
  simp [read, held]

theorem write_held {m : Memory null Cell} {a : Addr} {old : Cell} (c : Cell)
    (held : m.cell a = some old) :
    m.write a c = .ok (m.put a (some c) (address_ne_null held)) := by
  unfold write
  split
  · rfl
  · rename_i absent
    simp [held] at absent

theorem free_held {m : Memory null Cell} {a : Addr} {old : Cell} (held : m.cell a = some old) :
    m.free a = .ok (m.put a none (address_ne_null held)) := by
  unfold free
  split
  · rfl
  · rename_i absent
    simp [held] at absent

theorem malloc_fresh {m : Memory null Cell} {a : Addr} (c : Cell) (fresh : m.Fresh a) :
    m.malloc a c = .ok (m.put a (some c) fresh.1) := by
  simp [malloc, fresh.1, fresh.2]

theorem malloc_ok {m m' : Memory null Cell} {a : Addr} {c : Cell} (run : m.malloc a c = .ok m') :
    ∃ fresh : m.Fresh a, m' = m.put a (some c) fresh.1 := by
  unfold malloc at run
  split at run
  · cases run
  · rename_i ne
    split at run
    · cases run
    · rename_i absent
      exact ⟨⟨ne, absent⟩, (Except.ok.inj run).symm⟩

end Memory

/-- Following `next` from `p` visits exactly `cells` and arrives at `q`. -/
def Segment (m : Memory null Cell) (next : Cell → Addr) : Addr → List (Addr × Cell) → Addr → Prop
  | p, [], q => p = q
  | p, (a, c) :: rest, q => p = a ∧ m.cell a = some c ∧ Segment m next (next c) rest q

abbrev Chain (m : Memory null Cell) (next : Cell → Addr) (p : Addr) (cells : List (Addr × Cell)) :
    Prop := Segment m next p cells null

variable {m : Memory null Cell} {next : Cell → Addr}

theorem segment_append {p q : Addr} {xs ys : List (Addr × Cell)} :
    Segment m next p (xs ++ ys) q ↔
      ∃ middle, Segment m next p xs middle ∧ Segment m next middle ys q := by
  induction xs generalizing p with
  | nil => simp [Segment]
  | cons x xs ih =>
    obtain ⟨a, c⟩ := x
    simp only [List.cons_append, Segment, ih]
    constructor
    · rintro ⟨here, held, middle, first, second⟩
      exact ⟨middle, ⟨here, held, first⟩, second⟩
    · rintro ⟨middle, ⟨here, held, first⟩, second⟩
      exact ⟨here, held, middle, first, second⟩

theorem segment_held {p q : Addr} {xs : List (Addr × Cell)} (seg : Segment m next p xs q)
    {a : Addr} {c : Cell} (member : (a, c) ∈ xs) : m.cell a = some c := by
  induction xs generalizing p with
  | nil => simp at member
  | cons x xs ih =>
    rcases List.mem_cons.mp member with same | later
    · subst x
      exact seg.2.1
    · exact ih seg.2.2 later

theorem segment_frame {m' : Memory null Cell} {p q : Addr} {xs : List (Addr × Cell)}
    (seg : Segment m next p xs q)
    (same : ∀ a ∈ xs.map Prod.fst, m'.cell a = m.cell a) : Segment m' next p xs q := by
  induction xs generalizing p with
  | nil => exact seg
  | cons x xs ih =>
    obtain ⟨a, c⟩ := x
    refine ⟨seg.1, ?_, ih seg.2.2 fun b member => same b (by simp [member])⟩
    rw [same a (by simp)]
    exact seg.2.1

theorem segment_links {m' : Memory null Cell} {p q : Addr} {xs : List (Addr × Cell)}
    (seg : Segment m next p xs q)
    (links : ∀ x ∈ xs, (m'.cell x.1).map next = some (next x.2)) :
    ∃ ys, ys.map Prod.fst = xs.map Prod.fst ∧ Segment m' next p ys q := by
  induction xs generalizing p with
  | nil => exact ⟨[], rfl, seg⟩
  | cons x xs ih =>
    obtain ⟨a, c⟩ := x
    obtain ⟨here, _, later⟩ := seg
    obtain ⟨c', held, same⟩ := Option.map_eq_some_iff.mp (links (a, c) (by simp))
    obtain ⟨ys, addresses, rest⟩ := ih later fun x member => links x (by simp [member])
    exact ⟨(a, c') :: ys, congrArg (a :: ·) addresses, here, held, same ▸ rest⟩

theorem segment_avoids {p q : Addr} {xs : List (Addr × Cell)} {set : List Addr}
    (seg : Segment m next p xs q) (outside : p ∉ set)
    (stays : ∀ a c, m.cell a = some c → a ∉ set → next c ∉ set) :
    ∀ a ∈ xs.map Prod.fst, a ∉ set := by
  induction xs generalizing p with
  | nil => simp
  | cons x xs ih =>
    obtain ⟨a, c⟩ := x
    obtain ⟨rfl, held, rest⟩ := seg
    rw [List.map_cons, List.forall_mem_cons]
    exact ⟨outside, ih rest (stays _ c held outside)⟩

theorem chain_filled {p : Addr} {cells : List (Addr × Cell)} (chain : Chain m next p cells)
    (filled : cells ≠ []) : p ≠ null := by
  cases cells with
  | nil => exact absurd rfl filled
  | cons cell rest =>
    obtain ⟨rfl, held, _⟩ := chain
    exact Memory.address_ne_null held

theorem chain_unique {p : Addr} {xs ys : List (Addr × Cell)} (left : Chain m next p xs)
    (right : Chain m next p ys) : xs = ys := by
  induction xs generalizing p ys with
  | nil =>
    cases ys with
    | nil => rfl
    | cons y ys => exact absurd left (chain_filled right (List.cons_ne_nil y ys))
  | cons x xs ih =>
    cases ys with
    | nil => exact absurd right (chain_filled left (List.cons_ne_nil x xs))
    | cons y ys =>
      obtain ⟨a, c⟩ := x
      obtain ⟨b, d⟩ := y
      have sameAddr : a = b := left.1.symm.trans right.1
      subst b
      have sameCell : c = d := Option.some.inj (left.2.1.symm.trans right.2.1)
      subst d
      rw [ih left.2.2 right.2.2]

theorem chain_suffix {p : Addr} {xs ys : List (Addr × Cell)} {a : Addr} {c : Cell}
    (chain : Chain m next p (xs ++ (a, c) :: ys)) : Chain m next a ((a, c) :: ys) := by
  obtain ⟨middle, _, rest⟩ := segment_append.mp chain
  have here : middle = a := rest.1
  exact here ▸ rest

theorem chain_nodup {p : Addr} {xs : List (Addr × Cell)} (chain : Chain m next p xs) :
    (xs.map Prod.fst).Nodup := by
  induction xs generalizing p with
  | nil => simp
  | cons x xs ih =>
    obtain ⟨a, c⟩ := x
    simp only [List.map_cons, List.nodup_cons]
    refine ⟨?_, ih chain.2.2⟩
    intro repeated
    obtain ⟨⟨b, d⟩, member, same⟩ := List.mem_map.mp repeated
    obtain ⟨before, after, split⟩ := List.append_of_mem member
    simp only at same
    subst b
    -- the chain from `a` would be its own proper suffix
    have inner : Chain m next a ((a, d) :: after) := chain_suffix (split ▸ chain.2.2)
    have outer : Chain m next a ((a, c) :: xs) := ⟨rfl, chain.2⟩
    have lengths := congrArg List.length (chain_unique outer inner)
    rw [split] at lengths
    simp at lengths
    omega

theorem chain_after {p q : Addr} {xs ys : List (Addr × Cell)} (seg : Segment m next p xs q)
    (chain : Chain m next p ys) : ∃ rest, ys = xs ++ rest ∧ Chain m next q rest := by
  induction xs generalizing p ys with
  | nil =>
    have here : p = q := seg
    exact ⟨ys, rfl, here ▸ chain⟩
  | cons x xs ih =>
    obtain ⟨a, c⟩ := x
    obtain ⟨here, held, later⟩ := seg
    cases ys with
    | nil =>
      have atNull : p = null := chain
      exact absurd (here.symm.trans atNull) (Memory.address_ne_null held)
    | cons y ys =>
      obtain ⟨b, d⟩ := y
      have sameAddr : a = b := here.symm.trans chain.1
      subst b
      have sameCell : c = d := Option.some.inj (held.symm.trans chain.2.1)
      subst d
      obtain ⟨rest, split, after⟩ := ih later chain.2.2
      exact ⟨rest, congrArg _ split, after⟩

theorem cycle_endless {p : Addr} {xs : List (Addr × Cell)} (cycle : Segment m next p xs p)
    (turns : xs ≠ []) (ys : List (Addr × Cell)) : ¬ Chain m next p ys := by
  intro chain
  obtain ⟨rest, split, after⟩ := chain_after cycle chain
  have lengths := congrArg List.length (chain_unique chain after)
  rw [split, List.length_append] at lengths
  have := List.length_pos_of_ne_nil turns
  omega

def addressBefore (before : Addr) : List (Addr × Cell) → Addr
  | [] => before
  | (a, _) :: rest => addressBefore a rest

theorem addressBefore_concat (before b : Addr) (c : Cell) (passed : List (Addr × Cell)) :
    addressBefore before (passed ++ [(b, c)]) = b := by
  induction passed generalizing before with
  | nil => rfl
  | cons cell rest ih => exact ih cell.1

theorem cons_eq_concat {α : Type} (x : α) (xs : List α) :
    ∃ front back, x :: xs = front ++ [back] :=
  ⟨_, _, (List.dropLast_append_getLast (List.cons_ne_nil x xs)).symm⟩

theorem erase_cases {α : Type} (xs : List α) (hit : α → Bool) :
    (∀ x ∈ xs, hit x = false) ∧ xs.eraseP hit = xs ∨
      ∃ before t after, xs = before ++ t :: after ∧ hit t = true ∧
        (∀ x ∈ before, hit x = false) ∧ xs.eraseP hit = before ++ after := by
  by_cases present : ∃ x ∈ xs, hit x = true
  · obtain ⟨x, member, hits⟩ := present
    obtain ⟨t, before, after, others, found, split, erased⟩ := List.exists_of_eraseP member hits
    exact Or.inr ⟨before, t, after, split, found, by simpa using others, erased⟩
  · simp only [not_exists, not_and, Bool.not_eq_true] at present
    exact Or.inl ⟨present, List.eraseP_of_forall_not (by simpa using present)⟩

theorem chain_addresses_not_null {p : Addr} {xs : List (Addr × Cell)} (chain : Chain m next p xs) :
    null ∉ xs.map Prod.fst := by
  intro member
  obtain ⟨⟨a, c⟩, inside, isNull⟩ := List.mem_map.mp member
  exact Memory.address_ne_null (segment_held chain inside) isNull

theorem fresh_outside {p q a : Addr} {xs : List (Addr × Cell)} (seg : Segment m next p xs q)
    (fresh : m.Fresh a) : a ∉ xs.map Prod.fst := by
  intro member
  obtain ⟨cell, inside, same⟩ := List.mem_map.mp member
  exact Memory.fresh_ne fresh (segment_held seg inside) same

section Update

variable [DecidableEq Addr]

theorem segment_update_frame {p q a : Addr} {xs : List (Addr × Cell)}
    (seg : Segment m next p xs q) (c : Option Cell) (ne : a ≠ null)
    (outside : a ∉ xs.map Prod.fst) : Segment (m.put a c ne) next p xs q := by
  apply segment_frame seg
  intro b member
  have differs : b ≠ a := fun same => outside (same ▸ member)
  simp [Function.update_of_ne differs]

theorem segment_redirect {p q a : Addr} {xs ys : List (Addr × Cell)} (c : Cell)
    (ne : a ≠ null) (front : Segment m next p xs a) (back : Segment m next (next c) ys q)
    (front_apart : a ∉ xs.map Prod.fst) (back_apart : a ∉ ys.map Prod.fst) :
    Segment (m.put a (some c) ne) next p (xs ++ (a, c) :: ys) q := by
  refine segment_append.mpr ⟨a, segment_update_frame front _ ne front_apart, rfl, ?_, ?_⟩
  · simp
  · exact segment_update_frame back _ ne back_apart

theorem chain_rewrite {m' : Memory null Cell} {p b : Addr} {c cb : Cell}
    {xs ys : List (Addr × Cell)} (chain : Chain m next p (xs ++ (b, cb) :: ys))
    (new : m'.cell = Function.update m.cell b (some c)) (link : next c = next cb) :
    Chain m' next p (xs ++ (b, c) :: ys) := by
  have distinct := chain_nodup chain
  simp only [List.map_append, List.map_cons, List.nodup_append, List.nodup_cons, List.mem_cons]
    at distinct
  obtain ⟨_, ⟨outside, _⟩, disjoint⟩ := distinct
  obtain ⟨middle, front, here, _, back⟩ := segment_append.mp chain
  subst middle
  have other (a : Addr) (differs : a ≠ b) : m'.cell a = m.cell a := by
    rw [new, Function.update_of_ne differs]
  refine segment_append.mpr ⟨_, segment_frame front fun a member => other a ?_, rfl, by simp [new],
    link ▸ segment_frame back fun a member => other a ?_⟩
  · exact fun same => disjoint a member _ (.inl rfl) same
  · exact fun same => outside (same ▸ member)

theorem chain_bypass {p a b : Addr} {ca cb : Cell} {xs ys : List (Addr × Cell)}
    (chain : Chain m next p (xs ++ (b, cb) :: (a, ca) :: ys)) (c : Cell) (ne : b ≠ null)
    (link : next c = next ca) :
    Chain (m.put b (some c) ne) next p (xs ++ (b, c) :: ys) := by
  have distinct := chain_nodup chain
  simp only [List.map_append, List.map_cons, List.nodup_append, List.nodup_cons,
    List.mem_cons, not_or] at distinct
  obtain ⟨_, ⟨⟨_, apart⟩, _⟩, disjoint⟩ := distinct
  obtain ⟨middle, front, here, _, _, _, back⟩ := segment_append.mp chain
  subst middle
  refine segment_redirect c ne front (by rw [link]; exact back) ?_ apart
  intro member
  exact disjoint b member b (by simp) rfl

theorem chain_hook {p a b : Addr} {cb : Cell} {xs : List (Addr × Cell)}
    (chain : Chain m next p (xs ++ [(b, cb)])) (outside : a ∉ (xs ++ [(b, cb)]).map Prod.fst)
    (c d : Cell) (notNull : a ≠ null) (ne : b ≠ null) (link : next d = a) (ends : next c = null) :
    Chain ((m.put a (some c) notNull).put b (some d) ne) next p (xs ++ [(b, d), (a, c)]) := by
  have distinct := chain_nodup chain
  simp only [List.map_append, List.map_cons, List.map_nil, List.mem_append,
    List.mem_singleton, not_or] at outside
  simp only [List.map_append, List.map_cons, List.map_nil, List.nodup_append] at distinct
  obtain ⟨middle, front, here, _, _⟩ := segment_append.mp chain
  subst middle
  have added : Segment (m.put a (some c) notNull) next (next d) [(a, c)] null := by
    simp [Segment, link, ends]
  refine segment_redirect d ne (segment_update_frame front _ notNull outside.1) added ?_ ?_
  · intro member
    exact distinct.2.2 b member b (by simp) rfl
  · simpa using Ne.symm outside.2

theorem chain_push {p a b : Addr} {cb : Cell} {xs : List (Addr × Cell)}
    (chain : Chain m next p (xs ++ [(b, cb)])) (fresh : m.Fresh a) (c d : Cell) (ne : b ≠ null)
    (link : next d = a) (ends : next c = null) :
    Chain ((m.put a (some c) fresh.1).put b (some d) ne) next p (xs ++ [(b, d), (a, c)]) :=
  chain_hook chain (fresh_outside chain fresh) c d fresh.1 ne link ends

/-- A loop that walks along `next`, remembering the address before, until a cell is hit.
    `fuel` bounds the walk; a walk that exceeds the number of addresses never ends. -/
def search {Out : Type} (m : Memory null Cell) (next : Cell → Addr) (hit : Cell → Bool)
    (found : Addr → Addr → Cell → Except Fault Out) (missed : Out) :
    Nat → Addr → Addr → Except Fault Out
  | 0, _, _ => .error .endlessLoop
  | fuel + 1, before, p =>
    if p = null then .ok missed
    else do
      let c ← m.read p
      if hit c then found before p c
      else search m next hit found missed fuel p (next c)

variable {Out : Type} {hit : Cell → Bool} {found : Addr → Addr → Cell → Except Fault Out}
  {missed : Out}

theorem search_hits {before p a : Addr} {c : Cell} {passed rest : List (Addr × Cell)} {fuel : Nat}
    (chain : Chain m next p (passed ++ (a, c) :: rest))
    (passes : ∀ cell ∈ passed, hit cell.2 = false) (hits : hit c = true)
    (enough : passed.length < fuel) :
    search m next hit found missed fuel before p = found (addressBefore before passed) a c := by
  induction passed generalizing before p fuel with
  | nil =>
    obtain ⟨f, rfl⟩ : ∃ f, fuel = f + 1 := ⟨fuel - 1, by omega⟩
    obtain ⟨here, held, _⟩ := chain
    subst here
    simp [search, Memory.address_ne_null held, Memory.read_held held, bind, Except.bind, hits,
      addressBefore]
  | cons cell passed ih =>
    obtain ⟨f, rfl⟩ : ∃ f, fuel = f + 1 := ⟨fuel - 1, by omega⟩
    obtain ⟨here, held, tail⟩ := chain
    subst here
    have later := @ih cell.1 (next cell.2) f tail (fun c member => passes c (by simp [member]))
      (by simpa using enough)
    simp [search, Memory.address_ne_null held, Memory.read_held held, bind, Except.bind,
      passes cell (by simp), addressBefore, later]

theorem search_misses {before p : Addr} {cells : List (Addr × Cell)} {fuel : Nat}
    (chain : Chain m next p cells) (passes : ∀ cell ∈ cells, hit cell.2 = false)
    (enough : cells.length < fuel) :
    search m next hit found missed fuel before p = .ok missed := by
  induction cells generalizing before p fuel with
  | nil =>
    obtain ⟨f, rfl⟩ : ∃ f, fuel = f + 1 := ⟨fuel - 1, by omega⟩
    have atNull : p = null := chain
    simp [search, atNull]
  | cons cell rest ih =>
    obtain ⟨f, rfl⟩ : ∃ f, fuel = f + 1 := ⟨fuel - 1, by omega⟩
    obtain ⟨here, held, tail⟩ := chain
    subst here
    have later := @ih cell.1 (next cell.2) f tail (fun c member => passes c (by simp [member]))
      (by simpa using enough)
    simp [search, Memory.address_ne_null held, Memory.read_held held, bind, Except.bind,
      passes cell (by simp), later]

end Update

end LinkedCells
