import Boring.Library.LinkedCells

/- Doubly linked lists in a typed memory. Both ends are parameters: null for a list that ends
   there, the address of a sentinel for a ring. -/
namespace DoublyLinked
open LinkedCells

variable {Addr Cell : Type} {null : Addr}

def Links (m : Memory null Cell) (prev next : Cell → Addr) (a p n : Addr) : Prop :=
  ∃ c, m.cell a = some c ∧ prev c = p ∧ next c = n

/-- Each cell of the list points to its neighbours, the outer ones to `before` and `after`. -/
def Linked (m : Memory null Cell) (prev next : Cell → Addr) : Addr → List Addr → Addr → Prop
  | _, [], _ => True
  | before, a :: rest, after =>
    Links m prev next a before (rest.headD after) ∧ Linked m prev next a rest after

variable {m m' : Memory null Cell} {prev next : Cell → Addr} {before after : Addr}
  {xs ys : List Addr}

theorem links_unique {a p n p' n' : Addr} (first : Links m prev next a p n)
    (second : Links m prev next a p' n') : p = p' ∧ n = n' := by
  obtain ⟨c, held, rfl, rfl⟩ := first
  obtain ⟨d, held', rfl, rfl⟩ := second
  obtain rfl : c = d := Option.some.inj (held.symm.trans held')
  exact ⟨rfl, rfl⟩

theorem headD_append (xs ys : List Addr) (after : Addr) :
    (xs ++ ys).headD after = xs.headD (ys.headD after) := by
  cases xs <;> rfl

theorem linked_append : Linked m prev next before (xs ++ ys) after ↔
    Linked m prev next before xs (ys.headD after) ∧
      Linked m prev next (xs.getLastD before) ys after := by
  induction xs generalizing before with
  | nil => simp [Linked]
  | cons a rest ih => simp only [List.cons_append, Linked, ih, headD_append, List.getLastD_cons,
      and_assoc]

theorem linked_segment (list : Linked m prev next before xs after) :
    ∃ cells, cells.map Prod.fst = xs ∧ Segment m next (xs.headD after) cells after := by
  induction xs generalizing before with
  | nil => exact ⟨[], rfl, rfl⟩
  | cons a rest ih =>
    obtain ⟨⟨c, held, -, on⟩, later⟩ := list
    obtain ⟨cells, addresses, walk⟩ := ih later
    exact ⟨(a, c) :: cells, by rw [List.map_cons, addresses], rfl, held, on ▸ walk⟩

theorem segment_snoc {p q a : Addr} {cells : List (Addr × Cell)} {c : Cell}
    (walk : Segment m next p cells a) (held : m.cell a = some c) (on : next c = q) :
    Segment m next p (cells ++ [(a, c)]) q :=
  segment_append.mpr ⟨a, walk, rfl, held, on⟩

theorem linked_back (list : Linked m prev next before xs after) :
    ∃ cells, cells.map Prod.fst = xs.reverse ∧
      Segment m prev (xs.getLastD before) cells before := by
  induction xs generalizing before with
  | nil => exact ⟨[], rfl, rfl⟩
  | cons a rest ih =>
    obtain ⟨⟨c, held, back, -⟩, later⟩ := list
    obtain ⟨cells, addresses, walk⟩ := ih later
    refine ⟨cells ++ [(a, c)], by simp [addresses], ?_⟩
    rw [List.getLastD_cons]
    exact segment_snoc walk held back

theorem linked_nodup (list : Linked m prev next before xs null) : xs.Nodup := by
  obtain ⟨cells, rfl, walk⟩ := linked_segment list
  exact chain_nodup walk

theorem linked_frame (list : Linked m prev next before xs after)
    (same : ∀ a ∈ xs, ∀ p n, Links m prev next a p n → Links m' prev next a p n) :
    Linked m' prev next before xs after := by
  induction xs generalizing before with
  | nil => trivial
  | cons a rest ih =>
    exact ⟨same a (by simp) _ _ list.1, ih list.2 fun b member => same b (by simp [member])⟩

theorem linked_aim [DecidableEq Addr] {after' : Addr}
    (list : Linked m prev next before xs after) (nodup : xs.Nodup)
    (same : ∀ a ∈ xs, ∀ p n, Links m prev next a p n →
      Links m' prev next a p (if xs.getLast? = some a then after' else n)) :
    Linked m' prev next before xs after' := by
  induction xs generalizing before with
  | nil => trivial
  | cons a rest ih =>
    obtain ⟨links, later⟩ := list
    have here := same a (by simp) _ _ links
    cases rest with
    | nil =>
      rw [List.getLast?_singleton, if_pos rfl] at here
      exact ⟨here, trivial⟩
    | cons b rest =>
      rw [List.nodup_cons] at nodup
      have inner : (b :: rest).getLast? ≠ some a := fun last =>
        nodup.1 (List.mem_of_getLast? last)
      rw [List.getLast?_cons_cons, if_neg inner] at here
      refine ⟨here, ih later nodup.2 fun c member p n found => ?_⟩
      have change := same c (by simp [member]) p n found
      rwa [List.getLast?_cons_cons] at change

theorem linked_lead [DecidableEq Addr] {before' : Addr}
    (list : Linked m prev next before xs after) (nodup : xs.Nodup)
    (same : ∀ a ∈ xs, ∀ p n, Links m prev next a p n →
      Links m' prev next a (if xs.head? = some a then before' else p) n) :
    Linked m' prev next before' xs after := by
  cases xs with
  | nil => trivial
  | cons a rest =>
    obtain ⟨links, later⟩ := list
    have here := same a (by simp) _ _ links
    rw [List.head?_cons, if_pos rfl] at here
    refine ⟨here, linked_frame later fun b member p n found => ?_⟩
    have change := same b (by simp [member]) p n found
    have other : a ≠ b := fun equal => (List.nodup_cons.mp nodup).1 (equal ▸ member)
    rwa [List.head?_cons, if_neg (by simpa using other)] at change

/-- The last cell of `xs` points on to `n'` and the first one of `ys` back to `p'`. -/
def Rejoins [DecidableEq Addr] (m m' : Memory null Cell) (prev next : Cell → Addr)
    (xs ys : List Addr) (p' n' : Addr) : Prop :=
  ∀ a ∈ xs ++ ys, ∀ p n, Links m prev next a p n →
    Links m' prev next a (if ys.head? = some a then p' else p)
      (if xs.getLast? = some a then n' else n)

theorem linked_rejoined [DecidableEq Addr] {p' n' x y : Addr}
    (front : Linked m prev next before xs x) (back : Linked m prev next y ys after)
    (nodup : (xs ++ ys).Nodup) (same : Rejoins m m' prev next xs ys p' n') :
    Linked m' prev next before xs n' ∧ Linked m' prev next p' ys after := by
  obtain ⟨nodupFront, nodupBack, apart⟩ := List.nodup_append.mp nodup
  constructor
  · refine linked_aim front nodupFront fun a member p n found => ?_
    have change := same a (by simp [member]) p n found
    have outside : ys.head? ≠ some a := fun first =>
      apart a member a (List.mem_of_head? first) rfl
    rwa [if_neg outside] at change
  · refine linked_lead back nodupBack fun a member p n found => ?_
    have change := same a (by simp [member]) p n found
    have outside : xs.getLast? ≠ some a := fun last =>
      apart a (List.mem_of_getLast? last) a member rfl
    rwa [if_neg outside] at change

theorem linked_insert [DecidableEq Addr] {x : Addr}
    (list : Linked m prev next before (xs ++ ys) after) (nodup : (xs ++ ys).Nodup)
    (node : Links m' prev next x (xs.getLastD before) (ys.headD after))
    (same : Rejoins m m' prev next xs ys x x) :
    Linked m' prev next before (xs ++ x :: ys) after := by
  obtain ⟨front, back⟩ := linked_append.mp list
  obtain ⟨front', back'⟩ := linked_rejoined front back nodup same
  exact linked_append.mpr ⟨front', node, back'⟩

theorem linked_remove [DecidableEq Addr] {x : Addr}
    (list : Linked m prev next before (xs ++ x :: ys) after) (nodup : (xs ++ x :: ys).Nodup)
    (same : Rejoins m m' prev next xs ys (xs.getLastD before) (ys.headD after)) :
    Linked m' prev next before (xs ++ ys) after := by
  obtain ⟨front, -, back⟩ := linked_append.mp list
  have apart : (xs ++ ys).Nodup :=
    nodup.sublist ((List.sublist_cons_self x ys).append_left xs)
  exact linked_append.mpr (linked_rejoined front back apart same)

section Changes

variable [DecidableEq Addr]

def changed (m : Memory null Cell) (a : Addr) (f : Cell → Cell) : Memory null Cell where
  cell := Function.update m.cell a ((m.cell a).map f)
  nullFree := by
    by_cases here : null = a
    · rw [← here, Function.update_self, m.nullFree, Option.map_none]
    · rw [Function.update_of_ne here, m.nullFree]

def modify (m : Memory null Cell) (a : Addr) (f : Cell → Cell) :
    Except Fault (Memory null Cell) := do
  let c ← m.read a
  m.write a (f c)

theorem changed_cell (m : Memory null Cell) (a b : Addr) (f : Cell → Cell) :
    (changed m a f).cell b = if b = a then (m.cell b).map f else m.cell b := by
  by_cases here : b = a
  · rw [if_pos here, here]
    exact Function.update_self ..
  · rw [if_neg here]
    exact Function.update_of_ne here ..

theorem modify_held {a : Addr} {c : Cell} (held : m.cell a = some c) (f : Cell → Cell) :
    modify m a f = .ok (changed m a f) := by
  simp only [modify, Memory.read_held held, bind, Except.bind, Memory.write_held _ held,
    Memory.put, changed, held, Option.map_some]

theorem modify_live {a : Addr} (live : ∃ c, m.cell a = some c) (f : Cell → Cell) :
    ∃ m', modify m a f = .ok m' ∧
      (∀ b, m'.cell b = if b = a then (m.cell b).map f else m.cell b) ∧
      ∀ b, (∃ c, m.cell b = some c) → ∃ c, m'.cell b = some c := by
  obtain ⟨c, held⟩ := live
  refine ⟨changed m a f, modify_held held f, fun b => changed_cell m a b f, ?_⟩
  rintro b ⟨d, held'⟩
  rw [changed_cell, held']
  split
  · exact ⟨f d, rfl⟩
  · exact ⟨d, rfl⟩

end Changes

section Walks

variable {hit : Cell → Bool}

def hits (hit : Cell → Bool) (cells : List (Addr × Cell)) : List Addr :=
  (cells.filter fun cell => hit cell.2).map Prod.fst

theorem hits_cons (a : Addr) (c : Cell) (cells : List (Addr × Cell)) :
    hits hit ((a, c) :: cells) = if hit c then a :: hits hit cells else hits hit cells := by
  unfold hits
  rw [List.filter_cons]
  split <;> rfl

theorem hits_filter {p q : Addr} {cells : List (Addr × Cell)} (seg : Segment m next p cells q) :
    hits hit cells = (cells.map Prod.fst).filter fun a => (m.cell a).any hit := by
  unfold hits
  rw [List.filter_map]
  congr 1
  refine List.filter_congr fun cell member => ?_
  rw [Function.comp_apply, segment_held seg member, Option.any_some]

variable [DecidableEq Addr]

def firstHit (m : Memory null Cell) (next : Cell → Addr) (hit : Cell → Bool) (fuel : Nat)
    (p : Addr) : Except Fault Addr :=
  search m next hit (fun _ a _ => .ok a) null fuel null p

/-- The loop that goes from hit to hit: where it has been. -/
def collect (null : Addr) (advance : Addr → Except Fault Addr) :
    Nat → Addr → Except Fault (List Addr)
  | 0, _ => .error .endlessLoop
  | fuel + 1, a =>
    if a = null then .ok []
    else do
      let b ← advance a
      let rest ← collect null advance fuel b
      return a :: rest

theorem firstHit_chain {p : Addr} {cells : List (Addr × Cell)} {fuel : Nat}
    (chain : Chain m next p cells) (enough : cells.length < fuel) :
    firstHit m next hit fuel p = .ok ((hits hit cells).headD null) := by
  suffices every : ∀ before, search m next hit (fun _ a _ => .ok a) null fuel before p =
      .ok ((hits hit cells).headD null) from every null
  intro before
  induction cells generalizing p fuel before with
  | nil => exact search_misses chain (by simp) enough
  | cons cell rest ih =>
    obtain ⟨fuel, rfl⟩ : ∃ f, fuel = f + 1 := ⟨fuel - 1, by omega⟩
    obtain ⟨a, c⟩ := cell
    obtain ⟨rfl, held, later⟩ := chain
    rw [hits_cons, search, if_neg (Memory.address_ne_null held), Memory.read_held held]
    by_cases here : hit c
    · simp [bind, Except.bind, here]
    · simp only [bind, Except.bind, here, Bool.false_eq_true, if_false]
      exact ih later (by simpa using enough) p

theorem collect_chain {p : Addr} {cells : List (Addr × Cell)} {bound fuel : Nat}
    (chain : Chain m next p cells) (short : cells.length < bound)
    (enough : cells.length < fuel) :
    collect null (fun a => do firstHit m next hit bound (next (← m.read a))) fuel
      ((hits hit cells).headD null) = .ok (hits hit cells) := by
  induction cells generalizing p fuel with
  | nil =>
    obtain ⟨fuel, rfl⟩ : ∃ f, fuel = f + 1 := ⟨fuel - 1, by omega⟩
    simp [hits, collect]
  | cons cell rest ih =>
    obtain ⟨fuel, rfl⟩ : ∃ f, fuel = f + 1 := ⟨fuel - 1, by omega⟩
    obtain ⟨a, c⟩ := cell
    obtain ⟨-, held, later⟩ := chain
    rw [List.length_cons] at short enough
    rw [hits_cons]
    by_cases here : hit c
    · have advanced : (do firstHit m next hit bound (next (← m.read a))) =
          .ok ((hits hit rest).headD null) := by
        rw [Memory.read_held held]
        exact firstHit_chain later (Nat.lt_of_succ_lt short)
      rw [if_pos here, List.headD_cons, collect, if_neg (Memory.address_ne_null held), advanced]
      show (do return a :: (← collect null _ fuel ((hits hit rest).headD null))) = _
      rw [ih later (by omega) (by omega)]
      rfl
    · rw [if_neg here]
      exact ih later (by omega) (by omega)

theorem collect_congr {f g : Addr → Except Fault Addr} (same : ∀ a, a ≠ null → f a = g a)
    (fuel : Nat) (a : Addr) : collect null f fuel a = collect null g fuel a := by
  induction fuel generalizing a with
  | zero => rfl
  | succ fuel ih =>
    rw [collect, collect]
    split
    · rfl
    · rename_i live
      rw [same a live]
      cases g a with
      | error fault => rfl
      | ok b =>
        show (do return a :: (← collect null f fuel b)) = (do return a :: (← collect null g fuel b))
        rw [ih]

theorem loop_chain {p : Addr} {cells : List (Addr × Cell)} {bound fuel : Nat}
    {begins : Except Fault Addr} {advance : Addr → Except Fault Addr}
    (chain : Chain m next p cells) (short : cells.length < bound) (enough : cells.length < fuel)
    (begun : begins = .ok ((hits hit cells).headD null))
    (same : ∀ a, a ≠ null → advance a = do firstHit m next hit bound (next (← m.read a))) :
    (do collect null advance fuel (← begins)) = .ok (hits hit cells) := by
  rw [begun]
  exact (collect_congr same fuel _).trans (collect_chain chain short enough)

end Walks

end DoublyLinked
