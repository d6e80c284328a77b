import Mathlib.Data.List.Basic

/- A completion port: the handles that are associated with it, each under a key, the
   operations in progress on any handle, and the packets of those that have completed. An
   operation on a handle that is not associated completes without a packet. -/
namespace CompletionPorts

variable {Handle Key Overlapped Result : Type}

structure Packet (Key Overlapped Result : Type) where
  key : Key
  overlapped : Overlapped
  result : Result
  deriving DecidableEq, Repr

structure Port (Handle Key Overlapped Result : Type) where
  associations : List (Handle × Key)
  started : List (Handle × Overlapped)
  packets : List (Packet Key Overlapped Result)
  deriving DecidableEq, Repr

namespace Port

def start (p : Port Handle Key Overlapped Result) (h : Handle) (o : Overlapped) :
    Port Handle Key Overlapped Result :=
  { p with started := p.started ++ [(h, o)] }

def dequeue (p : Port Handle Key Overlapped Result) (n : Nat) :
    Port Handle Key Overlapped Result :=
  { p with packets := p.packets.eraseIdx n }

def complete [DecidableEq Handle] (p : Port Handle Key Overlapped Result) (n : Nat)
    (result : Result) : Option (Port Handle Key Overlapped Result) :=
  match p.started[n]? with
  | some (h, o) =>
    match p.associations.lookup h with
    | some key =>
      some { p with started := p.started.eraseIdx n, packets := p.packets ++ [⟨key, o, result⟩] }
    | none => some { p with started := p.started.eraseIdx n }
  | none => none

/-- Every packet, now or once an operation in progress has completed, has a key and an
    operation that are `fit` for each other. -/
structure Routed (fit : Key → Overlapped → Prop) (p : Port Handle Key Overlapped Result) :
    Prop where
  queued : ∀ packet ∈ p.packets, fit packet.key packet.overlapped
  coming : ∀ operation ∈ p.started, ∀ key, (operation.1, key) ∈ p.associations →
    fit key operation.2

theorem routed_start {fit : Key → Overlapped → Prop} {p : Port Handle Key Overlapped Result}
    {h : Handle} {o : Overlapped} (routed : p.Routed fit)
    (fits : ∀ key, (h, key) ∈ p.associations → fit key o) : (p.start h o).Routed fit := by
  refine ⟨routed.queued, ?_⟩
  intro operation member
  rcases List.mem_append.mp member with old | new
  · exact routed.coming operation old
  · obtain rfl := List.mem_singleton.mp new
    exact fits

theorem routed_dequeue {fit : Key → Overlapped → Prop} {p : Port Handle Key Overlapped Result}
    (n : Nat) (routed : p.Routed fit) : (p.dequeue n).Routed fit := by
  refine ⟨?_, routed.coming⟩
  intro packet member
  exact routed.queued packet (List.mem_of_mem_eraseIdx member)

theorem lookup_mem [DecidableEq Handle] {table : List (Handle × Key)} {h : Handle} {key : Key}
    (found : table.lookup h = some key) : (h, key) ∈ table := by
  obtain ⟨before, after, rfl, _⟩ := List.lookup_eq_some_iff.mp found
  simp

theorem routed_complete [DecidableEq Handle] {fit : Key → Overlapped → Prop}
    {p q : Port Handle Key Overlapped Result} {n : Nat} {result : Result}
    (routed : p.Routed fit) (run : p.complete n result = some q) :
    q.Routed fit ∧ q.associations = p.associations := by
  unfold complete at run
  split at run
  case h_1 h o found =>
    have rest : ∀ operation ∈ p.started.eraseIdx n, ∀ key,
        (operation.1, key) ∈ p.associations → fit key operation.2 :=
      fun operation member => routed.coming operation (List.mem_of_mem_eraseIdx member)
    split at run
    case h_1 key associated =>
      obtain rfl := Option.some.inj run
      refine ⟨⟨?_, rest⟩, rfl⟩
      intro packet member
      rcases List.mem_append.mp member with old | new
      · exact routed.queued packet old
      · obtain rfl := List.mem_singleton.mp new
        exact routed.coming (h, o) (List.mem_of_getElem? found) key (lookup_mem associated)
    case h_2 =>
      obtain rfl := Option.some.inj run
      exact ⟨⟨routed.queued, rest⟩, rfl⟩
  case h_2 => cases run

end Port

end CompletionPorts
