/- Programs with a state that may stop at a fault: what holds of every outcome, and the rules
   that follow the program. -/
namespace Outcomes

variable {σ ε α β : Type}

/-- From the state `s` the program ends with a value and a state that `post` accepts, or at a
    fault that `fault` accepts. -/
def Ends (x : StateT σ (Except ε) α) (s : σ) (post : α → σ → Prop) (fault : ε → Prop) : Prop :=
  match x s with
  | .ok (a, t) => post a t
  | .error e => fault e

theorem pure_ends (a : α) (s : σ) : (pure a : StateT σ (Except ε) α) s = .ok (a, s) := rfl

section Rules

variable {x : StateT σ (Except ε) α} {f : α → StateT σ (Except ε) β} {s : σ}
  {post : α → σ → Prop} {later : β → σ → Prop} {fault : ε → Prop}

theorem ends_pure {a : α} (holds : post a s) : Ends (pure a) s post fault := holds

theorem Ends.andThen (first : Ends x s post fault)
    (next : ∀ a t, post a t → Ends (f a) t later fault) : Ends (x >>= f) s later fault := by
  unfold Ends at first ⊢
  show match (x s >>= fun p => f p.1 p.2) with
    | .ok (a, t) => later a t
    | .error e => fault e
  cases run : x s with
  | error e =>
    rw [run] at first
    exact first
  | ok p =>
    rw [run] at first
    exact next p.1 p.2 first

theorem Ends.weaken {post' : α → σ → Prop} {fault' : ε → Prop} (ends : Ends x s post fault)
    (values : ∀ a t, post a t → post' a t) (faults : ∀ e, fault e → fault' e) :
    Ends x s post' fault' := by
  unfold Ends at ends ⊢
  cases run : x s with
  | error e =>
    rw [run] at ends
    exact faults e ends
  | ok p =>
    rw [run] at ends
    exact values p.1 p.2 ends

theorem Ends.imp {post' : α → σ → Prop} (ends : Ends x s post fault)
    (values : ∀ a t, post a t → post' a t) : Ends x s post' fault :=
  ends.weaken values fun _ holds => holds

theorem ends_get {g : σ → StateT σ (Except ε) β} (next : Ends (g s) s later fault) :
    Ends (get >>= g) s later fault := next

theorem ends_modify {g : σ → σ} {post : PUnit → σ → Prop} (holds : post ⟨⟩ (g s)) :
    Ends (modify g : StateT σ (Except ε) PUnit) s post fault := holds

theorem ends_lift {y : Except ε α} {g : α → StateT σ (Except ε) β}
    (values : ∀ a, y = .ok a → Ends (g a) s later fault) (faults : ∀ e, y = .error e → fault e) :
    Ends (liftM y >>= g) s later fault := by
  cases run : y with
  | error e => exact faults e run
  | ok a => exact values a run

theorem Ends.result (ends : Ends x s post fun _ => False) :
    ∃ a t, x s = .ok (a, t) ∧ post a t := by
  unfold Ends at ends
  cases run : x s with
  | error e =>
    rw [run] at ends
    exact ends.elim
  | ok p =>
    rw [run] at ends
    exact ⟨p.1, p.2, rfl, ends⟩

end Rules

section Yields

variable {x : StateT σ (Except ε) α} {f : α → StateT σ (Except ε) β} {inv : σ → Prop}

/-- From every state of an invariant the program ends with the value `a`, and the invariant
    holds again. -/
def Yields (inv : σ → Prop) (x : StateT σ (Except ε) α) (a : α) : Prop :=
  ∀ s, inv s → Ends x s (fun b t => b = a ∧ inv t) fun _ => False

theorem yields_pure (a : α) : Yields inv (pure a : StateT σ (Except ε) α) a :=
  fun _ holds => ends_pure ⟨rfl, holds⟩

theorem Yields.andThen {a : α} {b : β} (first : Yields inv x a) (next : Yields inv (f a) b) :
    Yields inv (x >>= f) b := fun s holds =>
  (first s holds).andThen fun _ t ends => by
    obtain ⟨rfl, kept⟩ := ends
    exact next t kept

theorem yields_lift {y : Except ε α} {a : α} {b : β} (value : y = .ok a)
    (next : Yields inv (f a) b) : Yields inv (liftM y >>= f) b := fun s holds =>
  ends_lift (fun a' same => by
    obtain rfl : a = a' := Except.ok.inj (value.symm.trans same)
    exact next s holds) fun _ fault => absurd (value.symm.trans fault) (by simp)

end Yields

end Outcomes
