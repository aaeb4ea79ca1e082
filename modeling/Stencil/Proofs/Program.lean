import Stencil.Program

/-!
# A program that checks first leaves no trace when it fails

A program that checks before it writes cannot fail once it has written. `Reads`, `Succeeds` and
`Atomic` say this of the parts of a program and go through its steps. `settle` is how a program
answers that does what a function on states does, which returns the new state or none.
-/

namespace Stencil

namespace Program

variable {ε σ α β γ δ : Type} {p : Program ε σ α} {f : α → Program ε σ β} {s : σ}

theorem exec_bind (p : Program ε σ α) (f : α → Program ε σ β) (s : σ) :
    (p >>= f).exec s =
      match p.exec s with
      | (.ok x, t) => (f x).exec t
      | (.error e, t) => (.error e, t) := by
  change StateT.run (ExceptT.run (p >>= f)) s = _
  rw [ExceptT.run_bind, StateT.run_bind]
  unfold exec
  generalize StateT.run (ExceptT.run p) s = r
  rcases r with ⟨x | e, t⟩ <;> rfl

@[simp] theorem exec_pure (x : α) (s : σ) : (pure x : Program ε σ α).exec s = (.ok x, s) := rfl

@[simp] theorem exec_throw (e : ε) (s : σ) :
    (throw e : Program ε σ α).exec s = (.error e, s) := rfl

@[simp] theorem exec_get (s : σ) : (get : Program ε σ σ).exec s = (.ok s, s) := rfl

@[simp] theorem exec_modify (g : σ → σ) (s : σ) :
    (modify g : Program ε σ PUnit).exec s = (.ok ⟨⟩, g s) := rfl

@[simp] theorem exec_check (c : σ → Except ε α) (s : σ) : (check c).exec s = (c s, s) := by
  cases h : c s with
  | ok x => simp [check, exec_bind, h, MonadExcept.ofExcept]
  | error e => simp [check, exec_bind, h, MonadExcept.ofExcept]

@[simp] theorem exec_failIf (c : Bool) (e : ε) (s : σ) :
    (failIf c e).exec s = (if c then .error e else .ok (), s) := by
  cases c <;> rfl

/-- A program fails in its first step, or in what follows in the state that the first step has
left. -/
theorem exec_bind_eq_error_iff {e : ε} {t : σ} :
    (p >>= f).exec s = (.error e, t) ↔
      p.exec s = (.error e, t) ∨
        ∃ x u, p.exec s = (.ok x, u) ∧ (f x).exec u = (.error e, t) := by
  rw [exec_bind]
  rcases p.exec s with ⟨e' | x, u⟩
  · simp
  · simp [and_assoc]

/-! ### Programs that leave no trace -/

/-- The program does not write. -/
def Reads (p : Program ε σ α) : Prop := ∀ s, (p.exec s).2 = s

/-- The program does not fail. -/
def Succeeds (p : Program ε σ α) : Prop := ∀ s, ∃ x t, p.exec s = (.ok x, t)

/-- When the program fails, the state is as it was at the start. -/
def Atomic (p : Program ε σ α) : Prop := ∀ s e t, p.exec s = (.error e, t) → t = s

theorem Reads.atomic (hp : Reads p) : Atomic p := by
  intro s e t hexec
  rw [← hp s, hexec]

theorem Succeeds.atomic (hp : Succeeds p) : Atomic p := by
  intro s e t hexec
  obtain ⟨x, u, hok⟩ := hp s
  rw [hok] at hexec
  cases hexec

theorem Succeeds.bind (hp : Succeeds p) (hf : ∀ x, Succeeds (f x)) : Succeeds (p >>= f) := by
  intro s
  obtain ⟨x, u, hok⟩ := hp s
  rw [exec_bind, hok]
  exact hf x u

/-- To read first does no harm. -/
theorem Reads.bind (hp : Reads p) (hf : ∀ x, Atomic (f x)) : Atomic (p >>= f) := by
  intro s e t hexec
  rcases exec_bind_eq_error_iff.mp hexec with hfail | ⟨x, u, hok, hfail⟩
  · exact hp.atomic s e t hfail
  · have hu : u = s := by rw [← hp s, hok]
    exact hu ▸ hf x u e t hfail

/-- What cannot fail may follow. -/
theorem Atomic.bind (hp : Atomic p) (hf : ∀ x, Succeeds (f x)) : Atomic (p >>= f) := by
  intro s e t hexec
  rcases exec_bind_eq_error_iff.mp hexec with hfail | ⟨x, u, -, hfail⟩
  · exact hp s e t hfail
  · obtain ⟨y, u', hok⟩ := hf x u
    rw [hok] at hfail
    cases hfail

theorem reads_get : Reads (get : Program ε σ σ) := fun _ => rfl

theorem reads_check (c : σ → Except ε α) : Reads (check c) := by
  intro s
  rw [exec_check]

theorem reads_failIf (c : Bool) (e : ε) : Reads (failIf c e : Program ε σ Unit) := by
  intro s
  rw [exec_failIf]

theorem reads_throw (e : ε) : Reads (throw e : Program ε σ α) := fun _ => rfl

theorem succeeds_pure (x : α) : Succeeds (pure x : Program ε σ α) := fun s => ⟨x, s, rfl⟩

theorem succeeds_modify (g : σ → σ) : Succeeds (modify g : Program ε σ PUnit) :=
  fun s => ⟨⟨⟩, g s, rfl⟩

theorem reads_forM (o? : Option γ) {g : γ → Program ε σ PUnit} (hg : ∀ o, Reads (g o)) :
    Reads (o?.forM g) := by
  cases o? with
  | none => exact fun _ => rfl
  | some o => exact hg o

/-! ### Programs and functions -/

/-- The answer of a function on states and the state after it, which is the old one if the
function returns none. -/
def settle (s : σ) (k : γ → α × σ) : Except ε γ → Except ε α × σ
  | .ok c => (.ok (k c).1, (k c).2)
  | .error e => (.error e, s)

theorem exec_check_bind {k : γ → β × σ} {c : σ → Except ε α} {f : α → Program ε σ β}
    {g : α → Except ε γ} (h : ∀ x, c s = .ok x → (f x).exec s = settle s k (g x)) :
    (check c >>= f).exec s = settle s k (c s >>= g) := by
  rw [exec_bind, exec_check]
  cases hc : c s with
  | error e => rfl
  | ok x => exact h x hc

theorem exec_bind_pure {k : γ → β × σ} {p : Program ε σ β} {r : Except ε γ}
    (h : p.exec s = settle s k r) (g : β → δ) :
    (p >>= fun x => pure (g x)).exec s =
      settle s id (r >>= fun c => pure (g (k c).1, (k c).2)) := by
  rw [exec_bind, h]
  cases r <;> rfl

end Program

end Stencil
