/-!
# Computations that succeed

An edit answers with a result or with a refusal. `Succeeds` says that there is a result and what it
is like. Edits are sequences of smaller edits, and `Succeeds.bind` puts the parts together. `Yields`
leaves open whether there is a result.
-/

namespace FormulaEditor

/-- A sequence goes on with the result of its first part. -/
theorem ok_bind {ε α β : Type} (a : α) (k : α → Except ε β) :
    ((.ok a : Except ε α) >>= k) = k a :=
  rfl

/-- A sequence has a result when its parts do, one after the other. -/
theorem bind_eq_ok {ε α β : Type} {x : Except ε α} {k : α → Except ε β} {b : β} :
    (x >>= k) = .ok b ↔ ∃ a, x = .ok a ∧ k a = .ok b := by
  cases x with
  | error e => simp [bind, Except.bind]
  | ok a => simp [bind, Except.bind]

theorem map_eq_ok {ε α β : Type} {x : Except ε α} {g : α → β} {b : β} :
    x.map g = .ok b ↔ ∃ a, x = .ok a ∧ g a = b := by
  cases x with
  | error e => simp [Except.map]
  | ok a => simp [Except.map]

/-- The computation has a result, and the result is as said. -/
def Succeeds {ε α : Type} (x : Except ε α) (p : α → Prop) : Prop :=
  ∃ a, x = .ok a ∧ p a

namespace Succeeds

variable {ε α β : Type} {p : α → Prop} {q : β → Prop}

@[simp] theorem ok_iff {a : α} : Succeeds (.ok a : Except ε α) p ↔ p a := by
  simp [Succeeds]

@[simp] theorem not_error {e : ε} : ¬Succeeds (.error e : Except ε α) p := by
  simp [Succeeds]

theorem ok {a : α} (h : p a) : Succeeds (.ok a : Except ε α) p := ⟨a, rfl, h⟩

theorem bind {x : Except ε α} {k : α → Except ε β} (hx : Succeeds x p)
    (hk : ∀ a, p a → Succeeds (k a) q) : Succeeds (x >>= k) q := by
  obtain ⟨a, rfl, ha⟩ := hx
  exact hk a ha

theorem mono {p' : α → Prop} {x : Except ε α} (hx : Succeeds x p) (h : ∀ a, p a → p' a) :
    Succeeds x p' := by
  obtain ⟨a, rfl, ha⟩ := hx
  exact ⟨a, rfl, h a ha⟩

theorem map {x : Except ε α} {g : α → β} (hx : Succeeds x fun a => q (g a)) :
    Succeeds (x.map g) q := by
  obtain ⟨a, rfl, ha⟩ := hx
  exact ⟨g a, rfl, ha⟩

theorem of_eq_ok {x : Except ε α} {a : α} (hx : Succeeds x p) (h : x = .ok a) : p a := by
  obtain ⟨b, hb, hp⟩ := hx
  rw [h] at hb
  cases hb
  exact hp

end Succeeds

/-- Whatever result the computation has is as said. -/
def Yields {ε α : Type} (x : Except ε α) (p : α → Prop) : Prop :=
  ∀ a, x = .ok a → p a

namespace Yields

variable {ε α β : Type} {p : α → Prop} {q : β → Prop}

theorem ok {a : α} (h : p a) : Yields (.ok a : Except ε α) p := by
  rintro _ ⟨⟩
  exact h

theorem error (e : ε) : Yields (.error e : Except ε α) p := by
  rintro _ ⟨⟩

theorem bind {x : Except ε α} {k : α → Except ε β} (hx : Yields x p)
    (hk : ∀ a, p a → Yields (k a) q) : Yields (x >>= k) q := by
  intro b hb
  obtain ⟨a, ha, hb⟩ := bind_eq_ok.mp hb
  exact hk a (hx a ha) b hb

theorem map {x : Except ε α} {g : α → β} (hx : Yields x fun a => q (g a)) :
    Yields (x.map g) q := by
  intro b hb
  cases x with
  | error e => cases hb
  | ok a =>
    cases hb
    exact hx a rfl

/-- What comes first need not be looked at if nothing depends on it. -/
theorem bind_any {x : Except ε α} {k : α → Except ε β} (hk : ∀ a, Yields (k a) q) :
    Yields (x >>= k) q :=
  bind (p := fun _ => True) (fun _ _ => trivial) fun a _ => hk a

end Yields

/-! ## Computations side by side -/

/-- Two computations are refused alike, or both have results and these are related. -/
inductive Parallel {ε α β : Type} (R : α → β → Prop) : Except ε α → Except ε β → Prop
  | ok {a : α} {b : β} (h : R a b) : Parallel R (.ok a) (.ok b)
  | error (e : ε) : Parallel R (.error e) (.error e)

namespace Parallel

variable {ε α β α' β' : Type} {R : α → β → Prop} {S : α' → β' → Prop} {x : Except ε α}
  {y : Except ε β}

protected theorem refl (x : Except ε α) : Parallel Eq x x := by
  cases x with
  | error e => exact .error e
  | ok a => exact .ok rfl

theorem of_map {k : α → β} (h : y = x.map k) : Parallel (fun a b => b = k a) x y := by
  subst h
  cases x with
  | error e => exact .error e
  | ok a => exact .ok rfl

theorem bind {k : α → Except ε α'} {k' : β → Except ε β'} (hx : Parallel R x y)
    (hk : ∀ a b, x = .ok a → R a b → Parallel S (k a) (k' b)) :
    Parallel S (x >>= k) (y >>= k') := by
  cases hx with
  | ok h => exact hk _ _ rfl h
  | error e => exact .error e

theorem map {k : α → α'} {k' : β → β'} (hx : Parallel R x y)
    (hk : ∀ a b, R a b → S (k a) (k' b)) : Parallel S (x.map k) (y.map k') := by
  cases hx with
  | ok h => exact .ok (hk _ _ h)
  | error e => exact .error e

end Parallel

end FormulaEditor
