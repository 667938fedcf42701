/-!
Computations that may fail: how they go on and fail one after the other, and their values as
options.
-/
namespace Reckoner

variable {ε α β : Type} {r : Except ε α}

theorem map_eq_ok {f : α → β} {b : β} (h : r.map f = .ok b) : ∃ a, r = .ok a ∧ f a = b := by
  cases r with
  | error _ => exact absurd h (by simp [Except.map])
  | ok a => exact ⟨a, rfl, Except.ok.inj h⟩

theorem bind_eq_ok {f : α → Except ε β} {b : β} (h : r.bind f = .ok b) :
    ∃ a, r = .ok a ∧ f a = .ok b := by
  cases r with
  | error _ => exact absurd h (by simp [Except.bind])
  | ok a => exact ⟨a, rfl, h⟩

theorem bind_eq_error {f : α → Except ε β} {e : ε} :
    r.bind f = .error e ↔ r = .error e ∨ ∃ a, r = .ok a ∧ f a = .error e := by
  cases r with
  | error d =>
    refine ⟨fun h => Or.inl (congrArg Except.error (Except.error.inj h)), ?_⟩
    rintro (h | ⟨a, h, _⟩)
    · exact congrArg Except.error (Except.error.inj h)
    · exact absurd h (by simp)
  | ok a =>
    refine ⟨fun h => Or.inr ⟨a, rfl, h⟩, ?_⟩
    rintro (h | ⟨a', h, hf⟩)
    · exact absurd h (by simp)
    · obtain rfl := Except.ok.inj h
      exact hf

theorem bind_ok_eq_error {f : α → β} {e : ε} :
    (r.bind fun a => .ok (f a)) = .error e ↔ r = .error e := by
  cases r <;> simp [Except.bind]

theorem bind_congr_of_ok {f g : α → Except ε β} (h : ∀ a, r = .ok a → f a = g a) :
    r.bind f = r.bind g := by
  cases r with
  | error _ => rfl
  | ok a => exact h a rfl

theorem eq_ok_of_toOption {a : α} (h : r.toOption = some a) : r = .ok a := by
  cases r with
  | error _ => exact absurd h (by simp [Except.toOption])
  | ok b => exact congrArg Except.ok (Option.some.inj h)

theorem toOption_bind (r : Except ε α) (f : α → Except ε β) :
    (r >>= f).toOption = r.toOption.bind fun a => (f a).toOption := by
  cases r <;> rfl

theorem toOption_map (r : Except ε α) (f : α → β) :
    (r.map f).toOption = r.toOption.map f := by
  cases r <;> rfl

end Reckoner
