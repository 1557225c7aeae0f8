/-
# Steps that can fail

A computation that can fail is a chain of steps, and it succeeds exactly if every step does.  Two
such chains have outcomes that agree if their steps have.
-/

namespace BlockDoc

/-- A step that succeeds hands its result to what follows. -/
@[simp] theorem ok_bind {ε α β : Type} (a : α) (f : α → Except ε β) :
    (Except.ok a >>= f) = f a := rfl

/-- A step and what follows it succeed together. -/
theorem bind_eq_ok {ε α β : Type} {x : Except ε α} {f : α → Except ε β} {b : β} :
    x >>= f = .ok b ↔ ∃ a, x = .ok a ∧ f a = .ok b := by
  cases x with
  | error e => simp [bind, Except.bind]
  | ok a => simp [bind, Except.bind]

/-- What follows a step may be replaced by what succeeds wherever it does, in the same way. -/
theorem bind_eq_ok_imp {ε α β : Type} {x : Except ε α} {f g : α → Except ε β} {b : β}
    (h : ∀ a, f a = .ok b → g a = .ok b) : x >>= f = .ok b → x >>= g = .ok b := by
  intro hf
  obtain ⟨a, hx, ha⟩ := bind_eq_ok.mp hf
  exact bind_eq_ok.mpr ⟨a, hx, h a ha⟩

/-- Two steps fail if the first one does, or the second one on what the first one gave. -/
theorem bind_eq_error {ε α β : Type} {x : Except ε α} {f : α → Except ε β} {e : ε} :
    x >>= f = .error e ↔ x = .error e ∨ ∃ a, x = .ok a ∧ f a = .error e := by
  cases x with
  | error e' => simp [bind, Except.bind]
  | ok a => simp [bind, Except.bind]

/-- Naming the errors otherwise changes no success. -/
theorem mapError_eq_ok {ε ε' α : Type} {f : ε → ε'} {x : Except ε α} {a : α} :
    x.mapError f = .ok a ↔ x = .ok a := by
  cases x with
  | error e => constructor <;> rintro ⟨⟩
  | ok b =>
    constructor
    · intro h
      cases h
      rfl
    · rintro ⟨⟩
      rfl

/-- Steps one after the other fail where one of them fails behind others that succeed. -/
theorem foldlM_eq_error {ε α β : Type} {f : β → α → Except ε β} {b : β} {xs : List α} {e : ε} :
    xs.foldlM f b = .error e ↔ ∃ before x after c, xs = before ++ x :: after ∧
      before.foldlM f b = .ok c ∧ f c x = .error e := by
  constructor
  · intro h
    induction xs generalizing b with
    | nil => cases h
    | cons x xs ih =>
      rw [List.foldlM_cons] at h
      cases hx : f b x with
      | error e' =>
        rw [hx] at h
        cases h
        exact ⟨[], x, xs, b, rfl, rfl, hx⟩
      | ok c =>
        rw [hx, ok_bind] at h
        obtain ⟨before, y, after, c', rfl, hbefore, hy⟩ := ih h
        refine ⟨x :: before, y, after, c', rfl, ?_, hy⟩
        rw [List.foldlM_cons, hx, ok_bind, hbefore]
  · rintro ⟨before, x, after, c, rfl, hbefore, hx⟩
    rw [List.foldlM_append, hbefore, ok_bind, List.foldlM_cons, hx]
    rfl

/-- The outcomes of two computations agree: both succeed with results that are so related, or both
fail with the same error. -/
inductive OutcomesAgree {ε α β : Type} (R : α → β → Prop) : Except ε α → Except ε β → Prop
  | ok {a : α} {b : β} : R a b → OutcomesAgree R (.ok a) (.ok b)
  | error (e : ε) : OutcomesAgree R (.error e) (.error e)

/-- Steps that agree are followed by steps that agree. -/
theorem OutcomesAgree.bind {ε α β γ δ : Type} {R : α → β → Prop} {S : γ → δ → Prop}
    {x : Except ε α} {y : Except ε β} {f : α → Except ε γ} {g : β → Except ε δ}
    (h : OutcomesAgree R x y) (hfg : ∀ a b, R a b → OutcomesAgree S (f a) (g b)) :
    OutcomesAgree S (x >>= f) (y >>= g) := by
  cases h with
  | ok hab => exact hfg _ _ hab
  | error e => exact .error e

/-- Steps that agree, with what the first of them gave. -/
theorem OutcomesAgree.attach {ε α β : Type} {R : α → β → Prop} {x : Except ε α} {y : Except ε β}
    (h : OutcomesAgree R x y) : OutcomesAgree (fun a b => x = .ok a ∧ R a b) x y := by
  cases h with
  | ok hab => exact .ok ⟨rfl, hab⟩
  | error e => exact .error e

/-- Equal outcomes agree in equal results. -/
theorem OutcomesAgree.of_eq {ε α : Type} {x y : Except ε α} (h : x = y) :
    OutcomesAgree (· = ·) x y := by
  subst h
  cases x with
  | ok a => exact .ok rfl
  | error e => exact .error e

/-- Outcomes are equal if they agree in equal results. -/
theorem OutcomesAgree.eq {ε α : Type} {x y : Except ε α} (h : OutcomesAgree (· = ·) x y) :
    x = y := by
  cases h with
  | ok hab => rw [hab]
  | error e => rfl

end BlockDoc
