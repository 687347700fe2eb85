import Xv6.Lib.Hoare

/-!
# Two programs in step

Two programs over different states are `Related` when, started in related states, both return, with related
values and in related states, or both stop for the same reason. One program text run over two
representations of its state is related to itself as soon as its primitive operations are.
-/

namespace Hoare

variable {ε σ τ α β γ δ : Type}

/-- From states related by `R` the two programs return values related by `V` in states related by
`R`, or stop for one reason. -/
def Related (R : σ → τ → Prop) (V : α → β → Prop) (m : EStateM ε σ α) (n : EStateM ε τ β) : Prop :=
  ∀ s t, R s t → match m s, n t with
    | .ok a s', .ok b t' => V a b ∧ R s' t'
    | .error e _, .error e' _ => e = e'
    | _, _ => False

namespace Related

variable {R : σ → τ → Prop} {V : α → β → Prop} {W : γ → δ → Prop}

theorem pure {a : α} {b : β} (h : V a b) :
    Related R V (Pure.pure a : EStateM ε σ α) (Pure.pure b : EStateM ε τ β) :=
  fun _ _ hR => ⟨h, hR⟩

theorem throw (e : ε) :
    Related R V (MonadExcept.throw e : EStateM ε σ α) (MonadExcept.throw e : EStateM ε τ β) :=
  fun _ _ _ => rfl

variable {m : EStateM ε σ α} {n : EStateM ε τ β}

theorem bind {f : α → EStateM ε σ γ} {g : β → EStateM ε τ δ} (h : Related R V m n)
    (hf : ∀ a b, V a b → Related R W (f a) (g b)) : Related R W (m >>= f) (n >>= g) := by
  intro s t hR
  have hmn := h s t hR
  cases hm : m s with
  | ok a s' =>
    cases hn : n t with
    | ok b t' =>
      rw [hm, hn] at hmn
      rw [bind_ok hm, bind_ok hn]
      exact hf a b hmn.1 s' t' hmn.2
    | error e t' =>
      rw [hm, hn] at hmn
      exact hmn.elim
  | error e s' =>
    cases hn : n t with
    | ok b t' =>
      rw [hm, hn] at hmn
      exact hmn.elim
    | error e' t' =>
      rw [hm, hn] at hmn
      rw [bind_of_error hm, bind_of_error hn]
      exact hmn

/-- Both programs take the same branch. -/
theorem ite {c : Prop} [Decidable c] {m₁ m₂ : EStateM ε σ α} {n₁ n₂ : EStateM ε τ β}
    (h₁ : c → Related R V m₁ n₁) (h₂ : ¬ c → Related R V m₂ n₂) :
    Related R V (if c then m₁ else m₂) (if c then n₁ else n₂) := by
  by_cases hc : c
  · simpa only [hc, if_true] using h₁ hc
  · simpa only [hc, if_false] using h₂ hc

/-- When the second program returns, so does the first. -/
theorem ok (h : Related R V m n) {s : σ} {t t' : τ} {b : β}
    (hR : R s t) (hn : n t = .ok b t') : ∃ a s', m s = .ok a s' ∧ V a b ∧ R s' t' := by
  have hmn := h s t hR
  rw [hn] at hmn
  cases hm : m s with
  | ok a s' =>
    rw [hm] at hmn
    exact ⟨a, s', rfl, hmn⟩
  | error e s' =>
    rw [hm] at hmn
    exact hmn.elim

/-- When the second program stops, so does the first, for the same reason. -/
theorem error (h : Related R V m n) {s : σ} {t t' : τ} {e : ε}
    (hR : R s t) (hn : n t = .error e t') : ∃ s', m s = .error e s' := by
  have hmn := h s t hR
  rw [hn] at hmn
  cases hm : m s with
  | ok a s' =>
    rw [hm] at hmn
    exact hmn.elim
  | error e' s' =>
    rw [hm] at hmn
    exact ⟨s', by rw [show e' = e from hmn]⟩

end Related

end Hoare
