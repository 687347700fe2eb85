import Mathlib.Data.List.Basic

/-!
# Writing a list through an address map

A program copies a list `bs` to the addresses `tr 0`, `tr 1`, ... and leaves the rest of the memory alone. The
map need not be injective: an address that is named several times keeps one of the values written to it.
`Scattered` says just that of the memories before and after.
-/

variable {A B : Type}

/-- The memory `m'` is `m` with the list `bs` written through `tr`. -/
structure Scattered (tr : Nat → A) (bs : List B) (m m' : A → B) : Prop where
  other : ∀ a, (∀ k < bs.length, tr k ≠ a) → m' a = m a
  hit : ∀ k < bs.length, ∃ j, ∃ h : j < bs.length, tr j = tr k ∧ m' (tr k) = bs[j]

namespace Scattered

variable {tr : Nat → A} {bs cs : List B} {m m₁ m₂ : A → B}

theorem nil (tr : Nat → A) (m : A → B) : Scattered tr ([] : List B) m m :=
  ⟨fun _ _ => rfl, fun _ hk => absurd hk (Nat.not_lt_zero _)⟩

/-- Only the addresses that are named matter. -/
theorem congr {tr' : Nat → A} (h : Scattered tr bs m m₁) (htr : ∀ k < bs.length, tr' k = tr k) :
    Scattered tr' bs m m₁ where
  other a ha := h.other a fun k hk => htr k hk ▸ ha k hk
  hit k hk := by
    obtain ⟨j, hj, hjk, hval⟩ := h.hit k hk
    exact ⟨j, hj, by rw [htr j hj, htr k hk, hjk], by rw [htr k hk, hval]⟩

theorem append (h₁ : Scattered tr bs m m₁) (h₂ : Scattered (fun k => tr (bs.length + k)) cs m₁ m₂) :
    Scattered tr (bs ++ cs) m m₂ where
  other a ha := by
    rw [h₂.other a fun k hk => ha _ (by simpa using hk), h₁.other a fun k hk => ha k ?_]
    rw [List.length_append]
    omega
  hit k hk := by
    -- the later copy decides, if it writes to the address at all
    by_cases hlate : ∃ i < cs.length, tr (bs.length + i) = tr k
    · obtain ⟨i, hi, htr⟩ := hlate
      obtain ⟨j, hj, hji, hval⟩ := h₂.hit i hi
      refine ⟨bs.length + j, by simpa using hj, hji.trans htr, ?_⟩
      rw [List.getElem_append_right (Nat.le_add_right _ _)]
      simpa [← htr] using hval
    · have hkeep : m₂ (tr k) = m₁ (tr k) := h₂.other _ fun i hi htr => hlate ⟨i, hi, htr⟩
      have hk₁ : k < bs.length := by
        by_contra hge
        have hlen : bs.length + (k - bs.length) = k := by omega
        refine hlate ⟨k - bs.length, ?_, by rw [hlen]⟩
        rw [List.length_append] at hk
        omega
      obtain ⟨j, hj, htr, hval⟩ := h₁.hit k hk₁
      refine ⟨j, by rw [List.length_append]; omega, htr, ?_⟩
      rw [hkeep, hval, List.getElem_append_left hj]

/-- Where the map names an address only with one value, that value is there afterwards. -/
theorem value (h : Scattered tr bs m m₁) {k : Nat} (hk : k < bs.length)
    (hsame : ∀ j, ∀ hj : j < bs.length, tr j = tr k → bs[j] = bs[k]) : m₁ (tr k) = bs[k] := by
  obtain ⟨j, hj, htr, hval⟩ := h.hit k hk
  rw [hval, hsame j hj htr]

end Scattered
