import Mathlib.Logic.Basic

/-!
# Guarded runs

A system is a step function `exec : σ → ι → Option σ`. In a `Run` every step meets a condition `guard` on the
operation and the state it starts from. `Run.invariant` is the one induction over runs. `execAll` runs a list
of operations, so that a concrete run can be computed.
-/

variable {σ ι : Type}

/-- `Run exec guard s t`: from `s`, steps that all meet `guard` lead to `t`. -/
inductive Run (exec : σ → ι → Option σ) (guard : σ → ι → Prop) (s : σ) : σ → Prop
  | refl : Run exec guard s s
  | tail {t u : σ} {i : ι} : Run exec guard s t → guard t i → exec t i = some u → Run exec guard s u

namespace Run

variable {exec : σ → ι → Option σ} {guard : σ → ι → Prop} {s t : σ}

/-- What holds at the start and is kept by every guarded step holds throughout. -/
theorem invariant {I : σ → Prop} (hs : I s)
    (hstep : ∀ t i u, I t → guard t i → exec t i = some u → I u) (h : Run exec guard s t) : I t := by
  induction h with
  | refl => exact hs
  | tail _ hg hx ih => exact hstep _ _ _ ih hg hx

/-- A weaker guard. -/
theorem mono {guard' : σ → ι → Prop} (h : Run exec guard s t) (hg : ∀ s i, guard s i → guard' s i) :
    Run exec guard' s t := by
  induction h with
  | refl => exact .refl
  | tail _ hi hx ih => exact ih.tail (hg _ _ hi) hx

/-- Carry out a list of operations. -/
def execAll (exec : σ → ι → Option σ) : σ → List ι → Option σ
  | s, [] => some s
  | s, i :: l => (exec s i).bind fun t => execAll exec t l

/-- A computed run is a run, if its operations meet the guard in any state. -/
theorem of_execAll {l : List ι} (hg : ∀ i ∈ l, ∀ s, guard s i) (h : execAll exec s l = some t) :
    Run exec guard s t := by
  suffices hgo : ∀ (l : List ι) (r : σ), (∀ i ∈ l, ∀ s, guard s i) → Run exec guard s r →
      execAll exec r l = some t → Run exec guard s t from hgo l s hg .refl h
  intro l
  induction l with
  | nil =>
    intro r _ hr hx
    cases hx
    exact hr
  | cons i l ih =>
    intro r hg hr hx
    simp only [execAll] at hx
    cases hi : exec r i with
    | none => simp [hi] at hx
    | some u =>
      rw [hi] at hx
      exact ih u (fun j hj => hg j (List.mem_cons_of_mem _ hj))
        (hr.tail (hg i List.mem_cons_self r) hi) hx

/-- Checking the guard along the way gives a run that meets it. -/
theorem of_checked [∀ s i, Decidable (guard s i)]
    (h : Run (fun s i => if guard s i then exec s i else none) (fun _ _ => True) s t) :
    Run exec guard s t := by
  induction h with
  | refl => exact .refl
  | tail _ _ hx ih =>
    split at hx
    · next hg => exact ih.tail hg hx
    · cases hx

theorem exists_of_any {o : Option σ} {c : σ → Bool} (h : o.any c = true) : ∃ t, o = some t ∧ c t = true := by
  cases o with
  | none => cases h
  | some t => exact ⟨t, rfl, h⟩

/-- A computed run to a state with a property that can be checked. -/
theorem exists_run {l : List ι} {c : σ → Bool} (h : (execAll exec s l).any c = true)
    (hg : ∀ i ∈ l, ∀ s, guard s i := by exact fun _ _ _ => trivial) :
    ∃ t, Run exec guard s t ∧ c t = true := by
  obtain ⟨t, hx, ht⟩ := exists_of_any h
  exact ⟨t, of_execAll hg hx, ht⟩

end Run
