import Mathlib.Data.Finset.Card

/-!
# Threads that share variables

Every thread `p : ι` is at some place `pc p : γ` of its program, and one step moves one thread. A flag that is
set exactly while one thread is in a part of the program, such as a lock, and a counter of the threads in a
part have one lemma each for a thread that stays on its side, for entering and for leaving.
-/

namespace Threads

open Function (update update_self update_of_ne)

variable {ι γ : Type} {f : γ → Bool} {pc : ι → γ} {p q : ι} {c : γ} {b : Bool} {n : Int}

/-- The flag `b` is set exactly while a thread is in `f`, and there is never more than one. -/
structure Flag (f : γ → Bool) (pc : ι → γ) (b : Bool) : Prop where
  iff : b = true ↔ ∃ p, f (pc p) = true
  sole : ∀ p q, f (pc p) = true → f (pc q) = true → p = q

/-- The number `n` counts the threads that are in `f`. -/
def Tally (f : γ → Bool) (pc : ι → γ) (n : Int) : Prop :=
  ∃ R : Finset ι, (∀ p, p ∈ R ↔ f (pc p) = true) ∧ n = R.card

theorem Flag.set (h : Flag f pc b) (hp : f (pc p) = true) : b = true := h.iff.mpr ⟨p, hp⟩

theorem Flag.not_mem (h : Flag f pc false) (p : ι) : f (pc p) = false :=
  Bool.eq_false_iff.mpr fun hp => Bool.false_ne_true (h.set hp)

theorem Tally.nonneg (h : Tally f pc n) : 0 ≤ n := by
  obtain ⟨R, -, rfl⟩ := h
  exact Int.natCast_nonneg _

theorem Tally.pos (h : Tally f pc n) (hp : f (pc p) = true) : 0 < n := by
  obtain ⟨R, hR, rfl⟩ := h
  have := Finset.card_pos.mpr ⟨p, (hR p).mpr hp⟩
  omega

/-- Moving threads about inside and outside of `f`. -/
theorem Flag.map {pc' : ι → γ} (h : Flag f pc b) (hpc : ∀ q, f (pc' q) = f (pc q)) : Flag f pc' b where
  iff := by simpa only [hpc] using h.iff
  sole p q hp hq := h.sole p q (hpc p ▸ hp) (hpc q ▸ hq)

theorem Tally.map {pc' : ι → γ} (h : Tally f pc n) (hpc : ∀ q, f (pc' q) = f (pc q)) : Tally f pc' n := by
  obtain ⟨R, hR, hn⟩ := h
  exact ⟨R, fun q => by rw [hR, hpc], hn⟩

variable [DecidableEq ι]

theorem update_same (h : f c = f (pc p)) (q : ι) : f (update pc p c q) = f (pc q) := by
  by_cases hq : q = p
  · rw [hq, update_self, h]
  · rw [update_of_ne hq]

/-- The lock `l` names the thread that is in `f`, if one is. -/
def Held (f : γ → Bool) (pc : ι → γ) (l : Option ι) : Prop := ∀ q, l = some q ↔ f (pc q) = true

omit [DecidableEq ι] in
theorem Held.sole {l : Option ι} (h : Held f pc l) (hp : f (pc p) = true) (hq : f (pc q) = true) : q = p :=
  Option.some.inj (((h q).mpr hq).symm.trans ((h p).mpr hp))

theorem Held.same {l : Option ι} (h : Held f pc l) (hc : f c = f (pc p)) : Held f (update pc p c) l := by
  intro q
  rw [update_same hc]
  exact h q

theorem Held.acquire (h : Held f pc none) (hc : f c = true) : Held f (update pc p c) (some p) := by
  intro q
  by_cases hq : q = p
  · rw [hq, update_self]
    exact iff_of_true rfl hc
  · rw [update_of_ne hq, ← h q]
    exact iff_of_false (fun h => hq (Option.some.inj h).symm) nofun

theorem Held.release {l : Option ι} (h : Held f pc l) (hp : f (pc p) = true) (hc : f c = false) :
    Held f (update pc p c) none := by
  refine fun q => iff_of_false nofun fun hq => ?_
  by_cases hqp : q = p
  · rw [hqp, update_self, hc] at hq
    cases hq
  · rw [update_of_ne hqp] at hq
    exact hqp (h.sole hp hq)

/-- What follows from a thread being in `f` still does if it follows from `p` being where it is now. -/
theorem forall_update {P : Prop} (h : ∀ q, f (pc q) = true → P) (hc : f c = true → P) (q : ι) :
    f (update pc p c q) = true → P := by
  by_cases hq : q = p
  · rw [hq, update_self]
    exact hc
  · rw [update_of_ne hq]
    exact h q

theorem exists_update (h : ∃ q, f (pc q) = true) (hc : f (pc p) = true → f c = true) :
    ∃ q, f (update pc p c q) = true := by
  obtain ⟨q, hq⟩ := h
  by_cases hqp : q = p
  · subst hqp
    exact ⟨q, by rw [update_self, hc hq]⟩
  · exact ⟨q, by rw [update_of_ne hqp, hq]⟩

theorem Flag.same (h : Flag f pc b) (hc : f c = f (pc p)) : Flag f (update pc p c) b :=
  h.map (update_same hc)

theorem Flag.enter (h : Flag f pc false) (hc : f c = true) : Flag f (update pc p c) true := by
  -- a thread that is in `f` now is `p`
  have honly : ∀ q, f (update pc p c q) = true → q = p := by
    intro q hq
    by_contra hne
    rw [update_of_ne hne, h.not_mem q] at hq
    cases hq
  refine ⟨iff_of_true rfl ⟨p, by rw [update_self, hc]⟩, fun q r hq hr => ?_⟩
  rw [honly q hq, honly r hr]

theorem Flag.leave (h : Flag f pc b) (hp : f (pc p) = true) (hc : f c = false) :
    Flag f (update pc p c) false := by
  have hnone : ∀ q, f (update pc p c q) = false := by
    intro q
    by_cases hq : q = p
    · rw [hq, update_self, hc]
    · rw [update_of_ne hq]
      exact Bool.eq_false_iff.mpr fun hfq => hq (h.sole q p hfq hp)
  refine ⟨iff_of_false Bool.false_ne_true ?_, fun q r hq => ?_⟩
  · rintro ⟨q, hq⟩
    rw [hnone q] at hq
    cases hq
  · rw [hnone q] at hq
    cases hq

theorem Tally.same (h : Tally f pc n) (hc : f c = f (pc p)) : Tally f (update pc p c) n :=
  h.map (update_same hc)

theorem Tally.enter (h : Tally f pc n) (hp : f (pc p) = false) (hc : f c = true) :
    Tally f (update pc p c) (n + 1) := by
  obtain ⟨R, hR, rfl⟩ := h
  have hnot : p ∉ R := by
    rw [hR, hp]
    exact Bool.false_ne_true
  refine ⟨R.cons p hnot, fun q => ?_, ?_⟩
  · by_cases hq : q = p
    · simp [hq, hc]
    · simp [hq, hR]
  · rw [Finset.card_cons]
    rfl

theorem Tally.leave (h : Tally f pc n) (hp : f (pc p) = true) (hc : f c = false) :
    Tally f (update pc p c) (n - 1) := by
  obtain ⟨R, hR, rfl⟩ := h
  have hmem : p ∈ R := (hR p).mpr hp
  refine ⟨R.erase p, fun q => ?_, ?_⟩
  · by_cases hq : q = p
    · simp [hq, hc]
    · simp [hq, hR]
  · have := Finset.card_pos.mpr ⟨p, hmem⟩
    rw [Finset.card_erase_of_mem hmem]
    omega

end Threads
