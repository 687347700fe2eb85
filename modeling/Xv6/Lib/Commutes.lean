import Mathlib.Logic.Basic

/-!
# Programs that do not see a change

A change `g` of the state `Commutes` with a program when it makes no difference whether the state is changed
before the program runs or after it. This is how a program shows that it reads and writes nothing that `g`
touches.
-/

namespace Hoare

variable {ε σ α β : Type}

/-- Change the state that a run has left. -/
def after (g : σ → σ) : EStateM.Result ε σ α → EStateM.Result ε σ α
  | .ok a s => .ok a (g s)
  | .error e s => .error e (g s)

/-- The program does the same with the changed state. -/
def Commutes (g : σ → σ) (m : EStateM ε σ α) : Prop := ∀ s, m (g s) = after g (m s)

namespace Commutes

variable {g : σ → σ} {m : EStateM ε σ α} {s t : σ}

theorem pure (a : α) : Commutes g (Pure.pure a : EStateM ε σ α) := fun _ => rfl

theorem throw (e : ε) : Commutes g (MonadExcept.throw e : EStateM ε σ α) := fun _ => rfl

theorem modify {f : σ → σ} (h : ∀ s, f (g s) = g (f s)) :
    Commutes g (modifyGet fun s => (PUnit.unit, f s) : EStateM ε σ PUnit) := by
  intro s
  show EStateM.Result.ok PUnit.unit (f (g s)) = .ok PUnit.unit (g (f s))
  rw [h]

theorem bind {f : α → EStateM ε σ β} (hm : Commutes g m) (hf : ∀ a, Commutes g (f a)) :
    Commutes g (m >>= f) := by
  intro s
  show EStateM.bind m f (g s) = after g (EStateM.bind m f s)
  unfold EStateM.bind
  rw [hm s]
  cases m s with
  | ok a t => exact hf a t
  | error e t => rfl

theorem ite {c : Prop} [Decidable c] {m m' : EStateM ε σ α} (h : Commutes g m) (h' : Commutes g m') :
    Commutes g (if c then m else m') := by
  split
  · exact h
  · exact h'

/-- Reading the state: what follows may use nothing of it that `g` changes. -/
theorem get {f : σ → EStateM ε σ β} (hread : ∀ s, f (g s) = f s) (hf : ∀ s, Commutes g (f s)) :
    Commutes g (MonadState.get >>= f) := by
  intro s
  show f (g s) (g s) = after g (f s s)
  rw [hread, hf s s]

theorem run_ok (h : Commutes g m) {a : α} (hm : m s = .ok a t) : m (g s) = .ok a (g t) := by
  rw [h s, hm]
  rfl

/-- What the change would leave alone at the start, the program leaves alone. -/
theorem fixed (h : Commutes g m) (hs : g s = s) {a : α} (hm : m s = .ok a t) : g t = t := by
  have hrun := h.run_ok hm
  rw [hs, hm] at hrun
  injection hrun with _ ht
  exact ht.symm

end Commutes

end Hoare
