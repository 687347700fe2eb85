import Xv6.Lib.Hoare

/-!
# Programs that are cut off and started again

A program that can stop anywhere models a machine that can lose its power. It then starts again in the state
that `reboot` gives and runs a recovery program, which can be cut off as well. `Recovers` relates the state
after the first failure to the one in which a recovery has come to its end. `Recovers.rule` is the one
induction.
-/

namespace Hoare

variable {ε σ α κ : Type}

/-- From `s`, left behind by a failure, recovery ends in `t` after any number of failures on the way.
Each start may draw on its own `k : κ`. -/
inductive Recovers (reboot : κ → σ → σ) (recover : EStateM ε σ α) : σ → σ → Prop
  | done {s t : σ} {a : α} (k : κ) : recover (reboot k s) = .ok a t → Recovers reboot recover s t
  | again {s s' t : σ} {e : ε} (k : κ) : recover (reboot k s) = .error e s' →
      Recovers reboot recover s' t → Recovers reboot recover s t

theorem Recovers.rule {reboot : κ → σ → σ} {recover : EStateM ε σ α} {C Q : σ → Prop}
    (h : ∀ k, Triple (fun s => ∃ s₀, C s₀ ∧ s = reboot k s₀) recover (fun _ => Q) (fun _ => C)) {s t : σ}
    (hs : C s) (hrec : Recovers reboot recover s t) : Q t := by
  induction hrec with
  | done k hrun => exact (h k).ok ⟨_, hs, rfl⟩ hrun
  | again k hrun _ ih => exact ih ((h k).error ⟨_, hs, rfl⟩ hrun)

end Hoare
