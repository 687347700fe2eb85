import Xv6.Lib.Hoare

/-!
# Programs over a set of operations

A program is a tree of calls of operations; `run` takes what the operations do from an implementation. When
one implementation simulates another, so does every program (`Sim.prog`). The upper implementation may refuse
a call by stopping with `none`; nothing is promised for it below.
-/

inductive Prog (Op : Type) (Res : Op → Type) (α : Type) : Type where
  | ret (a : α)
  | call (o : Op) (k : Res o → Prog Op Res α)

namespace Prog

open Hoare

variable {Op : Type} {Res : Op → Type} {α β ε σ τ : Type}

protected def bind : Prog Op Res α → (α → Prog Op Res β) → Prog Op Res β
  | ret a, f => f a
  | call o k, f => call o fun r => (k r).bind f

instance : Monad (Prog Op Res) where
  pure := ret
  bind := Prog.bind

instance : LawfulMonad (Prog Op Res) := by
  refine LawfulMonad.mk' (Prog Op Res) (fun p => ?_) (fun _ _ => rfl) fun p f g => ?_
  · induction p with
    | ret a => rfl
    | call o k ih => exact congrArg (call o) (funext ih)
  · induction p with
    | ret a => rfl
    | call o k ih => exact congrArg (call o) (funext ih)

/-- One operation. -/
def op (o : Op) : Prog Op Res (Res o) := call o ret

def run (impl : (o : Op) → EStateM ε σ (Res o)) : Prog Op Res α → EStateM ε σ α
  | ret a => pure a
  | call o k => impl o >>= fun r => run impl (k r)

variable {impl : (o : Op) → EStateM ε σ (Res o)}

@[simp] theorem run_op (o : Op) : run impl (op o) = impl o := bind_pure (impl o)

@[simp] theorem run_bind (p : Prog Op Res α) (f : α → Prog Op Res β) :
    run impl (p >>= f) = run impl p >>= fun a => run impl (f a) := by
  induction p with
  | ret a => exact (pure_bind a fun a => run impl (f a)).symm
  | call o k ih =>
    show (impl o >>= fun r => run impl ((k r).bind f)) = (impl o >>= fun r => run impl (k r)) >>= _
    rw [bind_assoc]
    congr 1
    funext r
    exact ih r

@[simp] theorem run_ite {c : Prop} [Decidable c] (p q : Prog Op Res α) :
    run impl (if c then p else q) = if c then run impl p else run impl q := apply_ite _ _ _ _

/-- The operations of the program are all in `A`. -/
def Only (A : Op → Prop) : Prog Op Res α → Prop
  | ret _ => True
  | call o k => A o ∧ ∀ r, Only A (k r)

section Only
variable {A : Op → Prop}

theorem only_op {o : Op} (ho : A o) : Only A (op o : Prog Op Res (Res o)) := ⟨ho, fun _ => trivial⟩

variable {p : Prog Op Res α}

theorem Only.bind {f : α → Prog Op Res β} (hp : p.Only A) (hf : ∀ a, (f a).Only A) : (p >>= f).Only A := by
  induction p with
  | ret a => exact hf a
  | call o k ih => exact ⟨hp.1, fun r => ih r (hp.2 r)⟩

theorem Only.ite {c : Prop} [Decidable c] {q : Prog Op Res α} (hp : p.Only A) (hq : q.Only A) :
    (if c then p else q).Only A := by
  split
  · exact hp
  · exact hq

end Only

section Triples
variable {P : σ → Prop} {Q : α → σ → Prop} {E : ε → σ → Prop}

theorem seq_rule {R : β → σ → Prop} {p : Prog Op Res β} {f : β → Prog Op Res α}
    (hp : Triple P (p.run impl) R E) (hf : ∀ b, Triple (R b) ((f b).run impl) Q E) :
    Triple P ((p >>= f).run impl) Q E := by
  rw [run_bind]
  exact .bind hp hf

theorem op_rule {o : Op} {Q : Res o → σ → Prop} (h : Triple P (impl o) Q E) :
    Triple P ((op o).run impl) Q E := by
  rwa [run_op]

theorem ite_rule {c : Prop} [Decidable c] {p q : Prog Op Res α}
    (hp : c → Triple P (p.run impl) Q E) (hq : ¬ c → Triple P (q.run impl) Q E) :
    Triple P ((if c then p else q).run impl) Q E := by
  rw [run_ite]
  exact .ite hp hq

end Triples

/-! ## Simulation -/

/-- Where the upper program does not refuse, the lower one returns the same from related states, or stops
with the same error, or is lost. -/
structure Sim (R : σ → τ → Prop) (lost : ε → σ → Prop) (c : EStateM ε σ α)
    (a : EStateM (Option ε) τ α) : Prop where
  run : ∀ s t, R s t → (∀ t', a t ≠ .error none t') → match c s with
    | .ok x s' => ∃ t', a t = .ok x t' ∧ R s' t'
    | .error e s' => (∃ t', a t = .error (some e) t') ∨ lost e s'

variable {R : σ → τ → Prop} {lost : ε → σ → Prop}
variable {c : EStateM ε σ α} {a : EStateM (Option ε) τ α}

/-- Where the upper program returns, so does the lower one, unless it is lost. -/
theorem Sim.ok (h : Sim R lost c a) {s : σ} {t t' : τ} {x : α} (hst : R s t) (ha : a t = .ok x t') :
    (∃ s', c s = .ok x s' ∧ R s' t') ∨ ∃ e s', c s = .error e s' ∧ lost e s' := by
  have hrun := h.run s t hst fun u hu => by rw [ha] at hu; cases hu
  rw [ha] at hrun
  cases hc : c s with
  | ok y s' =>
    rw [hc] at hrun
    obtain ⟨u, hu, hst'⟩ := hrun
    cases hu
    exact .inl ⟨s', rfl, hst'⟩
  | error e s' =>
    rw [hc] at hrun
    obtain ⟨u, hu⟩ | hlost := hrun
    · cases hu
    · exact .inr ⟨e, s', rfl, hlost⟩

theorem Sim.pure (x : α) : Sim R lost (Pure.pure x : EStateM ε σ α) (Pure.pure x) :=
  ⟨fun _ t hst _ => ⟨t, rfl, hst⟩⟩

theorem Sim.bind {f : α → EStateM ε σ β}
    {g : α → EStateM (Option ε) τ β} (h : Sim R lost c a) (hf : ∀ x, Sim R lost (f x) (g x)) :
    Sim R lost (c >>= f) (a >>= g) := by
  refine ⟨fun s t hst hno => ?_⟩
  have hno' : ∀ t', a t ≠ .error none t' := fun t' ht' => hno t' (bind_of_error ht')
  have hrun := h.run s t hst hno'
  cases hc : c s with
  | ok x s' =>
    rw [hc] at hrun
    obtain ⟨t', ht', hst'⟩ := hrun
    rw [bind_ok ht'] at hno ⊢
    rw [bind_ok hc]
    exact (hf x).run s' t' hst' hno
  | error e s' =>
    rw [hc] at hrun
    rw [bind_of_error hc]
    exact hrun.imp_left fun ⟨t', ht'⟩ => ⟨t', bind_of_error ht'⟩

variable {upper : (o : Op) → EStateM (Option ε) τ (Res o)}

/-- From the operations to programs. -/
theorem Sim.prog
    (h : ∀ o, Sim R lost (impl o) (upper o)) (p : Prog Op Res α) : Sim R lost (p.run impl) (p.run upper) := by
  induction p with
  | ret a => exact .pure a
  | call o k ih => exact (h o).bind ih

/-- For a program with some of the operations, it is enough that these are simulated. -/
theorem Sim.prog_only {A : Op → Prop}
    (h : ∀ {o}, A o → Sim R lost (impl o) (upper o)) {p : Prog Op Res α} (hp : p.Only A) :
    Sim R lost (p.run impl) (p.run upper) := by
  induction p with
  | ret a => exact .pure a
  | call o k ih => exact (h hp.1).bind fun r => ih r (hp.2 r)

end Prog
