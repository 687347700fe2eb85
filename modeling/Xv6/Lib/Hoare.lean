import Mathlib.Logic.Basic

/-!
# Triples for programs that can stop

A program of type `EStateM ε σ α` returns a value or stops with a reason `e : ε`, and in both cases leaves a
state behind. A `Triple` says what holds of that state in both cases. `bind_eq_ok` is the other way to take a
program apart: from a run that came back to the runs of its parts.
-/

namespace Hoare

variable {ε σ α β ι : Type}

/-- From a state with `P`, the program returns with `Q` or stops with `E`. -/
structure Triple (P : σ → Prop) (m : EStateM ε σ α) (Q : α → σ → Prop) (E : ε → σ → Prop) : Prop where
  run : ∀ s, P s → match m s with
    | .ok a s' => Q a s'
    | .error e s' => E e s'

/-- The program leaves `I` as it was when it returns, and `E` when it stops. -/
def Keeps (I : σ → Prop) (E : ε → σ → Prop) (m : EStateM ε σ α) : Prop :=
  Triple I m (fun _ => I) E

/-- The state a program leaves behind. -/
def final : EStateM.Result ε σ α → σ
  | .ok _ s => s
  | .error _ s => s

/-- The program came back, with a result and a state that pass the test. -/
def returns (r : EStateM.Result ε σ α) (test : α → σ → Bool) : Bool :=
  match r with
  | .ok a s => test a s
  | .error _ _ => false

variable {r : EStateM.Result ε σ α}

theorem exists_of_returns {test : α → σ → Bool} (h : returns r test = true) :
    ∃ a s, r = .ok a s ∧ test a s = true := by
  cases r with
  | ok a s => exact ⟨a, s, rfl, h⟩
  | error e s => cases h

/-- The program stopped, for a reason and with a state that pass the test. -/
def stopsWith (r : EStateM.Result ε σ α) (test : ε → σ → Bool) : Bool :=
  match r with
  | .ok _ _ => false
  | .error e s => test e s

theorem exists_of_stopsWith {test : ε → σ → Bool}
    (h : stopsWith r test = true) : ∃ e s, r = .error e s ∧ test e s = true := by
  cases r with
  | ok a s => cases h
  | error e s => exact ⟨e, s, rfl, h⟩

/-! ## Running a program -/

variable {m : EStateM ε σ α} {f : α → EStateM ε σ β} {s : σ}

theorem bind_eq_ok {s' : σ} {b : β} : (m >>= f) s = .ok b s' ↔ ∃ a t, m s = .ok a t ∧ f a t = .ok b s' := by
  show EStateM.bind m f s = _ ↔ _
  unfold EStateM.bind
  cases hm : m s with
  | ok a t =>
    constructor
    · intro h
      exact ⟨a, t, rfl, h⟩
    · rintro ⟨a', t', h1, h2⟩
      cases h1
      exact h2
  | error e t => simp

variable {t : σ}

theorem bind_ok {a : α} (h : m s = .ok a t) : (m >>= f) s = f a t := by
  show EStateM.bind m f s = _
  simp [EStateM.bind, h]

theorem bind_of_error {e : ε} (h : m s = .error e t) : (m >>= f) s = .error e t := by
  show EStateM.bind m f s = _
  simp [EStateM.bind, h]

theorem pure_run (a : α) (s : σ) : (pure a : EStateM ε σ α) s = .ok a s := rfl

theorem throw_run (e : ε) (s : σ) : (throw e : EStateM ε σ α) s = .error e s := rfl

theorem get_run (s : σ) : (get : EStateM ε σ σ) s = .ok s s := rfl

theorem modify_run (f : σ → σ) (s : σ) : (modify f : EStateM ε σ Unit) s = .ok () (f s) := rfl

/-! ## The rules -/

namespace Triple

variable {P P' : σ → Prop} {Q Q' : α → σ → Prop} {E E' : ε → σ → Prop} {m : EStateM ε σ α}

theorem conseq (h : Triple P m Q E) (hP : ∀ s, P' s → P s) (hQ : ∀ a s, Q a s → Q' a s)
    (hE : ∀ e s, E e s → E' e s) : Triple P' m Q' E' := by
  refine ⟨fun s hs => ?_⟩
  have := h.run s (hP s hs)
  split <;> rename_i heq <;> rw [heq] at this
  · exact hQ _ _ this
  · exact hE _ _ this

theorem pre (h : Triple P m Q E) (hP : ∀ s, P' s → P s) : Triple P' m Q E :=
  ⟨fun s hs => h.run s (hP s hs)⟩

variable {c : Prop}

/-- A fact that does not depend on the state is a hypothesis. -/
theorem pre_and (h : c → Triple P m Q E) : Triple (fun s => P s ∧ c) m Q E :=
  ⟨fun s hs => (h hs.2).run s hs.1⟩

/-- Neither does what the precondition only says to exist. -/
theorem pre_exists {A : ι → σ → Prop} (h : ∀ x, Triple (A x) m Q E) :
    Triple (fun s => ∃ x, A x s) m Q E :=
  ⟨fun s ⟨x, hs⟩ => (h x).run s hs⟩

variable {s : σ}

/-- About one state, it is enough to run the program there. -/
theorem at_state (h : match m s with
    | .ok a s' => Q a s'
    | .error e s' => E e s') : Triple (· = s) m Q E :=
  ⟨fun _ hs => hs ▸ h⟩

theorem post (h : Triple P m Q E) (hQ : ∀ a s, Q a s → Q' a s) : Triple P m Q' E :=
  h.conseq (fun _ => id) hQ (fun _ _ => id)

variable {a : α}

theorem pure (h : ∀ s, P s → Q a s) : Triple P (Pure.pure a : EStateM ε σ α) Q E :=
  ⟨fun s hs => h s hs⟩

variable {e : ε}

theorem throw (h : ∀ s, P s → E e s) :
    Triple P (MonadExcept.throw e : EStateM ε σ α) Q E :=
  ⟨fun s hs => h s hs⟩

variable {f : σ → σ}

/-- Changing the state, and what comes after it. -/
theorem update {R : σ → Prop} {m : Unit → EStateM ε σ α} (h : ∀ s, P s → R (f s))
    (hm : Triple R (m ()) Q E) : Triple P (modify f >>= m) Q E :=
  ⟨fun s hs => hm.run (f s) (h s hs)⟩

theorem modify {Q : Unit → σ → Prop} (h : ∀ s, P s → Q () (f s)) :
    Triple P (modify f : EStateM ε σ Unit) Q E :=
  ⟨fun s hs => h s hs⟩

theorem bind {R : β → σ → Prop} {m : EStateM ε σ β} {f : β → EStateM ε σ α}
    (hm : Triple P m R E) (hf : ∀ b, Triple (R b) (f b) Q E) : Triple P (m >>= f) Q E := by
  refine ⟨fun s hs => ?_⟩
  have h1 := hm.run s hs
  cases hrun : m s with
  | ok b t =>
    rw [hrun] at h1
    rw [bind_ok hrun]
    exact (hf b).run t h1
  | error e t =>
    rw [hrun] at h1
    rw [bind_of_error hrun]
    exact h1

/-- A program that may return nothing, and what comes after it. -/
theorem bindOption {R : Option β → σ → Prop} {m : EStateM ε σ (Option β)} {f : Option β → EStateM ε σ α}
    (hm : Triple P m R E) (hnone : Triple (R none) (f none) Q E)
    (hsome : ∀ b, Triple (R (some b)) (f (some b)) Q E) : Triple P (m >>= f) Q E := by
  refine .bind hm fun o => ?_
  cases o with
  | none => exact hnone
  | some b => exact hsome b

/-- Reading the state: the rest of the program may assume it started in the state that was read. -/
theorem get {f : σ → EStateM ε σ α} (h : ∀ t, P t → Triple (fun s => s = t) (f t) Q E) :
    Triple P (MonadState.get >>= f) Q E :=
  ⟨fun s hs => (h s hs).run s rfl⟩

/-- The same, when the rest needs only that the precondition held of what was read. -/
theorem read {f : σ → EStateM ε σ α} (h : ∀ t, P t → Triple P (f t) Q E) :
    Triple P (MonadState.get >>= f) Q E :=
  ⟨fun s hs => (h s hs).run s hs⟩

theorem ite [Decidable c] {m₁ m₂ : EStateM ε σ α} (h₁ : c → Triple P m₁ Q E) (h₂ : ¬ c → Triple P m₂ Q E) :
    Triple P (if c then m₁ else m₂) Q E := by
  by_cases hc : c
  · simpa only [hc, if_true] using h₁ hc
  · simpa only [hc, if_false] using h₂ hc

/-- Stopping unless all is well. -/
theorem check [Decidable c] (he : ∀ s, P s → E e s) (h : ¬ c → Triple P m Q E) :
    Triple P (if c then MonadExcept.throw e else m) Q E := .ite (fun _ => .throw he) h

/-- What the program does not touch is still there when it returns. -/
theorem frame {C : σ → Prop} (h : Triple P m Q E) (hC : ∀ s a s', C s → m s = .ok a s' → C s') :
    Triple (fun s => P s ∧ C s) m (fun a s => Q a s ∧ C s) E := by
  refine ⟨fun s hs => ?_⟩
  have h1 := h.run s hs.1
  cases hrun : m s <;> rw [hrun] at h1
  · exact ⟨h1, hC _ _ _ hs.2 hrun⟩
  · exact h1

/-- Two triples about one program, with the promise of the first for when it stops. -/
theorem and {P₂ : σ → Prop} {Q₂ : α → σ → Prop} {E₂ : ε → σ → Prop} (h : Triple P m Q E)
    (h₂ : Triple P₂ m Q₂ E₂) : Triple (fun s => P s ∧ P₂ s) m (fun a s => Q a s ∧ Q₂ a s) E := by
  refine ⟨fun s hs => ?_⟩
  have h1 := h.run s hs.1
  have h2 := h₂.run s hs.2
  cases hrun : m s <;> rw [hrun] at h1 h2
  · exact ⟨h1, h2⟩
  · exact h1

/-- A loop, with an invariant that speaks about the part of the list that is left. -/
theorem forM {I : List ι → σ → Prop} {f : ι → EStateM ε σ PUnit} (l : List ι)
    (h : ∀ i l', i :: l' <:+ l → Triple (I (i :: l')) (f i) (fun _ => I l') E) :
    Triple (I l) (l.forM f) (fun _ => I []) E := by
  induction l with
  | nil => exact pure fun s hs => hs
  | cons i l ih =>
    refine bind (h i l (List.suffix_refl _)) fun _ => ih fun j l' hl => ?_
    exact h j l' (hl.trans (List.suffix_cons i l))

variable {s' : σ}

/-- What a run that came back leaves. -/
theorem ok (h : Triple P m Q E) (hs : P s) (hrun : m s = .ok a s') : Q a s' := by
  have := h.run s hs
  rwa [hrun] at this

/-- What a run that stopped leaves. -/
theorem error (h : Triple P m Q E) (hs : P s) (hrun : m s = .error e s') : E e s' := by
  have := h.run s hs
  rwa [hrun] at this

/-- A program that cannot return stops. -/
theorem stops {E : ε → Prop} (h : Triple P m (fun _ _ => False) fun e _ => E e) (hs : P s) :
    ∃ e s', m s = .error e s' ∧ E e := by
  have := h.run s hs
  cases hrun : m s with
  | ok a s' =>
    rw [hrun] at this
    exact this.elim
  | error e s' =>
    rw [hrun] at this
    exact ⟨e, s', rfl, this⟩

/-- A program that cannot stop returns. -/
theorem returns (h : Triple P m Q fun _ _ => False) (hs : P s) : ∃ a s', m s = .ok a s' ∧ Q a s' := by
  have := h.run s hs
  cases hrun : m s with
  | ok a s' =>
    rw [hrun] at this
    exact ⟨a, s', rfl, this⟩
  | error e s' =>
    rw [hrun] at this
    exact this.elim

/-- What holds of every result holds of the state that is left. -/
theorem final {I : σ → Prop} (h : Triple P m (fun _ => I) (fun _ => I)) (hs : P s) :
    I (Hoare.final (m s)) := by
  have := h.run s hs
  cases hrun : m s <;> rw [hrun] at this <;> exact this

end Triple

namespace Keeps

variable {I : σ → Prop} {E : ε → σ → Prop}

theorem pure (a : α) : Keeps I E (Pure.pure a : EStateM ε σ α) := ⟨fun _ hs => hs⟩

/-- Of any program, nothing. -/
theorem anything (m : EStateM ε σ α) : Keeps (fun _ => True) (fun _ _ => True) m := by
  refine ⟨fun s _ => ?_⟩
  cases m s <;> trivial

variable {e : ε}

theorem throw (h : ∀ s, I s → E e s) : Keeps I E (MonadExcept.throw e : EStateM ε σ α) :=
  ⟨fun s hs => h s hs⟩

variable {f : σ → σ}

theorem update {m : Unit → EStateM ε σ α} (h : ∀ s, I s → I (f s)) (hm : Keeps I E (m ())) :
    Keeps I E (modify f >>= m) := Triple.update h hm

theorem modify (h : ∀ s, I s → I (f s)) : Keeps I E (modify f : EStateM ε σ Unit) := ⟨fun s hs => h s hs⟩

/-- Reading the state: the rest may assume of what was read that `I` held of it. -/
theorem get {f : σ → EStateM ε σ α} (h : ∀ t, I t → Keeps I E (f t)) :
    Keeps I E (MonadState.get >>= f) := Triple.read h

theorem bind {m : EStateM ε σ β} {f : β → EStateM ε σ α} (hm : Keeps I E m)
    (hf : ∀ b, Keeps I E (f b)) : Keeps I E (m >>= f) := Triple.bind hm hf

theorem bindOption {m : EStateM ε σ (Option β)} {f : Option β → EStateM ε σ α} (hm : Keeps I E m)
    (hnone : Keeps I E (f none)) (hsome : ∀ b, Keeps I E (f (some b))) : Keeps I E (m >>= f) :=
  Triple.bindOption hm hnone hsome

variable {c : Prop}

theorem ite [Decidable c] {m₁ m₂ : EStateM ε σ α} (h₁ : c → Keeps I E m₁)
    (h₂ : ¬ c → Keeps I E m₂) : Keeps I E (if c then m₁ else m₂) := Triple.ite h₁ h₂

variable {m : EStateM ε σ α}

theorem check [Decidable c] (he : ∀ s, I s → E e s)
    (h : ¬ c → Keeps I E m) : Keeps I E (if c then MonadExcept.throw e else m) := Triple.check he h

variable {a : α}

/-- Returning at once in one case. -/
theorem early [Decidable c] (h : ¬ c → Keeps I E m) :
    Keeps I E (if c then Pure.pure a else m) := ite (fun _ => pure a) h

theorem forM {f : ι → EStateM ε σ PUnit} (l : List ι) (h : ∀ i ∈ l, Keeps I E (f i)) :
    Keeps I E (l.forM f) := by
  induction l with
  | nil => exact pure _
  | cons i l ih =>
    exact bind (h i List.mem_cons_self) fun _ => ih fun j hj => h j (List.mem_cons_of_mem _ hj)

/-- A run that came back leaves the invariant. -/
theorem ok (h : Keeps I E m) {s s' : σ} (hs : I s) (hrun : m s = .ok a s') : I s' := by
  have := h.run s hs
  rwa [hrun] at this

end Keeps

end Hoare
