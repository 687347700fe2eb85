import Xv6.MachineFlow

/-!
# One CPU for a process

A thread that is not executed is in `sched` or has never run, and will have `ptable.lock` when a CPU goes on
with it. So no two CPUs execute the same thread, and the checks of `acquire`, `release` and `sched` never
fail.
-/

namespace Xv6.Machine

open Function (update update_self update_of_ne update_eq_self update_comm)

variable {κ : Type}

/-! ## The invariant -/

variable {t : Thread}

theorem locks_of_sched {x : SchedAt × ProcState} (h : t.sched = some x) : t.locks = [.ptable] := by
  obtain ⟨irq, b⟩ := t
  cases irq with
  | some q =>
    cases q with
    | yield a =>
      cases a with
      | sched => rfl
      | _ => cases h
    | _ => cases h
  | none =>
    cases b with
    | sleep e n c a | wait a | exit a =>
      cases a with
      | sched => rfl
      | _ => cases h
    | _ => cases h

theorem sched_eq_none (h : .ptable ∉ t.locks) : t.sched = none := by
  cases hs : t.sched with
  | none => rfl
  | some x => exact absurd (by simp [locks_of_sched hs]) h

theorem locks_of_picked {b : Base} {k : Slot} (h : b.picked = some k) : b.locks = [.ptable] := by
  cases b with
  | scheduler a =>
    cases a with
    | running | swtch | back => rfl
    | _ => cases h
  | _ => cases h

theorem expected_of_sched (h : t.sched = none) : t.expected = .running := by
  simp [Thread.expected, h]

theorem saved_of_sched (h : t.sched = none) : t.saved = none := by
  simp [Thread.saved, h]

theorem expected_ne : t.expected ≠ .unused ∧ t.expected ≠ .embryo := by
  obtain ⟨irq, b⟩ := t
  cases irq with
  | some q =>
    cases q with
    | yield a =>
      cases a with
      | sched a => cases a <;> exact ⟨nofun, nofun⟩
      | _ => exact ⟨nofun, nofun⟩
    | _ => exact ⟨nofun, nofun⟩
  | none =>
    cases b with
    | sleep e n c a | wait a | exit a =>
      cases a with
      | sched a => cases a <;> exact ⟨nofun, nofun⟩
      | _ => exact ⟨nofun, nofun⟩
    | _ => exact ⟨nofun, nofun⟩

/-- The process may be scheduled, now or later. -/
def active : ProcState → Bool
  | .sleeping | .runnable | .running => true
  | _ => false

/-- The thread waits to be scheduled. -/
def Parked (t : Thread) : Prop := t = Base.forkret.thread ∨ ∃ x, t.saved = some x

theorem sched_of_saved {x : Bool} (h : t.saved = some x) : ∃ y, t.sched = some (.saved x, y) := by
  unfold Thread.saved at h
  split at h
  · next y hs =>
    cases h
    exact ⟨y, hs⟩
  · cases h

theorem Parked.locks (h : Parked t) : t.locks = [.ptable] := by
  obtain rfl | ⟨x, hx⟩ := h
  · rfl
  · obtain ⟨y, hs⟩ := sched_of_saved hx
    exact locks_of_sched hs

theorem Parked.expected (h : Parked t) : t.expected = .running := by
  obtain rfl | ⟨x, hx⟩ := h
  · rfl
  · obtain ⟨y, hs⟩ := sched_of_saved hx
    simp [Thread.expected, hs]

namespace Sys

/-- The thread that CPU `c` executes. -/
def now (s : Sys κ) (c : κ) : Thread := s.thread (s.self c)

end Sys

/-- The CPU `c` and the locks are as the thread that it executes says. -/
structure CpuOk (holder : Lk → Option κ) (c : κ) (x : Cpu) (t : Thread) : Prop where
  holder : ∀ k, holder k = some c ↔ k ∈ t.locks
  ncli : x.ncli = t.locks.length
  quiet : x.intr = true → t.locks = [] ∧ t.irq = none
  intena : t.irq ≠ none → t.locks ≠ [] → t.saved = none → x.intena = false

structure ThreadOk (th : κ ⊕ Slot) (t : Thread) : Prop where
  /-- Interrupts come while no lock is held. -/
  masked : t.irq ≠ none → t.base.locks = []
  kind : t.base.isScheduler = th.isLeft
  noYield : th.isLeft = true → t.yields = false
  saved : t.irq ≠ none → ∀ x, t.saved = some x → x = false

structure Inv (s : Sys κ) : Prop where
  cpu : ∀ c, CpuOk s.holder c (s.cpu c) (s.now c)
  thread : ∀ th, ThreadOk th (s.thread th)
  inj : ∀ {c c' i}, s.cur c = some i → s.cur c' = some i → c = c'
  /-- The scheduler of a CPU that runs a process waits for it to come back. -/
  back : ∀ {c i}, s.cur c = some i → s.thread (.inl c) = ⟨none, .scheduler (.back i)⟩
  proc : ∀ c, (s.cpu c).proc = (s.thread (.inl c)).base.picked
  alone : ∀ {c i}, s.cur c = none → (s.thread (.inl c)).base.picked = some i → ∀ c', s.cur c' ≠ some i
  state : ∀ {c i}, s.cur c = some i → (s.tab.proc i).state = (s.thread (.inr i)).expected
  running : ∀ {c k}, (s.thread (.inl c)).base = .scheduler (.running k) → (s.tab.proc k).state = .runnable
  swtch : ∀ {c k}, (s.thread (.inl c)).base = .scheduler (.swtch k) → (s.tab.proc k).state = .running
  parked : ∀ {i}, (∀ c, s.cur c ≠ some i) → active (s.tab.proc i).state = true → Parked (s.thread (.inr i))
  child : ∀ {i k b}, (s.thread (.inr i)).base.child = some (k, b) →
    (s.tab.proc k).state = .embryo ∧ (b = true → s.thread (.inr k) = Base.forkret.thread)
  child_inj : ∀ {i j k b b'}, (s.thread (.inr i)).base.child = some (k, b) →
    (s.thread (.inr j)).base.child = some (k, b') → i = j

namespace Inv

variable {s : Sys κ} {c c' : κ} {t' : Thread}

theorem self_of_none (h : s.cur c = none) : s.self c = .inl c := by
  simp [Sys.self, h]

variable {i j : Slot} {b : Bool} {y : ProcState}

theorem self_of_some (h : s.cur c = some i) : s.self c = .inr i := by
  simp [Sys.self, h]

theorem cur_of_self (h : s.self c = .inr i) : s.cur c = some i := by
  unfold Sys.self at h
  split at h
  · cases h
  · next j hj =>
    cases h
    exact hj

theorem cur_of_self_inl (h : s.self c = .inl c') : s.cur c = none ∧ c = c' := by
  unfold Sys.self at h
  split at h
  · next hj =>
    cases h
    exact ⟨hj, rfl⟩
  · cases h

theorem self_inj (hs : Inv s) (h : s.self c = s.self c') : c = c' := by
  cases hc : s.cur c with
  | none =>
    rw [self_of_none hc] at h
    exact (cur_of_self_inl h.symm).2.symm
  | some i =>
    rw [self_of_some hc] at h
    exact hs.inj hc (cur_of_self h.symm)

theorem sole (hs : Inv s) {k : Lk} (h : k ∈ (s.now c).locks) (h' : k ∈ (s.now c').locks) : c = c' :=
  Option.some.inj ((((hs.cpu c).holder k).mpr h).symm.trans (((hs.cpu c').holder k).mpr h'))

theorem now_of_some (h : s.cur c = some i) : s.now c = s.thread (.inr i) := by
  rw [Sys.now, self_of_some h]

theorem now_of_none (h : s.cur c = none) : s.now c = s.thread (.inl c) := by
  rw [Sys.now, self_of_none h]

section
variable (hs : Inv s)
include hs

theorem proc_of_some (h : s.cur c = some i) : (s.cpu c).proc = some i := by
  rw [hs.proc, hs.back h]
  rfl

variable {k : Slot}

/-- A scheduler that has picked a process has `ptable.lock`, or its CPU runs the process. -/
theorem ptable_of_picked (hc : s.cur c = none)
    (h : (s.thread (.inl c)).base.picked = some k) : .ptable ∈ (s.now c).locks := by
  have hlocks := locks_of_picked h
  have hirq : (s.thread (.inl c)).irq = none := by
    by_contra hne
    rw [(hs.thread _).masked hne] at hlocks
    cases hlocks
  rw [now_of_none hc, Thread.locks, hirq]
  simp [hlocks]

theorem mine (c : κ) : Mine (s.self c) (s.cpu c).proc (s.now c) := by
  intro hor
  cases hc : s.cur c with
  | none =>
    have hok := hs.thread (.inl c)
    rw [now_of_none hc] at hor
    obtain h | h := hor
    · rw [hok.kind] at h
      cases h
    · rw [hok.noYield rfl] at h
      cases h
  | some i => exact ⟨i, self_of_some hc, hs.proc_of_some hc⟩

theorem child_now (h : (s.now c).base.child = some (k, b)) :
    ∃ i, s.cur c = some i ∧ (s.thread (.inr i)).base.child = some (k, b) := by
  cases hc : s.cur c with
  | none =>
    have hkind := (hs.thread (.inl c)).kind
    rw [now_of_none hc] at h
    cases hb : (s.thread (.inl c)).base with
    | scheduler a =>
      rw [hb] at h
      cases h
    | _ =>
      rw [hb] at hkind
      cases hkind
  | some i => exact ⟨i, rfl, by rwa [← now_of_some hc]⟩

theorem embryo_of_child (h : (s.now c).base.child = some (k, b)) : (s.tab.proc k).state = .embryo := by
  obtain ⟨i, -, hi⟩ := hs.child_now h
  exact (hs.child hi).1

variable {a : SchedulerAt}

theorem cur_of_scheduler (h : (s.now c).base = .scheduler a) : s.cur c = none := by
  cases hc : s.cur c with
  | none => rfl
  | some i =>
    have hkind := (hs.thread (.inr i)).kind
    rw [now_of_some hc] at h
    rw [h] at hkind
    cases hkind

theorem runnable_of_now (ht : s.now c = ⟨none, .scheduler (.running k)⟩) :
    (s.tab.proc k).state = .runnable := by
  have hc : s.cur c = none := hs.cur_of_scheduler (by rw [ht])
  rw [now_of_none hc] at ht
  exact hs.running (by rw [ht])

end

section
variable (h : Shift (s.self c) (s.now c) t' j (s.tab.proc j).state y)
include h

theorem state_other (hs : Inv s) (hj : s.cur c' = some j) (hne : c' ≠ c) : y = (s.thread (.inr j)).expected := by
  have hstate := hs.state hj
  -- without `ptable.lock` the process is running
  have hrun : .ptable ∈ (s.now c).locks → (s.thread (.inr j)).expected = .running := by
    intro hpt
    refine expected_of_sched (sched_eq_none fun hpt' => hne ?_)
    rw [← now_of_some hj] at hpt'
    exact hs.sole hpt' hpt
  obtain ⟨hunused, hembryo⟩ := expected_ne (t := s.thread (.inr j))
  generalize hx : (s.tab.proc j).state = x at h
  rw [hx] at hstate
  cases h with
  | same => exact hstate
  | wake hpt | reap hpt =>
    rw [hrun hpt] at hstate
    cases hstate
  | own hpt hown => exact absurd (hs.inj hj (cur_of_self hown)) hne
  | birth => exact absurd hstate.symm hunused
  | publish _ hc | fail hc => exact absurd (hstate.symm.trans (hx.symm.trans (hs.embryo_of_child hc))) hembryo
  | pick hpt ht =>
    have hc : s.cur c = none := hs.cur_of_scheduler (by rw [ht])
    rw [now_of_none hc] at ht
    exact absurd hj (hs.alone hc (by rw [ht]; rfl) c')

theorem state_picked (hs : Inv s) (hb : (s.thread (.inl c')).base = .scheduler a) (ha : ∀ i, a ≠ .back i)
    (hpicked : (Base.scheduler a).picked = some j) (hth : Sum.inl c' ≠ s.self c)
    (hactive : active (s.tab.proc j).state = true) : y = (s.tab.proc j).state := by
  have hc' : s.cur c' = none := by
    cases hcur : s.cur c' with
    | none => rfl
    | some i =>
      rw [hs.back hcur] at hb
      cases hb
      exact absurd rfl (ha i)
  have hne : c' ≠ c := by
    rintro rfl
    exact hth (self_of_none hc').symm
  have hno : .ptable ∉ (s.now c).locks := by
    intro hpt
    exact hne (hs.sole (hs.ptable_of_picked hc' (by rw [hb]; exact hpicked)) hpt)
  generalize hx : (s.tab.proc j).state = x at h hactive
  cases h with
  | same => rfl
  | wake hpt | own hpt | birth hpt | publish hpt | reap hpt | pick hpt => exact absurd hpt hno
  | fail hc =>
    rw [← hx, hs.embryo_of_child hc] at hactive
    cases hactive

/-- A process that is not executed, and is ready or asleep, was so before or is a new one. -/
theorem parked_of_shift (hs : Inv s) (hj : ∀ c, s.cur c ≠ some j)
    (hactive : active y = true) : Parked (s.thread (.inr j)) := by
  have hold := hs.parked hj
  generalize hx : (s.tab.proc j).state = x at h hold
  cases h with
  | same => exact hold hactive
  | wake => exact hold rfl
  | own hpt hown => exact absurd (cur_of_self hown) (hj c)
  | publish hpt hc =>
    obtain ⟨i, -, hi⟩ := hs.child_now hc
    exact .inl ((hs.child hi).2 rfl)
  | pick hpt ht =>
    have hrun := hs.runnable_of_now ht
    rw [hx] at hrun
    exact hold (by rw [hrun]; rfl)
  | birth | fail | reap => cases hactive

theorem state_child (hs : Inv s)
    (hchild : (s.thread (.inr i)).base.child = some (j, b)) (hne : s.self c ≠ .inr i) : y = .embryo := by
  have hstate := (hs.child hchild).1
  generalize hx : (s.tab.proc j).state = x at h
  rw [hx] at hstate
  subst hstate
  cases h with
  | same => rfl
  | own hpt hj =>
    have hcur := hs.state (cur_of_self hj)
    rw [hx] at hcur
    exact absurd hcur.symm expected_ne.2
  | publish _ hc | fail hc =>
    obtain ⟨i', hi', hc'⟩ := hs.child_now hc
    obtain rfl := hs.child_inj hchild hc'
    exact absurd (self_of_some hi') hne
  | pick hpt ht =>
    have hrun := hs.runnable_of_now ht
    rw [hx] at hrun
    cases hrun

end

end Inv

theorem CpuOk.congr {c : κ} {holder holder' : Lk → Option κ} {x : Cpu}
    (h : CpuOk holder c x t) (hh : ∀ k, holder' k = some c ↔ holder k = some c) : CpuOk holder' c x t :=
  ⟨fun k => (hh k).trans (h.holder k), h.ncli, h.quiet, h.intena⟩

namespace Inv

variable [DecidableEq κ] {s : Sys κ} {c c' : κ} {t' : Thread}

theorem goto_self (s : Sys κ) (c : κ) (t' : Thread) : s.goto c t' (s.self c) = t' := update_self ..

theorem goto_of_ne {th : κ ⊕ Slot} (h : th ≠ s.self c) : s.goto c t' th = s.thread th :=
  update_of_ne h ..

theorem setCpu_self (s : Sys κ) (c : κ) (x : Cpu) : s.setCpu c x c = x := update_self ..

theorem setCpu_of_ne {x : Cpu} (h : c' ≠ c) : s.setCpu c x c' = s.cpu c' := update_of_ne h ..

variable {x' : Cpu} {h' : Lk → Option κ}

/-- CPU `c` takes a step with its thread, which goes on at `t'`, and goes on executing it. -/
theorem moved (hs : Inv s) {T' : Table}
    (hcpu : CpuOk h' c x' t') (hholder : ∀ k c', c' ≠ c → (h' k = some c' ↔ s.holder k = some c'))
    (hthread : ThreadOk (s.self c) t')
    (hproc : x'.proc = if s.cur c = none then t'.base.picked else (s.cpu c).proc)
    (hpicked : s.cur c = none → ∀ k, t'.base.picked = some k → ∀ c', s.cur c' ≠ some k)
    (hshift : ∀ j, Shift (s.self c) (s.now c) t' j (s.tab.proc j).state (T'.proc j).state)
    (hself : ∀ j, s.self c = .inr j → (T'.proc j).state = t'.expected)
    (hrunning : ∀ k, t'.base = .scheduler (.running k) → (T'.proc k).state = .runnable)
    (hswtch : ∀ k, t'.base = .scheduler (.swtch k) → (T'.proc k).state = .running)
    (hchild : ∀ k b, t'.base.child = some (k, b) → (T'.proc k).state = .embryo ∧
      ((∃ b', (s.now c).base.child = some (k, b') ∧
          (b = true → b' = true ∨ s.thread (.inr k) = Base.forkret.thread)) ∨
        (s.tab.proc k).state = .unused ∧ b = false)) :
    Inv { s with tab := T', thread := s.goto c t', cpu := s.setCpu c x', holder := h' } := by
  have hinl : ∀ {c'}, c' ≠ c → (Sum.inl c' : κ ⊕ Slot) ≠ s.self c :=
    fun hne h => hne (cur_of_self_inl h.symm).2.symm
  -- a scheduler whose CPU runs a process has not moved
  have hback : ∀ {c' i}, s.cur c' = some i → (Sum.inl c' : κ ⊕ Slot) ≠ s.self c := by
    intro c' i hc' h
    obtain ⟨hc, rfl⟩ := cur_of_self_inl h.symm
    rw [hc] at hc'
    cases hc'
  have hembryo : ∀ {k}, (s.tab.proc k).state = .embryo → (Sum.inr k : κ ⊕ Slot) ≠ s.self c := by
    intro k hk h
    rw [hs.state (cur_of_self h.symm)] at hk
    exact expected_ne.2 hk
  refine ⟨fun c' => ?_, fun th => ?_, hs.inj, fun {c' i} hc' => ?_, fun c' => ?_, fun {c' i} hc' hp => ?_,
    fun {c' i} hc' => ?_, fun {c' k} hb => ?_, fun {c' k} hb => ?_, fun {i} hi hactive => ?_,
    fun {i k b} hk => ?_, fun {i j k b b'} hk hk' => ?_⟩
  · show CpuOk h' c' (s.setCpu c x' c') (s.goto c t' (s.self c'))
    by_cases hc : c' = c
    · subst hc
      rwa [setCpu_self, goto_self]
    · rw [setCpu_of_ne hc, goto_of_ne fun h => hc (hs.self_inj h)]
      exact (hs.cpu c').congr fun k => hholder k c' hc
  · show ThreadOk th (s.goto c t' th)
    by_cases hth : th = s.self c
    · subst hth
      rwa [goto_self]
    · rw [goto_of_ne hth]
      exact hs.thread th
  · show s.goto c t' (.inl c') = _
    rw [goto_of_ne (hback hc')]
    exact hs.back hc'
  · show (s.setCpu c x' c').proc = (s.goto c t' (.inl c')).base.picked
    by_cases hc : c' = c
    · subst hc
      rw [setCpu_self, hproc]
      cases hcur : s.cur c' with
      | none => rw [if_pos rfl, ← self_of_none hcur, goto_self]
      | some i =>
        rw [if_neg (Option.some_ne_none i), goto_of_ne (hback hcur)]
        exact hs.proc c'
    · rw [setCpu_of_ne hc, goto_of_ne (hinl hc)]
      exact hs.proc c'
  · have hp : (s.goto c t' (.inl c')).base.picked = some i := hp
    have hidle : s.cur c' = none := hc'
    by_cases hc : c' = c
    · subst hc
      rw [← self_of_none hidle, goto_self] at hp
      exact hpicked hidle i hp
    · rw [goto_of_ne (hinl hc)] at hp
      exact hs.alone hidle hp
  · show (T'.proc i).state = (s.goto c t' (.inr i)).expected
    by_cases hself' : s.self c = .inr i
    · rw [← hself', goto_self]
      exact hself i hself'
    · rw [goto_of_ne (Ne.symm hself')]
      refine hs.state_other (hshift i) hc' fun h => ?_
      subst h
      exact hself' (self_of_some hc')
  · have hb : (s.goto c t' (.inl c')).base = .scheduler (.running k) := hb
    by_cases hth : Sum.inl c' = s.self c
    · rw [hth, goto_self] at hb
      exact hrunning k hb
    · rw [goto_of_ne hth] at hb
      rw [← hs.running hb]
      exact hs.state_picked (hshift k) hb nofun rfl hth (by rw [hs.running hb]; rfl)
  · have hb : (s.goto c t' (.inl c')).base = .scheduler (.swtch k) := hb
    by_cases hth : Sum.inl c' = s.self c
    · rw [hth, goto_self] at hb
      exact hswtch k hb
    · rw [goto_of_ne hth] at hb
      rw [← hs.swtch hb]
      exact hs.state_picked (hshift k) hb nofun rfl hth (by rw [hs.swtch hb]; rfl)
  · show Parked (s.goto c t' (.inr i))
    have hne : Sum.inr i ≠ s.self c := fun h => hi c (cur_of_self h.symm)
    rw [goto_of_ne hne]
    exact hs.parked_of_shift (hshift i) hi hactive
  · have hk : (s.goto c t' (.inr i)).base.child = some (k, b) := hk
    show (T'.proc k).state = .embryo ∧ (b = true → s.goto c t' (.inr k) = Base.forkret.thread)
    by_cases hth : Sum.inr i = s.self c
    · rw [hth, goto_self] at hk
      obtain ⟨hstate, ⟨b', hb', hbb⟩ | ⟨-, hb⟩⟩ := hchild k b hk
      · obtain ⟨i', -, hi'⟩ := hs.child_now hb'
        refine ⟨hstate, fun hb => ?_⟩
        rw [goto_of_ne (hembryo (hs.child hi').1)]
        exact (hbb hb).elim (hs.child hi').2 id
      · exact ⟨hstate, fun h => by rw [hb] at h; cases h⟩
    · rw [goto_of_ne hth] at hk
      refine ⟨hs.state_child (hshift k) hk (Ne.symm hth), fun hb => ?_⟩
      rw [goto_of_ne (hembryo (hs.child hk).1)]
      exact (hs.child hk).2 hb
  · have hk : (s.goto c t' (.inr i)).base.child = some (k, b) := hk
    have hk' : (s.goto c t' (.inr j)).base.child = some (k, b') := hk'
    have hnew : ∀ {i j b b'}, Sum.inr i = s.self c → t'.base.child = some (k, b) →
        (s.thread (.inr j)).base.child = some (k, b') → i = j := by
      intro i j b b' hth hi hj
      obtain ⟨-, ⟨b'', hb'', -⟩ | ⟨hunused, -⟩⟩ := hchild k b hi
      · rw [Sys.now, ← hth] at hb''
        exact hs.child_inj hb'' hj
      · rw [(hs.child hj).1] at hunused
        cases hunused
    by_cases hth : Sum.inr i = s.self c
    · by_cases hth' : Sum.inr j = s.self c
      · exact Sum.inr.inj (hth.trans hth'.symm)
      · rw [hth, goto_self] at hk
        rw [goto_of_ne hth'] at hk'
        exact hnew hth hk hk'
    · rw [goto_of_ne hth] at hk
      by_cases hth' : Sum.inr j = s.self c
      · rw [hth', goto_self] at hk'
        exact (hnew hth' hk' hk).symm
      · rw [goto_of_ne hth'] at hk'
        exact hs.child_inj hk hk'

/-! ## Steps -/

theorem picked_of_locks {b : Base} (h : b.locks = []) : b.picked = none := by
  cases hb : b.picked with
  | none => rfl
  | some k =>
    rw [locks_of_picked hb] at h
    cases h

/-- The thread goes on in its own code, and not into the scheduling. -/
structure Goes (o : Option Slot) (t t' : Thread) : Prop where
  base : t.base.locks = [] ∧ t'.base = t.base ∨ Moves o t.base t'.base
  masked : t'.irq ≠ none → t'.base.locks = []
  before : t.expected = .running
  after : t'.sched = none

/-- Only the CPU and its thread move. -/
theorem control (hs : Inv s) (hcpu : CpuOk h' c x' t')
    (hholder : ∀ k c', c' ≠ c → (h' k = some c' ↔ s.holder k = some c'))
    (hproc : x'.proc = (s.cpu c).proc) (hgo : Goes (s.cpu c).proc (s.now c) t')
    (hyields : t'.yields = true → (s.now c).yields = true ∨ (s.cpu c).proc ≠ none) :
    Inv { s with thread := s.goto c t', cpu := s.setCpu c x', holder := h' } := by
  have hnone : (s.now c).base.picked = none ∧ t'.base.picked = none := by
    obtain ⟨hlocks, hb⟩ | hmoves := hgo.base
    · rw [hb]
      exact ⟨picked_of_locks hlocks, picked_of_locks hlocks⟩
    · exact hmoves.picked
  have hidle : s.cur c = none → (s.cpu c).proc = none := by
    intro hc
    rw [hs.proc, ← now_of_none hc]
    exact hnone.1
  have hchild : t'.base.child = (s.now c).base.child := by
    obtain ⟨-, hb⟩ | hmoves := hgo.base
    · rw [hb]
    · exact hmoves.child
  have hold := hs.thread (s.self c)
  refine hs.moved hcpu hholder ⟨hgo.masked, ?_, fun hleft => ?_, fun _ x hx => ?_⟩ ?_ ?_
    (fun _ => .same) ?_ ?_ ?_ ?_
  · rw [← hold.kind]
    obtain ⟨-, hb⟩ | hmoves := hgo.base
    · rw [hb]
      rfl
    · exact hmoves.kind
  · cases hc : s.cur c with
    | some i =>
      rw [self_of_some hc] at hleft
      cases hleft
    | none =>
      refine Bool.eq_false_iff.mpr fun hy => ?_
      obtain hy | hp := hyields hy
      · rw [show (s.now c).yields = false from hold.noYield hleft] at hy
        cases hy
      · exact hp (hidle hc)
  · rw [saved_of_sched hgo.after] at hx
    cases hx
  · rw [hproc]
    split
    · next hc => rw [hidle hc, hnone.2]
    · rfl
  · intro _ k hk
    rw [hnone.2] at hk
    cases hk
  · intro j hj
    rw [expected_of_sched hgo.after, ← hgo.before, hs.state (cur_of_self hj), ← now_of_some (cur_of_self hj)]
  · intro k hk
    have := hnone.2
    rw [hk] at this
    cases this
  · intro k hk
    have := hnone.2
    rw [hk] at this
    cases this
  · intro k b hk
    rw [hchild] at hk
    exact ⟨hs.embryo_of_child hk, .inl ⟨b, hk, .inl⟩⟩

end Inv

theorem Plain.irq {cpu : Cpu} {t' : Thread} (h : Plain cpu t t') : t'.irq ≠ none ↔ t.irq ≠ none := by
  obtain ⟨h1, h2, -⟩ | ⟨h1, h2, -⟩ := h.base
  · exact ⟨fun _ => h1, fun _ => h2⟩
  · exact ⟨fun h => absurd h2 h, fun h => absurd h1 h⟩

section
variable {holder : Lk → Option κ} {c : κ} {x : Cpu} {t t' : Thread} {k : Lk}

theorem CpuOk.goto (h : CpuOk holder c x t) (hlocks : t'.locks = t.locks)
    (hirq : t'.irq ≠ none ↔ t.irq ≠ none) (hsaved : t.saved = none) : CpuOk holder c x t' := by
  refine ⟨?_, ?_, fun hintr => ?_, fun hi hl _ => ?_⟩
  · rw [hlocks]
    exact h.holder
  · rw [hlocks]
    exact h.ncli
  · rw [hlocks]
    exact ⟨(h.quiet hintr).1, by_contra fun hne => hirq.mp hne (h.quiet hintr).2⟩
  · rw [hlocks] at hl
    exact h.intena (hirq.mp hi) hl hsaved

variable {s : Sys κ}

theorem CpuOk.lock (h : CpuOk s.holder c (s.cpu c) t) (hk : k ∉ t.locks) (hlocks : t'.locks.Perm (k :: t.locks))
    (hirq : t'.irq ≠ none ↔ t.irq ≠ none) (hsaved : t.saved = none) :
    CpuOk (update s.holder k (some c)) c (s.pushcli c) t' := by
  refine ⟨fun k' => ?_, ?_, nofun, fun hi _ _ => ?_⟩
  · rw [hlocks.mem_iff, List.mem_cons]
    by_cases hk' : k' = k
    · subst hk'
      simp
    · rw [update_of_ne hk', h.holder]
      simp [hk']
  · show (s.cpu c).ncli + 1 = _
    rw [hlocks.length_eq, h.ncli]
    rfl
  · show (if (s.cpu c).ncli = 0 then (s.cpu c).intr else (s.cpu c).intena) = false
    split
    · refine Bool.eq_false_iff.mpr fun hintr => hirq.mp hi (h.quiet hintr).2
    · next hne =>
      refine h.intena (hirq.mp hi) (fun hnil => hne ?_) hsaved
      rw [h.ncli, hnil]
      rfl

theorem CpuOk.unlock (h : CpuOk s.holder c (s.cpu c) t) (hk : k ∉ t'.locks)
    (hlocks : t.locks.Perm (k :: t'.locks)) (hirq : t'.irq ≠ none ↔ t.irq ≠ none) (hsaved : t.saved = none) :
    CpuOk (update s.holder k none) c (s.popcli c) t' := by
  have hne : t.locks ≠ [] := by
    intro hnil
    rw [hnil] at hlocks
    exact absurd hlocks.length_eq (by simp)
  have hncli : (s.cpu c).ncli - 1 = t'.locks.length := by
    rw [h.ncli, hlocks.length_eq]
    simp
  refine ⟨fun k' => ?_, hncli, fun hintr => ?_, fun hi _ _ => h.intena (hirq.mp hi) hne hsaved⟩
  · by_cases hk' : k' = k
    · subst hk'
      rw [update_self]
      exact ⟨nofun, fun h => absurd h hk⟩
    · rw [update_of_ne hk', h.holder, hlocks.mem_iff, List.mem_cons]
      simp [hk']
  · have hintr : (if (s.cpu c).ncli - 1 = 0 ∧ (s.cpu c).intena = true then true else (s.cpu c).intr) = true :=
      hintr
    split at hintr
    · next hor =>
      refine ⟨?_, by_contra fun hi => ?_⟩
      · have := hor.1
        rw [hncli] at this
        exact List.length_eq_zero_iff.mp (by exact_mod_cast this)
      · have := h.intena (hirq.mp hi) hne hsaved
        rw [hor.2] at this
        cases this
    · exact absurd (h.quiet hintr).1 hne

end

namespace Inv

variable [DecidableEq κ] {s : Sys κ} {c c' : κ} {t' : Thread}

theorem setCpu_eq (s : Sys κ) (c : κ) : s.setCpu c (s.cpu c) = s.cpu := update_eq_self ..

section
variable (hs : Inv s) (hp : Plain (s.cpu c) (s.now c) t')
include hs hp

theorem plain {x' : Cpu} {h' : Lk → Option κ}
    (hcpu : CpuOk h' c x' t') (hholder : ∀ k c', c' ≠ c → (h' k = some c' ↔ s.holder k = some c'))
    (hproc : x'.proc = (s.cpu c).proc) :
    Inv { s with thread := s.goto c t', cpu := s.setCpu c x', holder := h' } := by
  have hmasked := (hs.thread (s.self c)).masked
  refine hs.control hcpu hholder hproc ⟨?_, ?_, expected_of_sched hp.before, hp.after⟩ hp.yields
  · obtain ⟨h1, -, hb⟩ | ⟨-, -, hmoves⟩ := hp.base
    · exact .inl ⟨hmasked h1, hb⟩
    · exact .inr hmoves
  · intro hi
    obtain ⟨h1, -, hb⟩ | ⟨-, h2, -⟩ := hp.base
    · rw [hb]
      exact hmasked h1
    · exact absurd h2 hi

theorem goto (hlocks : t'.locks = (s.now c).locks) : Inv { s with thread := s.goto c t' } := by
  have hcpu := (hs.cpu c).goto hlocks hp.irq (saved_of_sched hp.before)
  have := hs.plain hp hcpu (fun _ _ _ => Iff.rfl) rfl
  rwa [setCpu_eq] at this

variable {k : Lk}

theorem lock (hk : k ∉ (s.now c).locks)
    (hlocks : t'.locks.Perm (k :: (s.now c).locks)) (hfree : s.holder k = none) :
    Inv { s with
      thread := s.goto c t', cpu := s.setCpu c (s.pushcli c), holder := update s.holder k (some c) } := by
  refine hs.plain hp ((hs.cpu c).lock hk hlocks hp.irq (saved_of_sched hp.before)) (fun k' c' hc' => ?_) rfl
  by_cases hk' : k' = k
  · subst hk'
    rw [update_self, hfree]
    exact ⟨fun h => absurd (Option.some.inj h).symm hc', nofun⟩
  · rw [update_of_ne hk']

theorem unlock (hk : k ∉ t'.locks) (hlocks : (s.now c).locks.Perm (k :: t'.locks)) :
    Inv { s with
      thread := s.goto c t', cpu := s.setCpu c (s.popcli c), holder := update s.holder k none } := by
  refine hs.plain hp ((hs.cpu c).unlock hk hlocks hp.irq (saved_of_sched hp.before)) (fun k' c' hc' => ?_) rfl
  by_cases hk' : k' = k
  · subst hk'
    have hc : s.holder k' = some c := ((hs.cpu c).holder k').mpr (hlocks.mem_iff.mpr (List.mem_cons_self ..))
    rw [update_self, hc]
    exact ⟨nofun, fun h => absurd (Option.some.inj h).symm hc'⟩
  · rw [update_of_ne hk']

end

theorem mask (hs : Inv s) {on : Bool} (hm : Masks (s.cpu c) on (s.now c) t') :
    Inv { s with thread := s.goto c t', cpu := s.setCpu c { s.cpu c with intr := on } } := by
  have hok := hs.cpu c
  have hmasked := (hs.thread (s.self c)).masked
  have hx : CpuOk s.holder c { s.cpu c with intr := on } t' ∧
      Goes (s.cpu c).proc (s.now c) t' ∧ t'.yields = false := by
    rw [Sys.now] at hm hok ⊢
    generalize s.thread (s.self c) = t at hm hok hmasked ⊢
    cases hm with
    | iret =>
      next b =>
      have hb : b.locks = [] := hmasked (by rintro ⟨⟩)
      refine ⟨⟨?_, ?_, fun _ => ⟨hb, rfl⟩, fun h => absurd rfl h⟩,
        ⟨.inl ⟨hb, rfl⟩, fun h => absurd rfl h, rfl, sched_eq_none (by simp [Thread.locks, hb])⟩, rfl⟩
      · simpa [Thread.locks, hb, Irq.locks, held] using hok.holder
      · simpa [Thread.locks, hb, Irq.locks, held] using hok.ncli
    | interrupt hintr =>
      next b =>
      have hb : b.locks = [] := (hok.quiet hintr).1
      refine ⟨⟨?_, ?_, (by rintro ⟨⟩), fun _ hl => absurd rfl hl⟩,
        ⟨.inl ⟨hb, rfl⟩, fun _ => hb, expected_of_sched (sched_eq_none (by simp [Thread.locks, hb])), rfl⟩, rfl⟩
      · simpa [Thread.locks, hb, Irq.locks, held] using hok.holder
      · simpa [Thread.locks, hb, Irq.locks, held] using hok.ncli
    | enable | leave | enter =>
      exact ⟨⟨hok.holder, hok.ncli, fun _ => ⟨rfl, rfl⟩, fun h => absurd rfl h⟩,
        ⟨.inr ⟨⟨rfl, .inl, by rintro ⟨⟩⟩, ⟨rfl, rfl⟩, rfl⟩, fun h => absurd rfl h, rfl, rfl⟩, rfl⟩
  obtain ⟨hcpu, hgo, hy⟩ := hx
  exact hs.control hcpu (fun _ _ _ => Iff.rfl) rfl hgo (by simp [hy])

theorem resume (hs : Inv s) {x : Bool} (hr : Resumes x (s.now c) t') :
    Inv { s with thread := s.goto c t', cpu := s.setCpu c { s.cpu c with intena := x } } := by
  have hok := hs.cpu c
  have hth := hs.thread (s.self c)
  have hx : CpuOk s.holder c { s.cpu c with intena := x } t' ∧
      Goes (s.cpu c).proc (s.now c) t' ∧ (t'.yields = true → (s.now c).yields = true) := by
    rw [Sys.now] at hr hok ⊢
    generalize s.thread (s.self c) = t at hr hok hth ⊢
    cases hr with
    | yield =>
      have hb := hth.masked nofun
      have hx : x = false := hth.saved nofun x rfl
      exact ⟨⟨hok.holder, hok.ncli, fun h => (nomatch (hok.quiet h).1), fun _ _ _ => hx⟩,
        ⟨.inl ⟨hb, rfl⟩, fun _ => hb, rfl, rfl⟩, id⟩
    | sleep | wait =>
      exact ⟨⟨hok.holder, hok.ncli, fun h => (nomatch (hok.quiet h).1), fun h => absurd rfl h⟩,
        ⟨.inr ⟨⟨rfl, .inl, nofun⟩, ⟨rfl, rfl⟩, rfl⟩, fun h => absurd rfl h, rfl, rfl⟩, nofun⟩
  obtain ⟨hcpu, hgo, hy⟩ := hx
  exact hs.control hcpu (fun _ _ _ => Iff.rfl) rfl hgo fun h => .inl (hy h)

end Inv

/-- What a step that changes the table does to its thread. -/
structure Touches (t t' : Thread) : Prop where
  locks : t'.locks = t.locks
  irq : t'.irq ≠ none ↔ t.irq ≠ none
  base : t.irq ≠ none → t'.base = t.base
  kind : t'.base.isScheduler = t.base.isScheduler
  picked : t'.base.picked = t.base.picked
  before : t.sched = none
  saved : t'.saved = none
  yields : t'.yields = t.yields

section
variable {T T' : Table} {o : Option Slot} {t t' : Thread}

section
variable (h : TableStep T o t T' t')
include h

theorem TableStep.touches : Touches t t' := by
  cases h with
  | handlerWakeup | yield =>
    exact ⟨rfl, iff_of_true nofun nofun, fun _ => rfl, rfl, rfl, rfl, rfl, rfl⟩
  | _ => exact ⟨rfl, Iff.rfl, fun h => absurd rfl h, rfl, rfl, rfl, rfl, rfl⟩

theorem TableStep.expected : t'.expected = .running ∨ ∃ i, o = some i ∧ (T'.proc i).state = t'.expected := by
  cases h with
  | yield hi | zombie hi => exact .inr ⟨_, hi, Table.setState_self ..⟩
  | sleep hi | waitSleep hi =>
    refine .inr ⟨_, hi, ?_⟩
    rw [Table.sleepOn, Table.upd_self]
    rfl
  | _ => exact .inl rfl

variable {k : Slot}

theorem TableStep.child {b : Bool} (hk : t'.base.child = some (k, b)) :
    (∃ b', t.base.child = some (k, b') ∧ (b = true → b' = true)) ∨
      (T.proc k).state = .unused ∧ (T'.proc k).state = .embryo ∧ b = false := by
  cases h with
  | handlerWakeup | yield => exact .inl ⟨b, hk, id⟩
  | found hunused =>
    cases hk
    exact .inr ⟨hunused, by simp [Table.found], rfl⟩
  | noDir | setDir | setParent =>
    cases hk
    exact .inl ⟨true, rfl, id⟩
  | freeStack =>
    cases hk
    exact .inl ⟨true, rfl, by rintro ⟨⟩⟩
  | _ => cases hk

theorem TableStep.scheduler (hirq : t.irq = none) :
    t'.base ≠ .scheduler (.running k) ∧ (t'.base = .scheduler (.swtch k) → (T'.proc k).state = .running) := by
  cases h with
  | handlerWakeup | yield => cases hirq
  | running =>
    refine ⟨nofun, fun hk => ?_⟩
    cases hk
    exact Table.setState_self ..
  | _ => exact ⟨nofun, nofun⟩

end

end

namespace Inv

variable [DecidableEq κ] {s : Sys κ} {c c' : κ} {t' : Thread}

/-- A step that writes the process table. -/
theorem table (hs : Inv s) {T' : Table} (h : TableStep s.tab (s.cpu c).proc (s.now c) T' t') :
    Inv { s with tab := T', thread := s.goto c t' } := by
  have hth := hs.thread (s.self c)
  have htouch := h.touches
  have hshift := h.shift (hs.mine c)
  have hcpu := (hs.cpu c).goto htouch.locks htouch.irq (saved_of_sched htouch.before)
  -- a thread in a handler has no part in the scheduling
  have hirq : ∀ {a : SchedulerAt}, t'.base = .scheduler a → (Base.scheduler a).picked ≠ none →
      (s.now c).irq = none := by
    intro a ha hne
    by_contra hi
    rw [htouch.base hi] at ha
    have hlocks := hth.masked hi
    rw [← Sys.now, ha] at hlocks
    exact hne (picked_of_locks hlocks)
  have hthread : ThreadOk (s.self c) t' := by
    refine ⟨fun hi => ?_, htouch.kind.trans hth.kind, fun hl => htouch.yields.trans (hth.noYield hl),
      fun _ x hx => ?_⟩
    · rw [htouch.base (htouch.irq.mp hi)]
      exact hth.masked (htouch.irq.mp hi)
    · rw [htouch.saved] at hx
      cases hx
  have := hs.moved hcpu (fun _ _ _ => Iff.rfl) hthread ?_ ?_ hshift ?_ ?_ ?_ ?_
  · rwa [setCpu_eq] at this
  · rw [htouch.picked]
    split
    · next hc => rw [now_of_none hc, hs.proc]
    · rfl
  · intro hc k hk
    rw [htouch.picked, now_of_none hc] at hk
    exact hs.alone hc hk
  · intro j hj
    have hcur := cur_of_self hj
    have hrun : (s.tab.proc j).state = .running := by
      rw [hs.state hcur, ← now_of_some hcur]
      exact expected_of_sched htouch.before
    obtain hexp | ⟨i, hi, hexp⟩ := h.expected
    · have hj' := hshift j
      rw [hrun] at hj'
      generalize hy : (T'.proc j).state = y at hj'
      cases hj' with
      | same => exact hexp.symm
      | own => rfl
      | publish _ hc | fail hc =>
        have := hs.embryo_of_child hc
        rw [hrun] at this
        cases this
      | pick => exact hexp.symm
    · rw [hs.proc_of_some hcur] at hi
      cases hi
      exact hexp
  · intro k hk
    exact absurd hk (h.scheduler (hirq hk nofun)).1
  · intro k hk
    exact (h.scheduler (hirq hk nofun)).2 hk
  · intro k b hk
    obtain ⟨b', hb', hbb⟩ | ⟨hunused, hembryo, hb⟩ := h.child hk
    · refine ⟨?_, .inl ⟨b', hb', fun h => .inl (hbb h)⟩⟩
      have hj := hshift k
      have hstate := hs.embryo_of_child hb'
      rw [hstate] at hj
      generalize hy : (T'.proc k).state = y at hj
      cases hj with
      | same => rfl
      | own hpt hown =>
        rw [hs.state (cur_of_self hown)] at hstate
        exact absurd hstate expected_ne.2
      | publish _ _ hc' | fail _ hc' =>
        rw [hk] at hc'
        cases hc'
      | pick hpt ht =>
        have hrun := hs.runnable_of_now ht
        rw [hstate] at hrun
        cases hrun
    · exact ⟨hembryo, .inr ⟨hunused, hb⟩⟩

variable {k : Slot} {s' : Sys κ} {f : Bool → Thread}

theorem context (hs : Inv s) (hk : (s.tab.proc k).state = .embryo) :
    Inv { s with thread := update s.thread (.inr k) Base.forkret.thread } := by
  have hself : ∀ c, s.self c ≠ .inr k := by
    intro c h
    rw [hs.state (cur_of_self h)] at hk
    exact expected_ne.2 hk
  have hinl : ∀ c, update s.thread (.inr k) Base.forkret.thread (.inl c) = s.thread (.inl c) :=
    fun c => update_of_ne Sum.inl_ne_inr ..
  have hinr : ∀ {i}, i ≠ k → update s.thread (.inr k) Base.forkret.thread (.inr i) = s.thread (.inr i) :=
    fun hi => update_of_ne (fun h => hi (Sum.inr.inj h)) ..
  have hchild : ∀ {i k' b}, (update s.thread (.inr k) Base.forkret.thread (.inr i)).base.child =
      some (k', b) → (s.thread (.inr i)).base.child = some (k', b) := by
    intro i k' b h
    by_cases hi : i = k
    · subst hi
      rw [update_self] at h
      cases h
    · rwa [hinr hi] at h
  refine ⟨fun c => ?_, fun th => ?_, hs.inj, fun hc => (hinl _).trans (hs.back hc), fun c => ?_,
    fun {c i} hc hp => ?_,
    fun {c i} hc => ?_, fun {c k'} hb => ?_, fun {c k'} hb => ?_, fun {i} hi hactive => ?_, fun {i k' b} h => ?_,
    fun h h' => hs.child_inj (hchild h) (hchild h')⟩
  · show CpuOk s.holder c (s.cpu c) (update s.thread _ _ (s.self c))
    rw [update_of_ne (hself c)]
    exact hs.cpu c
  · show ThreadOk th (update s.thread _ _ th)
    by_cases hth : th = .inr k
    · subst hth
      rw [update_self]
      exact ⟨fun h => absurd rfl h, rfl, nofun, fun h => absurd rfl h⟩
    · rw [update_of_ne hth]
      exact hs.thread th
  · exact (hs.proc c).trans (congrArg (fun t => t.base.picked) (hinl c).symm)
  · dsimp only at hp
    rw [hinl] at hp
    exact hs.alone hc hp
  · have hi : i ≠ k := by
      rintro rfl
      exact hself c (self_of_some hc)
    dsimp only
    rw [hinr hi]
    exact hs.state hc
  · dsimp only at hb
    rw [hinl] at hb
    exact hs.running hb
  · dsimp only at hb
    rw [hinl] at hb
    exact hs.swtch hb
  · dsimp only
    have hik : i ≠ k := by
      rintro rfl
      rw [show (s.tab.proc i).state = .embryo from hk] at hactive
      cases hactive
    rw [hinr hik]
    exact hs.parked hi hactive
  · obtain ⟨hstate, hfork⟩ := hs.child (hchild h)
    refine ⟨hstate, fun hb => ?_⟩
    dsimp only
    by_cases hk' : k' = k
    · subst hk'
      exact update_self ..
    · rw [hinr hk']
      exact hfork hb

/-- `allocproc` sets up the stack of a child. -/
theorem spawn (hs : Inv s) {a : Page} (ht : s.now c = ⟨none, .fork (.stack k)⟩) :
    Inv { s with
      tab := s.tab.setStack k a
      thread := update (s.goto c ⟨none, .fork (.copy k)⟩) (.inr k) Base.forkret.thread } := by
  have hchild : (s.now c).base.child = some (k, false) := by rw [ht]; rfl
  have hk := hs.embryo_of_child hchild
  have hne : s.self c ≠ .inr k := by
    intro h
    rw [hs.state (cur_of_self h)] at hk
    exact expected_ne.2 hk
  have hs' := hs.context hk
  generalize hs₁ : { s with thread := update s.thread (.inr k) Base.forkret.thread } = s₁ at hs'
  have hnow : s₁.now c = s.now c := by
    subst hs₁
    exact update_of_ne hne ..
  suffices hupd : Inv { s₁ with
      tab := s.tab.setStack k a, thread := s₁.goto c ⟨none, .fork (.copy k)⟩, cpu := s₁.setCpu c (s₁.cpu c),
      holder := s₁.holder } by
    rw [setCpu_eq] at hupd
    subst hs₁
    have hthread : update (s.goto c ⟨none, .fork (.copy k)⟩) (.inr k) Base.forkret.thread =
        update (update s.thread (.inr k) Base.forkret.thread) (s.self c)
          ⟨none, .fork (.copy k)⟩ := update_comm hne ..
    rw [hthread]
    exact hupd
  refine hs'.moved ?_ (fun _ _ _ => Iff.rfl) ?_ ?_ nofun (fun j => ?_) (fun j hj => ?_) nofun nofun ?_
  · have hok := hs'.cpu c
    rw [hnow, ht] at hok
    exact hok.goto rfl Iff.rfl rfl
  · have hok := hs'.thread (s₁.self c)
    rw [← Sys.now, hnow, ht] at hok
    exact ⟨fun h => absurd rfl h, hok.kind, hok.noYield, fun h => absurd rfl h⟩
  · split
    · next hc =>
      rw [hs'.proc, ← now_of_none hc, hnow, ht]
      rfl
    · rfl
  · subst hs₁
    rw [Table.setStack_proc]
    exact .of_upd .same
  · have hcur := hs'.state (cur_of_self hj)
    rw [← now_of_some (cur_of_self hj), hnow, ht] at hcur
    subst hs₁
    have hjk : j ≠ k := by
      rintro rfl
      exact hne hj
    rw [Table.setStack_proc, Table.upd_of_ne _ _ hjk]
    exact hcur
  · rintro k' b hk'
    cases hk'
    refine ⟨?_, .inl ⟨false, by rw [hnow]; exact hchild, fun _ => .inr ?_⟩⟩
    · rw [Table.setStack_proc, Table.upd_self]
      exact hk
    · subst hs₁
      exact update_self ..

theorem setProc (hs : Inv s) {o : Option Slot} (h : SetsProc s.tab o (s.now c) t') :
    Inv { s with thread := s.goto c t', cpu := s.setCpu c { s.cpu c with proc := o } } := by
  have hok := hs.cpu c
  have hth := hs.thread (s.self c)
  have hc : s.cur c = none := by
    generalize hn : s.now c = t at h
    cases h <;> exact hs.cur_of_scheduler (by rw [hn])
  have hpt : .ptable ∈ (s.now c).locks := by
    generalize s.now c = t at h ⊢
    cases h <;> exact List.mem_cons_self ..
  have hself : s.self c = .inl c := self_of_none hc
  have hnone : ∀ j, s.self c = .inr j → False := by
    intro j hj
    rw [hself] at hj
    cases hj
  rw [Sys.now] at hok h hpt
  generalize ht : s.thread (s.self c) = t at hok hth h hpt
  cases h with
  | pick hk =>
    next k =>
    refine hs.moved ⟨hok.holder, hok.ncli, fun h => (nomatch (hok.quiet h).1), fun h => absurd rfl h⟩
      (fun _ _ _ => Iff.rfl) ⟨fun h => absurd rfl h, hth.kind, hth.noYield, fun h => absurd rfl h⟩
      (by rw [if_pos hc]; rfl) (fun _ k' hk' c' hc' => ?_) (fun _ => .same) (fun j hj => (hnone j hj).elim)
      (fun k' hk' => ?_) nofun nofun
    · -- a process that another CPU executes is not runnable
      cases hk'
      have hne : c' ≠ c := by
        rintro rfl
        rw [hc] at hc'
        cases hc'
      have hstate := hs.state hc'
      rw [hk, expected_of_sched] at hstate
      · cases hstate
      · refine sched_eq_none fun hpt' => hne ?_
        rw [← now_of_some hc'] at hpt'
        rw [← ht] at hpt
        exact hs.sole hpt' hpt
    · cases hk'
      exact hk
  | clear =>
    refine hs.moved ⟨hok.holder, hok.ncli, fun h => (nomatch (hok.quiet h).1), fun h => absurd rfl h⟩
      (fun _ _ _ => Iff.rfl) ⟨fun h => absurd rfl h, hth.kind, hth.noYield, fun h => absurd rfl h⟩
      (by rw [if_pos hc]; rfl) nofun (fun _ => .same) (fun j hj => (hnone j hj).elim) nofun nofun nofun

/-- `scheduler` switches to the process it picked. -/
theorem run (hs : Inv s) (ht : s.now c = ⟨none, .scheduler (.swtch k)⟩)
    (htab : s'.tab = s.tab) (hcpu : s'.cpu = s.cpu) (hholder : s'.holder = s.holder)
    (hthread : s'.thread = s.goto c ⟨none, .scheduler (.back k)⟩)
    (hcur : s'.cur = update s.cur c (some k)) : Inv s' := by
  have hc : s.cur c = none := hs.cur_of_scheduler (by rw [ht])
  have hinl : s.thread (.inl c) = ⟨none, .scheduler (.swtch k)⟩ := by rw [← now_of_none hc, ht]
  have halone := hs.alone hc (i := k) (by rw [hinl]; rfl)
  have hstate := hs.swtch (c := c) (k := k) (by rw [hinl])
  have hparked := hs.parked halone (by rw [hstate]; rfl)
  have hpt : .ptable ∈ (s.now c).locks := by
    rw [ht]
    exact List.mem_cons_self ..
  have hother : ∀ {th}, th ≠ .inl c → s'.thread th = s.thread th := by
    intro th h
    rw [hthread]
    exact goto_of_ne (by rwa [self_of_none hc])
  have hself : s'.thread (.inl c) = ⟨none, .scheduler (.back k)⟩ := by
    rw [hthread, ← self_of_none hc]
    exact goto_self ..
  have hinr : ∀ i, s'.thread (.inr i) = s.thread (.inr i) := fun i => hother Sum.inr_ne_inl
  have hinl' : ∀ {c'}, c' ≠ c → s'.thread (.inl c') = s.thread (.inl c') :=
    fun h => hother fun h' => h (Sum.inl.inj h')
  have hcur_self : s'.cur c = some k := by
    rw [hcur, update_self]
  have hcur_other : ∀ {c'}, c' ≠ c → s'.cur c' = s.cur c' := by
    intro c' h
    rw [hcur, update_of_ne h]
  -- no other scheduler has picked a process
  have hnone : ∀ {c' i}, c' ≠ c → s.cur c' = none → (s.thread (.inl c')).base.picked ≠ some i :=
    fun h h' hp => h (hs.sole (hs.ptable_of_picked h' hp) hpt)
  have hnow : ∀ {c'}, c' ≠ c → s'.now c' = s.now c' := by
    intro c' h
    cases hc' : s.cur c' with
    | none => rw [now_of_none hc', now_of_none (hcur_other h ▸ hc'), hinl' h]
    | some i => rw [now_of_some hc', now_of_some (hcur_other h ▸ hc'), hinr]
  refine ⟨fun c' => ?_, fun th => ?_, fun {c₁ c₂ i} h₁ h₂ => ?_, fun {c' i} hc' => ?_, fun c' => ?_,
    fun {c' i} hc' hp c₂ hc₂ => ?_, fun {c' i} hc' => ?_, fun {c' k'} hb => ?_, fun {c' k'} hb => ?_,
    fun {i} hi hactive => ?_, fun {i k' b} hk' => ?_, fun {i j k' b b'} hk' hk'' => ?_⟩
  · rw [hholder, hcpu]
    by_cases h : c' = c
    · subst h
      have hok := hs.cpu c'
      rw [ht] at hok
      rw [now_of_some hcur_self, hinr]
      refine ⟨?_, ?_, fun hi => (nomatch (hok.quiet hi).1), fun hi _ hsaved => ?_⟩
      · rw [hparked.locks]
        exact hok.holder
      · rw [hparked.locks]
        exact hok.ncli
      · obtain h | ⟨x, hx⟩ := hparked
        · rw [h] at hi
          exact absurd rfl hi
        · rw [hx] at hsaved
          cases hsaved
    · rw [hnow h]
      exact hs.cpu c'
  · by_cases h : th = .inl c
    · subst h
      rw [hself]
      exact ⟨fun h => absurd rfl h, rfl, fun _ => rfl, fun h => absurd rfl h⟩
    · rw [hother h]
      exact hs.thread th
  · by_cases e₁ : c₁ = c
    · subst e₁
      by_contra hne
      rw [hcur_other (Ne.symm hne)] at h₂
      rw [hcur_self] at h₁
      cases h₁
      exact halone c₂ h₂
    · rw [hcur_other e₁] at h₁
      by_cases e₂ : c₂ = c
      · subst e₂
        rw [hcur_self] at h₂
        cases h₂
        exact absurd h₁ (halone c₁)
      · rw [hcur_other e₂] at h₂
        exact hs.inj h₁ h₂
  · by_cases h : c' = c
    · subst h
      rw [hcur_self] at hc'
      cases hc'
      exact hself
    · rw [hcur_other h] at hc'
      rw [hinl' h]
      exact hs.back hc'
  · rw [hcpu]
    by_cases h : c' = c
    · subst h
      rw [hself, hs.proc, hinl]
      rfl
    · rw [hinl' h]
      exact hs.proc c'
  · by_cases h : c' = c
    · subst h
      rw [hcur_self] at hc'
      cases hc'
    · rw [hcur_other h] at hc'
      rw [hinl' h] at hp
      exact hnone h hc' hp
  · rw [htab, hinr]
    by_cases h : c' = c
    · subst h
      rw [hcur_self] at hc'
      cases hc'
      rw [hparked.expected]
      exact hstate
    · rw [hcur_other h] at hc'
      exact hs.state hc'
  · rw [htab]
    by_cases h : c' = c
    · subst h
      rw [hself] at hb
      cases hb
    · rw [hinl' h] at hb
      exact hs.running hb
  · rw [htab]
    by_cases h : c' = c
    · subst h
      rw [hself] at hb
      cases hb
    · rw [hinl' h] at hb
      exact hs.swtch hb
  · rw [hinr]
    rw [htab] at hactive
    refine hs.parked (fun c' hc' => ?_) hactive
    have h : c' ≠ c := by
      rintro rfl
      rw [hc] at hc'
      cases hc'
    exact hi c' ((hcur_other h).trans hc')
  · rw [hinr] at hk'
    rw [htab, hinr]
    exact hs.child hk'
  · rw [hinr] at hk' hk''
    exact hs.child_inj hk' hk''

/-- `sched` switches back to `scheduler`. -/
theorem sched (hs : Inv s) {i : Slot} (hf : Scheds (s.now c) f) (hi : s.cur c = some i)
    (htab : s'.tab = s.tab) (hcpu : s'.cpu = s.cpu) (hholder : s'.holder = s.holder)
    (hthread : s'.thread = s.goto c (f (s.cpu c).intena)) (hcur : s'.cur = update s.cur c none) : Inv s' := by
  have hback := hs.back hi
  have hok := hs.cpu c
  have hth := hs.thread (s.self c)
  have hlocks : (s.now c).locks = [.ptable] := by
    generalize s.now c = t at hf ⊢
    cases hf <;> rfl
  have hother : ∀ {th}, th ≠ .inr i → s'.thread th = s.thread th := by
    intro th h
    rw [hthread]
    exact goto_of_ne (by rwa [self_of_some hi])
  have hself : s'.thread (.inr i) = f (s.cpu c).intena := by
    rw [hthread, ← self_of_some hi]
    exact goto_self ..
  have hinl : ∀ c', s'.thread (.inl c') = s.thread (.inl c') := fun c' => hother Sum.inl_ne_inr
  have hinr : ∀ {j}, j ≠ i → s'.thread (.inr j) = s.thread (.inr j) :=
    fun h => hother fun h' => h (Sum.inr.inj h')
  have hcur_self : s'.cur c = none := by
    rw [hcur, update_self]
  have hcur_other : ∀ {c'}, c' ≠ c → s'.cur c' = s.cur c' := by
    intro c' h
    rw [hcur, update_of_ne h]
  have hcur_some : ∀ {c' j}, s'.cur c' = some j → c' ≠ c ∧ s.cur c' = some j ∧ j ≠ i := by
    intro c' j h
    have hne : c' ≠ c := by
      rintro rfl
      rw [hcur_self] at h
      cases h
    rw [hcur_other hne] at h
    refine ⟨hne, h, ?_⟩
    rintro rfl
    exact hne (hs.inj h hi)
  have hsaved : (f (s.cpu c).intena).saved = some (s.cpu c).intena := by
    generalize s.now c = t at hf
    cases hf <;> rfl
  have hfok : ThreadOk (κ := κ) (.inr i) (f (s.cpu c).intena) := by
    have hintena := hok.intena
    rw [self_of_some hi, ← now_of_some hi] at hth
    generalize s.now c = t at hf hth hintena hlocks
    cases hf with
    | yield =>
      refine ⟨fun _ => hth.masked nofun, hth.kind, nofun, fun _ x hx => ?_⟩
      cases hx
      exact hintena nofun nofun rfl
    | sleep | wait | exit => exact ⟨fun h => absurd rfl h, rfl, nofun, fun h => absurd rfl h⟩
  have hfchild : (f (s.cpu c).intena).base.child = (s.now c).base.child := by
    generalize s.now c = t at hf
    cases hf <;> rfl
  have hchild : ∀ {j k b}, (s'.thread (.inr j)).base.child = some (k, b) →
      (s.thread (.inr j)).base.child = some (k, b) := by
    intro j k b h
    by_cases hj : j = i
    · subst hj
      rw [hself, hfchild] at h
      rwa [← now_of_some hi]
    · rwa [hinr hj] at h
  refine ⟨fun c' => ?_, fun th => ?_, fun {c₁ c₂ j} h₁ h₂ => ?_, fun {c' j} hc' => ?_, fun c' => ?_,
    fun {c' j} hc' hp c₂ hc₂ => ?_, fun {c' j} hc' => ?_, fun {c' k} hb => ?_, fun {c' k} hb => ?_,
    fun {j} hj hactive => ?_, fun {j k b} hk => ?_, fun hk hk' => hs.child_inj (hchild hk) (hchild hk')⟩
  · rw [hholder, hcpu]
    by_cases h : c' = c
    · subst h
      rw [now_of_none hcur_self, hinl, hback]
      refine ⟨?_, ?_, fun hintr => ?_, fun h => absurd rfl h⟩
      · have := hok.holder
        rw [hlocks] at this
        exact this
      · have := hok.ncli
        rw [hlocks] at this
        exact this
      · have := (hok.quiet hintr).1
        rw [hlocks] at this
        cases this
    · have hnow : s'.now c' = s.now c' := by
        cases hc' : s.cur c' with
        | none => rw [now_of_none hc', now_of_none (hcur_other h ▸ hc'), hinl]
        | some j =>
          have hj : j ≠ i := by
            rintro rfl
            exact h (hs.inj hc' hi)
          rw [now_of_some hc', now_of_some (hcur_other h ▸ hc'), hinr hj]
      rw [hnow]
      exact hs.cpu c'
  · by_cases h : th = .inr i
    · subst h
      rw [hself]
      exact hfok
    · rw [hother h]
      exact hs.thread th
  · exact hs.inj (hcur_some h₁).2.1 (hcur_some h₂).2.1
  · rw [hinl]
    exact hs.back (hcur_some hc').2.1
  · rw [hcpu, hinl]
    exact hs.proc c'
  · obtain ⟨-, hc₂, hne⟩ := hcur_some hc₂
    rw [hinl] at hp
    by_cases h : c' = c
    · subst h
      rw [hback] at hp
      cases hp
      exact hne rfl
    · rw [hcur_other h] at hc'
      exact hs.alone hc' hp c₂ hc₂
  · obtain ⟨-, hc', hne⟩ := hcur_some hc'
    rw [htab, hinr hne]
    exact hs.state hc'
  · rw [hinl] at hb
    rw [htab]
    exact hs.running hb
  · rw [hinl] at hb
    rw [htab]
    exact hs.swtch hb
  · rw [htab] at hactive
    by_cases h : j = i
    · subst h
      rw [hself]
      exact .inr ⟨_, hsaved⟩
    · rw [hinr h]
      refine hs.parked (fun c' hc' => ?_) hactive
      have hne : c' ≠ c := by
        rintro rfl
        rw [hi] at hc'
        exact h (Option.some.inj hc').symm
      exact hj c' ((hcur_other hne).trans hc')
  · obtain ⟨hstate, hfork⟩ := hs.child (hchild hk)
    rw [htab]
    refine ⟨hstate, fun hb => ?_⟩
    have hki : k ≠ i := by
      rintro rfl
      rw [hs.state hi] at hstate
      exact expected_ne.2 hstate
    rw [hinr hki]
    exact hfork hb

section

omit [DecidableEq κ]

theorem stop (hs : Inv s) (msg : String) : Inv (s.stop msg) :=
  ⟨hs.cpu, hs.thread, hs.inj, hs.back, hs.proc, hs.alone, hs.state, hs.running, hs.swtch, hs.parked, hs.child,
    hs.child_inj⟩

theorem cur_of_scheds (hs : Inv s) (hf : Scheds (s.now c) f) : ∃ i, s.cur c = some i := by
  have hmine := hs.mine c
  have hor : (s.now c).base.isScheduler = false ∨ (s.now c).yields = true := by
    generalize s.now c = t at hf
    cases hf with
    | yield => exact .inr rfl
    | sleep | wait | exit => exact .inl rfl
  obtain ⟨i, hi, -⟩ := hmine hor
  exact ⟨i, cur_of_self hi⟩

/-- The four checks of `sched` pass. -/
theorem sched_checks (hs : Inv s) {i : Slot} (hf : Scheds (s.now c) f)
    (hi : s.cur c = some i) : s.holder .ptable = some c ∧ (s.cpu c).ncli = 1 ∧
      (s.tab.proc i).state ≠ .running ∧ (s.cpu c).intr = false := by
  have hok := hs.cpu c
  have hstate := hs.state hi
  rw [← now_of_some hi] at hstate
  generalize s.now c = t at hf hok hstate
  have hx : t.locks = [.ptable] ∧ t.expected ≠ .running := by
    cases hf <;> exact ⟨rfl, nofun⟩
  obtain ⟨hlocks, hexp⟩ := hx
  refine ⟨(hok.holder _).mpr (by simp [hlocks]), by rw [hok.ncli, hlocks]; rfl, by rwa [hstate],
    Bool.eq_false_iff.mpr fun hintr => ?_⟩
  rw [(hok.quiet hintr).1] at hlocks
  cases hlocks

end

/-- Every step keeps the invariant. -/
theorem step (hs : Inv s) {ch : Choice} (h : s.exec (c, ch) = some s') :
    Inv s' ∧ (s'.panic = none ∨ ∃ msg, s' = s.stop msg ∧ Panics s.tab (s.cpu c) (s.now c) msg) := by
  unfold Sys.exec at h
  obtain ⟨hpanic, h⟩ := Option.ite_none_left_eq_some.mp h
  have hpanic : s.panic = none := by simpa using hpanic
  obtain ⟨a, hact, h⟩ := Option.bind_eq_some_iff.mp h
  have hflow := Thread.flow hact
  have hnow : s.thread (s.self c) = s.now c := rfl
  dsimp only at hflow
  rw [hnow] at hflow
  cases a with
  | goto t' =>
    cases h
    exact ⟨hs.goto hflow.1 hflow.2, .inl hpanic⟩
  | mask on t' =>
    cases h
    exact ⟨hs.mask hflow, .inl hpanic⟩
  | lock k t' =>
    obtain ⟨hp, hk, hlocks⟩ := hflow
    simp only [Sys.apply] at h
    split at h
    · next hfree =>
      cases h
      exact ⟨hs.lock hp hk hlocks hfree, .inl hpanic⟩
    · next c' hc' =>
      obtain ⟨hcc, -⟩ := Option.ite_none_right_eq_some.mp h
      rw [hcc] at hc'
      exact absurd (((hs.cpu c).holder k).mp hc') hk
  | unlock k t' =>
    obtain ⟨hp, hk, hlocks⟩ := hflow
    have hok := hs.cpu c
    have hmem : k ∈ (s.now c).locks := hlocks.mem_iff.mpr (List.mem_cons_self ..)
    have hintr : (s.cpu c).intr = false := by
      refine Bool.eq_false_iff.mpr fun hintr => ?_
      rw [(hok.quiet hintr).1] at hmem
      cases hmem
    have hncli : ¬ (s.cpu c).ncli - 1 < 0 := by
      rw [hok.ncli, hlocks.length_eq, List.length_cons]
      omega
    simp only [Sys.apply, ne_eq, not_true_eq_false, if_false, (hok.holder k).mpr hmem, hintr, hncli,
      Bool.false_eq_true] at h
    cases h
    exact ⟨hs.unlock hp hk hlocks, .inl hpanic⟩
  | table T' t' =>
    cases h
    exact ⟨hs.table hflow, .inl hpanic⟩
  | spawn k T' t' =>
    obtain ⟨a, -, rfl, ht, rfl⟩ := hflow
    cases h
    exact ⟨hs.spawn ht, .inl hpanic⟩
  | setProc o t' =>
    cases h
    exact ⟨hs.setProc hflow, .inl hpanic⟩
  | run k t' =>
    obtain ⟨ht, rfl⟩ := hflow
    cases h
    exact ⟨hs.run ht rfl rfl rfl rfl rfl, .inl hpanic⟩
  | sched f =>
    have hf : Scheds (s.now c) f := hflow
    obtain ⟨i, hi⟩ := hs.cur_of_scheds hf
    obtain ⟨h1, h2, h3, h4⟩ := hs.sched_checks hf hi
    simp only [Sys.apply, hs.proc_of_some hi, h1, h2, h3, h4, ne_eq, not_true_eq_false, if_false,
      Bool.false_eq_true] at h
    cases h
    exact ⟨hs.sched hf hi rfl rfl rfl rfl rfl, .inl hpanic⟩
  | resume x t' =>
    cases h
    exact ⟨hs.resume hflow, .inl hpanic⟩
  | panic msg =>
    cases h
    exact ⟨hs.stop msg, .inr ⟨msg, rfl, hflow⟩⟩

omit [DecidableEq κ] in
/-- The state after booting. -/
theorem boot : Inv (boot κ) := by
  refine ⟨fun c => ?_, fun th => ?_, nofun, nofun, fun _ => rfl, nofun, nofun, nofun, nofun, fun _ _ => .inl rfl,
    nofun, nofun⟩
  · exact ⟨fun k => iff_of_false nofun nofun, rfl, nofun, fun h => absurd rfl h⟩
  · cases th with
    | inl c => exact ⟨fun h => absurd rfl h, rfl, fun _ => rfl, fun h => absurd rfl h⟩
    | inr i => exact ⟨fun h => absurd rfl h, rfl, nofun, fun h => absurd rfl h⟩

end Inv

/-! ## Runs -/

section
variable [DecidableEq κ] {s : Sys κ}

/-- Steps of any CPUs, in any order, from the start. -/
abbrev Reached (s : Sys κ) : Prop := Run Sys.exec (fun _ _ => True) (boot κ) s

theorem Reached.inv (h : Reached s) : Inv s :=
  h.invariant .boot fun _ _ _ hs _ hx => (hs.step hx).1

omit [DecidableEq κ] in
theorem Inv.proc_inj (hs : Inv s) {c c' : κ} {i : Slot} (h : (s.cpu c).proc = some i)
    (h' : (s.cpu c').proc = some i) : c = c' := by
  rw [hs.proc] at h h'
  have hcur : ∀ {c j}, s.cur c = some j → (s.thread (.inl c)).base.picked = some i → s.cur c = some i := by
    intro c j hc hp
    rw [hs.back hc] at hp
    cases hp
    exact hc
  cases hc : s.cur c with
  | none =>
    cases hc' : s.cur c' with
    | none => exact hs.sole (hs.ptable_of_picked hc h) (hs.ptable_of_picked hc' h')
    | some j => exact absurd (hcur hc' h') (hs.alone hc h c')
  | some j =>
    cases hc' : s.cur c' with
    | none => exact absurd (hcur hc h) (hs.alone hc' h' c)
    | some j' => exact hs.inj (hcur hc h) (hcur hc' h')

/-- What `sched` complains about. -/
def schedPanics : List String :=
  ["sched ptable.lock", "sched locks", "sched running", "sched interruptible"]

variable {msg : String}

theorem Panics.not_sched {T : Table} {cpu : Cpu} {t : Thread} (h : Panics T cpu t msg) :
    msg ∉ schedPanics := by
  cases h <;> decide

theorem Reached.panic (h : Reached s) (hmsg : s.panic = some msg) : msg ∉ schedPanics := by
  have hinv : Inv s ∧ ∀ msg, s.panic = some msg → msg ∉ schedPanics := by
    refine h.invariant (I := fun s => Inv s ∧ ∀ msg, s.panic = some msg → msg ∉ schedPanics)
      ⟨.boot, nofun⟩ fun s l s' hs _ hx => ?_
    obtain ⟨hinv, hnone | ⟨msg, rfl, hmsg⟩⟩ := hs.1.step hx
    · exact ⟨hinv, fun _ h => by rw [hnone] at h; cases h⟩
    · refine ⟨hinv, fun msg' h => ?_⟩
      cases h
      exact hmsg.not_sched
  exact hinv.2 msg hmsg

/-- A process is the `c->proc` of at most one CPU, and at most one CPU is on its kernel stack; a scheduler
that has picked a process has `ptable.lock`; the process was `RUNNABLE`, and is `RUNNING` and on no CPU when
its context is switched to; and `sched` has not panicked. -/
theorem one_cpu_of_run (h : Reached s) :
    (∀ c c' i, (s.cpu c).proc = some i → (s.cpu c').proc = some i → c = c') ∧
    (∀ c c' i, s.cur c = some i → s.cur c' = some i → c = c') ∧
    (∀ c k, s.now c = ⟨none, .scheduler (.running k)⟩ →
      (s.tab.proc k).state = .runnable ∧ s.holder .ptable = some c) ∧
    (∀ c k, s.now c = ⟨none, .scheduler (.swtch k)⟩ →
      (s.tab.proc k).state = .running ∧ s.holder .ptable = some c ∧ Parked (s.thread (.inr k)) ∧
      ∀ c', s.cur c' ≠ some k) ∧ ∀ msg, s.panic = some msg → msg ∉ schedPanics := by
  have hs := h.inv
  refine ⟨fun c c' i => hs.proc_inj, fun c c' i => hs.inj, fun c k ht => ?_, fun c k ht => ?_, fun _ => h.panic⟩
  · have hc : s.cur c = none := hs.cur_of_scheduler (by rw [ht])
    refine ⟨hs.running (c := c) ?_, ((hs.cpu c).holder _).mpr (by rw [ht]; exact List.mem_cons_self ..)⟩
    rw [← Inv.now_of_none hc, ht]
  · have hc : s.cur c = none := hs.cur_of_scheduler (by rw [ht])
    have hth : s.thread (.inl c) = ⟨none, .scheduler (.swtch k)⟩ := by rw [← Inv.now_of_none hc, ht]
    have hstate := hs.swtch (c := c) (k := k) (by rw [hth])
    have halone := hs.alone hc (i := k) (by rw [hth]; rfl)
    exact ⟨hstate, ((hs.cpu c).holder _).mpr (by rw [ht]; exact List.mem_cons_self ..),
      hs.parked halone (by rw [hstate]; rfl), halone⟩

/-- A CPU is inside the spinlocks it holds, and no other CPU is; `ncli` is their number, and interrupts are
off there. -/
theorem spinlocks_of_run (h : Reached s) (c : κ) :
    (∀ k, s.holder k = some c ↔ k ∈ (s.now c).locks) ∧
    (∀ c' k, k ∈ (s.now c).locks → k ∈ (s.now c').locks → c = c') ∧
    (s.cpu c).ncli = (s.now c).locks.length ∧ ((s.cpu c).intr = true → (s.now c).locks = []) := by
  have hcpu := h.inv.cpu
  refine ⟨(hcpu c).holder, fun c' k hk hk' => ?_, (hcpu c).ncli, fun hintr => ((hcpu c).quiet hintr).1⟩
  rw [← (hcpu _).holder] at hk hk'
  exact Option.some.inj (hk.symm.trans hk')

theorem spinlocks_of_run_boot : ∃ s : Sys Bool, Reached s ∧ .ptable ∈ (s.now false).locks := by
  have hx : (Run.execAll Sys.exec (boot Bool) (List.replicate 3 (false, .go))).any
      fun s => s.holder .ptable = some false := by decide +kernel
  obtain ⟨s, hrun, hs⟩ := Run.exists_run hx
  exact ⟨s, hrun, ((spinlocks_of_run hrun false).1 _).mp (of_decide_eq_true hs)⟩

end

/-- CPU `false` runs the first process. -/
def firstProcess : List (Bool × Choice) := List.replicate 6 (false, .go)

theorem one_cpu_of_run_firstProcess :
    ∃ s : Sys Bool, Reached s ∧ (s.cpu false).proc = some initproc ∧ (s.cpu true).proc ≠ some initproc := by
  have hx : (Run.execAll Sys.exec (boot Bool) firstProcess).any
      fun s => decide ((s.cpu false).proc = some initproc) := by decide +kernel
  obtain ⟨s, hrun, hs⟩ := Run.exists_run hx
  have hs := of_decide_eq_true hs
  exact ⟨s, hrun, hs, fun h => absurd ((one_cpu_of_run hrun).1 _ _ _ h hs) (by decide)⟩

end Xv6.Machine
