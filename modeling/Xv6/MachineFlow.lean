import Xv6.Machine

/-!
# What the kernel threads do

Each place of the code says which locks its thread has, whether it is in `sched`, which slot a `fork` has
taken and which process a scheduler has picked. `Thread.flow` says what each kind of step does to these, and
`TableStep.shift` what it does to the states of the processes. Proofs about runs do not look at the code
again.
-/

namespace Xv6.Machine

/-! ## What a place says -/

def held (h : Option ℕ) : List Lk := (h.map Lk.other).toList

def WakeAt.locks (h : Option ℕ) : WakeAt → List Lk
  | .acquire => held h
  | _ => .ptable :: held h

def SleepAt.locks (n : ℕ) : SleepAt → List Lk
  | .acquire => [.other n]
  | .release => [.ptable, .other n]
  | .reacquire => []
  | _ => [.ptable]

def YieldAt.locks : YieldAt → List Lk
  | .acquire => []
  | _ => [.ptable]

def ForkAt.locks : ForkAt → List Lk
  | .scan _ | .full | .found _ | .publish _ | .release => [.ptable]
  | _ => []

def WaitAt.locks : WaitAt → List Lk
  | .acquire => []
  | _ => [.ptable]

def KillAt.locks : KillAt → List Lk
  | .acquire => []
  | _ => [.ptable]

def ExitAt.locks : ExitAt → List Lk
  | .acquire => []
  | _ => [.ptable]

def SchedulerAt.locks : SchedulerAt → List Lk
  | .enable | .acquire => []
  | _ => [.ptable]

def Base.locks : Base → List Lk
  | .user => []
  | .kernel _ h => held h
  | .wakeup _ h _ a => a.locks h
  | .sleep _ n _ a => a.locks n
  | .fork a => a.locks
  | .wait a => a.locks
  | .kill _ a => a.locks
  | .exit a => a.locks
  | .forkret => [.ptable]
  | .scheduler a => a.locks

def Irq.locks : Irq → List Lk
  | .handler h => held h
  | .wakeup h _ a => a.locks h
  | .yield a => a.locks

/-- The locks that the thread has. -/
def Thread.locks (t : Thread) : List Lk :=
  match t.irq with
  | some q => q.locks
  | none => t.base.locks

def Base.sched : Base → Option (SchedAt × ProcState)
  | .sleep _ _ _ (.sched a) | .wait (.sched a) => some (a, .sleeping)
  | .exit (.sched a) => some (a, .zombie)
  | _ => none

def Irq.sched : Irq → Option (SchedAt × ProcState)
  | .yield (.sched a) => some (a, .runnable)
  | _ => none

/-- The thread is in `sched`, after its process was set to that state. -/
def Thread.sched (t : Thread) : Option (SchedAt × ProcState) :=
  match t.irq with
  | some q => q.sched
  | none => t.base.sched

/-- The state of a process whose thread is being executed. -/
def Thread.expected (t : Thread) : ProcState :=
  match t.sched with
  | some (.check, x) => x
  | _ => .running

/-- What `sched` has saved. -/
def Thread.saved (t : Thread) : Option Bool :=
  match t.sched with
  | some (.saved x, _) => some x
  | _ => none

/-- What a slot has that a `fork` has taken: a kernel stack and a context, a page table, and a parent. -/
inductive Stage where
  | bare | stacked | mapped | adopted
  deriving DecidableEq

/-- The slot that a `fork` has taken. -/
def Base.stage : Base → Option (Slot × Stage)
  | .fork (.found k) | .fork (.stack k) | .fork (.unuse k) => some (k, .bare)
  | .fork (.copy k) | .fork (.undo k) => some (k, .stacked)
  | .fork (.parent k) => some (k, .mapped)
  | .fork (.lock k) | .fork (.publish k) => some (k, .adopted)
  | _ => none

/-- The slot that a `fork` has taken, and whether its context is set up. -/
def Base.child (b : Base) : Option (Slot × Bool) := b.stage.map fun x => (x.1, x.2 ≠ .bare)

/-- The process is in `exit`. -/
def Base.exiting : Base → Bool
  | .kernel e _ | .wakeup e _ _ _ | .sleep e _ _ _ => e
  | .exit _ => true
  | _ => false

/-- The process that a scheduler has picked. -/
def Base.picked : Base → Option Slot
  | .scheduler (.running k) | .scheduler (.swtch k) | .scheduler (.back k) => some k
  | _ => none

def Base.isScheduler : Base → Bool
  | .scheduler _ => true
  | _ => false

def Thread.yields (t : Thread) : Bool :=
  match t.irq with
  | some (.yield _) => true
  | _ => false

/-! ## What a step can do -/

/-- Steps that change the table; `i` is `myproc()`. -/
inductive TableStep (T : Table) (o : Option Slot) : Thread → Table → Thread → Prop
  | handlerWakeup {h c b} :
    TableStep T o ⟨some (.wakeup h c .scan), b⟩ (T.wakeup1 c) ⟨some (.wakeup h c .release), b⟩
  | yield {i b} (hi : o = some i) :
    TableStep T o ⟨some (.yield .set), b⟩ (T.setState i .runnable) ⟨some (.yield (.sched .check)), b⟩
  | wakeup {e h c} : TableStep T o ⟨none, .wakeup e h c .scan⟩ (T.wakeup1 c) ⟨none, .wakeup e h c .release⟩
  | sleep {i e n c} (hi : o = some i) :
    TableStep T o ⟨none, .sleep e n c .set⟩ (T.sleepOn i c) ⟨none, .sleep e n c (.sched .check)⟩
  | sleepClear {i e n c} (hi : o = some i) :
    TableStep T o ⟨none, .sleep e n c .clear⟩ (T.clearChan i) ⟨none, .sleep e n c .unlock⟩
  | found {k : Slot} (hk : (T.proc k).state = .unused) :
    TableStep T o ⟨none, .fork (.scan k)⟩ (T.found k) ⟨none, .fork (.found k)⟩
  | noStack {k} : TableStep T o ⟨none, .fork (.stack k)⟩ (T.noStack k) ⟨none, .kernel false none⟩
  | noDir {k} : TableStep T o ⟨none, .fork (.copy k)⟩ (T.noDir k) ⟨none, .fork (.undo k)⟩
  | setDir {k a} (ha : T.pages a = none) :
    TableStep T o ⟨none, .fork (.copy k)⟩ (T.setDir k a) ⟨none, .fork (.parent k)⟩
  | freeStack {k} : TableStep T o ⟨none, .fork (.undo k)⟩ (T.freeStack k) ⟨none, .fork (.unuse k)⟩
  | unuse {k} : TableStep T o ⟨none, .fork (.unuse k)⟩ (T.setState k .unused) ⟨none, .kernel false none⟩
  | setParent {i k} (hi : o = some i) :
    TableStep T o ⟨none, .fork (.parent k)⟩ (T.setParent k i) ⟨none, .fork (.lock k)⟩
  | publish {k} : TableStep T o ⟨none, .fork (.publish k)⟩ (T.setState k .runnable) ⟨none, .fork .release⟩
  | reap {i k} (hi : o = some i) (hk : T.zombieChild i = some k) :
    TableStep T o ⟨none, .wait .scan⟩ (T.reap k) ⟨none, .wait (.release (some (T.proc k).pid))⟩
  | waitSleep {i} (hi : o = some i) :
    TableStep T o ⟨none, .wait .set⟩ (T.sleepOn i (.proc i)) ⟨none, .wait (.sched .check)⟩
  | waitClear {i} (hi : o = some i) : TableStep T o ⟨none, .wait .clear⟩ (T.clearChan i) ⟨none, .wait .scan⟩
  | kill {pid k} (hk : T.findPid pid = some k) :
    TableStep T o ⟨none, .kill pid .scan⟩ ((T.name pid).killProc k) ⟨none, .kill pid (.release true)⟩
  | exitWakeup {i p} (hi : o = some i) (hp : (T.proc i).parent = some p) :
    TableStep T o ⟨none, .exit .wakeup⟩ (T.wakeup1 (.proc p)) ⟨none, .exit .reparent⟩
  | reparent {i} (hi : o = some i) :
    TableStep T o ⟨none, .exit .reparent⟩ (T.reparent i) ⟨none, .exit .zombie⟩
  | zombie {i} (hi : o = some i) :
    TableStep T o ⟨none, .exit .zombie⟩ (T.setState i .zombie) ⟨none, .exit (.sched .check)⟩
  | fault {i} (hi : o = some i) :
    TableStep T o ⟨none, .kernel false none⟩ (T.fault i) ⟨none, .kernel false none⟩
  | running {k} :
    TableStep T o ⟨none, .scheduler (.running k)⟩ (T.setState k .running) ⟨none, .scheduler (.swtch k)⟩

/-- The code goes on from `b` to `b'`, and its part in `fork` and `exit` stays; `init` does not exit. -/
structure Calm (o : Option Slot) (b b' : Base) : Prop where
  stage : b'.stage = b.stage
  exits : b'.exiting = true → b.exiting = true ∨ o ≠ some initproc
  zombie : b' = .exit .zombie → b = .exit .zombie

theorem Calm.refl (o : Option Slot) (b : Base) : Calm o b b := ⟨rfl, .inl, id⟩

/-- The same, and so does its part in the scheduling. -/
structure Moves (o : Option Slot) (b b' : Base) : Prop extends Calm o b b' where
  picked : b.picked = none ∧ b'.picked = none
  kind : b'.isScheduler = b.isScheduler

theorem Moves.child {o : Option Slot} {b b' : Base} (h : Moves o b b') : b'.child = b.child := by
  rw [Base.child, h.stage]
  rfl

/-- The thread goes on, in a handler or not. -/
structure Plain (cpu : Cpu) (t t' : Thread) : Prop where
  base : t.irq ≠ none ∧ t'.irq ≠ none ∧ t'.base = t.base ∨ t.irq = none ∧ t'.irq = none ∧ Moves cpu.proc t.base t'.base
  before : t.sched = none
  after : t'.sched = none
  yields : t'.yields = true → t.yields = true ∨ cpu.proc ≠ none

/-- Interrupts go on or off. -/
inductive Masks (cpu : Cpu) : Bool → Thread → Thread → Prop
  | iret {b} : Masks cpu true ⟨some (.handler none), b⟩ ⟨none, b⟩
  | interrupt {b} (h : cpu.intr = true) : Masks cpu false ⟨none, b⟩ ⟨some (.handler none), b⟩
  | enable : Masks cpu true ⟨none, .scheduler .enable⟩ ⟨none, .scheduler .acquire⟩
  | leave : Masks cpu true ⟨none, .kernel false none⟩ ⟨none, .user⟩
  | enter {on} : Masks cpu on ⟨none, .user⟩ ⟨none, .kernel false none⟩

/-- The callers of `sched`. -/
inductive Scheds : Thread → (Bool → Thread) → Prop
  | yield {b} : Scheds ⟨some (.yield (.sched .check)), b⟩ fun x => ⟨some (.yield (.sched (.saved x))), b⟩
  | sleep {e n c} :
    Scheds ⟨none, .sleep e n c (.sched .check)⟩ fun x => ⟨none, .sleep e n c (.sched (.saved x))⟩
  | wait : Scheds ⟨none, .wait (.sched .check)⟩ fun x => ⟨none, .wait (.sched (.saved x))⟩
  | exit : Scheds ⟨none, .exit (.sched .check)⟩ fun x => ⟨none, .exit (.sched (.saved x))⟩

inductive Resumes (x : Bool) : Thread → Thread → Prop
  | yield {b} : Resumes x ⟨some (.yield (.sched (.saved x))), b⟩ ⟨some (.yield .release), b⟩
  | sleep {e n c} : Resumes x ⟨none, .sleep e n c (.sched (.saved x))⟩ ⟨none, .sleep e n c .clear⟩
  | wait : Resumes x ⟨none, .wait (.sched (.saved x))⟩ ⟨none, .wait .clear⟩

inductive SetsProc (T : Table) : Option Slot → Thread → Thread → Prop
  | pick {k : Slot} (hk : (T.proc k).state = .runnable) :
    SetsProc T (some k) ⟨none, .scheduler (.scan k)⟩ ⟨none, .scheduler (.running k)⟩
  | clear {k : Slot} : SetsProc T none ⟨none, .scheduler (.back k)⟩ ⟨none, .scheduler (.scan (k + 1))⟩

/-- Where a thread stops the machine. -/
inductive Panics (T : Table) (cpu : Cpu) : Thread → String → Prop
  | init : cpu.proc = some initproc → Panics T cpu ⟨none, .kernel false none⟩ "init exiting"
  | exit {x} : Panics T cpu ⟨none, .exit (.sched (.saved x))⟩ "zombie exit"
  | kstack {k : Slot} (hk : (T.proc k).state = .runnable) (h : (T.proc k).kstack = none) :
    Panics T cpu ⟨none, .scheduler (.scan k)⟩ "switchuvm: no kstack"
  | pgdir {k : Slot} (hk : (T.proc k).state = .runnable) (h : (T.proc k).pgdir = none) :
    Panics T cpu ⟨none, .scheduler (.scan k)⟩ "switchuvm: no pgdir"
  | myproc {b : Base} (hb : b.isScheduler = false) (h : cpu.proc = none) : Panics T cpu ⟨none, b⟩ "myproc"

/-- What a thread at `t` can do. -/
def Flow (T : Table) (cpu : Cpu) (t : Thread) : Act → Prop
  | .goto t' => Plain cpu t t' ∧ t'.locks = t.locks
  | .mask on t' => Masks cpu on t t'
  | .lock k t' => Plain cpu t t' ∧ k ∉ t.locks ∧ t'.locks.Perm (k :: t.locks)
  | .unlock k t' => Plain cpu t t' ∧ k ∉ t'.locks ∧ t.locks.Perm (k :: t'.locks)
  | .table T' t' => TableStep T cpu.proc t T' t'
  | .spawn k T' t' => ∃ a, T.pages a = none ∧ T' = T.setStack k a ∧ t = ⟨none, .fork (.stack k)⟩ ∧
    t' = ⟨none, .fork (.copy k)⟩
  | .setProc o t' => SetsProc T o t t'
  | .run k t' => t = ⟨none, .scheduler (.swtch k)⟩ ∧ t' = ⟨none, .scheduler (.back k)⟩
  | .sched f => Scheds t f
  | .resume x t' => Resumes x t t'
  | .panic msg => Panics T cpu t msg

section
variable {T : Table} {cpu : Cpu} {i : Slot} {ch : Choice} {x : Act}

theorem ptable_notMem_held (h : Option ℕ) : Lk.ptable ∉ held h := by
  cases h <;> simp [held]

variable {q : Irq} {b : Base}

theorem Plain.ofIrq {q' : Irq} (hq : q.sched = none) (hq' : q'.sched = none)
    (hy : (⟨some q', b⟩ : Thread).yields = true → (⟨some q, b⟩ : Thread).yields = true ∨ cpu.proc ≠ none) :
    Plain cpu ⟨some q, b⟩ ⟨some q', b⟩ :=
  ⟨.inl ⟨Option.some_ne_none q, Option.some_ne_none q', rfl⟩, hq, hq', hy⟩

theorem Plain.ofBase {b' : Base} (hstage : b'.stage = b.stage)
    (hexits : b'.exiting = true → b.exiting = true ∨ cpu.proc ≠ some initproc)
    (hzombie : b' = .exit .zombie → b = .exit .zombie) (hpicked : b.picked = none ∧ b'.picked = none)
    (hkind : b'.isScheduler = b.isScheduler) (hb : b.sched = none) (hb' : b'.sched = none) :
    Plain cpu ⟨none, b⟩ ⟨none, b'⟩ :=
  ⟨.inr ⟨rfl, rfl, ⟨⟨hstage, hexits, hzombie⟩, hpicked, hkind⟩⟩, hb, hb', nofun⟩

/-- The step of a process that neither forks nor exits nor is scheduled. -/
theorem Plain.quiet {b' : Base} (h : (b'.stage, b'.exiting, b'.isScheduler, b.picked, b'.picked, b.sched,
    b'.sched) = (b.stage, b.exiting, b.isScheduler, none, none, none, none)) (hzombie : b' ≠ .exit .zombie) :
    Plain cpu ⟨none, b⟩ ⟨none, b'⟩ := by
  simp only [Prod.mk.injEq] at h
  obtain ⟨hstage, hexits, hkind, hb, hb', hsched, hsched'⟩ := h
  exact .ofBase hstage (fun h => .inl (hexits ▸ h)) (fun h => absurd h hzombie) ⟨hb, hb'⟩ hkind hsched hsched'

theorem Irq.flow (h : q.act T cpu b ch = some x) : Flow T cpu ⟨some q, b⟩ x := by
  unfold Irq.act at h
  split at h
  case h_4 =>
    obtain ⟨i, hi, h⟩ := Option.bind_eq_some_iff.mp h
    obtain ⟨hrun, h⟩ := Option.ite_none_right_eq_some.mp h
    cases h
    exact ⟨.ofIrq rfl rfl fun _ => .inr (by simp [hi]), rfl⟩
  case h_10 =>
    obtain ⟨i, hi, h⟩ := Option.map_eq_some_iff.mp h
    cases h
    exact .yield hi
  all_goals cases h
  · exact ⟨.ofIrq rfl rfl nofun, nofun, .refl _⟩
  · exact ⟨.ofIrq rfl rfl nofun, nofun, .refl _⟩
  · exact ⟨.ofIrq rfl rfl nofun, rfl⟩
  · exact .iret
  · exact ⟨.ofIrq rfl rfl nofun, ptable_notMem_held _, .refl _⟩
  · exact .handlerWakeup
  · exact ⟨.ofIrq rfl rfl nofun, ptable_notMem_held _, .refl _⟩
  · exact ⟨.ofIrq rfl rfl .inl, nofun, .refl _⟩
  · exact .yield
  · exact .yield
  · exact ⟨.ofIrq rfl rfl nofun, nofun, .refl _⟩

theorem ForkAt.flow {a : ForkAt} (hi : cpu.proc = some i) (h : a.act T i ch = some x) :
    Flow T cpu ⟨none, .fork a⟩ x := by
  unfold ForkAt.act at h
  split at h
  case h_2 =>
    split at h
    · split at h
      · next hk =>
        cases h
        exact .found hk
      · cases h
        exact ⟨.quiet rfl nofun, rfl⟩
    · cases h
      exact ⟨.quiet rfl nofun, rfl⟩
  case h_6 =>
    obtain ⟨ha, h⟩ := Option.ite_none_right_eq_some.mp h
    cases h
    exact ⟨_, ha, rfl, rfl, rfl⟩
  case h_8 =>
    obtain ⟨ha, h⟩ := Option.ite_none_right_eq_some.mp h
    cases h
    exact .setDir ha
  all_goals cases h
  · exact ⟨.quiet rfl nofun, nofun, .refl _⟩
  · exact ⟨.quiet rfl nofun, nofun, .refl _⟩
  · exact ⟨.quiet rfl nofun, nofun, .refl _⟩
  · exact .noStack
  · exact .noDir
  · exact .freeStack
  · exact .unuse
  · exact .setParent hi
  · exact ⟨.quiet rfl nofun, nofun, .refl _⟩
  · exact .publish
  · exact ⟨.quiet rfl nofun, nofun, .refl _⟩

theorem WaitAt.flow {a : WaitAt} (hi : cpu.proc = some i) (h : a.act T i ch = some x) :
    Flow T cpu ⟨none, .wait a⟩ x := by
  unfold WaitAt.act at h
  split at h
  case h_2 =>
    split at h
    · next hk =>
      cases h
      exact .reap hi hk
    · split at h <;> cases h <;> exact ⟨.quiet rfl nofun, rfl⟩
  all_goals cases h
  · exact ⟨.quiet rfl nofun, nofun, .refl _⟩
  · exact .waitSleep hi
  · exact .wait
  · exact .wait
  · exact .waitClear hi
  · exact ⟨.quiet rfl nofun, nofun, .refl _⟩

theorem KillAt.flow {a : KillAt} {pid : BitVec 32} (h : a.act T pid ch = some x) :
    Flow T cpu ⟨none, .kill pid a⟩ x := by
  unfold KillAt.act at h
  split at h
  case h_2 =>
    split at h
    · next hk =>
      cases h
      exact .kill hk
    · cases h
      exact ⟨.quiet rfl nofun, rfl⟩
  all_goals cases h
  · exact ⟨.quiet rfl nofun, nofun, .refl _⟩
  · exact ⟨.quiet rfl nofun, nofun, .refl _⟩

theorem ExitAt.flow {a : ExitAt} (hi : cpu.proc = some i) (h : a.act T i ch = some x) :
    Flow T cpu ⟨none, .exit a⟩ x := by
  unfold ExitAt.act at h
  split at h
  case h_2 =>
    split at h
    · next hp =>
      cases h
      exact .exitWakeup hi hp
    · cases h
      exact ⟨.quiet rfl nofun, rfl⟩
  all_goals cases h
  · exact ⟨.quiet rfl nofun, nofun, .refl _⟩
  · exact .reparent hi
  · exact .zombie hi
  · exact .exit
  · exact .exit

variable {e : Bool} {c : Chan}

theorem SleepAt.flow {a : SleepAt} {n : ℕ} (hi : cpu.proc = some i)
    (h : a.act T i e n c ch = some x) : Flow T cpu ⟨none, .sleep e n c a⟩ x := by
  unfold SleepAt.act at h
  split at h
  all_goals cases h
  · exact ⟨.quiet rfl nofun, by simp [Thread.locks, Base.locks, SleepAt.locks], .refl _⟩
  · exact ⟨.quiet rfl nofun, by simp [Thread.locks, Base.locks, SleepAt.locks], .swap ..⟩
  · exact .sleep hi
  · exact .sleep
  · exact .sleep
  · exact .sleepClear hi
  · exact ⟨.quiet rfl nofun, nofun, .refl _⟩
  · exact ⟨.quiet rfl nofun, nofun, .refl _⟩

variable {h : Option ℕ}

theorem WakeAt.flow {a : WakeAt} (hact : a.act T e h c ch = some x) :
    Flow T cpu ⟨none, .wakeup e h c a⟩ x := by
  unfold WakeAt.act at hact
  split at hact
  all_goals cases hact
  · exact ⟨.quiet rfl nofun, ptable_notMem_held _, .refl _⟩
  · exact .wakeup
  · exact ⟨.quiet rfl nofun, ptable_notMem_held _, .refl _⟩

theorem SchedulerAt.flow {a : SchedulerAt} (h : a.act T ch = some x) : Flow T cpu ⟨none, .scheduler a⟩ x := by
  unfold SchedulerAt.act at h
  split at h
  case h_3 =>
    split at h
    · split at h
      · next hrun =>
        split at h
        · next hstack =>
          cases h
          exact .kstack hrun hstack
        · split at h
          · next hdir =>
            cases h
            exact .pgdir hrun hdir
          · cases h
            exact .pick hrun
      · cases h
        exact ⟨.quiet rfl nofun, rfl⟩
    · cases h
      exact ⟨.quiet rfl nofun, rfl⟩
  all_goals cases h
  · exact .enable
  · exact ⟨.quiet rfl nofun, nofun, .refl _⟩
  · exact .running
  · exact ⟨rfl, rfl⟩
  · exact .clear
  · exact ⟨.quiet rfl nofun, nofun, .refl _⟩

theorem kernel_flow (hi : cpu.proc = some i) (hact : kernelAct T i e h ch = some x) :
    Flow T cpu ⟨none, .kernel e h⟩ x := by
  cases h with
  | some n =>
    cases ch with
    | unlock =>
      cases hact
      exact ⟨.quiet rfl nofun, nofun, .refl _⟩
    | sleep c | wakeup c =>
      cases hact
      exact ⟨.quiet rfl nofun, rfl⟩
    | _ => cases hact
  | none =>
    cases ch with
    | lock n =>
      cases hact
      exact ⟨.quiet rfl nofun, nofun, .refl _⟩
    | wakeup c =>
      cases hact
      exact ⟨.quiet rfl nofun, rfl⟩
    | exit =>
      cases e with
      | true =>
        cases hact
        exact ⟨.quiet rfl nofun, rfl⟩
      | false =>
        have hact : (if i = initproc then some (Act.panic "init exiting")
            else some (.goto (Base.kernel true none).thread)) = some x := hact
        by_cases hinit : i = initproc
        · rw [if_pos hinit] at hact
          cases hact
          have hi : cpu.proc = some initproc := hinit ▸ hi
          exact Panics.init hi
        · rw [if_neg hinit] at hact
          cases hact
          have hne : cpu.proc ≠ some initproc := by
            rw [hi]
            exact fun h => hinit (Option.some.inj h)
          exact ⟨.ofBase rfl (fun _ => .inr hne) nofun ⟨rfl, rfl⟩ rfl rfl rfl, rfl⟩
    | leave =>
      cases e <;> cases hact
      exact .leave
    | fault =>
      cases e <;> cases hact
      exact .fault hi
    | fork | wait | kill =>
      cases e <;> cases hact
      exact ⟨.quiet rfl nofun, rfl⟩
    | _ => cases hact

theorem Base.flow (hi : cpu.proc = some i) (h : b.procAct T i ch = some x) : Flow T cpu ⟨none, b⟩ x := by
  unfold Base.procAct at h
  split at h
  · cases h
    exact .enter
  · exact kernel_flow hi h
  · exact WakeAt.flow h
  · exact SleepAt.flow hi h
  · exact ForkAt.flow hi h
  · exact WaitAt.flow hi h
  · exact KillAt.flow h
  · exact ExitAt.flow hi h
  · cases h
    exact ⟨.quiet rfl nofun, nofun, .refl _⟩
  · cases h

theorem Thread.flow {t : Thread} (h : t.act T cpu ch = some x) : Flow T cpu t x := by
  obtain ⟨irq, b⟩ := t
  unfold Thread.act at h
  split at h
  · next q hq =>
    obtain rfl : irq = some q := hq
    exact Irq.flow h
  · next hq =>
    obtain rfl : irq = none := hq
    split at h
    · obtain ⟨hintr, h⟩ := Option.ite_none_right_eq_some.mp h
      cases h
      exact .interrupt hintr
    · split at h
      · next a hb =>
        obtain rfl : b = .scheduler a := hb
        exact SchedulerAt.flow h
      · next hb =>
        split at h
        · next i hi => exact Base.flow hi h
        · next hproc =>
          cases h
          refine .myproc ?_ hproc
          cases b with
          | scheduler a => exact absurd rfl (hb a)
          | _ => rfl

end

/-! ## States of processes -/

namespace Table

variable {T : Table}

theorem upd_self (T : Table) (p : Slot) (f : Proc → Proc) : (T.upd p f).proc p = f (T.proc p) :=
  Function.update_self ..

variable {p q : Slot}

theorem upd_of_ne (T : Table) (f : Proc → Proc) (h : q ≠ p) : (T.upd p f).proc q = T.proc q :=
  Function.update_of_ne h ..

/-- Sleepers may have been woken, and nothing else has happened to the states. -/
def Wakes (T T' : Table) : Prop :=
  ∀ p, (T'.proc p).state = (T.proc p).state ∨ (T.proc p).state = .sleeping ∧ (T'.proc p).state = .runnable

theorem Wakes.refl (T : Table) : T.Wakes T := fun _ => .inl rfl

theorem Wakes.trans {T' T'' : Table} (h : T.Wakes T') (h' : T'.Wakes T'') : T.Wakes T'' := by
  intro p
  obtain h1 | ⟨h1, h2⟩ := h p
  · rw [← h1]
    exact h' p
  · obtain h3 | ⟨h3, -⟩ := h' p
    · exact .inr ⟨h1, h3.trans h2⟩
    · rw [h2] at h3
      cases h3

section
variable (T)

theorem wakes_wakeup1 (c : Chan) : T.Wakes (T.wakeup1 c) := by
  intro p
  simp only [wakeup1]
  split
  · next h => exact .inr ⟨h.1, rfl⟩
  · exact .inl rfl

theorem wakes_upd (p : Slot) {f : Proc → Proc} (hf : (f (T.proc p)).state = (T.proc p).state) :
    T.Wakes (T.upd p f) := by
  intro q
  by_cases hq : q = p
  · subst hq
    rw [upd_self]
    exact .inl hf
  · rw [upd_of_ne T f hq]
    exact .inl rfl

theorem wakes_giveAway (i p : Slot) : T.Wakes (T.giveAway i p) := by
  unfold giveAway
  split
  · have hupd : T.Wakes (T.upd p fun q => { q with parent := some initproc }) := T.wakes_upd p rfl
    dsimp only
    split
    · exact hupd.trans (wakes_wakeup1 _ _)
    · exact hupd
  · exact .refl T

theorem wakes_reparent (i : Slot) : T.Wakes (T.reparent i) := by
  have hfold : ∀ (l : List Slot) (T : Table), T.Wakes (l.foldl (fun T p => T.giveAway i p) T) := by
    intro l
    induction l with
    | nil => exact fun T => .refl T
    | cons p l ih => exact fun T => (T.wakes_giveAway i p).trans (ih _)
  unfold reparent
  generalize List.finRange NPROC = l
  exact hfold l T

theorem wakes_kill (pid : BitVec 32) (k : Slot) : T.Wakes ((T.name pid).killProc k) := by
  have hname : T.Wakes (T.name pid) := by
    intro p
    simp only [name]
    split <;> exact .inl rfl
  refine hname.trans fun p => ?_
  by_cases hp : p = k
  · subst hp
    simp only [killProc, upd_self]
    split
    · next h => exact .inr ⟨h, rfl⟩
    · exact .inl rfl
  · rw [killProc, upd_of_ne _ _ hp]
    exact .inl rfl

theorem setState_self (p : Slot) (x : ProcState) : ((T.setState p x).proc p).state = x := by
  rw [setState, upd_self]

theorem setState_of_ne (x : ProcState) (h : q ≠ p) : (T.setState p x).proc q = T.proc q := T.upd_of_ne _ h

theorem setStack_proc (k : Slot) (a : Page) :
    (T.setStack k a).proc = (T.upd k fun q => { q with kstack := some a }).proc := rfl

theorem setDir_proc (k : Slot) (a : Page) :
    (T.setDir k a).proc = (T.upd k fun q => { q with pgdir := some a }).proc := rfl

theorem freeStack_proc (k : Slot) :
    (T.freeStack k).proc = (T.upd k fun q => { q with kstack := none }).proc := rfl

theorem reap_proc (k : Slot) :
    (T.reap k).proc = (T.upd k fun q =>
      { q with kstack := none, pid := 0, parent := none, killed := false, state := .unused }).proc := rfl

end

theorem zombieChild_some {T : Table} {i k : Slot} (h : T.zombieChild i = some k) :
    (T.proc k).parent = some i ∧ (T.proc k).state = .zombie := by
  have := List.find?_some h
  simpa using this

end Table

variable {κ : Type}

/-- What happens to the state of process `j` in a step of thread `th` from `t` to `t'`. -/
inductive Shift (th : κ ⊕ Slot) (t t' : Thread) (j : Slot) : ProcState → ProcState → Prop
  | same {x} : Shift th t t' j x x
  | wake (hpt : .ptable ∈ t.locks) : Shift th t t' j .sleeping .runnable
  | own {x} (hpt : .ptable ∈ t.locks) (hj : th = .inr j) : Shift th t t' j x t'.expected
  | birth (hpt : .ptable ∈ t.locks) : Shift th t t' j .unused .embryo
  | publish {x} (hpt : .ptable ∈ t.locks) (hc : t.base.child = some (j, true)) (hc' : t'.base.child = none) :
    Shift th t t' j x .runnable
  | fail {x b} (hc : t.base.child = some (j, b)) (hc' : t'.base.child = none) : Shift th t t' j x .unused
  | reap (hpt : .ptable ∈ t.locks) : Shift th t t' j .zombie .unused
  | pick {x} (hpt : .ptable ∈ t.locks) (ht : t = ⟨none, .scheduler (.running j)⟩) : Shift th t t' j x .running

/-- The thread of a process is the one that `myproc()` names. -/
def Mine (th : κ ⊕ Slot) (o : Option Slot) (t : Thread) : Prop :=
  t.base.isScheduler = false ∨ t.yields = true → ∃ i, th = .inr i ∧ o = some i

section
variable {T T' : Table} {o : Option Slot} {th : κ ⊕ Slot} {t t' : Thread} {j k : Slot}

theorem Mine.eq {i : Slot} (h : Mine th o t) (ht : t.base.isScheduler = false ∨ t.yields = true)
    (hi : o = some i) : th = .inr i := by
  obtain ⟨i', hth, ho⟩ := h ht
  rw [hi] at ho
  cases ho
  exact hth

theorem Shift.of_wakes (hpt : .ptable ∈ t.locks) (h : T.Wakes T') :
    Shift th t t' j (T.proc j).state (T'.proc j).state := by
  obtain h | ⟨h, h'⟩ := h j
  · rw [h]
    exact .same
  · rw [h, h']
    exact .wake hpt

theorem Shift.of_upd {f : Proc → Proc} (h : Shift th t t' k (T.proc k).state (f (T.proc k)).state) :
    Shift th t t' j (T.proc j).state ((T.upd k f).proc j).state := by
  by_cases hj : j = k
  · subst hj
    rwa [Table.upd_self]
  · rw [Table.upd_of_ne T f hj]
    exact .same

theorem TableStep.shift (h : TableStep T o t T' t') (hth : Mine th o t) (j : Slot) :
    Shift th t t' j (T.proc j).state (T'.proc j).state := by
  cases h with
  | handlerWakeup | wakeup | exitWakeup => exact .of_wakes (List.mem_cons_self ..) (T.wakes_wakeup1 _)
  | yield hi => exact .of_upd (.own (List.mem_cons_self ..) (hth.eq (.inr rfl) hi))
  | sleep hi | waitSleep hi | zombie hi =>
    exact .of_upd (.own (List.mem_cons_self ..) (hth.eq (.inl rfl) hi))
  | found hk =>
    next k =>
    by_cases hj : j = k
    · subst hj
      simp only [Table.found, Function.update_self, hk]
      exact .birth (List.mem_cons_self ..)
    · simp only [Table.found, Function.update_of_ne hj]
      exact .same
  | noStack | unuse => exact .of_upd (.fail rfl rfl)
  | publish => exact .of_upd (.publish (List.mem_cons_self ..) rfl rfl)
  | reap hi hk =>
    rw [Table.reap_proc]
    refine .of_upd ?_
    rw [(Table.zombieChild_some hk).2]
    exact .reap (List.mem_cons_self ..)
  | kill hk => exact .of_wakes (List.mem_cons_self ..) (T.wakes_kill _ _)
  | reparent hi => exact .of_wakes (List.mem_cons_self ..) (T.wakes_reparent _)
  | running => exact .of_upd (.pick (List.mem_cons_self ..) rfl)
  | sleepClear | noDir | setParent | waitClear | fault => exact .of_upd .same
  | setDir =>
    rw [Table.setDir_proc]
    exact .of_upd .same
  | freeStack =>
    rw [Table.freeStack_proc]
    exact .of_upd .same

end

end Xv6.Machine
