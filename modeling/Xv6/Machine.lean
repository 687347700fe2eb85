import Xv6.Lib.Run
import Xv6.State

/-!
# CPUs, kernel threads and the process table

The kernel as `proc.c` sees it: any number of CPUs, each with its scheduler thread, and a kernel thread for
every slot of the process table. The threads run `fork`, `exit`, `wait`, `kill`, `sleep`, `wakeup`, `yield`
and `scheduler` statement by statement, take some other spin lock, and are interrupted while interrupts are
on. Code that only touches what `ptable.lock` guards is one step. The processes have no mappings.

For the statements only there is recorded who forked a process, which have exited or were waited for or
named by a `kill`, and what an allocated page is used for.
-/

namespace Xv6.Machine

open Function (update)

abbrev Slot : Type := Fin NPROC

abbrev Page : Type := ℕ

/-- Addresses to sleep on: of a process, or any other. -/
inductive Chan where
  | proc (p : Slot)
  | other (n : ℕ)
  deriving DecidableEq

/-- Spin locks. -/
inductive Lk where
  | ptable
  | other (n : ℕ)
  deriving DecidableEq

/-! ## The process table -/

structure Proc where
  state : ProcState
  pid : BitVec 32
  parent : Option Slot
  killed : Bool
  chan : Option Chan
  kstack : Option Page
  pgdir : Option Page
  /-- The number of the process, among all that there have been, and that of the process it was forked by. -/
  serial : ℕ
  forkedBy : ℕ
  /-- Was there a `kill` with the pid of the process, and did it fault? -/
  named : Bool
  faulted : Bool

inductive Use where
  | kstack
  | pgdir
  deriving DecidableEq

structure Table where
  proc : Slot → Proc
  nextpid : BitVec 32
  /-- The pages that are allocated, and for what. -/
  pages : Page → Option (Slot × Use)
  births : ℕ
  /-- The numbers of the processes that have exited, and of those that were waited for. -/
  exited : List ℕ
  reaped : List ℕ

/-- The first process, `init`. -/
def initproc : Slot := 0

namespace Table

variable (T : Table)

def upd (p : Slot) (f : Proc → Proc) : Table := { T with proc := update T.proc p (f (T.proc p)) }

def setState (p : Slot) (x : ProcState) : Table := T.upd p fun q => { q with state := x }

def wakeup1 (c : Chan) : Table :=
  { T with proc := fun p =>
      let q := T.proc p
      if q.state = .sleeping ∧ q.chan = some c then { q with state := .runnable } else q }

/-- `sleep`: `p->chan = chan; p->state = SLEEPING`. -/
def sleepOn (p : Slot) (c : Chan) : Table := T.upd p fun q => { q with chan := some c, state := .sleeping }

def clearChan (p : Slot) : Table := T.upd p fun q => { q with chan := none }

/-- `allocproc`, at `found`. -/
def found (p : Slot) : Table :=
  { T with
    proc := update T.proc p
      { T.proc p with
        state := .embryo, pid := T.nextpid, serial := T.births, named := false, faulted := false }
    nextpid := T.nextpid + 1
    births := T.births + 1 }

/-- `allocproc` has a page for the kernel stack. -/
def setStack (p : Slot) (a : Page) : Table :=
  { T.upd p fun q => { q with kstack := some a } with pages := update T.pages a (some (p, .kstack)) }

/-- `allocproc` has none. -/
def noStack (p : Slot) : Table := T.upd p fun q => { q with kstack := none, state := .unused }

/-- `fork`: `copyuvm` has made a page table. -/
def setDir (p : Slot) (a : Page) : Table :=
  { T.upd p fun q => { q with pgdir := some a } with pages := update T.pages a (some (p, .pgdir)) }

def noDir (p : Slot) : Table := T.upd p fun q => { q with pgdir := none }

def free (o : Option Page) : Page → Option (Slot × Use) :=
  match o with
  | some a => update T.pages a none
  | none => T.pages

/-- `fork`: `kfree(np->kstack); np->kstack = 0`. -/
def freeStack (p : Slot) : Table :=
  { T.upd p fun q => { q with kstack := none } with pages := T.free (T.proc p).kstack }

def setParent (p i : Slot) : Table :=
  T.upd p fun q => { q with parent := some i, forkedBy := (T.proc i).serial }

/-- `wait` has found a zombie. -/
def reap (p : Slot) : Table :=
  { T.upd p fun q =>
      { q with kstack := none, pid := 0, parent := none, killed := false, state := .unused } with
    pages := { T with pages := T.free (T.proc p).kstack }.free (T.proc p).pgdir
    reaped := T.reaped ++ [(T.proc p).serial] }

/-- The children of `i` go to `init`, in the loop of `exit` over the table. -/
def giveAway (i p : Slot) : Table :=
  if (T.proc p).parent = some i then
    let T := T.upd p fun q => { q with parent := some initproc }
    if (T.proc p).state = .zombie then T.wakeup1 (.proc initproc) else T
  else T

def reparent (i : Slot) : Table :=
  let T := (List.finRange NPROC).foldl (fun T p => T.giveAway i p) T
  { T with exited := T.exited ++ [(T.proc i).serial] }

/-- The first process with this pid. -/
def findPid (pid : BitVec 32) : Option Slot := (List.finRange NPROC).find? fun p => (T.proc p).pid = pid

/-- A `kill` names the processes that there are with this pid. -/
def name (pid : BitVec 32) : Table :=
  { T with proc := fun p =>
      let q := T.proc p
      if q.state ≠ .unused ∧ q.pid = pid then { q with named := true } else q }

/-- `kill`, for the process that was found. -/
def killProc (p : Slot) : Table :=
  T.upd p fun q => { q with killed := true, state := if q.state = .sleeping then .runnable else q.state }

/-- `trap`: `myproc()->killed = 1`. -/
def fault (p : Slot) : Table := T.upd p fun q => { q with killed := true, faulted := true }

def hasChild (i : Slot) : Bool := (List.finRange NPROC).any fun p => (T.proc p).parent = some i

/-- The first child that is a zombie. -/
def zombieChild (i : Slot) : Option Slot :=
  (List.finRange NPROC).find? fun p => (T.proc p).parent = some i ∧ (T.proc p).state = .zombie

end Table

/-! ## Where a kernel thread is -/

/-- In `sched`: before the checks, or after `swtch`, with `intena` saved on the stack. -/
inductive SchedAt where
  | check
  | saved (intena : Bool)
  deriving DecidableEq

inductive WakeAt where
  | acquire | scan | release
  deriving DecidableEq

/-- `sleep(chan, lk)`, for a lock other than `ptable.lock`. -/
inductive SleepAt where
  | acquire | release | set
  | sched (a : SchedAt)
  | clear | unlock | reacquire
  deriving DecidableEq

inductive YieldAt where
  | acquire | set
  | sched (a : SchedAt)
  | release
  deriving DecidableEq

/-- `fork` and `allocproc`, with the slot `k` of the child. -/
inductive ForkAt where
  | acquire
  | scan (k : ℕ)
  | full
  | found (k : Slot)
  | stack (k : Slot)
  | copy (k : Slot)
  | undo (k : Slot)
  | unuse (k : Slot)
  | parent (k : Slot)
  | lock (k : Slot)
  | publish (k : Slot)
  | release
  deriving DecidableEq

/-- `wait`, which sleeps on `ptable.lock` itself; `result` is the pid, or nothing for -1. -/
inductive WaitAt where
  | acquire | scan | set
  | sched (a : SchedAt)
  | clear
  | release (result : Option (BitVec 32))
  deriving DecidableEq

inductive KillAt where
  | acquire | scan
  | release (result : Bool)
  deriving DecidableEq

inductive ExitAt where
  | acquire | wakeup | reparent | zombie
  | sched (a : SchedAt)
  deriving DecidableEq

inductive SchedulerAt where
  | enable | acquire
  | scan (k : ℕ)
  | running (k : Slot)
  | swtch (k : Slot)
  | back (k : Slot)
  | release
  deriving DecidableEq

/-- The code of a thread, apart from interrupts. In `kernel` a process is somewhere in the kernel; it is
closing its files in `exit` if `exiting`, and it has the spin lock `held`, if any. -/
inductive Base where
  | user
  | kernel (exiting : Bool) (held : Option ℕ)
  | wakeup (exiting : Bool) (held : Option ℕ) (c : Chan) (a : WakeAt)
  | sleep (exiting : Bool) (n : ℕ) (c : Chan) (a : SleepAt)
  | fork (a : ForkAt)
  | wait (a : WaitAt)
  | kill (pid : BitVec 32) (a : KillAt)
  | exit (a : ExitAt)
  | forkret
  | scheduler (a : SchedulerAt)
  deriving DecidableEq

/-- The code of an interrupt handler. -/
inductive Irq where
  | handler (held : Option ℕ)
  | wakeup (held : Option ℕ) (c : Chan) (a : WakeAt)
  | yield (a : YieldAt)
  deriving DecidableEq

structure Thread where
  irq : Option Irq
  base : Base
  deriving DecidableEq

/-! ## What a thread does -/

structure Cpu where
  proc : Option Slot
  ncli : ℤ
  intena : Bool
  /-- Are interrupts on? -/
  intr : Bool

/-- What is not determined by the code. -/
inductive Choice where
  | go
  | interrupt
  | enter (masked : Bool) | leave
  | fault | fork | exit | wait
  | kill (pid : BitVec 32)
  | lock (n : ℕ) | unlock
  | sleep (c : Chan)
  | wakeup (c : Chan)
  | yield | iret
  /-- The result of `kalloc` or `copyuvm`. -/
  | page (a : Option Page)
  deriving DecidableEq

/-- One step of a thread, which goes on at `t`. -/
inductive Act where
  | goto (t : Thread)
  /-- Interrupts go on or off. -/
  | mask (on : Bool) (t : Thread)
  | lock (k : Lk) (t : Thread)
  | unlock (k : Lk) (t : Thread)
  | table (T : Table) (t : Thread)
  /-- The context of process `k` is set up. -/
  | spawn (k : Slot) (T : Table) (t : Thread)
  /-- `c->proc = p` -/
  | setProc (p : Option Slot) (t : Thread)
  /-- `swtch(&c->scheduler, p->context)` -/
  | run (p : Slot) (t : Thread)
  /-- `sched()`, which goes on at `t intena` -/
  | sched (t : Bool → Thread)
  /-- `mycpu()->intena = intena` -/
  | resume (intena : Bool) (t : Thread)
  | panic (msg : String)

/-- No interrupt is being handled. -/
abbrev Base.thread (b : Base) : Thread := ⟨none, b⟩

def Irq.act (T : Table) (cpu : Cpu) (b : Base) : Irq → Choice → Option Act
  | .handler none, .lock n => some (.lock (.other n) ⟨some (.handler (some n)), b⟩)
  | .handler (some n), .unlock => some (.unlock (.other n) ⟨some (.handler none), b⟩)
  | .handler h, .wakeup c => some (.goto ⟨some (.wakeup h c .acquire), b⟩)
  | .handler none, .yield =>
    cpu.proc.bind fun i =>
      if (T.proc i).state = .running then some (.goto ⟨some (.yield .acquire), b⟩) else none
  | .handler none, .iret => some (.mask true ⟨none, b⟩)
  -- wakeup
  | .wakeup h c .acquire, .go => some (.lock .ptable ⟨some (.wakeup h c .scan), b⟩)
  | .wakeup h c .scan, .go => some (.table (T.wakeup1 c) ⟨some (.wakeup h c .release), b⟩)
  | .wakeup h _ .release, .go => some (.unlock .ptable ⟨some (.handler h), b⟩)
  -- yield
  | .yield .acquire, .go => some (.lock .ptable ⟨some (.yield .set), b⟩)
  | .yield .set, .go =>
    cpu.proc.map fun i => .table (T.setState i .runnable) ⟨some (.yield (.sched .check)), b⟩
  | .yield (.sched .check), .go => some (.sched fun x => ⟨some (.yield (.sched (.saved x))), b⟩)
  | .yield (.sched (.saved x)), .go => some (.resume x ⟨some (.yield .release), b⟩)
  | .yield .release, .go => some (.unlock .ptable ⟨some (.handler none), b⟩)
  | _, _ => none

/-- `fork()` of process `i`. -/
def ForkAt.act (T : Table) (i : Slot) : ForkAt → Choice → Option Act
  | .acquire, .go => some (.lock .ptable (Base.fork (.scan 0)).thread)
  | .scan k, .go =>
    if h : k < NPROC then
      if (T.proc ⟨k, h⟩).state = .unused then
        some (.table (T.found ⟨k, h⟩) (Base.fork (.found ⟨k, h⟩)).thread)
      else some (.goto (Base.fork (.scan (k + 1))).thread)
    else some (.goto (Base.fork .full).thread)
  | .full, .go => some (.unlock .ptable (Base.kernel false none).thread)
  | .found k, .go => some (.unlock .ptable (Base.fork (.stack k)).thread)
  | .stack k, .page none => some (.table (T.noStack k) (Base.kernel false none).thread)
  | .stack k, .page (some a) =>
    if T.pages a = none then some (.spawn k (T.setStack k a) (Base.fork (.copy k)).thread) else none
  | .copy k, .page none => some (.table (T.noDir k) (Base.fork (.undo k)).thread)
  | .copy k, .page (some a) =>
    if T.pages a = none then some (.table (T.setDir k a) (Base.fork (.parent k)).thread) else none
  | .undo k, .go => some (.table (T.freeStack k) (Base.fork (.unuse k)).thread)
  | .unuse k, .go => some (.table (T.setState k .unused) (Base.kernel false none).thread)
  | .parent k, .go => some (.table (T.setParent k i) (Base.fork (.lock k)).thread)
  | .lock k, .go => some (.lock .ptable (Base.fork (.publish k)).thread)
  | .publish k, .go => some (.table (T.setState k .runnable) (Base.fork .release).thread)
  | .release, .go => some (.unlock .ptable (Base.kernel false none).thread)
  | _, _ => none

def WaitAt.act (T : Table) (i : Slot) : WaitAt → Choice → Option Act
  | .acquire, .go => some (.lock .ptable (Base.wait .scan).thread)
  | .scan, .go =>
    match T.zombieChild i with
    | some k => some (.table (T.reap k) (Base.wait (.release (some (T.proc k).pid))).thread)
    | none =>
      if T.hasChild i = false ∨ (T.proc i).killed = true then
        some (.goto (Base.wait (.release none)).thread)
      else some (.goto (Base.wait .set).thread)
  | .set, .go => some (.table (T.sleepOn i (.proc i)) (Base.wait (.sched .check)).thread)
  | .sched .check, .go => some (.sched fun x => (Base.wait (.sched (.saved x))).thread)
  | .sched (.saved x), .go => some (.resume x (Base.wait .clear).thread)
  | .clear, .go => some (.table (T.clearChan i) (Base.wait .scan).thread)
  | .release _, .go => some (.unlock .ptable (Base.kernel false none).thread)
  | _, _ => none

def KillAt.act (T : Table) (pid : BitVec 32) : KillAt → Choice → Option Act
  | .acquire, .go => some (.lock .ptable (Base.kill pid .scan).thread)
  | .scan, .go =>
    match T.findPid pid with
    | some k => some (.table ((T.name pid).killProc k) (Base.kill pid (.release true)).thread)
    | none => some (.goto (Base.kill pid (.release false)).thread)
  | .release _, .go => some (.unlock .ptable (Base.kernel false none).thread)
  | _, _ => none

/-- `exit()` of process `i`, from `acquire(&ptable.lock)`. -/
def ExitAt.act (T : Table) (i : Slot) : ExitAt → Choice → Option Act
  | .acquire, .go => some (.lock .ptable (Base.exit .wakeup).thread)
  | .wakeup, .go =>
    match (T.proc i).parent with
    | some p => some (.table (T.wakeup1 (.proc p)) (Base.exit .reparent).thread)
    | none => some (.goto (Base.exit .reparent).thread)
  | .reparent, .go => some (.table (T.reparent i) (Base.exit .zombie).thread)
  | .zombie, .go => some (.table (T.setState i .zombie) (Base.exit (.sched .check)).thread)
  | .sched .check, .go => some (.sched fun x => (Base.exit (.sched (.saved x))).thread)
  | .sched (.saved _), .go => some (.panic "zombie exit")
  | _, _ => none

def SleepAt.act (T : Table) (i : Slot) (e : Bool) (n : ℕ) (c : Chan) : SleepAt → Choice → Option Act
  | .acquire, .go => some (.lock .ptable (Base.sleep e n c .release).thread)
  | .release, .go => some (.unlock (.other n) (Base.sleep e n c .set).thread)
  | .set, .go => some (.table (T.sleepOn i c) (Base.sleep e n c (.sched .check)).thread)
  | .sched .check, .go => some (.sched fun x => (Base.sleep e n c (.sched (.saved x))).thread)
  | .sched (.saved x), .go => some (.resume x (Base.sleep e n c .clear).thread)
  | .clear, .go => some (.table (T.clearChan i) (Base.sleep e n c .unlock).thread)
  | .unlock, .go => some (.unlock .ptable (Base.sleep e n c .reacquire).thread)
  | .reacquire, .go => some (.lock (.other n) (Base.kernel e (some n)).thread)
  | _, _ => none

def WakeAt.act (T : Table) (e : Bool) (h : Option ℕ) (c : Chan) : WakeAt → Choice → Option Act
  | .acquire, .go => some (.lock .ptable (Base.wakeup e h c .scan).thread)
  | .scan, .go => some (.table (T.wakeup1 c) (Base.wakeup e h c .release).thread)
  | .release, .go => some (.unlock .ptable (Base.kernel e h).thread)
  | _, _ => none

/-- The scheduler of a CPU. -/
def SchedulerAt.act (T : Table) : SchedulerAt → Choice → Option Act
  | .enable, .go => some (.mask true (Base.scheduler .acquire).thread)
  | .acquire, .go => some (.lock .ptable (Base.scheduler (.scan 0)).thread)
  | .scan k, .go =>
    if h : k < NPROC then
      if (T.proc ⟨k, h⟩).state = .runnable then
        -- c->proc = p; switchuvm(p)
        if (T.proc ⟨k, h⟩).kstack = none then some (.panic "switchuvm: no kstack")
        else if (T.proc ⟨k, h⟩).pgdir = none then some (.panic "switchuvm: no pgdir")
        else some (.setProc (some ⟨k, h⟩) (Base.scheduler (.running ⟨k, h⟩)).thread)
      else some (.goto (Base.scheduler (.scan (k + 1))).thread)
    else some (.goto (Base.scheduler .release).thread)
  | .running k, .go => some (.table (T.setState k .running) (Base.scheduler (.swtch k)).thread)
  | .swtch k, .go => some (.run k (Base.scheduler (.back k)).thread)
  | .back k, .go => some (.setProc none (Base.scheduler (.scan (k + 1))).thread)
  | .release, .go => some (.unlock .ptable (Base.scheduler .enable).thread)
  | _, _ => none

/-- A process in the kernel makes a call, takes or releases a lock, or goes back to user space. -/
def kernelAct (T : Table) (i : Slot) (e : Bool) : Option ℕ → Choice → Option Act
  | none, .leave => if e then none else some (.mask true Base.user.thread)
  | none, .fault => if e then none else some (.table (T.fault i) (Base.kernel e none).thread)
  | none, .fork => if e then none else some (.goto (Base.fork .acquire).thread)
  | none, .wait => if e then none else some (.goto (Base.wait .acquire).thread)
  | none, .kill pid => if e then none else some (.goto (Base.kill pid .acquire).thread)
  | none, .exit =>
    if e then some (.goto (Base.exit .acquire).thread)
    else if i = initproc then some (.panic "init exiting")
    else some (.goto (Base.kernel true none).thread)
  | none, .lock n => some (.lock (.other n) (Base.kernel e (some n)).thread)
  | some n, .unlock => some (.unlock (.other n) (Base.kernel e none).thread)
  | some n, .sleep c => some (.goto (Base.sleep e n c .acquire).thread)
  | h, .wakeup c => some (.goto (Base.wakeup e h c .acquire).thread)
  | _, _ => none

/-- The code of process `i`. -/
def Base.procAct (T : Table) (i : Slot) : Base → Choice → Option Act
  | .user, .enter masked => some (.mask (!masked) (Base.kernel false none).thread)
  | .kernel e h, ch => kernelAct T i e h ch
  | .wakeup e h c a, ch => a.act T e h c ch
  | .sleep e n c a, ch => a.act T i e n c ch
  | .fork a, ch => a.act T i ch
  | .wait a, ch => a.act T i ch
  | .kill pid a, ch => a.act T pid ch
  | .exit a, ch => a.act T i ch
  | .forkret, .go => some (.unlock .ptable (Base.kernel false none).thread)
  | _, _ => none

def Thread.act (T : Table) (cpu : Cpu) (t : Thread) (ch : Choice) : Option Act :=
  match t.irq with
  | some q => q.act T cpu t.base ch
  | none =>
    if ch = .interrupt then
      if cpu.intr then some (.mask false ⟨some (.handler none), t.base⟩) else none
    else
      match t.base with
      | .scheduler a => a.act T ch
      | b =>
        match cpu.proc with
        | some i => b.procAct T i ch
        | none => some (.panic "myproc")

/-! ## The system -/

structure Sys (κ : Type) where
  tab : Table
  /-- The scheduler thread of a CPU, or the thread of a process. -/
  thread : κ ⊕ Slot → Thread
  cpu : κ → Cpu
  /-- The process whose thread the CPU executes, if it is not its scheduler. -/
  cur : κ → Option Slot
  /-- The CPU that has the lock. -/
  holder : Lk → Option κ
  panic : Option String

namespace Sys

variable {κ : Type} [DecidableEq κ] (s : Sys κ) (c : κ)

/-- The thread that CPU `c` executes. -/
def self : κ ⊕ Slot :=
  match s.cur c with
  | none => .inl c
  | some i => .inr i

def goto (t : Thread) : κ ⊕ Slot → Thread := update s.thread (s.self c) t

def stop (msg : String) : Sys κ := { s with panic := some msg }

def setCpu (x : Cpu) : κ → Cpu := update s.cpu c x

/-- `pushcli`, as part of `acquire`. -/
def pushcli : Cpu :=
  let x := s.cpu c
  { x with intena := if x.ncli = 0 then x.intr else x.intena, intr := false, ncli := x.ncli + 1 }

/-- `popcli`, as part of `release`, after the checks. -/
def popcli : Cpu :=
  let x := s.cpu c
  { x with ncli := x.ncli - 1, intr := if x.ncli - 1 = 0 ∧ x.intena = true then true else x.intr }

/-- CPU `c` takes a step. -/
def apply : Act → Option (Sys κ)
  | .goto t => some { s with thread := s.goto c t }
  | .mask on t => some { s with thread := s.goto c t, cpu := s.setCpu c { s.cpu c with intr := on } }
  | .lock k t =>
    match s.holder k with
    | none => some { s with
        thread := s.goto c t, cpu := s.setCpu c (s.pushcli c), holder := update s.holder k (some c) }
    | some c' => if c' = c then some (s.stop "acquire") else none
  | .unlock k t =>
    if s.holder k ≠ some c then some (s.stop "release")
    else if (s.cpu c).intr then some (s.stop "popcli - interruptible")
    else if (s.cpu c).ncli - 1 < 0 then some (s.stop "popcli")
    else some { s with
      thread := s.goto c t, cpu := s.setCpu c (s.popcli c), holder := update s.holder k none }
  | .table T t => some { s with tab := T, thread := s.goto c t }
  | .spawn k T t => some { s with
      tab := T, thread := update (s.goto c t) (.inr k) Base.forkret.thread }
  | .setProc p t => some { s with thread := s.goto c t, cpu := s.setCpu c { s.cpu c with proc := p } }
  | .run p t => some { s with thread := s.goto c t, cur := update s.cur c (some p) }
  | .sched t =>
    match (s.cpu c).proc with
    | none => some (s.stop "myproc")
    | some i =>
      if s.holder .ptable ≠ some c then some (s.stop "sched ptable.lock")
      else if (s.cpu c).ncli ≠ 1 then some (s.stop "sched locks")
      else if (s.tab.proc i).state = .running then some (s.stop "sched running")
      else if (s.cpu c).intr then some (s.stop "sched interruptible")
      else some { s with
        thread := s.goto c (t (s.cpu c).intena), cur := update s.cur c none }
  | .resume x t => some { s with thread := s.goto c t, cpu := s.setCpu c { s.cpu c with intena := x } }
  | .panic msg => some (s.stop msg)

def exec (l : κ × Choice) : Option (Sys κ) :=
  if s.panic.isSome then none
  else ((s.thread (s.self l.1)).act s.tab (s.cpu l.1) l.2).bind (s.apply l.1)

end Sys

/-! ## The start -/

def unusedProc : Proc where
  state := .unused
  pid := 0
  parent := none
  killed := false
  chan := none
  kstack := none
  pgdir := none
  serial := 0
  forkedBy := 0
  named := false
  faulted := false

/-- After `userinit`. -/
def bootTable : Table where
  proc := update (fun _ => unusedProc) initproc
    { unusedProc with state := .runnable, pid := 1, kstack := some 0, pgdir := some 1 }
  nextpid := 2
  pages a := if a = 0 then some (initproc, .kstack) else if a = 1 then some (initproc, .pgdir) else none
  births := 1
  exited := []
  reaped := []

/-- Every CPU calls `scheduler`, with interrupts off; `init` has never run. -/
def boot (κ : Type) : Sys κ where
  tab := bootTable
  thread
    | .inl _ => (Base.scheduler .enable).thread
    | .inr _ => Base.forkret.thread
  cpu _ := { proc := none, ncli := 0, intena := false, intr := false }
  cur _ := none
  holder _ := none
  panic := none

end Xv6.Machine
