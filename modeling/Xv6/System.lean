import Xv6.Lib.Run
import Xv6.Proc

/-!
# The system

Processes take turns: one operation of one process at a time, each a system call, an access to memory that
the hardware does not let through, or a write to memory by user code. There is no next state when the process
cannot run, when the kernel panics, or when the call never comes back.
-/

namespace Xv6

inductive Op where
  | mmap (p : Fin NPROC) (args : Option MmapArgs)
  | munmap (p : Fin NPROC) (args : Option (Word × Word))
  /-- User code of `p` reads or writes at `addr`. -/
  | fault (p : Fin NPROC) (addr : Word) (write : Bool)
  /-- User code of `p` writes the byte `b` at `addr`, which it may. -/
  | store (p : Fin NPROC) (addr : Word) (b : Byte)
  | fork (p : Fin NPROC)
  | exit (p : Fin NPROC)
  | wait (p : Fin NPROC)
  | open (p : Fin NPROC) (path : Option Nat) (omode : Word)
  | dup (p : Fin NPROC) (fd : Word)
  | close (p : Fin NPROC) (fd : Word)
  | pipe (p : Fin NPROC)

namespace Op

/-- The process that does it. -/
def proc : Op → Fin NPROC
  | mmap p _ | munmap p _ | fault p _ _ | store p _ _ | fork p | exit p | wait p
  | .open p _ _ | dup p _ | close p _ | pipe p => p

/-- `trap` around a system call: a killed process exits before it and after it. -/
def syscall {α : Type} (p : Fin NPROC) (m : K α) : K Unit := do
  let s ← get
  if (s.proc p).killed then
    throw .exit
  else do
    let _ ← m
    let s ← get
    if (s.proc p).killed then throw .exit else pure ()

def body : Op → K Unit
  | mmap p args => syscall p (sysMmap p args)
  | munmap p args => syscall p (sysMunmap p args)
  | fault p addr _ => trap p true addr
  | store p addr b => do
    let s ← get
    onRam (storeBytes ((s.proc p).pgdir.translate addr) [b])
  | .fork p => syscall p (Xv6.fork p)
  | .exit p => syscall p (throw .exit : K Unit)
  | .wait p => syscall p (Xv6.wait p)
  | .open p path omode => syscall p (sysOpen p path omode)
  | dup p fd => syscall p (sysDup p fd)
  | close p fd => syscall p (sysClose p fd)
  | pipe p => syscall p (sysPipe p)

/-- The process can run; a faulting access is one that the hardware refuses, a store is one that it lets
through. -/
def enabled (s : State) (op : Op) : Bool :=
  ((s.proc op.proc).state == .runnable || (s.proc op.proc).state == .running) &&
    match op with
    | fault p addr write => !(s.proc p).pgdir.access addr true write
    | store p addr _ => (s.proc p).pgdir.access addr true true
    | _ => true

/-- The operation to its end: a call of `exit()` on the way ends the process. -/
def outcome (op : Op) : K Unit := fun s =>
  match op.body s with
  | .error .exit t => Xv6.exit op.proc t
  | r => r

end Op

def exec (s : State) (op : Op) : Option State :=
  if op.enabled s then
    match op.outcome s with
    | .ok _ t => some t
    | .error _ _ => none
  else
    none

theorem exec_eq_some {s t : State} {op : Op} :
    exec s op = some t ↔ op.enabled s ∧ op.outcome s = .ok () t := by
  unfold exec
  by_cases h : op.enabled s
  · cases hr : op.outcome s <;> simp [h]
  · simp [h]

end Xv6
