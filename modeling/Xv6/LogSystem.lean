import Xv6.Log

/-!
# Operations that share the log

`begin_op`, `log_write` and `end_op` of `log.c`, run by any number of processes, one statement at a time. The
two checks at the top of `log_write` and the whole of `commit` are made without `log.lock`. What the
processes wrote and what was committed is recorded; nothing in the program reads it.
-/

namespace Xv6.Log

/-- Where a process is. -/
inductive Pc where
  /-- Not in an operation. -/
  | idle
  /-- `begin_op`: wants the lock, at first or after it slept. -/
  | beginAcquire
  | beginLoop
  | asleep
  | beginRelease
  /-- Between `begin_op` and `end_op`. -/
  | inOp
  /-- `log_write(b)`: the first check is behind it. -/
  | writeCheck (b : Word)
  | writeAcquire (b : Word)
  | writeLocked (b : Word)
  | writeRelease
  /-- `end_op`. -/
  | endAcquire
  | endLocked
  /-- `log.outstanding` was decremented. -/
  | endTest
  | endRelease (doCommit : Bool)
  /-- `commit`, without the lock. -/
  | commitStart
  | commitLog
  | commitHead
  | commitInstall
  | commitClear
  | commitErase
  /-- The second half of `end_op`. -/
  | endAcquire2
  | endClear
  | endWakeup
  | endRelease2
  deriving DecidableEq, Repr

/-- The variables of `struct log`. -/
structure Vars where
  /-- `log.lock.locked`. -/
  lock : Bool
  outstanding : Int
  committing : Bool
  /-- `log.lh.block[0..n)`. -/
  lh : List Word
  deriving DecidableEq, Repr

/-- What a process that is not in the middle of a call does next; a process in a call goes on. -/
inductive Choice where
  | go
  | write (b : Word)
  | finish
  /-- The process is woken for another reason: it was killed. -/
  | wake
  deriving DecidableEq, Repr

/-- Why a process cannot take a step. -/
inductive Halt where
  | blocked
  | panic (msg : String)
  /-- A store behind the end of `log.lh.block`. -/
  | wild
  deriving DecidableEq, Repr

/-- The variables after a step, where the process is, and whether it called `wakeup(&log)`. -/
structure Outcome where
  vars : Vars
  pc : Pc
  wakeup : Bool := false

def acquire (l : Vars) (c : Pc) : Except Halt Outcome :=
  if l.lock then .error .blocked else .ok { vars := { l with lock := true }, pc := c }

def release (l : Vars) (c : Pc) : Except Halt Outcome :=
  .ok { vars := { l with lock := false }, pc := c }

/-- The next statement of a process that is in the middle of a call, or begins an operation. -/
def advance (l : Vars) : Pc → Except Halt Outcome
  -- begin_op
  | .idle => .ok { vars := l, pc := .beginAcquire }
  | .beginAcquire => acquire l .beginLoop
  | .beginLoop =>
    if l.committing then
      release l .asleep
    else if (LOGSIZE : Int) < l.lh.length + (l.outstanding + 1) * MAXOPBLOCKS then
      -- this op might exhaust log space; wait for commit
      release l .asleep
    else
      .ok { vars := { l with outstanding := l.outstanding + 1 }, pc := .beginRelease }
  | .asleep => .error .blocked
  | .beginRelease => release l .inOp
  | .inOp => .error .blocked
  -- log_write
  | .writeCheck b =>
    if l.outstanding < 1 then
      .error (.panic "log_write outside of trans")
    else
      .ok { vars := l, pc := .writeAcquire b }
  | .writeAcquire b => acquire l (.writeLocked b)
  | .writeLocked b =>
    if b ∉ l.lh ∧ LOGSIZE ≤ l.lh.length then
      .error .wild
    else
      .ok { vars := { l with lh := absorb l.lh b }, pc := .writeRelease }
  | .writeRelease => release l .inOp
  -- end_op
  | .endAcquire => acquire l .endLocked
  | .endLocked => .ok { vars := { l with outstanding := l.outstanding - 1 }, pc := .endTest }
  | .endTest =>
    if l.committing then
      .error (.panic "log.committing")
    else if l.outstanding = 0 then
      .ok { vars := { l with committing := true }, pc := .endRelease true }
    else
      .ok { vars := l, pc := .endRelease false, wakeup := true }
  | .endRelease doCommit => release l (if doCommit then .commitStart else .idle)
  -- commit
  | .commitStart => .ok { vars := l, pc := if 0 < l.lh.length then .commitLog else .endAcquire2 }
  | .commitLog => .ok { vars := l, pc := .commitHead }
  | .commitHead => .ok { vars := l, pc := .commitInstall }
  | .commitInstall => .ok { vars := l, pc := .commitClear }
  | .commitClear => .ok { vars := { l with lh := [] }, pc := .commitErase }
  | .commitErase => .ok { vars := l, pc := .endAcquire2 }
  | .endAcquire2 => acquire l .endClear
  | .endClear => .ok { vars := { l with committing := false }, pc := .endWakeup }
  | .endWakeup => .ok { vars := l, pc := .endRelease2, wakeup := true }
  | .endRelease2 => release l .idle

/-- A step of a process that is at `c`; `size` is `log.size`. The first check of `log_write` is made as it
is called. -/
def step (size : Nat) (l : Vars) (c : Pc) : Choice → Except Halt Outcome
  | .go => advance l c
  | .write b =>
    if c ≠ .inOp then
      .error .blocked
    else if LOGSIZE ≤ l.lh.length ∨ size ≤ l.lh.length + 1 then
      .error (.panic "too big a transaction")
    else
      .ok { vars := l, pc := .writeCheck b }
  | .finish => if c ≠ .inOp then .error .blocked else .ok { vars := l, pc := .endAcquire }
  | .wake => if c ≠ .asleep then .error .blocked else .ok { vars := l, pc := .beginAcquire }

/-- A commit: the log writes it is made of, each with the operation that made it, and the list of blocks
that its header names. -/
structure Commit where
  events : List (Nat × Word)
  blocks : List Word
  deriving DecidableEq, Repr

structure History (ι : Type) where
  /-- The number of the operation that a process is in. -/
  op : ι → Nat
  /-- The number of the next operation. -/
  nextOp : Nat
  /-- All log writes, with the number of the operation. -/
  written : List (Nat × Word)
  /-- Those that are not yet committed. -/
  pending : List (Nat × Word)
  /-- The commits, the last one first. The header block is what commits. -/
  commits : List Commit

variable {ι : Type} [DecidableEq ι]

/-- The history after process `p` went from one place to another. -/
def History.record (g : History ι) (p : ι) (lh : List Word) : Pc → Pc → History ι
  | .beginLoop, .beginRelease =>
    { g with op := Function.update g.op p g.nextOp, nextOp := g.nextOp + 1 }
  | .writeLocked b, _ =>
    { g with written := (g.op p, b) :: g.written, pending := (g.op p, b) :: g.pending }
  | .commitHead, _ => { g with pending := [], commits := ⟨g.pending, lh⟩ :: g.commits }
  | _, _ => g

/-! ## The system -/

structure Sys (ι : Type) where
  vars : Vars
  pc : ι → Pc
  history : History ι

/-- Everyone who sleeps on `&log` goes back to wanting the lock. -/
def Pc.woken : Pc → Pc
  | .asleep => .beginAcquire
  | c => c

def Sys.after (s : Sys ι) (p : ι) (o : Outcome) : Sys ι where
  vars := o.vars
  pc := Function.update (fun q => if o.wakeup then (s.pc q).woken else s.pc q) p o.pc
  history := s.history.record p s.vars.lh (s.pc p) o.pc

/-- Process `a.1` takes its next step. -/
def Sys.exec (size : Nat) (s : Sys ι) (a : ι × Choice) : Option (Sys ι) :=
  match step size s.vars (s.pc a.1) a.2 with
  | .ok o => some (s.after a.1 o)
  | .error _ => none

/-- After `initlog`: nothing in the log and nobody in an operation. -/
def Sys.init : Sys ι where
  vars := { lock := false, outstanding := 0, committing := false, lh := [] }
  pc _ := .idle
  history := { op := fun _ => 0, nextOp := 0, written := [], pending := [], commits := [] }

theorem exec_eq_some {size : Nat} {s t : Sys ι} {p : ι} {ch : Choice}
    (h : s.exec size (p, ch) = some t) : ∃ o, step size s.vars (s.pc p) ch = .ok o ∧ t = s.after p o := by
  unfold Sys.exec at h
  cases hstep : step size s.vars (s.pc p) ch with
  | error e =>
    rw [hstep] at h
    cases h
  | ok o =>
    rw [hstep] at h
    exact ⟨o, rfl, (Option.some.inj h).symm⟩

end Xv6.Log
