import Xv6.Mmu

/-!
# The state of the kernel

The data of `proc.h`, `mmap.h`, `file.h` and `kalloc.c`, without the fields that no modelled function reads
back: `dirty`, `shared`, `hasFile`, `isChildOfParent` and `already_alloced` of a mapping, and the trap frame,
context, channel and name of a process. Kernel code is a program over the state that may stop instead of
returning. An operation of one process runs to its end before the next one starts.

`Ram.trace` records the calls of `kfree` and the entries written for mappings. `Fs.ilocks` are the inodes
whose sleep-lock the running process holds.
-/

namespace Xv6

open Function (update)

/-! ## Physical memory -/

/-- What happened, latest first. -/
inductive Event where
  /-- `kfree(v)` was called; at that moment `v` was (`true`) or was not an allocated page. -/
  | kfree (v : Word) (allocated : Bool)
  /-- For a mapping, the entry of the page at `a` became `pte`; the kernel meant the page `mem`. -/
  | install (mem a pte : Word)
  /-- The page buffer of a fault was the null pointer and was written through. -/
  | nullPage
  deriving DecidableEq, Repr

/-- The page allocator and the contents of memory, addressed by kernel pointers. -/
structure Ram where
  /-- `end`: the first address after the kernel, from the linker script. -/
  kend : Word
  /-- `data`: the end of the kernel's text, from the linker script. -/
  kdata : Word
  freelist : List Word
  mem : Word → Byte
  trace : List Event

/-- A page directory with its page tables. `pte` is indexed by page number (`vpn`); the entries of a table
that is not there mean nothing. `page` is null for the null pointer. -/
structure PgDir where
  page : Word
  pde : Nat → Word
  pte : Nat → Word

def PgDir.null : PgDir := ⟨0, fun _ => 0, fun _ => 0⟩

/-! ## Files -/

inductive FileType where
  | none | pipe | inode
  deriving DecidableEq, Repr

structure File where
  type : FileType := .none
  ref : Nat := 0
  readable : Bool := false
  writable : Bool := false
  /-- The page of the pipe. -/
  pipe : Word := 0
  /-- The number of the inode. -/
  ip : Nat := 0
  off : Word := 0
  deriving DecidableEq, Repr

structure Pipe where
  data : Bytes := []
  readopen : Bool := false
  writeopen : Bool := false
  deriving DecidableEq, Repr

inductive InodeType where
  | free | dir | file | dev (major : Nat)
  deriving DecidableEq, Repr

/-- An inode with its cached reference count; `data` is the file's content. -/
structure Inode where
  type : InodeType := .free
  nlink : Nat := 0
  ref : Nat := 0
  data : Bytes := []
  deriving DecidableEq, Repr

structure Fs where
  file : Fin NFILE → File
  inode : Nat → Inode
  pipe : Word → Pipe
  ilocks : List Nat

/-! ## Processes -/

/-- One page of a mapping. -/
structure MmapDesc where
  page : Word := 0
  length : Word := 0
  virtualAddress : Word := 0
  flags : Word := 0
  prot : Word := 0
  valid : Bool := false
  guardPage : Bool := false
  ref : Word := 0
  f : Option (Fin NFILE) := none
  deriving DecidableEq, Repr

/-- An index of the table of mappings. -/
abbrev Index := Fin PAGE_LIMIT

abbrev Mmaps := Index → MmapDesc

inductive ProcState where
  | unused | embryo | sleeping | runnable | running | zombie
  deriving DecidableEq, Repr

structure Proc where
  sz : Word := 0
  pgdir : PgDir := .null
  kstack : Word := 0
  state : ProcState := .unused
  pid : Word := 0
  parent : Option (Fin NPROC) := none
  killed : Bool := false
  ofile : Fin NOFILE → Option (Fin NFILE) := fun _ => none
  cwd : Option Nat := none
  mmaps : Mmaps := fun _ => {}

structure State where
  ram : Ram
  fs : Fs
  proc : Fin NPROC → Proc
  initproc : Fin NPROC
  nextpid : Word
  /-- `VA_PTR`: where the next mapping without a fixed address goes. -/
  vaPtr : Word
  /-- The running CPU holds `ptable.lock`. -/
  ptableLock : Bool

/-! ## Programs -/

/-- Why a kernel path does not come back to its caller. -/
inductive Stop where
  | panic (msg : String)
  /-- `exit()` was called. -/
  | exit
  /-- The process waits for something that only another process or a device can do. -/
  | sleep
  /-- The process waits for a sleep-lock that it holds itself. -/
  | deadlock
  /-- A loop without end: also a kernel access that faults again and again. -/
  | loop
  /-- An access through a pointer that does not point to anything. -/
  | wild
  /-- `mmaps[k]` is accessed and the table of mappings has no entry `k`. -/
  | outside (k : Nat)
  deriving DecidableEq, Repr

abbrev RamM := EStateM Stop Ram
abbrev K := EStateM Stop State

def panic {σ α : Type} (msg : String) : EStateM Stop σ α := throw (.panic msg)

/-- Run a program over memory as a kernel program. -/
def onRam {α : Type} (m : RamM α) : K α := fun s =>
  match m s.ram with
  | .ok a r => .ok a { s with ram := r }
  | .error e r => .error e { s with ram := r }

/-! ## Updates -/

def State.updProc (s : State) (p : Fin NPROC) (g : Proc → Proc) : State :=
  { s with proc := update s.proc p (g (s.proc p)) }

def Proc.updDesc (q : Proc) (i : Index) (g : MmapDesc → MmapDesc) : Proc :=
  { q with mmaps := update q.mmaps i (g (q.mmaps i)) }

def State.updDesc (s : State) (p : Fin NPROC) (i : Index) (g : MmapDesc → MmapDesc) :
    State :=
  s.updProc p fun q => q.updDesc i g

def State.updFile (s : State) (f : Fin NFILE) (g : File → File) : State :=
  { s with fs := { s.fs with file := update s.fs.file f (g (s.fs.file f)) } }

def State.updInode (s : State) (n : Nat) (g : Inode → Inode) : State :=
  { s with fs := { s.fs with inode := update s.fs.inode n (g (s.fs.inode n)) } }

section Fields
variable (s : State) (p q : Fin NPROC) (i j : Index) (f : Fin NFILE) (n : Nat)

@[simp] theorem updProc_self (g : Proc → Proc) : (s.updProc p g).proc p = g (s.proc p) := by
  simp [State.updProc]

@[simp] theorem updProc_of_ne {p q : Fin NPROC} (h : q ≠ p) (g : Proc → Proc) :
    (s.updProc p g).proc q = s.proc q := by
  simp [State.updProc, h]

@[simp] theorem updProc_ram (g : Proc → Proc) : (s.updProc p g).ram = s.ram := rfl
@[simp] theorem updProc_fs (g : Proc → Proc) : (s.updProc p g).fs = s.fs := rfl

@[simp] theorem updDesc_self (q : Proc) (g : MmapDesc → MmapDesc) :
    (q.updDesc i g).mmaps i = g (q.mmaps i) := by
  simp [Proc.updDesc]

@[simp] theorem updDesc_of_ne (q : Proc) {i j : Index} (h : j ≠ i)
    (g : MmapDesc → MmapDesc) : (q.updDesc i g).mmaps j = q.mmaps j := by
  simp [Proc.updDesc, h]

theorem updDesc_mmaps (g : MmapDesc → MmapDesc) : ((s.updDesc p i g).proc p).mmaps =
    update (s.proc p).mmaps i (g ((s.proc p).mmaps i)) := by
  simp [State.updDesc, Proc.updDesc]

theorem updDesc_comp (q : Proc) (g g' : MmapDesc → MmapDesc) :
    (q.updDesc i g).updDesc i g' = q.updDesc i fun md => g' (g md) := by
  simp [Proc.updDesc]

theorem updDesc_updDesc (g g' : MmapDesc → MmapDesc) :
    (s.updDesc p i g).updDesc p i g' = s.updDesc p i fun md => g' (g md) := by
  simp [State.updDesc, Proc.updDesc, State.updProc]

theorem updDesc_proc_of_ne {p q : Fin NPROC} (h : q ≠ p) (g : MmapDesc → MmapDesc) :
    (s.updDesc p i g).proc q = s.proc q := by
  simp [State.updDesc, h]

@[simp] theorem updFile_self (g : File → File) : (s.updFile f g).fs.file f = g (s.fs.file f) := by
  simp [State.updFile]

@[simp] theorem updFile_of_ne {f f' : Fin NFILE} (h : f' ≠ f) (g : File → File) :
    (s.updFile f g).fs.file f' = s.fs.file f' := by
  simp [State.updFile, h]

end Fields

end Xv6
