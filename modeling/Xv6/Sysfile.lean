import Xv6.Fault

/-!
# The system calls on files and mappings

`filewrite` of `file.c`, `munmap_free` of `proc.c`, and `sys_mmap`, `sys_munmap`, `sys_open`, `sys_dup`,
`sys_close` and `sys_pipe` of `sysfile.c`. The arguments of a system call are given; an argument
list that could not be fetched is `none`.
-/

namespace Xv6

open Function (update)
open BitVec (ofNat)

/-! ## `filewrite` -/

/-- One call of `writei` by `filewrite`, with the step of the offset that follows it. -/
def writeInode (p : Fin NPROC) (f : Fin NFILE) (addr : Word) (n : Nat) : K (Option Nat) := do
  let s ← get
  let off := (s.fs.file f).off
  let ip := (s.fs.file f).ip
  match (s.fs.inode ip).type with
  | .dev major =>
    if major = CONSOLE then do
      let _ ← copyFromUser p addr n
      modify fun s => s.updFile f fun x => { x with off := x.off + ofNat 32 n }
      pure (some n)
    else
      pure none
  | _ =>
    if writeiOk (s.fs.inode ip) off n then do
      let src ← copyFromUser p addr n
      modify fun s => s.updInode ip fun x => { x with data := splice x.data off.toNat src }
      modify fun s => s.updFile f fun x => { x with off := x.off + ofNat 32 n }
      pure (some n)
    else
      pure none

/-- The loop of `filewrite` after `i` bytes. `fuel` is at least the number of bytes left. -/
def filewriteLoop (p : Fin NPROC) (f : Fin NFILE) (addr : Word) (n : Nat) : Nat → Nat → K (Option Nat)
  | 0, _ => pure (some n)
  | fuel + 1, i =>
    if i < n then do
      let n1 := min (n - i) maxWrite
      let s ← get
      beginOp
      ilock (s.fs.file f).ip
      let r ← writeInode p f (addr + ofNat 32 i) n1
      iunlock (s.fs.file f).ip
      endOp
      match r with
      | none => pure none
      | some r => if r ≠ n1 then panic "short filewrite" else filewriteLoop p f addr n fuel (i + r)
    else
      pure (some n)

/-- The bytes that go into a pipe with room for `n` of them. -/
def pipeCopy (p : Fin NPROC) (addr : Word) (n : Nat) : K Bytes :=
  if n = 0 then pure [] else copyFromUser p addr n

/-- Bytes go into the buffer until it is full; then the writer gives up or sleeps. -/
def pipewrite (p : Fin NPROC) (pg addr : Word) (n : Nat) : K (Option Nat) := do
  let s ← get
  let room := min n (PIPESIZE - (s.fs.pipe pg).data.length)
  let bs ← pipeCopy p addr room
  modify fun s =>
    let pi := s.fs.pipe pg
    { s with fs := { s.fs with
      pipe := update s.fs.pipe pg { pi with data := pi.data ++ bs } } }
  if room < n then do
    let s ← get
    if !(s.fs.pipe pg).readopen || (s.proc p).killed then
      pure none
    else do
      wakeup
      throw .sleep
  else do
    wakeup
    pure (some n)

def filewrite (p : Fin NPROC) (f : Fin NFILE) (addr : Word) (n : Nat) : K (Option Nat) := do
  let s ← get
  if !(s.fs.file f).writable then
    pure none
  else
    match (s.fs.file f).type with
    | .none => panic "filewrite"
    | .pipe => pipewrite p (s.fs.file f).pipe addr n
    | .inode => filewriteLoop p f addr n n 0

/-! ## `munmap` -/

/-- What `munmap_free` leaves of a descriptor whose count reaches zero. -/
def MmapDesc.cleared (md : MmapDesc) : MmapDesc := { page := md.page }

def munmapFree (p : Fin NPROC) (i : Index) : K Unit := do
  let s ← get
  let md := (s.proc p).mmaps i
  if !md.valid then
    pure ()
  else if md.ref - 1 ≠ 0 then
    modify fun s => s.updDesc p i fun md => { md with ref := md.ref - 1 }
  else do
    modify fun s => s.updDesc p i MmapDesc.cleared
    if md.page = 0 then
      pure ()
    else do
      onRam (kfree md.page)
      modify fun s => s.updDesc p i fun md => { md with page := 0 }

/-- Write the page of a shared mapping back to its file. -/
def syncDesc (p : Fin NPROC) (f : Fin NFILE) (md : MmapDesc) : K Unit :=
  if hasFlag md.flags MAP_PRIVATE then
    pure ()
  else do
    let _ ← filewrite p f md.virtualAddress 4096
    pure ()

/-- `if (md->f != NULL) { ...; fileclose(md->f); }`, in `sys_munmap` and in `exit`. -/
def closeDesc (p : Fin NPROC) (i : Index) : K Unit := do
  let s ← get
  let md := (s.proc p).mmaps i
  match md.f with
  | none => pure ()
  | some f => do
    syncDesc p f md
    fileclose f

/-- `for (a = start; a < stop; a += PGSIZE)` on `int`s: the values of `a`, or `none` when the loop does
not end within the `2 ^ 20` pages of the address space. -/
def pagesBelow (stop : Word) : Nat → Word → Option (List Word)
  | 0, _ => none
  | fuel + 1, a =>
    if a.slt stop then (pagesBelow stop fuel (a + PGSIZE)).map (a :: ·) else some []

/-- The descriptors `to_free` that cover one of the addresses, in the order they are found. -/
def toFree (mmaps : Mmaps) (visits : List Word) : List Index :=
  visits.flatMap fun a => (List.finRange PAGE_LIMIT).filter fun i => (mmaps i).covers a

/-- `if (j != 0) to_free[0]->f->off = 0;` -/
def resetFirst (p : Fin NPROC) (l : List Index) : K Unit := do
  let s ← get
  match l with
  | [] => pure ()
  | i :: _ => resetOff p ((s.proc p).mmaps i).f

def sysMunmap (p : Fin NPROC) (args : Option (Word × Word)) : K Word :=
  match args with
  | none => pure RETURN_ERR
  | some (addr, length) =>
    if addr &&& 0xFFF#32 ≠ 0 then
      pure RETURN_ERR
    else
      match pagesBelow (length + addr) (2 ^ 20 + 1) addr with
      | none => throw .loop
      | some visits => do
        let s ← get
        let l := toFree (s.proc p).mmaps visits
        resetFirst p l
        l.forM (closeDesc p)
        l.forM (munmapFree p)
        pure 0

/-! ## `mmap` -/

structure MmapArgs where
  addr : Word
  length : Word
  prot : Word
  flags : Word
  fd : Word
  offset : Word
  deriving DecidableEq, Repr

def argfd (q : Proc) (fd : Word) : Option (Fin NFILE) :=
  if h : fd.toNat < NOFILE then q.ofile ⟨fd.toNat, h⟩ else none

/-- The search for `n` invalid slots in a row, with `run` of them seen so far. -/
def findRun (mmaps : Mmaps) (n : Nat) : List Index → Nat → Option Nat
  | [], _ => none
  | j :: js, run =>
    if (mmaps j).valid then findRun mmaps n js 0
    else if run + 1 = n then some (j.val + 1 - n)
    else findRun mmaps n js (run + 1)

/-- What `sys_mmap` writes into a slot before it looks at the file. -/
def MmapDesc.claim (md : MmapDesc) (a : MmapArgs) (guard : Bool) : MmapDesc :=
  { md with valid := true, flags := a.flags, prot := a.prot, ref := 1, guardPage := guard }

/-- The loop over the slots, with the address of the next page. `none` is `RETURN_ERR` for a bad file
descriptor. -/
def mmapFill (p : Fin NPROC) (a : MmapArgs) (last : Nat) : List Index → Word → K (Option Word)
  | [], va => pure (some va)
  | j :: js, va => do
    let s ← get
    if ((s.proc p).mmaps j).valid then
      mmapFill p a last js va
    else do
      modify fun s => s.updDesc p j fun md => md.claim a (j.val == last && hasFlag a.flags MAP_GROWSUP)
      if hasFlag a.flags MAP_ANON then do
        modify fun s => s.updDesc p j fun md =>
          { md with f := none, length := a.length, virtualAddress := va }
        mmapFill p a last js (va + PGSIZE)
      else
        match argfd (s.proc p) a.fd with
        | none => pure none
        | some f => do
          filedup f
          modify fun s => s.updDesc p j fun md =>
            { md with f := some f, length := a.length, virtualAddress := va }
          mmapFill p a last js (va + PGSIZE)

/-- The checks on a fixed address: the bounds (the first one unsigned, the second signed), and no page
start of the request inside a valid descriptor. -/
def fixedOk (mmaps : Mmaps) (a : MmapArgs) (n : Nat) : Bool :=
  (a.addr + a.length).ult VIRT_ADDR_END && !a.addr.slt VIRT_ADDR_START &&
    (List.range n).all fun k => (List.finRange PAGE_LIMIT).all fun i =>
      !(mmaps i).covers (a.addr + PAGE_SIZE * ofNat 32 k)

/-- `numberOfPagesToAllocate`, when the loop that counts ends. -/
def pageCount (a : MmapArgs) : Option Nat :=
  (pagesBelow a.length (2 ^ 20 + 1) 0).map fun l =>
    l.length + if hasFlag a.flags MAP_GROWSUP then 1 else 0

/-- The slots of a request of `n` pages from slot `i` on. -/
def slots (i n : Nat) : List Index := ((List.finRange PAGE_LIMIT).drop i).take n

def sysMmap (p : Fin NPROC) (args : Option MmapArgs) : K Word :=
  match args with
  | none => pure RETURN_ERR
  | some a =>
    if a.length.slt 0 || a.offset.slt 0 then
      pure RETURN_ERR
    else
      match pageCount a with
      | none => throw .loop
      | some n =>
        if !hasFlag a.flags MAP_PRIVATE && !hasFlag a.flags MAP_SHARED then
          pure RETURN_ERR
        else do
          let s ← get
          if hasFlag a.flags MAP_FIXED && !fixedOk (s.proc p).mmaps a n then
            pure RETURN_ERR
          else
            match findRun (s.proc p).mmaps n (List.finRange PAGE_LIMIT) 0 with
            | none => pure RETURN_ERR
            | some i => do
              let start := if hasFlag a.flags MAP_FIXED then a.addr else s.vaPtr
              match ← mmapFill p a (i + n - 1) (slots i n) start with
              | none => pure RETURN_ERR
              | some va =>
                if hasFlag a.flags MAP_FIXED then
                  pure start
                else do
                  modify fun s => { s with vaPtr := va }
                  pure start

/-! ## Opening and closing -/

def O_WRONLY : Word := 0x001
def O_RDWR : Word := 0x002
def O_CREATE : Word := 0x200

/-- The first free descriptor of the process. -/
def fdalloc (p : Fin NPROC) (f : Fin NFILE) : K (Option (Fin NOFILE)) := do
  let s ← get
  match (List.finRange NOFILE).find? fun fd => ((s.proc p).ofile fd).isNone with
  | none => pure none
  | some fd => do
    modify fun s => s.updProc p fun q => { q with ofile := update q.ofile fd (some f) }
    pure (some fd)

/-- The part of `sys_open` that follows the lookup, with a reference to the inode taken. -/
def openInode (p : Fin NPROC) (n : Nat) (omode : Word) : K Word := do
  match ← filealloc with
  | none => do
    iput n
    endOp
    pure (-1)
  | some f => do
    match ← fdalloc p f with
    | none => do
      fileclose f
      iput n
      endOp
      pure (-1)
    | some fd => do
      endOp
      modify fun s => s.updFile f fun x =>
        { x with
          type := .inode, ip := n, off := 0
          readable := !hasFlag omode O_WRONLY
          writable := hasFlag omode O_WRONLY || hasFlag omode O_RDWR }
      pure (ofNat 32 fd.val)

/-- `sys_open`. `path` is the inode that `create` or `namei` finds or makes; `none` when there is none. -/
def sysOpen (p : Fin NPROC) (path : Option Nat) (omode : Word) : K Word :=
  match path with
  | none => do
    endOp
    pure (-1)
  | some n => do
    let s ← get
    match (s.fs.inode n).type with
    | .free =>
      if hasFlag omode O_CREATE then do
        modify fun s => s.updInode n fun ip => { ip with type := .file, nlink := 1, data := [], ref := ip.ref + 1 }
        openInode p n omode
      else do
        endOp
        pure (-1)
    | .file => do
      modify fun s => s.updInode n fun ip => { ip with ref := ip.ref + 1 }
      openInode p n omode
    | .dir =>
      if omode ≠ 0 then do
        endOp
        pure (-1)
      else do
        modify fun s => s.updInode n fun ip => { ip with ref := ip.ref + 1 }
        openInode p n omode
    | .dev _ =>
      if hasFlag omode O_CREATE then do
        endOp
        pure (-1)
      else do
        modify fun s => s.updInode n fun ip => { ip with ref := ip.ref + 1 }
        openInode p n omode

def sysDup (p : Fin NPROC) (fd : Word) : K Word := do
  let s ← get
  match argfd (s.proc p) fd with
  | none => pure (-1)
  | some f => do
    match ← fdalloc p f with
    | none => pure (-1)
    | some fd' => do
      filedup f
      pure (ofNat 32 fd'.val)

def sysClose (p : Fin NPROC) (fd : Word) : K Word := do
  let s ← get
  if h : fd.toNat < NOFILE then
    match (s.proc p).ofile ⟨fd.toNat, h⟩ with
    | none => pure (-1)
    | some f => do
      modify fun s => s.updProc p fun q =>
        { q with ofile := update q.ofile ⟨fd.toNat, h⟩ none }
      fileclose f
      pure 0
  else
    pure (-1)

/-- `pipealloc`: two files on one new pipe. -/
def pipealloc : K (Option (Fin NFILE × Fin NFILE)) := do
  match ← filealloc with
  | none => pure none
  | some f0 => do
    match ← filealloc with
    | none => do
      fileclose f0
      pure none
    | some f1 => do
      match ← onRam kalloc with
      | none => do
        fileclose f0
        fileclose f1
        pure none
      | some pg => do
        modify fun s =>
          { s with fs := { s.fs with
            pipe := update s.fs.pipe pg { data := [], readopen := true, writeopen := true } } }
        modify fun s => s.updFile f0 fun x =>
          { x with type := .pipe, readable := true, writable := false, pipe := pg }
        modify fun s => s.updFile f1 fun x =>
          { x with type := .pipe, readable := false, writable := true, pipe := pg }
        pure (some (f0, f1))

/-- `sys_pipe`; the two descriptors go to user memory. -/
def sysPipe (p : Fin NPROC) : K Word := do
  match ← pipealloc with
  | none => pure (-1)
  | some (rf, wf) => do
    match ← fdalloc p rf with
    | none => do
      fileclose rf
      fileclose wf
      pure (-1)
    | some fd0 => do
      match ← fdalloc p wf with
      | none => do
        modify fun s => s.updProc p fun q => { q with ofile := update q.ofile fd0 none }
        fileclose rf
        fileclose wf
        pure (-1)
      | some _ => pure 0

end Xv6
