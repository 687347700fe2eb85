import Xv6.File

/-!
# Page faults

The `T_PGFLT` case of `trap.c`, and `allocatePageNonGuard` and `allocatePageGuard` of `proc.c`, which bring in
the page of a mapping when it is touched for the first time. A null pointer that the kernel follows reaches
page `0` of the running process, and is modelled with that effect. When page `0` does not let the access
through, the kernel faults inside its own fault handling; that is `Stop.loop`.
-/

namespace Xv6

/-! ## Memory of a process -/

def State.userByte (s : State) (p : Fin NPROC) (va : Word) : Byte :=
  s.ram.mem ((s.proc p).pgdir.translate va)

/-- The four bytes at `va`, which lie in one page. -/
def State.userWord (s : State) (p : Fin NPROC) (va : Word) : Word :=
  s.userByte p (va + 3) ++ s.userByte p (va + 2) ++ s.userByte p (va + 1) ++ s.userByte p va

def storeBytes (dst : Word) (bs : Bytes) : RamM Unit :=
  modify fun r =>
    { r with mem := fun a => if (a - dst).toNat < bs.length then bs.getD (a - dst).toNat 0 else r.mem a }

/-- A 32-bit store by the kernel to address `va` below the first page, on behalf of `p`. -/
def storeLow (p : Fin NPROC) (va w : Word) : K Unit := do
  let s ← get
  let d := (s.proc p).pgdir
  if d.access va false true then
    onRam (storeBytes (d.translate va)
      [w.extractLsb' 0 8, w.extractLsb' 8 8, w.extractLsb' 16 8, w.extractLsb' 24 8])
  else
    throw .loop

/-- `f->off = 0`. The field is at byte 20 of `struct file`. -/
def resetOff (p : Fin NPROC) : Option (Fin NFILE) → K Unit
  | some f => modify fun s => s.updFile f fun x => { x with off := 0 }
  | none => storeLow p 20 0

/-- `mmap_read` of a file that may be `NULL`. In a null file `readable` is byte 8 and `type` is byte 0
of page `0`. -/
def mmapReadNull (p : Fin NPROC) : Option (Fin NFILE) → K (Option Bytes)
  | some f => mmapRead p f 4096
  | none => do
    resetOff p none
    let s ← get
    if s.userByte p 8 = 0 then
      pure none
    else if s.userWord p 0 = 1 ∨ s.userWord p 0 = 2 then
      throw .wild
    else
      panic "fileread"

/-! ## Bringing a page in -/

/-- The page addresses that `mappages(_, va, PGSIZE, _, _)` writes entries for. -/
def pagesOf (va : Word) : List Word :=
  let a := pgRoundDown va
  (List.range (vpn (pgRoundDown (va + PGSIZE - 1) - a) + 1)).map fun k =>
    a + .ofNat 32 k * PGSIZE

/-- `mappages(d, va, PGSIZE, V2P(mem), prot | PTE_U)` for a mapping, with a record of the entries. -/
def mapPage (d : PgDir) (va mem prot : Word) : RamM (Bool × PgDir) := do
  let r ← mappages d va PGSIZE (V2P mem) (prot ||| PTE_U)
  if r.1 then do
    modify fun s =>
      { s with trace := (pagesOf va).map (fun a => .install mem a (r.2.pte (vpn a))) ++ s.trace }
    pure r
  else
    pure r

/-- The page behind a page pointer: page `0` of the process when the pointer is null. -/
def bufferPage (p : Fin NPROC) : Option Word → K Word
  | some b => pure b
  | none => do
    let s ← get
    let d := (s.proc p).pgdir
    if d.access 0 false true then do
      onRam (emit .nullPage)
      pure (d.translate 0)
    else
      throw .loop

/-- How both functions read a file-backed page: into a buffer, and from there into the page `mem`. The
buffer stays with the descriptor. -/
def readFilePage (p : Fin NPROC) (i : Index) (mem : Word) : K Unit := do
  let buff ← onRam kalloc
  let page ← bufferPage p buff
  onRam (memset page 0)
  let s ← get
  let r ← mmapReadNull p ((s.proc p).mmaps i).f
  onRam (storeBytes page (r.getD []))
  onRam (memmove mem page)
  modify fun s => s.updDesc p i fun md => { md with page := buff.getD 0 }

def kill (p : Fin NPROC) : K Unit := modify fun s => s.updProc p fun q => { q with killed := true }

def setPgdir (p : Fin NPROC) (d : PgDir) : K Unit :=
  modify fun s => s.updProc p fun q => { q with pgdir := d }

def allocatePageNonGuard (p : Fin NPROC) (i : Index) (addrHead : Word) : K Unit := do
  match ← onRam kalloc with
  | none => panic "kalloc"
  | some mem => do
    onRam (memset mem 0)
    let s ← get
    let md := (s.proc p).mmaps i
    let r ← onRam (mapPage (s.proc p).pgdir (pgRoundDown addrHead) mem md.prot)
    setPgdir p r.2
    if !r.1 then do
      onRam (kfree mem)
      kill p
      throw .exit
    else if hasFlag md.flags MAP_ANON then
      pure ()
    else
      readFilePage p i mem

def allocatePageGuard (p : Fin NPROC) (i : Index) (addrHead : Word) : K Unit := do
  let s ← get
  if h : i.val + 1 < PAGE_LIMIT then
    -- see if we can grow up by one page
    if ((s.proc p).mmaps ⟨i.val + 1, h⟩).valid then
      kill p
    else do
      modify fun s => s.updDesc p i fun md => { md with guardPage := false }
      match ← onRam kalloc with
      | none => panic "kalloc"
      | some mem => do
        onRam (memset mem 0)
        let md := (s.proc p).mmaps i
        let r ← onRam (mapPage (s.proc p).pgdir (pgRoundDown addrHead) mem md.prot)
        if !r.1 then
          panic "mappapges"
        else do
          setPgdir p r.2
          -- the new guard page keeps whatever else its slot held
          modify fun s => s.updDesc p ⟨i.val + 1, h⟩ fun md =>
            { md with valid := true, guardPage := true }
          if hasFlag md.flags MAP_ANON then
            pure ()
          else
            readFilePage p i mem
  else
    throw (.outside (i.val + 1))

/-! ## The trap -/

/-- The test that `trap`, `sys_mmap` and `sys_munmap` all make: signed, and wrapping at the top. -/
def MmapDesc.covers (md : MmapDesc) (a : Word) : Bool :=
  md.valid && md.virtualAddress.sle a && a.slt (md.virtualAddress + PAGE_SIZE)

/-- The first descriptor that covers `a`. -/
def findDesc (mmaps : Mmaps) (a : Word) : Option Index :=
  (List.finRange PAGE_LIMIT).find? fun i => (mmaps i).covers a

def pageFault (p : Fin NPROC) (addr : Word) : K Unit := do
  let s ← get
  match findDesc (s.proc p).mmaps addr with
  | none => kill p
  | some i =>
    if ((s.proc p).mmaps i).guardPage then
      allocatePageGuard p i addr
    else
      allocatePageNonGuard p i addr

/-- A page fault at `addr`, in user or in kernel mode. A killed process exits on its way back to user
space. -/
def trap (p : Fin NPROC) (user : Bool) (addr : Word) : K Unit := do
  pageFault p addr
  let s ← get
  if (s.proc p).killed && user then throw .exit else pure ()

/-- The kernel reads the byte at user address `va`: it faults at most once, since after that the page
is there or the same fault comes back forever. -/
def touch (p : Fin NPROC) (va : Word) : K Unit := do
  let s ← get
  if (s.proc p).pgdir.access va false false then
    pure ()
  else do
    trap p false va
    let s ← get
    if (s.proc p).pgdir.access va false false then pure () else throw .loop

/-- `n` bytes from user address `va`, at least one and at most a page of them. -/
def copyFromUser (p : Fin NPROC) (va : Word) (n : Nat) : K Bytes := do
  touch p va
  touch p (va + .ofNat 32 n - 1)
  let s ← get
  pure ((List.range n).map fun k => s.userByte p (va + .ofNat 32 k))

end Xv6
