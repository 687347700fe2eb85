import Xv6.System

/-!
# The size of a process

The functions that set the size of a process's memory: `growproc` of `proc.c` and `exec` of `exec.c`, with
what they use of `vm.c`. The headers of a program are decoded from the bytes of the file. The trap frame and
the name of the program are left out. The arguments are the strings that `sys_exec` has fetched.
-/

namespace Xv6.Exec

/-! ## `vm.c` -/

/-- The loop of `allocuvm`. A run of `2 ^ 20` iterations has seen every page. -/
def allocuvmLoop (oldsz newsz : Word) : Nat → PgDir → Word → RamM (Word × PgDir)
  | 0, d, _ => pure (newsz, d)
  | fuel + 1, d, a =>
    if a.ult newsz then do
      match ← kalloc with
      | none => do
        let r ← deallocuvm d newsz oldsz
        pure (0, r.2)
      | some mem => do
        memset mem 0
        let r ← mappages d a PGSIZE (V2P mem) (PTE_W ||| PTE_U)
        if r.1 then
          allocuvmLoop oldsz newsz fuel r.2 (a + PGSIZE)
        else do
          let r ← deallocuvm r.2 newsz oldsz
          kfree mem
          pure (0, r.2)
    else
      pure (newsz, d)

/-- Allocate page tables and physical memory to grow process from `oldsz` to `newsz`. Returns the new size
or `0` on error. -/
def allocuvm (d : PgDir) (oldsz newsz : Word) : RamM (Word × PgDir) :=
  if !newsz.ult KERNBASE then
    pure (0, d)
  else if newsz.ult oldsz then
    pure (oldsz, d)
  else
    allocuvmLoop oldsz newsz (2 ^ 20) d (pgRoundUp oldsz)

/-- The loop of `loaduvm`, at byte `i` of the segment. `false` is its `-1`. -/
def loaduvmLoop (d : PgDir) (addr : Word) (ip : Inode) (offset sz : Word) : Nat → Word → RamM Bool
  | 0, _ => pure true
  | fuel + 1, i =>
    if i.ult sz then
      match d.walk (addr + i) with
      | none => panic "loaduvm: address should exist"
      | some pte => do
        let n := if (sz - i).ult PGSIZE then (sz - i).toNat else PGSIZE.toNat
        match readi ip (offset + i) n with
        | none => pure false
        | some bs => do
          storeBytes (P2V (pteAddr pte)) bs
          if bs.length ≠ n then pure false
          else loaduvmLoop d addr ip offset sz fuel (i + PGSIZE)
    else
      pure true

/-- Load a program segment into `d`. `addr` must be page-aligned and its pages mapped. -/
def loaduvm (d : PgDir) (addr : Word) (ip : Inode) (offset sz : Word) : RamM Bool :=
  if addr.toNat % 4096 ≠ 0 then
    panic "loaduvm: addr must be page aligned"
  else
    loaduvmLoop d addr ip offset sz (2 ^ 20) 0

/-- Make the page at `uva` inaccessible from user mode. -/
def clearpteu (d : PgDir) (uva : Word) : RamM PgDir :=
  match d.walk uva with
  | none => panic "clearpteu"
  | some pte => pure (d.setPte (vpn uva) (pte &&& ~~~PTE_U))

/-- The entry that `*walkpgdir(d, uva, 0)` reads, with the program `null` for the read through a null pointer
when there is no page table. -/
def entryWith (null : K Word) (d : PgDir) (uva : Word) : K Word :=
  match d.walk uva with
  | some pte => pure pte
  | none => null

/-- Map a user virtual address to a kernel address. -/
def uva2ka (null : K Word) (d : PgDir) (uva : Word) : K Word := do
  let pte ← entryWith null d uva
  if !hasFlag pte PTE_P then pure 0
  else if !hasFlag pte PTE_U then pure 0
  else pure (P2V (pteAddr pte))

/-- Copy the bytes `buf` to user address `va` in `d`. `fuel` is at least the number of bytes. -/
def copyoutWith (null : K Word) (d : PgDir) : Nat → Word → Bytes → K Bool
  | 0, _, _ => pure true
  | fuel + 1, va, buf =>
    if buf.length = 0 then
      pure true
    else do
      let va0 := pgRoundDown va
      let pa0 ← uva2ka null d va0
      if pa0 = 0 then
        pure false
      else do
        let n := min (4096 - (va - va0).toNat) buf.length
        onRam (storeBytes (pa0 + (va - va0)) (buf.take n))
        copyoutWith null d fuel (va0 + PGSIZE) (buf.drop n)

/-- What the kernel finds through a null pointer: the word at address `0` of the running process. -/
def nullEntry (p : Fin NPROC) : K Word := do
  let s ← get
  if (s.proc p).pgdir.access 0 false false then pure (s.userWord p 0) else throw .loop

def copyout (p : Fin NPROC) (d : PgDir) : Nat → Word → Bytes → K Bool := copyoutWith (nullEntry p) d

/-! ## `growproc` -/

def switchuvm (p : Fin NPROC) : K Unit := do
  let s ← get
  if (s.proc p).kstack = 0 then
    panic "switchuvm: no kstack"
  else if (s.proc p).pgdir.page = 0 then
    panic "switchuvm: no pgdir"
  else
    pure ()

def setSize (p : Fin NPROC) (sz : Word) : K Unit :=
  modify fun s => s.updProc p fun q => { q with sz := sz }

/-- What both branches of `growproc` do with the result of `allocuvm` or `deallocuvm`. -/
def resize (p : Fin NPROC) (r : Word × PgDir) : K Word := do
  setPgdir p r.2
  if r.1 = 0 then
    pure (-1)
  else do
    setSize p r.1
    switchuvm p
    pure 0

/-- Grow current process's memory by `n` bytes. Return `0` on success, `-1` on failure. -/
def growproc (p : Fin NPROC) (n : Word) : K Word := do
  let s ← get
  let sz := (s.proc p).sz
  if (0 : Word).slt n then do
    let r ← onRam (allocuvm (s.proc p).pgdir sz (sz + n))
    resize p r
  else if n.slt 0 then do
    let r ← onRam (deallocuvm (s.proc p).pgdir sz (sz + n))
    resize p r
  else do
    setSize p sz
    switchuvm p
    pure 0

/-! ## The program file -/

def ELF_MAGIC : Word := 0x464C457F
def ELF_PROG_LOAD : Word := 1
def MAXARG : Nat := 32

/-- The 32-bit number at byte `k`. -/
def word (bs : Bytes) (k : Nat) : Word :=
  bs.getD (k + 3) 0 ++ bs.getD (k + 2) 0 ++ bs.getD (k + 1) 0 ++ bs.getD k 0

/-- The fields of `struct elfhdr` that `exec` reads. -/
structure Elfhdr where
  magic : Word
  phoff : Word
  phnum : Nat

/-- The fields of `struct proghdr` that `exec` reads. -/
structure Proghdr where
  type : Word
  off : Word
  vaddr : Word
  filesz : Word
  memsz : Word

def Elfhdr.decode (bs : Bytes) : Elfhdr where
  magic := word bs 0
  phoff := word bs 28
  phnum := (bs.getD 45 0 ++ bs.getD 44 0).toNat

def Proghdr.decode (bs : Bytes) : Proghdr where
  type := word bs 0
  off := word bs 4
  vaddr := word bs 8
  filesz := word bs 16
  memsz := word bs 20

/-- `readi(ip, dst, off, n) != n` is `none`. -/
def readAll (ip : Inode) (off : Word) (n : Nat) : Option Bytes :=
  (readi ip off n).filter fun bs => bs.length = n

/-! ## `exec` -/

/-- The label `bad`. -/
def bad (pgdir : Option PgDir) (ip : Option Nat) : K Word := do
  pgdir.forM fun d => onRam (freevm d)
  ip.forM fun n => do
    iunlock n
    iput n
    endOp
  pure (-1)

/-- One segment of the program. The first component is `false` for `goto bad`. -/
def loadSegment (ip : Inode) (ph : Proghdr) (d : PgDir) (sz : Word) : RamM (Bool × PgDir × Word) :=
  if ph.memsz.ult ph.filesz then
    pure (false, d, sz)
  else if (ph.vaddr + ph.memsz).ult ph.vaddr then
    pure (false, d, sz)
  else do
    let r ← allocuvm d sz (ph.vaddr + ph.memsz)
    if r.1 = 0 then
      pure (false, r.2, 0)
    else if ph.vaddr.toNat % 4096 ≠ 0 then
      pure (false, r.2, r.1)
    else do
      let ok ← loaduvm r.2 ph.vaddr ip ph.off ph.filesz
      pure (ok, r.2, r.1)

/-- The loop over the program headers, with `n` of them to go and the next one at `off`. -/
def loadSegments (ip : Inode) : Nat → Word → PgDir → Word → RamM (Bool × PgDir × Word)
  | 0, _, d, sz => pure (true, d, sz)
  | n + 1, off, d, sz =>
    match readAll ip off 32 with
    | none => pure (false, d, sz)
    | some bs =>
      if (Proghdr.decode bs).type ≠ ELF_PROG_LOAD then
        loadSegments ip n (off + 32) d sz
      else do
        let r ← loadSegment ip (Proghdr.decode bs) d sz
        if r.1 then loadSegments ip n (off + 32) r.2.1 r.2.2 else pure r

/-- The argument strings, each with the bytes before its zero. -/
abbrev Argv := List Bytes

/-- Push the argument strings; the result is the stack pointer and the addresses of the strings, `none`
for `goto bad`. -/
def pushArgs (p : Fin NPROC) (d : PgDir) : Argv → Nat → Word → List Word →
    K (Option (Word × List Word))
  | [], _, sp, ustack => pure (some (sp, ustack))
  | arg :: argv, argc, sp, ustack =>
    if MAXARG ≤ argc then
      pure none
    else do
      let sp := (sp - .ofNat 32 (arg.length + 1)) &&& ~~~3
      if ← copyout p d (arg.length + 1) sp (arg ++ [0]) then
        pushArgs p d argv (argc + 1) sp (ustack ++ [sp])
      else
        pure none

/-- A 32-bit number as it is in memory. -/
def wordBytes (w : Word) : Bytes :=
  [w.extractLsb' 0 8, w.extractLsb' 8 8, w.extractLsb' 16 8, w.extractLsb' 24 8]

/-- The stack of the new program: the strings, and below them `ustack`. -/
def pushStack (p : Fin NPROC) (d : PgDir) (argv : Argv) (sz : Word) : K Bool := do
  match ← pushArgs p d argv 0 sz [] with
  | none => pure false
  | some (sp, args) => do
    let argc := args.length
    let ustack := [0xFFFFFFFF, .ofNat 32 argc, sp - .ofNat 32 ((argc + 1) * 4)] ++ args ++ [0]
    let bytes := ustack.flatMap wordBytes
    copyout p d bytes.length (sp - .ofNat 32 ((3 + argc + 1) * 4)) bytes

/-- Commit to the user image. -/
def commit (p : Fin NPROC) (d : PgDir) (sz : Word) : K Word := do
  let s ← get
  setPgdir p d
  setSize p sz
  switchuvm p
  onRam (freevm (s.proc p).pgdir)
  pure 0

/-- The part of `exec` after the program was loaded: two pages for the stack, of which the first is made
inaccessible. -/
def execStack (p : Fin NPROC) (argv : Argv) (d : PgDir) (sz : Word) : K Word := do
  let r ← onRam (allocuvm d (pgRoundUp sz) (pgRoundUp sz + 2 * PGSIZE))
  if r.1 = 0 then
    bad (some r.2) none
  else do
    let d ← onRam (clearpteu r.2 (r.1 - 2 * PGSIZE))
    if ← pushStack p d argv r.1 then commit p d r.1 else bad (some d) none

/-- The part of `exec` that loads the program, with the inode locked. -/
def execLoad (p : Fin NPROC) (n : Nat) (argv : Argv) (ip : Inode) : K Word :=
  match readAll ip 0 52 with
  | none => bad none (some n)
  | some bs =>
    if (Elfhdr.decode bs).magic ≠ ELF_MAGIC then
      bad none (some n)
    else do
      match ← onRam setupkvm with
      | none => bad none (some n)
      | some d => do
        let r ← onRam (loadSegments ip (Elfhdr.decode bs).phnum (Elfhdr.decode bs).phoff d 0)
        if r.1 then do
          iunlock n
          iput n
          endOp
          execStack p argv r.2.1 r.2.2
        else
          bad (some r.2.1) (some n)

/-- `exec(path, argv)`. `path` is the inode that `namei` finds, with a reference taken. -/
def exec (p : Fin NPROC) (path : Option Nat) (argv : Argv) : K Word := do
  beginOp
  match path with
  | none => do
    endOp
    pure (-1)
  | some n => do
    modify fun s => s.updInode n fun ip => { ip with ref := ip.ref + 1 }
    ilock n
    let s ← get
    match (s.fs.inode n).type with
    | .dev major =>
      -- the first `readi` goes to the device
      if major = CONSOLE then throw .sleep else bad none (some n)
    | _ => execLoad p n argv (s.fs.inode n)

end Xv6.Exec
