import Xv6.Vm

/-!
# Files, pipes and inodes

`file.c`, and what it uses of `pipe.c`, `fs.c` and `log.c`. A file's content is the list of its bytes;
`readi` and `writei` keep the checks in front of the copying. Of the log only the `wakeup` of `end_op`
remains. It takes `ptable.lock`, and `acquire` panics on a lock that the CPU already holds.
-/

namespace Xv6

/-- `wakeup(chan)`. No process sleeps between two operations, so only the lock matters. -/
def wakeup : K Unit := do
  let s ← get
  if s.ptableLock then panic "acquire" else pure ()

def beginOp : K Unit := pure ()
def endOp : K Unit := wakeup

/-! ## Inodes -/

def ilock (n : Nat) : K Unit := do
  let s ← get
  if (s.fs.inode n).ref < 1 then
    panic "ilock"
  else if n ∈ s.fs.ilocks then
    throw .deadlock
  else if (s.fs.inode n).type = .free then
    panic "ilock: no type"
  else
    modify fun s => { s with fs := { s.fs with ilocks := n :: s.fs.ilocks } }

def iunlock (n : Nat) : K Unit := do
  let s ← get
  if n ∉ s.fs.ilocks ∨ (s.fs.inode n).ref < 1 then
    panic "iunlock"
  else do
    modify fun s => { s with fs := { s.fs with ilocks := s.fs.ilocks.erase n } }
    wakeup

/-- `itrunc` and the release of the inode, when `iput` drops the last reference and there is no link. -/
def Inode.put (ip : Inode) : Inode :=
  if ip.nlink = 0 ∧ ip.ref = 1 then { ip with type := .free, data := [] } else ip

/-- Drop a reference. The last one of an inode without links frees the inode and its content. -/
def iput (n : Nat) : K Unit := do
  let s ← get
  if n ∈ s.fs.ilocks then
    throw .deadlock
  else do
    modify fun s => s.updInode n Inode.put
    wakeup
    modify fun s => s.updInode n fun ip => { ip with ref := ip.ref - 1 }

/-- The bytes that `readi` copies; `none` is its `-1`. -/
def readi (ip : Inode) (off : Word) (n : Nat) : Option Bytes :=
  if ip.data.length < off.toNat ∨ 2 ^ 32 ≤ off.toNat + n then none
  else some ((ip.data.drop off.toNat).take n)

/-- The checks at the head of `writei`. -/
def writeiOk (ip : Inode) (off : Word) (n : Nat) : Bool :=
  off.toNat ≤ ip.data.length && off.toNat + n < 2 ^ 32 && off.toNat + n ≤ MAXFILE * BSIZE

/-- The content after `src` was copied to offset `off`. -/
def splice (data : Bytes) (off : Nat) (src : Bytes) : Bytes :=
  data.take off ++ src ++ data.drop (off + src.length)

/-! ## Pipes -/

def pipeclose (pg : Word) (writable : Bool) : K Unit := do
  modify fun s =>
    let pi := s.fs.pipe pg
    let pi := if writable then { pi with writeopen := false } else { pi with readopen := false }
    { s with fs := { s.fs with pipe := Function.update s.fs.pipe pg pi } }
  wakeup
  let s ← get
  if !(s.fs.pipe pg).readopen && !(s.fs.pipe pg).writeopen then
    onRam (kfree pg)
  else
    pure ()

/-- `piperead` by process `p`: what is in the buffer, at most `n` bytes. -/
def piperead (p : Fin NPROC) (pg : Word) (n : Nat) : K (Option Bytes) := do
  let s ← get
  let pi := s.fs.pipe pg
  if pi.data = [] ∧ pi.writeopen then
    if (s.proc p).killed then pure none else throw .sleep
  else do
    modify fun s =>
      { s with fs := { s.fs with
        pipe := Function.update s.fs.pipe pg { pi with data := pi.data.drop n } } }
    wakeup
    pure (some (pi.data.take n))

/-! ## `file.c` -/

/-- The first file structure with `ref == 0` is taken. -/
def filealloc : K (Option (Fin NFILE)) := do
  let s ← get
  match (List.finRange NFILE).find? fun f => (s.fs.file f).ref == 0 with
  | none => pure none
  | some f => do
    modify fun s => s.updFile f fun x => { x with ref := 1 }
    pure (some f)

def filedup (f : Fin NFILE) : K Unit := do
  let s ← get
  if (s.fs.file f).ref < 1 then
    panic "filedup"
  else
    modify fun s => s.updFile f fun x => { x with ref := x.ref + 1 }

def fileclose (f : Fin NFILE) : K Unit := do
  let s ← get
  let ff := s.fs.file f
  if ff.ref < 1 then
    panic "fileclose"
  else if 1 < ff.ref then
    modify fun s => s.updFile f fun x => { x with ref := x.ref - 1 }
  else do
    modify fun s => s.updFile f fun x => { x with ref := 0, type := .none }
    match ff.type with
    | .none => pure ()
    | .pipe => pipeclose ff.pipe ff.writable
    | .inode => do
      beginOp
      iput ff.ip
      endOp

/-- `f->off += r` after `readi` returned the bytes `r`. -/
def File.advance (x : File) (r : Option Bytes) : File :=
  match r with
  | none => x
  | some bs => { x with off := x.off + BitVec.ofNat 32 bs.length }

/-- `fileread` by process `p`, with the bytes it copies out as the result. -/
def fileread (p : Fin NPROC) (f : Fin NFILE) (n : Nat) : K (Option Bytes) := do
  let s ← get
  let ff := s.fs.file f
  if !ff.readable then
    pure none
  else
    match ff.type with
    | .none => panic "fileread"
    | .pipe => piperead p ff.pipe n
    | .inode => do
      ilock ff.ip
      match (s.fs.inode ff.ip).type with
      | .dev major =>
        -- `consoleread` waits for a line to be typed
        if major = CONSOLE then
          throw .sleep
        else do
          iunlock ff.ip
          pure none
      | _ => do
        let r := readi (s.fs.inode ff.ip) ff.off n
        modify fun s => s.updFile f fun x => x.advance r
        iunlock ff.ip
        pure r

def mmapRead (p : Fin NPROC) (f : Fin NFILE) (n : Nat) : K (Option Bytes) := do
  modify fun s => s.updFile f fun x => { x with off := 0 }
  fileread p f n

end Xv6
