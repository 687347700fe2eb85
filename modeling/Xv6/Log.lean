import Xv6.Lib.Crash
import Xv6.Mmu

/-!
# The log

`log.c`: the log on the disk, how a transaction is committed to it and how it is replayed. The log is a
header block, which lists the home blocks of a transaction, and their new contents.

The power can fail before each write of a block: `fuel` is the number of writes that the disk still takes.
The buffer cache is what `bread` returns. A buffer that is not `B_DIRTY` has the contents of its block, so it
does not matter when it is evicted.
-/

namespace Xv6.Log

open Function (update)

def LOGSIZE : Nat := MAXOPBLOCKS * 3

/-- A block of `BSIZE` bytes, as the integers that the log header is made of. -/
abbrev Block := Fin 128 → Word

inductive Stop where
  /-- The power fails. -/
  | powerCut
  /-- An access outside of `lh.block`. -/
  | wild
  deriving DecidableEq, Repr

structure Machine where
  disk : Word → Block
  /-- What `bread` returns. -/
  cache : Word → Block
  /-- `log.lh.block[0..n)`. -/
  lh : List Word
  /-- The number of writes the disk takes before the power fails. -/
  fuel : Nat

abbrev LogM := EStateM Stop Machine

/-- `log.start` and `log.size`, from the superblock. -/
structure Layout where
  start : Word
  size : Nat
  size_lt : size < 2 ^ 31

/-! ## Blocks -/

def bread (b : Word) : LogM Block := do
  let s ← get
  pure (s.cache b)

/-- Block `b` in the cache and on the disk becomes `data`. -/
def Machine.write (s : Machine) (b : Word) (data : Block) : Machine :=
  { s with
    disk := update s.disk b data
    cache := update s.cache b data
    fuel := s.fuel - 1 }

/-- `bwrite` of the buffer of block `b`, whose data is `data` by then. -/
def bwrite (b : Word) (data : Block) : LogM Unit := do
  let s ← get
  if s.fuel = 0 then throw .powerCut else set (s.write b data)

section
variable (s : Machine) (b : Word) (data : Block)

@[simp] theorem write_disk : (s.write b data).disk = update s.disk b data := rfl

@[simp] theorem write_cache : (s.write b data).cache = update s.cache b data := rfl

@[simp] theorem write_fuel : (s.write b data).fuel = s.fuel - 1 := rfl

end

/-- The log block for entry `tail` of the header. -/
def Layout.block (L : Layout) (tail : Nat) : Word := L.start + .ofNat 32 tail + 1

/-! ## The header -/

/-- The entries of a header block. -/
def entries (hb : Block) : List Word :=
  ((List.finRange LOGSIZE).take (hb 0).toNat).map fun i => hb ⟨i.val + 1, by
    have := i.isLt
    unfold LOGSIZE MAXOPBLOCKS at this
    omega⟩

/-- The block after the entries of `lh` were stored in it; the rest stays as it was. -/
def putEntries (lh : List Word) (hb : Block) : Block := fun i =>
  if i.val = 0 then .ofNat 32 lh.length else lh.getD (i.val - 1) (hb i)

/-- Read the log header from disk into the in-memory log header. -/
def readHead (L : Layout) : LogM Unit := do
  let buf ← bread L.start
  if (buf 0).slt 0 then
    modify fun s => { s with lh := [] }
  else if LOGSIZE < (buf 0).toNat then
    throw .wild
  else
    modify fun s => { s with lh := entries buf }

/-- Write in-memory log header to disk. -/
def writeHead (L : Layout) : LogM Unit := do
  let buf ← bread L.start
  let s ← get
  bwrite L.start (putEntries s.lh buf)

/-! ## Transactions -/

/-- Copy committed blocks from log to their home location. -/
def installTrans (L : Layout) : LogM Unit := do
  let s ← get
  s.lh.zipIdx.forM fun x => do
    let lbuf ← bread (L.block x.2)
    bwrite x.1 lbuf

/-- Copy modified blocks from cache to log. -/
def writeLog (L : Layout) : LogM Unit := do
  let s ← get
  s.lh.zipIdx.forM fun x => do
    let buf ← bread x.1
    bwrite (L.block x.2) buf

def recoverFromLog (L : Layout) : LogM Unit := do
  readHead L
  installTrans L
  modify fun s => { s with lh := [] }
  writeHead L

def commit (L : Layout) : LogM Unit := do
  let s ← get
  if 0 < s.lh.length then do
    writeLog L
    writeHead L
    installTrans L
    modify fun s => { s with lh := [] }
    writeHead L
  else
    pure ()

/-- The machine starts again: nothing is left but the disk, which takes `k` writes this time. -/
def reboot (k : Nat) (s : Machine) : Machine where
  disk := s.disk
  cache := s.disk
  lh := []
  fuel := k

/-- What `log_write` does to the list: a block that is in it already is absorbed. -/
def absorb (lh : List Word) (b : Word) : List Word := if b ∈ lh then lh else lh ++ [b]

end Xv6.Log
