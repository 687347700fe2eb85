import Xv6.Lib.Hoare
import Xv6.Mmu

/-!
# Blocks and inodes

The lower half of `fs.c`: block allocation, inodes and their content. The disk is seen with what is in the
log already in place. A block is a sequence of bytes; the inode blocks and the free bit map are kept by inode
and by block number. An inode is in the cache under its number. Its in-memory copy `copy` goes to the disk
with `iupdate` only.
-/

namespace Xv6.Store

open Function (update)

def BSIZE : Nat := 512
def NDIRECT : Nat := 12
def NINDIRECT : Nat := BSIZE / 4
def MAXFILE : Nat := NDIRECT + NINDIRECT
def NINODE : Nat := 50

def T_DIR : Nat := 1
def T_FILE : Nat := 2
def T_DEV : Nat := 3

/-- A block; only the first `BSIZE` bytes are used. -/
abbrev Block := Nat → Byte

/-- The integer at index `j` of a block. -/
def word (blk : Block) (j : Nat) : Nat :=
  (blk (4 * j)).toNat + 256 * ((blk (4 * j + 1)).toNat + 256 * ((blk (4 * j + 2)).toNat +
    256 * (blk (4 * j + 3)).toNat))

/-- Store `v` there. -/
def putWord (blk : Block) (j v : Nat) : Block := fun x =>
  if x / 4 = j then BitVec.ofNat 8 (v / 256 ^ (x % 4)) else blk x

/-- `struct dinode`; `type` is `0` when the inode is free. `nlink` is a `short`: fewer than `2 ^ 15` entries
fit into `FSSIZE` blocks. -/
structure Dinode where
  type : Nat := 0
  major : Nat := 0
  minor : Nat := 0
  nlink : Int := 0
  size : Nat := 0
  addrs : Fin (NDIRECT + 1) → Nat := fun _ => 0

/-- The addresses of a file whose only block is `b`. -/
def oneBlock (b : Nat) (k : Fin (NDIRECT + 1)) : Nat := if k = 0 then b else 0

/-- `struct inode`. -/
structure Cached where
  ref : Nat := 0
  locked : Bool := false
  valid : Bool := false
  copy : Dinode := {}

/-- The fields of the superblock that are used, and the number of blocks before the first data block. -/
structure Superblock where
  size : Nat
  ninodes : Nat
  nmeta : Nat
  size_lt : size < 2 ^ 32
  /-- Inode numbers fit into a directory entry. -/
  ninodes_le : ninodes ≤ 2 ^ 16
  nmeta_pos : 0 < nmeta

structure Disk where
  bitmap : Nat → Bool
  blocks : Nat → Block
  dinode : Nat → Dinode
  icache : Nat → Cached

inductive Stop where
  | panic (msg : String)
  /-- A sleeping lock that the process holds already. -/
  | deadlock
  /-- A device driver takes over. -/
  | device
  deriving DecidableEq, Repr

abbrev DiskM := EStateM Stop Disk

def panic {α : Type} (msg : String) : DiskM α := throw (.panic msg)

def Disk.updInode (s : Disk) (i : Nat) (f : Cached → Cached) : Disk :=
  { s with icache := update s.icache i (f (s.icache i)) }

def Disk.updCopy (s : Disk) (i : Nat) (f : Dinode → Dinode) : Disk :=
  s.updInode i fun ip => { ip with copy := f ip.copy }

/-- Block `b` is marked and filled with zeros. -/
def Disk.alloc (s : Disk) (b : Nat) : Disk :=
  { s with
    bitmap := update s.bitmap b true
    blocks := update s.blocks b fun _ => 0 }

def Disk.setBlock (s : Disk) (b : Nat) (blk : Block) : Disk :=
  { s with blocks := update s.blocks b blk }

/-- `ip->addrs[k] = b`. -/
def Disk.setAddr (s : Disk) (i : Nat) (k : Fin (NDIRECT + 1)) (b : Nat) : Disk :=
  s.updCopy i fun d => { d with addrs := update d.addrs k b }

/-! ## Blocks -/

variable (sb : Superblock)

/-- Allocate a zeroed disk block: the first one that is not marked. -/
def balloc : DiskM Nat := do
  let s ← get
  match (List.range sb.size).find? fun b => !s.bitmap b with
  | none => panic "balloc: out of blocks"
  | some b => do
    set (s.alloc b)
    pure b

/-- Free a disk block. -/
def bfree (b : Nat) : DiskM Unit := do
  let s ← get
  if !s.bitmap b then
    panic "freeing free block"
  else
    set { s with bitmap := update s.bitmap b false }

/-! ## Inodes -/

/-- Copy a modified in-memory inode to disk. -/
def iupdate (i : Nat) : DiskM Unit :=
  modify fun s => { s with dinode := update s.dinode i (s.icache i).copy }

/-- How many entries of the inode cache are in use. -/
def Disk.cached (s : Disk) : Nat := ((List.range sb.ninodes).filter fun i => 0 < (s.icache i).ref).length

/-- Find the inode in the cache, or recycle an entry for it. -/
def iget (i : Nat) : DiskM Unit := do
  let s ← get
  if 0 < (s.icache i).ref then
    set (s.updInode i fun ip => { ip with ref := ip.ref + 1 })
  else if NINODE ≤ s.cached sb then
    panic "iget: no inodes"
  else
    set (s.updInode i fun ip => { ip with ref := 1, valid := false })

def idup (i : Nat) : DiskM Unit :=
  modify fun s => s.updInode i fun ip => { ip with ref := ip.ref + 1 }

/-- Allocate an inode: the first one that is free on the disk. -/
def ialloc (type : Nat) : DiskM Nat := do
  let s ← get
  match (List.range sb.ninodes).find? fun i => i ≠ 0 && (s.dinode i).type == 0 with
  | none => panic "ialloc: no inodes"
  | some i => do
    set { s with dinode := update s.dinode i { type := type } }
    iget sb i
    pure i

/-- Lock the given inode, and read it from disk if necessary. -/
def ilock (i : Nat) : DiskM Unit := do
  let s ← get
  if (s.icache i).ref < 1 then
    panic "ilock"
  else if (s.icache i).locked then
    throw .deadlock
  else if (s.icache i).valid then
    set (s.updInode i fun ip => { ip with locked := true })
  else do
    set (s.updInode i fun ip => { ip with locked := true, valid := true, copy := s.dinode i })
    if (s.dinode i).type = 0 then panic "ilock: no type" else pure ()

def iunlock (i : Nat) : DiskM Unit := do
  let s ← get
  if !(s.icache i).locked || (s.icache i).ref < 1 then
    panic "iunlock"
  else
    set (s.updInode i fun ip => { ip with locked := false })

/-! ## Inode content -/

/-- The address in `addrs[k]`, allocated if there is none. -/
def bmapAddr (i : Nat) (k : Fin (NDIRECT + 1)) : DiskM Nat := do
  let s ← get
  if (s.icache i).copy.addrs k = 0 then do
    let b ← balloc sb
    modify fun s => s.setAddr i k b
    pure b
  else
    pure ((s.icache i).copy.addrs k)

/-- The disk block address of block `bn` of the inode, allocated if there is none. -/
def bmap (i bn : Nat) : DiskM Nat := do
  if h : bn < NDIRECT then
    bmapAddr sb i ⟨bn, Nat.lt_succ_of_lt h⟩
  else if bn - NDIRECT < NINDIRECT then do
    let a ← bmapAddr sb i (Fin.last NDIRECT)
    let s ← get
    if word (s.blocks a) (bn - NDIRECT) = 0 then do
      let b ← balloc sb
      modify fun s => s.setBlock a (putWord (s.blocks a) (bn - NDIRECT) b)
      pure b
    else
      pure (word (s.blocks a) (bn - NDIRECT))
  else
    panic "bmap: out of range"

/-- The loop of `readi`, with `n` bytes left from `off` on. Every turn reads at least one byte. -/
def readLoop (i : Nat) : (fuel off n : Nat) → DiskM Bytes
  | 0, _, _ => pure []
  | fuel + 1, off, n =>
    if n = 0 then
      pure []
    else do
      let b ← bmap sb i (off / BSIZE)
      let s ← get
      let m := min n (BSIZE - off % BSIZE)
      let rest ← readLoop i fuel (off + m) (n - m)
      pure ((List.range m).map (fun x => s.blocks b (off % BSIZE + x)) ++ rest)

/-- Read `n` bytes from `off` on, as far as there are. -/
def readi (i off n : Nat) : DiskM (Option Bytes) := do
  let s ← get
  let ip := (s.icache i).copy
  if ip.type = T_DEV then
    if ip.major = CONSOLE then throw .device else pure none
  else if ip.size < off ∨ (off + n) % 2 ^ 32 < off then
    pure none
  else do
    let n := if ip.size < off + n then ip.size - off else n
    let bytes ← readLoop sb i n off n
    pure (some bytes)

/-- `memmove(bp->data + off % BSIZE, src, m)`. -/
def putBytes (blk : Block) (x : Nat) (src : Bytes) : Block := fun y =>
  if x ≤ y ∧ y < x + src.length then src.getD (y - x) 0 else blk y

/-- The loop of `writei`, with `src` left to be written from `off` on. -/
def writeLoop (i : Nat) : (fuel off : Nat) → (src : Bytes) → DiskM Unit
  | 0, _, _ => pure ()
  | fuel + 1, off, src =>
    if src.length = 0 then
      pure ()
    else do
      let b ← bmap sb i (off / BSIZE)
      let m := min src.length (BSIZE - off % BSIZE)
      modify fun s => s.setBlock b (putBytes (s.blocks b) (off % BSIZE) (src.take m))
      writeLoop i fuel (off + m) (src.drop m)

/-- Write `src` from `off` on. -/
def writei (i off : Nat) (src : Bytes) : DiskM (Option Nat) := do
  let s ← get
  let ip := (s.icache i).copy
  if ip.type = T_DEV then
    if ip.major = CONSOLE then throw .device else pure none
  else if ip.size < off ∨ (off + src.length) % 2 ^ 32 < off then
    pure none
  else if MAXFILE * BSIZE < (off + src.length) % 2 ^ 32 then
    pure none
  else do
    writeLoop sb i src.length off src
    let s ← get
    if 0 < src.length ∧ (s.icache i).copy.size < off + src.length then do
      modify fun s => s.updCopy i fun d => { d with size := off + src.length }
      iupdate i
      pure (some src.length)
    else
      pure (some src.length)

/-- Discard the content of an inode. -/
def itrunc (i : Nat) : DiskM Unit := do
  (List.finRange NDIRECT).forM fun k => do
    let s ← get
    if (s.icache i).copy.addrs k.castSucc ≠ 0 then do
      bfree ((s.icache i).copy.addrs k.castSucc)
      modify fun s => s.setAddr i k.castSucc 0
    else
      pure ()
  let s ← get
  let a := (s.icache i).copy.addrs (Fin.last NDIRECT)
  if a ≠ 0 then do
    (List.range NINDIRECT).forM fun j =>
      if word (s.blocks a) j ≠ 0 then bfree (word (s.blocks a) j) else pure ()
    bfree a
    modify fun s => s.setAddr i (Fin.last NDIRECT) 0
  else
    pure ()
  modify fun s => s.updCopy i fun d => { d with size := 0 }
  iupdate i

/-- Drop a reference; the last one to an inode without links frees it. -/
def iput (i : Nat) : DiskM Unit := do
  let s ← get
  if (s.icache i).locked then
    throw .deadlock
  else do
    if (s.icache i).valid && (s.icache i).copy.nlink == 0 && (s.icache i).ref == 1 then do
      itrunc i
      modify fun s => s.updCopy i fun d => { d with type := 0 }
      iupdate i
      modify fun s => s.updInode i fun ip => { ip with valid := false }
    else
      pure ()
    modify fun s => s.updInode i fun ip => { ip with ref := ip.ref - 1 }

end Xv6.Store
