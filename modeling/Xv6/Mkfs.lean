import Xv6.Image
import Xv6.Lib.Layout
import Xv6.Names

/-!
# `mkfs`

`mkfs.c` with the bytes it writes. The image is a row of blocks; `mount` is the disk as the kernel sees it. An
input file is given by its name on the command line and by what the calls of `read` return, up to the one
that returns `0`. All of them can be opened, and no call of `lseek` or `write` fails.
-/

namespace Xv6.Mkfs

export Store (BSIZE NDIRECT NINDIRECT MAXFILE)
open Store (Block Dinode Disk word putWord putBytes T_DIR T_FILE)
open Calls (ROOTINO direntBytes slash)
open Log (LOGSIZE)

def FSSIZE : Nat := 1000
def NINODES : Nat := 200

/-- `sizeof(struct dinode)` -/
def DINODE : Nat := 64

/-- Inodes per block. -/
def IPB : Nat := BSIZE / DINODE

/-- Bitmap bits per block. -/
def BPB : Nat := BSIZE * 8

def nbitmap : Nat := FSSIZE / (BSIZE * 8) + 1
def ninodeblocks : Nat := NINODES / IPB + 1
def nlog : Nat := LOGSIZE
def nmeta : Nat := 2 + nlog + ninodeblocks + nbitmap
def nblocks : Nat := FSSIZE - nmeta

/-! ## Records on the disk -/

/-- The `n` bytes of a block from `x` on. -/
def bytesAt (blk : Block) (x n : Nat) : Bytes := (List.range n).map fun y => blk (x + y)

/-- `struct superblock` -/
structure Super where
  size : Nat
  nblocks : Nat
  ninodes : Nat
  nlog : Nat
  logstart : Nat
  inodestart : Nat
  bmapstart : Nat
  deriving DecidableEq

def Super.widths : List Nat := List.replicate 7 4

def Super.values (sb : Super) : List Nat :=
  [sb.size, sb.nblocks, sb.ninodes, sb.nlog, sb.logstart, sb.inodestart, sb.bmapstart]

def Super.ofValues (l : List Nat) : Super :=
  ⟨l.getD 0 0, l.getD 1 0, l.getD 2 0, l.getD 3 0, l.getD 4 0, l.getD 5 0, l.getD 6 0⟩

def Super.toBytes (sb : Super) : Bytes := Layout.encode (Super.widths.zip sb.values)

/-- `short type, major, minor, nlink; uint size; uint addrs[NDIRECT+1]` -/
def dinodeWidths : List Nat := [2, 2, 2, 2, 4] ++ List.replicate (NDIRECT + 1) 4

/-- The link count is signed. -/
def dinodeValues (d : Dinode) : List Nat :=
  [d.type, d.major, d.minor, (d.nlink % 2 ^ 16).toNat, d.size] ++ List.ofFn d.addrs

def dinodeOfValues (l : List Nat) : Dinode where
  type := l.getD 0 0
  major := l.getD 1 0
  minor := l.getD 2 0
  nlink := if l.getD 3 0 < 2 ^ 15 then l.getD 3 0 else l.getD 3 0 - 2 ^ 16
  size := l.getD 4 0
  addrs k := l.getD (5 + k) 0

def dinodeToBytes (d : Dinode) : Bytes := Layout.encode (dinodeWidths.zip (dinodeValues d))

/-- Inode `n` of a block of inodes. -/
def dinodeAt (blk : Block) (n : Nat) : Dinode :=
  dinodeOfValues (Layout.decode dinodeWidths (bytesAt blk (DINODE * n) DINODE))

/-- `((struct dinode*)buf)[n] = d` -/
def putDinode (blk : Block) (n : Nat) (d : Dinode) : Block := putBytes blk (DINODE * n) (dinodeToBytes d)

/-- `1 << (bi % 8)` -/
def mask (bi : Nat) : Byte := 1#8 <<< (bi % 8)

/-! ## The image -/

/-- `fs.img`, of which the first `size` blocks are there, and the global variables. -/
structure Image where
  size : Nat := 0
  sectors : Nat → Block := fun _ _ => 0
  freeinode : Nat := 1
  freeblock : Nat := nmeta

inductive Exit where
  /-- `exit(1)`, after a message. -/
  | error (msg : String)
  /-- An `assert` that does not hold. -/
  | abort
  deriving DecidableEq

abbrev MkfsM := EStateM Exit Image

def assert (c : Bool) : MkfsM Unit := if c then pure () else throw .abort

def sb : Super where
  size := FSSIZE
  nblocks := nblocks
  ninodes := NINODES
  nlog := nlog
  logstart := 2
  inodestart := 2 + nlog
  bmapstart := 2 + nlog + ninodeblocks

/-- Block containing inode `i`. -/
def IBLOCK (i : Nat) (sb : Super) : Nat := i / IPB + sb.inodestart

/-- Block of free map containing the bit for block `b`. -/
def BBLOCK (b : Nat) (sb : Super) : Nat := b / BPB + sb.bmapstart

def zeroes : Block := fun _ => 0

/-- A block behind the end makes the image longer. -/
def wsect (sec : Nat) (buf : Block) : MkfsM Unit :=
  modify fun m =>
    { m with size := max m.size (sec + 1), sectors := Function.update m.sectors sec buf }

def rsect (sec : Nat) : MkfsM Block := do
  let m ← get
  if sec < m.size then pure (m.sectors sec) else throw (.error "read")

def winode (inum : Nat) (ip : Dinode) : MkfsM Unit := do
  let buf ← rsect (IBLOCK inum sb)
  wsect (IBLOCK inum sb) (putDinode buf (inum % IPB) ip)

def rinode (inum : Nat) : MkfsM Dinode := do
  let buf ← rsect (IBLOCK inum sb)
  pure (dinodeAt buf (inum % IPB))

def ialloc (type : Nat) : MkfsM Nat := do
  let m ← get
  set { m with freeinode := m.freeinode + 1 }
  winode m.freeinode { type := type, nlink := 1 }
  pure m.freeinode

/-- The loop of `balloc`. -/
def bitmapBlock (used : Nat) : Block :=
  (List.range used).foldl (fun buf i => Function.update buf (i / 8) (buf (i / 8) ||| mask i)) zeroes

def balloc (used : Nat) : MkfsM Unit := do
  assert (used < BSIZE * 8)
  wsect sb.bmapstart (bitmapBlock used)

/-- `freeblock++` -/
def nextBlock : MkfsM Nat := do
  let m ← get
  set { m with freeblock := m.freeblock + 1 }
  pure m.freeblock

/-- `if(din.addrs[k] == 0) din.addrs[k] = freeblock++` -/
def addrFor (din : Dinode) (k : Fin (NDIRECT + 1)) : MkfsM Dinode :=
  if din.addrs k = 0 then do
    let b ← nextBlock
    pure { din with addrs := Function.update din.addrs k b }
  else
    pure din

/-- `indirect[j]`, allocated if there is none. -/
def entryFor (din : Dinode) (j : Nat) : MkfsM Nat := do
  let indirect ← rsect (din.addrs (Fin.last NDIRECT))
  if word indirect j = 0 then do
    let b ← nextBlock
    wsect (din.addrs (Fin.last NDIRECT)) (putWord indirect j b)
    pure b
  else
    pure (word indirect j)

/-- The block `x` for block `fbn` of the file, and the inode with it. -/
def blockFor (din : Dinode) (fbn : Nat) : MkfsM (Dinode × Nat) := do
  if h : fbn < NDIRECT then do
    let din ← addrFor din ⟨fbn, Nat.lt_succ_of_lt h⟩
    pure (din, din.addrs ⟨fbn, Nat.lt_succ_of_lt h⟩)
  else do
    let din ← addrFor din (Fin.last NDIRECT)
    let x ← entryFor din (fbn - NDIRECT)
    pure (din, x)

/-- The loop of `iappend`, with the bytes `p` left to be written from `off` on. Every turn takes at least
one of them. The result is `din` and `off` at the end. -/
def appendLoop : (fuel : Nat) → (din : Dinode) → (off : Nat) → (p : Bytes) → MkfsM (Dinode × Nat)
  | 0, din, off, _ => pure (din, off)
  | fuel + 1, din, off, p =>
    if p.length = 0 then
      pure (din, off)
    else do
      let fbn := off / BSIZE
      assert (fbn < MAXFILE)
      let (din, x) ← blockFor din fbn
      let n1 := min p.length ((fbn + 1) * BSIZE - off)
      let buf ← rsect x
      wsect x (putBytes buf (off - fbn * BSIZE) (p.take n1))
      appendLoop fuel din (off + n1) (p.drop n1)

def iappend (inum : Nat) (p : Bytes) : MkfsM Unit := do
  let din ← rinode inum
  let (din, off) ← appendLoop p.length din din.size p
  winode inum { din with size := off }

/-! ## The program -/

/-- An input file. -/
structure Input where
  /-- The argument, a string. -/
  arg : Bytes
  /-- What the calls of `read` return. -/
  pieces : List Bytes
  piece_pos : ∀ p ∈ pieces, 0 < p.length
  piece_le : ∀ p ∈ pieces, p.length ≤ BSIZE

/-- `'_'` -/
def underscore : Byte := 95

/-- Skip leading `_` in name when writing to file system. -/
def Input.skipped (f : Input) : Bytes := if f.arg.head? = some underscore then f.arg.tail else f.arg

/-- The bytes of the file. -/
def Input.bytes (f : Input) : Bytes := f.pieces.flatten

/-- The body of the loop over the arguments. -/
def addFile (rootino : Nat) (f : Input) : MkfsM Unit := do
  assert (slash ∉ f.arg)
  let inum ← ialloc T_FILE
  iappend rootino (direntBytes inum f.skipped)
  f.pieces.forM (iappend inum)

def main (files : List Input) : MkfsM Unit := do
  (List.range FSSIZE).forM fun i => wsect i zeroes
  wsect 1 (putBytes zeroes 0 sb.toBytes)
  let rootino ← ialloc T_DIR
  assert (rootino = ROOTINO)
  iappend rootino (direntBytes rootino [46])
  iappend rootino (direntBytes rootino [46, 46])
  files.forM (addFile rootino)
  -- fix size of root inode dir
  let din ← rinode rootino
  winode rootino { din with size := (din.size / BSIZE + 1) * BSIZE }
  let m ← get
  balloc m.freeblock

/-- `readsb` -/
def readsb (sectors : Nat → Block) : Super :=
  .ofValues (Layout.decode Super.widths (bytesAt (sectors 1) 0 28))

/-- The test of `balloc` in the kernel: bit `bi` of a block of the free map is set. -/
def bitAt (blk : Block) (bi : Nat) : Bool := (blk (bi / 8) &&& mask bi) ≠ 0

/-- The disk with these blocks, before anything is read. There are no inodes behind their blocks. -/
def mount (sectors : Nat → Block) : Disk where
  bitmap b := bitAt (sectors (BBLOCK b (readsb sectors))) (b % BPB)
  blocks := sectors
  dinode i :=
    if IBLOCK i (readsb sectors) < (readsb sectors).bmapstart then
      dinodeAt (sectors (IBLOCK i (readsb sectors))) (i % IPB)
    else {}
  icache _ := {}

end Xv6.Mkfs
