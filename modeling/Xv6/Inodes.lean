import Xv6.FileContent
import Xv6.Lib.Prog

/-!
# The inode layer

The calls of `sysfile.c` and the directory code of `fs.c` see inodes as arrays of bytes with a type and a link
count, and the inode cache as reference counts and locks. `diskOps` does the operations `Op` on the disk,
`inodeOps` on `Inodes`, where there are no blocks. The second refuses to read or write an inode that is not
in memory.
-/

namespace Xv6.Store

open Function (update)

/-- What an inode is without its blocks. -/
structure Node where
  type : Nat := 0
  major : Nat := 0
  minor : Nat := 0
  nlink : Int := 0
  content : Bytes := []
  deriving DecidableEq

/-- The inodes, and the cache of them. -/
structure Inodes where
  node : Nat → Node
  ref : Nat → Nat
  locked : Nat → Bool
  valid : Nat → Bool

/-- The fields of `struct inode` the callers look at. -/
structure Fields where
  type : Nat
  major : Nat
  minor : Nat
  nlink : Int
  size : Nat

inductive Op where
  | iget (i : Nat)
  | idup (i : Nat)
  | ialloc (type : Nat)
  | ilock (i : Nat)
  | iunlock (i : Nat)
  | iput (i : Nat)
  | fields (i : Nat)
  /-- Set the fields, then `iupdate`. -/
  | iupdate (i major minor : Nat) (nlink : Int)
  | readi (i off n : Nat)
  | writei (i off : Nat) (src : Bytes)
  | panic (msg : String)

abbrev Op.Res : Op → Type
  | .iget _ | .idup _ | .ilock _ | .iunlock _ | .iput _ | .iupdate .. => Unit
  | .ialloc _ => Nat
  | .fields _ => Fields
  | .readi .. => Option Bytes
  | .writei .. => Option Nat
  | .panic _ => Empty

abbrev FsProg := Prog Op Op.Res

variable (sb : Superblock)

def Dinode.fields (d : Dinode) : Fields := { d with }

/-- `ip->major = major; ip->minor = minor; ip->nlink = nlink; iupdate(ip)`. -/
def updateFields (i major minor : Nat) (nlink : Int) : DiskM Unit := do
  modify fun s => s.updCopy i fun d => { d with major, minor, nlink }
  iupdate i

def diskOps : (o : Op) → DiskM o.Res
  | .iget i => iget sb i
  | .idup i => idup i
  | .ialloc type => ialloc sb type
  | .ilock i => ilock i
  | .iunlock i => iunlock i
  | .iput i => iput i
  | .fields i => do
    let s ← get
    pure (s.icache i).copy.fields
  | .iupdate i major minor nlink => updateFields i major minor nlink
  | .readi i off n => readi sb i off n
  | .writei i off src => writei sb i off src
  | .panic msg => Store.panic msg

/-! ## Without blocks -/

abbrev InodesM := EStateM (Option Stop) Inodes

namespace Inodes

def setRef (a : Inodes) (i n : Nat) : Inodes := { a with ref := update a.ref i n }
def setLocked (a : Inodes) (i : Nat) (b : Bool) : Inodes :=
  { a with locked := update a.locked i b }
def setValid (a : Inodes) (i : Nat) (b : Bool) : Inodes := { a with valid := update a.valid i b }
def setNode (a : Inodes) (i : Nat) (d : Node) : Inodes := { a with node := update a.node i d }

attribute [simps -fullyApplied] setRef setLocked setValid setNode

/-- How many entries of the inode cache are in use. -/
def cached (a : Inodes) : Nat := ((List.range sb.ninodes).filter fun i => 0 < a.ref i).length

def iget (i : Nat) : InodesM Unit := do
  let a ← get
  if 0 < a.ref i then
    set (a.setRef i (a.ref i + 1))
  else if NINODE ≤ a.cached sb then
    throw (some (.panic "iget: no inodes"))
  else
    set ((a.setRef i 1).setValid i false)

def idup (i : Nat) : InodesM Unit := modify fun a => a.setRef i (a.ref i + 1)

def ialloc (type : Nat) : InodesM Nat := do
  let a ← get
  match (List.range sb.ninodes).find? fun i => i ≠ 0 && (a.node i).type == 0 with
  | none => throw (some (.panic "ialloc: no inodes"))
  | some i => do
    set (a.setNode i { type := type })
    iget sb i
    pure i

def ilock (i : Nat) : InodesM Unit := do
  let a ← get
  if a.ref i < 1 then
    throw (some (.panic "ilock"))
  else if a.locked i then
    throw (some .deadlock)
  else if (a.node i).type = 0 then
    throw (some (.panic "ilock: no type"))
  else
    set ((a.setLocked i true).setValid i true)

def iunlock (i : Nat) : InodesM Unit := do
  let a ← get
  if !a.locked i || a.ref i < 1 then
    throw (some (.panic "iunlock"))
  else
    set (a.setLocked i false)

/-- The inode is freed. -/
def free (a : Inodes) (i : Nat) : Inodes := (a.setNode i {}).setValid i false

def iput (i : Nat) : InodesM Unit := do
  let a ← get
  if a.locked i then
    throw (some .deadlock)
  else if a.valid i && (a.node i).nlink == 0 && a.ref i == 1 then
    set ((a.free i).setRef i (a.ref i - 1))
  else
    set (a.setRef i (a.ref i - 1))

def fields (i : Nat) : InodesM Fields := do
  let a ← get
  if !a.valid i then
    throw none
  else
    pure { a.node i with size := (a.node i).content.length }

def iupdate (i major minor : Nat) (nlink : Int) : InodesM Unit := do
  let a ← get
  if !a.valid i then
    throw none
  else
    set (a.setNode i { a.node i with major, minor, nlink })

def readi (i off n : Nat) : InodesM (Option Bytes) := do
  let a ← get
  let d := a.node i
  if !a.valid i || 2 ^ 32 ≤ n then
    throw none
  else if d.type = T_DEV then
    if d.major = CONSOLE then throw (some .device) else pure none
  else if d.content.length < off ∨ (off + n) % 2 ^ 32 < off then
    pure none
  else
    pure (some ((d.content.drop off).take n))

def writei (i off : Nat) (src : Bytes) : InodesM (Option Nat) := do
  let a ← get
  let d := a.node i
  if !a.valid i || 2 ^ 32 ≤ src.length then
    throw none
  else if d.type = T_DEV then
    if d.major = CONSOLE then throw (some .device) else pure none
  else if d.content.length < off ∨ (off + src.length) % 2 ^ 32 < off then
    pure none
  else if MAXFILE * BSIZE < (off + src.length) % 2 ^ 32 then
    pure none
  else do
    set (a.setNode i { d with content := BlockArray.splice d.content off src })
    pure (some src.length)

section Runs

open Hoare

variable {a : Inodes} {i off : Nat} {src : Bytes}

theorem ilock_run (href : 0 < a.ref i) (hlock : a.locked i = false) (htype : (a.node i).type ≠ 0) :
    ilock i a = .ok () ((a.setLocked i true).setValid i true) := by
  unfold ilock
  rw [bind_ok (get_run _), if_neg (by omega), if_neg (by rw [hlock]; exact Bool.false_ne_true),
    if_neg htype]
  rfl

theorem iunlock_run (href : 0 < a.ref i) (hlock : a.locked i = true) :
    iunlock i a = .ok () (a.setLocked i false) := by
  unfold iunlock
  rw [bind_ok (get_run _), if_neg (by simp [hlock]; omega)]
  rfl

theorem writei_run (hvalid : a.valid i = true) (htype : (a.node i).type ≠ T_DEV)
    (hoff : off ≤ (a.node i).content.length) (hlen : off + src.length < 2 ^ 32) :
    writei i off src a = if MAXFILE * BSIZE < off + src.length then .ok none a
      else .ok (some src.length) (a.setNode i
        { a.node i with content := BlockArray.splice (a.node i).content off src }) := by
  have hmod : (off + src.length) % 2 ^ 32 = off + src.length := Nat.mod_eq_of_lt hlen
  unfold writei
  rw [bind_ok (get_run _), if_neg (by simp [hvalid]; omega), if_neg htype,
    if_neg (by rw [hmod]; omega), hmod, apply_ite (fun m : InodesM (Option Nat) => m _)]
  rfl

end Runs

end Inodes

def inodeOps : (o : Op) → InodesM o.Res
  | .iget i => Inodes.iget sb i
  | .idup i => Inodes.idup i
  | .ialloc type => Inodes.ialloc sb type
  | .ilock i => Inodes.ilock i
  | .iunlock i => Inodes.iunlock i
  | .iput i => Inodes.iput i
  | .fields i => Inodes.fields i
  | .iupdate i major minor nlink => Inodes.iupdate i major minor nlink
  | .readi i off n => Inodes.readi i off n
  | .writei i off src => Inodes.writei i off src
  | .panic msg => throw (some (.panic msg))

def Disk.node (s : Disk) (i : Nat) : Node :=
  if (s.inode i).type = 0 then {} else { s.inode i with content := s.content i }

def Disk.inodes (s : Disk) : Inodes where
  node := s.node
  ref i := (s.icache i).ref
  locked i := (s.icache i).locked
  valid i := (s.icache i).valid

end Xv6.Store
