import Mathlib.Data.List.TakeWhile
import Xv6.Inodes

/-!
# Directories and path names

The upper half of `fs.c`, as programs over the inode layer. A directory is a file of entries of 16 bytes: an
inode number and a name. A name is kept as the bytes before the first zero, and `namecmp` is equality. A path
is the bytes of a string without the zero at its end.
-/

namespace Xv6.Calls

open Store (FsProg Fields T_DIR)

def DIRSIZ : Nat := 14
def ROOTINO : Nat := 1

/-- A name in a directory. -/
structure Name where
  bytes : Bytes
  length_le : bytes.length ≤ DIRSIZ
  no_zero : 0 ∉ bytes
  deriving DecidableEq

/-- The name at the start of `l`. -/
def Name.of (l : Bytes) : Name where
  bytes := (l.take DIRSIZ).takeWhile (· ≠ 0)
  length_le := (List.takeWhile_prefix _).length_le.trans (List.length_take_le _ _)
  no_zero h := by simpa using List.mem_takeWhile_imp h

/-- `"."`. -/
def dot : Name := .of [46]

/-- `".."`. -/
def dotdot : Name := .of [46, 46]

structure Dirent where
  inum : Nat
  name : Name
  deriving DecidableEq

/-- `sizeof(struct dirent)`. -/
def DIRENT : Nat := 2 + DIRSIZ

def Dirent.ofBytes (l : Bytes) : Dirent where
  inum := (l.getD 0 0).toNat + 256 * (l.getD 1 0).toNat
  name := .of (l.drop 2)

def Dirent.toBytes (de : Dirent) : Bytes :=
  BitVec.ofNat 8 de.inum :: BitVec.ofNat 8 (de.inum / 256) ::
    (de.name.bytes ++ List.replicate (DIRSIZ - de.name.bytes.length) 0)

/-! ## The operations as programs -/

def iget (i : Nat) : FsProg Unit := .op (Store.Op.iget i)
def idup (i : Nat) : FsProg Unit := .op (Store.Op.idup i)
def ialloc (type : Nat) : FsProg Nat := .op (Store.Op.ialloc type)
def ilock (i : Nat) : FsProg Unit := .op (Store.Op.ilock i)
def iunlock (i : Nat) : FsProg Unit := .op (Store.Op.iunlock i)
def iput (i : Nat) : FsProg Unit := .op (Store.Op.iput i)
def fields (i : Nat) : FsProg Fields := .op (Store.Op.fields i)
def iupdate (i major minor : Nat) (nlink : Int) : FsProg Unit := .op (Store.Op.iupdate i major minor nlink)
def readi (i off n : Nat) : FsProg (Option Bytes) := .op (Store.Op.readi i off n)
def writei (i off : Nat) (src : Bytes) : FsProg (Option Nat) := .op (Store.Op.writei i off src)
def panic {α : Type} (msg : String) : FsProg α := .call (Store.Op.panic msg) nofun

def iunlockput (i : Nat) : FsProg Unit := do
  iunlock i
  iput i

/-! ## Directories -/

/-- The loop over the entries from `off` on: the offset of the first one with `p`, and the entry. -/
def scan (dp : Nat) (msg : String) (p : Dirent → Bool) (size : Nat) :
    (fuel off : Nat) → FsProg (Option (Nat × Dirent))
  | 0, _ => pure none
  | fuel + 1, off =>
    if off < size then do
      match ← readi dp off DIRENT with
      | none => panic msg
      | some l =>
        if l.length ≠ DIRENT then panic msg
        else if p (.ofBytes l) then pure (some (off, .ofBytes l))
        else scan dp msg p size fuel (off + DIRENT)
    else
      pure none

/-- Look for a directory entry; the inode and the offset of the entry. -/
def dirlookup (dp : Nat) (name : Name) : FsProg (Option (Nat × Nat)) := do
  let f ← fields dp
  if f.type ≠ T_DIR then
    panic "dirlookup not DIR"
  else
    match ← scan dp "dirlookup read" (fun de => de.inum ≠ 0 ∧ de.name = name) f.size f.size 0 with
    | none => pure none
    | some (off, de) => do
      iget de.inum
      pure (some (de.inum, off))

/-- Write a new directory entry; `false` if the name is there already. -/
def dirlink (dp : Nat) (name : Name) (inum : Nat) : FsProg Bool := do
  match ← dirlookup dp name with
  | some (ip, _) => do
    iput ip
    pure false
  | none => do
    let f ← fields dp
    -- Look for an empty dirent; without one the loop ends at the size.
    let r ← scan dp "dirlink read" (fun de => de.inum = 0) f.size f.size 0
    let w ← writei dp ((r.map Prod.fst).getD f.size) (Dirent.toBytes ⟨inum, name⟩)
    if w ≠ some DIRENT then panic "dirlink" else pure true

/-! ## Paths -/

def slash : Byte := 47

/-- The next path element, and what follows it without slashes. -/
def skipelem (path : Bytes) : Option (Name × Bytes) :=
  match path.dropWhile (· = slash) with
  | [] => none
  | p => some (.of (p.takeWhile (· ≠ slash)), (p.dropWhile (· ≠ slash)).dropWhile (· = slash))

/-- What `skipelem` returns, one after the other. Each element takes at least one byte. -/
def skipelems : (fuel : Nat) → Bytes → List Name
  | 0, _ => []
  | fuel + 1, path =>
    match skipelem path with
    | none => []
    | some (name, rest) => name :: skipelems fuel rest

def elems (path : Bytes) : List Name := skipelems path.length path

/-- The loop of `namex`, at inode `ip`. -/
def namexLoop (nameiparent : Bool) : (path : List Name) → (ip : Nat) → FsProg (Option (Nat × Option Name))
  | [], ip =>
    if nameiparent then do
      iput ip
      pure none
    else
      pure (some (ip, none))
  | name :: rest, ip => do
    ilock ip
    let f ← fields ip
    if f.type ≠ T_DIR then do
      iunlockput ip
      pure none
    else if nameiparent && rest.isEmpty then do
      -- Stop one level early.
      iunlock ip
      pure (some (ip, some name))
    else do
      match ← dirlookup ip name with
      | none => do
        iunlockput ip
        pure none
      | some (next, _) => do
        iunlockput ip
        namexLoop nameiparent rest next

/-- Look up a path name for a process with the current directory `cwd`. -/
def namex (cwd : Nat) (path : Bytes) (nameiparent : Bool) : FsProg (Option (Nat × Option Name)) := do
  if path.head? = some slash then do
    iget ROOTINO
    namexLoop nameiparent (elems path) ROOTINO
  else do
    idup cwd
    namexLoop nameiparent (elems path) cwd

def namei (cwd : Nat) (path : Bytes) : FsProg (Option Nat) := do
  let r ← namex cwd path false
  pure (r.map Prod.fst)

/-- The parent, and the last element. -/
def nameiparent (cwd : Nat) (path : Bytes) : FsProg (Option (Nat × Name)) := do
  match ← namex cwd path true with
  | some (dp, some name) => pure (some (dp, name))
  | _ => pure none

end Xv6.Calls
