import Xv6.Directory
import Xv6.Log

/-!
# The file system calls

The calls of `sysfile.c` that go by path names, `exec` as far as it touches inodes, and reading and writing an
open file. `room` tells whether there is a file descriptor. A call returns `0` or `-1`, and what it leaves in
the process: the inode of the new open file, or the new current directory.
-/

namespace Xv6.Calls

open Store (FsProg T_DIR T_FILE T_DEV)

variable (cwd : Nat)

/-- Create the path `new` as a link to the same inode as `old`. -/
def sysLink (old new : Bytes) : FsProg Int := do
  match ← namei cwd old with
  | none => pure (-1)
  | some ip => do
    ilock ip
    let f ← fields ip
    if f.type = T_DIR then do
      iunlockput ip
      pure (-1)
    else do
      iupdate ip f.major f.minor (f.nlink + 1)
      iunlock ip
      match ← nameiparent cwd new with
      | none => bad ip
      | some (dp, name) => do
        ilock dp
        if ← dirlink dp name ip then do
          iunlockput dp
          iput ip
          pure 0
        else do
          iunlockput dp
          bad ip
where
  bad (ip : Nat) : FsProg Int := do
    ilock ip
    let f ← fields ip
    iupdate ip f.major f.minor (f.nlink - 1)
    iunlockput ip
    pure (-1)

/-- Is the directory `dp` empty except for `"."` and `".."`? -/
def isdirempty (dp : Nat) : FsProg Bool := do
  let f ← fields dp
  let r ← scan dp "isdirempty: readi" (fun de => de.inum ≠ 0) f.size f.size (2 * DIRENT)
  pure r.isNone

def sysUnlink (path : Bytes) : FsProg Int := do
  match ← nameiparent cwd path with
  | none => pure (-1)
  | some (dp, name) => do
    ilock dp
    if name = dot ∨ name = dotdot then
      -- Cannot unlink "." or "..".
      bad dp
    else
      match ← dirlookup dp name with
      | none => bad dp
      | some (ip, off) => do
        ilock ip
        let f ← fields ip
        if f.nlink < 1 then
          panic "unlink: nlink < 1"
        else if f.type = T_DIR then do
          if ← isdirempty ip then
            remove dp ip off true
          else do
            iunlockput ip
            bad dp
        else
          remove dp ip off false
where
  bad (dp : Nat) : FsProg Int := do
    iunlockput dp
    pure (-1)
  remove (dp ip off : Nat) (isdir : Bool) : FsProg Int := do
    let r ← writei dp off (List.replicate DIRENT 0)
    if r ≠ some DIRENT then
      panic "unlink: writei"
    else do
      if isdir then do
        let d ← fields dp
        iupdate dp d.major d.minor (d.nlink - 1)
        finish dp ip
      else
        finish dp ip
  finish (dp ip : Nat) : FsProg Int := do
    iunlockput dp
    let f ← fields ip
    iupdate ip f.major f.minor (f.nlink - 1)
    iunlockput ip
    pure 0

/-- The inode of `path`, which is made if it is not there. It is returned locked. -/
def create (path : Bytes) (type major minor : Nat) : FsProg (Option Nat) := do
  match ← nameiparent cwd path with
  | none => pure none
  | some (dp, name) => do
    ilock dp
    match ← dirlookup dp name with
    | some (ip, _) => do
      iunlockput dp
      ilock ip
      let f ← fields ip
      if type = T_FILE ∧ f.type = T_FILE then
        pure (some ip)
      else do
        iunlockput ip
        pure none
    | none => do
      let ip ← ialloc type
      ilock ip
      iupdate ip major minor 1
      if type = T_DIR then do
        -- Create . and .. entries; ".." is a link to `dp`.
        let d ← fields dp
        iupdate dp d.major d.minor (d.nlink + 1)
        if ← dirlink ip dot ip then
          if ← dirlink ip dotdot dp then finish dp ip name else panic "create dots"
        else
          panic "create dots"
      else
        finish dp ip name
where
  finish (dp ip : Nat) (name : Name) : FsProg (Option Nat) := do
    if ← dirlink dp name ip then do
      iunlockput dp
      pure (some ip)
    else
      panic "create: dirlink"

/-- The inode that the new file descriptor stands for. -/
def sysOpen (path : Bytes) (ocreate rdonly room : Bool) : FsProg (Option Nat) := do
  if ocreate then
    match ← create cwd path T_FILE 0 0 with
    | none => pure none
    | some ip => finish ip
  else
    match ← namei cwd path with
    | none => pure none
    | some ip => do
      ilock ip
      let f ← fields ip
      if f.type = T_DIR ∧ !rdonly then do
        iunlockput ip
        pure none
      else
        finish ip
where
  finish (ip : Nat) : FsProg (Option Nat) :=
    if room then do
      iunlock ip
      pure (some ip)
    else do
      iunlockput ip
      pure none

/-- `sys_mkdir` and `sys_mknod`. -/
def makeNode (path : Bytes) (type major minor : Nat) : FsProg Int := do
  match ← create cwd path type major minor with
  | none => pure (-1)
  | some ip => do
    iunlockput ip
    pure 0

def sysMkdir (path : Bytes) : FsProg Int := makeNode cwd path T_DIR 0 0

def sysMknod (path : Bytes) (major minor : Nat) : FsProg Int := makeNode cwd path T_DEV major minor

/-- The new current directory. -/
def sysChdir (path : Bytes) : FsProg (Option Nat) := do
  match ← namei cwd path with
  | none => pure none
  | some ip => do
    ilock ip
    let f ← fields ip
    if f.type ≠ T_DIR then do
      iunlockput ip
      pure none
    else do
      iunlock ip
      iput cwd
      pure (some ip)

/-- `exec`, with the reads it makes of the program file: the headers, then the segments, until one of them
is short or the file is loaded. -/
def exec (path : Bytes) (reads : List (Word × Word)) : FsProg Unit := do
  match ← namei cwd path with
  | none => pure ()
  | some ip => do
    ilock ip
    loads ip reads
    iunlockput ip
where
  loads (ip : Nat) : List (Word × Word) → FsProg Unit
    | [] => pure ()
    | (off, n) :: rest => do
      let _ ← readi ip off.toNat n.toNat
      loads ip rest

/-! ## Open files -/

/-- The loop of `filewrite`: `src` is left to be written from `off` on. It returns the offset it has come
to, and whether everything is written. -/
def filewriteLoop (ip : Nat) : (fuel off : Nat) → (src : Bytes) → FsProg (Nat × Bool)
  | 0, off, _ => pure (off, true)
  | fuel + 1, off, src =>
    if src = [] then
      pure (off, true)
    else do
      ilock ip
      let r ← writei ip off (src.take maxWrite)
      iunlock ip
      match r with
      | none => pure (off, false)
      | some n =>
        if n ≠ (src.take maxWrite).length then panic "short filewrite"
        else filewriteLoop ip fuel (off + n) (src.drop maxWrite)

def filewrite (ip off : Nat) (src : Bytes) : FsProg (Nat × Bool) := filewriteLoop ip src.length off src

def fileread (ip off : Nat) (n : Word) : FsProg (Option Bytes) := do
  ilock ip
  let r ← readi ip off n.toNat
  iunlock ip
  pure r

/-- `fileclose` of the last reference to an open file. -/
def fileclose (ip : Nat) : FsProg Unit := iput ip

end Xv6.Calls
