import Xv6.FsSystem

/-!
# The first file system

What `mkfs` puts on the disk, without blocks: a root directory with an entry for each of the files it is
given, all of them with one link. `oneFile` is such a disk, with blocks, for one file without content. It is
where concrete runs start.
-/

namespace Xv6.Calls

open Store

theorem mkfs_nmeta : 0 < 59 := by decide

/-- `FSSIZE` blocks and `NINODES` inodes. -/
def mkfsSb : Superblock where
  size := 1000
  ninodes := 200
  nmeta := 59
  size_lt := by decide
  ninodes_le := by decide
  nmeta_pos := mkfs_nmeta

/-- The entries of the root directory. -/
def mkfsEntries (files : List (Name × Bytes)) : List Dirent :=
  ⟨ROOTINO, dot⟩ :: ⟨ROOTINO, dotdot⟩ :: files.mapIdx fun i f => ⟨i + 2, f.1⟩

/-- Rounded up, as `mkfs` does it. -/
def mkfsRound (l : Bytes) : Bytes :=
  l ++ List.replicate ((l.length / Store.BSIZE + 1) * Store.BSIZE - l.length) 0

def mkfs (files : List (Name × Bytes)) : Nat → Node
  | 0 => {}
  | 1 => { type := T_DIR, nlink := 1, content := mkfsRound ((mkfsEntries files).flatMap Dirent.toBytes) }
  | i + 2 =>
    match files[i]? with
    | some f => { type := T_FILE, nlink := 1, content := f.2 }
    | none => {}

/-! ## A disk -/

/-- The block of the root directory. -/
def rootBlock : Block := fun x =>
  ((mkfsEntries [(.of [102], [])]).flatMap Dirent.toBytes).getD x 0

/-- The file is `"f"`. Nothing is in memory but the root directory. -/
def oneFile : Disk where
  bitmap b := b < 60
  blocks b := if b = 59 then rootBlock else fun _ => 0
  dinode i :=
    if i = 1 then
      { type := T_DIR, nlink := 1, size := 512, addrs := oneBlock 59 }
    else if i = 2 then { type := T_FILE, nlink := 1 } else {}
  icache i := { ref := if i = 1 then 1 else 0 }

/-- The first process. -/
def firstTables : Tables := Tables.setCwd ⟨fun _ => none, fun _ => none⟩ 0 (some ROOTINO)

theorem refs_firstTables (i : Nat) : (firstTables.refs i : Int) = RefCount.one (some ROOTINO) i := by
  have hnone : Tables.refs ⟨fun _ => none, fun _ => none⟩ i = 0 := by
    unfold Tables.refs RefCount.count
    refine Finset.card_eq_zero.mpr (Finset.filter_eq_empty_iff.mpr fun x _ => ?_)
    cases x <;> simp [Tables.ptr]
  unfold firstTables
  rw [refs_setCwd, hnone]
  simp

theorem inode_oneFile (i : Nat) : oneFile.inode i = oneFile.dinode i := rfl

theorem oneBlock_oneFile : oneFile.OneBlock 1 59 where
  own := rfl
  other i hi := by
    rw [inode_oneFile]
    unfold oneFile
    dsimp only
    rw [if_neg hi]
    split <;> rfl

theorem live_oneFile : oneFile.Live 1 := by
  unfold Disk.Live
  decide

theorem consistent_oneFile : oneFile.Consistent mkfsSb where
  sound :=
    { tidy := oneBlock_oneFile.tidy rfl (by decide) fun b hb => by
        have : b < 60 := Nat.lt_trans hb (by decide)
        simp [oneFile, this]
      full := by
        intro i x _ hx
        rw [inode_oneFile] at hx
        unfold oneFile at hx
        dsimp only at hx
        by_cases h1 : i = 1
        · rw [if_pos h1] at hx
          subst h1
          have hdiv : x / Store.BSIZE = 0 := Nat.div_eq_of_lt hx
          rw [hdiv]
          rfl
        · rw [if_neg h1] at hx
          split at hx <;> exact absurd hx (Nat.not_lt_zero x) }
  used b _ hb := by
    have hb : b < 60 := by simpa [oneFile] using hb
    by_cases h59 : b = 59
    · subst h59
      exact .inr ⟨1, .direct ⟨0, by decide⟩, live_oneFile, rfl⟩
    · refine .inl ?_
      show b < 59
      omega
  synced _ := nofun
  live _ := nofun

end Xv6.Calls
