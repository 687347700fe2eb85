import Xv6.MkfsFiles

/-!
# What `mkfs` makes

`mkfs` puts an entry into the root directory and a file into the image for each of its arguments, as long as
the blocks of all files fit. At the end the size of the root directory is rounded up to the next block. When
the last block was full that is one more block, which was not allocated.
-/

namespace Xv6.Mkfs

open Function (update update_eq_self update_apply update_of_ne update_self)
open Store Hoare
open Calls (mkfsEntries Name Dirent DIRENT ROOTINO direntBytes slash)
open List (length_append length_cons length_map)

/-- The name in the root directory: after a leading `_`, up to 14 bytes. -/
def Input.name (f : Input) : Name := .of f.skipped

def Input.file (f : Input) : File := ⟨T_FILE, f.bytes⟩

/-- The entries of the root directory. -/
def entries (files : List Input) : List Dirent := mkfsEntries (files.map fun f => (f.name, f.bytes))

/-- All files of the image. -/
def built (files : List Input) : List File :=
  ⟨T_DIR, (entries files).flatMap Dirent.toBytes⟩ :: files.map Input.file

/-- The blocks of the image that are used: those before the data blocks, those of the root directory and
those of the files. -/
def totalBlocks (files : List Input) : Nat :=
  nmeta + blocksFor (DIRENT * (files.length + 2)) + (files.map fun f => blocksFor f.bytes.length).sum

/-- The conditions on the arguments under which `mkfs` succeeds. -/
structure Fits (files : List Input) : Prop where
  slash : ∀ f ∈ files, slash ∉ f.arg
  count : files.length ≤ NINODES
  size : ∀ f ∈ files, f.bytes.length ≤ MAXFILE * BSIZE
  blocks : totalBlocks files ≤ FSSIZE

variable {m : Image} {files : List Input} {f : Input}

theorem length_flatMap_toBytes (l : List Dirent) : (l.flatMap Dirent.toBytes).length = DIRENT * l.length := by
  induction l with
  | nil => rfl
  | cons de l ih =>
    rw [List.flatMap_cons, length_append, ih, Calls.length_toBytes, length_cons, Nat.mul_succ,
      Nat.add_comm]

theorem length_entries (files : List Input) : (entries files).length = files.length + 2 := by
  simp [entries, mkfsEntries]

theorem entries_concat (files : List Input) (f : Input) :
    entries (files ++ [f]) = entries files ++ [⟨files.length + 2, f.name⟩] := by
  simp [entries, mkfsEntries, List.mapIdx_append]

theorem length_direntBytes (inum : Nat) (name : Bytes) : (direntBytes inum name).length = DIRENT := by
  rw [Calls.direntBytes_eq, Calls.length_toBytes]

/-! ## The program -/

theorem assert_run {c : Bool} (h : c = true) (m : Image) : assert c m = .ok () m := by
  unfold assert
  rw [h]
  rfl

theorem count_built (files : List Input) :
    nmeta + ((built files).map fun f => blocksFor f.bytes.length).sum = totalBlocks files := by
  unfold built totalBlocks
  rw [List.map_cons, List.sum_cons, List.map_map, length_flatMap_toBytes, length_entries, Nat.add_assoc]
  rfl

theorem totalBlocks_concat (files : List Input) (f : Input) :
    totalBlocks (files ++ [f]) + blocksFor (DIRENT * (files.length + 2)) =
      totalBlocks files + blocksFor (DIRENT * (files.length + 2) + DIRENT) + blocksFor f.bytes.length := by
  have hlen : DIRENT * ((files ++ [f]).length + 2) = DIRENT * (files.length + 2) + DIRENT := by
    rw [length_append, length_cons, List.length_nil, Calls.DIRENT_eq]
    omega
  unfold totalBlocks
  rw [hlen, List.map_append, List.sum_append, List.map_cons, List.map_nil, List.sum_cons, List.sum_nil]
  omega

theorem totalBlocks_le_append (files rest : List Input) :
    totalBlocks files ≤ totalBlocks (files ++ rest) := by
  unfold totalBlocks
  rw [List.map_append, List.sum_append, length_append]
  have := blocksFor_mono (Nat.mul_le_mul_left DIRENT (show files.length + 2 ≤
    files.length + rest.length + 2 by omega))
  omega

theorem addFile_spec (h : Built m (built files)) (hslash : slash ∉ f.arg)
    (hcount : files.length + 1 ≤ NINODES) (hsize : f.bytes.length ≤ MAXFILE * BSIZE)
    (hblocks : totalBlocks (files ++ [f]) ≤ FSSIZE) :
    ∃ m', addFile ROOTINO f m = .ok () m' ∧ Built m' (built (files ++ [f])) := by
  have hlen : (built files).length = files.length + 1 := by simp [built]
  have hrange : files.length + 2 < inodeRoom := by
    change files.length + 1 ≤ 200 at hcount
    show files.length + 2 < 208
    omega
  have htotal := totalBlocks_concat files f
  have hused := h.count.trans (count_built files)
  have hrootlen : ((entries files).flatMap Dirent.toBytes).length = DIRENT * (files.length + 2) := by
    rw [length_flatMap_toBytes, length_entries]
  have hmax : DIRENT * (files.length + 2) + DIRENT ≤ MAXFILE * BSIZE := by
    change files.length + 1 ≤ 200 at hcount
    rw [Calls.DIRENT_eq]
    show _ ≤ 71680
    omega
  -- a new inode
  obtain ⟨m₁, hrun₁, hbuilt₁, hfree₁⟩ := ialloc_spec h (by omega) (.inr rfl)
  rw [hlen] at hrun₁
  -- its entry in the root directory
  obtain ⟨m₂, hrun₂, hbuilt₂, hfree₂⟩ := iappend_spec (k := 0)
    (p := direntBytes (files.length + 1 + 1) f.skipped) hbuilt₁ rfl
    (by rw [length_append, hlen]; exact hrange)
    (by rw [length_direntBytes]; decide)
    (by dsimp only; rw [length_direntBytes, hrootlen]; exact hmax)
    (by dsimp only; rw [length_direntBytes, hrootlen]; omega)
  dsimp only at hfree₂
  rw [length_direntBytes, hrootlen] at hfree₂
  change iappend ROOTINO _ m₁ = _ at hrun₂
  change Built m₂ (⟨T_DIR, (entries files).flatMap Dirent.toBytes ++
    direntBytes (files.length + 1 + 1) f.skipped⟩ :: (files.map Input.file ++ [⟨T_FILE, []⟩])) at hbuilt₂
  -- its bytes
  have hlast : (files.map Input.file ++ [⟨T_FILE, []⟩])[files.length]? = some ⟨T_FILE, []⟩ := by
    have hconcat : (files.map Input.file ++ [⟨T_FILE, []⟩])[(files.map Input.file).length]? =
        some ⟨T_FILE, []⟩ := List.getElem?_concat_length
    rwa [length_map] at hconcat
  have hsum : 0 + f.pieces.flatten.length = f.bytes.length := Nat.zero_add _
  have hzero : blocksFor 0 = 0 := rfl
  obtain ⟨m₃, hrun₃, hbuilt₃⟩ := pieces_spec (k := files.length + 1) (f := ⟨T_FILE, []⟩) f.piece_pos hbuilt₂
    hlast
    (by rw [length_cons, length_append, length_map]; exact hrange)
    (by rw [List.length_nil, hsum]; exact hsize)
    (by rw [List.length_nil, hsum, hzero]; omega)
  refine ⟨m₃, ?_, ?_⟩
  · unfold addFile
    rw [bind_ok (assert_run (decide_eq_true hslash) m), bind_ok hrun₁, bind_ok hrun₂]
    exact hrun₃
  · have hroot : (entries (files ++ [f])).flatMap Dirent.toBytes =
        (entries files).flatMap Dirent.toBytes ++ direntBytes (files.length + 1 + 1) f.skipped := by
      rw [entries_concat, List.flatMap_append, Calls.direntBytes_eq]
      simp [Input.name]
    have hset : (files.map Input.file ++ [(⟨T_FILE, []⟩ : File)]).set files.length f.file =
        (files ++ [f]).map Input.file := by
      have hconcat := List.set_append_right (s := files.map Input.file) (t := [(⟨T_FILE, []⟩ : File)]) files.length
        f.file (by rw [length_map])
      rw [hconcat, length_map, Nat.sub_self, List.map_append]
      rfl
    unfold built
    rw [hroot, ← hset]
    exact hbuilt₃

theorem addFiles_spec (rest : List Input) (h : Built m (built files)) (hfits : Fits (files ++ rest)) :
    ∃ m', rest.forM (addFile ROOTINO) m = .ok () m' ∧ Built m' (built (files ++ rest)) := by
  induction rest generalizing m files with
  | nil =>
    rw [List.append_nil]
    exact ⟨m, rfl, h⟩
  | cons f rest ih =>
    have happend : files ++ f :: rest = (files ++ [f]) ++ rest := by simp
    have hmem : f ∈ files ++ f :: rest := by simp
    have hlen := hfits.count
    rw [length_append, length_cons] at hlen
    obtain ⟨m₁, hrun, hbuilt⟩ := addFile_spec h (hfits.slash f hmem) (by omega) (hfits.size f hmem)
      ((totalBlocks_le_append _ rest).trans (happend ▸ hfits.blocks))
    rw [happend] at hfits ⊢
    obtain ⟨m', hrun', hbuilt'⟩ := ih hbuilt hfits
    exact ⟨m', (bind_ok hrun).trans hrun', hbuilt'⟩

/-! ## The start -/

theorem zero_run (l : List Nat) (hm : m.sectors = fun _ => zeroes) :
    l.forM (fun i => wsect i zeroes) m = .ok ()
      { m with size := l.foldl (fun n i => max n (i + 1)) m.size } := by
  induction l generalizing m with
  | nil => rfl
  | cons i l ih =>
    have hupdate : update m.sectors i zeroes = m.sectors := by
      rw [hm]
      exact update_eq_self i _
    have hrun : wsect i zeroes m = .ok () { m with size := max m.size (i + 1) } := by
      unfold wsect
      rw [modify_run, hupdate]
    exact (bind_ok hrun).trans (ih hm)

theorem foldl_range (n : Nat) : (List.range n).foldl (fun k i => max k (i + 1)) 0 = n := by
  induction n with
  | zero => rfl
  | succ n ih => simp [List.range_succ, ih]

/-- The image with the superblock, and nothing else. -/
def Image.start : Image where
  size := FSSIZE
  sectors := update (fun _ => zeroes) 1 (putBytes zeroes 0 sb.toBytes)

theorem sectors_start (b : Nat) : Image.start.sectors b =
    if b = 1 then putBytes zeroes 0 sb.toBytes else zeroes := by
  show update (fun _ => zeroes) 1 (putBytes zeroes 0 sb.toBytes) b = _
  rw [update_apply]

theorem type_zeroes (n : Nat) : (dinodeAt zeroes n).type = 0 := rfl

theorem dinode_start (i : Nat) : ((disk Image.start).dinode i).type = 0 := by
  have hne : IBLOCK i sb ≠ 1 := by
    show i / 8 + 32 ≠ 1
    omega
  show (if IBLOCK i sb < sb.bmapstart then _ else _ : Dinode).type = 0
  rw [sectors_start, if_neg hne]
  split
  · exact type_zeroes _
  · rfl

theorem built_start : Built Image.start [] := by
  have hlive : ∀ i, ¬ (disk Image.start).Live i := fun i h => h (dinode_start i)
  refine ⟨⟨rfl, Nat.le_refl _, fun b hb => ?_, sectors_start 1⟩, rfl, rfl, nofun,
    ⟨⟨⟨fun hi => (hlive _ hi).elim, fun hi => (hlive _ hi).elim, fun hi => (hlive _ hi).elim,
      fun b hb => ?_⟩, fun hi => (hlive _ hi).elim⟩, fun b _ hb => ?_, nofun, nofun⟩,
    funext fun i => ?_, nofun⟩
  · have hne : b ≠ 1 := by
      change 59 ≤ b at hb
      omega
    rw [sectors_start, if_neg hne]
  · exact decide_eq_true hb
  · exact .inl (of_decide_eq_true hb)
  · unfold Disk.node
    rw [inode_disk, if_pos (dinode_start i)]
    cases i <;> rfl

/-! ## The end -/

/-- The size of the root directory, as it is in the end. -/
def roundUp (n : Nat) : Nat := (n / BSIZE + 1) * BSIZE

/-- The inode of the root directory in the end. -/
def rootDinode (m : Image) : Dinode :=
  { (disk m).dinode ROOTINO with size := roundUp ((disk m).dinode ROOTINO).size }

/-- The last writes: the inode of the root directory, and the free bit map. -/
def Image.finish (m : Image) : Image :=
  (m.setDinode ROOTINO (rootDinode m)).setSector sb.bmapstart (bitmapBlock m.freeblock)

theorem root_spec (h : Built m []) :
    ∃ m₁ m₂ m', ialloc T_DIR m = .ok ROOTINO m₁ ∧ iappend ROOTINO (direntBytes ROOTINO [46]) m₁ = .ok () m₂ ∧
      iappend ROOTINO (direntBytes ROOTINO [46, 46]) m₂ = .ok () m' ∧ Built m' (built []) := by
  obtain ⟨m₁, hrun₁, hbuilt₁, -⟩ := ialloc_spec h (by decide) (.inl rfl)
  obtain ⟨m₂, hrun₂, hbuilt₂, -⟩ := iappend_spec (k := 0) (p := direntBytes ROOTINO [46]) hbuilt₁ rfl
    (by decide) (by decide) (by decide) (by rw [hbuilt₁.count]; decide)
  obtain ⟨m₃, hrun₃, hbuilt₃, -⟩ := iappend_spec (k := 0) (p := direntBytes ROOTINO [46, 46]) hbuilt₂ rfl
    (by decide) (by decide) (by decide) (by rw [hbuilt₂.count]; decide)
  exact ⟨m₁, m₂, m₃, hrun₁, hrun₂, hrun₃, hbuilt₃⟩

theorem main_spec (h : Fits files) : ∃ m, Built m (built files) ∧ main files {} = .ok () m.finish := by
  obtain ⟨m₁, m₂, m₃, hrun₁, hrun₂, hrun₃, hbuilt₃⟩ := root_spec built_start
  obtain ⟨m, hfiles, hbuilt⟩ := addFiles_spec files hbuilt₃ h
  refine ⟨m, hbuilt, ?_⟩
  have hzero : (List.range FSSIZE).forM (fun i => wsect i zeroes) {} = .ok () { size := FSSIZE : Image } := by
    rw [zero_run _ rfl, foldl_range]
  have hstart : wsect 1 (putBytes zeroes 0 sb.toBytes) { size := FSSIZE : Image } = .ok () Image.start :=
    wsect_run 1 (by decide) _
  have hread : rinode ROOTINO m = .ok ((disk m).dinode ROOTINO) m := rinode_run hbuilt.ready.size (by decide)
  have hwrite : winode ROOTINO (rootDinode m) m = .ok () (m.setDinode ROOTINO (rootDinode m)) :=
    winode_run hbuilt.ready.size (by decide) _
  have hused : m.freeblock < BSIZE * 8 := by
    rw [hbuilt.count, count_built]
    exact h.blocks.trans_lt (by decide)
  have hbitmap : balloc m.freeblock (m.setDinode ROOTINO (rootDinode m)) = .ok () m.finish := by
    have hlt : sb.bmapstart < (m.setDinode ROOTINO (rootDinode m)).size := by
      rw [show (m.setDinode ROOTINO (rootDinode m)).size = m.size from rfl, hbuilt.ready.size]
      decide
    exact (bind_ok (assert_run (decide_eq_true hused) _)).trans (wsect_run _ hlt _)
  unfold main
  rw [bind_ok hzero, bind_ok hstart, bind_ok hrun₁, bind_ok (assert_run (by rfl) m₁),
    bind_ok hrun₂, bind_ok hrun₃, bind_ok hfiles, bind_ok hread]
  exact (bind_ok hwrite).trans hbitmap

/-! ## The mounted disk -/

variable {j : Nat} {k : Store.Slot}

theorem Built.root (h : Built m (built files)) : ∃ a, (disk m).dinode ROOTINO =
    { type := T_DIR, nlink := 1, size := DIRENT * (files.length + 2), addrs := a } := by
  obtain ⟨a, ha, -⟩ := h.dinode (k := 0) rfl
  refine ⟨a, ha.trans ?_⟩
  rw [length_flatMap_toBytes, length_entries]

theorem Built.root_fits (h : Built m (built files)) (hcount : files.length ≤ NINODES) :
    DinodeFits (rootDinode m) := by
  obtain ⟨a, ha⟩ := h.root
  obtain ⟨hcons, -, hlive⟩ := h.load (k := 0) rfl
  refine fits_of_tidy (f := ⟨T_DIR, []⟩) ha (.inl rfl) hcons.sound.tidy hlive ?_
  rw [ha, Calls.DIRENT_eq]
  change files.length ≤ 200 at hcount
  show (16 * (files.length + 2) / 512 + 1) * 512 ≤ 71680
  omega

theorem sectors_finish {b : Nat} (hb : nmeta ≤ b) : m.finish.sectors b = m.sectors b := by
  have hroot : IBLOCK ROOTINO sb < nmeta := by decide
  have hmap : sb.bmapstart < nmeta := by decide
  unfold Image.finish Image.setDinode Image.setSector
  dsimp only
  rw [update_of_ne (by omega), update_of_ne (by omega)]

theorem readsb_finish (h : Ready m) : readsb m.finish.sectors = sb := by
  refine readsb_eq ?_
  unfold Image.finish Image.setDinode Image.setSector
  dsimp only
  rw [update_of_ne (by decide), update_of_ne (by decide), h.super]

theorem dinode_mount (h : Built m (built files)) (hcount : files.length ≤ NINODES) (j : Nat) :
    (mount m.finish.sectors).dinode j = if j = ROOTINO then rootDinode m else (disk m).dinode j := by
  have hdisk := congrArg Disk.dinode
    (disk_setDinode m (i := ROOTINO) (by decide) (h.root_fits hcount))
  have hmount : (mount m.finish.sectors).dinode j = (disk (m.setDinode ROOTINO (rootDinode m))).dinode j := by
    show (if IBLOCK j (readsb m.finish.sectors) < (readsb m.finish.sectors).bmapstart then _ else _) = _
    rw [readsb_finish h.ready]
    show _ = dinodes _ j
    unfold dinodes
    split
    · next hlt =>
      unfold Image.finish
      have hne : IBLOCK j sb ≠ sb.bmapstart := hlt.ne
      rw [show ∀ (m : Image) b blk, (m.setSector b blk).sectors = update m.sectors b blk from
        fun _ _ _ => rfl, update_of_ne hne]
    · rfl
  rw [hmount, hdisk]
  exact update_apply _ _ _ _

theorem inode_mount (sectors : Nat → Block) (j : Nat) : (mount sectors).inode j = (mount sectors).dinode j :=
  rfl

theorem addrs_mount (h : Built m (built files)) (hcount : files.length ≤ NINODES) (j : Nat) :
    ((mount m.finish.sectors).inode j).addrs = ((disk m).inode j).addrs := by
  rw [inode_mount, dinode_mount h hcount, inode_disk]
  split
  · next hj => rw [hj]; rfl
  · rfl

theorem live_mount (h : Built m (built files)) (hcount : files.length ≤ NINODES) (j : Nat) :
    (mount m.finish.sectors).Live j ↔ (disk m).Live j := by
  unfold Disk.Live
  rw [inode_mount, dinode_mount h hcount, inode_disk]
  split
  · next hj => rw [hj]; rfl
  · rfl

theorem blocks_mount {b : Nat} (hb : nmeta ≤ b) : (mount m.finish.sectors).blocks b = (disk m).blocks b :=
  (sectors_finish hb).trans (if_pos hb).symm

theorem ref_mount (h : Built m (built files)) (hcount : files.length ≤ NINODES)
    (hj : (disk m).Live j) (k : Store.Slot) : (mount m.finish.sectors).ref j k = (disk m).ref j k := by
  have haddrs := addrs_mount h hcount j
  have hind : (mount m.finish.sectors).ref j .indirect = (disk m).ref j .indirect := by
    unfold Disk.ref Dinode.ref
    rw [haddrs]
  cases k with
  | direct k =>
    unfold Disk.ref Dinode.ref
    dsimp only
    rw [haddrs]
  | indirect => exact hind
  | entry e =>
    rw [ref_entry, ref_entry, hind]
    split
    · rfl
    · next h0 => rw [blocks_mount (h.consistent.sound.tidy.area hj h0).1]

theorem view_mount (h : Built m (built files)) (hcount : files.length ≤ NINODES)
    (hj : (disk m).Live j) : (mount m.finish.sectors).view j = (disk m).view j := by
  funext bn
  unfold Disk.view
  rw [ref_mount h hcount hj]
  split
  · next h0 => rw [blocks_mount (h.consistent.sound.tidy.area hj h0.2).1]
  · rfl

theorem bitmap_mount (h : Ready m) {b : Nat} (hb : b < BPB) :
    (mount m.finish.sectors).bitmap b = decide (b < m.freeblock) := by
  show bitAt (m.finish.sectors (BBLOCK b (readsb m.finish.sectors))) (b % BPB) = _
  have hblock : BBLOCK b sb = sb.bmapstart := by
    unfold BBLOCK
    rw [Nat.div_eq_of_lt hb, Nat.zero_add]
  rw [readsb_finish h, hblock, Nat.mod_eq_of_lt hb]
  unfold Image.finish Image.setSector
  dsimp only
  rw [update_self, bitAt_bitmapBlock]

end Xv6.Mkfs
