import Xv6.Mkfs

/-!
# The image as a disk

While `mkfs` fills the image, the image is a file system. That is `disk`; in `load` the inode that `iappend`
works on is in memory. A turn of the loop of `iappend` does to `load` what a turn of the loop of `writei`
does, so what is known of writing inodes holds for `iappend`.
-/

namespace Xv6.Mkfs

open Function (update update_apply update_self update_of_ne update_eq_self)
open Store Hoare
open Layout.Field (Fits)

/-! ## Records -/

theorem bytesAt_putBytes_self (blk : Block) (x : Nat) (l : Bytes) :
    bytesAt (putBytes blk x l) x l.length = l := by
  refine List.ext_getElem (by simp [bytesAt]) fun y _ hy => ?_
  simp [bytesAt, putBytes, hy]

theorem bytesAt_putBytes_of_disjoint (blk : Block) {x y n : Nat} {l : Bytes}
    (h : y + n ≤ x ∨ x + l.length ≤ y) : bytesAt (putBytes blk x l) y n = bytesAt blk y n := by
  unfold bytesAt
  refine List.map_congr_left fun z hz => ?_
  rw [List.mem_range] at hz
  unfold putBytes
  rw [if_neg (by omega)]

/-- The fields of the inode are in range. -/
structure DinodeFits (d : Dinode) : Prop where
  type : d.type < 2 ^ 16
  major : d.major < 2 ^ 16
  minor : d.minor < 2 ^ 16
  nlink : -2 ^ 15 ≤ d.nlink ∧ d.nlink < 2 ^ 15
  size : d.size < 2 ^ 32
  addrs : ∀ k, d.addrs k < 2 ^ 32

variable {d : Dinode}

theorem dinodeOfValues_dinodeValues (h : DinodeFits d) : dinodeOfValues (dinodeValues d) = d := by
  obtain ⟨type, major, minor, nlink, size, addrs⟩ := d
  obtain ⟨-, -, -, hnlink, -, -⟩ := h
  dsimp only at hnlink
  have haddrs : ∀ k : Fin (NDIRECT + 1),
      (dinodeValues ⟨type, major, minor, nlink, size, addrs⟩).getD (5 + k) 0 = addrs k := by
    intro k
    rw [List.getD_eq_getElem?_getD, dinodeValues, List.getElem?_append_right (Nat.le_add_right 5 k)]
    show ((List.ofFn addrs)[5 + k.val - 5]?).getD 0 = addrs k
    rw [Nat.add_sub_cancel_left, List.getElem?_ofFn, dif_pos k.isLt]
    rfl
  have hlinks : (if (nlink % 2 ^ 16).toNat < 2 ^ 15 then ((nlink % 2 ^ 16).toNat : Int)
      else ((nlink % 2 ^ 16).toNat : Int) - 2 ^ 16) = nlink := by
    split <;> omega
  unfold dinodeOfValues
  congr 1
  exact funext haddrs

theorem fits_dinode (h : DinodeFits d) : ∀ f ∈ dinodeWidths.zip (dinodeValues d), Fits f := by
  have haddrs : ∀ f ∈ (List.replicate (NDIRECT + 1) 4).zip (List.ofFn d.addrs), Fits f := by
    rintro ⟨w, v⟩ hf
    obtain ⟨hw, hv⟩ := List.of_mem_zip hf
    obtain ⟨k, rfl⟩ := List.mem_ofFn.mp hv
    rw [List.eq_of_mem_replicate hw]
    exact h.addrs k
  have hlinks : (d.nlink % 2 ^ 16).toNat < 2 ^ 16 := by omega
  have hhead : dinodeWidths.zip (dinodeValues d) =
      [(2, d.type), (2, d.major), (2, d.minor), (2, (d.nlink % 2 ^ 16).toNat), (4, d.size)] ++
        (List.replicate (NDIRECT + 1) 4).zip (List.ofFn d.addrs) := rfl
  rw [hhead]
  refine List.forall_mem_append.mpr ⟨?_, haddrs⟩
  rintro f hf
  simp only [List.mem_cons, List.not_mem_nil, or_false] at hf
  obtain rfl | rfl | rfl | rfl | rfl := hf
  · exact h.type
  · exact h.major
  · exact h.minor
  · exact hlinks
  · exact h.size

theorem length_dinodeWidths (d : Dinode) : dinodeWidths.length = (dinodeValues d).length := by
  simp [dinodeWidths, dinodeValues]

theorem length_dinodeToBytes (d : Dinode) : (dinodeToBytes d).length = DINODE := by
  unfold dinodeToBytes
  rw [Layout.length_encode, List.map_fst_zip (length_dinodeWidths d).le]
  rfl

theorem dinodeAt_putDinode (blk : Block) (h : DinodeFits d) (n n' : Nat) :
    dinodeAt (putDinode blk n d) n' = if n' = n then d else dinodeAt blk n' := by
  have hlen := length_dinodeToBytes d
  unfold dinodeAt putDinode
  by_cases hn : n' = n
  · rw [if_pos hn, hn]
    nth_rewrite 3 [← hlen]
    rw [bytesAt_putBytes_self, dinodeToBytes,
      Layout.decode_encode_zip (length_dinodeWidths d) (fits_dinode h), dinodeOfValues_dinodeValues h]
  · rw [if_neg hn, bytesAt_putBytes_of_disjoint]
    rw [hlen]
    unfold DINODE
    omega

theorem ofValues_values (sb : Super) : Super.ofValues sb.values = sb := rfl

theorem readsb_eq {sectors : Nat → Block} (h : sectors 1 = putBytes zeroes 0 sb.toBytes) :
    readsb sectors = sb := by
  have hfits : ∀ f ∈ Super.widths.zip sb.values, Fits f := by
    unfold Fits
    decide
  have hlen : sb.toBytes.length = 28 := by
    unfold Super.toBytes
    rw [Layout.length_encode]
    rfl
  have hround : Layout.decode Super.widths sb.toBytes = sb.values := Layout.decode_encode_zip rfl hfits
  unfold readsb
  rw [h, ← hlen, bytesAt_putBytes_self, hround, ofValues_values]

theorem getLsbD_mask (bi r : Nat) : (mask bi).getLsbD r = decide (r = bi % 8) := by
  unfold mask
  rw [← BitVec.twoPow_eq, BitVec.getLsbD_twoPow]
  have hlt : bi % 8 < 8 := Nat.mod_lt _ (by decide)
  grind

theorem mask_ne_zero (bi : Nat) : mask bi ≠ 0#8 := by
  intro h
  have hbit := getLsbD_mask bi (bi % 8)
  rw [h] at hbit
  simp at hbit

theorem bitAt_eq (blk : Block) (bi : Nat) : bitAt blk bi = (blk (bi / 8)).getLsbD (bi % 8) := by
  have hand : blk (bi / 8) &&& mask bi = if (blk (bi / 8)).getLsbD (bi % 8) then mask bi else 0 := by
    unfold mask
    rw [← BitVec.twoPow_eq, BitVec.and_twoPow]
    rfl
  unfold bitAt
  rw [hand]
  cases (blk (bi / 8)).getLsbD (bi % 8)
  · simp
  · simp [mask_ne_zero]

theorem bitmapBlock_succ (n : Nat) : bitmapBlock (n + 1) =
    update (bitmapBlock n) (n / 8) (bitmapBlock n (n / 8) ||| mask n) := by
  unfold bitmapBlock
  rw [List.range_succ, List.foldl_append]
  rfl

theorem bitAt_bitmapBlock (used bi : Nat) : bitAt (bitmapBlock used) bi = decide (bi < used) := by
  rw [bitAt_eq]
  induction used with
  | zero => simp [bitmapBlock, zeroes]
  | succ n ih =>
    rw [bitmapBlock_succ, update_apply]
    split
    · next hbyte =>
      rw [BitVec.getLsbD_or, getLsbD_mask, ← hbyte, ih]
      grind
    · rw [ih]
      grind

/-! ## The image as a disk -/

/-- How many inodes there is room for. -/
def inodeRoom : Nat := IPB * ninodeblocks

/-- The inodes in the inode blocks. -/
def dinodes (sectors : Nat → Block) (i : Nat) : Dinode :=
  if IBLOCK i sb < sb.bmapstart then dinodeAt (sectors (IBLOCK i sb)) (i % IPB) else {}

/-- The file system in the image. -/
def disk (m : Image) : Disk where
  bitmap b := b < m.freeblock
  blocks b := if nmeta ≤ b then m.sectors b else zeroes
  dinode := dinodes m.sectors
  icache _ := {}

/-- The same, with inode `i` in memory. -/
def load (m : Image) (i : Nat) (d : Dinode) : Disk :=
  (disk m).updInode i fun _ => { valid := true, copy := d }

/-- The image between two steps of `mkfs`. -/
structure Ready (m : Image) : Prop where
  size : m.size = FSSIZE
  meta_le : nmeta ≤ m.freeblock
  zeros : ∀ b, m.freeblock ≤ b → m.sectors b = zeroes
  super : m.sectors 1 = putBytes zeroes 0 sb.toBytes

variable {m : Image} {i : Nat}

theorem IBLOCK_lt {i : Nat} : IBLOCK i sb < sb.bmapstart ↔ i < inodeRoom := by
  show i / 8 + 32 < 58 ↔ i < 208
  omega

theorem rsect_run (sec : Nat) (h : sec < m.size) : rsect sec m = .ok (m.sectors sec) m := by
  unfold rsect
  rw [bind_ok (get_run m), if_pos h]
  rfl

def Image.setSector (m : Image) (sec : Nat) (buf : Block) : Image :=
  { m with sectors := update m.sectors sec buf }

theorem wsect_run (sec : Nat) (h : sec < m.size) (buf : Block) :
    wsect sec buf m = .ok () (m.setSector sec buf) := by
  unfold wsect Image.setSector
  rw [modify_run, Nat.max_eq_left h]

/-- Inode `i` is written to its block. -/
def Image.setDinode (m : Image) (i : Nat) (d : Dinode) : Image :=
  m.setSector (IBLOCK i sb) (putDinode (m.sectors (IBLOCK i sb)) (i % IPB) d)

theorem IBLOCK_lt_size (hm : m.size = FSSIZE) (hi : i < inodeRoom) : IBLOCK i sb < m.size := by
  rw [hm]
  exact (IBLOCK_lt.mpr hi).trans (by decide)

theorem winode_run (hm : m.size = FSSIZE) (hi : i < inodeRoom) (d : Dinode) :
    winode i d m = .ok () (m.setDinode i d) := by
  have hlt := IBLOCK_lt_size hm hi
  unfold winode
  rw [bind_ok (rsect_run _ hlt), wsect_run _ hlt]
  rfl

theorem rinode_run (hm : m.size = FSSIZE) (hi : i < inodeRoom) : rinode i m = .ok ((disk m).dinode i) m := by
  unfold rinode
  rw [bind_ok (rsect_run _ (IBLOCK_lt_size hm hi))]
  show EStateM.Result.ok _ m = .ok (dinodes m.sectors i) m
  unfold dinodes
  rw [if_pos (IBLOCK_lt.mpr hi)]

theorem dinodes_update (sectors : Nat → Block) (hi : i < inodeRoom) (hd : DinodeFits d) :
    dinodes (update sectors (IBLOCK i sb) (putDinode (sectors (IBLOCK i sb)) (i % IPB) d)) =
      update (dinodes sectors) i d := by
  funext j
  rw [update_apply]
  unfold dinodes
  by_cases hblk : IBLOCK j sb = IBLOCK i sb
  · rw [hblk, if_pos (IBLOCK_lt.mpr hi), update_self, dinodeAt_putDinode _ hd]
    have hji : j % IPB = i % IPB ↔ j = i := by
      change j / 8 + 32 = i / 8 + 32 at hblk
      show j % 8 = i % 8 ↔ j = i
      omega
    rw [if_pos (IBLOCK_lt.mpr hi)]
    simp only [hji]
  · have hji : j ≠ i := fun h => hblk (congrArg (IBLOCK · sb) h)
    rw [update_of_ne hblk, if_neg hji]

theorem disk_setDinode (m : Image) (hi : i < inodeRoom) (hd : DinodeFits d) :
    disk (m.setDinode i d) = { disk m with dinode := update (disk m).dinode i d } := by
  have hlt : IBLOCK i sb < nmeta := (IBLOCK_lt.mpr hi).trans (by decide)
  have hblocks : (disk (m.setDinode i d)).blocks = (disk m).blocks := by
    funext b
    show (if nmeta ≤ b then update m.sectors _ _ b else zeroes) = _
    split
    · next hb => rw [update_of_ne (by omega)]; exact (if_pos hb).symm
    · next hb => exact (if_neg hb).symm
  unfold disk Image.setDinode Image.setSector at *
  dsimp only at *
  rw [dinodes_update _ hi hd, hblocks]

theorem ready_setDinode (hm : Ready m) (hi : i < inodeRoom) (d : Dinode) : Ready (m.setDinode i d) where
  size := hm.size
  meta_le := hm.meta_le
  zeros b hb := by
    have hlt : IBLOCK i sb < nmeta := (IBLOCK_lt.mpr hi).trans (by decide)
    have hmeta := hm.meta_le
    change m.freeblock ≤ b at hb
    exact (update_of_ne (by omega) _ _).trans (hm.zeros b hb)
  super := by
    have hne : 1 ≠ IBLOCK i sb := by
      show 1 ≠ i / 8 + 32
      omega
    unfold Image.setDinode Image.setSector
    dsimp only
    rw [update_of_ne hne, hm.super]

/-! ## The inode in memory -/

theorem icache_load (m : Image) (i : Nat) (d : Dinode) :
    (load m i d).icache i = { valid := true, copy := d } := update_self _ _ _

theorem inode_load (m : Image) (i : Nat) (d : Dinode) : (load m i d).inode i = d := by
  unfold Disk.inode
  rw [icache_load]
  rfl

theorem inode_load_of_ne {j : Nat} (hj : j ≠ i) (m : Image) (d : Dinode) :
    (load m i d).inode j = (disk m).dinode j := by
  have hcache : (load m i d).icache j = (disk m).icache j := update_of_ne hj _ _
  unfold Disk.inode
  rw [hcache]
  rfl

theorem alloc_load (hm : Ready m) (i : Nat) (d : Dinode) :
    (load m i d).alloc m.freeblock = load { m with freeblock := m.freeblock + 1 } i d := by
  have hbits : update (disk m).bitmap m.freeblock true =
      (disk { m with freeblock := m.freeblock + 1 }).bitmap := by
    funext b
    rw [update_apply]
    show (if b = m.freeblock then true else decide (b < m.freeblock)) = decide (b < m.freeblock + 1)
    grind
  have hzero : (disk m).blocks m.freeblock = fun _ => 0 :=
    (if_pos hm.meta_le).trans (hm.zeros _ (Nat.le_refl _))
  unfold load Disk.alloc Disk.updInode
  dsimp only
  rw [hbits, ← hzero, update_eq_self]
  rfl

theorem setAddr_load (m : Image) (i : Nat) (d : Dinode) (k : Fin (NDIRECT + 1)) (b : Nat) :
    (load m i d).setAddr i k b = load m i { d with addrs := update d.addrs k b } := by
  unfold Disk.setAddr Disk.updCopy load Disk.updInode
  simp

theorem blocks_load {b : Nat} (hb : nmeta ≤ b) : (load m i d).blocks b = m.sectors b := if_pos hb

theorem setBlock_load {b : Nat} (hb : nmeta ≤ b) (blk : Block) :
    (load m i d).setBlock b blk = load (m.setSector b blk) i d := by
  have hblocks : update (disk m).blocks b blk = (disk (m.setSector b blk)).blocks := by
    funext b'
    show _ = if nmeta ≤ b' then update m.sectors b blk b' else zeroes
    rw [update_apply, update_apply]
    by_cases hbb : b' = b
    · rw [if_pos hbb, if_pos hbb, if_pos (hbb ▸ hb)]
    · rw [if_neg hbb, if_neg hbb]
      rfl
  have hdinodes : dinodes (update m.sectors b blk) = dinodes m.sectors := by
    funext j
    unfold dinodes
    split
    · next hj =>
      have hlt : IBLOCK j sb < nmeta := hj.trans (by decide)
      rw [update_of_ne (by omega)]
    · rfl
  unfold load Disk.setBlock Disk.updInode
  dsimp only
  rw [hblocks]
  unfold disk Image.setSector
  dsimp only
  rw [hdinodes]

theorem ready_setSector (hm : Ready m) {b : Nat} (hb : nmeta ≤ b) (hlt : b < m.freeblock) (blk : Block) :
    Ready (m.setSector b blk) where
  size := hm.size
  meta_le := hm.meta_le
  zeros b' hb' := by
    unfold Image.setSector at hb' ⊢
    dsimp only at hb' ⊢
    rw [update_of_ne (by omega), hm.zeros b' hb']
  super := by
    have hmeta : 1 < nmeta := by decide
    unfold Image.setSector
    dsimp only
    rw [update_of_ne (by omega), hm.super]

theorem ready_nextBlock (hm : Ready m) : Ready { m with freeblock := m.freeblock + 1 } where
  size := hm.size
  meta_le := hm.meta_le.trans (Nat.le_succ _)
  zeros b hb := hm.zeros b (Nat.le_of_succ_le hb)
  super := hm.super

theorem nextBlock_run (m : Image) :
    nextBlock m = .ok m.freeblock { m with freeblock := m.freeblock + 1 } := rfl

end Xv6.Mkfs
