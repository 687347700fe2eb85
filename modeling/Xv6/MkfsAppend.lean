import Xv6.MkfsDisk

/-!
# Appending to a file of the image

The loop of `iappend` against `Written`, what the loop of `writei` is known to do. A file has no blocks
behind its end (`Exact`), so how many blocks an append takes is a matter of the two sizes, and from the sizes
of all files one can tell whether they fit.
-/

namespace Xv6.Mkfs

open Store Hoare
open Calls (mkfsSb)

/-- How many blocks a file of `n` bytes has, with its indirect block. -/
def blocksFor (n : Nat) : Nat :=
  (n + (BSIZE - 1)) / BSIZE + if NDIRECT * BSIZE < n then 1 else 0

theorem blocksFor_mono {n n' : Nat} (h : n ≤ n') : blocksFor n ≤ blocksFor n' := by
  unfold blocksFor
  refine Nat.add_le_add (Nat.div_le_div_right (by omega)) ?_
  grind

/-- The inode has the blocks for `n` bytes, and no more. -/
structure Exact (s : Disk) (i n : Nat) : Prop where
  blocks : ∀ bn < MAXFILE, s.ref i (blockSlot bn) ≠ 0 ↔ bn * BSIZE < n
  indirect : s.ref i .indirect ≠ 0 ↔ NDIRECT * BSIZE < n

variable {m : Image} {i off : Nat} {d : Dinode} {s t : Disk}

/-! ## One block -/

theorem marked_load (ht : (load m i d).Tidy mkfsSb) (hi : (load m i d).Live i) {k : Store.Slot}
    (h0 : (load m i d).ref i k ≠ 0) :
    nmeta ≤ (load m i d).ref i k ∧ (load m i d).ref i k < m.freeblock ∧ (load m i d).ref i k < FSSIZE :=
  ⟨(ht.area hi h0).1, of_decide_eq_true (ht.marked hi h0), (ht.area hi h0).2⟩

theorem free_load (m : Image) (i : Nat) (d : Dinode) : (load m i d).bitmap m.freeblock = false :=
  decide_eq_false (Nat.lt_irrefl _)

theorem addrFor_spec (hm : Ready m) (ht : (load m i d).Tidy mkfsSb) {k : Fin (NDIRECT + 1)}
    (hroom : d.addrs k = 0 → m.freeblock < FSSIZE) :
    d.addrs k ≠ 0 ∧ addrFor d k m = .ok d m ∨ d.addrs k = 0 ∧ ∃ d', d'.addrs k = m.freeblock ∧
      addrFor d k m = .ok d' { m with freeblock := m.freeblock + 1 } ∧
      Gives mkfsSb i (addrSlot k) m.freeblock (load m i d)
        (load { m with freeblock := m.freeblock + 1 } i d') := by
  unfold addrFor
  by_cases h0 : d.addrs k = 0
  · refine .inr ⟨h0, { d with addrs := Function.update d.addrs k m.freeblock },
      Function.update_self _ _ _, ?_, ?_⟩
    · rw [if_pos h0, bind_ok (nextBlock_run m)]
      rfl
    · have hv : ((load m i d).icache i).valid = true := by rw [icache_load]
      have hcopy : ((load m i d).icache i).copy.addrs k = 0 := by rw [icache_load]; exact h0
      have hgives := gives_addr ht hv hcopy (free_load m i d) (hroom h0)
      rwa [alloc_load hm, setAddr_load] at hgives
  · rw [if_neg h0]
    exact .inl ⟨h0, rfl⟩

theorem entryFor_spec (hm : Ready m) (ht : (load m i d).Tidy mkfsSb) (hi : (load m i d).Live i)
    (ha : (load m i d).ref i .indirect ≠ 0) {e : Fin NINDIRECT}
    (hroom : (load m i d).ref i (.entry e) = 0 → m.freeblock < FSSIZE) :
    (load m i d).ref i (.entry e) ≠ 0 ∧ entryFor d e m = .ok ((load m i d).ref i (.entry e)) m ∨
    (load m i d).ref i (.entry e) = 0 ∧ ∃ m', entryFor d e m = .ok m.freeblock m' ∧ Ready m' ∧
      m'.freeblock = m.freeblock + 1 ∧ m'.freeinode = m.freeinode ∧
      Gives mkfsSb i (.entry e) m.freeblock (load m i d) (load m' i d) := by
  have haddr : (load m i d).ref i .indirect = d.addrs (Fin.last NDIRECT) := by
    unfold Disk.ref
    rw [inode_load]
    rfl
  obtain ⟨hmeta, hlt, hsize⟩ := marked_load ht hi ha
  have hword : (load m i d).ref i (.entry e) = word (m.sectors (d.addrs (Fin.last NDIRECT))) e := by
    rw [ref_entry, if_neg ha, blocks_load hmeta, haddr]
  rw [haddr] at hmeta hlt hsize
  unfold entryFor
  rw [bind_ok (rsect_run _ (hm.size ▸ hsize)), hword]
  by_cases h0 : word (m.sectors (d.addrs (Fin.last NDIRECT))) e = 0
  · have hgives := gives_entry ht hi haddr (haddr ▸ ha) (blocks_load hmeta ▸ h0) (free_load m i d)
      (hroom (hword.trans h0))
    rw [alloc_load hm, setBlock_load hmeta, blocks_load hmeta] at hgives
    refine .inr ⟨h0, _, ?_, ready_setSector (ready_nextBlock hm) hmeta (Nat.lt_succ_of_lt hlt) _, rfl, rfl,
      hgives⟩
    rw [if_pos h0, bind_ok (nextBlock_run m), bind_ok (wsect_run _ (hm.size ▸ hsize) _)]
    rfl
  · rw [if_neg h0]
    exact .inl ⟨h0, rfl⟩

theorem Exact.old (h : Exact s i off) (hbn : off / BSIZE < MAXFILE)
    (h0 : s.ref i (blockSlot (off / BSIZE)) ≠ 0) :
    Exact s i (off + 1) ∧ blocksFor (off + 1) = blocksFor off := by
  have hlt : off / 512 * 512 < off := (h.blocks _ hbn).mp h0
  refine ⟨⟨fun bn hbn' => ?_, ?_⟩, ?_⟩
  · rw [h.blocks bn hbn']
    show bn * 512 < off ↔ bn * 512 < off + 1
    omega
  · rw [h.indirect]
    show 6144 < off ↔ 6144 < off + 1
    omega
  · unfold blocksFor
    show (off + 1 + 511) / 512 + (if 6144 < off + 1 then 1 else 0) =
      (off + 511) / 512 + if 6144 < off then 1 else 0
    split <;> split <;> omega

theorem Exact.at_end (h : Exact s i off) (hbn : off / BSIZE < MAXFILE)
    (h0 : s.ref i (blockSlot (off / BSIZE)) = 0) : off = off / BSIZE * BSIZE := by
  have hle : ¬ off / 512 * 512 < off := fun hlt => (h.blocks _ hbn).mpr hlt h0
  show off = off / 512 * 512
  omega

/-- A new block at the end of the file, which does not need the indirect block. -/
theorem blocksFor_succ (hoff : off = off / BSIZE * BSIZE)
    (hind : NDIRECT * BSIZE < off ↔ NDIRECT * BSIZE < off + 1) : blocksFor (off + 1) = blocksFor off + 1 := by
  change off = off / 512 * 512 at hoff
  unfold blocksFor
  simp only [← hind]
  show (off + 1 + 511) / 512 + _ = (off + 511) / 512 + _ + 1
  omega

/-- The direct blocks are full, and there is no indirect block yet. -/
theorem Exact.at_indirect (h : Exact s i off) (hdirect : ¬ off / BSIZE < NDIRECT)
    (ha : s.ref i .indirect = 0) : off = 6144 ∧ blocksFor (off + 1) = blocksFor off + 2 := by
  have hle : ¬ 6144 < off := fun hlt => h.indirect.mpr hlt ha
  change ¬ off / 512 < 12 at hdirect
  obtain rfl : off = 6144 := by omega
  exact ⟨rfl, rfl⟩

theorem exact_of_gives {b : Nat} (hblocks : ∀ bn < MAXFILE, s.ref i (blockSlot bn) ≠ 0 ↔
      bn * BSIZE < off) (hind : s.ref i .indirect ≠ 0 ↔ NDIRECT * BSIZE < off + 1)
    (hbn : off / BSIZE < MAXFILE) (hoff : off = off / BSIZE * BSIZE)
    (hs : s.Tidy mkfsSb) (hi : s.Live i) (h : Gives mkfsSb i (blockSlot (off / BSIZE)) b s t) :
    Exact t i (off + 1) where
  blocks bn hbn' := by
    rw [h.ref i _ hi]
    by_cases heq : bn = off / BSIZE
    · rw [if_pos ⟨rfl, by rw [heq]⟩, heq, ← hoff]
      exact iff_of_true (hs.ne_zero_of_free h.free) (Nat.lt_succ_self off)
    · rw [if_neg fun h => heq (blockSlot_inj hbn' hbn h.2), hblocks bn hbn']
      change bn ≠ off / 512 at heq
      change off = off / 512 * 512 at hoff
      show bn * 512 < off ↔ bn * 512 < off + 1
      omega
  indirect := by
    rw [h.ref i _ hi, if_neg fun h => (blockSlot_ne_indirect hbn) h.2.symm, hind]

theorem blockSlot_direct {fbn : Nat} (h : fbn < NDIRECT) :
    addrSlot ⟨fbn, Nat.lt_succ_of_lt h⟩ = blockSlot fbn := by
  unfold addrSlot blockSlot
  rw [dif_pos h, dif_pos h]

theorem blockSlot_entry {fbn : Nat} (h : ¬ fbn < NDIRECT) (hbn : fbn < MAXFILE) :
    ∃ e : Fin NINDIRECT, e.val = fbn - NDIRECT ∧ blockSlot fbn = .entry e := by
  have hlt : fbn - NDIRECT < NINDIRECT := by
    unfold MAXFILE at hbn
    omega
  refine ⟨⟨_, hlt⟩, rfl, ?_⟩
  unfold blockSlot
  rw [dif_neg h, dif_pos hlt]

theorem ref_addrSlot (m : Image) (i : Nat) (d : Dinode) (k : Fin (NDIRECT + 1)) :
    (load m i d).ref i (addrSlot k) = d.addrs k := by
  unfold Disk.ref
  rw [inode_load]
  cases k using Fin.lastCases with
  | last => rw [addrSlot_last]; rfl
  | cast k => rw [addrSlot_castSucc]; rfl

/-- What `blockFor` does at the offset `off`, the end of what is written of the file. -/
structure Placed (m : Image) (i off : Nat) (d : Dinode) (m' : Image) (d' : Dinode) (x : Nat) : Prop where
  mapped : Mapped mkfsSb i (off / BSIZE) (load m i d) x (load m' i d')
  exact : Exact (load m' i d') i (off + 1)
  ready : Ready m'
  count : m'.freeblock + blocksFor off = m.freeblock + blocksFor (off + 1)
  freeinode : m'.freeinode = m.freeinode

theorem placed_old (hm : Ready m) (h : Exact (load m i d) i off) (hbn : off / BSIZE < MAXFILE)
    (h0 : (load m i d).ref i (blockSlot (off / BSIZE)) ≠ 0) :
    Placed m i off d m d ((load m i d).ref i (blockSlot (off / BSIZE))) where
  mapped := mapped_refl hbn h0
  exact := (h.old hbn h0).1
  ready := hm
  count := by rw [(h.old hbn h0).2]
  freeinode := rfl

section
variable (hm : Ready m) (ht : (load m i d).Tidy mkfsSb) (hi : (load m i d).Live i)
  (h : Exact (load m i d) i off) (hroom : m.freeblock + blocksFor (off + 1) ≤ FSSIZE + blocksFor off)
include hm ht hi h hroom

theorem blockFor_direct (hdirect : off / BSIZE < NDIRECT) :
    ∃ d' x m', blockFor d (off / BSIZE) m = .ok (d', x) m' ∧ Placed m i off d m' d' x := by
  have hbn : off / BSIZE < MAXFILE := hdirect.trans (by decide)
  have hslot := blockSlot_direct hdirect
  have href := ref_addrSlot m i d ⟨_, Nat.lt_succ_of_lt hdirect⟩
  rw [hslot] at href
  -- a new block is one at the end of the file
  have hnew : (load m i d).ref i (blockSlot (off / BSIZE)) = 0 →
      off = off / BSIZE * BSIZE ∧ blocksFor (off + 1) = blocksFor off + 1 ∧
        (NDIRECT * BSIZE < off ↔ NDIRECT * BSIZE < off + 1) := by
    intro h0
    have hoff := h.at_end hbn h0
    have hind : NDIRECT * BSIZE < off ↔ NDIRECT * BSIZE < off + 1 := by
      change off / 512 < 12 at hdirect
      change off = off / 512 * 512 at hoff
      show 6144 < off ↔ 6144 < off + 1
      omega
    exact ⟨hoff, blocksFor_succ hoff hind, hind⟩
  unfold blockFor
  rw [dif_pos hdirect]
  obtain ⟨h0, hrun⟩ | ⟨h0, d', haddr, hrun, hgives⟩ :=
    addrFor_spec (k := ⟨_, Nat.lt_succ_of_lt hdirect⟩) hm ht fun h0 => by
      have := (hnew (href.trans h0)).2.1
      omega
  · refine ⟨d, _, m, ?_, placed_old hm h hbn (href ▸ h0)⟩
    rw [bind_ok hrun, href]
    rfl
  · obtain ⟨hoff, hcount, hind⟩ := hnew (href.trans h0)
    refine ⟨d', m.freeblock, _, ?_, ?_, ?_, ready_nextBlock hm, ?_, rfl⟩
    · rw [bind_ok hrun, haddr]
      rfl
    · rw [hslot] at hgives
      exact hgives.mapped ht hi hbn
    · rw [hslot] at hgives
      exact exact_of_gives h.blocks (h.indirect.trans hind) hbn hoff ht hi hgives
    · rw [hcount]
      dsimp only
      omega

theorem blockFor_entry (hdirect : ¬ off / BSIZE < NDIRECT) (hbn : off / BSIZE < MAXFILE)
    (ha : (load m i d).ref i .indirect ≠ 0) :
    ∃ x m', entryFor d (off / BSIZE - NDIRECT) m = .ok x m' ∧ Placed m i off d m' d x := by
  obtain ⟨e, he, hslot⟩ := blockSlot_entry hdirect hbn
  have hlt : 6144 < off := h.indirect.mp ha
  have hind : NDIRECT * BSIZE < off ↔ NDIRECT * BSIZE < off + 1 := iff_of_true hlt (Nat.lt_succ_of_lt hlt)
  have hnew : (load m i d).ref i (.entry e) = 0 →
      off = off / BSIZE * BSIZE ∧ blocksFor (off + 1) = blocksFor off + 1 := by
    intro h0
    have hoff := h.at_end hbn (hslot ▸ h0)
    exact ⟨hoff, blocksFor_succ hoff hind⟩
  rw [← he]
  obtain ⟨h0, hrun⟩ | ⟨h0, m', hrun, hready, hcount, hino, hgives⟩ :=
    entryFor_spec (e := e) hm ht hi ha fun h0 => by
      have := (hnew h0).2
      omega
  · rw [← hslot] at h0 hrun
    exact ⟨_, m, hrun, placed_old hm h hbn h0⟩
  · obtain ⟨hoff, hblocks⟩ := hnew h0
    rw [← hslot] at hgives
    refine ⟨_, m', hrun, hgives.mapped ht hi hbn, ?_, hready, by omega, hino⟩
    exact exact_of_gives h.blocks (h.indirect.trans hind) hbn hoff ht hi hgives

theorem blockFor_first (hdirect : ¬ off / BSIZE < NDIRECT) (hbn : off / BSIZE < MAXFILE)
    (ha : (load m i d).ref i .indirect = 0) {d' : Dinode}
    (hgives : Gives mkfsSb i .indirect m.freeblock (load m i d)
      (load { m with freeblock := m.freeblock + 1 } i d')) :
    ∃ x m', entryFor d' (off / BSIZE - NDIRECT) { m with freeblock := m.freeblock + 1 } =
      .ok x m' ∧ Placed m i off d m' d' x := by
  obtain ⟨e, he, hslot⟩ := blockSlot_entry hdirect hbn
  obtain ⟨hoff, hblocks⟩ := h.at_indirect hdirect ha
  have hentry : (load m i d).ref i (.entry e) = 0 := by rw [ref_entry, if_pos ha]
  have ht' := hgives.tidy ht
  have hi' := (hgives.same.live i).mpr hi
  have ha' : (load { m with freeblock := m.freeblock + 1 } i d').ref i .indirect ≠ 0 := by
    rw [hgives.ref i _ hi, if_pos ⟨rfl, rfl⟩]
    exact ht.ne_zero_of_free hgives.free
  have hentry' : (load { m with freeblock := m.freeblock + 1 } i d').ref i (.entry e) = 0 := by
    rw [hgives.ref i _ hi, if_neg fun h => Store.Slot.noConfusion h.2, hentry]
  rw [← he]
  obtain ⟨h0, -⟩ | ⟨-, m', hrun, hready, hcount, hino, hgives'⟩ :=
    entryFor_spec (e := e) (ready_nextBlock hm) ht' hi' ha' fun _ => by
      dsimp only
      omega
  · exact absurd hentry' h0
  · rw [← hslot] at hgives'
    refine ⟨_, m', hrun, (hgives'.mapped ht' hi' hbn).indirect hgives ht hi hslot, ?_, hready, ?_, hino⟩
    · refine exact_of_gives (fun bn hbn' => ?_) ?_ hbn (by rw [hoff]; rfl) ht' hi' hgives'
      · rw [hgives.ref i _ hi, if_neg fun h => blockSlot_ne_indirect hbn' h.2]
        exact h.blocks bn hbn'
      · refine iff_of_true ha' ?_
        rw [hoff]
        decide
    · dsimp only at hcount
      omega

theorem blockFor_spec (hbn : off / BSIZE < MAXFILE) :
    ∃ d' x m', blockFor d (off / BSIZE) m = .ok (d', x) m' ∧ Placed m i off d m' d' x := by
  by_cases hdirect : off / BSIZE < NDIRECT
  · exact blockFor_direct hm ht hi h hroom hdirect
  have href := ref_addrSlot m i d (Fin.last _)
  rw [addrSlot_last] at href
  unfold blockFor
  rw [dif_neg hdirect]
  obtain ⟨h0, hrun⟩ | ⟨h0, d', -, hrun, hgives⟩ := addrFor_spec (k := Fin.last NDIRECT) hm ht fun h0 => by
      -- the file ends where the direct blocks do
      have := (h.at_indirect hdirect (href.trans h0)).2
      omega
  · obtain ⟨x, m', hrun', hplaced⟩ := blockFor_entry hm ht hi h hroom hdirect hbn (href ▸ h0)
    refine ⟨d, x, m', ?_, hplaced⟩
    rw [bind_ok hrun, bind_ok hrun']
    rfl
  · rw [addrSlot_last] at hgives
    obtain ⟨x, m', hrun', hplaced⟩ := blockFor_first hm ht hi h hroom hdirect hbn (href.trans h0) hgives
    refine ⟨d', x, m', ?_, hplaced⟩
    rw [bind_ok hrun, bind_ok hrun']
    rfl

end

/-! ## The loop -/

theorem Exact.within {n : Nat} (h : Exact s i (off + 1)) (hn : 0 < n)
    (hle : n ≤ BSIZE - off % BSIZE) : Exact s i (off + n) ∧ blocksFor (off + n) = blocksFor (off + 1) := by
  change n ≤ 512 - off % 512 at hle
  refine ⟨⟨fun bn hbn => ?_, ?_⟩, ?_⟩
  · rw [h.blocks bn hbn]
    show bn * 512 < off + 1 ↔ bn * 512 < off + n
    omega
  · rw [h.indirect]
    show 6144 < off + 1 ↔ 6144 < off + n
    omega
  · show (off + n + 511) / 512 + (if 6144 < off + n then 1 else 0) =
      (off + 1 + 511) / 512 + if 6144 < off + 1 then 1 else 0
    split <;> split <;> omega

/-- The bytes of `p` are in the file from `off` on. -/
structure Appended (m : Image) (i off n : Nat) (v : BlockArray.Sparse Byte) (d : Dinode) (m' : Image)
    (d' : Dinode) : Prop where
  written : Written mkfsSb i off (off + n) v (load m i d) (load m' i d')
  exact : Exact (load m' i d') i (off + n)
  ready : Ready m'
  count : m'.freeblock + blocksFor off = m.freeblock + blocksFor (off + n)
  freeinode : m'.freeinode = m.freeinode

theorem Placed.turn {m' : Image} {d' : Dinode} {x n n1 : Nat} {p : Bytes}
    (h : Placed m i off d m' d' x) (ht : (load m i d).Tidy mkfsSb) (hi : (load m i d).Live i)
    (hbn : off / BSIZE < MAXFILE) (hn1 : 0 < n1) (hle : n1 ≤ BSIZE - off % BSIZE) (hn : n1 ≤ n) :
    nmeta ≤ x ∧ x < m'.freeblock ∧ x < FSSIZE ∧
    ∀ m'', m'' = m'.setSector x (putBytes (m'.sectors x) (off % BSIZE) (p.take n1)) →
      Written mkfsSb i off (off + n)
        (BlockArray.writeBlock BSIZE 0 ((load m i d).view i) off n1 p) (load m i d)
        (load m'' i d') ∧ Exact (load m'' i d') i (off + n1) ∧ Ready m'' ∧
      m''.freeblock + blocksFor off = m.freeblock + blocksFor (off + n1) ∧ m''.freeinode = m.freeinode := by
  have ht' := h.mapped.grows.tidy ht
  have hi' := (h.mapped.grows.same.live i).mpr hi
  have h0 : (load m' i d').ref i (blockSlot (off / BSIZE)) ≠ 0 := by
    rw [h.mapped.here]
    exact h.mapped.ne
  have harea := marked_load ht' hi' h0
  rw [h.mapped.here] at harea
  obtain ⟨hmeta, hlt, hsize⟩ := harea
  refine ⟨hmeta, hlt, hsize, ?_⟩
  rintro m'' rfl
  obtain ⟨hexact, hcount⟩ := h.exact.within hn1 hle
  have hwritten : Written mkfsSb i off (off + n)
      (BlockArray.writeBlock BSIZE 0 ((load m i d).view i) off n1 p) (load m i d) _ :=
    h.mapped.written ht hi hbn (by omega)
  rw [setBlock_load hmeta, blocks_load hmeta] at hwritten
  have hrefs : ∀ k, (load (m'.setSector x (putBytes (m'.sectors x) (off % BSIZE) (p.take n1)))
      i d').ref i k = (load m' i d').ref i k := by
    intro k
    have href := ref_content ht' hi' (blockSlot_ne_indirect hbn) h0
      (putBytes (m'.sectors x) (off % BSIZE) (p.take n1)) hi' k
    rwa [h.mapped.here, setBlock_load hmeta] at href
  refine ⟨hwritten, ⟨fun bn hbn' => ?_, ?_⟩, ready_setSector h.ready hmeta hlt _, ?_, h.freeinode⟩
  · rw [hrefs]
    exact hexact.blocks bn hbn'
  · rw [hrefs]
    exact hexact.indirect
  · have := h.count
    show m'.freeblock + blocksFor off = _
    omega

theorem appendLoop_spec {fuel : Nat} {p : Bytes} (hm : Ready m) (ht : (load m i d).Tidy mkfsSb)
    (hi : (load m i d).Live i) (h : Exact (load m i d) i off) (hfuel : p.length ≤ fuel)
    (hend : off + p.length ≤ MAXFILE * BSIZE)
    (hroom : m.freeblock + blocksFor (off + p.length) ≤ FSSIZE + blocksFor off) :
    ∃ d' m', appendLoop fuel d off p m = .ok (d', off + p.length) m' ∧
      Appended m i off p.length (BlockArray.write BSIZE 0 fuel off p ((load m i d).view i)) d m' d' := by
  induction fuel generalizing m d off p with
  | zero =>
    have hp : p.length = 0 := by omega
    rw [hp]
    exact ⟨d, m, rfl, written_refl _ _, h, hm, rfl, rfl⟩
  | succ fuel ih =>
    unfold appendLoop BlockArray.write
    by_cases hp : p.length = 0
    · rw [if_pos hp, if_pos hp, hp]
      exact ⟨d, m, rfl, written_refl _ _, h, hm, rfl, rfl⟩
    rw [if_neg hp, if_neg hp]
    have hbn : off / BSIZE < MAXFILE := Nat.div_lt_of_lt_mul (by rw [Nat.mul_comm]; omega)
    have hrest : (off / BSIZE + 1) * BSIZE - off = BSIZE - off % BSIZE := by
      show (off / 512 + 1) * 512 - off = 512 - off % 512
      omega
    have hstart : off - off / BSIZE * BSIZE = off % BSIZE := by
      show off - off / 512 * 512 = off % 512
      omega
    dsimp only
    rw [hrest, hstart]
    obtain ⟨hpos, hlen, hle⟩ := BlockArray.turn_bounds off (by decide : 0 < BSIZE) hp
    generalize min p.length (BSIZE - off % BSIZE) = n1 at *
    have hfirst : blocksFor (off + 1) ≤ blocksFor (off + p.length) := blocksFor_mono (by omega)
    obtain ⟨d', x, m', hrun, hplaced⟩ := blockFor_spec hm ht hi h (by omega) hbn
    obtain ⟨hmeta, hlt, hsize, hturn⟩ := hplaced.turn (n := p.length) (p := p) ht hi hbn hpos hle hlen
    obtain ⟨hwritten, hexact, hready, hcount, hino⟩ := hturn _ rfl
    have hassert : assert (decide (off / BSIZE < MAXFILE)) m = .ok () m := by
      unfold assert
      rw [decide_eq_true hbn]
      rfl
    have hxsize : x < m'.size := by
      rw [hplaced.ready.size]
      exact hsize
    rw [bind_ok hassert, bind_ok hrun]
    dsimp only
    rw [bind_ok (rsect_run x hxsize), bind_ok (wsect_run x hxsize _)]
    have hlast : off + n1 + (p.drop n1).length = off + p.length := by
      rw [List.length_drop]
      omega
    have hsame := hwritten.steps.same
    obtain ⟨d'', m'', hrun', happ⟩ := ih (p := p.drop n1) hready (hwritten.steps.tidy ht hi)
      ((hsame.live i).mpr hi) hexact (by omega) (by rwa [hlast]) (by rw [hlast]; omega)
    rw [hlast] at hrun'
    have hview : (load (m'.setSector x (putBytes (m'.sectors x) (off % BSIZE) (p.take n1)))
        i d').view i = BlockArray.writeBlock BSIZE 0 ((load m i d).view i) off n1 p := by
      rw [hwritten.view i hi, if_pos rfl]
    have hwritten' := happ.written
    have hexact' := happ.exact
    have hcount' := happ.count
    rw [hlast] at hwritten' hexact' hcount'
    rw [hview] at hwritten'
    refine ⟨d'', m'', hrun', ?_, hexact', happ.ready, by omega, happ.freeinode.trans hino⟩
    exact hwritten.trans hwritten' hi (Nat.le_add_right _ _) fun x => BlockArray.isSome_writeBlock

end Xv6.Mkfs
