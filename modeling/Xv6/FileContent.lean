import Xv6.FileBlocks
import Xv6.Lib.BlockArray

/-!
# Reading and writing inodes

`readi` and `writei` go block by block, and `bmap` gives the inode a block where it has none. Seen from outside
an inode is an array of bytes: a write puts its bytes in at the offset, a read returns what is there, and no
other inode is touched.
-/

namespace Xv6.Store

open Hoare
open Function (update update_idem update_self update_of_ne)
open BlockArray (toList length_toList Sparse writeBlock)

/-- Every byte below the size is in a block. -/
def Disk.Full (s : Disk) : Prop :=
  ∀ {i x : Nat}, s.Live i → x < (s.inode i).size → (s.view i (x / BSIZE)).isSome

/-- The block invariant. -/
structure Disk.Sound (sb : Superblock) (s : Disk) : Prop where
  tidy : s.Tidy sb
  full : s.Full

/-- The bytes of an inode. -/
def Disk.content (s : Disk) (i : Nat) : Bytes :=
  toList BSIZE 0 (s.view i) (s.inode i).size

variable {sb : Superblock} {s t u : Disk} {i j b : Nat}

theorem BSIZE_pos : 0 < BSIZE := by decide

theorem length_content (s : Disk) (i : Nat) : (s.content i).length = (s.inode i).size :=
  length_toList _ _

/-- A block is given to the inode, or one that it has is written. -/
inductive WriteStep (sb : Superblock) (i : Nat) : Disk → Disk → Prop
  | gives {k : Slot} {b : Nat} {s t : Disk} (h : Gives sb i k b s t) : WriteStep sb i s t
  | content {s : Disk} {bn : Nat} (hbn : bn < MAXFILE) (h0 : s.ref i (blockSlot bn) ≠ 0) (blk : Block) :
    WriteStep sb i s (s.setBlock (s.ref i (blockSlot bn)) blk)

def Writes (sb : Superblock) (i : Nat) : Disk → Disk → Prop := Relation.ReflTransGen (WriteStep sb i)

theorem Writes.same (h : Writes sb i s t) : SameBut i s t := by
  induction h with
  | refl => exact .refl i s
  | tail _ hstep ih =>
    cases hstep with
    | gives hgives => exact ih.trans hgives.same
    | content => exact ih.trans (sameBut_setBlock i _ _ _)

theorem Writes.tidy (h : Writes sb i s t) (hs : s.Tidy sb) (hi : s.Live i) : t.Tidy sb := by
  induction h with
  | refl => exact hs
  | tail hsteps hstep ih =>
    cases hstep with
    | gives hgives => exact hgives.tidy ih
    | content hbn h0 blk =>
      exact tidy_content ih (((Writes.same hsteps).live i).mpr hi) (blockSlot_ne_indirect hbn) h0 blk

theorem Grows.writes (h : Grows sb i s t) : Writes sb i s t := by
  induction h with
  | refl => exact .refl
  | tail _ hstep ih =>
    obtain ⟨_, _, hgives⟩ := hstep
    exact Relation.ReflTransGen.tail ih (.gives hgives)

/-! ## The loops -/

/-- The bytes from `off` to `last` of inode `i` are written, which leaves it with the blocks `v`. -/
structure Written (sb : Superblock) (i off last : Nat) (v : Sparse Byte) (t s : Disk) : Prop where
  steps : Writes sb i t s
  view : ∀ j, t.Live j → s.view j = if j = i then v else t.view j
  /-- With all blocks there, none is allocated. -/
  inPlace : (∀ x, off ≤ x → x < last → (t.view i (x / BSIZE)).isSome) →
    s.bitmap = t.bitmap ∧ s.icache = t.icache

theorem written_refl (off last : Nat) : Written sb i off last (t.view i) t t where
  steps := .refl
  view j _ := by split <;> simp [*]
  inPlace _ := ⟨rfl, rfl⟩

variable {off n : Nat} {src : Bytes}

theorem Mapped.written {m last : Nat} (h : Mapped sb i (off / BSIZE) t b s)
    (ht : t.Tidy sb) (hi : t.Live i) (hbn : off / BSIZE < MAXFILE) (hlast : off < last) :
    Written sb i off last (writeBlock BSIZE 0 (t.view i) off m src) t
      (s.setBlock b (putBytes (s.blocks b) (off % BSIZE) (src.take m))) := by
  have hlive := h.grows.same.live
  have hblk : s.blocks b = (t.view i (off / BSIZE)).getD fun _ => 0 := by
    have hview := congrFun (h.view i hi) (off / BSIZE)
    rw [if_pos rfl, update_self, view_eq_some_iff, h.here] at hview
    exact hview.2.2
  have h0 : s.ref i (blockSlot (off / BSIZE)) ≠ 0 := by
    rw [h.here]
    exact h.ne
  have hs := h.grows.tidy ht
  refine ⟨?_, fun j hj => ?_, fun hall => ?_⟩
  · rw [← h.here]
    exact h.grows.writes.tail (.content hbn h0 _)
  · rw [hblk, ← h.here, view_content hs ((hlive i).mpr hi) hbn h0 _ ((hlive j).mpr hj), h.view j hj,
      h.view i hi, if_pos rfl, update_idem]
    by_cases hji : j = i
    · rw [if_pos hji, if_pos hji]
      rfl
    · rw [if_neg hji, if_neg hji, if_neg hji]
  · have hold := h.old (isSome_view_iff.mp (hall off (Nat.le_refl _) hlast)).2
    rw [hold]
    exact ⟨rfl, rfl⟩

theorem Written.trans {off' last : Nat} {v w : Sparse Byte}
    (h : Written sb i off last v t s) (h' : Written sb i off' last w s u) (hi : t.Live i)
    (hoff : off ≤ off') (hv : ∀ x, (t.view i x).isSome → (v x).isSome) :
    Written sb i off last w t u where
  steps := Relation.ReflTransGen.trans h.steps h'.steps
  view j hj := by
    rw [h'.view j ((h.steps.same.live j).mpr hj), h.view j hj]
    split <;> rfl
  inPlace hall := by
    obtain ⟨hbits, hcache⟩ := h.inPlace hall
    have hview : s.view i = v := by rw [h.view i hi, if_pos rfl]
    obtain ⟨hbits', hcache'⟩ := h'.inPlace fun x hx hxl => by
      rw [hview]
      exact hv _ (hall x (hoff.trans hx) hxl)
    exact ⟨hbits'.trans hbits, hcache'.trans hcache⟩

theorem writeLoop_triple {fuel : Nat} (ht : t.Tidy sb) (hi : t.Live i)
    (hv : (t.icache i).valid = true) (hend : off + src.length ≤ MAXFILE * BSIZE) :
    Triple (fun s => s = t) (writeLoop sb i fuel off src)
      (fun _ s => Written sb i off (off + src.length)
        (BlockArray.write BSIZE 0 fuel off src (t.view i)) t s)
      (OutOfBlocks sb) := by
  induction fuel generalizing t off src with
  | zero =>
    refine .pure ?_
    rintro s rfl
    exact written_refl _ _
  | succ fuel ih =>
    unfold writeLoop BlockArray.write
    refine .ite (fun h0 => .pure ?_) fun h0 => ?_
    · rintro s rfl
      rw [if_pos h0]
      exact written_refl _ _
    · rw [if_neg h0]
      have hbn : off / BSIZE < MAXFILE := Nat.div_lt_of_lt_mul (by rw [Nat.mul_comm]; omega)
      have hm := Nat.min_le_left src.length (BSIZE - off % BSIZE)
      dsimp only
      generalize min src.length (BSIZE - off % BSIZE) = m at *
      refine .bind (bmap_triple ht hi hv hbn) fun b => .bind
        (R := fun _ s => Written sb i off (off + src.length)
          (writeBlock BSIZE 0 (t.view i) off m src) t s)
        (.modify fun s hs => hs.written ht hi hbn (by omega)) fun _ => ⟨fun s hs => ?_⟩
      have hlast : off + m + (src.drop m).length = off + src.length := by
        rw [List.length_drop]
        omega
      have hview : s.view i = writeBlock BSIZE 0 (t.view i) off m src := by
        rw [hs.view i hi, if_pos rfl]
      have hend' : off + m + (src.drop m).length ≤ MAXFILE * BSIZE := by omega
      have hrest := ih (hs.steps.tidy ht hi) ((hs.steps.same.live i).mpr hi)
        (by rw [hs.steps.same.valid, hv]) hend'
      rw [hlast, hview] at hrest
      exact (hrest.post fun _ u hu => hs.trans hu hi (Nat.le_add_right _ _)
        fun x => BlockArray.isSome_writeBlock).run s rfl

theorem bmap_old (hv : (t.icache i).valid = true) {bn : Nat} (hbn : bn < MAXFILE)
    (h0 : t.ref i (blockSlot bn) ≠ 0) : bmap sb i bn t = .ok (t.ref i (blockSlot bn)) t := by
  have haddr : ∀ k, (t.icache i).copy.addrs k ≠ 0 →
      bmapAddr sb i k t = .ok ((t.icache i).copy.addrs k) t := by
    intro k hk
    unfold bmapAddr
    rw [bind_ok (get_run t), if_neg hk]
    rfl
  have href : ∀ k, t.ref i k = (t.icache i).copy.ref t.blocks k := by
    intro k
    unfold Disk.ref Disk.inode
    rw [if_pos hv]
  rw [href] at h0 ⊢
  unfold bmap
  unfold blockSlot at h0 ⊢
  split
  · next hdirect =>
    rw [dif_pos hdirect] at h0
    exact haddr _ h0
  · next hdirect =>
    have hlt : bn - NDIRECT < NINDIRECT := by
      unfold MAXFILE at hbn
      omega
    rw [dif_neg hdirect, dif_pos hlt] at h0
    rw [if_pos hlt, dif_pos hlt]
    have ha : (t.icache i).copy.addrs (Fin.last NDIRECT) ≠ 0 := fun ha => h0 (if_pos ha)
    unfold Dinode.ref at h0 ⊢
    dsimp only at h0 ⊢
    rw [if_neg ha] at h0 ⊢
    rw [bind_ok (haddr _ ha), bind_ok (get_run t), if_neg h0]
    rfl

theorem readLoop_eq {fuel : Nat} (hv : (t.icache i).valid = true)
    (hall : ∀ x, off ≤ x → x < off + n → (t.view i (x / BSIZE)).isSome) :
    readLoop sb i fuel off n t = .ok (BlockArray.read BSIZE 0 fuel off n (t.view i)) t := by
  induction fuel generalizing off n with
  | zero => rfl
  | succ fuel ih =>
    unfold readLoop BlockArray.read
    split
    · rfl
    · next hn =>
      have hm := Nat.min_le_left n (BSIZE - off % BSIZE)
      dsimp only
      generalize min n (BSIZE - off % BSIZE) = m at *
      obtain ⟨hbn, h0⟩ := isSome_view_iff.mp (hall off (Nat.le_refl _) (by omega))
      have hall' : ∀ x, off + m ≤ x → x < off + m + (n - m) → (t.view i (x / BSIZE)).isSome :=
        fun x hx hxn => hall x (by omega) (by omega)
      rw [bind_ok (bmap_old hv hbn h0), bind_ok (get_run t), bind_ok (ih hall'), view_of_ref hbn h0]
      rfl

/-! ## The size -/

/-- The inode is `d`, in the cache and on the disk. -/
def Disk.setInode (s : Disk) (i : Nat) (d : Dinode) : Disk :=
  { s with
    icache := update s.icache i { s.icache i with copy := d }
    dinode := update s.dinode i d }

theorem icache_setInode (s : Disk) (i : Nat) (d : Dinode) : (s.setInode i d).icache =
    update s.icache i { s.icache i with copy := d } := rfl

theorem dinode_setInode (s : Disk) (i : Nat) (d : Dinode) : (s.setInode i d).dinode =
    update s.dinode i d := rfl

theorem inode_setInode_of_ne (hj : j ≠ i) (d : Dinode) : (s.setInode i d).inode j = s.inode j := by
  unfold Disk.inode
  rw [icache_setInode, dinode_setInode, update_of_ne hj, update_of_ne hj]

theorem inode_setInode (d : Dinode) : (s.setInode i d).inode i = d := by
  unfold Disk.inode
  rw [icache_setInode, dinode_setInode, update_self, update_self]
  split <;> rfl

theorem iupdate_updCopy (s : Disk) (i : Nat) (f : Dinode → Dinode) :
    iupdate i (s.updCopy i f) = .ok () (s.setInode i (f (s.icache i).copy)) := by
  unfold iupdate Disk.setInode
  rw [modify_run]
  unfold Disk.updCopy Disk.updInode
  dsimp only
  rw [update_self]

/-- `ip->size = n; iupdate(ip)`. -/
def Disk.setSize (s : Disk) (i n : Nat) : Disk := s.setInode i { (s.icache i).copy with size := n }

theorem inode_setSize_of_ne (hj : j ≠ i) (n : Nat) : (s.setSize i n).inode j = s.inode j :=
  inode_setInode_of_ne hj _

section
variable (hv : (s.icache i).valid = true)
include hv

theorem inode_setSize (n : Nat) : (s.setSize i n).inode i = { s.inode i with size := n } := by
  have hinode := Disk.inode_of_valid hv
  rw [hinode]
  exact inode_setInode _

theorem live_setSize (n j : Nat) : (s.setSize i n).Live j ↔ s.Live j := by
  unfold Disk.Live
  by_cases hj : j = i
  · rw [hj, inode_setSize hv]
  · rw [inode_setSize_of_ne hj]

theorem ref_setSize (n j : Nat) (k : Slot) : (s.setSize i n).ref j k = s.ref j k := by
  unfold Disk.ref
  by_cases hj : j = i
  · rw [hj, inode_setSize hv]
    rfl
  · rw [inode_setSize_of_ne hj]
    rfl

theorem view_setSize (n j : Nat) : (s.setSize i n).view j = s.view j := by
  funext bn
  unfold Disk.view
  rw [ref_setSize hv]
  rfl

theorem tidy_setSize (hs : s.Tidy sb) (n : Nat) : (s.setSize i n).Tidy sb :=
  hs.of_refs (fun hj _ => ⟨(live_setSize hv n _).mp hj, ref_setSize hv n _ _⟩) fun _ _ hb => hb

end

/-! ## `readi` and `writei` -/

/-- When `readi` returns `-1`. -/
def ReadRefused (size off n : Nat) : Prop := size < off ∨ 2 ^ 32 ≤ off + n

/-- When `writei` returns `-1`. -/
def WriteRefused (size off n : Nat) : Prop :=
  size < off ∨ 2 ^ 32 ≤ off + n ∨ MAXFILE * BSIZE < off + n

theorem wraps_iff (hoff : off < 2 ^ 32) (hn : n < 2 ^ 32) : (off + n) % 2 ^ 32 < off ↔ 2 ^ 32 ≤ off + n := by
  omega

section
variable (hv : (t.icache i).valid = true) (hdev : (t.inode i).type ≠ T_DEV) (hoff : off < 2 ^ 32)
include hv hdev hoff

theorem writei_refused (hn : src.length < 2 ^ 32)
    (h : WriteRefused (t.inode i).size off src.length) : writei sb i off src t = .ok none t := by
  have hinode := Disk.inode_of_valid hv
  unfold WriteRefused at h
  rw [hinode] at hdev h
  unfold writei
  rw [bind_ok (get_run t), if_neg hdev]
  by_cases h1 : (t.icache i).copy.size < off ∨ (off + src.length) % 2 ^ 32 < off
  · rw [if_pos h1]
    rfl
  · rw [if_neg h1, if_pos]
    · rfl
    · rw [wraps_iff hoff hn] at h1
      rw [Nat.mod_eq_of_lt (by omega)]
      omega

theorem writei_triple (ht : t.Tidy sb) (hi : t.Live i)
    (hn : src.length < 2 ^ 32) (hok : ¬ WriteRefused (t.inode i).size off src.length) :
    Triple (fun s => s = t) (writei sb i off src)
      (fun r s => r = some src.length ∧ ∃ u, Written sb i off (off + src.length)
          (BlockArray.write BSIZE 0 src.length off src (t.view i)) t u ∧
        s = if 0 < src.length ∧ (t.inode i).size < off + src.length then u.setSize i (off + src.length)
          else u)
      (OutOfBlocks sb) := by
  have hinode := Disk.inode_of_valid hv
  unfold WriteRefused at hok
  rw [hinode] at hdev hok ⊢
  refine .get fun t' ht' => ?_
  subst ht'
  refine .ite (fun h => absurd h hdev) fun _ => ?_
  refine .ite (fun h => ?_) fun _ => .ite (fun h => ?_) fun _ => ?_
  · rw [wraps_iff hoff hn] at h
    exact absurd (h.imp_right .inl) hok
  · rw [Nat.mod_eq_of_lt (by omega)] at h
    exact absurd (.inr (.inr h)) hok
  · refine .bind (writeLoop_triple ht hi hv (by omega)) fun _ => .get fun u hu => ?_
    have hsize : (u.icache i).copy.size = (t'.icache i).copy.size := by
      obtain ⟨f, hf⟩ := hu.steps.same.own
      rw [hf]
    rw [hsize]
    refine .ite (fun h => ?_) fun h => .pure ?_
    · refine .update (R := fun s => s = u.updCopy i fun d => { d with size := off + src.length })
        (fun s hs => by rw [hs]) <| .bind (R := fun _ s => s = u.setSize i (off + src.length))
        ⟨fun s hs => ?_⟩ fun _ => .pure ?_
      · rw [hs, iupdate_updCopy]
        rfl
      · rintro s rfl
        exact ⟨rfl, u, hu, by rw [if_pos h]⟩
    · rintro s rfl
      exact ⟨rfl, s, hu, by rw [if_neg h]⟩

theorem readi_refused (hn : n < 2 ^ 32)
    (h : ReadRefused (t.inode i).size off n) : readi sb i off n t = .ok none t := by
  have hinode := Disk.inode_of_valid hv
  unfold ReadRefused at h
  rw [hinode] at hdev h
  unfold readi
  rw [bind_ok (get_run t), if_neg hdev, if_pos (by rwa [wraps_iff hoff hn])]
  rfl

theorem readi_present
    (hall : ∀ x, off ≤ x → x < off + n → x < (t.inode i).size → (t.view i (x / BSIZE)).isSome)
    (hn : n < 2 ^ 32) (hok : ¬ ReadRefused (t.inode i).size off n) :
    readi sb i off n t = .ok (some (((t.content i).drop off).take n)) t := by
  have hinode := Disk.inode_of_valid hv
  unfold ReadRefused at hok
  unfold readi Disk.content
  rw [hinode] at hdev hok hall ⊢
  rw [bind_ok (get_run t), if_neg hdev, if_neg (by rwa [wraps_iff hoff hn])]
  generalize hm : (if (t.icache i).copy.size < off + n then (t.icache i).copy.size - off else n) = m
  have hmsize : off + m ≤ (t.icache i).copy.size ∧ m ≤ n := by
    split at hm <;> omega
  rw [bind_ok (readLoop_eq hv fun x hx hxm => hall x hx (by omega) (by omega)),
    BlockArray.read_toList BSIZE_pos (Nat.le_refl m) hmsize.1]
  -- asking for more than there is gives what there is
  have htake : ((toList BSIZE 0 (t.view i) (t.icache i).copy.size).drop off).take m =
      ((toList BSIZE 0 (t.view i) (t.icache i).copy.size).drop off).take n := by
    refine List.take_eq_take_iff.mpr ?_
    rw [List.length_drop, length_toList]
    split at hm <;> omega
  rw [htake]
  rfl

theorem readi_eq (ht : t.Full) (hi : t.Live i) (hn : n < 2 ^ 32)
    (hok : ¬ ReadRefused (t.inode i).size off n) :
    readi sb i off n t = .ok (some (((t.content i).drop off).take n)) t :=
  readi_present hv hdev hoff (fun _ _ _ hx => ht hi hx) hn hok

end

/-- What a write does: the bytes of `src` are in inode `i`, and all else is as it was. -/
structure Spliced (sb : Superblock) (i off : Nat) (src : Bytes) (s t : Disk) : Prop where
  content : t.content i = BlockArray.splice (s.content i) off src
  size : (t.inode i).size = max (s.inode i).size (off + src.length)
  others : ∀ j, j ≠ i → s.Live j → t.content j = s.content j ∧ (t.inode j).size = (s.inode j).size
  sound : t.Sound sb

theorem Written.full
    (h : Written sb i off (off + src.length) (BlockArray.write BSIZE 0 src.length off src (t.view i)) t s)
    (ht : t.Full) {x : Nat} (hj : t.Live j) (hx : x < (t.inode j).size) : (s.view j (x / BSIZE)).isSome := by
  rw [h.view j hj]
  split
  · next hji =>
    subst hji
    exact BlockArray.isSome_write (ht hj hx)
  · exact ht hj hx

theorem Written.spliced
    (h : Written sb i off (off + src.length) (BlockArray.write BSIZE 0 src.length off src (t.view i)) t u)
    (ht : t.Sound sb) (hi : t.Live i) (hv : (t.icache i).valid = true) (hoff : off ≤ (t.inode i).size)
    (hs : s = if 0 < src.length ∧ (t.inode i).size < off + src.length then
      u.setSize i (off + src.length) else u) : Spliced sb i off src t s := by
  have hvu : (u.icache i).valid = true := by rw [h.steps.same.valid, hv]
  have hview : ∀ j, s.view j = u.view j := by
    intro j
    rw [hs]
    split
    · exact view_setSize hvu _ j
    · rfl
  have hlive : ∀ j, s.Live j ↔ t.Live j := by
    intro j
    rw [← h.steps.same.live j, hs]
    split
    · exact live_setSize hvu _ j
    · rfl
  have hsize : (s.inode i).size = max (t.inode i).size (off + src.length) := by
    rw [hs]
    split
    · rw [inode_setSize hvu]
      dsimp only
      omega
    · rw [h.steps.same.size]
      omega
  have hsizes : ∀ j, j ≠ i → (s.inode j).size = (t.inode j).size := by
    intro j hj
    rw [← h.steps.same.size j, hs]
    split
    · rw [inode_setSize_of_ne hj]
    · rfl
  refine ⟨?_, hsize, fun j hj hjl => ⟨?_, hsizes j hj⟩, ?_, fun {j x} hj hx => ?_⟩
  · unfold Disk.content
    rw [hview, h.view i hi, if_pos rfl, hsize]
    exact BlockArray.toList_write BSIZE_pos (Nat.le_refl _) hoff fun x hx => ht.full hi hx
  · unfold Disk.content
    rw [hview, h.view j hjl, if_neg hj, hsizes j hj]
  · have htidy := h.steps.tidy ht.tidy hi
    rw [hs]
    split
    · exact tidy_setSize hvu htidy _
    · exact htidy
  · rw [hlive] at hj
    rw [hview]
    by_cases hji : j = i
    · subst hji
      by_cases hx' : x < (t.inode j).size
      · exact h.full ht.full hj hx'
      · -- a byte that was just written
        rw [hsize] at hx
        rw [h.view j hj, if_pos rfl]
        exact BlockArray.isSome_of_get? (BlockArray.get?_write_inside BSIZE_pos
          (Nat.le_refl src.length) (hoff.trans (Nat.le_of_not_lt hx')) (by omega))
    · rw [hsizes j hji] at hx
      exact h.full ht.full hj hx

/-- Two files. The second has one byte, in block 60, which may be marked in the bit map or not. -/
def twoFiles (marked : Bool) : Disk where
  bitmap b := b < 60 || (marked && b == 60)
  blocks b := if b = 60 then fun _ => 5 else fun _ => 0
  dinode i :=
    if i = 1 then { type := T_FILE, nlink := 1 }
    else if i = 2 then { type := T_FILE, nlink := 1, size := 1, addrs := oneBlock 60 }
    else {}
  icache i :=
    if i = 1 then { ref := 1, locked := true, valid := true, copy := { type := T_FILE, nlink := 1 } }
    else {}

def twoFilesSb : Superblock where
  size := 100
  ninodes := 10
  nmeta := 59
  size_lt := by decide
  ninodes_le := by decide
  nmeta_pos := by decide

theorem inode_twoFiles (marked : Bool) (i : Nat) : (twoFiles marked).inode i =
    if i = 2 then { type := T_FILE, nlink := 1, size := 1, addrs := oneBlock 60 }
    else if i = 1 then { type := T_FILE, nlink := 1 } else {} := by
  unfold Disk.inode twoFiles
  by_cases h1 : i = 1
  · simp [h1]
  · by_cases h2 : i = 2 <;> simp [h1, h2]

theorem oneBlock_twoFiles (marked : Bool) : (twoFiles marked).OneBlock 2 60 where
  own := rfl
  other i hi := by
    rw [inode_twoFiles, if_neg hi]
    split <;> rfl

theorem full_twoFiles (marked : Bool) : (twoFiles marked).Full := by
  intro i x _ hx
  rw [inode_twoFiles] at hx
  by_cases h2 : i = 2
  · rw [if_pos h2] at hx
    obtain rfl : x = 0 := by
      dsimp only at hx
      omega
    subst h2
    rfl
  · rw [if_neg h2] at hx
    split at hx <;> exact absurd hx (Nat.not_lt_zero x)

theorem sound_twoFiles : (twoFiles true).Sound twoFilesSb where
  tidy := (oneBlock_twoFiles true).tidy rfl (by decide) fun b hb => by
    have : b < 60 := Nat.lt_trans hb (by decide)
    simp [twoFiles, this]
  full := full_twoFiles true

end Xv6.Store
