import Xv6.Store

/-!
# The blocks of an inode

An inode keeps block numbers in 141 places: the direct ones, the one for its indirect block, and those in the
indirect block. As long as no number stands in two places, giving a block to one place (`Gives`) or writing
to one content block (`setBlock`) changes nothing anywhere else.
-/

namespace Xv6.Store

open Function (update update_self update_apply update_of_ne update_eq_self)
open Hoare

/-! ## Places -/

/-- A place for a block number. -/
inductive Slot where
  | direct (k : Fin NDIRECT)
  | indirect
  | entry (j : Fin NINDIRECT)
  deriving DecidableEq

/-- The place in `addrs`. -/
def addrSlot (k : Fin (NDIRECT + 1)) : Slot := if h : k.val < NDIRECT then .direct ⟨k, h⟩ else .indirect

/-- The place of block `bn` of the content, for `bn < MAXFILE`. -/
def blockSlot (bn : Nat) : Slot :=
  if h : bn < NDIRECT then .direct ⟨bn, h⟩
  else if h : bn - NDIRECT < NINDIRECT then .entry ⟨bn - NDIRECT, h⟩
  else .indirect

/-- The block number in a place, `0` for none. -/
def Dinode.ref (d : Dinode) (blocks : Nat → Block) : Slot → Nat
  | .direct k => d.addrs k.castSucc
  | .indirect => d.addrs (Fin.last NDIRECT)
  | .entry j =>
    if d.addrs (Fin.last NDIRECT) = 0 then 0 else word (blocks (d.addrs (Fin.last NDIRECT))) j

/-- An inode as the file system has it: the copy in the cache, if that was read. -/
def Disk.inode (s : Disk) (i : Nat) : Dinode :=
  if (s.icache i).valid then (s.icache i).copy else s.dinode i

theorem Disk.inode_of_valid {s : Disk} {i : Nat} (hv : (s.icache i).valid = true) :
    s.inode i = (s.icache i).copy := if_pos hv

def Disk.ref (s : Disk) (i : Nat) (k : Slot) : Nat := (s.inode i).ref s.blocks k

theorem ref_entry (s : Disk) (i : Nat) (e : Fin NINDIRECT) : s.ref i (.entry e) =
    if s.ref i .indirect = 0 then 0 else word (s.blocks (s.ref i .indirect)) e := rfl

/-- The inode is allocated. -/
def Disk.Live (s : Disk) (i : Nat) : Prop := (s.inode i).type ≠ 0

/-- The content block `bn` of an inode, if it has one. -/
def Disk.view (s : Disk) (i bn : Nat) : Option Block :=
  if bn < MAXFILE ∧ s.ref i (blockSlot bn) ≠ 0 then some (s.blocks (s.ref i (blockSlot bn))) else none

variable {s : Disk} {i bn : Nat}

theorem view_eq_some_iff {blk : Block} : s.view i bn = some blk ↔
    bn < MAXFILE ∧ s.ref i (blockSlot bn) ≠ 0 ∧ s.blocks (s.ref i (blockSlot bn)) = blk := by
  unfold Disk.view
  split
  · next h => simp [h]
  · next h =>
    refine ⟨nofun, fun h' => absurd ⟨h'.1, h'.2.1⟩ h⟩

theorem view_of_ref (hbn : bn < MAXFILE) (h0 : s.ref i (blockSlot bn) ≠ 0) :
    s.view i bn = some (s.blocks (s.ref i (blockSlot bn))) := if_pos ⟨hbn, h0⟩

theorem isSome_view_iff : (s.view i bn).isSome ↔ bn < MAXFILE ∧ s.ref i (blockSlot bn) ≠ 0 := by
  unfold Disk.view
  split <;> simp [*]

theorem blockSlot_ne_indirect (h : bn < MAXFILE) : blockSlot bn ≠ .indirect := by
  unfold blockSlot MAXFILE at *
  split
  · nofun
  · split
    · nofun
    · omega

theorem blockSlot_inj {bn' : Nat} (h : bn < MAXFILE) (h' : bn' < MAXFILE)
    (heq : blockSlot bn = blockSlot bn') : bn = bn' := by
  unfold blockSlot MAXFILE at *
  by_cases h1 : bn < NDIRECT <;> by_cases h2 : bn' < NDIRECT
  · rw [dif_pos h1, dif_pos h2] at heq
    simpa using heq
  · rw [dif_pos h1, dif_neg h2, dif_pos (by omega)] at heq
    cases heq
  · rw [dif_neg h1, dif_pos h2, dif_pos (by omega)] at heq
    cases heq
  · rw [dif_neg h1, dif_neg h2, dif_pos (by omega), dif_pos (by omega), Slot.entry.injEq, Fin.mk.injEq] at heq
    omega

theorem addrSlot_castSucc (k : Fin NDIRECT) : addrSlot k.castSucc = .direct k := dif_pos k.isLt

theorem addrSlot_last : addrSlot (Fin.last NDIRECT) = .indirect := dif_neg (Nat.lt_irrefl _)

theorem word_zero (j : Nat) : word (fun _ => 0) j = 0 := rfl

theorem word_putWord_self (blk : Block) (j : Nat) {v : Nat} (h : v < 2 ^ 32) :
    word (putWord blk j v) j = v := by
  have hdiv : ∀ n < 4, (4 * j + n) / 4 = j ∧ (4 * j + n) % 4 = n := by omega
  have hbyte : ∀ n < 4, putWord blk j v (4 * j + n) = BitVec.ofNat 8 (v / 256 ^ n) := by
    intro n hn
    unfold putWord
    rw [if_pos (hdiv n hn).1, (hdiv n hn).2]
  unfold word
  rw [show 4 * j = 4 * j + 0 from rfl, hbyte 0 (by decide), hbyte 1 (by decide), hbyte 2 (by decide),
    hbyte 3 (by decide)]
  simp only [BitVec.toNat_ofNat]
  omega

theorem word_putWord_of_ne (blk : Block) {j j' : Nat} (v : Nat) (h : j' ≠ j) :
    word (putWord blk j v) j' = word blk j' := by
  have hbyte : ∀ n < 4, putWord blk j v (4 * j' + n) = blk (4 * j' + n) := by
    intro n hn
    unfold putWord
    rw [if_neg (by omega)]
  unfold word
  rw [show 4 * j' = 4 * j' + 0 from rfl, hbyte 0 (by decide), hbyte 1 (by decide), hbyte 2 (by decide),
    hbyte 3 (by decide)]

/-! ## The invariant -/

/-- No block number stands in two places. -/
def Disk.Distinct (s : Disk) : Prop :=
  ∀ {i j : Nat} {k l : Slot}, s.Live i → s.Live j → s.ref i k = s.ref j l → s.ref i k ≠ 0 → i = j ∧ k = l

/-- The block numbers are distinct, all of them are those of data blocks, and they are marked. -/
structure Disk.Tidy (sb : Superblock) (s : Disk) : Prop where
  inj : s.Distinct
  marked : ∀ {i : Nat} {k : Slot}, s.Live i → s.ref i k ≠ 0 → s.bitmap (s.ref i k) = true
  area : ∀ {i : Nat} {k : Slot}, s.Live i → s.ref i k ≠ 0 → sb.nmeta ≤ s.ref i k ∧ s.ref i k < sb.size
  /-- The blocks before the first data block are never given out. -/
  reserved : ∀ b < sb.nmeta, s.bitmap b = true

/-- Inode `n` has the one block `b`, and no other inode has any. -/
structure Disk.OneBlock (s : Disk) (n b : Nat) : Prop where
  own : (s.inode n).addrs = oneBlock b
  other : ∀ i, i ≠ n → (s.inode i).addrs = fun _ => 0

section
variable {n b : Nat} (h : s.OneBlock n b)
include h

theorem Disk.OneBlock.ref {k : Slot} (h0 : s.ref i k ≠ 0) :
    i = n ∧ k = .direct ⟨0, by decide⟩ ∧ s.ref i k = b := by
  unfold Disk.ref Dinode.ref at h0 ⊢
  by_cases hi : i = n
  · subst hi
    cases k with
    | direct k =>
      dsimp only at h0 ⊢
      rw [h.own] at h0 ⊢
      by_cases hk : k.castSucc = 0
      · have hval : k.val = 0 := congrArg Fin.val hk
        exact ⟨rfl, congrArg _ (Fin.ext hval), if_pos hk⟩
      · exact absurd (if_neg hk) h0
    | indirect | entry j =>
      dsimp only at h0
      rw [h.own] at h0
      exact absurd rfl h0
  · rw [h.other i hi] at h0
    cases k <;> exact absurd rfl h0

theorem Disk.OneBlock.distinct : s.Distinct := by
  intro i j k l _ _ heq h0
  obtain ⟨rfl, rfl, -⟩ := h.ref h0
  rw [heq] at h0
  obtain ⟨rfl, rfl, -⟩ := h.ref h0
  exact ⟨rfl, rfl⟩

theorem Disk.OneBlock.tidy {sb : Superblock} (hbit : s.bitmap b = true) (harea : sb.nmeta ≤ b ∧ b < sb.size)
    (hres : ∀ b < sb.nmeta, s.bitmap b = true) : s.Tidy sb where
  inj := h.distinct
  marked _ h0 := by rwa [(h.ref h0).2.2]
  area _ h0 := by rwa [(h.ref h0).2.2]
  reserved := hres

end

/-- All block numbers are kept, or some of them, and no mark that is needed is taken away. -/
theorem Disk.Tidy.of_refs {sb : Superblock} {t : Disk} (hs : s.Tidy sb)
    (hrefs : ∀ {j : Nat} {k : Slot}, t.Live j → t.ref j k ≠ 0 → s.Live j ∧ t.ref j k = s.ref j k)
    (hbits : ∀ b, b < sb.nmeta ∨ (∃ j k, t.Live j ∧ t.ref j k = b ∧ b ≠ 0) → s.bitmap b = true →
      t.bitmap b = true) : t.Tidy sb where
  inj := by
    intro i j k l hi hj heq h0
    obtain ⟨hi', hk⟩ := hrefs hi h0
    obtain ⟨hj', hl⟩ := hrefs hj (heq ▸ h0)
    exact hs.inj hi' hj' (hk ▸ hl ▸ heq) (hk ▸ h0)
  marked := by
    intro i k hi h0
    obtain ⟨hi', hk⟩ := hrefs hi h0
    refine hbits _ (.inr ⟨i, k, hi, rfl, h0⟩) ?_
    rw [hk]
    exact hs.marked hi' (hk ▸ h0)
  area := by
    intro i k hi h0
    obtain ⟨hi', hk⟩ := hrefs hi h0
    rw [hk]
    exact hs.area hi' (hk ▸ h0)
  reserved b hb := hbits b (.inl hb) (hs.reserved b hb)

/-- All that can differ is which blocks inode `i` has. -/
structure SameBut (i : Nat) (s t : Disk) : Prop where
  dinode : t.dinode = s.dinode
  others : ∀ j, j ≠ i → t.icache j = s.icache j
  own : ∃ f, t.icache i = { s.icache i with copy := { (s.icache i).copy with addrs := f } }

variable {sb : Superblock} {s t u : Disk} {i j b : Nat} {k : Slot}

theorem SameBut.refl (i : Nat) (s : Disk) : SameBut i s s := ⟨rfl, fun _ _ => rfl, _, rfl⟩

theorem SameBut.trans (h₁ : SameBut i s t) (h₂ : SameBut i t u) : SameBut i s u where
  dinode := h₂.dinode.trans h₁.dinode
  others j hj := (h₂.others j hj).trans (h₁.others j hj)
  own := by
    obtain ⟨f, hf⟩ := h₁.own
    obtain ⟨g, hg⟩ := h₂.own
    exact ⟨g, by rw [hg, hf]⟩

section
variable (h : SameBut i s t)
include h

theorem SameBut.valid (j : Nat) : (t.icache j).valid = (s.icache j).valid := by
  by_cases hj : j = i
  · obtain ⟨f, hf⟩ := h.own
    rw [hj, hf]
  · rw [h.others j hj]

theorem SameBut.cached (j : Nat) : ∃ d, t.icache j = { s.icache j with copy := d } := by
  by_cases hj : j = i
  · obtain ⟨f, hf⟩ := h.own
    exact ⟨_, hj ▸ hf⟩
  · exact ⟨_, h.others j hj⟩

theorem SameBut.inode_of_ne (hj : j ≠ i) : t.inode j = s.inode j := by
  unfold Disk.inode
  rw [h.others j hj, h.dinode]

theorem SameBut.inode : ∃ f, t.inode i = { s.inode i with addrs := f } := by
  unfold Disk.inode
  rw [h.valid]
  split
  · obtain ⟨f, hf⟩ := h.own
    exact ⟨f, by rw [hf]⟩
  · exact ⟨_, by rw [h.dinode]⟩

theorem SameBut.live (j : Nat) : t.Live j ↔ s.Live j := by
  unfold Disk.Live
  by_cases hj : j = i
  · obtain ⟨f, hf⟩ := h.inode
    rw [hj, hf]
  · rw [h.inode_of_ne hj]

theorem SameBut.size (j : Nat) : (t.inode j).size = (s.inode j).size := by
  by_cases hj : j = i
  · obtain ⟨f, hf⟩ := h.inode
    rw [hj, hf]
  · rw [h.inode_of_ne hj]

end

/-! ## Giving a block -/

/-- Place `k` of inode `i` was empty and gets the free block `b`. -/
structure Gives (sb : Superblock) (i : Nat) (k : Slot) (b : Nat) (s t : Disk) : Prop where
  same : SameBut i s t
  free : s.bitmap b = false
  lt : b < sb.size
  empty : s.ref i k = 0
  bitmap : t.bitmap = update s.bitmap b true
  ref : ∀ j l, s.Live j → t.ref j l = if j = i ∧ l = k then b else s.ref j l
  /-- No content is changed. -/
  data : ∀ j l, s.Live j → l ≠ .indirect → s.ref j l ≠ 0 → t.blocks (s.ref j l) = s.blocks (s.ref j l)
  zeros : k ≠ .indirect → t.blocks b = fun _ => 0

theorem Disk.Tidy.ne_of_free (h : s.Tidy sb) (hb : s.bitmap b = false) (hj : s.Live j) (k : Slot) :
    s.ref j k ≠ b ∨ s.ref j k = 0 := by
  by_cases h0 : s.ref j k = 0
  · exact .inr h0
  · refine .inl fun heq => ?_
    have := h.marked hj h0
    rw [heq, hb] at this
    cases this

theorem Disk.Tidy.ne_zero_of_free (h : s.Tidy sb) (hb : s.bitmap b = false) : b ≠ 0 := by
  rintro rfl
  rw [h.reserved 0 sb.nmeta_pos] at hb
  cases hb

theorem Gives.tidy (h : Gives sb i k b s t) (hs : s.Tidy sb) : t.Tidy sb := by
  have hlive := h.same.live
  refine ⟨fun {j j' l l'} hj hj' heq h0 => ?_, fun {j l} hj h0 => ?_, fun {j l} hj h0 => ?_,
    fun b' hb' => ?_⟩
  · rw [hlive] at hj hj'
    rw [h.ref j l hj] at heq h0
    rw [h.ref j' l' hj'] at heq
    by_cases h1 : j = i ∧ l = k <;> by_cases h2 : j' = i ∧ l' = k
    · exact ⟨h1.1.trans h2.1.symm, h1.2.trans h2.2.symm⟩
    · -- the new block is not in another place
      rw [if_pos h1, if_neg h2] at heq
      rw [if_pos h1] at h0
      obtain hne | hz := hs.ne_of_free h.free hj' l'
      · exact absurd heq.symm hne
      · exact absurd (heq.trans hz) h0
    · rw [if_neg h1, if_pos h2] at heq
      rw [if_neg h1] at h0
      obtain hne | hz := hs.ne_of_free h.free hj l
      · exact absurd heq hne
      · exact absurd hz h0
    · rw [if_neg h1] at heq h0
      rw [if_neg h2] at heq
      exact hs.inj hj hj' heq h0
  · rw [hlive] at hj
    rw [h.ref j l hj] at h0 ⊢
    rw [h.bitmap]
    by_cases h1 : j = i ∧ l = k
    · rw [if_pos h1, update_self]
    · rw [if_neg h1] at h0 ⊢
      rw [update_apply]
      split
      · rfl
      · exact hs.marked hj h0
  · rw [hlive] at hj
    rw [h.ref j l hj] at h0 ⊢
    by_cases h1 : j = i ∧ l = k
    · rw [if_pos h1]
      refine ⟨Nat.le_of_not_lt fun hlt => ?_, h.lt⟩
      have := h.free
      rw [hs.reserved b hlt] at this
      cases this
    · rw [if_neg h1] at h0 ⊢
      exact hs.area hj h0
  · rw [h.bitmap, update_apply]
    split
    · rfl
    · exact hs.reserved b' hb'

theorem Gives.view (h : Gives sb i k b s t) (hs : s.Tidy sb) (hj : s.Live j) (bn : Nat) :
    t.view j bn = if j = i ∧ bn < MAXFILE ∧ blockSlot bn = k then some fun _ => 0 else s.view j bn := by
  unfold Disk.view
  rw [h.ref j _ hj]
  by_cases hbn : bn < MAXFILE
  · by_cases hjk : j = i ∧ blockSlot bn = k
    · rw [if_pos hjk, if_pos ⟨hbn, hs.ne_zero_of_free h.free⟩, if_pos ⟨hjk.1, hbn, hjk.2⟩,
        h.zeros (hjk.2 ▸ blockSlot_ne_indirect hbn)]
    · have hjk' : ¬ (j = i ∧ bn < MAXFILE ∧ blockSlot bn = k) := fun h => hjk ⟨h.1, h.2.2⟩
      rw [if_neg hjk, if_neg hjk']
      by_cases h0 : s.ref j (blockSlot bn) = 0
      · rw [if_neg fun h => h.2 h0, if_neg fun h => h.2 h0]
      · rw [if_pos ⟨hbn, h0⟩, if_pos ⟨hbn, h0⟩, h.data j _ hj (blockSlot_ne_indirect hbn) h0]
  · rw [if_neg fun h => hbn h.1, if_neg fun h => hbn h.2.1, if_neg fun h => hbn h.1]

/-! ## Allocation -/

/-- The only panic of the functions below, and when it is. -/
def OutOfBlocks (sb : Superblock) (e : Stop) (s : Disk) : Prop :=
  e = .panic "balloc: out of blocks" ∧ ∀ b < sb.size, s.bitmap b = true

theorem balloc_triple (sb : Superblock) (t : Disk) :
    Triple (fun s => s = t) (balloc sb)
      (fun b s => s = t.alloc b ∧ t.bitmap b = false ∧ b < sb.size) (OutOfBlocks sb) := by
  refine .get fun t' ht' => ?_
  subst ht'
  cases hfind : (List.range sb.size).find? fun b => !t'.bitmap b with
  | none =>
    refine .throw fun s hs => ⟨rfl, fun b hb => ?_⟩
    simpa [hs] using List.find?_eq_none.mp hfind b (List.mem_range.mpr hb)
  | some b =>
    have hfree := List.find?_some hfind
    have hlt := List.mem_range.mp (List.mem_of_find?_eq_some hfind)
    refine .bind (R := fun _ s => s = t'.alloc b) ⟨fun _ _ => rfl⟩ fun _ => .pure fun s hs => ?_
    exact ⟨hs, by simpa using hfree, hlt⟩

theorem sameBut_alloc (i : Nat) (s : Disk) (b : Nat) : SameBut i s (s.alloc b) :=
  ⟨rfl, fun _ _ => rfl, _, rfl⟩

theorem blocks_alloc (hs : s.Tidy sb) (hb : s.bitmap b = false) (hj : s.Live j) {l : Slot}
    (h0 : s.ref j l ≠ 0) : (s.alloc b).blocks (s.ref j l) = s.blocks (s.ref j l) :=
  update_of_ne ((hs.ne_of_free hb hj l).resolve_right h0) _ _

theorem ref_alloc (hs : s.Tidy sb) (hb : s.bitmap b = false) (hj : s.Live j) (l : Slot) :
    (s.alloc b).ref j l = s.ref j l := by
  cases l with
  | direct k | indirect => rfl
  | entry e =>
    rw [ref_entry, ref_entry, show (s.alloc b).ref j .indirect = s.ref j .indirect from rfl]
    split
    · rfl
    · next h0 => rw [blocks_alloc hs hb hj h0]

theorem sameBut_setAddr (s : Disk) (i : Nat) (k : Fin (NDIRECT + 1)) (b : Nat) :
    SameBut i s (s.setAddr i k b) where
  dinode := rfl
  others _ hj := update_of_ne hj _ _
  own := ⟨_, update_self _ _ _⟩

theorem ref_setAddr_of_ne (hj : j ≠ i) (k : Fin (NDIRECT + 1)) (b : Nat) (l : Slot) :
    (s.setAddr i k b).ref j l = s.ref j l := by
  unfold Disk.ref
  rw [(sameBut_setAddr s i k b).inode_of_ne hj]
  rfl

theorem ref_setAddr (hv : (s.icache i).valid = true) (k : Fin (NDIRECT + 1)) (b : Nat) (l : Slot) :
    (s.setAddr i k b).ref i l =
      { s.inode i with addrs := update (s.inode i).addrs k b }.ref s.blocks l := by
  unfold Disk.ref Disk.inode Disk.setAddr Disk.updCopy Disk.updInode
  simp [hv]

theorem Dinode.ref_update (d : Dinode) (blocks : Nat → Block) (k : Fin NDIRECT) (b : Nat) (l : Slot) :
    { d with addrs := update d.addrs k.castSucc b }.ref blocks l =
      if l = .direct k then b else d.ref blocks l := by
  have hlast : update d.addrs k.castSucc b (Fin.last NDIRECT) = d.addrs (Fin.last NDIRECT) :=
    update_of_ne (Fin.castSucc_lt_last k).ne' _ _
  cases l with
  | direct k' => simp [Dinode.ref, update_apply]
  | indirect => simp [Dinode.ref, hlast]
  | entry e => simp [Dinode.ref, hlast]

theorem Dinode.ref_update_last (d : Dinode) {blocks : Nat → Block} {b : Nat}
    (h0 : d.addrs (Fin.last NDIRECT) = 0) (hb : blocks b = fun _ => 0) (l : Slot) :
    { d with addrs := update d.addrs (Fin.last NDIRECT) b }.ref blocks l =
      if l = .indirect then b else d.ref blocks l := by
  cases l with
  | direct k | indirect => simp [Dinode.ref]
  | entry e =>
    simp only [Dinode.ref, h0, hb, update_self, word_zero]
    simp

theorem gives_addr (hs : s.Tidy sb) (hv : (s.icache i).valid = true) {k : Fin (NDIRECT + 1)}
    (h0 : (s.icache i).copy.addrs k = 0) (hb : s.bitmap b = false) (hlt : b < sb.size) :
    Gives sb i (addrSlot k) b s ((s.alloc b).setAddr i k b) := by
  have hinode := Disk.inode_of_valid hv
  have h0 : (s.inode i).addrs k = 0 := by rw [hinode, h0]
  refine ⟨(sameBut_alloc i s b).trans (sameBut_setAddr _ i k b), hb, hlt, ?_, rfl, fun j l hj => ?_,
    fun j l hj _ hne => blocks_alloc hs hb hj hne, fun _ => update_self _ _ _⟩
  · cases k using Fin.lastCases with
    | last => rw [addrSlot_last]; exact h0
    | cast k => rw [addrSlot_castSucc]; exact h0
  by_cases hji : j = i
  · subst hji
    rw [ref_setAddr (s := s.alloc b) hv, ← ref_alloc hs hb hj l]
    simp only [true_and]
    cases k using Fin.lastCases with
    | cast k =>
      rw [addrSlot_castSucc]
      exact Dinode.ref_update _ _ _ _ _
    | last =>
      rw [addrSlot_last]
      exact Dinode.ref_update_last _ h0 (update_self _ _ _) _
  · rw [ref_setAddr_of_ne hji, ref_alloc hs hb hj, if_neg fun h => hji h.1]

/-! ## Changing a block -/

theorem sameBut_setBlock (i : Nat) (s : Disk) (b : Nat) (blk : Block) : SameBut i s (s.setBlock b blk) :=
  ⟨rfl, fun _ _ => rfl, _, rfl⟩

theorem blocks_setBlock (s : Disk) (b : Nat) (blk : Block) :
    (s.setBlock b blk).blocks = update s.blocks b blk := rfl

theorem indirect_setBlock (s : Disk) (b : Nat) (blk : Block) :
    (s.setBlock b blk).ref j .indirect = s.ref j .indirect := rfl

theorem ref_setBlock (hne : s.ref j .indirect ≠ b) (blk : Block) (l : Slot) :
    (s.setBlock b blk).ref j l = s.ref j l := by
  cases l with
  | direct k | indirect => rfl
  | entry e =>
    rw [ref_entry, ref_entry, indirect_setBlock, blocks_setBlock, update_of_ne hne]

section
variable (hs : s.Tidy sb) (hi : s.Live i)
include hs hi

theorem gives_entry {e : Fin NINDIRECT} {a : Nat}
    (ha : s.ref i .indirect = a) (ha0 : a ≠ 0) (h0 : word (s.blocks a) e = 0) (hb : s.bitmap b = false)
    (hlt : b < sb.size) : Gives sb i (.entry e) b s
      ((s.alloc b).setBlock a (putWord ((s.alloc b).blocks a) e b)) := by
  subst ha
  have hblk : (s.alloc b).blocks (s.ref i .indirect) = s.blocks (s.ref i .indirect) :=
    blocks_alloc hs hb hi ha0
  rw [hblk]
  have hab : s.ref i .indirect ≠ b := (hs.ne_of_free hb hi .indirect).resolve_right ha0
  refine ⟨(sameBut_alloc i s b).trans (sameBut_setBlock i _ _ _), hb, hlt, ?_, rfl, fun j l hj => ?_,
    fun j l hj hl hne => ?_, fun _ => ?_⟩
  · rw [ref_entry, if_neg ha0, h0]
  · by_cases hji : j = i
    · subst hji
      simp only [true_and]
      cases l with
      | direct k | indirect => rfl
      | entry e' =>
        have hb32 : b < 2 ^ 32 := hlt.trans sb.size_lt
        rw [ref_entry, ref_entry, indirect_setBlock, show (s.alloc b).ref j .indirect =
          s.ref j .indirect from rfl, if_neg ha0, if_neg ha0, blocks_setBlock, update_self]
        by_cases hee : e' = e
        · rw [hee, word_putWord_self _ _ hb32, if_pos rfl]
        · rw [word_putWord_of_ne _ _ (Fin.val_ne_of_ne hee), if_neg (by simpa using hee)]
    · have hne : (s.alloc b).ref j .indirect ≠ s.ref i .indirect := by
        rw [ref_alloc hs hb hj]
        exact fun heq => hji (hs.inj hi hj heq.symm ha0).1.symm
      rw [ref_setBlock hne, ref_alloc hs hb hj, if_neg fun h => hji h.1]
  · -- a content block is not the indirect block
    have hnot : s.ref j l ≠ s.ref i .indirect := fun heq => hl (hs.inj hj hi heq hne).2
    exact (update_of_ne hnot _ _).trans (blocks_alloc hs hb hj hne)
  · exact (update_of_ne hab.symm _ _).trans (update_self _ _ _)

theorem ref_content (hk : k ≠ .indirect) (h0 : s.ref i k ≠ 0) (blk : Block)
    (hj : s.Live j) (l : Slot) : (s.setBlock (s.ref i k) blk).ref j l = s.ref j l :=
  ref_setBlock (fun heq => hk (hs.inj hi hj heq.symm h0).2) blk l

theorem tidy_content (hk : k ≠ .indirect) (h0 : s.ref i k ≠ 0)
    (blk : Block) : (s.setBlock (s.ref i k) blk).Tidy sb :=
  hs.of_refs (fun hj _ => ⟨hj, ref_content hs hi hk h0 blk hj _⟩) fun _ _ hb => hb

theorem view_content (hbn : bn < MAXFILE) (h0 : s.ref i (blockSlot bn) ≠ 0) (blk : Block) (hj : s.Live j) :
    (s.setBlock (s.ref i (blockSlot bn)) blk).view j =
      if j = i then update (s.view i) bn (some blk) else s.view j := by
  have hmain : ∀ bn', (s.setBlock (s.ref i (blockSlot bn)) blk).view j bn' =
      if j = i ∧ bn' = bn then some blk else s.view j bn' := by
    intro bn'
    unfold Disk.view
    rw [ref_content hs hi (blockSlot_ne_indirect hbn) h0 blk hj, blocks_setBlock]
    by_cases hjb : j = i ∧ bn' = bn
    · rw [if_pos hjb, hjb.1, hjb.2, if_pos ⟨hbn, h0⟩, update_self]
    · rw [if_neg hjb]
      by_cases hbn' : bn' < MAXFILE ∧ s.ref j (blockSlot bn') ≠ 0
      · have hne : s.ref j (blockSlot bn') ≠ s.ref i (blockSlot bn) := fun heq => by
          obtain ⟨hji, hslot⟩ := hs.inj hj hi heq hbn'.2
          exact hjb ⟨hji, blockSlot_inj hbn'.1 hbn hslot⟩
        rw [if_pos hbn', if_pos hbn', update_of_ne hne]
      · rw [if_neg hbn', if_neg hbn']
  funext bn'
  rw [hmain]
  by_cases hji : j = i
  · subst hji
    rw [if_pos rfl, update_apply]
    simp only [true_and]
  · rw [if_neg hji, if_neg fun h => hji h.1]

end

/-! ## `bmap` -/

/-- A number of blocks are given to inode `i`. -/
def Grows (sb : Superblock) (i : Nat) : Disk → Disk → Prop :=
  Relation.ReflTransGen fun s t => ∃ k b, Gives sb i k b s t

theorem Grows.tidy (h : Grows sb i s t) (hs : s.Tidy sb) : t.Tidy sb := by
  induction h with
  | refl => exact hs
  | tail _ hstep ih =>
    obtain ⟨k, b, hgives⟩ := hstep
    exact hgives.tidy ih

theorem Grows.same (h : Grows sb i s t) : SameBut i s t := by
  induction h with
  | refl => exact .refl i s
  | tail _ hstep ih =>
    obtain ⟨k, b, hgives⟩ := hstep
    exact ih.trans hgives.same

/-- What `bmap` returns, and what it leaves. -/
structure Mapped (sb : Superblock) (i bn : Nat) (t : Disk) (b : Nat) (s : Disk) : Prop where
  grows : Grows sb i t s
  here : s.ref i (blockSlot bn) = b
  ne : b ≠ 0
  /-- A block that was there already. -/
  old : t.ref i (blockSlot bn) ≠ 0 → s = t
  view : ∀ j, t.Live j → s.view j =
    if j = i then update (t.view i) bn (some ((t.view i bn).getD fun _ => 0)) else t.view j

theorem mapped_refl (hbn : bn < MAXFILE) (h0 : t.ref i (blockSlot bn) ≠ 0) :
    Mapped sb i bn t (t.ref i (blockSlot bn)) t where
  grows := .refl
  here := rfl
  ne := h0
  old _ := rfl
  view j _ := by
    split
    · next hji =>
      rw [hji, view_of_ref hbn h0, Option.getD_some, ← view_of_ref hbn h0, update_eq_self]
    · rfl

theorem Gives.mapped (h : Gives sb i (blockSlot bn) b t s) (ht : t.Tidy sb) (hi : t.Live i)
    (hbn : bn < MAXFILE) : Mapped sb i bn t b s where
  grows := .single ⟨_, b, h⟩
  here := by rw [h.ref i _ hi, if_pos ⟨rfl, rfl⟩]
  ne := ht.ne_zero_of_free h.free
  old h0 := absurd h.empty h0
  view j hj := by
    have hnone : t.view i bn = none := if_neg fun h' => h'.2 h.empty
    funext bn'
    rw [h.view ht hj bn', hnone, Option.getD_none]
    by_cases hji : j = i
    · rw [if_pos hji, hji, update_apply]
      by_cases hbn' : bn' = bn
      · rw [if_pos hbn', if_pos ⟨rfl, hbn' ▸ hbn, hbn' ▸ rfl⟩]
      · rw [if_neg hbn', if_neg fun h => hbn' (blockSlot_inj h.2.1 hbn h.2.2)]
    · rw [if_neg hji, if_neg fun h => hji h.1]

theorem Mapped.indirect {a : Nat} {e : Fin NINDIRECT} (h : Mapped sb i bn t b s)
    (hgives : Gives sb i .indirect a u t) (hu : u.Tidy sb) (hi : u.Live i)
    (hslot : blockSlot bn = .entry e) : Mapped sb i bn u b s where
  grows := .head ⟨_, a, hgives⟩ h.grows
  here := h.here
  ne := h.ne
  old h0 := by
    rw [hslot, ref_entry, if_pos hgives.empty] at h0
    exact absurd rfl h0
  view j hj := by
    have hview : ∀ j, u.Live j → t.view j = u.view j := by
      intro j hj
      funext bn'
      rw [hgives.view hu hj, if_neg fun h => blockSlot_ne_indirect h.2.1 h.2.2]
    rw [h.view j ((hgives.same.live j).mpr hj), hview j hj, hview i hi]

theorem bmapAddr_triple (ht : t.Tidy sb) (hv : (t.icache i).valid = true) (k : Fin (NDIRECT + 1)) :
    Triple (fun s => s = t) (bmapAddr sb i k)
      (fun b s => s = t ∧ b = t.ref i (addrSlot k) ∧ b ≠ 0 ∨ Gives sb i (addrSlot k) b t s)
      (OutOfBlocks sb) := by
  have href : t.ref i (addrSlot k) = (t.icache i).copy.addrs k := by
    unfold Disk.ref Disk.inode
    rw [if_pos hv]
    cases k using Fin.lastCases with
    | last => rw [addrSlot_last]; rfl
    | cast k => rw [addrSlot_castSucc]; rfl
  refine .get fun t' ht' => ?_
  subst ht'
  refine .ite (fun h0 => ?_) fun h0 => .pure ?_
  · refine .bind (balloc_triple sb t') fun b => .bind
      (R := fun _ s => Gives sb i (addrSlot k) b t' s) (.modify fun s hs => ?_) fun _ => .pure ?_
    · obtain ⟨rfl, hfree, hlt⟩ := hs
      exact gives_addr ht hv h0 hfree hlt
    · exact fun s hs => .inr hs
  · rintro s rfl
    exact .inl ⟨rfl, href.symm, h0⟩

theorem bmap_triple (ht : t.Tidy sb) (hi : t.Live i) (hv : (t.icache i).valid = true) (hbn : bn < MAXFILE) :
    Triple (fun s => s = t) (bmap sb i bn) (fun b s => Mapped sb i bn t b s) (OutOfBlocks sb) := by
  unfold bmap
  split
  · next hdirect =>
    have hslot : addrSlot ⟨bn, Nat.lt_succ_of_lt hdirect⟩ = blockSlot bn := by
      unfold addrSlot blockSlot
      rw [dif_pos hdirect, dif_pos hdirect]
    refine (bmapAddr_triple ht hv _).post fun b s hs => ?_
    rw [hslot] at hs
    obtain ⟨rfl, rfl, h0⟩ | hgives := hs
    · exact mapped_refl hbn h0
    · exact hgives.mapped ht hi hbn
  · next hdirect =>
    refine .ite (fun hlt => ?_) fun hlt => ?_
    · have hslot : blockSlot bn = .entry ⟨bn - NDIRECT, hlt⟩ := by
        unfold blockSlot
        rw [dif_neg hdirect, dif_pos hlt]
      refine .bind (bmapAddr_triple ht hv _) fun a => .get fun t₁ ht₁ => ?_
      -- with the indirect block there, what is left
      have hrest : t₁.Tidy sb → t₁.Live i → t₁.ref i .indirect = a → a ≠ 0 →
          Triple (fun s => s = t₁) (if word (t₁.blocks a) (bn - NDIRECT) = 0 then do
              let b ← balloc sb
              modify fun s => s.setBlock a (putWord (s.blocks a) (bn - NDIRECT) b)
              pure b
            else pure (word (t₁.blocks a) (bn - NDIRECT)))
            (fun b s => Mapped sb i bn t₁ b s) (OutOfBlocks sb) := by
        intro htidy hlive ha ha0
        refine .ite (fun h0 => ?_) fun h0 => .pure ?_
        · refine .bind (balloc_triple sb t₁) fun b => .bind
            (R := fun _ s => Gives sb i (blockSlot bn) b t₁ s) (.modify fun s hs => ?_) fun _ => .pure ?_
          · obtain ⟨rfl, hfree, hb⟩ := hs
            rw [hslot]
            exact gives_entry (e := ⟨bn - NDIRECT, hlt⟩) htidy hlive ha ha0 h0 hfree hb
          · exact fun s hs => hs.mapped htidy hlive hbn
        · rintro s rfl
          have href : s.ref i (blockSlot bn) = word (s.blocks a) (bn - NDIRECT) := by
            rw [hslot, ref_entry, ha, if_neg ha0]
          rw [← href] at h0 ⊢
          exact mapped_refl hbn h0
      obtain ⟨rfl, ha, ha0⟩ | hgives := ht₁
      · exact hrest ht hi ha.symm ha0
      · have href : t₁.ref i .indirect = a := by rw [hgives.ref i _ hi, if_pos ⟨rfl, rfl⟩]
        refine (hrest (hgives.tidy ht) ((hgives.same.live i).mpr hi) href
          (ht.ne_zero_of_free hgives.free)).post fun b s hs =>
          hs.indirect hgives ht hi hslot
    · unfold MAXFILE at hbn
      omega

end Xv6.Store
