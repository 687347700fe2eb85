import Xv6.Inodes
import Xv6.Truncate

/-!
# The disk stays consistent

The bit map marks exactly the blocks that are in use, every block in use is in one place, inodes have no
holes, and what is in the inode cache is what is on the disk. Each operation of the inode layer keeps this,
and does to the disk what `inodeOps` does without blocks.
-/

namespace Xv6.Store

open Function (update update_self update_of_ne update_eq_self update_apply update_idem)
open Hoare
open Disk (Live inodes inode_of_valid setSize)

/-- No block is lost. -/
def Disk.Used (sb : Superblock) (s : Disk) : Prop :=
  ∀ b < sb.size, s.bitmap b = true → b < sb.nmeta ∨ ∃ i k, s.Live i ∧ s.ref i k = b

structure Disk.Consistent (sb : Superblock) (s : Disk) : Prop where
  sound : s.Sound sb
  used : s.Used sb
  synced : ∀ i, (s.icache i).valid = true → s.dinode i = (s.icache i).copy
  live : ∀ i, (s.icache i).valid = true → s.Live i

variable {sb : Superblock} {s t u : Disk} {i j b : Nat} {k : Slot}

theorem Disk.Consistent.inode_eq (h : s.Consistent sb) (i : Nat) : s.inode i = s.dinode i := by
  unfold Disk.inode
  split
  · next hv => rw [h.synced i hv]
  · rfl

/-- The two levels of the file system. -/
def Shows (sb : Superblock) (s : Disk) (a : Inodes) : Prop := s.Consistent sb ∧ s.inodes = a

/-! ## Inodes that are left alone -/

/-- The inode has the same blocks, with the same content, and the same size. -/
structure SameContent (j : Nat) (s t : Disk) : Prop where
  addrs : (t.inode j).addrs = (s.inode j).addrs
  size : (t.inode j).size = (s.inode j).size
  blocks : t.blocks = s.blocks

theorem SameContent.ref (h : SameContent j s t) (k : Slot) : t.ref j k = s.ref j k := by
  unfold Disk.ref Dinode.ref
  rw [h.addrs, h.blocks]

theorem SameContent.view (h : SameContent j s t) : t.view j = s.view j := by
  funext bn
  unfold Disk.view
  rw [h.ref, h.blocks]

theorem SameContent.content (h : SameContent j s t) : t.content j = s.content j := by
  unfold Disk.content
  rw [h.view, h.size]

theorem SameContent.of_inode (h : t.inode j = s.inode j) (hb : t.blocks = s.blocks) :
    SameContent j s t := ⟨by rw [h], by rw [h], hb⟩

theorem node_of_inode (h : t.inode j = s.inode j) (hb : t.blocks = s.blocks) : t.node j = s.node j := by
  unfold Disk.node
  rw [h, (SameContent.of_inode h hb).content]

theorem ref_of_addrs (h : (t.inode j).addrs = fun _ => 0) (k : Slot) : t.ref j k = 0 := by
  unfold Disk.ref
  cases k <;> simp [Dinode.ref, h]

theorem Disk.Consistent.congr (hs : s.Consistent sb) (hbits : t.bitmap = s.bitmap)
    (hsame : ∀ j, s.Live j → t.Live j ∧ SameContent j s t)
    (hnew : ∀ j, t.Live j → s.Live j ∨ (t.inode j).addrs = (fun _ => 0) ∧ (t.inode j).size = 0)
    (hsynced : ∀ i, (t.icache i).valid = true → t.dinode i = (t.icache i).copy)
    (hlive : ∀ i, (t.icache i).valid = true → t.Live i) : t.Consistent sb where
  sound :=
    { tidy := by
        refine hs.sound.tidy.of_refs (fun {j k} hj h0 => ?_) fun b _ hb => by rw [hbits, hb]
        obtain hjs | ⟨haddrs, -⟩ := hnew j hj
        · exact ⟨hjs, (hsame j hjs).2.ref k⟩
        · exact absurd (ref_of_addrs haddrs k) h0
      full := by
        intro j x hj hx
        obtain hjs | ⟨-, hsize⟩ := hnew j hj
        · rw [(hsame j hjs).2.size] at hx
          rw [(hsame j hjs).2.view]
          exact hs.sound.full hjs hx
        · rw [hsize] at hx
          exact absurd hx (Nat.not_lt_zero x) }
  used b hb hbit := by
    rw [hbits] at hbit
    refine (hs.used b hb hbit).imp_right fun ⟨j, k, hj, hk⟩ => ⟨j, k, (hsame j hj).1, ?_⟩
    rw [(hsame j hj).2.ref, hk]
  synced := hsynced
  live := hlive

/-! ## Operations on the cache -/

theorem icache_updInode (s : Disk) (i : Nat) (f : Cached → Cached) :
    (s.updInode i f).icache = update s.icache i (f (s.icache i)) := rfl

variable {f : Cached → Cached} {α : Type}

/-- An entry of the cache is changed, and what it has of the inode, if anything, is what is on the disk. -/
theorem Disk.Consistent.updInode (hs : s.Consistent sb)
    (hf : (f (s.icache i)).valid = true → (f (s.icache i)).copy = s.dinode i ∧ (s.dinode i).type ≠ 0) :
    (s.updInode i f).Consistent sb ∧ (s.updInode i f).node = s.node := by
  have hinode : ∀ j, (s.updInode i f).inode j = s.inode j := by
    intro j
    rw [hs.inode_eq]
    unfold Disk.inode
    rw [icache_updInode]
    by_cases hj : j = i
    · subst hj
      rw [update_self]
      split
      · next hv => exact (hf hv).1
      · rfl
    · rw [update_of_ne hj]
      exact hs.inode_eq j
  have hlive : ∀ j, (s.updInode i f).Live j ↔ s.Live j := by
    intro j
    unfold Live
    rw [hinode]
  refine ⟨hs.congr rfl (fun j hj => ⟨(hlive j).mpr hj, .of_inode (hinode j) rfl⟩)
    (fun j hj => .inl ((hlive j).mp hj)) (fun j hv => ?_) (fun j hv => ?_), ?_⟩
  · rw [icache_updInode] at hv ⊢
    by_cases hj : j = i
    · subst hj
      rw [update_self] at hv ⊢
      exact (hf hv).1.symm
    · rw [update_of_ne hj] at hv ⊢
      exact hs.synced j hv
  · rw [hlive]
    rw [icache_updInode] at hv
    by_cases hj : j = i
    · subst hj
      rw [update_self] at hv
      unfold Live
      rw [hs.inode_eq]
      exact (hf hv).2
    · rw [update_of_ne hj] at hv
      exact hs.live j hv
  · funext j
    exact node_of_inode (hinode j) rfl

theorem Disk.Consistent.keep (hs : s.Consistent sb) {c : Cached} (hcopy : c.copy = (s.icache i).copy)
    (hvalid : c.valid = true → (s.icache i).valid = true) :
    c.valid = true → c.copy = s.dinode i ∧ (s.dinode i).type ≠ 0 := by
  intro hv
  refine ⟨?_, ?_⟩
  · rw [hcopy, hs.synced i (hvalid hv)]
  · have := hs.live i (hvalid hv)
    unfold Live at this
    rwa [hs.inode_eq] at this

theorem inodes_updInode {a : Inodes} (hnode : (s.updInode i f).node = s.node)
    (ha : a.node = s.node) (hr : a.ref = update s.inodes.ref i (f (s.icache i)).ref)
    (hl : a.locked = update s.inodes.locked i (f (s.icache i)).locked)
    (hv : a.valid = update s.inodes.valid i (f (s.icache i)).valid) : a = (s.updInode i f).inodes := by
  obtain ⟨node, ref, locked, valid⟩ := a
  dsimp only at ha hr hl hv
  subst ha hr hl hv
  unfold inodes
  rw [hnode, icache_updInode]
  congr 1 <;>
  · funext j
    by_cases hj : j = i
    · subst hj
      rw [update_self, update_self]
    · rw [update_of_ne hj, update_of_ne hj]

/-! ## Both levels -/

/-- The upper level shows what the disk does. -/
abbrev Shown (sb : Superblock) {α : Type} (lost : Stop → Disk → Prop) (c : DiskM α) (a : InodesM α) :
    Prop := Prog.Sim (Shows sb) lost c a

/-- The same, unless there are no blocks left. -/
abbrev Refined (sb : Superblock) {α : Type} (c : DiskM α) (a : InodesM α) : Prop :=
  Shown sb (OutOfBlocks sb) c a

variable {lost : Stop → Disk → Prop}

theorem refined_of_run {c : DiskM α} {a : InodesM α}
    (h : ∀ s : Disk, s.Consistent sb →
      (∃ x t, c s = .ok x t ∧ a s.inodes = .ok x t.inodes ∧ t.Consistent sb) ∨
      (∃ e t t', c s = .error e t ∧ a s.inodes = .error (some e) t') ∨
      ∃ t', a s.inodes = .error none t') : Shown sb lost c a := by
  refine ⟨fun s a' ⟨hs, ha⟩ hno => ?_⟩
  subst ha
  obtain ⟨x, t, hc, ha, ht⟩ | ⟨e, t, t', hc, ha⟩ | ⟨t', ha⟩ := h s hs
  · rw [hc]
    exact ⟨_, ha, ht, rfl⟩
  · rw [hc]
    exact .inl ⟨t', ha⟩
  · exact absurd ha (hno t')

theorem Disk.Consistent.both_set (hs : s.Consistent sb) {a : Inodes}
    (hf : (f (s.icache i)).valid = true → (f (s.icache i)).copy = s.dinode i ∧ (s.dinode i).type ≠ 0)
    (ha : a.node = s.node) (hr : a.ref = update s.inodes.ref i (f (s.icache i)).ref)
    (hl : a.locked = update s.inodes.locked i (f (s.icache i)).locked)
    (hv : a.valid = update s.inodes.valid i (f (s.icache i)).valid) :
    ∃ x t, (set (s.updInode i f) : DiskM Unit) s = .ok x t ∧
      (set a : InodesM Unit) s.inodes = .ok x t.inodes ∧ t.Consistent sb := by
  obtain ⟨hcons, hnode⟩ := hs.updInode hf
  refine ⟨(), _, rfl, ?_, hcons⟩
  rw [← inodes_updInode hnode ha hr hl hv]
  rfl

theorem refined_iget (i : Nat) : Shown sb lost (iget sb i) (Inodes.iget sb i) := by
  refine refined_of_run fun s hs => ?_
  unfold iget Inodes.iget
  rw [bind_ok (get_run s), bind_ok (get_run s.inodes)]
  by_cases href : 0 < (s.icache i).ref
  · rw [if_pos href, if_pos (show 0 < s.inodes.ref i from href)]
    exact .inl (hs.both_set (hs.keep rfl id) rfl rfl (update_eq_self _ _).symm
      (update_eq_self _ _).symm)
  · rw [if_neg href, if_neg (show ¬ 0 < s.inodes.ref i from href)]
    by_cases hfull : NINODE ≤ s.cached sb
    · rw [if_pos hfull, if_pos (show NINODE ≤ s.inodes.cached sb from hfull)]
      exact .inr (.inl ⟨_, _, _, rfl, rfl⟩)
    · rw [if_neg hfull, if_neg (show ¬ NINODE ≤ s.inodes.cached sb from hfull)]
      exact .inl (hs.both_set nofun rfl rfl (update_eq_self _ _).symm rfl)

theorem refined_idup (i : Nat) : Shown sb lost (idup i) (Inodes.idup i) := by
  refine refined_of_run fun s hs => .inl ?_
  exact hs.both_set (f := fun ip => { ip with ref := ip.ref + 1 })
    (a := s.inodes.setRef i (s.inodes.ref i + 1)) (hs.keep rfl id) rfl rfl
    (update_eq_self _ _).symm (update_eq_self _ _).symm

theorem Disk.Consistent.type_eq (hs : s.Consistent sb) (i : Nat) :
    (s.inodes.node i).type = (s.dinode i).type := by
  show (s.node i).type = _
  unfold Disk.node
  rw [← hs.inode_eq]
  split
  · next h => rw [h]
  · rfl

theorem refined_ilock (i : Nat) : Shown sb lost (ilock i) (Inodes.ilock i) := by
  refine refined_of_run fun s hs => ?_
  unfold ilock Inodes.ilock
  rw [bind_ok (get_run s), bind_ok (get_run s.inodes)]
  by_cases href : (s.icache i).ref < 1
  · rw [if_pos href, if_pos (show s.inodes.ref i < 1 from href)]
    exact .inr (.inl ⟨_, _, _, rfl, rfl⟩)
  rw [if_neg href, if_neg (show ¬ s.inodes.ref i < 1 from href)]
  by_cases hlocked : (s.icache i).locked = true
  · rw [if_pos hlocked, if_pos (show s.inodes.locked i = true from hlocked)]
    exact .inr (.inl ⟨_, _, _, rfl, rfl⟩)
  rw [if_neg hlocked, if_neg (show ¬ s.inodes.locked i = true from hlocked), hs.type_eq]
  by_cases hvalid : (s.icache i).valid = true
  · have htype := (hs.keep (i := i) rfl id hvalid).2
    rw [if_pos hvalid, if_neg htype]
    refine .inl (hs.both_set (hs.keep rfl id) rfl (update_eq_self _ _).symm rfl ?_)
    show update s.inodes.valid i true = _
    rw [← hvalid]
  · rw [if_neg hvalid]
    by_cases htype : (s.dinode i).type = 0
    · rw [if_pos htype, if_pos htype]
      exact .inr (.inl ⟨_, _, _, rfl, rfl⟩)
    · rw [if_neg htype, if_neg htype]
      exact .inl (hs.both_set (fun _ => ⟨rfl, htype⟩) rfl (update_eq_self _ _).symm rfl rfl)

theorem refined_iunlock (i : Nat) : Shown sb lost (iunlock i) (Inodes.iunlock i) := by
  refine refined_of_run fun s hs => ?_
  unfold iunlock Inodes.iunlock
  rw [bind_ok (get_run s), bind_ok (get_run s.inodes)]
  by_cases h : (!(s.icache i).locked || decide ((s.icache i).ref < 1)) = true
  · rw [if_pos h, if_pos (show (!s.inodes.locked i || decide (s.inodes.ref i < 1)) = true from h)]
    exact .inr (.inl ⟨_, _, _, rfl, rfl⟩)
  · rw [if_neg h, if_neg (show ¬ (!s.inodes.locked i || decide (s.inodes.ref i < 1)) = true from h)]
    exact .inl (hs.both_set (hs.keep rfl id) rfl (update_eq_self _ _).symm rfl
      (update_eq_self _ _).symm)

/-! ## Fields -/

theorem Disk.Consistent.node_eq (hs : s.Consistent sb) (hv : (s.icache i).valid = true) :
    s.inodes.node i = { (s.icache i).copy with content := s.content i } := by
  have hinode := inode_of_valid hv
  have hlive : (s.icache i).copy.type ≠ 0 := by
    rw [← hinode]
    exact hs.live i hv
  show s.node i = _
  unfold Disk.node
  rw [hinode, if_neg hlive]

theorem refined_fields (i : Nat) : Shown sb lost (diskOps sb (.fields i)) (Inodes.fields i) := by
  refine refined_of_run fun s hs => ?_
  by_cases hv : (s.icache i).valid = true
  · refine .inl ⟨(s.icache i).copy.fields, s, rfl, ?_, hs⟩
    have hsize : (s.content i).length = (s.icache i).copy.size := by
      have hinode := inode_of_valid hv
      rw [length_content, hinode]
    unfold Inodes.fields
    rw [bind_ok (get_run s.inodes), if_neg (by rw [show s.inodes.valid i = true from hv]; nofun),
      hs.node_eq hv, hsize]
    rfl
  · refine .inr (.inr ⟨s.inodes, ?_⟩)
    unfold Inodes.fields
    rw [bind_ok (get_run s.inodes), if_pos]
    · rfl
    · rw [show s.inodes.valid i = false from Bool.eq_false_iff.mpr hv]
      rfl

theorem inodes_setInode (s : Disk) (i : Nat) (d : Dinode) :
    (s.setInode i d).inodes = { s.inodes with node := (s.setInode i d).node } := by
  have hcache : ∀ j, (s.setInode i d).icache j = { s.icache j with copy := ((s.setInode i d).icache j).copy } := by
    intro j
    rw [icache_setInode]
    by_cases hj : j = i
    · subst hj
      rw [update_self]
    · rw [update_of_ne hj]
  unfold inodes
  congr 1 <;>
  · funext j
    rw [hcache j]

theorem Disk.Consistent.setInode (hs : s.Consistent sb) {d : Dinode} (hv : (s.icache i).valid = true)
    (htype : d.type = (s.inode i).type) (haddrs : d.addrs = (s.inode i).addrs)
    (hsize : d.size = (s.inode i).size) :
    (s.setInode i d).Consistent sb ∧ (s.setInode i d).inodes =
      s.inodes.setNode i { d with content := s.content i } := by
  have hi := hs.live i hv
  have hlive : ∀ j, (s.setInode i d).Live j ↔ s.Live j := by
    intro j
    unfold Live
    by_cases hj : j = i
    · subst hj
      rw [inode_setInode, htype]
    · rw [inode_setInode_of_ne hj]
  have hsame : ∀ j, SameContent j s (s.setInode i d) := by
    intro j
    by_cases hj : j = i
    · subst hj
      exact ⟨by rw [inode_setInode, haddrs], by rw [inode_setInode, hsize], rfl⟩
    · exact .of_inode (inode_setInode_of_ne hj d) rfl
  have hvalid : ∀ j, ((s.setInode i d).icache j).valid = (s.icache j).valid := by
    intro j
    rw [icache_setInode]
    by_cases hj : j = i
    · subst hj
      rw [update_self]
    · rw [update_of_ne hj]
  refine ⟨hs.congr rfl (fun j hj => ⟨(hlive j).mpr hj, hsame j⟩) (fun j hj => .inl ((hlive j).mp hj))
    (fun j hjv => ?_) (fun j hjv => ?_), ?_⟩
  · rw [icache_setInode, dinode_setInode]
    by_cases hj : j = i
    · subst hj
      rw [update_self, update_self]
    · rw [hvalid] at hjv
      rw [update_of_ne hj, update_of_ne hj, hs.synced j hjv]
  · rw [hvalid] at hjv
    exact (hlive j).mpr (hs.live j hjv)
  · have hnode : (s.setInode i d).node = update s.node i { d with content := s.content i } := by
      funext j
      by_cases hj : j = i
      · subst hj
        rw [update_self]
        unfold Disk.node
        rw [inode_setInode, (hsame j).content, if_neg (by rw [htype]; exact hi)]
      · rw [update_of_ne hj]
        exact node_of_inode (inode_setInode_of_ne hj d) rfl
    rw [inodes_setInode, hnode]
    rfl

theorem refined_iupdate (i major minor : Nat) (nlink : Int) :
    Shown sb lost (updateFields i major minor nlink) (Inodes.iupdate i major minor nlink) := by
  refine refined_of_run fun s hs => ?_
  unfold Inodes.iupdate
  rw [bind_ok (get_run s.inodes)]
  by_cases hv : (s.icache i).valid = true
  · have hinode := inode_of_valid hv
    obtain ⟨hcons, hnode⟩ := hs.setInode (d := { (s.icache i).copy with major, minor, nlink }) hv
      (by rw [hinode]) (by rw [hinode]) (by rw [hinode])
    refine .inl ⟨(), _, iupdate_updCopy _ _ _, ?_, hcons⟩
    rw [if_neg (by rw [show s.inodes.valid i = true from hv]; nofun), hnode, hs.node_eq hv]
    rfl
  · rw [if_pos (by rw [show s.inodes.valid i = false from Bool.eq_false_iff.mpr hv]; rfl)]
    exact .inr (.inr ⟨_, rfl⟩)

/-! ## A new inode -/

theorem Disk.Consistent.ialloc (hs : s.Consistent sb) (hi : (s.dinode i).type = 0) (type : Nat) :
    let t := { s with dinode := update s.dinode i { type := type } }
    t.Consistent sb ∧ t.inodes = s.inodes.setNode i { type := type } := by
  intro t
  have hv : (s.icache i).valid = false := by
    refine Bool.eq_false_iff.mpr fun hv => hs.live i hv ?_
    rw [hs.inode_eq, hi]
  have hdead : ¬ s.Live i := by
    unfold Live
    rw [hs.inode_eq, hi]
    exact not_not_intro rfl
  have hne : ∀ j, j ≠ i → t.inode j = s.inode j := by
    intro j hj
    show (if (s.icache j).valid = true then _ else update s.dinode i _ j) = _
    rw [update_of_ne hj]
    rfl
  have hnew : t.inode i = { type := type } := by
    show (if (s.icache i).valid = true then _ else update s.dinode i _ i) = _
    rw [hv, update_self]
    rfl
  have hsame : ∀ j, s.Live j → j ≠ i ∧ t.inode j = s.inode j := by
    intro j hj
    have hji : j ≠ i := fun h => hdead (h ▸ hj)
    exact ⟨hji, hne j hji⟩
  refine ⟨hs.congr rfl (fun j hj => ⟨?_, .of_inode (hsame j hj).2 rfl⟩) (fun j hj => ?_) (fun j hjv => ?_)
    (fun j hjv => ?_), ?_⟩
  · unfold Live
    rw [(hsame j hj).2]
    exact hj
  · by_cases hji : j = i
    · subst hji
      exact .inr ⟨by rw [hnew], by rw [hnew]⟩
    · unfold Live at hj
      rw [hne j hji] at hj
      exact .inl hj
  · have hji : j ≠ i := by
      rintro rfl
      exact absurd hjv (by rw [hv]; rintro ⟨⟩)
    show update s.dinode i _ j = _
    rw [update_of_ne hji]
    exact hs.synced j hjv
  · have hlive := hs.live j hjv
    unfold Live at hlive ⊢
    rwa [(hsame j hlive).2]
  · have hnode : t.node = update s.node i { type := type } := by
      funext j
      by_cases hji : j = i
      · subst hji
        have hcontent : t.content j = [] := by
          refine List.eq_nil_of_length_eq_zero ?_
          rw [length_content, hnew]
        rw [update_self]
        unfold Disk.node
        rw [hnew, hcontent]
        split
        · next h => rw [show type = 0 from h]
        · rfl
      · rw [update_of_ne hji]
        exact node_of_inode (hne j hji) rfl
    show Inodes.mk t.node _ _ _ = _
    rw [hnode]
    rfl

theorem refined_ialloc (type : Nat) : Shown sb lost (ialloc sb type) (Inodes.ialloc sb type) := by
  refine ⟨fun s a ⟨hs, ha⟩ hno => ?_⟩
  subst ha
  have hfind : (fun i => decide (i ≠ 0) && (s.inodes.node i).type == 0) =
      fun i => decide (i ≠ 0) && (s.dinode i).type == 0 := by
    funext i
    rw [hs.type_eq]
  unfold Inodes.ialloc at hno ⊢
  unfold ialloc
  rw [bind_ok (get_run s.inodes), hfind] at hno ⊢
  rw [bind_ok (get_run s)]
  cases hf : (List.range sb.ninodes).find? fun i => decide (i ≠ 0) && (s.dinode i).type == 0 with
  | none => exact .inl ⟨_, rfl⟩
  | some i =>
    rw [hf] at hno
    have hi : (s.dinode i).type = 0 := by
      have := List.find?_some hf
      simp only [Bool.and_eq_true, beq_iff_eq] at this
      exact this.2
    obtain ⟨hcons, hinodes⟩ := hs.ialloc hi type
    exact (Prog.Sim.bind (refined_iget i) fun _ => Prog.Sim.pure i).run _ _ ⟨hcons, hinodes⟩ hno

theorem Disk.Sound.size_le (hs : s.Sound sb) (hi : s.Live i) : (s.inode i).size ≤ MAXFILE * BSIZE := by
  refine Nat.le_of_not_lt fun hlt => ?_
  have hsome := isSome_view_iff.mp (hs.full hi hlt)
  exact absurd hsome.1 (Nat.lt_irrefl _)

theorem Disk.Consistent.tests (hs : s.Consistent sb) (hv : (s.icache i).valid = true) :
    (s.inodes.node i).type = (s.icache i).copy.type ∧ (s.inodes.node i).major = (s.icache i).copy.major ∧
      (s.inodes.node i).content.length = (s.icache i).copy.size := by
  have hinode := inode_of_valid hv
  rw [hs.node_eq hv]
  refine ⟨rfl, rfl, ?_⟩
  rw [length_content, hinode]

theorem refined_readi (i off n : Nat) : Shown sb lost (readi sb i off n) (Inodes.readi i off n) := by
  refine refined_of_run fun s hs => ?_
  unfold Inodes.readi
  rw [bind_ok (get_run s.inodes)]
  by_cases hmis : (!s.inodes.valid i || decide (2 ^ 32 ≤ n)) = true
  · rw [if_pos hmis]
    exact .inr (.inr ⟨_, rfl⟩)
  rw [if_neg hmis]
  simp only [Bool.or_eq_true, Bool.not_eq_true', decide_eq_true_eq, not_or, Bool.not_eq_false] at hmis
  obtain ⟨hv, hn⟩ := hmis
  have hinode := inode_of_valid hv
  obtain ⟨htype, hmajor, hlen⟩ := hs.tests hv
  rw [htype, hmajor, hlen]
  by_cases hdev : (s.icache i).copy.type = T_DEV
  · rw [if_pos hdev]
    by_cases hdriver : (s.icache i).copy.major = CONSOLE
    · rw [if_pos hdriver]
      refine .inr (.inl ⟨.device, s, s.inodes, ?_, rfl⟩)
      unfold readi
      rw [bind_ok (get_run s), if_pos hdev, if_pos hdriver]
      rfl
    · rw [if_neg hdriver]
      refine .inl ⟨none, s, ?_, rfl, hs⟩
      unfold readi
      rw [bind_ok (get_run s), if_pos hdev, if_neg hdriver]
      rfl
  rw [if_neg hdev]
  by_cases href : (s.icache i).copy.size < off ∨ (off + n) % 2 ^ 32 < off
  · rw [if_pos href]
    refine .inl ⟨none, s, ?_, rfl, hs⟩
    unfold readi
    rw [bind_ok (get_run s), if_neg hdev, if_pos href]
    rfl
  · rw [if_neg href]
    refine .inl ⟨_, s, readi_eq hv (by rwa [hinode]) (by omega) hs.sound.full (hs.live i hv) (by omega) ?_,
      ?_, hs⟩
    · rw [wraps_iff (by omega) (by omega)] at href
      rwa [hinode]
    · rw [hs.node_eq hv]
      rfl

/-! ## Writing -/

theorem Gives.used (h : Gives sb i k b s t) (hu : s.Used sb) (hi : s.Live i) : t.Used sb := by
  intro b' hb' hbit
  rw [h.bitmap, update_apply] at hbit
  by_cases hbb : b' = b
  · refine .inr ⟨i, k, (h.same.live i).mpr hi, ?_⟩
    rw [h.ref i k hi, if_pos ⟨rfl, rfl⟩, hbb]
  · rw [if_neg hbb] at hbit
    obtain hlt | ⟨j, l, hj, hl⟩ := hu b' hb' hbit
    · exact .inl hlt
    · by_cases hjl : j = i ∧ l = k
      · -- the place was empty
        rw [hjl.1, hjl.2, h.empty] at hl
        exact .inl (hl ▸ sb.nmeta_pos)
      · refine .inr ⟨j, l, (h.same.live j).mpr hj, ?_⟩
        rw [h.ref j l hj, if_neg hjl, hl]

theorem Writes.used (h : Writes sb i s t) (hs : s.Tidy sb) (hu : s.Used sb) (hi : s.Live i) : t.Used sb := by
  induction h with
  | refl => exact hu
  | tail hsteps hstep ih =>
    have hlive := ((Writes.same hsteps).live i).mpr hi
    cases hstep with
    | gives hgives => exact hgives.used ih hlive
    | content hbn h0 blk =>
      intro b hb hbit
      refine (ih b hb hbit).imp_right fun ⟨j, k, hj, hk⟩ => ⟨j, k, hj, ?_⟩
      rw [ref_content (Writes.tidy hsteps hs hi) hlive (blockSlot_ne_indirect hbn) h0 blk hj, hk]

/-- The write goes through to the disk: either no block was allocated, or the size has grown. -/
theorem Written.consistent {off : Nat} {src : Bytes}
    (h : Written sb i off (off + src.length) (BlockArray.write BSIZE 0 src.length off src (t.view i)) t u)
    (ht : t.Consistent sb) (hv : (t.icache i).valid = true) (hoff : off ≤ (t.inode i).size)
    (hs : s = if 0 < src.length ∧ (t.inode i).size < off + src.length then
      u.setSize i (off + src.length) else u) : s.Consistent sb ∧ s.inodes = t.inodes.setNode i
      { t.inodes.node i with content := BlockArray.splice (t.inodes.node i).content off src } := by
  have hi := ht.live i hv
  have hspliced := h.spliced ht.sound hi hv hoff hs
  have hsame := h.steps.same
  have hvu : (u.icache i).valid = true := by rw [hsame.valid, hv]
  have hused := h.steps.used ht.sound.tidy ht.used hi
  have hinode : ∃ f n, s.inode i = { t.inode i with addrs := f, size := n } := by
    obtain ⟨f, hf⟩ := hsame.inode
    rw [hs]
    split
    · exact ⟨f, off + src.length, by rw [inode_setSize hvu, hf]⟩
    · exact ⟨f, _, hf⟩
  have hothers : ∀ j, j ≠ i → s.inode j = t.inode j := by
    intro j hj
    rw [← hsame.inode_of_ne hj, hs]
    split
    · exact inode_setSize_of_ne hj _
    · rfl
  have hlive : ∀ j, s.Live j ↔ t.Live j := by
    intro j
    unfold Live
    by_cases hj : j = i
    · obtain ⟨f, n, hf⟩ := hinode
      rw [hj, hf]
    · rw [hothers j hj]
  have hcached : ∀ j, ∃ d, s.icache j = { t.icache j with copy := d } := by
    intro j
    rw [hs]
    split
    · by_cases hj : j = i
      · subst hj
        obtain ⟨d, hd⟩ := hsame.cached j
        refine ⟨{ (u.icache j).copy with size := off + src.length }, ?_⟩
        unfold setSize
        rw [icache_setInode, update_self, hd]
      · obtain ⟨d, hd⟩ := hsame.cached j
        refine ⟨d, ?_⟩
        unfold setSize
        rw [icache_setInode, update_of_ne hj, hd]
    · exact hsame.cached j
  have hvalid : ∀ j, (s.icache j).valid = (t.icache j).valid := by
    intro j
    obtain ⟨d, hd⟩ := hcached j
    rw [hd]
  refine ⟨⟨hspliced.sound, ?_, fun j hjv => ?_, fun j hjv => ?_⟩, ?_⟩
  · rw [hs]
    split
    · intro b hb hbit
      refine (hused b hb hbit).imp_right fun ⟨j, k, hj, hk⟩ => ⟨j, k, (live_setSize hvu _ j).mpr hj, ?_⟩
      rw [ref_setSize hvu, hk]
    · exact hused
  · rw [hvalid] at hjv
    rw [hs]
    split
    · unfold setSize
      rw [icache_setInode, dinode_setInode]
      by_cases hj : j = i
      · subst hj
        rw [update_self, update_self]
      · rw [update_of_ne hj, update_of_ne hj, hsame.dinode, hsame.others j hj]
        exact ht.synced j hjv
    · next hgrow =>
      -- all bytes are below the size, so their blocks were there
      obtain ⟨-, hicache⟩ := h.inPlace fun x _ hx => ht.sound.full hi (by omega)
      rw [hsame.dinode, hicache]
      exact ht.synced j hjv
  · rw [hvalid] at hjv
    exact (hlive j).mpr (ht.live j hjv)
  · have hnode : s.node = update t.node i
        { t.node i with content := BlockArray.splice (t.node i).content off src } := by
      funext j
      by_cases hj : j = i
      · subst hj
        obtain ⟨f, n, hf⟩ := hinode
        have htype : (t.inode j).type ≠ 0 := hi
        rw [update_self]
        unfold Disk.node
        rw [hspliced.content, hf, if_neg htype, if_neg htype]
      · rw [update_of_ne hj]
        unfold Disk.node
        rw [hothers j hj]
        split
        · rfl
        · next hjl => rw [(hspliced.others j hj hjl).1]
    have hcache : s.inodes = { t.inodes with node := s.node } := by
      unfold inodes
      congr 1 <;>
      · funext j
        obtain ⟨d, hd⟩ := hcached j
        rw [hd]
    rw [hcache, hnode]
    rfl

theorem refined_writei (i off : Nat) (src : Bytes) :
    Refined sb (writei sb i off src) (Inodes.writei i off src) := by
  refine ⟨fun s a ⟨hs, ha⟩ hno => ?_⟩
  subst ha
  unfold Inodes.writei at hno ⊢
  rw [bind_ok (get_run s.inodes)] at hno ⊢
  by_cases hmis : (!s.inodes.valid i || decide (2 ^ 32 ≤ src.length)) = true
  · rw [if_pos hmis] at hno
    exact absurd rfl (hno s.inodes)
  rw [if_neg hmis] at hno ⊢
  simp only [Bool.or_eq_true, Bool.not_eq_true', decide_eq_true_eq, not_or, Bool.not_eq_false] at hmis
  obtain ⟨hv, hn⟩ := hmis
  have hinode := inode_of_valid hv
  obtain ⟨htype, hmajor, hlen⟩ := hs.tests hv
  rw [htype, hlen]
  by_cases hdev : (s.icache i).copy.type = T_DEV
  · rw [if_pos hdev, hmajor]
    by_cases hdriver : (s.icache i).copy.major = CONSOLE
    · have hc : writei sb i off src s = .error .device s := by
        unfold writei
        rw [bind_ok (get_run s), if_pos hdev, if_pos hdriver]
        rfl
      rw [hc, if_pos hdriver]
      exact .inl ⟨_, rfl⟩
    · have hc : writei sb i off src s = .ok none s := by
        unfold writei
        rw [bind_ok (get_run s), if_pos hdev, if_neg hdriver]
        rfl
      rw [hc, if_neg hdriver]
      exact ⟨_, rfl, hs, rfl⟩
  rw [if_neg hdev]
  by_cases h1 : (s.icache i).copy.size < off ∨ (off + src.length) % 2 ^ 32 < off
  · have hc : writei sb i off src s = .ok none s := by
      unfold writei
      rw [bind_ok (get_run s), if_neg hdev, if_pos h1]
      rfl
    rw [hc, if_pos h1]
    exact ⟨_, rfl, hs, rfl⟩
  rw [if_neg h1]
  by_cases h2 : MAXFILE * BSIZE < (off + src.length) % 2 ^ 32
  · have hc : writei sb i off src s = .ok none s := by
      unfold writei
      rw [bind_ok (get_run s), if_neg hdev, if_neg h1, if_pos h2]
      rfl
    rw [hc, if_pos h2]
    exact ⟨_, rfl, hs, rfl⟩
  rw [if_neg h2]
  have hok : ¬ WriteRefused (s.inode i).size off src.length := by
    unfold WriteRefused
    rw [hinode]
    omega
  have hrun := (writei_triple hv (by rwa [hinode]) (by omega) hs.sound.tidy (hs.live i hv) (by omega)
    hok).run s rfl
  cases hc : writei sb i off src s with
  | ok r t =>
    rw [hc] at hrun
    obtain ⟨rfl, u, hu, ht⟩ := hrun
    obtain ⟨hcons, hinodes⟩ := hu.consistent hs hv (by rw [hinode]; omega) ht
    exact ⟨t.inodes, by rw [hinodes, ← htype]; rfl, hcons, rfl⟩
  | error e t =>
    rw [hc] at hrun
    exact .inr hrun

/-! ## Freeing -/

theorem Disk.Consistent.freed (hs : s.Consistent sb) (hi : s.Live i) {bm : Nat → Bool}
    (hbm : Freed s i (fun _ => True) bm) {c : Cached} {d : Dinode} (hc : c.valid = false) (hd : d.type = 0) :
    let t : Disk := { s with
      bitmap := bm
      dinode := update s.dinode i d
      icache := update s.icache i c }
    t.Consistent sb ∧ t.node = update s.node i {} := by
  intro t
  have hne : ∀ j, j ≠ i → t.icache j = s.icache j ∧ t.inode j = s.inode j := by
    intro j hj
    have hcache : t.icache j = s.icache j := update_of_ne hj _ _
    refine ⟨hcache, ?_⟩
    unfold Disk.inode
    rw [hcache, show t.dinode j = s.dinode j from update_of_ne hj _ _]
  have hcache : t.icache i = c := update_self _ _ _
  have hinode : t.inode i = d := by
    unfold Disk.inode
    rw [hcache, hc, if_neg (by rintro ⟨⟩)]
    exact update_self _ _ _
  have hlive : ∀ j, t.Live j → j ≠ i ∧ s.Live j := by
    intro j hj
    have hji : j ≠ i := by
      rintro rfl
      unfold Live at hj
      rw [hinode] at hj
      exact hj hd
    refine ⟨hji, ?_⟩
    unfold Live at hj ⊢
    rwa [← (hne j hji).2]
  have hsame : ∀ j, j ≠ i → SameContent j s t := fun j hj => .of_inode (hne j hj).2 rfl
  refine ⟨⟨⟨?_, fun {j x} hj hx => ?_⟩, fun b hb hbit => ?_, fun j hjv => ?_, fun j hjv => ?_⟩, ?_⟩
  · refine hs.sound.tidy.of_refs (fun {j k} hj _ => ⟨(hlive j hj).2, (hsame j (hlive j hj).1).ref k⟩)
      fun b hb hbit => (hbm b).mpr ⟨hbit, fun k _ hk => ?_⟩
    by_contra h0
    have hk0 : s.ref i k ≠ 0 := hk ▸ h0
    obtain hlt | ⟨j, l, hj, hl, -⟩ := hb
    · have := (hs.sound.tidy.area hi hk0).1
      omega
    · obtain ⟨hji, hjl⟩ := hlive j hj
      rw [(hsame j hji).ref] at hl
      exact hji (hs.sound.tidy.inj hi hjl (hk.trans hl.symm) hk0).1.symm
  · obtain ⟨hji, hjl⟩ := hlive j hj
    rw [(hsame j hji).size] at hx
    rw [(hsame j hji).view]
    exact hs.sound.full hjl hx
  · obtain ⟨hbit, hfree⟩ := (hbm b).mp hbit
    obtain hlt | ⟨j, l, hj, hl⟩ := hs.used b hb hbit
    · exact .inl hlt
    · by_cases hji : j = i
      · subst hji
        exact .inl (hfree l trivial hl ▸ sb.nmeta_pos)
      · refine .inr ⟨j, l, ?_, by rw [(hsame j hji).ref, hl]⟩
        unfold Live
        rw [(hne j hji).2]
        exact hj
  · by_cases hji : j = i
    · subst hji
      rw [hcache, hc] at hjv
      cases hjv
    · rw [(hne j hji).1] at hjv ⊢
      rw [show t.dinode j = s.dinode j from update_of_ne hji _ _]
      exact hs.synced j hjv
  · by_cases hji : j = i
    · subst hji
      rw [hcache, hc] at hjv
      cases hjv
    · rw [(hne j hji).1] at hjv
      have := hs.live j hjv
      unfold Live at this ⊢
      rwa [(hne j hji).2]
  · funext j
    by_cases hji : j = i
    · subst hji
      rw [update_self]
      unfold Disk.node
      rw [hinode, if_pos hd]
    · rw [update_of_ne hji]
      exact node_of_inode (hne j hji).2 rfl

theorem iput_free (hs : s.Consistent sb) (hlocked : (s.icache i).locked = false)
    (hfree : ((s.icache i).valid && (s.icache i).copy.nlink == 0 && (s.icache i).ref == 1) = true) :
    ∃ t, iput i s = .ok () t ∧ t.Consistent sb ∧
      t.inodes = (s.inodes.free i).setRef i ((s.icache i).ref - 1) := by
  have hv : (s.icache i).valid = true := by
    simp only [Bool.and_eq_true] at hfree
    exact hfree.1.1
  have hi := hs.live i hv
  obtain ⟨⟨⟩, t, htrunc, bm, hbm, rfl⟩ := (itrunc_triple hs.sound.tidy hi hv).returns rfl
  unfold iput
  rw [bind_ok (get_run s), if_neg (by rw [hlocked]; rintro ⟨⟩), if_pos hfree]
  dsimp only
  rw [bind_ok htrunc, bind_ok (modify_run _ _), bind_ok (iupdate_updCopy _ _ _),
    bind_ok (modify_run _ _), modify_run]
  have hstate : ∀ d d' : Dinode, ((({ s with bitmap := bm }.setInode i d).setInode i d').updInode i
      fun ip => { ip with valid := false }).updInode i (fun ip => { ip with ref := ip.ref - 1 }) =
      { s with
        bitmap := bm
        dinode := update s.dinode i d'
        icache := update s.icache i
          { s.icache i with ref := (s.icache i).ref - 1, valid := false, copy := d' } } := by
    intro d d'
    unfold Disk.setInode Disk.updInode
    simp only [update_self, update_idem]
  obtain ⟨hcons, hnode⟩ := hs.freed hi hbm
    (c := { s.icache i with
      ref := (s.icache i).ref - 1
      valid := false
      copy := { (s.icache i).copy with type := 0, addrs := fun _ => 0, size := 0 } })
    (d := { (s.icache i).copy with type := 0, addrs := fun _ => 0, size := 0 }) rfl rfl
  refine ⟨_, rfl, ?_⟩
  rw [icache_setInode, update_self, hstate]
  refine ⟨hcons, ?_⟩
  unfold inodes Inodes.free Inodes.setRef Inodes.setNode Inodes.setValid
  rw [hnode]
  dsimp only
  congr 1 <;> funext j <;> by_cases hj : j = i
  all_goals first
    | (subst hj; simp only [update_self])
    | simp only [update_of_ne hj]

theorem refined_iput (i : Nat) : Shown sb lost (iput i) (Inodes.iput i) := by
  refine refined_of_run fun s hs => ?_
  unfold Inodes.iput
  rw [bind_ok (get_run s.inodes)]
  by_cases hlocked : (s.icache i).locked = true
  · rw [if_pos (show s.inodes.locked i = true from hlocked)]
    refine .inr (.inl ⟨.deadlock, s, s.inodes, ?_, rfl⟩)
    unfold iput
    rw [bind_ok (get_run s), if_pos hlocked]
    rfl
  rw [if_neg (show ¬ s.inodes.locked i = true from hlocked)]
  have htest : (s.inodes.valid i && (s.inodes.node i).nlink == 0 && s.inodes.ref i == 1) =
      ((s.icache i).valid && (s.icache i).copy.nlink == 0 && (s.icache i).ref == 1) := by
    by_cases hv : (s.icache i).valid = true
    · rw [hs.node_eq hv]
      rfl
    · rw [show s.inodes.valid i = false from Bool.eq_false_iff.mpr hv, Bool.eq_false_iff.mpr hv]
      rfl
  rw [htest]
  by_cases hfree : ((s.icache i).valid && (s.icache i).copy.nlink == 0 && (s.icache i).ref == 1) = true
  · obtain ⟨t, ht, hcons, hinodes⟩ := iput_free hs (Bool.eq_false_iff.mpr hlocked) hfree
    rw [if_pos hfree]
    exact .inl ⟨(), t, ht, by rw [hinodes]; rfl, hcons⟩
  · rw [if_neg hfree]
    unfold iput
    rw [bind_ok (get_run s), if_neg hlocked, if_neg hfree]
    exact .inl (hs.both_set (hs.keep rfl id) rfl rfl (update_eq_self _ _).symm
      (update_eq_self _ _).symm)

/-- Only `writei` needs blocks. -/
def Op.Writes : Op → Prop
  | .writei .. => True
  | _ => False

theorem shown_op {o : Op} (ho : ¬ o.Writes) : Shown sb lost (diskOps sb o) (inodeOps sb o) := by
  cases o with
  | iget i => exact refined_iget i
  | idup i => exact refined_idup i
  | ialloc type => exact refined_ialloc type
  | ilock i => exact refined_ilock i
  | iunlock i => exact refined_iunlock i
  | iput i => exact refined_iput i
  | fields i => exact refined_fields i
  | iupdate i major minor nlink => exact refined_iupdate i major minor nlink
  | readi i off n => exact refined_readi i off n
  | writei i off src => exact absurd trivial ho
  | panic msg => exact refined_of_run fun s _ => .inr (.inl ⟨_, s, s.inodes, rfl, rfl⟩)

theorem refined_op (o : Op) : Refined sb (diskOps sb o) (inodeOps sb o) := by
  cases o with
  | writei i off src => exact refined_writei i off src
  | _ => exact shown_op id

theorem refined_prog (p : FsProg α) :
    Refined sb (p.run (diskOps sb)) (p.run (inodeOps sb)) := Prog.Sim.prog refined_op p

end Xv6.Store
