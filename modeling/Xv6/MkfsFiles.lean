import Xv6.MkfsAppend

/-!
# The files of the image

What `mkfs` has built at any time is a list of files, the first of them the root directory. `Built`
says that the image shows this list, in the sense of the inode layer, and how far `freeblock` and
`freeinode` have come. Each step of `mkfs` is a change of the list.
-/

namespace Xv6.Mkfs

open Function (update update_apply update_idem update_eq_self update_self update_of_ne)
open Store Hoare
open Calls (mkfsSb)

/-- A file of the image. -/
structure File where
  type : Nat
  bytes : Bytes

/-- The file as an inode. -/
def File.node (f : File) : Node := { type := f.type, nlink := 1, content := f.bytes }

/-- The inodes of the files, from `1` on. -/
def nodes (files : List File) : Nat → Node
  | 0 => {}
  | i + 1 => (files[i]?).elim {} File.node

/-- The image holds these files, and nothing else. -/
structure Built (m : Image) (files : List File) : Prop where
  ready : Ready m
  freeinode : m.freeinode = files.length + 1
  count : m.freeblock = nmeta + (files.map fun f => blocksFor f.bytes.length).sum
  types : ∀ f ∈ files, f.type = T_DIR ∨ f.type = T_FILE
  consistent : (disk m).Consistent mkfsSb
  node : (disk m).node = nodes files
  exact : ∀ k f, files[k]? = some f → Exact (disk m) (k + 1) f.bytes.length

variable {m : Image} {files : List File} {f : File} {i j k n : Nat} {d : Dinode} {s t : Disk}

theorem Exact.congr (h : Exact s j n) (hview : t.view j = s.view j)
    (haddrs : (t.inode j).addrs = (s.inode j).addrs) : Exact t j n where
  blocks bn hbn := by
    have hiff : t.ref j (blockSlot bn) ≠ 0 ↔ s.ref j (blockSlot bn) ≠ 0 := by
      have hsome : (t.view j bn).isSome ↔ (s.view j bn).isSome := by rw [hview]
      rw [isSome_view_iff, isSome_view_iff] at hsome
      simpa only [hbn, true_and] using hsome
    rw [hiff]
    exact h.blocks bn hbn
  indirect := by
    have heq : t.ref j .indirect = s.ref j .indirect := by
      unfold Disk.ref Dinode.ref
      rw [haddrs]
    rw [heq]
    exact h.indirect

theorem Exact.of_addrs (h : Exact s j n) (haddrs : (t.inode j).addrs = (s.inode j).addrs)
    (hblocks : t.blocks = s.blocks) : Exact t j n := by
  have href : ∀ k, t.ref j k = s.ref j k := by
    intro k
    unfold Disk.ref Dinode.ref
    rw [haddrs, hblocks]
  refine h.congr (funext fun bn => ?_) haddrs
  unfold Disk.view
  rw [href, hblocks]

theorem inode_disk (m : Image) (j : Nat) : (disk m).inode j = (disk m).dinode j := rfl

theorem inode_load_disk (m : Image) (i j : Nat) :
    (load m i ((disk m).dinode i)).inode j = (disk m).inode j := by
  by_cases hj : j = i
  · rw [hj, inode_load, inode_disk]
  · rw [inode_load_of_ne hj, inode_disk]

section
variable (h : Built m files) (hk : files[k]? = some f)
include h hk

theorem Built.node_eq : (disk m).node (k + 1) = f.node := by
  rw [h.node]
  show (files[k]?).elim {} File.node = f.node
  rw [hk]
  rfl

theorem Built.dinode :
    ∃ a, (disk m).dinode (k + 1) = { type := f.type, nlink := 1, size := f.bytes.length, addrs := a } ∧
      (disk m).content (k + 1) = f.bytes := by
  have hnode := h.node_eq hk
  have htype : f.type ≠ 0 := by
    obtain h | h := h.types f (List.mem_of_getElem? hk) <;> rw [h] <;> decide
  unfold Disk.node at hnode
  rw [inode_disk] at hnode
  split at hnode
  · -- a free inode has type 0
    exact absurd (congrArg Node.type hnode).symm htype
  · have hcontent : (disk m).content (k + 1) = f.bytes := congrArg Node.content hnode
    have hsize : ((disk m).dinode (k + 1)).size = f.bytes.length := by
      rw [← hcontent, length_content, inode_disk]
    have ht := congrArg Node.type hnode
    have hmajor := congrArg Node.major hnode
    have hminor := congrArg Node.minor hnode
    have hnlink := congrArg Node.nlink hnode
    refine ⟨((disk m).dinode (k + 1)).addrs, ?_, hcontent⟩
    generalize (disk m).dinode (k + 1) = d at *
    obtain ⟨type, major, minor, nlink, size, addrs⟩ := d
    dsimp only at ht hmajor hminor hnlink hsize
    rw [ht, hmajor, hminor, hnlink, hsize]
    rfl

theorem Built.live : (disk m).Live (k + 1) := by
  obtain ⟨a, hd, -⟩ := h.dinode hk
  unfold Disk.Live
  rw [inode_disk, hd]
  obtain h | h := h.types f (List.mem_of_getElem? hk) <;> dsimp only <;> rw [h] <;> decide

end

/-! ## Appending -/

variable {len : Nat}

theorem fits {a : Fin (NDIRECT + 1) → Nat} {type : Nat} (htype : type = T_DIR ∨ type = T_FILE) (hn : n < 2 ^ 32)
    (ha : ∀ k, a k < 2 ^ 32) : DinodeFits { type := type, nlink := 1, size := n, addrs := a } := by
  refine ⟨?_, show 0 < 2 ^ 16 by decide, show 0 < 2 ^ 16 by decide,
    show -2 ^ 15 ≤ (1 : Int) ∧ (1 : Int) < 2 ^ 15 by decide, hn, ha⟩
  obtain rfl | rfl := htype <;> dsimp only <;> decide

theorem fits_of_tidy {a : Fin (NDIRECT + 1) → Nat}
    (hd : d = { type := f.type, nlink := 1, size := len, addrs := a })
    (hf : f.type = T_DIR ∨ f.type = T_FILE) (ht : (load m i d).Tidy mkfsSb) (hi : (load m i d).Live i)
    (hn : n ≤ MAXFILE * BSIZE) : DinodeFits { d with size := n } := by
  have haddrs : ∀ k, d.addrs k < 2 ^ 32 := by
    intro k
    by_cases h0 : d.addrs k = 0
    · rw [h0]
      decide
    · rw [← ref_addrSlot m i d k] at h0 ⊢
      exact (marked_load ht hi h0).2.2.trans (by decide)
  subst hd
  exact fits hf (hn.trans_lt (by decide)) haddrs

theorem splice_length {β : Type} (l src : List β) : BlockArray.splice l l.length src = l ++ src := by
  simp [BlockArray.splice]

theorem sum_map_set {α : Type} (g : α → Nat) {l : List α} {k : Nat} {a : α} (h : l[k]? = some a)
    (b : α) : ((l.set k b).map g).sum + g a = (l.map g).sum + g b := by
  induction l generalizing k with
  | nil => cases h
  | cons x l ih =>
    cases k with
    | zero =>
      obtain rfl : x = a := by simpa using h
      simp only [List.set_cons_zero, List.map_cons, List.sum_cons]
      omega
    | succ k =>
      have := ih (k := k) (by simpa using h)
      simp only [List.set_cons_succ, List.map_cons, List.sum_cons]
      omega

theorem nodes_set (h : files[k]? = some f) (g : File) :
    nodes (files.set k g) = update (nodes files) (k + 1) g.node := by
  funext i
  cases i with
  | zero => rfl
  | succ i =>
    rw [update_apply]
    show ((files.set k g)[i]?).elim {} File.node = _
    rw [List.getElem?_set]
    have hlt : k < files.length := (List.getElem?_eq_some_iff.mp h).1
    by_cases hik : k = i
    · rw [if_pos hik, if_pos hlt, if_pos (by omega)]
      rfl
    · rw [if_neg hik, if_neg (by omega)]
      rfl

theorem load_setDinode (hi : i < inodeRoom) (hd : DinodeFits { d with size := n }) :
    load (m.setDinode i { d with size := n }) i { d with size := n } = (load m i d).setSize i n := by
  unfold Disk.setSize Disk.setInode
  rw [icache_load]
  unfold load Disk.updInode
  rw [disk_setDinode m hi hd]
  dsimp only
  rw [update_idem]

theorem disk_of_load (m : Image) (i : Nat) (d : Dinode) : (load m i d).updInode i (fun _ => {}) = disk m := by
  unfold load Disk.updInode
  dsimp only
  rw [update_idem]
  congr 1
  exact update_eq_self _ _

theorem addrs_setDinode (hi : i < inodeRoom) (hd : DinodeFits { d with size := n }) (j : Nat) :
    ((disk (m.setDinode i { d with size := n })).inode j).addrs = ((load m i d).inode j).addrs := by
  rw [inode_disk, disk_setDinode m hi hd]
  by_cases hj : j = i
  · rw [hj, inode_load]
    dsimp only
    rw [update_self]
  · rw [inode_load_of_ne hj]
    dsimp only
    rw [update_of_ne hj]

theorem Built.load (h : Built m files) (hk : files[k]? = some f) :
    (load m (k + 1) ((disk m).dinode (k + 1))).Consistent mkfsSb ∧
    (load m (k + 1) ((disk m).dinode (k + 1))).node = (disk m).node ∧
    (load m (k + 1) ((disk m).dinode (k + 1))).Live (k + 1) := by
  obtain ⟨hcons, hnode⟩ := h.consistent.updInode (i := k + 1)
    (f := fun _ => { valid := true, copy := (disk m).dinode (k + 1) })
    fun _ => ⟨rfl, by rw [← inode_disk]; exact h.live hk⟩
  refine ⟨hcons, hnode, ?_⟩
  unfold Disk.Live
  rw [inode_load_disk]
  exact h.live hk

variable {p : Bytes} {m' : Image} {d' : Dinode} {off : Nat}

theorem Appended.close
    (h : Appended m i off p.length
      (BlockArray.write BSIZE 0 p.length off p ((load m i d).view i)) d m' d')
    (hcons : (load m i d).Consistent mkfsSb) (hp : 0 < p.length) (hsize : d.size = off)
    (hi : i < inodeRoom) (hfits : DinodeFits { d' with size := off + p.length }) :
    (disk (m'.setDinode i { d' with size := off + p.length })).Consistent mkfsSb ∧
    (disk (m'.setDinode i { d' with size := off + p.length })).node =
      update (load m i d).node i { (load m i d).node i with
        content := BlockArray.splice ((load m i d).node i).content off p } := by
  have hv : ((load m i d).icache i).valid = true := by rw [icache_load]
  have hinode : ((load m i d).inode i).size = off := by rw [inode_load, hsize]
  obtain ⟨hcons', hinodes⟩ := h.written.consistent hcons hv (by rw [hinode])
    (s := (load m' i d').setSize i (off + p.length)) (by rw [hinode, if_pos ⟨hp, by omega⟩])
  rw [← load_setDinode hi hfits] at hcons' hinodes
  obtain ⟨hcons'', hnode⟩ := hcons'.updInode (i := i) (f := fun _ => {}) nofun
  rw [disk_of_load] at hcons'' hnode
  exact ⟨hcons'', hnode.trans (congrArg Inodes.node hinodes)⟩

theorem Appended.exact_of_ne {v : BlockArray.Sparse Byte}
    (h : Appended m i off len v d m' d') (hj : j ≠ i) (hlive : (load m i d).Live j)
    (hexact : Exact (load m i d) j n) : Exact (load m' i d') j n := by
  refine hexact.congr ?_ (by rw [h.written.steps.same.inode_of_ne hj])
  rw [h.written.view j hlive, if_neg hj]

theorem iappend_spec (h : Built m files) (hk : files[k]? = some f)
    (hroom : files.length < inodeRoom) (hp : 0 < p.length)
    (hend : f.bytes.length + p.length ≤ MAXFILE * BSIZE)
    (hfit : m.freeblock + blocksFor (f.bytes.length + p.length) ≤ FSSIZE + blocksFor f.bytes.length) :
    ∃ m', iappend (k + 1) p m = .ok () m' ∧ Built m' (files.set k ⟨f.type, f.bytes ++ p⟩) ∧
      m'.freeblock + blocksFor f.bytes.length = m.freeblock + blocksFor (f.bytes.length + p.length) := by
  have hlt : k < files.length := (List.getElem?_eq_some_iff.mp hk).1
  have hi : k + 1 < inodeRoom := by omega
  have hf := h.types f (List.mem_of_getElem? hk)
  obtain ⟨a, hd, -⟩ := h.dinode hk
  have hsize : ((disk m).dinode (k + 1)).size = f.bytes.length := by rw [hd]
  obtain ⟨hcons, hnode, hlive⟩ := h.load hk
  have hexact : ∀ j n, Exact (disk m) j n → Exact (load m (k + 1) ((disk m).dinode (k + 1))) j n :=
    fun j n hex => hex.of_addrs (by rw [inode_load_disk]) rfl
  obtain ⟨d', m', hrun, happ⟩ := appendLoop_spec (p := p) h.ready hcons.sound.tidy hlive
    (hexact _ _ (h.exact k f hk)) (Nat.le_refl _) hend hfit
  have hsame := happ.written.steps.same
  have hd' : ∃ a', d' = { type := f.type, nlink := 1, size := f.bytes.length, addrs := a' } := by
    obtain ⟨a', ha'⟩ := hsame.inode
    rw [inode_load, inode_load, hd] at ha'
    exact ⟨a', ha'⟩
  obtain ⟨a', hd'⟩ := hd'
  have hfits : DinodeFits { d' with size := f.bytes.length + p.length } :=
    fits_of_tidy hd' hf (happ.written.steps.tidy hcons.sound.tidy hlive)
      ((hsame.live (k + 1)).mpr hlive) hend
  obtain ⟨hcons', hnode'⟩ := happ.close hcons hp hsize hi hfits
  refine ⟨_, ?_, ⟨ready_setDinode happ.ready hi _, ?_, ?_, ?_, hcons', ?_, fun j g hj => ?_⟩, happ.count⟩
  · unfold iappend
    rw [bind_ok (rinode_run h.ready.size hi), hsize, bind_ok hrun]
    exact winode_run happ.ready.size hi _
  · rw [List.length_set, ← h.freeinode]
    exact happ.freeinode
  · have hsum := sum_map_set (fun f : File => blocksFor f.bytes.length) hk ⟨f.type, f.bytes ++ p⟩
    have hcount := happ.count
    have hcount' := h.count
    rw [List.length_append] at hsum
    show m'.freeblock = _
    omega
  · intro g hg
    obtain hg | rfl := List.mem_or_eq_of_mem_set hg
    · exact h.types g hg
    · exact hf
  · rw [hnode', hnode, h.node_eq hk, h.node, nodes_set hk]
    congr 1
    show ({ f.node with content := BlockArray.splice f.bytes f.bytes.length p } : Node) = _
    rw [splice_length]
    rfl
  · have hblocks : (disk (m'.setDinode (k + 1) { d' with size := f.bytes.length + p.length })).blocks =
        (load m' (k + 1) d').blocks := by
      rw [disk_setDinode m' hi hfits]
      rfl
    refine Exact.of_addrs ?_ (addrs_setDinode hi hfits (j + 1)) hblocks
    rw [List.getElem?_set] at hj
    by_cases hjk : k = j
    · rw [if_pos hjk, if_pos hlt] at hj
      obtain rfl := Option.some.inj hj
      rw [List.length_append, ← hjk]
      exact happ.exact
    · rw [if_neg hjk] at hj
      refine happ.exact_of_ne (by omega) ?_ (hexact _ _ (h.exact j g hj))
      unfold Disk.Live
      rw [inode_load_disk]
      exact h.live hj

theorem pieces_spec {pieces : List Bytes} (hpos : ∀ p ∈ pieces, 0 < p.length) (h : Built m files)
    (hk : files[k]? = some f) (hroom : files.length < inodeRoom)
    (hend : f.bytes.length + pieces.flatten.length ≤ MAXFILE * BSIZE)
    (hfit : m.freeblock + blocksFor (f.bytes.length + pieces.flatten.length) ≤
      FSSIZE + blocksFor f.bytes.length) :
    ∃ m', pieces.forM (iappend (k + 1)) m = .ok () m' ∧
      Built m' (files.set k ⟨f.type, f.bytes ++ pieces.flatten⟩) := by
  induction pieces generalizing m files f with
  | nil =>
    refine ⟨m, rfl, ?_⟩
    rw [List.flatten_nil, List.append_nil]
    have hset : files.set k f = files := by
      obtain ⟨hlt, rfl⟩ := List.getElem?_eq_some_iff.mp hk
      exact List.set_getElem_self hlt
    exact hset.symm ▸ h
  | cons p pieces ih =>
    rw [List.flatten_cons, List.length_append] at hend hfit
    obtain ⟨hp, hpieces⟩ := List.forall_mem_cons.mp hpos
    have hmono : blocksFor (f.bytes.length + p.length) ≤
        blocksFor (f.bytes.length + (p.length + pieces.flatten.length)) := blocksFor_mono (by omega)
    obtain ⟨m₁, hrun, hbuilt, hcount⟩ := iappend_spec h hk hroom hp (by omega) (by omega)
    have hlt : k < files.length := (List.getElem?_eq_some_iff.mp hk).1
    have hk₁ : (files.set k ⟨f.type, f.bytes ++ p⟩)[k]? = some ⟨f.type, f.bytes ++ p⟩ := by
      rw [List.getElem?_set_self hlt]
    have hlen : (f.bytes ++ p).length + pieces.flatten.length =
        f.bytes.length + (p.length + pieces.flatten.length) := by
      rw [List.length_append, Nat.add_assoc]
    obtain ⟨m', hrun', hbuilt'⟩ := ih hpieces hbuilt hk₁ (by rwa [List.length_set])
      (by dsimp only; rw [hlen]; exact hend)
      (by dsimp only; rw [hlen, List.length_append]; omega)
    refine ⟨m', ?_, ?_⟩
    · exact (bind_ok hrun).trans hrun'
    · rwa [List.set_set, List.append_assoc] at hbuilt'

/-! ## A new file -/

theorem Built.type_eq_zero (h : Built m files) (hi : nodes files i = {}) : ((disk m).dinode i).type = 0 := by
  have hnode := congrFun h.node i
  rw [hi] at hnode
  unfold Disk.node at hnode
  rw [inode_disk] at hnode
  by_contra h0
  rw [if_neg h0] at hnode
  exact h0 (congrArg Node.type hnode)

theorem nodes_of_lt (hi : files.length < i) : nodes files i = {} := by
  cases i with
  | zero => rfl
  | succ i =>
    show (files[i]?).elim {} File.node = {}
    rw [List.getElem?_eq_none (Nat.le_of_lt_succ hi)]
    rfl

theorem Built.live_iff (h : Built m files) : (disk m).Live i ↔ 0 < i ∧ i ≤ files.length := by
  refine ⟨fun hi => ?_, fun hi => ?_⟩
  · by_contra hrange
    refine hi (h.type_eq_zero ?_)
    by_cases h0 : i = 0
    · rw [h0]
      rfl
    · exact nodes_of_lt (by omega)
  · obtain ⟨k, rfl⟩ := Nat.exists_eq_succ_of_ne_zero hi.1.ne'
    exact h.live (List.getElem?_eq_getElem (by omega))

theorem nodes_concat (files : List File) (g : File) :
    nodes (files ++ [g]) = update (nodes files) (files.length + 1) g.node := by
  funext i
  cases i with
  | zero => rfl
  | succ i =>
    rw [update_apply]
    show ((files ++ [g])[i]?).elim {} File.node = _
    by_cases hi : i = files.length
    · rw [if_pos (by omega), hi, List.getElem?_concat_length]
      rfl
    · rw [if_neg (by omega)]
      by_cases hlt : i < files.length
      · rw [List.getElem?_append_left hlt]
        rfl
      · rw [nodes_of_lt (by omega)]
        have hlen : (files ++ [g]).length < i + 1 := by
          rw [List.length_append, List.length_singleton]
          omega
        exact nodes_of_lt hlen

variable {type : Nat}

theorem consistent_newFile (hs : s.Consistent mkfsSb) (hcache : ∀ j, s.icache j = {})
    (hfree : (s.dinode i).type = 0) (htype : type ≠ 0)
    (ht : t = { s with dinode := update s.dinode i { type := type, nlink := 1 } }) :
    t.Consistent mkfsSb ∧ t.node = update s.node i (File.node ⟨type, []⟩) := by
  have hold : ∀ j, s.inode j = s.dinode j := by
    intro j
    unfold Disk.inode
    rw [hcache]
    rfl
  have hnew : ∀ j, t.inode j = if j = i then { type := type, nlink := 1 } else s.inode j := by
    intro j
    rw [hold]
    unfold Disk.inode
    rw [ht]
    dsimp only
    rw [hcache, update_apply]
    rfl
  have hblocks : t.blocks = s.blocks := by rw [ht]
  have hinvalid : ∀ j, (t.icache j).valid = true → False := by
    intro j hv
    rw [ht] at hv
    dsimp only at hv
    rw [hcache] at hv
    cases hv
  have hne : ∀ j, s.Live j → j ≠ i := by
    rintro j hj rfl
    unfold Disk.Live at hj
    rw [hold] at hj
    exact hj hfree
  refine ⟨hs.congr (by rw [ht]) (fun j hj => ?_) (fun j hj => ?_) (fun j hv => (hinvalid j hv).elim)
    fun j hv => (hinvalid j hv).elim, funext fun j => ?_⟩
  · have hinode : t.inode j = s.inode j := by rw [hnew, if_neg (hne j hj)]
    refine ⟨?_, .of_inode hinode hblocks⟩
    unfold Disk.Live
    rw [hinode]
    exact hj
  · by_cases hji : j = i
    · refine .inr ?_
      rw [hnew, if_pos hji]
      exact ⟨rfl, rfl⟩
    · refine .inl ?_
      unfold Disk.Live at hj
      rwa [hnew, if_neg hji] at hj
  · rw [update_apply]
    split
    · next hji =>
      unfold Disk.node Disk.content
      rw [hnew, if_pos hji, if_neg htype]
      rfl
    · next hji => exact node_of_inode (by rw [hnew, if_neg hji]) hblocks

theorem exact_zero (h : (s.inode i).addrs = fun _ => 0) : Exact s i 0 where
  blocks bn _ := by simp [ref_of_addrs h]
  indirect := by simp [ref_of_addrs h]

theorem ialloc_spec (h : Built m files) (hroom : files.length + 1 < inodeRoom)
    (htype : type = T_DIR ∨ type = T_FILE) :
    ∃ m', ialloc type m = .ok (files.length + 1) m' ∧ Built m' (files ++ [⟨type, []⟩]) ∧
      m'.freeblock = m.freeblock := by
  have hready : Ready { m with freeinode := m.freeinode + 1 } :=
    ⟨h.ready.size, h.ready.meta_le, h.ready.zeros, h.ready.super⟩
  have hfits : DinodeFits { type := type, nlink := 1 } := fits htype (by decide) fun _ => by decide
  have hdisk := disk_setDinode { m with freeinode := m.freeinode + 1 } hroom hfits
  have hne : type ≠ 0 := by
    obtain rfl | rfl := htype <;> decide
  obtain ⟨hcons, hnode⟩ := consistent_newFile h.consistent (fun _ => rfl)
    (h.type_eq_zero (nodes_of_lt (Nat.lt_succ_self _))) hne hdisk
  refine ⟨_, ?_, ⟨ready_setDinode hready hroom _, ?_, ?_, ?_, hcons, ?_, fun k g hk => ?_⟩, rfl⟩
  · show (winode m.freeinode { type := type, nlink := 1 } >>= fun _ => pure m.freeinode)
      { m with freeinode := m.freeinode + 1 } = _
    rw [bind_ok (winode_run hready.size (h.freeinode ▸ hroom) _), h.freeinode]
    rfl
  · show m.freeinode + 1 = _
    rw [h.freeinode, List.length_append]
    rfl
  · show m.freeblock = _
    have hzero : blocksFor 0 = 0 := rfl
    rw [h.count, List.map_append, List.sum_append]
    simp [hzero]
  · intro g hg
    obtain hg | hg := List.mem_append.mp hg
    · exact h.types g hg
    · rw [List.mem_singleton.mp hg]
      exact htype
  · rw [hnode, h.node, nodes_concat]
  · have haddrs : ∀ j, j ≠ files.length + 1 → ((disk (Image.setDinode
        { m with freeinode := m.freeinode + 1 } (files.length + 1) { type := type, nlink := 1 })).inode
          j).addrs = ((disk m).inode j).addrs := by
      intro j hj
      rw [inode_disk, hdisk]
      dsimp only
      rw [update_of_ne hj]
      rfl
    by_cases hlt : k < files.length
    · rw [List.getElem?_append_left hlt] at hk
      refine (h.exact k g hk).of_addrs (haddrs _ (by omega)) ?_
      rw [hdisk]
      rfl
    · obtain rfl : k = files.length := by
        have := (List.getElem?_eq_some_iff.mp hk).1
        rw [List.length_append] at this
        simp only [List.length_cons, List.length_nil] at this
        omega
      rw [List.getElem?_concat_length] at hk
      obtain rfl := Option.some.inj hk
      refine exact_zero ?_
      rw [inode_disk, hdisk]
      dsimp only
      rw [update_self]

end Xv6.Mkfs
