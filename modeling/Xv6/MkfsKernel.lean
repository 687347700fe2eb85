import Xv6.MkfsImage

/-!
# What the kernel finds on a new disk

On the disk that `mkfs` made the kernel sees the files under their names, with their bytes. A name is found
where it is first: `"."` and `".."` are at the start of the root directory already, so files of these names
are in the image and cannot be found.
-/

namespace Xv6.Mkfs

open Store Hoare
open Calls (mkfsSb Name Dirent DIRENT ROOTINO dot dotdot)
open Calls (dirlookup DIRENT_eq)
open Prog (run_ite run_bind run_op)

/-- Look for a name in the root directory. -/
def lookupRoot (name : Name) : FsProg (Option (Nat × Nat)) := do
  Calls.iget ROOTINO
  Calls.ilock ROOTINO
  dirlookup ROOTINO name

/-- Read from an inode. -/
def readInode (i off n : Nat) : FsProg (Option Bytes) := do
  Calls.ilock i
  Calls.readi i off n

/-! ## Looking through a directory -/

section Scan
variable {t : Disk} {i : Nat}

/-- Entry `n` of a directory on the disk. -/
def entryAt (t : Disk) (i n : Nat) : Dirent := .ofBytes (((t.content i).drop (DIRENT * n)).take DIRENT)

/-- The loop over the entries stops at the first one with `p`. Only the blocks up to there are read. -/
theorem scan_run (msg : String) {p : Dirent → Bool} {q : Nat} (hv : (t.icache i).valid = true)
    (hdev : (t.inode i).type ≠ T_DEV) (hsize : DIRENT * (q + 1) ≤ (t.inode i).size)
    (hlt : (t.inode i).size < 2 ^ 31)
    (hall : ∀ x < DIRENT * (q + 1), (t.view i (x / BSIZE)).isSome) (hq : p (entryAt t i q) = true)
    {n : Nat} (hskip : ∀ j, n ≤ j → j < q → p (entryAt t i j) = false) (hn : n ≤ q) (fuel : Nat)
    (hfuel : q < n + fuel) :
    Prog.run (diskOps mkfsSb) (Calls.scan i msg p (t.inode i).size fuel (DIRENT * n)) t =
      .ok (some (DIRENT * q, entryAt t i q)) t := by
  induction fuel generalizing n with
  | zero => omega
  | succ fuel ih =>
    rw [DIRENT_eq] at hsize hall
    have hoff : DIRENT * n < (t.inode i).size := by
      rw [DIRENT_eq]
      omega
    have hread : diskOps mkfsSb (.readi i (DIRENT * n) DIRENT) t =
        .ok (some (((t.content i).drop (DIRENT * n)).take DIRENT)) t := by
      rw [DIRENT_eq] at *
      refine readi_present hv hdev (by omega) (fun x _ hx _ => hall x (by omega)) (by decide) ?_
      unfold ReadRefused
      omega
    have hlen : (((t.content i).drop (DIRENT * n)).take DIRENT).length = DIRENT := by
      rw [List.length_take, List.length_drop, length_content, DIRENT_eq]
      omega
    unfold Calls.scan
    rw [run_ite, if_pos hoff, run_bind]
    unfold Calls.readi
    rw [run_op, bind_ok hread]
    dsimp only
    rw [run_ite, if_neg (not_not.mpr hlen), run_ite, ← Nat.mul_succ]
    change (if p (entryAt t i n) = true then _ else _ : DiskM _) t = _
    by_cases hnq : n = q
    · subst hnq
      rw [if_pos hq]
      rfl
    · have hmiss := hskip n (Nat.le_refl _) (by omega)
      rw [if_neg (by rw [hmiss]; decide)]
      exact ih (fun j hj => hskip j (by omega)) (by omega) (by omega)

end Scan

section Fresh
variable {s : Disk} {i : Nat}

theorem iget_fresh (h0 : (s.icache i).ref = 0) (hroom : s.cached mkfsSb < Store.NINODE) :
    Store.iget mkfsSb i s = .ok () (s.updInode i fun _ => { s.icache i with ref := 1, valid := false }) := by
  unfold Store.iget
  rw [bind_ok (get_run s), if_neg (by rw [h0]; decide), if_neg (by omega)]
  rfl

theorem ilock_fresh (hi : s.icache i = { ref := 1 }) (htype : (s.dinode i).type ≠ 0) :
    Store.ilock i s =
      .ok () (s.updInode i fun ip => { ip with locked := true, valid := true, copy := s.dinode i }) := by
  unfold Store.ilock
  rw [bind_ok (get_run s), hi]
  show (if (s.dinode i).type = 0 then Store.panic "ilock: no type" else pure () : DiskM Unit) _ = _
  rw [if_neg htype]
  rfl

end Fresh

/-! ## The root directory -/

section Root
variable {s : Disk} {name : Name} {de : Dirent} {q : Nat}

/-- The root directory is in memory and locked. -/
def opened (s : Disk) : Disk :=
  s.updInode ROOTINO fun _ => { ref := 1, locked := true, valid := true, copy := s.dinode ROOTINO }

theorem icache_opened (s : Disk) (j : Nat) : (opened s).icache j =
    if j = ROOTINO then { ref := 1, locked := true, valid := true, copy := s.dinode ROOTINO }
    else s.icache j := Function.update_apply _ _ _ _

section
variable (hcache : ∀ j, s.icache j = {})
include hcache

theorem inode_opened (j : Nat) : (opened s).inode j = s.dinode j := by
  unfold Disk.inode
  rw [icache_opened, hcache]
  split
  · next hj => rw [hj]; rfl
  · rfl

theorem view_opened (j : Nat) : (opened s).view j = s.view j := by
  have hinode : (opened s).inode j = s.inode j := by
    rw [inode_opened hcache]
    unfold Disk.inode
    rw [hcache]
    rfl
  exact (SameContent.of_inode hinode rfl).view

theorem opened_run (htype : (s.dinode ROOTINO).type ≠ 0) :
    Prog.run (diskOps mkfsSb) (do Calls.iget ROOTINO; Calls.ilock ROOTINO) s = .ok () (opened s) := by
  have hcached : s.cached mkfsSb < Store.NINODE := by
    unfold Disk.cached
    simp only [hcache]
    decide
  have hget := iget_fresh (i := ROOTINO) (by rw [hcache]) hcached
  rw [hcache] at hget
  have hlock := ilock_fresh (s := s.updInode ROOTINO fun _ => { ref := 1 }) (i := ROOTINO)
    (by rw [icache_updInode, Function.update_self]) htype
  have hopened : (s.updInode ROOTINO fun _ => { ref := 1 }).updInode ROOTINO (fun ip =>
      { ip with locked := true, valid := true, copy := s.dinode ROOTINO }) = opened s := by
    unfold opened Disk.updInode
    dsimp only
    rw [Function.update_self, Function.update_idem]
  rw [run_bind]
  unfold Calls.iget Calls.ilock
  rw [run_op, run_op]
  exact (bind_ok hget).trans (hlock.trans (by rw [← hopened]; rfl))

theorem lookupRoot_run (htype : (s.dinode ROOTINO).type = T_DIR)
    (hsize : DIRENT * (q + 1) ≤ (s.dinode ROOTINO).size) (hlt : (s.dinode ROOTINO).size < 2 ^ 31)
    (hall : ∀ x < DIRENT * (q + 1), (s.view ROOTINO (x / BSIZE)).isSome)
    (hq : (entryAt (opened s) ROOTINO q).inum ≠ 0 ∧ (entryAt (opened s) ROOTINO q).name = name)
    (hskip : ∀ j < q, (entryAt (opened s) ROOTINO j).name ≠ name) :
    Prog.run (diskOps mkfsSb) (lookupRoot name) s =
      (do
        Store.iget mkfsSb (entryAt (opened s) ROOTINO q).inum
        pure (some ((entryAt (opened s) ROOTINO q).inum, DIRENT * q))) (opened s) := by
  have hroot := icache_opened s ROOTINO
  rw [if_pos rfl] at hroot
  have hinode := inode_opened hcache ROOTINO
  have hne : (s.dinode ROOTINO).type ≠ 0 := by
    rw [htype]
    decide
  have hscan := scan_run (t := opened s) (i := ROOTINO) "dirlookup read"
    (p := fun de => de.inum ≠ 0 ∧ de.name = name) (q := q) (n := 0) (by rw [hroot])
    (by rw [hinode, htype]; decide) (by rwa [hinode]) (by rwa [hinode])
    (fun x hx => by rw [view_opened hcache]; exact hall x hx) (decide_eq_true hq)
    (fun j _ hj => decide_eq_false fun h => hskip j hj h.2) (Nat.zero_le q)
    (s.dinode ROOTINO).size (by rw [DIRENT_eq] at hsize; omega)
  rw [hinode] at hscan
  change Prog.run _ (Calls.scan ROOTINO _ _ (s.dinode ROOTINO).fields.size (s.dinode ROOTINO).fields.size 0)
    _ = _ at hscan
  have hfields : diskOps mkfsSb (.fields ROOTINO) (opened s) = .ok (s.dinode ROOTINO).fields (opened s) := by
    show EStateM.Result.ok ((opened s).icache ROOTINO).copy.fields (opened s) = _
    rw [hroot]
  have hassoc : lookupRoot name = ((do Calls.iget ROOTINO; Calls.ilock ROOTINO) >>= fun _ =>
      dirlookup ROOTINO name) := rfl
  rw [hassoc, run_bind, bind_ok (opened_run hcache hne)]
  unfold dirlookup Calls.fields
  rw [run_bind, run_op, bind_ok hfields, run_ite,
    if_neg (not_not.mpr (show (s.dinode ROOTINO).fields.type = T_DIR from htype)), run_bind,
    bind_ok hscan]
  dsimp only
  rw [run_bind]
  unfold Calls.iget
  rw [run_op]
  rfl

end

end Root

/-! ## The disk of `mkfs` -/

variable {m : Image} {files : List Input} {f : Input} {q k : Nat} {de : Dirent}

theorem take_toList {β : Type} {B : Nat} {zero : β} (v : BlockArray.Sparse β) {n n' : Nat} (h : n ≤ n') :
    (BlockArray.toList B zero v n').take n = BlockArray.toList B zero v n := by
  unfold BlockArray.toList
  rw [← List.map_take, List.take_range, Nat.min_eq_left h]

theorem drop_flatMap_toBytes {l : List Dirent} (hq : l[q]? = some de) :
    ((l.flatMap Dirent.toBytes).drop (DIRENT * q)).take DIRENT = de.toBytes := by
  induction l generalizing q with
  | nil => cases hq
  | cons e l ih =>
    rw [List.flatMap_cons]
    have hlen := Calls.length_toBytes e
    cases q with
    | zero =>
      obtain rfl : e = de := by simpa using hq
      rw [Nat.mul_zero, List.drop_zero, List.take_left' hlen]
    | succ q =>
      rw [Nat.mul_succ, Nat.add_comm, ← List.drop_drop, List.drop_left' hlen]
      exact ih (by simpa using hq)

theorem entries_inum {files : List Input} (hcount : files.length ≤ NINODES) (hde : de ∈ entries files) :
    de.inum ≠ 0 ∧ de.inum < 2 ^ 16 := by
  unfold entries Calls.mkfsEntries at hde
  simp only [List.mem_cons, List.mem_mapIdx] at hde
  obtain rfl | rfl | ⟨i, hi, rfl⟩ := hde
  · decide
  · decide
  · rw [List.length_map] at hi
    change files.length ≤ 200 at hcount
    dsimp only
    omega

theorem lt_of_entries (hq : (entries files)[q]? = some de) : q < files.length + 2 := by
  have := (List.getElem?_eq_some_iff.mp hq).1
  rwa [length_entries] at this

section
variable (h : Built m (built files)) (hcount : files.length ≤ NINODES)
include h hcount

theorem entryAt_mount (hq : (entries files)[q]? = some de) :
    entryAt (opened (mount m.finish.sectors)) ROOTINO q = de := by
  obtain ⟨-, -, hcontent⟩ := h.dinode (k := 0) rfl
  change (disk m).content ROOTINO = (entries files).flatMap Dirent.toBytes at hcontent
  obtain ⟨a, ha⟩ := h.root
  have hlive : (disk m).Live ROOTINO := h.live (k := 0) rfl
  have hqlt := lt_of_entries hq
  have hsize : ((opened (mount m.finish.sectors)).inode ROOTINO).size = roundUp (DIRENT * (files.length + 2)) := by
    rw [inode_opened fun _ => rfl, dinode_mount h hcount, if_pos rfl]
    show roundUp ((disk m).dinode ROOTINO).size = _
    rw [ha]
  have hle : DIRENT * (files.length + 2) ≤ roundUp (DIRENT * (files.length + 2)) := by
    rw [DIRENT_eq]
    show _ ≤ (16 * (files.length + 2) / 512 + 1) * 512
    omega
  -- the bytes before the old end
  have hbytes : ((opened (mount m.finish.sectors)).content ROOTINO).take (DIRENT * (files.length + 2)) =
      (entries files).flatMap Dirent.toBytes := by
    have hold : BlockArray.toList BSIZE 0 ((disk m).view ROOTINO) (DIRENT * (files.length + 2)) =
        (entries files).flatMap Dirent.toBytes := by
      rw [← hcontent]
      unfold Disk.content
      rw [inode_disk, ha]
    unfold Disk.content
    rw [hsize, view_opened fun _ => rfl, view_mount h hcount hlive, take_toList _ hle, hold]
  have hentry : (((opened (mount m.finish.sectors)).content ROOTINO).drop (DIRENT * q)).take DIRENT =
      de.toBytes := by
    rw [← drop_flatMap_toBytes hq, ← hbytes, List.drop_take, List.take_take, Nat.min_eq_left]
    rw [DIRENT_eq]
    omega
  unfold entryAt
  rw [hentry, Calls.ofBytes_toBytes (entries_inum hcount (List.mem_of_getElem? hq)).2]

theorem lookup_mount (name : Name) (hq : (entries files)[q]? = some de) (hname : de.name = name)
    (hfirst : ∀ j < q, ∀ e, (entries files)[j]? = some e → e.name ≠ name) :
    Prog.run (diskOps mkfsSb) (lookupRoot name) (mount m.finish.sectors) =
      (do
        Store.iget mkfsSb de.inum
        pure (some (de.inum, DIRENT * q))) (opened (mount m.finish.sectors)) := by
  obtain ⟨a, ha⟩ := h.root
  have hlive : (disk m).Live ROOTINO := h.live (k := 0) rfl
  have hqlt := lt_of_entries hq
  have hroot : (mount m.finish.sectors).dinode ROOTINO = rootDinode m := by
    rw [dinode_mount h hcount, if_pos rfl]
  have hsize : (rootDinode m).size = (16 * (files.length + 2) / 512 + 1) * 512 := by
    show roundUp ((disk m).dinode ROOTINO).size = _
    rw [ha]
    rfl
  have hentry := entryAt_mount h hcount hq
  change files.length ≤ 200 at hcount
  have hrun := lookupRoot_run (s := mount m.finish.sectors) (q := q) (fun _ => rfl)
    (by rw [hroot]; show ((disk m).dinode ROOTINO).type = T_DIR; rw [ha])
    (by rw [hroot, hsize, DIRENT_eq]; omega) (by rw [hroot, hsize]; omega)
    (fun x hx => by
      rw [view_mount h hcount hlive]
      refine h.consistent.sound.full hlive ?_
      rw [inode_disk, ha]
      rw [DIRENT_eq] at hx
      show x < 16 * (files.length + 2)
      omega)
    (by rw [hentry]; exact ⟨(entries_inum hcount (List.mem_of_getElem? hq)).1, hname⟩)
    (fun j hj => by
      obtain ⟨e, he⟩ : ∃ e, (entries files)[j]? = some e :=
        ⟨_, List.getElem?_eq_getElem (by rw [length_entries]; omega)⟩
      rw [entryAt_mount h hcount he]
      exact hfirst j hj e he)
  rwa [hentry] at hrun

theorem readInode_run {t : Disk} {off n : Nat} (hk : files[k]? = some f) (hcache : t.icache (k + 2) = { ref := 1 })
    (hdinode : t.dinode = (mount m.finish.sectors).dinode)
    (hblocks : t.blocks = (mount m.finish.sectors).blocks) (hoff : off ≤ f.bytes.length)
    (hn : off + n < 2 ^ 32) :
    ∃ t', Prog.run (diskOps mkfsSb) (readInode (k + 2) off n) t =
      .ok (some ((f.bytes.drop off).take n)) t' := by
  have hk' : (built files)[k + 1]? = some f.file := by
    show (files.map Input.file)[k]? = _
    rw [List.getElem?_map, hk]
    rfl
  obtain ⟨a, ha, hcontent⟩ := h.dinode hk'
  have hlive : (disk m).Live (k + 2) := h.live hk'
  change (disk m).dinode (k + 2) = _ at ha
  have hd : t.dinode (k + 2) = (disk m).dinode (k + 2) := by
    rw [hdinode, dinode_mount h hcount, if_neg (show k + 2 ≠ ROOTINO from fun h => by cases h)]
  have hlock := ilock_fresh hcache (by rw [hd]; exact hlive)
  generalize hu : t.updInode (k + 2)
    (fun ip => { ip with locked := true, valid := true, copy := t.dinode (k + 2) }) = u at hlock
  have hcached : u.icache (k + 2) = { ref := 1, locked := true, valid := true, copy := t.dinode (k + 2) } := by
    rw [← hu, icache_updInode, Function.update_self, hcache]
  have hinode : u.inode (k + 2) = (mount m.finish.sectors).inode (k + 2) := by
    unfold Disk.inode
    rw [hcached, hdinode]
    rfl
  have hsame : SameContent (k + 2) (mount m.finish.sectors) u :=
    .of_inode hinode (by rw [← hu]; exact hblocks)
  have hdisk : u.inode (k + 2) = (disk m).dinode (k + 2) := by
    unfold Disk.inode
    rw [hcached]
    exact hd
  have hbytes : u.content (k + 2) = f.bytes := by
    unfold Disk.content
    rw [hsame.view, view_mount h hcount hlive, hdisk]
    exact hcontent
  have hread : Store.readi mkfsSb (k + 2) off n u = .ok (some (((u.content (k + 2)).drop off).take n)) u := by
    refine readi_present (by rw [hcached]) ?_ (by omega) (fun x _ _ hx => ?_) (by omega) ?_
    · rw [hdisk, ha]
      show T_FILE ≠ T_DEV
      decide
    · rw [hsame.view, view_mount h hcount hlive]
      rw [hdisk] at hx
      exact h.consistent.sound.full hlive hx
    · rw [hdisk, ha]
      unfold ReadRefused
      show ¬ (f.bytes.length < off ∨ 2 ^ 32 ≤ off + n)
      omega
  refine ⟨u, ?_⟩
  unfold readInode
  rw [run_bind]
  unfold Calls.ilock Calls.readi
  rw [run_op, run_op, ← hbytes]
  exact (bind_ok hlock).trans hread

end

theorem cached_opened (sectors : Nat → Block) : (opened (mount sectors)).cached mkfsSb < Store.NINODE := by
  have hrefs : ∀ j, 0 < ((opened (mount sectors)).icache j).ref ↔ j = ROOTINO := by
    intro j
    rw [icache_opened]
    split
    · next hj => exact iff_of_true (Nat.lt_succ_self 0) hj
    · next hj => exact iff_of_false (Nat.lt_irrefl 0) hj
  unfold Disk.cached
  simp only [hrefs]
  decide

theorem getElem?_entries (hk : files[k]? = some f) : (entries files)[k + 2]? = some ⟨k + 2, f.name⟩ := by
  show ((files.map fun f => (f.name, f.bytes)).mapIdx fun i f => (⟨i + 2, f.1⟩ : Dirent))[k]? = _
  rw [List.getElem?_mapIdx, List.getElem?_map, hk]
  rfl

/-- For files with distinct names, none of them `"."` or `".."`, the kernel finds each name with its inode,
and in the inode the bytes of the file; no block is in two places; and the bit map marks the blocks below
`freeblock`. -/
theorem mkfs_agrees (files : List Input) (hfits : Fits files) (hnames : (files.map Input.name).Nodup)
    (hdots : ∀ f ∈ files, f.name ≠ dot ∧ f.name ≠ dotdot) :
    ∃ m, main files {} = .ok () m ∧ readsb m.sectors = sb ∧ (∀ k f, files[k]? = some f → ∃ s,
        Prog.run (diskOps mkfsSb) (lookupRoot f.name) (mount m.sectors) =
          .ok (some (k + 2, DIRENT * (k + 2))) s ∧ ∀ off n, off ≤ f.bytes.length → off + n < 2 ^ 32 → ∃ t,
          Prog.run (diskOps mkfsSb) (readInode (k + 2) off n) s = .ok (some ((f.bytes.drop off).take n)) t) ∧
      (∀ i, (mount m.sectors).Live i ↔ 0 < i ∧ i ≤ files.length + 1) ∧ (mount m.sectors).Distinct ∧
      (∀ i k, (mount m.sectors).Live i → (mount m.sectors).ref i k ≠ 0 →
        nmeta ≤ (mount m.sectors).ref i k ∧ (mount m.sectors).ref i k < m.freeblock) ∧
      m.freeblock ≤ FSSIZE ∧ ∀ b < BPB, (mount m.sectors).bitmap b = decide (b < m.freeblock) := by
  obtain ⟨m, hbuilt, hrun⟩ := main_spec hfits
  have htidy := hbuilt.consistent.sound.tidy
  have hlive := live_mount hbuilt hfits.count
  have href := fun {j : Nat} (hj : (disk m).Live j) (k : Store.Slot) => ref_mount hbuilt hfits.count hj k
  refine ⟨m.finish, hrun, readsb_finish hbuilt.ready, fun k f hk => ?_, fun i => ?_, ?_, fun i k hi h0 => ?_,
    ?_, fun b hb => bitmap_mount hbuilt.ready hb⟩
  · have hmem := List.mem_of_getElem? hk
    have hlen : k < files.length := (List.getElem?_eq_some_iff.mp hk).1
    have hfirst : ∀ j < k + 2, ∀ e, (entries files)[j]? = some e → e.name ≠ f.name := by
      intro j hj e he
      match j with
      | 0 =>
        obtain rfl : (⟨ROOTINO, dot⟩ : Dirent) = e := Option.some.inj he
        exact (hdots f hmem).1.symm
      | 1 =>
        obtain rfl : (⟨ROOTINO, dotdot⟩ : Dirent) = e := Option.some.inj he
        exact (hdots f hmem).2.symm
      | j + 2 =>
        -- an earlier file
        have hj' : j < files.length := by omega
        have hget := List.getElem?_eq_getElem hj'
        rw [getElem?_entries hget] at he
        obtain rfl := Option.some.inj he
        intro heq
        have hnth : (files.map Input.name)[j]? = (files.map Input.name)[k]? := by
          rw [List.getElem?_map, List.getElem?_map, hget, hk]
          exact congrArg some heq
        have hjk := (List.getElem?_inj (by rwa [List.length_map]) hnames).mp hnth
        omega
    have hne : k + 2 ≠ ROOTINO := fun h => by cases h
    have hcache : (opened (mount m.finish.sectors)).icache (k + 2) = {} := by
      rw [icache_opened, if_neg hne]
      rfl
    have hget := iget_fresh (i := k + 2) (by rw [hcache]) (cached_opened m.finish.sectors)
    refine ⟨_, (lookup_mount hbuilt hfits.count f.name (getElem?_entries hk) rfl hfirst).trans
      ((bind_ok hget).trans rfl), fun off n hoff hn => ?_⟩
    refine readInode_run hbuilt hfits.count hk ?_ rfl rfl hoff hn
    rw [icache_updInode, Function.update_self, hcache]
  · rw [hlive, hbuilt.live_iff]
    unfold built
    rw [List.length_cons, List.length_map]
  · intro i j k l hi hj heq h0
    rw [hlive] at hi hj
    rw [href hi] at heq h0
    rw [href hj] at heq
    exact htidy.inj hi hj heq h0
  · rw [hlive] at hi
    rw [href hi] at h0 ⊢
    exact ⟨(htidy.area hi h0).1, of_decide_eq_true (htidy.marked hi h0)⟩
  · show m.freeblock ≤ FSSIZE
    rw [hbuilt.count, count_built]
    exact hfits.blocks

/-- A file `_f` with three bytes. -/
def oneInput : Input := ⟨[95, 102], [[1, 2, 3]], by decide, by decide⟩

/-- A file `_g` with thirteen blocks. -/
def bigInput : Input := ⟨[95, 103], .replicate 13 (.replicate 512 9), by decide +kernel, by decide +kernel⟩

/-- The last block of the second file is reached through its indirect block. -/
theorem mkfs_agrees_twoInputs : ∃ m, main [oneInput, bigInput] {} = .ok () m ∧ ∃ s t,
    Prog.run (diskOps mkfsSb) (lookupRoot (.of [103])) (mount m.sectors) = .ok (some (3, 48)) s ∧
    Prog.run (diskOps mkfsSb) (readInode 3 6144 512) s = .ok (some (.replicate 512 9)) t := by
  obtain ⟨m, hrun, -, hfiles, -⟩ := mkfs_agrees [oneInput, bigInput]
    ⟨by decide +kernel, by decide +kernel, by decide +kernel, by decide +kernel⟩ (by decide) (by decide)
  obtain ⟨s, hlookup, hread⟩ := hfiles 1 bigInput rfl
  obtain ⟨t, ht⟩ := hread 6144 512 (by decide +kernel) (by decide)
  have hlast : (bigInput.bytes.drop 6144).take 512 = .replicate 512 9 := by decide +kernel
  exact ⟨m, hrun, s, t, hlookup, hlast ▸ ht⟩

/-- A file `_.`, with the name `"."`. -/
def dotInput : Input := ⟨[95, 46], [[7]], by decide, by decide⟩

/-- The file is in the image, as inode 2, but its name is that of the root directory. -/
theorem dotInput_not_found : Fits [dotInput] ∧ ([dotInput].map Input.name).Nodup ∧
    ∃ m, main [dotInput] {} = .ok () m ∧ ∃ s,
      Prog.run (diskOps mkfsSb) (lookupRoot dotInput.name) (mount m.sectors) = .ok (some (ROOTINO, 0)) s := by
  have hfits : Fits [dotInput] := ⟨by decide, by decide, by decide, by decide⟩
  obtain ⟨m, hbuilt, hrun⟩ := main_spec hfits
  refine ⟨hfits, by decide, m.finish, hrun, ?_⟩
  have hlookup := lookup_mount (q := 0) hbuilt hfits.count dotInput.name rfl rfl
    (fun j hj => absurd hj (Nat.not_lt_zero j))
  have hget : Store.iget mkfsSb ROOTINO (opened (mount m.finish.sectors)) =
      .ok () ((opened (mount m.finish.sectors)).updInode ROOTINO fun ip => { ip with ref := ip.ref + 1 }) := by
    unfold Store.iget
    rw [bind_ok (get_run _), icache_opened, if_pos rfl]
    rfl
  exact ⟨_, hlookup.trans ((bind_ok hget).trans rfl)⟩

end Xv6.Mkfs
