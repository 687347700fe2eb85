import Xv6.Boot
import Xv6.Frame
import Xv6.Ranges

/-!
# What `munmap` removes

`sys_munmap` looks for the descriptors that contain a page start of the range, closes their files and calls
`munmap_free`. Three things keep the mapping: a descriptor may lie between the page starts, `munmap_free`
keeps a descriptor whose count is not `1`, and the page table is left alone. `munmap_removes` says that these
are the only obstacles when nothing is written back to a file, which would read the pages and so bring them
in.
-/

namespace Xv6

open Hoare

variable {p : Fin NPROC} {s t u : State} {addr length : Word}

/-- The mapping is gone from the range `R`: no valid descriptor of `y` is there, no page of it that a
mapping of `x` had is present, and the rest is as in `x`. -/
structure Unmapped (x y : Proc) (R : Set Word) : Prop where
  gone : ∀ i, (y.mmaps i).valid → Disjoint (y.mmaps i).range R
  absent : ∀ i, (x.mmaps i).valid → ∀ a ∈ (x.mmaps i).range, a ∈ R → y.pgdir.access a false false = false
  others : ∀ i, ((x.mmaps i).valid → Disjoint (x.mmaps i).range R) → y.mmaps i = x.mmaps i
  pages : ∀ a, a ∉ R → y.pgdir.walk a = x.pgdir.walk a

/-- Descriptor `i` contains a page start of the range, its count is `1` and its pages in the range are not
present. -/
structure Removable (x : Proc) (addr length : Word) (i : Index) : Prop where
  found : ∃ k : Nat, 4096 * k < length.toNat ∧ (x.mmaps i).covers (addr + PGSIZE * BitVec.ofNat 32 k)
  ref : (x.mmaps i).ref = 1
  untouched : ∀ a ∈ (x.mmaps i).range, a ∈ region addr length → x.pgdir.access a false false = false

/-- Every mapping in the range can be removed. -/
def AllRemovable (x : Proc) (addr length : Word) : Prop :=
  ∀ i, (x.mmaps i).valid → ¬ Disjoint (x.mmaps i).range (region addr length) → Removable x addr length i

/-- Nothing in the range is written back: the mapping has no file, or is private, or the file is not
writable. -/
def NotBack (s : State) (x : Proc) (addr length : Word) : Prop :=
  ∀ i, (x.mmaps i).valid → ¬ Disjoint (x.mmaps i).range (region addr length) → ∀ f, (x.mmaps i).f = some f →
      hasFlag (x.mmaps i).flags MAP_PRIVATE ∨ (s.fs.file f).writable = false

/-- What comes before the descriptors are freed. -/
def closeAll (p : Fin NPROC) (l : List Index) : K Unit := do
  resetFirst p l
  l.forM (closeDesc p)

variable {visits : List Word}

theorem sysMunmap_ok (haddr : Aligned addr) (h : sysMunmap p (some (addr, length)) t = .ok 0 u) :
    ∃ visits s, pagesBelow (length + addr) (2 ^ 20 + 1) addr = some visits ∧
      closeAll p (toFree (t.proc p).mmaps visits) t = .ok () s ∧
      (toFree (t.proc p).mmaps visits).forM (munmapFree p) s = .ok () u := by
  cases hv : pagesBelow (length + addr) (2 ^ 20 + 1) addr with
  | none =>
    have h0 : ¬ addr &&& 0xFFF#32 ≠ 0 := not_not.mpr haddr
    simp only [sysMunmap, if_neg h0, hv] at h
    cases h
  | some visits =>
    have h0 : ¬ addr &&& 0xFFF#32 ≠ 0 := not_not.mpr haddr
    simp only [sysMunmap, if_neg h0, hv] at h
    rw [bind_ok (get_run t)] at h
    obtain ⟨⟨⟩, t1, h1, h⟩ := bind_eq_ok.mp h
    obtain ⟨⟨⟩, t2, h2, h⟩ := bind_eq_ok.mp h
    obtain ⟨⟨⟩, t3, h3, h⟩ := bind_eq_ok.mp h
    cases h
    refine ⟨visits, t2, rfl, ?_, h3⟩
    rw [closeAll, bind_ok h1, h2]

theorem mem_toFree {mmaps : Mmaps} (haddr : Aligned addr)
    (hlen : 0 < length.toInt) (hend : addr.toInt + length.toInt < 2 ^ 31)
    (h : pagesBelow (length + addr) (2 ^ 20 + 1) addr = some visits) (i : Index) :
    i ∈ toFree mmaps visits ↔
      ∃ k : Nat, 4096 * k < length.toNat ∧ (mmaps i).covers (addr + PGSIZE * .ofNat 32 k) := by
  unfold toFree
  simp only [List.mem_flatMap, List.mem_filter, List.mem_finRange, true_and, mem_visits haddr hlen hend h]
  constructor
  · rintro ⟨a, ⟨k, hk, rfl⟩, hc⟩
    exact ⟨k, hk, hc⟩
  · rintro ⟨k, hk, hc⟩
    exact ⟨_, ⟨k, hk, rfl⟩, hc⟩

variable {md : MmapDesc}

theorem meets_of_found {k : Nat} (hk : 4096 * k < length.toNat)
    (hc : md.covers (addr + PGSIZE * .ofNat 32 k)) : md.valid ∧ ¬ Disjoint md.range (region addr length) := by
  obtain ⟨hv, hr, -⟩ := covers_iff.mp hc
  exact ⟨hv, fun hd => Set.disjoint_left.mp hd hr (page_mem_region hk)⟩

/-! ## Closing the files -/

theorem keeps_closeAll {I : State → Prop} (hI : Deaf p I ⊤)
    (hF : FileBlind p I ⊤) (l : List Index) : Keeps I ⊤ (closeAll p l) := by
  apply Keeps.bind (hI.resetFirst l)
  intro _
  apply Keeps.forM
  intro i _
  apply hF.closeDesc hI.toPassive fun _ _ pg _ _ => hI.onRam (kfree pg)
  intro s _ _ _ x _
  exact hI.touch x (hI.trap false x)

theorem deaf_slot (j : Index) (va r : Word) :
    Deaf p (fun s => ((s.proc p).mmaps j).valid ∧ ((s.proc p).mmaps j).virtualAddress = va ∧
      ((s.proc p).mmaps j).ref = r) ⊤ where
  toCalm := by
    have hC := calm_of_frame (p := p) fun m => (m j).valid ∧ (m j).virtualAddress = va ∧ (m j).ref = r
    exact hC
  shrink s i hs := by
    rw [updDesc_mmaps]
    by_cases hj : j = i
    · subst hj
      simpa using hs
    · simpa [hj] using hs
  grow s i hs := by
    rw [updDesc_mmaps]
    by_cases hj : j = i
    · subst hj
      simpa using hs.2
    · simpa [hj] using hs
  outside _ _ _ := trivial

theorem deaf_access (a : Word) :
    Deaf p (fun s => (s.proc p).pgdir.access a false false) ⊤ where
  toPassive := passive_of_proc fun q => (q p).pgdir.access a false false
  exit _ _ := trivial
  ram _ _ hs := hs
  pgdir s d hd hs := by
    rw [updProc_self]
    exact (hd.access_eq hs false false).trans hs
  killed s hs := by simpa using hs
  page s i w hs := by simpa [State.updDesc, Proc.updDesc] using hs
  shrink s i hs := by simpa [State.updDesc, Proc.updDesc] using hs
  grow s i hs := by simpa [State.updDesc, Proc.updDesc] using hs
  outside _ _ _ := trivial

theorem fileBlind_of_space (C : Mmaps → PgDir → Prop) :
    FileBlind p (fun s => C (s.proc p).mmaps (s.proc p).pgdir) ⊤ where
  count _ _ _ := trivial
  file _ _ _ _ hs := hs
  ofile s g hs := by simpa using hs
  cwd s c hs := by simpa using hs

variable {l : List Index}

theorem closeAll_quiet
    (hl : ∀ i ∈ l, ∀ f, ((t.proc p).mmaps i).f = some f →
      hasFlag ((t.proc p).mmaps i).flags MAP_PRIVATE ∨ (t.fs.file f).writable = false) :
    Keeps (fun s => s.proc = t.proc ∧ ∀ f, (s.fs.file f).writable = (t.fs.file f).writable)
      ⊤ (closeAll p l) := by
  have hI : Passive (fun s => s.proc = t.proc ∧ ∀ f, (s.fs.file f).writable = (t.fs.file f).writable) ⊤ :=
    { stop := fun _ _ _ _ => trivial
      mem := fun _ _ hs => hs
      nullPage := fun _ hs => hs
      off := fun s f o hs => ⟨hs.1, fun f' => by
        rw [← hs.2 f']
        by_cases hf : f' = f <;> simp [hf]⟩
      inode := fun _ _ hs => hs
      pipe := fun _ _ hs => hs
      ilocks := fun _ _ hs => hs }
  apply Keeps.bind (hI.resetFirst l)
  intro _
  apply Keeps.forM
  intro i hi
  apply Keeps.get
  intro s hs
  rw [hs.1]
  dsimp only
  cases hf : ((t.proc p).mmaps i).f with
  | none => exact .pure _
  | some f =>
    refine .bind ?_ fun _ => hI.fileclose (fun _ _ => trivial) ?_ ?_ f
    · -- the file is not written: the mapping is private, or `filewrite` returns at once
      refine .early fun hpriv => .bind ?_ fun _ => .pure _
      refine .get fun s' hs' => .early fun hw => ?_
      rcases hl i hi f hf with h | h
      · exact absurd h hpriv
      · rw [hs'.2 f, h] at hw
        exact absurd rfl hw
    · intro s' f' r ty _ hs'
      refine ⟨hs'.1, fun f'' => ?_⟩
      rw [← hs'.2 f'']
      by_cases hf'' : f'' = f' <;> simp [hf'']
    · intro s' f' pg _ _
      refine ⟨fun s'' hs'' => ?_⟩
      unfold onRam
      cases kfree pg s''.ram with
      | ok _ r => exact hs''
      | error _ r => trivial

/-! ## Freeing the descriptors -/

/-- What `munmap_free` makes of a descriptor. -/
def MmapDesc.released (md : MmapDesc) : MmapDesc :=
  if !md.valid then md else if md.ref - 1 ≠ 0 then { md with ref := md.ref - 1 } else {}

theorem released_of_ref (hv : md.valid) (hr : md.ref ≠ 1) :
    md.released.valid ∧ md.released.range = md.range := by
  have hr' : md.ref - 1 ≠ 0 := sub_ne_zero.mpr hr
  unfold MmapDesc.released
  rw [if_neg (by simp [hv]), if_pos hr']
  exact ⟨hv, rfl⟩

theorem released_of_ref_one (hv : md.valid) (hr : md.ref = 1) : md.released = {} := by
  unfold MmapDesc.released
  rw [if_neg (by simp [hv]), if_neg (by simp [hr])]

theorem munmapFree_triple (x : Proc) (i : Index) :
    Triple (fun s => s.proc p = x) (munmapFree p i)
      (fun _ s => s.proc p = x.updDesc i MmapDesc.released) ⊤ := by
  have hset : ∀ {s : State} {y : Proc} (g : MmapDesc → MmapDesc), s.proc p = y →
      (s.updDesc p i g).proc p = y.updDesc i g := by
    intro s y g hs
    rw [State.updDesc, updProc_self, hs]
  -- a change of the slot is the right one if it gives the right descriptor
  have hupd : ∀ md : MmapDesc, md = (x.mmaps i).released →
      { x with mmaps := Function.update x.mmaps i md } = x.updDesc i MmapDesc.released := by
    intro md hmd
    rw [hmd, Proc.updDesc]
  refine .read fun t ht => ?_
  rw [ht]
  dsimp only
  refine .ite (fun hv => .pure fun s hs => ?_) fun hv => ?_
  · rw [hs, ← hupd (x.mmaps i), Function.update_eq_self]
    rw [MmapDesc.released, if_pos hv]
  refine .ite (fun hr => .modify fun s hs => ?_) fun hr => ?_
  · rw [hset _ hs]
    apply hupd
    rw [MmapDesc.released, if_neg hv, if_pos hr]
  have hrel : (x.mmaps i).released = {} := by rw [MmapDesc.released, if_neg hv, if_neg hr]
  refine .update (R := fun s => s.proc p = x.updDesc i MmapDesc.cleared)
    (fun s hs => hset _ hs) <| .ite (fun hp => .pure fun s hs => ?_) fun _ => ?_
  · rw [hs]
    apply hupd
    rw [hrel, MmapDesc.cleared, hp]
  · refine .bind (onRam_proc (fun q => q p = _) _) fun _ => .modify fun s hs => ?_
    rw [hset _ hs, updDesc_comp]
    apply hupd
    rw [hrel]
    rfl

theorem munmapFree_forM (x : Proc) (hl : l.Nodup) :
    Triple (fun s => s.proc p = x) (l.forM (munmapFree p))
      (fun _ s => s.proc p =
        { x with mmaps := fun j => if j ∈ l then (x.mmaps j).released else x.mmaps j })
      ⊤ := by
  induction l generalizing x with
  | nil => exact .pure fun s hs => by simpa using hs
  | cons i l ih =>
    obtain ⟨hi, hl⟩ := List.nodup_cons.mp hl
    refine .bind (munmapFree_triple x i) fun _ => (ih _ hl).post fun _ s hs => ?_
    rw [hs]
    unfold Proc.updDesc
    congr 1
    funext j
    by_cases hj : j = i
    · subst hj
      simp [hi]
    · simp [hj]

/-! ## The call -/

section
variable (haddr : Aligned addr) (hlen : 0 < length.toInt) (hend : addr.toInt + length.toInt < 2 ^ 31)
  (h : sysMunmap p (some (addr, length)) t = .ok 0 u)
include haddr hlen hend h

/-- The call frees the descriptors that contain a page start of the range, once each, after the files
are closed. -/
theorem sysMunmap_frees : ∃ l s, closeAll p l t = .ok () s ∧
    (∀ i, i ∈ l ↔ ∃ k : Nat, 4096 * k < length.toNat ∧
      ((t.proc p).mmaps i).covers (addr + PGSIZE * .ofNat 32 k)) ∧
    u.proc p = { s.proc p with
      mmaps := fun j => if j ∈ l then ((s.proc p).mmaps j).released else (s.proc p).mmaps j } := by
  obtain ⟨visits, s, hv, hclose, hfree⟩ := sysMunmap_ok haddr h
  refine ⟨_, s, hclose, mem_toFree haddr hlen hend hv, ?_⟩
  exact (munmapFree_forM (s.proc p) (nodup_toFree (t.proc p).mmaps hv)).ok rfl hfree

theorem unmapped_of_removable (hrem : AllRemovable (t.proc p) addr length)
    (hback : NotBack t (t.proc p) addr length) : Unmapped (t.proc p) (u.proc p) (region addr length) := by
  obtain ⟨l, s, hclose, hmem, hu⟩ := sysMunmap_frees haddr hlen hend h
  have hmeets : ∀ i ∈ l, ((t.proc p).mmaps i).valid ∧
      ¬ Disjoint ((t.proc p).mmaps i).range (region addr length) := by
    intro i hi
    obtain ⟨k, hk, hc⟩ := (hmem i).mp hi
    exact meets_of_found hk hc
  have hs : s.proc = t.proc := by
    have hquiet := closeAll_quiet fun i hi => hback i (hmeets i hi).1 (hmeets i hi).2
    exact (hquiet.ok ⟨rfl, fun _ => rfl⟩ hclose).1
  rw [hs] at hu
  -- a descriptor that is found becomes empty, every other one stays
  have hfreed : ∀ i ∈ l, (u.proc p).mmaps i = {} := by
    intro i hi
    obtain ⟨hv, hm⟩ := hmeets i hi
    rw [hu]
    dsimp only
    rw [if_pos hi, released_of_ref_one hv (hrem i hv hm).ref]
  have hkept : ∀ i, i ∉ l → (u.proc p).mmaps i = (t.proc p).mmaps i := by
    intro i hi
    rw [hu]
    dsimp only
    rw [if_neg hi]
  have hdir : (u.proc p).pgdir = (t.proc p).pgdir := by rw [hu]
  constructor
  · intro i hi
    by_cases hl : i ∈ l
    · rw [hfreed i hl] at hi
      cases hi
    · rw [hkept i hl] at hi ⊢
      by_contra hm
      exact hl ((hmem i).mpr (hrem i hi hm).found)
  · intro i hi a ha hR
    rw [hdir]
    exact (hrem i hi fun hd => Set.disjoint_left.mp hd ha hR).untouched a ha hR
  · intro i hi
    apply hkept
    intro hl
    exact (hmeets i hl).2 (hi (hmeets i hl).1)
  · intro a _
    rw [hdir]

theorem removable_of_unmapped (hun : Unmapped (t.proc p) (u.proc p) (region addr length)) :
    AllRemovable (t.proc p) addr length := by
  obtain ⟨l, s, hclose, hmem, hu⟩ := sysMunmap_frees haddr hlen hend h
  intro i hi hm
  obtain ⟨hv, hva, href⟩ : ((s.proc p).mmaps i).valid ∧
      ((s.proc p).mmaps i).virtualAddress = ((t.proc p).mmaps i).virtualAddress ∧
      ((s.proc p).mmaps i).ref = ((t.proc p).mmaps i).ref :=
    (keeps_closeAll (deaf_slot i _ _) (fileBlind_of_space fun m _ => (m i).valid ∧
      (m i).virtualAddress = _ ∧ (m i).ref = _) l).ok ⟨hi, rfl, rfl⟩ hclose
  have hrange : ((s.proc p).mmaps i).range = ((t.proc p).mmaps i).range := by
    rw [MmapDesc.range, hva, MmapDesc.range]
  -- a descriptor in the range that is still valid is what `gone` excludes
  have hgone : ¬ (((u.proc p).mmaps i).valid ∧ ((u.proc p).mmaps i).range = ((s.proc p).mmaps i).range) := by
    rintro ⟨hvalid, heq⟩
    have hd := hun.gone i hvalid
    rw [heq, hrange] at hd
    exact hm hd
  have hfound : i ∈ l := by
    by_contra hl
    apply hgone
    rw [hu]
    dsimp only
    rw [if_neg hl]
    exact ⟨hv, rfl⟩
  constructor
  · exact (hmem i).mp hfound
  · by_contra hr
    apply hgone
    rw [hu]
    dsimp only
    rw [if_pos hfound]
    exact released_of_ref hv (href ▸ hr)
  · intro a ha hR
    by_contra hpresent
    have hp : (s.proc p).pgdir.access a false false :=
      (keeps_closeAll (deaf_access a) (fileBlind_of_space fun _ d => d.access a false false) l).ok
        (by simpa using hpresent) hclose
    have habsent := hun.absent i hi a ha hR
    rw [hu] at habsent
    dsimp only at habsent
    rw [hp] at habsent
    cases habsent

/-- A call that returns `0` removes the mappings in its range, and nothing else, only if each of them
contains a page start of the range, has the count `1` and was never touched; and then it does, if none is
written back. -/
theorem munmap_removes :
    (Unmapped (t.proc p) (u.proc p) (region addr length) → AllRemovable (t.proc p) addr length) ∧
    (AllRemovable (t.proc p) addr length → NotBack t (t.proc p) addr length →
      Unmapped (t.proc p) (u.proc p) (region addr length)) :=
  ⟨removable_of_unmapped haddr hlen hend h, unmapped_of_removable haddr hlen hend h⟩

end

/-! ## In the small machine -/

theorem bootMapped_valid {i : Index} (hi : ((bootMapped.proc 1).mmaps i).valid) : i = 0 := by
  revert i
  decide +kernel

theorem bootMapped_removable : AllRemovable (bootMapped.proc 1) VIRT_ADDR_START 4096 := by
  intro i hi _
  obtain rfl := bootMapped_valid hi
  refine ⟨⟨0, by decide, by decide +kernel⟩, by decide +kernel, fun a ha _ => ?_⟩
  -- there is no page table at that place in the directory
  have hpdx : pdx a = 384 := by
    have ha : (a - VIRT_ADDR_START).toNat < 4096 := ha
    rw [BitVec.toNat_sub, show VIRT_ADDR_START.toNat = 1610612736 from rfl] at ha
    unfold pdx
    omega
  unfold PgDir.access PgDir.walk
  rw [hpdx, if_neg (by decide +kernel)]

/-- A mapping that was made and not touched is removed. -/
theorem munmap_removes_bootMapped : Run exec (fun _ _ => True) boot bootMapped ∧
    ∃ u, sysMunmap 1 (some (VIRT_ADDR_START, 4096)) bootMapped = .ok 0 u ∧
      Unmapped (bootMapped.proc 1) (u.proc 1) (region VIRT_ADDR_START 4096) := by
  refine ⟨.tail .refl trivial exec_bootAnon, ?_⟩
  have hx : returns (sysMunmap 1 (some (VIRT_ADDR_START, 4096)) bootMapped) (fun r _ => r == 0) = true := by
    decide +kernel
  obtain ⟨r, u, hrun, hr⟩ := exists_of_returns hx
  obtain rfl : r = 0 := by simpa using hr
  have haddr : Aligned VIRT_ADDR_START := by decide
  refine ⟨u, hrun, (munmap_removes haddr (by decide) (by decide) hrun).2 bootMapped_removable ?_⟩
  intro i hi _ f hf
  obtain rfl := bootMapped_valid hi
  cases hf

/-- A page that was touched is still in the page table after `munmap` returned `0`. -/
theorem munmap_keeps_page : ∃ t u, Run exec (fun _ _ => True) boot t ∧
    sysMunmap 1 (some (VIRT_ADDR_START, 4096)) t = .ok 0 u ∧
    ((t.proc 1).mmaps 0).valid ∧ VIRT_ADDR_START ∈ ((t.proc 1).mmaps 0).range ∧
    VIRT_ADDR_START ∈ region VIRT_ADDR_START 4096 ∧ (u.proc 1).pgdir.access VIRT_ADDR_START true true := by
  have hx : (Run.execAll exec boot [.mmap 1 (some bootAnon), .fault 1 VIRT_ADDR_START true]).any
      (fun t => ((t.proc 1).mmaps 0).valid &&
        ((t.proc 1).mmaps 0).virtualAddress == VIRT_ADDR_START &&
        returns (sysMunmap 1 (some (VIRT_ADDR_START, 4096)) t) fun r u =>
          r == 0 && (u.proc 1).pgdir.access VIRT_ADDR_START true true) = true := by decide +kernel
  obtain ⟨t, hrun, ht⟩ := Run.exists_run hx
  simp only [Bool.and_eq_true, beq_iff_eq] at ht
  obtain ⟨⟨hv, hva⟩, ht⟩ := ht
  obtain ⟨r, u, hm, hx⟩ := exists_of_returns ht
  simp only [Bool.and_eq_true, beq_iff_eq] at hx
  obtain ⟨rfl, hpresent⟩ := hx
  refine ⟨t, u, hrun, hm, hv, ?_, ?_, hpresent⟩
  · rw [MmapDesc.range, hva]
    exact mem_pageRange_self _
  · show (VIRT_ADDR_START - VIRT_ADDR_START).toNat < (4096 : Word).toNat
    decide

end Xv6
