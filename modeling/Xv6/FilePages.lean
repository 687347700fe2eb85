import Xv6.FirstFit
import Xv6.FirstTouch

/-!
# Which part of its file a page holds

`sys_mmap` checks that the offset into the file is not negative and then forgets it, and a page fault reads
the file from its beginning, whichever page of the mapping it is.
-/

namespace Xv6

open Hoare
open Function (update)

variable {p : Fin NPROC} {s t u : State} {a : MmapArgs} {f : Fin NFILE}

/-- The descriptor that `mmap` makes of its arguments for the page at `va`. -/
structure MmapDesc.Maps (md : MmapDesc) (a : MmapArgs) (f : Fin NFILE) (va : Word) : Prop where
  valid : md.valid
  flags : md.flags = a.flags
  prot : md.prot = a.prot
  va : md.virtualAddress = va
  f : md.f = some f

instance (md : MmapDesc) (a : MmapArgs) (f : Fin NFILE) (va : Word) : Decidable (md.Maps a f va) :=
  decidable_of_iff (md.valid ∧ md.flags = a.flags ∧ md.prot = a.prot ∧ md.virtualAddress = va ∧
    md.f = some f) ⟨fun ⟨h1, h2, h3, h4, h5⟩ => ⟨h1, h2, h3, h4, h5⟩,
    fun h => ⟨h.valid, h.flags, h.prot, h.va, h.f⟩⟩

/-- `mmap` of a file that did not fail: page `k` of the mapping has a descriptor of its own. -/
theorem sysMmap_maps {B : Word} (hanon : hasFlag a.flags MAP_ANON = false)
    (h : sysMmap p (some a) t = .ok B s) (hB : B ≠ RETURN_ERR) :
    ∃ f i n, pageCount a = some n ∧ argfd (t.proc p) a.fd = some f ∧ i + n ≤ PAGE_LIMIT ∧
      ∀ (k : Nat) (hk : i + k < PAGE_LIMIT), k < n →
        ((s.proc p).mmaps ⟨i + k, hk⟩).Maps a f (B + PGSIZE * .ofNat 32 k) := by
  have hout := mmapOutcome p (some a) t
  rw [h] at hout
  generalize hres : (EStateM.Result.ok B s : EStateM.Result Stop State Word) = res at hout
  cases hout with
  | refused _ => cases hres; exact absurd rfl hB
  | endless _ => cases hres
  | badFile _ _ _ => cases hres; exact absurd rfl hB
  | deadFile _ _ _ _ => cases hres
  | @mapped _ n i fo u hacc hfo hlive hu =>
    cases hres
    rw [RequestFile, if_neg (by simp [hanon])] at hfo
    obtain ⟨f, rfl⟩ := Option.isSome_iff_exists.mp hfo.2
    refine ⟨f, i, n, hacc.count, hfo.1, hacc.freeRun.1, fun k hk hkn => ?_⟩
    have hslot := hu.slot hacc.freeRun.1 (j := ⟨i + k, hk⟩) (Nat.le_add_right i k) (by dsimp only; omega)
    rw [bump_proc, hslot]
    exact ⟨rfl, rfl, rfl, by simp [MmapDesc.mapped], rfl⟩

/-! ## The page after its first fault -/

/-- As far as the page `va` of a mapping lies in the page of memory around `x`, it holds the bytes `bs`,
and zeros after their end. -/
def State.Loaded (u : State) (p : Fin NPROC) (va x : Word) (bs : Bytes) : Prop :=
  ∀ y ∈ pageRange va, vpn y = vpn x → u.userByte p y = bs.getD (y - va).toNat 0

/-- The file from `pos` on cannot be told from its beginning, or from zeros if it cannot be read. -/
def Fs.LikeStart (fs : Fs) (f : Fin NFILE) (va x : Word) (pos : Nat) : Prop :=
  ∀ y ∈ pageRange va, vpn y = vpn x →
    (if (fs.file f).readable then (fs.inode (fs.file f).ip).data.getD (y &&& 0xFFF#32).toNat 0 else 0) =
      ((fs.inode (fs.file f).ip).data.drop pos).getD (y - va).toNat 0

/-- The file is one that has bytes, a regular file or a directory. -/
structure Fs.HasBytes (fs : Fs) (f : Fin NFILE) : Prop where
  inode : (fs.file f).type = .inode
  data : ∀ m, (fs.inode (fs.file f).ip).type ≠ .dev m

theorem getD_take_of_lt {bs : Bytes} {n m : Nat} (h : n < m) : (bs.take m).getD n 0 = bs.getD n 0 := by
  rw [List.getD_eq_getElem?_getD, List.getElem?_take_of_lt h, List.getD_eq_getElem?_getD]

theorem fileBytes_getD {fs : Fs} (hf : fs.HasBytes f) (y : Word) :
    (fileBytes fs (some f)).getD (y &&& 0xFFF#32).toNat 0 =
      if (fs.file f).readable then (fs.inode (fs.file f).ip).data.getD (y &&& 0xFFF#32).toNat 0
      else 0 := by
  have hlow : (y &&& 0xFFF#32).toNat < 4096 := by
    rw [toNat_and_low]
    exact Nat.mod_lt _ (by decide)
  unfold fileBytes
  dsimp only
  cases (fs.file f).readable with
  | false => rfl
  | true =>
    rw [hf.inode]
    cases htype : (fs.inode (fs.file f).ip).type with
    | dev m => exact absurd htype (hf.data m)
    | free => exact getD_take_of_lt hlow
    | file => exact getD_take_of_lt hlow
    | dir => exact getD_take_of_lt hlow

/-- A descriptor's page after its first fault: the beginning of the file, whatever the offset. -/
theorem loaded_iff {va x : Word} {j : Index} {user : Bool} {pos : Nat}
    (hanon : hasFlag a.flags MAP_ANON = false) (hprot : LowBits a.prot)
    (hmaps : ((t.proc p).mmaps j).Maps a f va) (hserve : findDesc (t.proc p).mmaps x = some j)
    (hbytes : t.fs.HasBytes f) (hfree : ∀ v ∈ t.ram.freelist, Aligned v)
    (ht : (t.proc p).pgdir.access x false false = false) (h : trap p user x t = .ok () u)
    (hu : (u.proc p).pgdir.access x false false) :
    u.Loaded p va x ((t.fs.inode (t.fs.file f).ip).data.drop pos) ↔ t.fs.LikeStart f va x pos := by
  obtain ⟨i, mem, hfind, htouched⟩ := trap_touched h ht hu
  obtain rfl : j = i := Option.some.inj (hserve.symm.trans hfind)
  have hmem : Aligned mem := by
    obtain ⟨fl, hfl, -⟩ := htouched.free
    exact hfree mem (hfl ▸ List.mem_cons_self)
  have hinit : ((t.proc p).mmaps j).initial t.fs = fileBytes t.fs (some f) := by
    rw [MmapDesc.initial, hmaps.flags, hanon, hmaps.f]
    rfl
  -- every byte of the page of memory is the byte of the file at the same place in its first page
  have hbyte : ∀ y, vpn y = vpn x → u.userByte p y =
      if (t.fs.file f).readable then
        (t.fs.inode (t.fs.file f).ip).data.getD (y &&& 0xFFF#32).toNat 0
      else 0 := by
    intro y hy
    have hy : Touched p t y ((t.proc p).mmaps j) mem u :=
      { htouched with entry := by rw [walk_congr hy]; exact htouched.entry }
    rw [hy.userByte (hmaps.prot ▸ hprot) hmem, hinit, fileBytes_getD hbytes]
  unfold State.Loaded Fs.LikeStart
  constructor
  · intro hload y hmem hy
    rw [← hbyte y hy]
    exact hload y hmem hy
  · intro hlike y hmem hy
    rw [hbyte y hy]
    exact hlike y hmem hy

/-- Each page of a file mapping has its descriptor, and whenever it serves the first fault on the page at `B
+ k * PGSIZE`, the page holds the file from `offset + k * PGSIZE` on exactly when that part is like the
file's beginning. -/
theorem file_page {B : Word} (hanon : hasFlag a.flags MAP_ANON = false) (hprot : LowBits a.prot)
    (h : sysMmap p (some a) t = .ok B s) (hB : B ≠ RETURN_ERR) :
    ∃ f n, pageCount a = some n ∧ argfd (t.proc p) a.fd = some f ∧
      (∀ k < n, ∃ j, ((s.proc p).mmaps j).Maps a f (B + PGSIZE * .ofNat 32 k)) ∧
      ∀ (t u : State) (k : Nat) (j : Index) (x : Word) (user : Bool),
        ((t.proc p).mmaps j).Maps a f (B + PGSIZE * .ofNat 32 k) →
        findDesc (t.proc p).mmaps x = some j → t.fs.HasBytes f → (∀ v ∈ t.ram.freelist, Aligned v) →
        (t.proc p).pgdir.access x false false = false → trap p user x t = .ok () u →
        (u.proc p).pgdir.access x false false → (u.Loaded p (B + PGSIZE * .ofNat 32 k) x
            ((t.fs.inode (t.fs.file f).ip).data.drop (a.offset.toNat + 4096 * k)) ↔
          t.fs.LikeStart f (B + PGSIZE * .ofNat 32 k) x (a.offset.toNat + 4096 * k)) := by
  obtain ⟨f, i, n, hn, hf, hle, hmaps⟩ := sysMmap_maps hanon h hB
  refine ⟨f, n, hn, hf, fun k hk => ⟨⟨i + k, by omega⟩, hmaps k _ hk⟩, ?_⟩
  intro t u k j x user hmaps hserve hbytes hfree ht h hu
  exact loaded_iff hanon hprot hmaps hserve hbytes hfree ht h hu

/-- At an aligned address the beginning of a file that can be read is what it should be. -/
theorem likeStart_zero {fs : Fs} {va x : Word} (ha : Aligned va) (hx : vpn x = vpn va)
    (hr : (fs.file f).readable) : fs.LikeStart f va x 0 := by
  intro y _ hy
  have hsub : (y - va).toNat = (y &&& 0xFFF#32).toNat := by
    have hv : y.toNat / 4096 = va.toNat / 4096 := hy.trans hx
    have ha := aligned_iff.mp ha
    rw [toNat_and_low, BitVec.toNat_sub]
    omega
  rw [if_pos hr, List.drop_zero, hsub]

/-! ## A file of one byte -/

/-- `boot` with a file that has the one byte `7`, open in process 1. -/
def bootFile : State :=
  { boot with
    fs :=
      { boot.fs with
        file := update boot.fs.file 0 { type := .inode, ref := 1, readable := true, ip := 2 }
        inode := update boot.fs.inode 2 { type := .file, nlink := 1, ref := 1, data := [7] } }
    proc := update boot.proc 1
      { bootProc 1 with ofile := update (bootProc 1).ofile 0 (some 0) } }

/-- Two pages of it, from its beginning on. -/
def bootFileArgs : MmapArgs where
  addr := 0
  length := 8192
  prot := PTE_W
  flags := MAP_PRIVATE
  fd := 0
  offset := 0

/-- The first page of it is right. -/
theorem file_page_bootFile : ∃ s u, sysMmap 1 (some bootFileArgs) bootFile = .ok VIRT_ADDR_START s ∧
    trap 1 true VIRT_ADDR_START s = .ok () u ∧ u.Loaded 1 VIRT_ADDR_START VIRT_ADDR_START [7] := by
  have hx : returns (sysMmap 1 (some bootFileArgs) bootFile) (fun B s =>
        B == VIRT_ADDR_START && findDesc (s.proc 1).mmaps VIRT_ADDR_START == some 0 &&
        decide (((s.proc 1).mmaps 0).Maps bootFileArgs 0 VIRT_ADDR_START) &&
        ((s.fs.file 0).type == .inode && (s.fs.file 0).readable && (s.fs.file 0).ip == 2) &&
        s.fs.inode 2 == bootFile.fs.inode 2 &&
        !(s.proc 1).pgdir.access VIRT_ADDR_START false false &&
        s.ram.freelist.all (fun v => decide (Aligned v)) &&
        returns (trap 1 true VIRT_ADDR_START s) fun _ u =>
          (u.proc 1).pgdir.access VIRT_ADDR_START false false) = true := by decide +kernel
  obtain ⟨B, s, hmmap, hx⟩ := exists_of_returns hx
  simp only [Bool.and_eq_true, beq_iff_eq, decide_eq_true_eq, Bool.not_eq_true', List.all_eq_true] at hx
  obtain ⟨⟨⟨⟨⟨⟨⟨rfl, hserve⟩, hmaps⟩, ⟨htype, hr⟩, hip⟩, hinode⟩, habsent⟩, hfree⟩, hx⟩ := hx
  obtain ⟨_, u, htrap, hx⟩ := exists_of_returns hx
  refine ⟨s, u, hmmap, htrap, ?_⟩
  obtain ⟨f, n, -, hf, -, hpage⟩ := file_page (by decide) (by decide) hmmap (by decide)
  obtain rfl : (0 : Fin NFILE) = f := by
    have hopen : argfd (bootFile.proc 1) bootFileArgs.fd = some 0 := by decide
    exact Option.some.inj (hopen.symm.trans hf)
  have hdata : (s.fs.inode (s.fs.file 0).ip).data = [7] := by
    rw [hip, hinode]
    rfl
  have hbytes : s.fs.HasBytes 0 := by
    refine ⟨htype, fun m => ?_⟩
    rw [hip, hinode]
    rintro ⟨⟩
  have hload := (hpage s u 0 0 VIRT_ADDR_START true hmaps hserve hbytes hfree habsent htrap hx).2
    (likeStart_zero (by decide) rfl hr)
  rwa [hdata] at hload

/-- The second page of it should be zeros, and holds the first byte of the file. -/
theorem file_page_repeats : ∃ t, Run exec (fun _ _ => True) bootFile t ∧
    ((t.proc 1).mmaps 1).Maps bootFileArgs 0 (VIRT_ADDR_START + PGSIZE) ∧
    (t.fs.inode (t.fs.file 0).ip).data = [7] ∧ (t.proc 1).pgdir.access (VIRT_ADDR_START + PGSIZE) true false ∧
    t.userByte 1 (VIRT_ADDR_START + PGSIZE) = 7 ∧
    ¬t.Loaded 1 (VIRT_ADDR_START + PGSIZE) (VIRT_ADDR_START + PGSIZE)
      ((t.fs.inode (t.fs.file 0).ip).data.drop (bootFileArgs.offset.toNat + 4096 * 1)) := by
  have hx : (Run.execAll exec bootFile
      [.mmap 1 (some bootFileArgs), .fault 1 (VIRT_ADDR_START + PGSIZE) false]).any
      (fun t => decide (((t.proc 1).mmaps 1).Maps bootFileArgs 0 (VIRT_ADDR_START + PGSIZE)) &&
        (t.fs.inode (t.fs.file 0).ip).data == [7] &&
        (t.proc 1).pgdir.access (VIRT_ADDR_START + PGSIZE) true false &&
        t.userByte 1 (VIRT_ADDR_START + PGSIZE) == 7) = true := by decide +kernel
  obtain ⟨t, hrun, ht⟩ := Run.exists_run hx
  simp only [Bool.and_eq_true, beq_iff_eq, decide_eq_true_eq] at ht
  obtain ⟨⟨⟨hmaps, hdata⟩, haccess⟩, hbyte⟩ := ht
  refine ⟨t, hrun, hmaps, hdata, haccess, hbyte, fun hload => ?_⟩
  have hzero := hload _ (mem_pageRange_self _) rfl
  rw [hbyte, hdata] at hzero
  revert hzero
  decide

end Xv6
