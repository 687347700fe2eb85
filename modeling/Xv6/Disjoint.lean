import Xv6.Orderly

/-!
# Mappings that do not overlap

`sys_mmap` checks a fixed address only at the first address of each page, with a signed comparison that
wraps. An address that the kernel chooses is not checked at all, a call that fails at the file descriptor
leaves a valid slot with an old address behind, and a guard page that grows makes its neighbour valid as it
is. `DisjointGuard` asks for what the code does not check.
-/

namespace Xv6

variable {p : Fin NPROC} {s t : State}

/-! ## The invariant -/

/-- No two valid descriptors share an address. -/
def Separate (mmaps : Mmaps) : Prop :=
  ∀ i j, i ≠ j → (mmaps i).valid → (mmaps j).valid → Disjoint (mmaps i).range (mmaps j).range

theorem hereditary_separate : Hereditary Separate := by
  intro mmaps mmaps' h hw i j hij hi hj
  obtain ⟨hi, hai⟩ := hw i hi
  obtain ⟨hj, haj⟩ := hw j hj
  have := h i j hij hi hj
  rwa [MmapDesc.range, MmapDesc.range, ← hai, ← haj] at this

variable {mmaps : Mmaps}
variable {i j : Index}

theorem Separate.unique (h : Separate mmaps)
    {x : Word} (hi : (mmaps i).valid) (hj : (mmaps j).valid) (hxi : x ∈ (mmaps i).range)
    (hxj : x ∈ (mmaps j).range) : i = j := by
  by_contra hij
  exact Set.disjoint_left.mp (h i j hij hi hj) hxi hxj

/-- Mappings do not overlap; and there are no pipes, so that a write always goes through an inode. -/
structure Apart (s : State) : Prop where
  separate : ∀ q, Separate (s.proc q).mmaps
  noPipe : ∀ f, (s.fs.file f).type ≠ .pipe

theorem apart_iff : Apart s ↔ Orderly Separate s :=
  ⟨fun h => ⟨h.separate, h.noPipe⟩, fun h => ⟨h.tables, h.noPipe⟩⟩

/-- Where a guard page grows into, the address that is left in the slot is free. -/
def GrowsApart (mmaps : Mmaps) (a : Word) : Prop :=
  ∀ i, findDesc mmaps a = some i → (mmaps i).guardPage →
    ∀ j : Index, j.val = i.val + 1 → (mmaps j).valid = false →
      ∀ k, (mmaps k).valid → Disjoint (mmaps j).range (mmaps k).range

theorem Separate.grow (h : Separate mmaps)
    (hfree : ∀ k, (mmaps k).valid → Disjoint (mmaps j).range (mmaps k).range) :
    Separate (Function.update mmaps j { mmaps j with valid := true }) := by
  intro i k hik hi hk
  by_cases hij : i = j
  · subst hij
    rw [Function.update_of_ne (Ne.symm hik)] at hk ⊢
    rw [Function.update_self]
    exact hfree k hk
  · rw [Function.update_of_ne hij] at hi ⊢
    by_cases hkj : k = j
    · subst hkj
      rw [Function.update_self]
      exact (hfree i hi).symm
    · rw [Function.update_of_ne hkj] at hk ⊢
      exact h i k hik hi hk

/-- No descriptor that is written back is a guard page. -/
def NoGuardBack (mmaps : Mmaps) (l : List Index) : Prop :=
  ∀ i ∈ l, (mmaps i).f ≠ none → hasFlag (mmaps i).flags MAP_PRIVATE = false → (mmaps i).guardPage = false

theorem Separate.noGrowBack (h : Separate mmaps) {visits : List Word}
    (hback : NoGuardBack mmaps (toFree mmaps visits)) : NoGrowBack mmaps (toFree mmaps visits) := by
  intro i hi hf hpriv x hx k hfind
  obtain ⟨hk, hxk, -⟩ := covers_iff.mp (covers_of_findDesc hfind)
  obtain rfl := h.unique hk (valid_of_mem_toFree hi) hxk hx
  exact hback k hi hf hpriv

/-! ## `mmap` -/

variable {a : MmapArgs} {n : Nat}

theorem Separate.firstFit {r : Word} {i : Nat} (hs : Separate (s.proc p).mmaps)
    (hfree : ∀ i, ((s.proc p).mmaps i).valid → ∀ k < n,
      Disjoint ((s.proc p).mmaps i).range (pageRange (r + PGSIZE * .ofNat 32 k)))
    (hfit : FirstFit p a s t r n i) : Separate (t.proc p).mmaps := by
  have hle : i + n ≤ 32 := hfit.first.1.1
  have hnew : ∀ j : Index, i ≤ j.val → j.val < i + n → ((t.proc p).mmaps j).range =
      pageRange (r + PGSIZE * .ofNat 32 (j.val - i)) := by
    intro j h1 h2
    rw [MmapDesc.range, hfit.address j h1 h2]
  -- an old mapping and a page of the new one
  have hmixed : ∀ j k : Index, ¬ (i ≤ j.val ∧ j.val < i + n) → i ≤ k.val → k.val < i + n →
      ((t.proc p).mmaps j).valid → Disjoint ((t.proc p).mmaps j).range ((t.proc p).mmaps k).range := by
    intro j k hj h1 h2 hv
    rw [hfit.others j hj] at hv ⊢
    rw [hnew k h1 h2]
    exact hfree j hv _ (by omega)
  intro j k hjk hj hk
  by_cases hjn : i ≤ j.val ∧ j.val < i + n <;> by_cases hkn : i ≤ k.val ∧ k.val < i + n
  · have hne : j.val ≠ k.val := fun h => hjk (Fin.ext h)
    rw [hnew j hjn.1 hjn.2, hnew k hkn.1 hkn.2]
    exact disjoint_pages_of_ne r (by omega) (by omega) (by omega)
  · exact (hmixed k j hkn hjn.1 hjn.2 hk).symm
  · exact hmixed j k hjn hkn.1 hkn.2 hj
  · rw [hfit.others j hjn] at hj ⊢
    rw [hfit.others k hkn] at hk ⊢
    exact hs j k hjk hj hk

/-- The pages of a request are free where the code does not look: it looks up the first address of each
page, and only in mappings that end below `2 ^ 31`. -/
def RequestFree (mmaps : Mmaps) (vaPtr : Word) (a : MmapArgs) (n : Nat) : Prop :=
  ∀ k < n, ∀ i, (mmaps i).valid →
    if hasFlag a.flags MAP_FIXED then
      ((mmaps i).virtualAddress ∈ pageRange (a.addr + PGSIZE * .ofNat 32 k) →
        (mmaps i).virtualAddress = a.addr + PGSIZE * .ofNat 32 k) ∧
      (0x7FFFF000 ≤ (mmaps i).virtualAddress.toNat ∧ (mmaps i).virtualAddress.toNat < 2 ^ 31 →
        a.addr + PGSIZE * .ofNat 32 k ∉ (mmaps i).range)
    else
      Disjoint (mmaps i).range (pageRange (vaPtr + PGSIZE * .ofNat 32 k))

/-- What the code checks and what the request is asked for together make the pages free. -/
theorem free_of_fixedOk {vaPtr : Word}
    (hfix : hasFlag a.flags MAP_FIXED) (hreq : RequestFree mmaps vaPtr a n) (hok : fixedOk mmaps a n)
    (hi : (mmaps i).valid) {k : Nat} (hk : k < n) :
    Disjoint (mmaps i).range (pageRange (a.addr + PGSIZE * .ofNat 32 k)) := by
  have hcheck := hreq k hk i hi
  rw [if_pos hfix] at hcheck
  have hnot : ¬ (mmaps i).covers (a.addr + PGSIZE * .ofNat 32 k) := by
    simp only [fixedOk, Bool.and_eq_true, List.all_eq_true] at hok
    have := hok.2 k (List.mem_range.mpr hk) i (List.mem_finRange i)
    simpa [show PAGE_SIZE = PGSIZE from rfl] using this
  have hmem : a.addr + PGSIZE * .ofNat 32 k ∉ (mmaps i).range := by
    intro hmem
    refine hnot (covers_iff.mpr ⟨hi, hmem, ?_⟩)
    by_contra hwrap
    exact hcheck.2 (by omega) hmem
  rw [MmapDesc.range, disjoint_pageRange]
  constructor
  · by_contra hlt
    have heq := hcheck.1 (by rw [mem_pageRange]; omega)
    rw [MmapDesc.range, heq] at hmem
    exact hmem (mem_pageRange_self _)
  · rw [MmapDesc.range, mem_pageRange] at hmem
    omega

/-! ## Runs -/

/-- The pages of a request that passes the checks are free and its file is there; a guard page grows into a
slot whose old address is free; a `munmap` does not write a guard page back, which would grow it. -/
def DisjointGuard (s : State) : Op → Prop
  | .mmap p args => ∀ a n i, args = some a → Accepted s p a n i →
      RequestFree (s.proc p).mmaps s.vaPtr a n ∧ (hasFlag a.flags MAP_ANON ∨ (argfd (s.proc p) a.fd).isSome)
  | .munmap p args => ∀ addr length visits, args = some (addr, length) →
      pagesBelow (length + addr) (2 ^ 20 + 1) addr = some visits →
      NoGuardBack (s.proc p).mmaps (toFree (s.proc p).mmaps visits)
  | .fault p addr _ => GrowsApart (s.proc p).mmaps addr
  | .pipe _ => False
  | _ => True

theorem DisjointGuard.orderlyGuard {op : Op} (hs : Apart s) (hg : DisjointGuard s op) :
    OrderlyGuard Separate s op := by
  cases op with
  | mmap p args =>
    intro a n i ha h
    obtain ⟨hfree, hfile⟩ := hg a n i ha h
    refine ⟨hfile, fun u hfit => (hs.separate p).firstFit (fun j hj k hk => ?_) hfit⟩
    unfold MmapArgs.start
    split
    next hfix => exact free_of_fixedOk hfix hfree (by simpa [hfix] using h.fixed) hj hk
    next hfix => simpa [hfix] using hfree k hk j hj
  | munmap p args =>
    intro addr length visits ha hv
    exact (hs.separate p).noGrowBack (hg addr length visits ha hv)
  | fault p addr write =>
    intro i hfind hguard j hj hfree
    exact (hs.separate p).grow (hg i hfind hguard j hj hfree)
  | pipe p => exact hg
  | _ => trivial

/-- In every run under `DisjointGuard`, from a state with disjoint mappings and no pipe, the ranges of two
valid descriptors of a process are disjoint. -/
theorem disjoint_of_run (hs : Apart s) (hrun : Run exec DisjointGuard s t) (q : Fin NPROC) (hij : i ≠ j)
    (hi : ((t.proc q).mmaps i).valid)
    (hj : ((t.proc q).mmaps j).valid) : Disjoint ((t.proc q).mmaps i).range ((t.proc q).mmaps j).range := by
  have ht : Orderly Separate t := hrun.invariant (apart_iff.mp hs) fun t op u ht hg hx =>
    ht.step hereditary_separate (hg.orderlyGuard (apart_iff.mpr ht)) hx
  exact ht.tables q i j hij hi hj

theorem boot_not_valid (q : Fin NPROC) (i : Index) : ((boot.proc q).mmaps i).valid = false := by
  revert q i
  decide +kernel

theorem boot_apart : Apart boot := by
  refine ⟨fun q i j _ hi => ?_, by decide⟩
  simp [boot_not_valid] at hi

/-- A first request for two pages, with a fixed address or without one. -/
def bootRequest (flags : Word) : Op :=
  .mmap 1 (some ⟨0x60000000, 8192, PTE_W, MAP_PRIVATE ||| MAP_ANON ||| flags, 0, 0⟩)

/-- A request for two pages makes two mappings, and they are disjoint. -/
theorem disjoint_of_run_boot :
    ∃ t, Run exec DisjointGuard boot t ∧ ((t.proc 1).mmaps 0).valid ∧ ((t.proc 1).mmaps 1).valid ∧
      Disjoint ((t.proc 1).mmaps 0).range ((t.proc 1).mmaps 1).range := by
  have hguard : DisjointGuard boot (bootRequest MAP_FIXED) := by
    rintro a n - ⟨⟩ -
    refine ⟨fun k _ i hi => ?_, .inl (by decide)⟩
    simp [boot_not_valid] at hi
  have hx : (exec boot (bootRequest MAP_FIXED)).any
      (fun t => ((t.proc 1).mmaps 0).valid && ((t.proc 1).mmaps 1).valid) = true := by
    decide +kernel
  obtain ⟨t, ht, hvalid⟩ := Run.exists_of_any hx
  rw [Bool.and_eq_true] at hvalid
  have hrun : Run exec DisjointGuard boot t := .tail .refl hguard ht
  exact ⟨t, hrun, hvalid.1, hvalid.2, disjoint_of_run boot_apart hrun 1 (by decide) hvalid.1 hvalid.2⟩

/-- A mapping with a fixed address at the place where the next mapping without one goes: the second
`mmap` puts its pages on top of the first. -/
theorem mmap_overlaps :
    (∀ q i, ((boot.proc q).mmaps i).valid = false) ∧ ∃ t, Run exec (fun _ _ => True) boot t ∧
      ((t.proc 1).mmaps 0).valid ∧ ((t.proc 1).mmaps 2).valid ∧
      ¬ Disjoint ((t.proc 1).mmaps 0).range ((t.proc 1).mmaps 2).range := by
  refine ⟨boot_not_valid, ?_⟩
  have hx : (Run.execAll exec boot [bootRequest MAP_FIXED, bootRequest 0]).any (fun t =>
      ((t.proc 1).mmaps 0).valid && ((t.proc 1).mmaps 2).valid &&
      ((t.proc 1).mmaps 0).virtualAddress == ((t.proc 1).mmaps 2).virtualAddress) = true := by
    decide +kernel
  obtain ⟨t, hrun, ht⟩ := Run.exists_run hx
  simp only [Bool.and_eq_true, beq_iff_eq] at ht
  refine ⟨t, hrun, ht.1.1, ht.1.2, fun hdis => ?_⟩
  rw [MmapDesc.range, MmapDesc.range, ht.2] at hdis
  exact Set.disjoint_left.mp hdis (mem_pageRange_self _) (mem_pageRange_self _)

end Xv6
