import Xv6.Lib.Commutes
import Xv6.Boot
import Xv6.FirstTouch

/-!
# Growing a mapping

A mapping with `MAP_GROWSUP` ends in a guard page. When touched, it is meant to become a page of the mapping
and the next page the new guard page, if that is free and in the window; otherwise the process is killed.
`allocatePageGuard` decides by the next slot of the table instead: it kills when the slot is valid, and
otherwise makes it a guard page without filling it in.
-/

namespace Xv6

open Function (update update_self update_idem update_of_ne update_comm)
open Hoare

variable {p : Fin NPROC} {s t : State} {i : Index} {a : Word}

/-! ## What does not depend on the table -/

/-- The state with another table of mappings for `p`. -/
def State.retable (s : State) (p : Fin NPROC)
    (h : Mmaps → Mmaps) : State :=
  s.updProc p fun q => { q with mmaps := h q.mmaps }

open State (retable updProc)

section Retable
variable {h : Mmaps → Mmaps}

@[simp] theorem retable_mmaps : ((s.retable p h).proc p).mmaps = h (s.proc p).mmaps := by
  simp [retable]

@[simp] theorem retable_pgdir (q : Fin NPROC) : ((s.retable p h).proc q).pgdir = (s.proc q).pgdir := by
  by_cases hq : q = p
  · subst hq
    simp [retable]
  · simp [retable, hq]

@[simp] theorem retable_killed (q : Fin NPROC) : ((s.retable p h).proc q).killed = (s.proc q).killed := by
  by_cases hq : q = p
  · subst hq
    simp [retable]
  · simp [retable, hq]

@[simp] theorem retable_fs : (s.retable p h).fs = s.fs := rfl
@[simp] theorem retable_ram : (s.retable p h).ram = s.ram := rfl
@[simp] theorem retable_ptableLock : (s.retable p h).ptableLock = s.ptableLock := rfl

theorem commutes_onRam {α : Type} (m : RamM α) : Commutes (retable · p h) (onRam m) := by
  intro s
  unfold onRam
  rw [retable_ram]
  cases m s.ram <;> rfl

theorem commutes_wakeup : Commutes (retable · p h) wakeup :=
  .get (fun _ => rfl) fun _ => .ite (.throw _) (.pure _)

theorem commutes_ilock (n : Nat) : Commutes (retable · p h) (ilock n) :=
  .get (fun _ => rfl) fun _ => .ite (.throw _) (.ite (.throw _) (.ite (.throw _) (.modify fun _ => rfl)))

theorem commutes_iunlock (n : Nat) : Commutes (retable · p h) (iunlock n) :=
  .get (fun _ => rfl) fun _ => .ite (.throw _) (.bind (.modify fun _ => rfl) fun _ => commutes_wakeup)

theorem commutes_piperead (q : Fin NPROC) (pg : Word) (n : Nat) :
    Commutes (retable · p h) (piperead q pg n) := by
  refine .get (fun s => by simp) fun s => .ite (.ite (.pure _) (.throw _)) ?_
  exact .bind (.modify fun _ => rfl) fun _ => .bind commutes_wakeup fun _ => .pure _

theorem commutes_fileread (q : Fin NPROC) (f : Fin NFILE) (n : Nat) :
    Commutes (retable · p h) (fileread q f n) := by
  refine .get (fun s => rfl) fun s => .ite (.pure _) ?_
  cases (s.fs.file f).type with
  | none => exact .throw _
  | pipe => exact commutes_piperead q _ n
  | inode =>
    refine .bind (commutes_ilock _) fun _ => ?_
    dsimp only
    split
    · exact .ite (.throw _) (.bind (commutes_iunlock _) fun _ => .pure _)
    · exact .bind (.modify fun _ => rfl) fun _ => .bind (commutes_iunlock _) fun _ => .pure _

theorem commutes_storeLow (va w : Word) : Commutes (retable · p h) (storeLow p va w) :=
  .get (fun s => by simp) fun _ => .ite (commutes_onRam _) (.throw _)

theorem commutes_mmapReadNull (f : Option (Fin NFILE)) :
    Commutes (retable · p h) (mmapReadNull p f) := by
  cases f with
  | some f => exact .bind (.modify fun _ => rfl) fun _ => commutes_fileread p f 4096
  | none =>
    refine .bind (commutes_storeLow 20 0) fun _ => .get (fun s => ?_) fun s => ?_
    · simp [State.userByte, State.userWord]
    · exact .ite (.pure _) (.ite (.throw _) (.throw _))

theorem commutes_bufferPage (o : Option Word) : Commutes (retable · p h) (bufferPage p o) := by
  cases o with
  | some b => exact .pure b
  | none =>
    refine .get (fun s => by simp) fun s => .ite ?_ (.throw _)
    exact .bind (commutes_onRam _) fun _ => .pure _

theorem commutes_setPgdir (d : PgDir) : Commutes (retable · p h) (setPgdir p d) :=
  .modify fun s => by simp [retable, updProc]

theorem commutes_kill : Commutes (retable · p h) (kill p) :=
  .modify fun s => by simp [retable, updProc]

end Retable

/-- The change leaves slot `i` as far as bringing its page in depends on it. -/
structure Respects (i : Index) (h : Mmaps → Mmaps) : Prop where
  f : ∀ m, (h m i).f = (m i).f
  flags : ∀ m, (h m i).flags = (m i).flags
  prot : ∀ m, (h m i).prot = (m i).prot
  page : ∀ m w, h (update m i { m i with page := w }) = update (h m) i { h m i with page := w }

section Respects
variable {h : Mmaps → Mmaps} (hh : Respects i h)
include hh

theorem Respects.commutes_readFilePage (mem : Word) :
    Commutes (retable · p h) (readFilePage p i mem) := by
  refine .bind (commutes_onRam _) fun o => .bind (commutes_bufferPage o) fun page => ?_
  refine .bind (commutes_onRam _) fun _ => .get (fun s => by simp [hh.f]) fun s => ?_
  refine .bind (commutes_mmapReadNull _) fun r => .bind (commutes_onRam _) fun _ => ?_
  refine .bind (commutes_onRam _) fun _ => .modify fun s => ?_
  simp only [retable, State.updDesc, updProc, Proc.updDesc, update_self, update_idem, hh.page]

theorem Respects.commutes_nonGuard (a : Word) :
    Commutes (retable · p h) (allocatePageNonGuard p i a) := by
  refine .bind (commutes_onRam _) fun o => ?_
  cases o with
  | none => exact .throw _
  | some mem =>
    refine .bind (commutes_onRam _) fun _ => .get (fun s => by simp [hh.flags, hh.prot]) fun s => ?_
    refine .bind (commutes_onRam _) fun r => .bind (commutes_setPgdir _) fun _ => .ite ?_ ?_
    · exact .bind (commutes_onRam _) fun _ => .bind commutes_kill fun _ => .throw _
    · exact .ite (.pure _) (hh.commutes_readFilePage mem)

end Respects

/-! ## Ordinary pages and guard pages -/

/-- The table after the guard page in slot `i` has grown into slot `j`. -/
def growTable (i j : Index) (m : Mmaps) : Mmaps :=
  update (update m i { m i with guardPage := false }) j
    { m j with valid := true, guardPage := true }

variable {j : Index} {m : Mmaps}

theorem respects_growTable (hj : j ≠ i) : Respects i (growTable i j) where
  f m := by simp [growTable, hj.symm]
  flags m := by simp [growTable, hj.symm]
  prot m := by simp [growTable, hj.symm]
  page m w := by
    funext k
    by_cases hkj : k = j
    · subst hkj
      simp [growTable, hj]
    · by_cases hki : k = i
      · subst hki
        simp [growTable, hkj]
      · simp [growTable, hkj, hki]

theorem respects_update {k : Index} (hk : k ≠ i) (md : MmapDesc) :
    Respects i fun m => update m k md where
  f m := by simp [hk.symm]
  flags m := by simp [hk.symm]
  prot m := by simp [hk.symm]
  page m w := by
    rw [update_of_ne hk.symm, update_comm hk]

/-- Bringing an ordinary page in changes the other slots not at all, and its own only by the page buffer. -/
theorem nonGuard_table {u : State} (hrun : allocatePageNonGuard p i a s = .ok () u) :
    (∀ k, k ≠ i → (u.proc p).mmaps k = (s.proc p).mmaps k) ∧
    ((u.proc p).mmaps i).frame = ((s.proc p).mmaps i).frame := by
  constructor
  · intro k hk
    have hfix : s.retable p (fun m => update m k ((s.proc p).mmaps k)) = s := by
      simp [retable, updProc]
    have := ((respects_update hk ((s.proc p).mmaps k)).commutes_nonGuard a).fixed hfix hrun
    rw [← this, retable_mmaps, update_self]
  · have hC := calm_of_frame (p := p) fun m => m i = ((s.proc p).mmaps i).frame
    have := (hC.allocatePageNonGuard i a).run s rfl
    rwa [hrun] at this

/-- A page is taken from memory, cleared and put into the page table: `u` is the state then. -/
def Prepared (p : Fin NPROC) (i : Index) (a : Word) (s : State) (mem : Word) (u : State) : Prop :=
  ∃ r₁ r₂ r₃ d, kalloc s.ram = .ok (some mem) r₁ ∧ memset mem 0 r₁ = .ok () r₂ ∧
    mapPage (s.proc p).pgdir (pgRoundDown a) mem ((s.proc p).mmaps i).prot r₂ = .ok (true, d) r₃ ∧
    u = { s with ram := r₃ }.updProc p fun q => { q with pgdir := d }

/-- What is left to do then: to read the page of a file. -/
def fillPage (p : Fin NPROC) (i : Index) (flags mem : Word) : K Unit :=
  if hasFlag flags MAP_ANON then pure () else readFilePage p i mem

theorem onRam_bind_eq_ok {α : Type} {c : RamM α} {k : α → K Unit} :
    (onRam c >>= k) s = .ok () t ↔ ∃ x r, c s.ram = .ok x r ∧ k x { s with ram := r } = .ok () t := by
  simp only [bind_eq_ok, onRam_eq_ok]
  constructor
  · rintro ⟨x, _, ⟨r, hr, rfl⟩, h⟩
    exact ⟨x, r, hr, h⟩
  · rintro ⟨x, r, hr, h⟩
    exact ⟨x, _, ⟨r, hr, rfl⟩, h⟩

theorem nonGuard_eq_ok : allocatePageNonGuard p i a s = .ok () t ↔
    ∃ mem u, Prepared p i a s mem u ∧ fillPage p i ((s.proc p).mmaps i).flags mem u = .ok () t := by
  unfold allocatePageNonGuard
  constructor
  · intro h
    obtain ⟨o, r₁, hk, h⟩ := onRam_bind_eq_ok.mp h
    cases o with
    | none => cases h
    | some mem =>
      obtain ⟨_, r₂, hm, h⟩ := onRam_bind_eq_ok.mp h
      rw [bind_ok (get_run _)] at h
      obtain ⟨⟨ok, d⟩, r₃, hp, h⟩ := onRam_bind_eq_ok.mp h
      cases ok with
      | false =>
        obtain ⟨_, s₄, -, h⟩ := bind_eq_ok.mp h
        obtain ⟨_, s₅, -, h⟩ := bind_eq_ok.mp h
        cases h
      | true => exact ⟨mem, _, ⟨r₁, r₂, r₃, d, hk, hm, hp, rfl⟩, h⟩
  · rintro ⟨mem, _, ⟨r₁, r₂, r₃, d, hk, hm, hp, rfl⟩, h⟩
    refine onRam_bind_eq_ok.mpr ⟨some mem, r₁, hk, ?_⟩
    refine onRam_bind_eq_ok.mpr ⟨(), r₂, hm, ?_⟩
    rw [bind_ok (get_run _)]
    exact onRam_bind_eq_ok.mpr ⟨(true, d), r₃, hp, h⟩

section
variable (hj : j.val = i.val + 1) (hfree : ((s.proc p).mmaps j).valid = false)
include hj hfree

theorem guard_eq_ok :
    allocatePageGuard p i a s = .ok () t ↔ ∃ mem u, Prepared p i a s mem u ∧
      fillPage p i ((s.proc p).mmaps i).flags mem (u.retable p (growTable i j)) = .ok () t := by
  have hlt : i.val + 1 < PAGE_LIMIT := hj ▸ j.isLt
  obtain rfl : j = ⟨i.val + 1, hlt⟩ := Fin.ext hj
  have hne : (⟨i.val + 1, hlt⟩ : Index) ≠ i := Fin.ne_of_gt (Nat.lt_succ_self i.val)
  -- the changes to the two slots are made at different times, with nothing in between that sees them
  have hstate : ∀ r d, (({ s.updDesc p i (fun md => { md with guardPage := false }) with ram := r }.updProc p
      fun q => { q with pgdir := d }).updDesc p ⟨i.val + 1, hlt⟩ fun md =>
        { md with valid := true, guardPage := true }) =
      ({ s with ram := r }.updProc p fun q => { q with pgdir := d }).retable p
        (growTable i ⟨i.val + 1, hlt⟩) := by
    intro r d
    simp [retable, State.updDesc, updProc, Proc.updDesc, growTable, hne]
  unfold allocatePageGuard
  rw [bind_ok (get_run s), dif_pos hlt, if_neg (by simp [hfree]), bind_ok (modify_run _ s)]
  constructor
  · intro h
    obtain ⟨o, r₁, hk, h⟩ := onRam_bind_eq_ok.mp h
    cases o with
    | none => cases h
    | some mem =>
      obtain ⟨_, r₂, hm, h⟩ := onRam_bind_eq_ok.mp h
      obtain ⟨⟨ok, d⟩, r₃, hp, h⟩ := onRam_bind_eq_ok.mp h
      cases ok with
      | false => cases h
      | true =>
        refine ⟨mem, _, ⟨r₁, r₂, r₃, d, hk, hm, hp, rfl⟩, ?_⟩
        rw [← hstate]
        exact h
  · rintro ⟨mem, _, ⟨r₁, r₂, r₃, d, hk, hm, hp, rfl⟩, h⟩
    refine onRam_bind_eq_ok.mpr ⟨some mem, r₁, hk, ?_⟩
    refine onRam_bind_eq_ok.mpr ⟨(), r₂, hm, ?_⟩
    refine onRam_bind_eq_ok.mpr ⟨(true, d), r₃, hp, ?_⟩
    rw [← hstate] at h
    exact h

/-- Growing a guard page is bringing it in as an ordinary page, with the table changed. -/
theorem guard_eq_ok_iff :
    allocatePageGuard p i a s = .ok () t ↔
      ∃ u, allocatePageNonGuard p i a s = .ok () u ∧ t = u.retable p (growTable i j) := by
  have hne : j ≠ i := fun h => by rw [h] at hj; omega
  have hfill : ∀ flags mem, Commutes (retable · p (growTable i j)) (fillPage p i flags mem) :=
    fun flags mem => .ite (.pure _) ((respects_growTable hne).commutes_readFilePage mem)
  rw [guard_eq_ok hj hfree]
  simp only [nonGuard_eq_ok]
  constructor
  · rintro ⟨mem, u, hu, h⟩
    rw [hfill _ mem u] at h
    cases hv : fillPage p i ((s.proc p).mmaps i).flags mem u with
    | ok x v =>
      rw [hv] at h
      cases h
      exact ⟨v, ⟨mem, u, hu, hv⟩, rfl⟩
    | error e v =>
      rw [hv] at h
      cases h
  · rintro ⟨v, ⟨mem, u, hu, hv⟩, rfl⟩
    exact ⟨mem, u, hu, (hfill _ mem).run_ok hv⟩

end

/-! ## Growth -/

/-- The page after the one of slot `i` is taken by another mapping, or is not in the window. -/
def Blocked (m : Mmaps) (i : Index) : Prop :=
  (∃ k, k ≠ i ∧ (m k).valid ∧ ¬ Disjoint (m k).range (pageRange ((m i).virtualAddress + PAGE_SIZE))) ∨
  ¬ (VIRT_ADDR_START.toNat ≤ (m i).virtualAddress.toNat + 4096 ∧
    (m i).virtualAddress.toNat + 4096 + 4096 ≤ VIRT_ADDR_END.toNat)

/-- There is the memory, and the file if there is one, to bring the page in as an ordinary one. -/
def Served (p : Fin NPROC) (i : Index) (a : Word) (s : State) : Prop :=
  ∃ u, allocatePageNonGuard p i a s = .ok () u

/-- Slot `i` holds an ordinary page now, slot `j` that was free holds a guard page of the same kind for the
page after it, and the other slots are as they were. -/
structure Grown (i j : Index) (m m' : Mmaps) : Prop where
  page : (m' i).frame = { (m i).frame with guardPage := false }
  free : (m j).valid = false
  valid : (m' j).valid
  guard : (m' j).guardPage
  next : (m' j).virtualAddress = (m i).virtualAddress + PAGE_SIZE
  kind : (m' j).prot = (m i).prot ∧ (m' j).flags = (m i).flags ∧ (m' j).f = (m i).f
  others : ∀ k, k ≠ i → k ≠ j → m' k = m k

/-- What a fault at `a` in the guard page in slot `i` is meant to do. -/
def GrowsRight (p : Fin NPROC) (i : Index) (a : Word) (s : State) : Prop :=
  (Blocked (s.proc p).mmaps i → pageFault p a s = .ok () (s.updProc p fun q => { q with killed := true })) ∧
  (¬ Blocked (s.proc p).mmaps i → Served p i a s →
    ∃ t j, pageFault p a s = .ok () t ∧ Grown i j (s.proc p).mmaps (t.proc p).mmaps)

/-- The slot after a guard page still holds what the next guard page needs. -/
def LeftOver (m : Mmaps) (i : Index) : Prop :=
  ∃ j : Index, j.val = i.val + 1 ∧ (m j).valid = false ∧
    (m j).virtualAddress = (m i).virtualAddress + PAGE_SIZE ∧
    (m j).prot = (m i).prot ∧ (m j).flags = (m i).flags ∧ (m j).f = (m i).f

/-- A fault at `a` kills: no mapping is found, or a guard page and the next slot is valid. -/
def Kills (m : Mmaps) (a : Word) : Prop :=
  ∀ k, findDesc m a = some k → (m k).guardPage ∧ ∃ j : Index, j.val = k.val + 1 ∧ (m j).valid

theorem pageFault_some {k : Index} (hfind : findDesc (s.proc p).mmaps a = some k) :
    pageFault p a s = if ((s.proc p).mmaps k).guardPage then allocatePageGuard p k a s
      else allocatePageNonGuard p k a s := by
  rw [pageFault, bind_ok (get_run s), hfind]
  dsimp only
  split <;> rfl

theorem guard_valid (hj : j.val = i.val + 1) (hv : ((s.proc p).mmaps j).valid) :
    allocatePageGuard p i a s = .ok () (s.updProc p fun q => { q with killed := true }) := by
  have hlt : i.val + 1 < PAGE_LIMIT := hj ▸ j.isLt
  obtain rfl : j = ⟨i.val + 1, hlt⟩ := Fin.ext hj
  rw [allocatePageGuard, bind_ok (get_run s), dif_pos hlt, if_pos hv]
  rfl

theorem guard_last (hi : ¬ i.val + 1 < PAGE_LIMIT) (t : State) : allocatePageGuard p i a s ≠ .ok () t := by
  rw [allocatePageGuard, bind_ok (get_run s), dif_neg hi]
  rintro ⟨⟩

theorem nonGuard_ne_kill (k : Index) :
    allocatePageNonGuard p k a s ≠ .ok () (s.updProc p fun q => { q with killed := true }) := by
  intro hrun
  have := (touched_nonGuard (q := p) (t := s) k a).run s rfl
  rw [hrun] at this
  obtain ⟨mem, htouched⟩ := this
  obtain ⟨fl, hfl, hsuffix⟩ := htouched.free
  have hlen := hsuffix.length_le
  rw [updProc_ram, hfl, List.length_cons] at hlen
  omega

theorem pageFault_kills : pageFault p a s = .ok () (s.updProc p fun q => { q with killed := true }) ↔
    Kills (s.proc p).mmaps a := by
  cases hfind : findDesc (s.proc p).mmaps a with
  | none =>
    refine iff_of_true ?_ fun k hk => by rw [hfind] at hk; cases hk
    rw [pageFault, bind_ok (get_run s), hfind]
    rfl
  | some k =>
    have hkills : Kills (s.proc p).mmaps a ↔ ((s.proc p).mmaps k).guardPage ∧
        ∃ j : Index, j.val = k.val + 1 ∧ ((s.proc p).mmaps j).valid := by
      simp [Kills, hfind]
    rw [hkills, pageFault_some hfind]
    by_cases hguard : ((s.proc p).mmaps k).guardPage
    · rw [if_pos hguard]
      by_cases hlt : k.val + 1 < PAGE_LIMIT
      · by_cases hv : ((s.proc p).mmaps ⟨k.val + 1, hlt⟩).valid
        · exact iff_of_true (guard_valid rfl hv) ⟨hguard, _, rfl, hv⟩
        · refine iff_of_false (fun hrun => ?_) ?_
          · -- the guard page would still be one
            obtain ⟨u, -, hu⟩ := (guard_eq_ok_iff rfl (by simpa using hv)).mp hrun
            have hslot := congrArg (fun x : State => ((x.proc p).mmaps k).guardPage) hu
            simp only [updProc_self, retable_mmaps, growTable] at hslot
            rw [update_of_ne (Fin.ne_of_lt (Nat.lt_succ_self k.val)), update_self, hguard] at hslot
            cases hslot
          · rintro ⟨-, j, hj, hjv⟩
            obtain rfl : j = ⟨k.val + 1, hlt⟩ := Fin.ext hj
            exact hv hjv
      · refine iff_of_false (guard_last hlt _) ?_
        rintro ⟨-, j, hj, -⟩
        exact hlt (hj ▸ j.isLt)
    · rw [if_neg hguard]
      exact iff_of_false (nonGuard_ne_kill k) fun h => hguard h.1

theorem grown_of_leftOver (hserved : Served p i a s) (hfind : findDesc (s.proc p).mmaps a = some i)
    (hguard : ((s.proc p).mmaps i).guardPage) (hleft : LeftOver (s.proc p).mmaps i) :
    ∃ t, pageFault p a s = .ok () t ∧
      ∃ j, j.val = i.val + 1 ∧ Grown i j (s.proc p).mmaps (t.proc p).mmaps := by
  obtain ⟨u, hu⟩ := hserved
  obtain ⟨j, hj, hfree, hva, hkind⟩ := hleft
  have hne : j ≠ i := fun h => by rw [h] at hj; omega
  obtain ⟨hother, hframe⟩ := nonGuard_table hu
  refine ⟨u.retable p (growTable i j), ?_, j, hj, ?_⟩
  · rw [pageFault_some hfind, if_pos hguard]
    exact (guard_eq_ok_iff hj hfree).mpr ⟨u, hu, rfl⟩
  · have hslot : growTable i j (u.proc p).mmaps j =
        { (s.proc p).mmaps j with valid := true, guardPage := true } := by
      rw [growTable, update_self, hother j hne]
    rw [retable_mmaps]
    refine ⟨?_, hfree, hslot ▸ rfl, hslot ▸ rfl, hslot ▸ hva, hslot ▸ hkind, fun k hki hkj => ?_⟩
    · rw [growTable, update_of_ne hne.symm, update_self, ← hframe]
      rfl
    · rw [growTable, update_of_ne hkj, update_of_ne hki, hother k hki]

/-- A fault grows the guard page only if it is found and the next slot holds the right things. -/
theorem leftOver_of_grown (hv : ((s.proc p).mmaps i).valid) (hguard : ((s.proc p).mmaps i).guardPage)
    (hrun : pageFault p a s = .ok () t) (hgrown : Grown i j (s.proc p).mmaps (t.proc p).mmaps) :
    findDesc (s.proc p).mmaps a = some i ∧ LeftOver (s.proc p).mmaps i := by
  obtain ⟨hi, hfree, hjv, -, hva, hkind, -⟩ := hgrown
  have hordinary : ((t.proc p).mmaps i).guardPage = false := congrArg MmapDesc.guardPage hi
  -- no fault that leaves the flag of slot `i` is the right one
  have hchanged : ((t.proc p).mmaps i).guardPage ≠ ((s.proc p).mmaps i).guardPage := by
    rw [hordinary, hguard]
    exact Bool.false_ne_true
  by_cases hkills : Kills (s.proc p).mmaps a
  · have hkill := pageFault_kills.mpr hkills
    rw [hrun] at hkill
    injection hkill with _ ht
    rw [ht, updProc_self] at hchanged
    exact absurd rfl hchanged
  cases hfind : findDesc (s.proc p).mmaps a with
  | none => exact absurd (fun k hk => by rw [hfind] at hk; cases hk) hkills
  | some k =>
    rw [pageFault_some hfind] at hrun
    by_cases hgk : ((s.proc p).mmaps k).guardPage
    · rw [if_pos hgk] at hrun
      have hlt : k.val + 1 < PAGE_LIMIT := by
        by_contra hlt
        exact guard_last hlt _ hrun
      have hnext : ((s.proc p).mmaps ⟨k.val + 1, hlt⟩).valid = false := by
        by_contra hnext
        refine hkills fun k' hk' => ?_
        rw [hfind] at hk'
        cases hk'
        exact ⟨hgk, ⟨k.val + 1, hlt⟩, rfl, by simpa using hnext⟩
      obtain ⟨u, hu, rfl⟩ := (guard_eq_ok_iff rfl hnext).mp hrun
      obtain ⟨hother, -⟩ := nonGuard_table hu
      have hinext : i ≠ ⟨k.val + 1, hlt⟩ := by
        rintro rfl
        rw [hnext] at hv
        cases hv
      rw [retable_mmaps] at *
      have hki : i = k := by
        by_contra hki
        rw [growTable, update_of_ne hinext, update_of_ne hki, hother i hki] at hchanged
        exact hchanged rfl
      subst hki
      -- the only slot that became valid is the next one
      have hij : j ≠ i := by
        rintro rfl
        rw [hfree] at hv
        cases hv
      have hj : j = ⟨i.val + 1, hlt⟩ := by
        by_contra hj
        rw [growTable, update_of_ne hj, update_of_ne hij, hother j hij, hfree] at hjv
        cases hjv
      subst hj
      rw [growTable, update_self, hother _ hij] at hva hkind
      exact ⟨rfl, _, rfl, hnext, hva, hkind⟩
    · rw [if_neg hgk] at hrun
      obtain ⟨hother, hframe⟩ := nonGuard_table hrun
      have hki : i ≠ k := by
        rintro rfl
        exact hgk hguard
      rw [hother i hki] at hchanged
      exact absurd rfl hchanged

/-! ## Growing again and again -/

/-- `n` faults, one after the other, each in the guard page that the one before left: the first in slot `i`.
Each time the page above is free, the page can be brought in, and the next slot holds what it needs. -/
inductive Growths (p : Fin NPROC) : Nat → Index → State → State → Prop
  | done (i : Index) (s : State) : Growths p 0 i s s
  | fault {n : Nat} {i j : Index} {a : Word} {s u t : State}
    (hfree : ¬ Blocked (s.proc p).mmaps i) (hserved : Served p i a s)
    (hfind : findDesc (s.proc p).mmaps a = some i) (hleft : LeftOver (s.proc p).mmaps i)
    (hrun : pageFault p a s = .ok () u) (hj : j.val = i.val + 1) (hrest : Growths p n j u t) :
    Growths p (n + 1) i s t

/-- From slot `i` on there are `n` ordinary pages and a guard page, one page after the other and of the same
kind; the slots below are as they were. -/
structure Extended (n : Nat) (i : Index) (m m' : Mmaps) : Prop where
  pages : ∀ k ≤ n, ∃ j : Index, j.val = i.val + k ∧ (m' j).valid ∧
    (m' j).virtualAddress = (m i).virtualAddress + PAGE_SIZE * .ofNat 32 k ∧
    (m' j).prot = (m i).prot ∧ (m' j).flags = (m i).flags ∧ (m' j).f = (m i).f ∧ ((m' j).guardPage ↔ k = n)
  below : ∀ j : Index, j.val < i.val → m' j = m j

theorem extended_zero (hv : (m i).valid) (hg : (m i).guardPage) :
    Extended 0 i m m where
  pages k hk := by
    obtain rfl : k = 0 := Nat.le_zero.mp hk
    exact ⟨i, rfl, hv, by simp, rfl, rfl, rfl, iff_of_true hg rfl⟩
  below _ _ := rfl

theorem Extended.cons {n : Nat} {m' m'' : Mmaps}
    (hj : j.val = i.val + 1) (hv : (m i).valid) (h : Grown i j m m') (hrest : Extended n j m' m'') :
    Extended (n + 1) i m m'' where
  pages k hk := by
    cases k with
    | zero =>
      have hslot : m'' i = m' i := hrest.below i (by omega)
      refine ⟨i, rfl, ?_⟩
      rw [hslot]
      refine ⟨(congrArg MmapDesc.valid h.page).trans hv, ?_, (congrArg MmapDesc.prot h.page :),
        (congrArg MmapDesc.flags h.page :), (congrArg MmapDesc.f h.page :), iff_of_false ?_ (by omega)⟩
      · rw [BitVec.mul_zero, BitVec.add_zero]
        exact (congrArg MmapDesc.virtualAddress h.page :)
      · have hguard : (m' i).guardPage = false := congrArg MmapDesc.guardPage h.page
        rw [hguard]
        exact Bool.false_ne_true
    | succ k =>
      obtain ⟨j', hj', hv', hva, hprot, hflags, hf, hguard⟩ := hrest.pages k (by omega)
      refine ⟨j', by omega, hv', ?_, hprot.trans h.kind.1, hflags.trans h.kind.2.1, hf.trans h.kind.2.2,
        hguard.trans (Nat.succ_inj (a := k) (b := n)).symm⟩
      rw [hva, h.next]
      exact add_page_mul _ k
  below j' hj' := by
    rw [hrest.below j' (by omega)]
    refine h.others j' ?_ ?_
    · rintro rfl
      exact lt_irrefl _ hj'
    · rintro rfl
      omega

theorem Growths.extended {n : Nat} (h : Growths p n i s t) (hv : ((s.proc p).mmaps i).valid)
    (hg : ((s.proc p).mmaps i).guardPage) : Extended n i (s.proc p).mmaps (t.proc p).mmaps := by
  induction h with
  | done i s => exact extended_zero hv hg
  | @fault n i j a s u t hfree hserved hfind hleft hrun hj hrest ih =>
    obtain ⟨u', hrun', j', hj', hgrown⟩ := grown_of_leftOver hserved hfind hg hleft
    rw [hrun] at hrun'
    cases hrun'
    obtain rfl : j = j' := Fin.ext (hj.trans hj'.symm)
    exact (ih hgrown.valid hgrown.guard).cons hj hv hgrown

/-! ## The theorem -/

/-- For which tables the guard page in slot `i` grows as it should when it is touched at `a`. Where the next
page is not free, the fault has to kill; where it is, the guard page has to be the first descriptor that is
found and the next slot has to hold the right things already. Then faults one after the other make the
mapping longer page by page. -/
theorem guard_growth (s : State) (p : Fin NPROC) (i : Index)
    (hv : ((s.proc p).mmaps i).valid) (hg : ((s.proc p).mmaps i).guardPage) :
    (∀ a, GrowsRight p i a s ↔ (Blocked (s.proc p).mmaps i → Kills (s.proc p).mmaps a) ∧
      (¬ Blocked (s.proc p).mmaps i → Served p i a s →
        findDesc (s.proc p).mmaps a = some i ∧ LeftOver (s.proc p).mmaps i)) ∧
    ∀ n t, Growths p n i s t → Extended n i (s.proc p).mmaps (t.proc p).mmaps := by
  refine ⟨fun a => and_congr (imp_congr_right fun _ => pageFault_kills) ?_, fun n t h => h.extended hv hg⟩
  refine imp_congr_right fun _ => imp_congr_right fun hserved => ⟨?_, ?_⟩
  · rintro ⟨t, j, hrun, hgrown⟩
    exact leftOver_of_grown hv hg hrun hgrown
  · rintro ⟨hfind, hleft⟩
    obtain ⟨t, hrun, j, -, hgrown⟩ := grown_of_leftOver hserved hfind hg hleft
    exact ⟨t, j, hrun, hgrown⟩

/-- With a page and a guard page at the start of the window and nothing else, the guard page can grow. -/
theorem not_blocked (hvalid : ∀ k, (m k).valid → k = 0 ∨ k = 1)
    (h0 : (m 0).virtualAddress = VIRT_ADDR_START) (h1 : (m 1).virtualAddress = VIRT_ADDR_START + PGSIZE) :
    ¬ Blocked m 1 := by
  rintro (⟨k, hk, hv, hmeet⟩ | hout)
  · obtain rfl := (hvalid k hv).resolve_right hk
    refine hmeet ?_
    rw [MmapDesc.range, h0, h1]
    exact disjoint_pages VIRT_ADDR_START (k := 2) (by decide) (by decide)
  · rw [h1] at hout
    exact hout (by decide)

/-- Descriptor `k` of a mapping with one page and a guard page; the one after them is left over. -/
def bootDesc (k : Nat) : MmapDesc where
  virtualAddress := VIRT_ADDR_START + PGSIZE * .ofNat 32 k
  length := 4096
  flags := MAP_PRIVATE ||| MAP_ANON ||| MAP_GROWSUP
  prot := PTE_W
  ref := 1
  valid := k < 2
  guardPage := k == 1

/-- Process 1 has the mapping, and the third slot is left over from a longer one. -/
def bootLeftOver : State :=
  boot.updProc 1 fun q => { q with mmaps := fun k => if k.val ≤ 2 then bootDesc k.val else {} }

/-- There the guard page grows. -/
theorem guard_growth_leftOver : ((bootLeftOver.proc 1).mmaps 1).valid ∧
    ((bootLeftOver.proc 1).mmaps 1).guardPage ∧ GrowsRight 1 1 0x60001000 bootLeftOver ∧
    ∃ t j, pageFault 1 0x60001000 bootLeftOver = .ok () t ∧
      Grown 1 j (bootLeftOver.proc 1).mmaps (t.proc 1).mmaps := by
  have hv : ((bootLeftOver.proc 1).mmaps 1).valid := by decide
  have hg : ((bootLeftOver.proc 1).mmaps 1).guardPage := by decide
  have hfree : ¬ Blocked (bootLeftOver.proc 1).mmaps 1 :=
    not_blocked (by decide +kernel) (by decide) (by decide)
  have hright := ((guard_growth bootLeftOver 1 1 hv hg).1 0x60001000).mpr
    ⟨fun h => absurd h hfree, fun _ _ => ⟨by decide +kernel, 2, by decide⟩⟩
  have hx : returns (allocatePageNonGuard 1 1 0x60001000 bootLeftOver) fun _ _ => true := by decide +kernel
  obtain ⟨_, u, hserved, -⟩ := exists_of_returns hx
  exact ⟨hv, hg, hright, hright.2 hfree ⟨u, hserved⟩⟩

/-- A page with a guard page, in the first two slots. The third one was never used, so the guard page grows
into page `0` and not into the page above. -/
theorem guard_growth_fresh : ∃ t u, Run exec (fun _ _ => True) boot t ∧
    ((t.proc 1).mmaps 1).valid ∧ ((t.proc 1).mmaps 1).guardPage ∧
    hasFlag ((t.proc 1).mmaps 1).flags MAP_GROWSUP ∧ 0x60001000 ∈ ((t.proc 1).mmaps 1).range ∧
    ¬ GrowsRight 1 1 0x60001000 t ∧ pageFault 1 0x60001000 t = .ok () u ∧ ((u.proc 1).mmaps 2).valid ∧
    ((u.proc 1).mmaps 2).virtualAddress = 0 := by
  have hx : (Run.execAll exec boot [.mmap 1 (some
      ⟨0, 4096, PTE_W, MAP_PRIVATE ||| MAP_ANON ||| MAP_GROWSUP, 0, 0⟩)]).any (fun t =>
      ((t.proc 1).mmaps 1).valid && ((t.proc 1).mmaps 1).guardPage &&
      hasFlag ((t.proc 1).mmaps 1).flags MAP_GROWSUP &&
      ((t.proc 1).mmaps 0).virtualAddress == VIRT_ADDR_START &&
      ((t.proc 1).mmaps 1).virtualAddress == VIRT_ADDR_START + PGSIZE &&
      ((t.proc 1).mmaps 2).virtualAddress == 0 &&
      decide (∀ k, ((t.proc 1).mmaps k).valid → k = 0 ∨ k = 1) &&
      returns (allocatePageNonGuard 1 1 0x60001000 t) (fun _ _ => true) &&
      returns (pageFault 1 0x60001000 t) fun _ u => ((u.proc 1).mmaps 2).valid &&
        ((u.proc 1).mmaps 2).virtualAddress == 0) = true := by decide +kernel
  obtain ⟨t, hrun, ht⟩ := Run.exists_run hx
  simp only [Bool.and_eq_true, beq_iff_eq, decide_eq_true_eq] at ht
  obtain ⟨⟨⟨⟨⟨⟨⟨⟨hv, hg⟩, hflags⟩, h0⟩, h1⟩, h2⟩, hvalid⟩, hserved⟩, hfault⟩ := ht
  obtain ⟨_, v, hserved, -⟩ := exists_of_returns hserved
  obtain ⟨_, u, hfault, hu⟩ := exists_of_returns hfault
  rw [Bool.and_eq_true, beq_iff_eq] at hu
  refine ⟨t, u, hrun, hv, hg, hflags, ?_, fun hright => ?_, hfault, hu⟩
  · rw [MmapDesc.range, h1]
    exact mem_pageRange_self _
  · obtain ⟨t', j, hrun', hgrown⟩ := hright.2 (not_blocked hvalid h0 h1) ⟨v, hserved⟩
    obtain ⟨-, j', hj', -, hva, -⟩ := leftOver_of_grown hv hg hrun' hgrown
    obtain rfl : j' = 2 := Fin.ext hj'
    rw [h1, h2] at hva
    exact absurd hva (by decide)

end Xv6
