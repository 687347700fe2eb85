import Xv6.ExecCall
import Xv6.ForkSucceeds

/-!
# What `exec` leaves behind

A call of `exec` comes back with `-1` and nothing to show for it, or with `0` and the new program in place.
`exec_outcome` says this, with the reasons for `-1`, of every file and every list of arguments. There is one
exception: an argument of more than 32 megabytes takes the stack pointer past address `0`, and there
`copyout` follows a null pointer and writes to any page before it fails.
-/

namespace Xv6.Exec

open Hoare

variable {s : State} {w : World} {p : Fin NPROC} {path : Bytes} {found : Option Nat}
  {argv : Argv} {n : Nat} {d : PgDir} {r : Ram} {P : Pool} {κ : KernelHalf}
  {img : Word → Byte}

/-- A process in memory that calls `exec` with the path of an inode in use; it holds no lock. -/
structure Ready (s : State) (p : Fin NPROC) (found : Option Nat) : Prop where
  memory : InMemory s p
  kernel : ∀ k, 0x80000 ≤ k → (s.proc p).pgdir.holds (.user k) = none
  linked : Linked s.ram.kdata
  unlocked : s.fs.ilocks = []
  noLock : s.ptableLock = false
  file : ∀ n, found = some n → (s.fs.inode n).type ≠ .free

/-! ## The inode -/

/-- The world after `begin_op`, `namei` and `ilock`. -/
def World.entered (w : World) (n : Nat) : World :=
  { w with
    outstanding := w.outstanding + 1
    state :=
      let s := w.state.updInode n fun ip => { ip with ref := ip.ref + 1 }
      { s with fs := { s.fs with ilocks := n :: s.fs.ilocks } } }

/-- The world after `iunlockput` and `end_op`. -/
def World.left (w : World) (n : Nat) : World :=
  { w with
    outstanding := w.outstanding - 1
    state :=
      let s := { w.state with fs := { w.state.fs with ilocks := w.state.fs.ilocks.erase n } }
      (s.updInode n Inode.put).updInode n fun ip => { ip with ref := ip.ref - 1 } }

def World.withRam (w : World) (r : Ram) : World := { w with state := { w.state with ram := r } }

theorem withRam_withRam (r' : Ram) : (w.withRam r).withRam r' = w.withRam r' := rfl

theorem onState_ok {α : Type} {m : K α} {a : α} {t : State} (h : m w.state = .ok a t) :
    onState m w = .ok a { w with state := t } := by
  unfold onState
  rw [h]

theorem onState_onRam {α : Type} {m : RamM α} {a : α} (h : m w.state.ram = .ok a r) :
    onState (onRam m) w = .ok a (w.withRam r) :=
  onState_ok (onRam_ok h)

theorem wakeup_run (h : s.ptableLock = false) : wakeup s = .ok () s := by
  unfold wakeup
  rw [bind_ok (get_run s), h]
  rfl

theorem iunlock_run (hlock : s.ptableLock = false) (hn : n ∈ s.fs.ilocks)
    (href : 1 ≤ (s.fs.inode n).ref) : iunlock n s =
      .ok () { s with fs := { s.fs with ilocks := s.fs.ilocks.erase n } } := by
  unfold iunlock
  rw [bind_ok (get_run s), if_neg (by simp only [not_or, not_not]; exact ⟨hn, by omega⟩),
    bind_ok (modify_run _ s)]
  exact wakeup_run hlock

theorem iput_run (hlock : s.ptableLock = false) (hn : n ∉ s.fs.ilocks) : iput n s =
    .ok () ((s.updInode n Inode.put).updInode n fun ip => { ip with ref := ip.ref - 1 }) := by
  unfold iput
  rw [bind_ok (get_run s), if_neg hn, bind_ok (modify_run _ s),
    bind_ok (wakeup_run (s := s.updInode n Inode.put) hlock)]
  rfl

theorem unlockputEnd_run (hlock : w.state.ptableLock = false) (hn : w.state.fs.ilocks = [n])
    (href : 1 ≤ (w.state.fs.inode n).ref) : Full.unlockputEnd n w = .ok () (w.left n) := by
  let s₁ : State := { w.state with fs := { w.state.fs with ilocks := w.state.fs.ilocks.erase n } }
  have hfree : n ∉ s₁.fs.ilocks := by
    show n ∉ w.state.fs.ilocks.erase n
    rw [hn, List.erase_cons_head]
    exact List.not_mem_nil
  have hunlock : iunlock n w.state = .ok () s₁ := iunlock_run hlock (by simp [hn]) href
  have hput := onState_ok (w := { w with state := s₁ }) (iput_run hlock hfree)
  unfold Full.unlockputEnd
  rw [bind_ok (onState_ok hunlock), bind_ok hput]
  unfold Full.endOp
  rw [bind_ok (modify_run _ _)]
  exact onState_ok (wakeup_run hlock)

theorem freevm_run (h : Held P κ ∅ d r) : ∃ r' img, freevm d r = .ok () r' ∧
    Stock P img (fun _ => none) ∅ r' := by
  obtain ⟨⟨img, hstock⟩, hkernel⟩ := h
  obtain ⟨_, r', hrun, hfree⟩ := (stock_freevm fun k hk => hkernel.holds hk).returns hstock
  exact ⟨r', img, hrun, hfree⟩

theorem bad_dir (h : Held P κ ∅ d w.state.ram) : ∃ r' img,
    Full.bad (some d) none w = .ok (-1) (w.withRam r') ∧ Stock P img (fun _ => none) ∅ r' := by
  obtain ⟨r', img, hrun, hfree⟩ := freevm_run h
  refine ⟨r', img, ?_, hfree⟩
  exact bind_ok (onState_onRam hrun)

section
variable (hlock : w.state.ptableLock = false) (hn : w.state.fs.ilocks = [n]) (href : 1 ≤ (w.state.fs.inode n).ref)
include hlock hn href

theorem bad_inode : Full.bad none (some n) w = .ok (-1) (w.left n) := by
  refine (bind_ok (onState_ok (t := w.state) rfl)).trans ?_
  exact bind_ok (unlockputEnd_run hlock hn href)

theorem bad_both (h : Held P κ ∅ d w.state.ram) : ∃ r' img,
    Full.bad (some d) (some n) w = .ok (-1) ((w.withRam r').left n) ∧ Stock P img (fun _ => none) ∅ r' := by
  obtain ⟨r', img, hrun, hfree⟩ := freevm_run h
  refine ⟨r', img, ?_, hfree⟩
  refine (bind_ok (onState_onRam hrun)).trans ?_
  exact bind_ok (unlockputEnd_run (w := w.withRam r') hlock hn href)

end

/-! ## Committing -/

/-- The pages that `exec` can take. -/
def Ready.pool (h : Ready s p found) : Pool := freePool (fun _ hv => h.memory.books.ok_free hv) h.memory.above

theorem Ready.stock (h : Ready s p found) : Stock h.pool img (fun _ => none) ∅ s.ram :=
  stock_freePool h.memory.books.nodup (fun _ hv => h.memory.books.ok_free hv) h.memory.above

theorem Ready.access_zero (h : Ready s p found) : (s.proc p).pgdir.access 0 false false := by
  obtain ⟨pte, hpte⟩ := Option.ne_none_iff_exists'.mp (h.memory.heap 0 h.memory.pages_pos)
  rw [access_entry, show vpn 0 = 0 from rfl, hpte]
  rfl

theorem Ready.freevm_old (h : Ready s p found) (hstock : Stock h.pool img d.holds ∅ r) : ∃ r',
    freevm (s.proc p).pgdir r = .ok () r' ∧
      ∀ a v, d.holds (.user (vpn a)) = some v → r'.mem (d.translate a) = img a := by
  have hkend : r.kend = s.ram.kend := hstock.kend
  have hledger : Ledger (PageAt r.kend) r.freelist (s.proc p).pgdir.holds ∅ := by
    rw [hkend]
    exact
      { h.memory.books with
        nodup := hstock.books.nodup
        held_free := fun ho hv => h.memory.books.held_free ho (hstock.books.ok_free hv)
        hand_free := fun hv => absurd hv (Set.notMem_empty _)
        ok_free := fun hv => h.memory.books.ok_free (hstock.books.ok_free hv) }
  have habove : KERNBASE.toNat < r.kend.toNat := hkend ▸ h.memory.above
  obtain ⟨_, r', hrun, hfree⟩ := (stock_freevm h.kernel).returns (stock_dirPool hledger habove)
  refine ⟨r', hrun, fun a v hv => ?_⟩
  have hnew : v ∈ s.ram.freelist := hstock.books.ok_held hv
  have hpage : Aligned v := (h.memory.books.ok_free hnew).1
  rw [translate_of_holds hv, ← hstock.shows a v hv]
  refine hfree.mem _ fun u hu hmem => ?_
  have hne : v ≠ u := by
    rintro rfl
    rcases hu with hu | ⟨o, ho⟩
    · exact hstock.books.held_free hv hu
    · exact h.memory.books.held_free ho hnew
  exact Set.disjoint_left.mp (disjoint_of_aligned hpage ((dirPool hledger habove).pages hu).1 hne)
    (mem_pageRange_low v a) hmem

/-- The world with the new program. -/
def World.started (w : World) (p : Fin NPROC) (path : Bytes) (r : Ram) (d : PgDir)
    (sz entry sp : Word) : World :=
  { w with
    state := withSpace w.state p r d sz
    eip := entry
    esp := sp
    name := programName path }

theorem commit_run {sz entry sp : Word} (hkstack : (w.state.proc p).kstack ≠ 0) (hpage : d.page ≠ 0)
    (hfree : freevm (w.state.proc p).pgdir w.state.ram = .ok () r) :
    Full.commit p path d sz entry sp w = .ok 0 (w.started p path r d sz entry sp) := by
  let w₁ : World := { w with name := programName path }
  let w₂ : World := { w₁ with state := w₁.state.updProc p fun q => { q with pgdir := d } }
  let w₃ : World := { w₂ with state := withSpace w.state p w.state.ram d sz }
  let w₄ : World := { w₃ with eip := entry, esp := sp }
  have hspace : w₂.state.updProc p (fun q => { q with sz := sz }) = w₃.state :=
    updProc_updProc w.state p (fun q => { q with pgdir := d }) fun q => { q with sz := sz }
  have hswitch : switchuvm p w₄.state = .ok () w₄.state :=
    switchuvm_run (by simpa [w₄, w₃, withSpace] using hkstack) (by simpa [w₄, w₃] using hpage)
  have hset : onState (setSize p sz) w₂ = .ok () w₃ := by
    refine (onState_ok (modify_run _ _)).trans ?_
    rw [hspace]
  refine (bind_ok (modify_run _ w)).trans ?_
  refine (bind_ok (get_run w₁)).trans ?_
  refine (bind_ok (onState_ok (w := w₁) (modify_run _ _))).trans ?_
  refine (bind_ok hset).trans ?_
  refine (bind_ok (modify_run _ w₃)).trans ?_
  refine (bind_ok (onState_ok (w := w₄) hswitch)).trans ?_
  exact bind_ok (onState_onRam (w := w₄) hfree)

/-! ## The stack -/

/-- The new program has the pages up to `4096 * n` and its arguments on the stack. -/
structure Placed (κ : KernelHalf) (img : Word → Byte) (argv : Argv) (n : Nat) (d : PgDir)
    (sz : Word) (r : Ram) : Prop where
  fits : FitsPage argv
  size : sz.toNat = 4096 * n
  dir : Stacked κ d n
  content : ∀ a, vpn a < n → r.mem (d.translate a) = stackImage img sz argv a

theorem execStack_outcome (path : Bytes) (argv : Argv) (entry : Word) {sz : Word}
    (h : Ready s p found) (hproc : w.state.proc = s.proc)
    (hdev : κ.Devices) (hload : Loaded h.pool κ ∅ img d sz w.state.ram) :
    ((∃ r', Full.execStack p path argv entry d sz w = .ok (-1) (w.withRam r')) ∧
      (FitsPage argv → ∀ y r₁, allocuvm d (pgRoundUp sz) (pgRoundUp sz + 2 * PGSIZE) w.state.ram = .ok y r₁ →
        y.1 = 0)) ∨ ∃ r' d' sz', Full.execStack p path argv entry d sz w =
      .ok 0 (w.started p path r' d' sz' entry (stackPointer sz' argv)) ∧
        Placed κ img argv (pages sz + 2) d' sz' r' := by
  have hlow := hload.filled.low
  have hpages := pages_le_kernel hlow
  have hround := toNat_pgRoundUp hlow
  have hnew : (pgRoundUp sz + 2 * PGSIZE).toNat = 4096 * (pages sz + 2) := by
    rw [BitVec.toNat_add, hround, show (2 * PGSIZE).toNat = 8192 from rfl]
    omega
  have hzero : ∀ a, pages (pgRoundUp sz) ≤ vpn a → img a = 0 := by
    rw [pages_pgRoundUp hlow]
    exact hload.zero
  obtain ⟨x, r₁, halloc, hheld, hok⟩ :=
    (filled_allocuvm (pgRoundUp sz + 2 * PGSIZE) hload.filled.roundUp hzero).returns hload.stock
  unfold Full.execStack
  rw [bind_ok (onState_onRam halloc)]
  by_cases hx : x.1 = 0
  · obtain ⟨r', img', hbad, hfree⟩ := bad_dir (w := w.withRam r₁) hheld
    rw [if_pos hx]
    refine .inl ⟨⟨r', hbad⟩, fun _ y r₁ hy => ?_⟩
    rw [halloc] at hy
    cases hy
    exact hx
  rw [if_neg hx]
  obtain ⟨hmax, hfilled, hstock⟩ := hok hx
  have hsz : x.1.toNat = 4096 * (pages sz + 2) := by omega
  obtain ⟨d₂, r₂, hclear, hstock, hd, -⟩ := (stacked_clearpteu hfilled (by omega) hsz).returns hstock
  rw [bind_ok (onState_onRam (w := w.withRam r₁) hclear)]
  let w₂ : World := w.withRam r₂
  have hstock₂ : Stock h.pool img d₂.holds ∅ w₂.state.ram := hstock
  by_cases hfits : FitsPage argv
  · obtain ⟨m, hpush, hshows⟩ := pushStackAt_fits (p := p) argv hd hsz hstock₂ hfits
    obtain ⟨r', hfree, hkeep⟩ := h.freevm_old hshows
    refine .inr ⟨r', d₂, x.1, ?_, hfits, hsz, hd, fun a ha => ?_⟩
    · refine (bind_ok (onState_ok (w := w₂) hpush)).trans ?_
      have hpage : d₂.page ≠ 0 := PageAt.ne_zero (h.pool.pages (hstock.books.ok_held (o := .dir) rfl))
      refine commit_run (w := { w₂ with state := withMem w₂.state m }) ?_ hpage ?_
      · show (w.state.proc p).kstack ≠ 0
        rw [hproc]
        exact h.memory.kstack
      · show freevm (w.state.proc p).pgdir _ = _
        rw [hproc]
        exact hfree
    · obtain ⟨v, hv⟩ := hd.holds ha
      exact hkeep a v hv
  · left
    -- anything may have been written to, but the call has failed
    have haccess : (w₂.state.proc p).pgdir.access 0 false false := by
      show (w.state.proc p).pgdir.access 0 false false
      rw [hproc]
      exact h.access_zero
    obtain ⟨o, m, hpush⟩ := pushStackAt_returns (d := d₂) haccess argv x.1
    cases o with
    | some sp => exact absurd (fits_of_pushStackAt argv hd hsz hdev hstock₂ hpush) hfits
    | none =>
      have hheld₂ : Held h.pool κ ∅ d₂ w₂.state.ram := ⟨⟨img, hstock₂⟩, hd.kernel⟩
      obtain ⟨r', img', hbad, -⟩ := bad_dir (w := { w₂ with state := withMem w₂.state m }) (hheld₂.withMem m)
      exact ⟨⟨r', (bind_ok (onState_ok (w := w₂) hpush)).trans hbad⟩, fun h => absurd h hfits⟩

/-! ## Loading -/

/-- `ip` is a program, and the memory `r` has the pages to load and start it. -/
def Loads (ip : Inode) (r : Ram) : Prop :=
  (∀ major, ip.type ≠ .dev major) ∧ (Elfhdr.decode (elf ip)).magic = ELF_MAGIC ∧
  ∃ d r₁ x r₂ y r₃, setupkvm r = .ok (some d) r₁ ∧
    loadSegments ip (Elfhdr.decode (elf ip)).phnum (Elfhdr.decode (elf ip)).phoff d 0 r₁ = .ok x r₂ ∧
    x.1 = true ∧ allocuvm x.2.1 (pgRoundUp x.2.2) (pgRoundUp x.2.2 + 2 * PGSIZE) r₂ = .ok y r₃ ∧ y.1 ≠ 0

/-- How the call goes on after the inode was unlocked again. It does not fail if the program loads and the
arguments fit. -/
def Outcome (loads : Prop) (p : Fin NPROC) (path : Bytes) (argv : Argv) (ip : Inode)
    (w : World) (x : EStateM.Result Stop World Word) : Prop :=
  ((∃ r', x = .ok (-1) (w.withRam r')) ∧ (FitsPage argv → ¬ loads)) ∨
  ∃ κ r' d' sz', x = .ok 0 (w.started p path r' d' sz' (word (elf ip) 24) (stackPointer sz' argv)) ∧
    Placed κ (imageOf ip) argv (pagesOf ip) d' sz' r'

theorem execLoad_outcome {ip : Inode} (h : Ready s p found) (hram : w.state.ram = s.ram)
    (hproc : w.state.proc = s.proc) (hlock : w.state.ptableLock = false) (hn : w.state.fs.ilocks = [n])
    (href : 1 ≤ (w.state.fs.inode n).ref) :
    Outcome (Loads ip s.ram) p path argv ip (w.left n) (Full.execLoad p path n argv ip w) := by
  have hstart : Stock h.pool (fun _ => 0) (fun _ => none) ∅ w.state.ram := hram ▸ h.stock
  have hnothing : (Elfhdr.decode (elf ip)).magic ≠ ELF_MAGIC →
      Outcome (Loads ip s.ram) p path argv ip (w.left n) (Full.bad none (some n) w) :=
    fun hmagic => .inl ⟨⟨_, bad_inode hlock hn href⟩, fun _ hl => hmagic hl.2.1⟩
  unfold Full.execLoad
  cases hread : readAll ip 0 52 with
  | none => exact hnothing (by rw [elf, hread]; decide)
  | some bs =>
    have helf : elf ip = bs := by rw [elf, hread, Option.getD_some]
    dsimp only
    by_cases hmagic : (Elfhdr.decode bs).magic ≠ ELF_MAGIC
    · rw [if_pos hmagic]
      exact hnothing (helf ▸ hmagic)
    rw [if_neg hmagic]
    obtain ⟨o, r₁, hsetup, hstock, hbare⟩ := (stock_setupkvm h.linked).returns hstart
    rw [bind_ok (onState_onRam hsetup)]
    rw [hram] at hsetup
    cases o with
    | none =>
      refine .inl ⟨⟨_, bad_inode (w := w.withRam r₁) hlock hn href⟩, ?_⟩
      rintro - ⟨-, -, d, r, x, r₂, y, r₃, hd, -⟩
      rw [hsetup] at hd
      cases hd
    | some d =>
      have hbare := hbare d rfl
      have hdev : (KernelHalf.ofBare hbare).Devices := ((maps_setupkvm h.linked).ok rfl hsetup d rfl).devices
      have hloaded : Loaded h.pool (.ofBare hbare) ∅ (fun _ => 0) d 0 r₁ :=
        ⟨hstock, .of_bare hbare, fun _ _ => rfl⟩
      obtain ⟨x, r₂, hload, hheld, hok⟩ := (loaded_loadSegments ip (Elfhdr.decode bs).phnum
        (Elfhdr.decode bs).phoff).returns hloaded
      dsimp only
      rw [bind_ok (onState_onRam (w := w.withRam r₁) hload), withRam_withRam]
      -- a run of the loop that `Loads` has is this one
      have hsame : Loads ip s.ram → x.1 = true ∧ ∃ y r₃, allocuvm x.2.1 (pgRoundUp x.2.2)
          (pgRoundUp x.2.2 + 2 * PGSIZE) r₂ = .ok y r₃ ∧ y.1 ≠ 0 := by
        rintro ⟨-, -, d', r₁', x', r₂', y, r₃, hd, hx, hrest⟩
        rw [hsetup] at hd
        cases hd
        rw [helf, hload] at hx
        cases hx
        exact ⟨hrest.1, y, r₃, hrest.2⟩
      by_cases hx : x.1 = true
      · obtain ⟨hextent, hloaded⟩ := hok hx
        have hpages : pages x.2.2 + 2 = pagesOf ip := by
          rw [pages, hextent, pagesOf, helf]
          rfl
        rw [if_pos hx, bind_ok (unlockputEnd_run (w := w.withRam r₂) hlock hn href)]
        have hstack := execStack_outcome (w := (w.withRam r₂).left n) path argv (word bs 24) h hproc
          hdev hloaded
        rw [hpages] at hstack
        rcases hstack with ⟨⟨r', hrun⟩, hfail⟩ | ⟨r', d', sz', hrun, hplaced⟩
        · refine .inl ⟨⟨r', hrun⟩, fun hfits hl => ?_⟩
          obtain ⟨-, y, r₃, halloc, hy⟩ := hsame hl
          exact hy (hfail hfits y r₃ halloc)
        · refine .inr ⟨.ofBare hbare, r', d', sz', ?_, ?_⟩
          · rw [helf]
            exact hrun
          · rw [imageOf, helf]
            exact hplaced
      · rw [if_neg hx]
        obtain ⟨r', img', hbad, -⟩ := bad_both (w := w.withRam r₂) hlock hn href hheld
        exact .inl ⟨⟨r', hbad⟩, fun _ hl => hx (hsame hl).1⟩

/-! ## The whole call -/

theorem Outcome.congr {loads : Prop} {ip jp : Inode} {x : EStateM.Result Stop World Word}
    (hdata : jp.data = ip.data) (hx : Outcome loads p path argv jp w x) : Outcome loads p path argv ip w x := by
  unfold Outcome at *
  rwa [pagesOf_congr hdata, imageOf_congr hdata, elf_congr hdata] at hx

theorem ilock_run (hn : n ∉ s.fs.ilocks) (href : 1 ≤ (s.fs.inode n).ref)
    (htype : (s.fs.inode n).type ≠ .free) :
    ilock n s = .ok () { s with fs := { s.fs with ilocks := n :: s.fs.ilocks } } := by
  unfold ilock
  rw [bind_ok (get_run s), if_neg (by omega), if_neg hn, if_neg htype]
  rfl

@[simp] theorem entered_inode : (w.entered n).state.fs.inode n =
    { w.state.fs.inode n with ref := (w.state.fs.inode n).ref + 1 } := by
  simp [World.entered, State.updInode]

theorem exec_enter (h : Ready w.state p (some n)) : Full.exec p path (some n) argv w =
    (match (w.state.fs.inode n).type with
      | .dev major => if major = CONSOLE then throw .sleep else Full.bad none (some n)
      | _ => Full.execLoad p path n argv ((w.entered n).state.fs.inode n) : W Word) (w.entered n) := by
  let s₁ : State := w.state.updInode n fun ip => { ip with ref := ip.ref + 1 }
  have hinode : s₁.fs.inode n = { w.state.fs.inode n with ref := (w.state.fs.inode n).ref + 1 } := by
    simp [s₁, State.updInode]
  have hlock : ilock n s₁ = .ok () (w.entered n).state := by
    refine ilock_run ?_ ?_ ?_
    · show n ∉ w.state.fs.ilocks
      rw [h.unlocked]
      exact List.not_mem_nil
    · rw [hinode]
      exact Nat.le_add_left 1 _
    · rw [hinode]
      exact h.file n rfl
  let w₁ : World := { w with outstanding := w.outstanding + 1 }
  refine (bind_ok (show Full.beginOp w = .ok () w₁ from rfl)).trans ?_
  refine (bind_ok (onState_ok (w := w₁) (t := s₁) rfl)).trans ?_
  refine (bind_ok (onState_ok (w := { w₁ with state := s₁ }) hlock)).trans ?_
  refine (bind_ok (get_run _)).trans ?_
  show (match ((w.entered n).state.fs.inode n).type with
    | .dev major => if major = CONSOLE then throw .sleep else Full.bad none (some n)
    | _ => Full.execLoad p path n argv ((w.entered n).state.fs.inode n) : W Word) (w.entered n) = _
  rw [entered_inode]

theorem exec_outcome (h : Ready w.state p (some n)) (htype : (w.state.fs.inode n).type ≠ .dev CONSOLE) :
    Outcome (Loads ((w.entered n).state.fs.inode n) w.state.ram) p path argv (w.state.fs.inode n)
      ((w.entered n).left n) (Full.exec p path (some n) argv w) := by
  have hlocks : (w.entered n).state.fs.ilocks = [n] := by
    show n :: w.state.fs.ilocks = [n]
    rw [h.unlocked]
  have href : 1 ≤ ((w.entered n).state.fs.inode n).ref := by
    rw [entered_inode]
    exact Nat.le_add_left 1 _
  have hload : Outcome (Loads ((w.entered n).state.fs.inode n) w.state.ram) p path argv
      (w.state.fs.inode n) ((w.entered n).left n)
      (Full.execLoad p path n argv ((w.entered n).state.fs.inode n) (w.entered n)) := by
    refine Outcome.congr ?_ (execLoad_outcome h rfl rfl h.noLock hlocks href)
    rw [entered_inode]
  rw [exec_enter h]
  cases hkind : (w.state.fs.inode n).type with
  | dev major =>
    dsimp only
    rw [if_neg (show major ≠ CONSOLE from fun hmajor => htype (hmajor ▸ hkind))]
    refine .inl ⟨⟨_, bad_inode h.noLock hlocks href⟩, fun _ hl => hl.1 major ?_⟩
    rw [entered_inode]
    exact hkind
  | _ => exact hload

theorem exec_missing (h : Ready w.state p none) : Full.exec p path none argv w = .ok (-1) w := by
  let w₁ : World := { w with outstanding := w.outstanding + 1 }
  refine (bind_ok (show Full.beginOp w = .ok () w₁ from rfl)).trans ?_
  have hend : Full.endOp w₁ = .ok () w := by
    refine (bind_ok (modify_run _ w₁)).trans ?_
    rw [show w₁.outstanding - 1 = w.outstanding from add_sub_cancel_right _ _]
    exact onState_ok (wakeup_run h.noLock)
  exact bind_ok hend

theorem exec_console (h : Ready w.state p (some n)) (htype : (w.state.fs.inode n).type = .dev CONSOLE) :
    Full.exec p path (some n) argv w = .error .sleep (w.entered n) := by
  rw [exec_enter h, htype]
  rfl

/-! ## Any file -/

theorem exec_stops {e : Stop} {w' : World} (h : Ready w.state p found)
    (hrun : Full.exec p path found argv w = .error e w') : e = .sleep := by
  cases found with
  | none =>
    rw [exec_missing h] at hrun
    cases hrun
  | some n =>
    by_cases htype : (w.state.fs.inode n).type = .dev CONSOLE
    · rw [exec_console h htype] at hrun
      injection hrun with he
      exact he.symm
    · have hout : Outcome _ p path argv _ _ (Full.exec p path (some n) argv w) := exec_outcome h htype
      rw [hrun] at hout
      obtain ⟨⟨r', hx⟩, -⟩ | ⟨κ, r', d', sz', hx, -⟩ := hout
      all_goals cases hx

theorem Ready.loads (h : Ready s p found) (hsetup : setupkvm s.ram = .ok (some d) r) (ip : Inode) (k : Nat)
    (off : Word) : ∃ x r', loadSegments ip k off d 0 r = .ok x r' ∧
      (x.1 = true → LoadedExactly ip k off x.2.1 x.2.2 r') := by
  have hstart : Stock h.pool (fun _ => 0) (fun _ => none) ∅ s.ram := h.stock
  obtain ⟨hstock, hbare⟩ := (stock_setupkvm (E := fun _ _ => True) h.linked).ok hstart hsetup
  have hloaded : Loaded h.pool (.ofBare (hbare d rfl)) ∅ (fun _ => 0) d 0 r :=
    ⟨hstock, .of_bare (hbare d rfl), fun _ _ => rfl⟩
  obtain ⟨x, r', hload, -, hok⟩ := (loaded_loadSegments ip k off).returns hloaded
  exact ⟨x, r', hload, fun hx => (hok hx).2.exactly⟩

/-- `exec` does not panic on any file, and when the loop over the program headers comes to the next one, the
pages below the size are there for user code and no others, with zeros in them and the segments over them.
-/
theorem exec_survives (h : Ready s p found) (argv : Argv) :
    (∀ msg t, exec p found argv s ≠ .error (.panic msg) t) ∧
    ∀ ip d r, setupkvm s.ram = .ok (some d) r → ∀ off k j, ∃ x r', loadSegments ip k off d 0 r = .ok x r' ∧
      loadSegments ip (k + j) off d 0 r =
        (if x.1 then loadSegments ip j (off + BitVec.ofNat 32 (32 * k)) x.2.1 x.2.2 else pure x) r' ∧
      (x.1 = true → LoadedExactly ip k off x.2.1 x.2.2 r') := by
  refine ⟨fun msg t hrun => ?_, fun ip d r hsetup off k j => ?_⟩
  · have hmirror := (mirrors_exec p [] argv found).related ⟨s, 0, 0, [], 0⟩ s rfl
    rw [hrun] at hmirror
    cases hfull : Full.exec p [] found argv ⟨s, 0, 0, [], 0⟩ with
    | ok x w' =>
      rw [hfull] at hmirror
      exact hmirror
    | error e w' =>
      rw [hfull] at hmirror
      have hsleep := exec_stops h hfull
      rw [hmirror] at hsleep
      cases hsleep
  · obtain ⟨x, r', hload, hok⟩ := h.loads hsetup ip k off
    refine ⟨x, r', hload, ?_, hok⟩
    rw [loadSegments_add, bind_ok hload]

/-! ## On the small machine -/

section
variable {z : Prop} {k : Nat} {a oldsz newsz : Word}

theorem roomy_allocuvmLoop (hnew : newsz.toNat < 2 ^ 31) (fuel : Nat) (ha : Aligned a)
    (hle : vpn a ≤ pages newsz) (hfuel : pages newsz ≤ vpn a + fuel) (hclear : d.Clear (vpn a) 0x80000) :
    Triple (Roomy z (k + 2 * (pages newsz - vpn a))) (allocuvmLoop oldsz newsz fuel d a)
      (fun x r => Roomy z k r ∧ x.1 = newsz ∧ x.2.Clear (pages newsz) 0x80000) ⊥ := by
  have hpages : pages newsz ≤ 0x80000 := by
    unfold pages
    omega
  induction fuel generalizing d a with
  | zero =>
    obtain heq : vpn a = pages newsz := by omega
    exact .pure fun r hr => ⟨hr.mono (by omega), rfl, heq ▸ hclear⟩
  | succ fuel ih =>
    have hpos := vpn_of_aligned ha
    unfold allocuvmLoop
    refine .ite (fun hlt => ?_) fun hge => .pure fun r hr => ⟨hr.mono (by omega), rfl, ?_⟩
    · have hin : vpn a < pages newsz := by
        rw [lt_pages, hpos]
        simpa [BitVec.ult] using hlt
      have hnext : vpn (a + PGSIZE) = vpn a + 1 := vpn_add_page (by omega)
      rw [show k + 2 * (pages newsz - vpn a) = k + 2 * (pages newsz - vpn (a + PGSIZE)) + 1 + 1 by omega]
      refine .bind roomy_kalloc fun o => .pre_and ?_
      rintro ⟨mem, rfl⟩
      refine .bind (roomy_memset mem) fun _ => ?_
      rw [mappages_page ha]
      refine .bind ((roomy_mappagesLoop _ 0 a _ (by omega) (by decide) hclear).pre fun r hr =>
        hr.mono (Nat.add_le_add_left ((d.missing_le _ _).trans (by simp)) _)) fun x => .pre_and ?_
      rintro ⟨hx, hclear', -⟩
      rw [if_pos hx]
      exact ih (aligned_add_page ha) (by omega) (by omega) (hnext ▸ hclear')
    · have hge : newsz.toNat ≤ a.toNat := by simpa [BitVec.ult] using hge
      have : pages newsz ≤ vpn a := by
        unfold pages
        omega
      rwa [← Nat.le_antisymm hle this]

theorem roomy_allocuvm (oldsz newsz : Word) (hold : oldsz.toNat ≤ newsz.toNat) (hnew : newsz.toNat < 2 ^ 31)
    (hclear : d.Clear (pages oldsz) 0x80000) :
    Triple (Roomy z (k + 2 * (pages newsz - pages oldsz))) (allocuvm d oldsz newsz)
      (fun x r => Roomy z k r ∧ x.1 = newsz ∧ x.2.Clear (pages newsz) 0x80000) ⊥ := by
  have hstart : vpn (pgRoundUp oldsz) = pages oldsz := vpn_pgRoundUp (by omega)
  have hbase : KERNBASE.toNat = 2 ^ 31 := rfl
  have hpages : pages oldsz ≤ pages newsz ∧ pages newsz ≤ 2 ^ 20 := by
    unfold pages
    omega
  unfold allocuvm
  rw [if_neg (by simp [BitVec.ult]; omega), if_neg (by simp [BitVec.ult]; omega), ← hstart]
  exact roomy_allocuvmLoop hnew _ (aligned_pgRoundUp oldsz) (by omega) (by omega) (hstart ▸ hclear)

end

/-- A program of two bytes, with one segment. -/
def bootElf : Bytes :=
  [0x7F, 0x45, 0x4C, 0x46] ++ .replicate 24 0 ++ [52] ++ .replicate 15 0 ++ [1] ++ .replicate 7 0 ++
    [1, 0, 0, 0, 84] ++ .replicate 11 0 ++ [2, 0, 0, 0, 2] ++ .replicate 11 0 ++ [0xEB, 0xFE]

/-- `boot` with the program in inode 2. -/
def bootProgram : State :=
  { boot with fs := { boot.fs with inode := Function.update boot.fs.inode 2 { type := .file, data := bootElf } } }

theorem bootProgram_ready : Ready bootProgram 1 (some 2) where
  memory := { boot_inMemory with }
  kernel k hk := by
    cases hheld : (boot.proc 1).pgdir.holds (.user k) with
    | none => exact hheld
    | some v =>
      have hown : boot.holds (.pg 1 (.user k)) = some v := by rwa [State.holds, if_pos (by decide)]
      obtain ⟨q, j, -, -, -, howner⟩ := boot_holds hown
      unfold bootOwner at howner
      split_ifs at howner <;> cases howner
      omega
  linked := boot_linked
  unlocked := rfl
  noLock := rfl
  file m hm := by
    cases hm
    decide

theorem roomy_bootProgram : Roomy False (53 + 67) bootProgram.ram := ⟨False.elim, by decide, rfl⟩

theorem roomy_loadSegments {ip : Inode} {k : Nat} (hip : ip.data = bootElf) (hd : d.Clear 0 0x80000) :
    Triple (Roomy False (k + 2)) (loadSegments ip 1 52 d 0)
      (fun x r => Roomy False k r ∧ x.1 = true ∧ x.2.2 = 2 ∧ x.2.1.Clear 1 0x80000) ⊤ := by
  have hread : readAll ip 52 32 = some ((bootElf.drop 52).take 32) := by
    unfold readAll readi
    rw [hip]
    decide
  have hbytes : readi ip (84 + 0) 2 = some [0xEB, 0xFE] := by
    unfold readi
    rw [hip]
    decide
  have hdecode : Proghdr.decode ((bootElf.drop 52).take 32) = ⟨1, 84, 0, 2, 2⟩ := rfl
  unfold loadSegments
  rw [hread]
  dsimp only
  rw [hdecode, if_neg (by decide), loadSegment, if_neg (by decide), if_neg (by decide)]
  have halloc := roomy_allocuvm (z := False) (k := k) 0 2 (by decide) (by decide) hd
  refine .bind (R := fun x r => Roomy False k r ∧ x.1 = true ∧ x.2.2 = 2 ∧ x.2.1.Clear 1 0x80000) ?_ fun x =>
    .pre_and fun hx => ?_
  · refine .bind (halloc.conseq (fun _ h => h) (fun _ _ h => h) fun _ _ _ => trivial) fun x => .pre_and ?_
    rintro ⟨hsz, hclear⟩
    rw [hsz, if_neg (by decide), if_neg (by decide), loaduvm, if_neg (by decide)]
    refine .bind (R := fun ok r => Roomy False k r ∧ ok = true) ?_ fun ok => .pre_and fun hok =>
      .pure fun r hr => ⟨hr, hok, rfl, hclear⟩
    show Triple _ (loaduvmLoop x.2 0 ip 84 2 (1048574 + 1 + 1) 0) _ _
    unfold loaduvmLoop
    rw [if_pos (by decide)]
    cases x.2.walk (0 + 0) with
    | none => exact ⟨fun _ _ => trivial⟩
    | some pte =>
      have hn : (if ((2 : Word) - 0).ult PGSIZE then ((2 : Word) - 0).toNat else PGSIZE.toNat) = 2 := rfl
      dsimp only
      rw [hn, hbytes]
      refine .update (R := Roomy False k) (fun _ hr => { hr with blank := False.elim }) ?_
      rw [if_neg (by decide)]
      unfold loaduvmLoop
      rw [if_neg (by decide)]
      exact .pure fun _ hr => ⟨hr, rfl⟩
  · rw [if_pos hx.1]
    exact .pure fun _ hr => ⟨hr, rfl, hx.2⟩

/-- The program is loaded. -/
theorem exec_survives_bootProgram :
    (∀ msg t, exec 1 (some 2) [[104, 105]] bootProgram ≠ .error (.panic msg) t) ∧
    ∃ d r x r', setupkvm bootProgram.ram = .ok (some d) r ∧
      loadSegments (bootProgram.fs.inode 2) 1 52 d 0 r = .ok x r' ∧ x.1 = true ∧
      LoadedExactly (bootProgram.fs.inode 2) 1 52 x.2.1 x.2.2 r' := by
  obtain ⟨hpanic, hload⟩ := exec_survives bootProgram_ready [[104, 105]]
  obtain ⟨_, r, hsetup, hr, d, rfl, hd⟩ := roomy_setupkvm.returns roomy_bootProgram
  obtain ⟨x, r', hrun, -, hexact⟩ := hload (bootProgram.fs.inode 2) d r hsetup 52 1 0
  have hx := (roomy_loadSegments (k := 51) rfl (clear_of_kernelOnly hd)).ok hr hrun
  exact ⟨hpanic, d, r, x, r', hsetup, hrun, hx.2.1, hexact hx.2.1⟩

theorem bootProgram_loads {ip : Inode} (hip : ip.data = bootElf) (htype : ip.type = .file) :
    Loads ip bootProgram.ram := by
  have helf : elf ip = bootElf.take 52 := by
    unfold elf readAll readi
    rw [hip]
    decide
  obtain ⟨_, r, hsetup, hr, d, rfl, hd⟩ := roomy_setupkvm.returns roomy_bootProgram
  obtain ⟨x, r₂, hload, -⟩ := bootProgram_ready.loads hsetup ip 1 52
  obtain ⟨hr₂, hx, hsz, hclear⟩ := (roomy_loadSegments (k := 51) hip (clear_of_kernelOnly hd)).ok hr hload
  obtain ⟨y, r₃, halloc, -, hy, -⟩ :=
    (roomy_allocuvm (k := 47) 0x1000 0x3000 (by decide) (by decide) hclear).returns hr₂
  refine ⟨by simp [htype], by rw [helf]; decide, d, r, x, r₂, y, r₃, hsetup, ?_, hx, by rwa [hsz], ?_⟩
  · rw [helf]
    exact hload
  · rw [hy]
    decide

end Xv6.Exec
