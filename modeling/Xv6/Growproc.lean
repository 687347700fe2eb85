import Xv6.AddressSpace
import Xv6.OwnershipRun

/-!
# Growing and shrinking a process

`growproc` adds `n` bytes to the size of a process as a 32-bit number and has `allocuvm` or `deallocuvm` do the
rest. It takes a returned size of `0` for a failure, and `allocuvm` does not look at the pages of the
mappings above the process.
-/

namespace Xv6.Exec

open Hoare

variable {s t : State} {p : Fin NPROC} {n : Word} {d d' : PgDir} {m m' : Word → Byte} {r : Ram}

/-! ## The property -/

/-- The heap went from `old` to `new` pages. Pages that are below both sizes or above both, those of the
mappings among them, are as they were. -/
structure Resized (d d' : PgDir) (m m' : Word → Byte) (old new : Nat) : Prop where
  kept : ∀ k, (k < old ↔ k < new) → d'.entry k = d.entry k
  content : ∀ a, vpn a < 0x80000 → (vpn a < old ↔ vpn a < new) → d.entry (vpn a) ≠ none →
    m' (d'.translate a) = m (d.translate a)
  gone : ∀ k, new ≤ k → k < old → d'.entry k = none
  fresh : ∀ k, old ≤ k → k < new → ∃ v, d'.entry k = some (userPte v)
  zero : ∀ a, old ≤ vpn a → vpn a < new → m' (d'.translate a) = 0

/-- The process has grown by `n` bytes. -/
structure Grew (s t : State) (p : Fin NPROC) (n : Word) : Prop where
  size : ((t.proc p).sz.toNat : Int) = (s.proc p).sz.toNat + n.toInt
  pos : 0 < (t.proc p).sz.toNat
  below : (t.proc p).sz.toNat < KERNBASE.toNat
  present : ∀ k < pages (t.proc p).sz, (t.proc p).pgdir.entry k ≠ none
  space : Resized (s.proc p).pgdir (t.proc p).pgdir s.ram.mem t.ram.mem (pages (s.proc p).sz)
    (pages (t.proc p).sz)

/-- Size, translations and contents are as they were. -/
structure SameSpace (s t : State) (p : Fin NPROC) : Prop where
  size : (t.proc p).sz = (s.proc p).sz
  space : Resized (s.proc p).pgdir (t.proc p).pgdir s.ram.mem t.ram.mem (pages (s.proc p).sz)
    (pages (s.proc p).sz)

/-- `growproc` is exact or has no effect. -/
def GrowsExactly (s : State) (p : Fin NPROC) (n : Word) : Prop :=
  (∃ t, growproc p n s = .ok 0 t ∧ Grew s t p n) ∨ ∃ t, growproc p n s = .ok (-1) t ∧ SameSpace s t p

/-- A process in memory: it has a size, the pages below it are there, and its pages are its own. -/
structure InMemory (s : State) (p : Fin NPROC) : Prop where
  books : Ledger (PageAt s.ram.kend) s.ram.freelist (s.proc p).pgdir.holds ∅
  above : KERNBASE.toNat < s.ram.kend.toNat
  pos : 0 < (s.proc p).sz.toNat
  below : (s.proc p).sz.toNat < KERNBASE.toNat
  heap : ∀ k < pages (s.proc p).sz, (s.proc p).pgdir.entry k ≠ none
  kstack : (s.proc p).kstack ≠ 0

/-- A process does not shrink to nothing, and grows only where nothing is mapped. -/
structure GrowFits (s : State) (p : Fin NPROC) (n : Word) : Prop where
  down : n.toInt < 0 → 0 < ((s.proc p).sz.toNat : Int) + n.toInt
  up : 0 < n.toInt → ((s.proc p).sz.toNat : Int) + n.toInt < KERNBASE.toNat →
    (s.proc p).pgdir.ClearFrom (pages (s.proc p).sz) (pages ((s.proc p).sz + n))

/-- The free pages and those of the process. -/
def InMemory.pool (h : InMemory s p) : Pool := dirPool h.books h.above

theorem InMemory.stock (h : InMemory s p) :
    Stock h.pool (fun a => s.ram.mem ((s.proc p).pgdir.translate a)) (s.proc p).pgdir.holds ∅ s.ram :=
  stock_dirPool h.books h.above

/-! ## Running `growproc` -/

theorem growproc_up (hn : 0 < n.toInt) : growproc p n s =
    (onRam (allocuvm (s.proc p).pgdir (s.proc p).sz ((s.proc p).sz + n)) >>= resize p) s := by
  have hslt : (0 : Word).slt n = true := by simpa [BitVec.slt] using hn
  unfold growproc
  rw [bind_ok (get_run s), if_pos hslt]

theorem growproc_down (hn : n.toInt < 0) : growproc p n s =
    (onRam (deallocuvm (s.proc p).pgdir (s.proc p).sz ((s.proc p).sz + n)) >>= resize p) s := by
  have hslt : (0 : Word).slt n = false := by simpa [BitVec.slt] using hn.le
  have hslt' : n.slt 0 = true := by simpa [BitVec.slt] using hn
  unfold growproc
  rw [bind_ok (get_run s), if_neg (ne_true_of_eq_false hslt), if_pos hslt']

/-- The process with another directory and size. -/
def withSpace (s : State) (p : Fin NPROC) (r : Ram) (d : PgDir) (sz : Word) : State :=
  { s with ram := r }.updProc p fun q => { q with pgdir := d, sz := sz }

@[simp] theorem withSpace_ram (d : PgDir) (sz : Word) : (withSpace s p r d sz).ram = r := rfl

@[simp] theorem withSpace_pgdir (d : PgDir) (sz : Word) :
    ((withSpace s p r d sz).proc p).pgdir = d := by simp [withSpace]

@[simp] theorem withSpace_sz (d : PgDir) (sz : Word) :
    ((withSpace s p r d sz).proc p).sz = sz := by simp [withSpace]

theorem switchuvm_run (hkstack : (t.proc p).kstack ≠ 0) (hpage : (t.proc p).pgdir.page ≠ 0) :
    switchuvm p t = .ok () t := by
  unfold switchuvm
  rw [bind_ok (get_run t), if_neg hkstack, if_neg hpage]
  rfl

theorem resize_zero (d : PgDir) :
    resize p (0, d) { s with ram := r } = .ok (-1) (withSpace s p r d (s.proc p).sz) := rfl

theorem resize_pos {sz : Word} (hsz : sz ≠ 0) (hkstack : (s.proc p).kstack ≠ 0) (hpage : d.page ≠ 0) :
    resize p (sz, d) { s with ram := r } = .ok 0 (withSpace s p r d sz) := by
  let s₁ : State := { s with ram := r }.updProc p fun q => { q with pgdir := d }
  have hspace : s₁.updProc p (fun q => { q with sz := sz }) = withSpace s p r d sz := updProc_updProc _ p _ _
  have hswitch : switchuvm p (withSpace s p r d sz) = .ok () (withSpace s p r d sz) :=
    switchuvm_run (by simpa [withSpace] using hkstack) (by simpa using hpage)
  unfold resize
  refine (bind_ok (show setPgdir p d { s with ram := r } = .ok () s₁ from rfl)).trans ?_
  rw [if_neg hsz]
  refine (bind_ok (show setSize p sz s₁ = .ok () (withSpace s p r d sz) from ?_)).trans ?_
  · rw [← hspace]
    rfl
  · exact bind_ok hswitch

theorem growproc_zero (hn : n.toInt = 0) (hkstack : (s.proc p).kstack ≠ 0)
    (hpage : (s.proc p).pgdir.page ≠ 0) : growproc p n s = .ok 0 s := by
  have hslt : (0 : Word).slt n = false := by simp [BitVec.slt, hn]
  have hslt' : n.slt 0 = false := by simp [BitVec.slt, hn]
  have hset : setSize p (s.proc p).sz s = .ok () s := by
    refine (modify_run _ _).trans (congrArg _ ?_)
    simp [State.updProc]
  unfold growproc
  rw [bind_ok (get_run s), if_neg (ne_true_of_eq_false hslt), if_neg (ne_true_of_eq_false hslt'),
    bind_ok hset, bind_ok (switchuvm_run hkstack hpage)]
  rfl

/-! ## When it is exact -/

theorem resized_refl (d : PgDir) (m : Word → Byte) (k : Nat) : Resized d d m m k k where
  kept _ _ := rfl
  content _ _ _ _ := rfl
  gone j h1 h2 := absurd h2 (by omega)
  fresh j h1 h2 := absurd h2 (by omega)
  zero a h1 h2 := absurd h2 (by omega)

theorem resized_cut {P : Pool} {hand : Set Word} {old new : Nat} (hle : new ≤ old)
    (hentry : d'.entry = cut d.entry new old)
    (h : Stock P (fun a => m (d.translate a)) d'.holds hand r) : Resized d d' m r.mem old new where
  kept k hk := by rw [hentry, cut_apply_of_not (by omega)]
  content a ha hk he := by
    have hkeep : d'.entry (vpn a) = d.entry (vpn a) := by rw [hentry, cut_apply_of_not (by omega)]
    exact stock_reads h ha (by rwa [hkeep])
  gone k h1 h2 := by rw [hentry, cut, if_pos ⟨h1, h2⟩]
  fresh k h1 h2 := absurd h2 (by omega)
  zero a h1 h2 := absurd h2 (by omega)

theorem resized_grown {P : Pool} {hand : Set Word} {old new : Nat} (hle : old ≤ new)
    (htop : new ≤ 0x80000) (hgrown : d.Grown d' old new)
    (h : Stock P (blank (fun a => m (d.translate a)) old new) d'.holds hand r) :
    Resized d d' m r.mem old new where
  kept k hk := hgrown.old k (by omega)
  content a ha hk he := by
    have hkeep : d'.entry (vpn a) = d.entry (vpn a) := hgrown.old _ (by omega)
    rw [stock_reads h ha (by rwa [hkeep]), blank_of_not (by omega)]
  gone k h1 h2 := absurd h2 (by omega)
  fresh k h1 h2 := by
    obtain ⟨v, -, hv⟩ := hgrown.new k h1 h2
    exact ⟨v, hv⟩
  zero a h1 h2 := by
    obtain ⟨v, -, hv⟩ := hgrown.new _ h1 h2
    rw [stock_reads h (by omega) (by simp [hv]), blank, if_pos ⟨h1, h2⟩]

theorem toNat_add_toInt (a n : Word) : ((a + n).toNat : Int) = (a.toNat + n.toInt) % 2 ^ 32 := by
  rw [BitVec.toInt_eq_toNat_cond, BitVec.toNat_add]
  split <;> omega

section
variable (h : InMemory s p)
include h

theorem InMemory.page_ne : (s.proc p).pgdir.page ≠ 0 :=
  PageAt.ne_zero (h.books.ok_held (o := .dir) rfl)

theorem InMemory.sz_le : (s.proc p).sz.toNat ≤ 2 ^ 31 := h.below.le

theorem InMemory.pages_pos : 0 < pages (s.proc p).sz := by
  have := h.pos
  unfold pages
  omega

theorem InMemory.deallocuvm_run (newsz : Word) : ∃ d' r,
    deallocuvm (s.proc p).pgdir (s.proc p).sz newsz s.ram =
        .ok (if newsz.toNat < (s.proc p).sz.toNat then newsz else (s.proc p).sz, d') r ∧
      d'.page = (s.proc p).pgdir.page ∧
      d'.entry = cut (s.proc p).pgdir.entry (pages newsz) (pages (s.proc p).sz) ∧
      Stock h.pool (fun a => s.ram.mem ((s.proc p).pgdir.translate a)) d'.holds ∅ r := by
  obtain ⟨⟨sz', d'⟩, r, hrun, hstock, hpage, -, hsz, hentry⟩ :=
    (stock_deallocuvm (P := h.pool) newsz h.sz_le).returns h.stock
  dsimp only at hsz
  exact ⟨d', r, hsz ▸ hrun, hpage, hentry, hstock⟩

theorem shrink_exact (hn : n.toInt < 0)
    (hleft : 0 < ((s.proc p).sz.toNat : Int) + n.toInt) : ∃ t, growproc p n s = .ok 0 t ∧ Grew s t p n := by
  have hsum := toNat_add_toInt (s.proc p).sz n
  have hbelow := h.below
  have hlt : ((s.proc p).sz + n).toNat < (s.proc p).sz.toNat := by omega
  have hle : pages ((s.proc p).sz + n) ≤ pages (s.proc p).sz := by
    unfold pages
    omega
  obtain ⟨d', r, hrun, hpage, hentry, hstock⟩ := h.deallocuvm_run ((s.proc p).sz + n)
  rw [if_pos hlt] at hrun
  have hne : (s.proc p).sz + n ≠ 0 := by
    intro hzero
    rw [hzero] at hsum
    simp at hsum
    omega
  refine ⟨withSpace s p r d' ((s.proc p).sz + n), ?_, ?_⟩
  · rw [growproc_down hn, bind_ok (onRam_ok hrun)]
    exact resize_pos hne h.kstack (hpage ▸ h.page_ne)
  · refine ⟨?_, ?_, ?_, fun k hk => ?_, ?_⟩
    · rw [withSpace_sz]
      omega
    · rw [withSpace_sz]
      omega
    · rw [withSpace_sz]
      omega
    · rw [withSpace_sz] at hk
      rw [withSpace_pgdir, hentry, cut_apply_of_not (by omega)]
      exact h.heap k (by omega)
    · rw [withSpace_sz, withSpace_pgdir, withSpace_ram]
      exact resized_cut hle hentry hstock

end

theorem growsExactly_of_grew (hrun : growproc p n s = .ok 0 t) : GrowsExactly s p n ↔ Grew s t p n := by
  refine ⟨?_, fun h => .inl ⟨t, hrun, h⟩⟩
  rintro (⟨u, hu, h⟩ | ⟨u, hu, -⟩) <;> rw [hrun] at hu <;> injection hu with h1 h2
  · rwa [h2]
  · exact absurd h1 (by decide)

theorem growsExactly_of_same (hrun : growproc p n s = .ok (-1) t) : GrowsExactly s p n ↔ SameSpace s t p := by
  refine ⟨?_, fun h => .inr ⟨t, hrun, h⟩⟩
  rintro (⟨u, hu, -⟩ | ⟨u, hu, h⟩) <;> rw [hrun] at hu <;> injection hu with h1 h2
  · exact absurd h1 (by decide)
  · rwa [h2]

section
variable (h : InMemory s p)
include h

/-- A process that shrinks to nothing loses its pages and is told that it has not, and one that shrinks
further keeps them and is told that it has shrunk. -/
theorem shrink_too_far (hn : n.toInt < 0)
    (hleft : ((s.proc p).sz.toNat : Int) + n.toInt ≤ 0) : ¬ GrowsExactly s p n := by
  have hsum := toNat_add_toInt (s.proc p).sz n
  have hbelow := h.below
  have hpos := h.pos
  have hint := BitVec.le_toInt n
  obtain ⟨d', r, hrun, hpage, hentry, -⟩ := h.deallocuvm_run ((s.proc p).sz + n)
  by_cases hzero : (s.proc p).sz + n = 0
  · rw [hzero] at hrun hentry
    rw [if_pos (by simpa using hpos)] at hrun
    have hgrow : growproc p n s = .ok (-1) (withSpace s p r d' (s.proc p).sz) := by
      rw [growproc_down hn, hzero, bind_ok (onRam_ok hrun)]
      exact resize_zero d'
    rw [growsExactly_of_same hgrow]
    intro hsame
    have hkept := hsame.space.kept 0 Iff.rfl
    rw [withSpace_pgdir, hentry, cut, if_pos ⟨by decide, h.pages_pos⟩] at hkept
    exact h.heap 0 h.pages_pos hkept.symm
  · have hhigh : ¬ ((s.proc p).sz + n).toNat < (s.proc p).sz.toNat := by
      have : ((s.proc p).sz + n).toNat ≠ 0 := fun h0 => hzero (BitVec.eq_of_toNat_eq h0)
      omega
    rw [if_neg hhigh] at hrun
    have hgrow : growproc p n s = .ok 0 (withSpace s p r d' (s.proc p).sz) := by
      rw [growproc_down hn, bind_ok (onRam_ok hrun)]
      refine resize_pos (fun h0 => ?_) h.kstack (hpage ▸ h.page_ne)
      rw [h0] at hpos
      exact absurd hpos (by decide)
    rw [growsExactly_of_grew hgrow]
    intro hgrew
    have hsize := hgrew.size
    rw [withSpace_sz] at hsize
    omega

theorem InMemory.sameSpace {lo hi : Nat} (hclear : (s.proc p).pgdir.ClearFrom lo hi)
    (hentry : d.entry = cut (s.proc p).pgdir.entry lo hi)
    (hstock : Stock h.pool (fun a => s.ram.mem ((s.proc p).pgdir.translate a)) d.holds ∅ r) :
    SameSpace s (withSpace s p r d (s.proc p).sz) p where
  size := withSpace_sz ..
  space := by
    rw [withSpace_pgdir, withSpace_ram]
    refine resized_cut le_rfl ?_ hstock
    rw [hentry, cut_of_le le_rfl]
    funext k
    by_cases hk : lo ≤ k ∧ k < hi
    · rw [cut, if_pos hk, hclear k hk.1 hk.2]
    · exact cut_apply_of_not hk

theorem InMemory.grew {newsz : Word} (hsize : (newsz.toNat : Int) = (s.proc p).sz.toNat + n.toInt)
    (hle : (s.proc p).sz.toNat ≤ newsz.toNat) (hnew : newsz.toNat < 2 ^ 31)
    (hgrown : (s.proc p).pgdir.Grown d (pages (s.proc p).sz) (pages newsz))
    (hstock : Stock h.pool (blank (fun a => s.ram.mem ((s.proc p).pgdir.translate a))
      (pages (s.proc p).sz) (pages newsz)) d.holds ∅ r) :
    Grew s (withSpace s p r d newsz) p n where
  size := by rw [withSpace_sz, hsize]
  pos := by
    have := h.pos
    rw [withSpace_sz]
    omega
  below := by rwa [withSpace_sz]
  present k hk := by
    rw [withSpace_sz] at hk
    rw [withSpace_pgdir]
    by_cases hold : k < pages (s.proc p).sz
    · rw [hgrown.old k (by omega)]
      exact h.heap k hold
    · obtain ⟨v, -, hv⟩ := hgrown.new k (by omega) hk
      simp [hv]
  space := by
    rw [withSpace_sz, withSpace_pgdir, withSpace_ram]
    refine resized_grown ?_ ?_ hgrown hstock <;> unfold pages <;> omega

/-- Growing is exact where nothing is mapped, and where there is too little memory nothing happens. -/
theorem grow_exact (hn : 0 < n.toInt)
    (hclear : ((s.proc p).sz.toNat : Int) + n.toInt < KERNBASE.toNat →
      (s.proc p).pgdir.ClearFrom (pages (s.proc p).sz) (pages ((s.proc p).sz + n))) : GrowsExactly s p n := by
  have hsum := toNat_add_toInt (s.proc p).sz n
  have hbelow := h.below
  have hint := BitVec.toInt_lt (x := n)
  have hbase : KERNBASE.toNat = 2 ^ 31 := rfl
  cases hrun : allocuvm (s.proc p).pgdir (s.proc p).sz ((s.proc p).sz + n) s.ram with
  | error e r =>
    have hstop := (stock_allocuvm (P := h.pool) h.sz_le).error h.stock hrun
    exact absurd (hclear (by omega)) hstop.2
  | ok x r =>
    obtain ⟨sz', d'⟩ := x
    have hgrow : growproc p n s = resize p (sz', d') { s with ram := r } := by
      rw [growproc_up hn, bind_ok (onRam_ok hrun)]
    rcases (stock_allocuvm (P := h.pool) h.sz_le).ok h.stock hrun with
      ⟨-, hx, hstock⟩ | ⟨hlow, -⟩ | ⟨hnew, hle, ⟨hsz, hfree, hgrown, hstock⟩ | ⟨hsz, hpage, hentry, hstock⟩⟩
    · obtain ⟨rfl, rfl⟩ := Prod.mk.inj hx
      rw [growsExactly_of_same (hgrow.trans (resize_zero _))]
      exact h.sameSpace (fun _ h1 h2 => absurd h2 (by omega)) (cut_of_le (Nat.le_refl 0)).symm hstock
    · omega
    · obtain rfl : sz' = _ := hsz
      have hne : (s.proc p).sz + n ≠ 0 := by
        intro hzero
        rw [hzero] at hsum
        simp at hsum
        omega
      rw [growsExactly_of_grew (hgrow.trans (resize_pos hne h.kstack (hgrown.page ▸ h.page_ne)))]
      exact h.grew (by omega) hle hnew hgrown hstock
    · obtain rfl : sz' = 0 := hsz
      rw [growsExactly_of_same (hgrow.trans (resize_zero _))]
      exact h.sameSpace (hclear (by omega)) hentry hstock

/-- Growing over a page that is mapped: either `mappages` finds the page, or memory runs out first and the
page goes with the new ones. -/
theorem grow_over (hn : 0 < n.toInt) (hlt : ((s.proc p).sz.toNat : Int) + n.toInt < KERNBASE.toNat)
    (hover : ¬ (s.proc p).pgdir.ClearFrom (pages (s.proc p).sz) (pages ((s.proc p).sz + n))) :
    ¬ GrowsExactly s p n := by
  have hsum := toNat_add_toInt (s.proc p).sz n
  have hbase : KERNBASE.toNat = 2 ^ 31 := rfl
  cases hrun : allocuvm (s.proc p).pgdir (s.proc p).sz ((s.proc p).sz + n) s.ram with
  | error e r =>
    have hgrow : growproc p n s = .error e { s with ram := r } := by
      rw [growproc_up hn]
      exact bind_of_error (onRam_error hrun)
    rintro (⟨t, ht, -⟩ | ⟨t, ht, -⟩) <;> rw [hgrow] at ht <;> injection ht
  | ok x r =>
    obtain ⟨sz', d'⟩ := x
    have hgrow : growproc p n s = resize p (sz', d') { s with ram := r } := by
      rw [growproc_up hn, bind_ok (onRam_ok hrun)]
    rcases (stock_allocuvm (P := h.pool) h.sz_le).ok h.stock hrun with
      ⟨hhigh, -⟩ | ⟨hlow, -⟩ | ⟨-, -, ⟨-, hfree, -⟩ | ⟨hsz, -, hentry, -⟩⟩
    · omega
    · omega
    · exact absurd hfree hover
    · obtain rfl : sz' = 0 := hsz
      rw [growsExactly_of_same (hgrow.trans (resize_zero _))]
      intro hsame
      refine hover fun k h1 h2 => ?_
      have hkept := hsame.space.kept k Iff.rfl
      rw [withSpace_pgdir] at hkept
      rw [← hkept]
      exact (congrFun hentry k).trans (if_pos ⟨h1, h2⟩)

end

/-- `growproc` is exact or has no effect if and only if the process does not shrink to nothing or further and
does not grow over a page that is mapped. -/
theorem growproc_exact (h : InMemory s p) : GrowsExactly s p n ↔ GrowFits s p n := by
  rcases lt_trichotomy n.toInt 0 with hn | hn | hn
  · by_cases hleft : 0 < ((s.proc p).sz.toNat : Int) + n.toInt
    · exact iff_of_true (.inl (shrink_exact h hn hleft)) ⟨fun _ => hleft, fun hpos => absurd hpos (by omega)⟩
    · exact iff_of_false (shrink_too_far h hn (by omega)) fun hfits => hleft (hfits.down hn)
  · refine iff_of_true ?_ ⟨fun hneg => absurd hneg (by omega), fun hpos => absurd hpos (by omega)⟩
    rw [growsExactly_of_grew (growproc_zero hn h.kstack h.page_ne)]
    exact ⟨by omega, h.pos, h.below, h.heap, resized_refl _ _ _⟩
  · refine ⟨fun hexact => ⟨fun hneg => absurd hneg (by omega), fun _ hlt => ?_⟩, fun hfits =>
      grow_exact h hn (hfits.up hn)⟩
    by_contra hover
    exact grow_over h hn hlt hover hexact

theorem InMemory.of_owned {e k : Word} (h : Owned e k ∅ s) (hvm : (s.proc p).hasVm)
    (habove : KERNBASE.toNat < e.toNat) (hpos : 0 < (s.proc p).sz.toNat)
    (hbelow : (s.proc p).sz.toNat < KERNBASE.toNat)
    (hheap : ∀ k < pages (s.proc p).sz, (s.proc p).pgdir.entry k ≠ none) : InMemory s p where
  books := by
    rw [h.books.kend]
    refine h.books.ledger.reindex (Owner.pg p) (fun _ _ heq => ?_) fun o v ho => ?_
    · injection heq
    · rwa [State.holds, if_pos hvm]
  above := by rwa [h.books.kend]
  pos := hpos
  below := hbelow
  heap := hheap
  kstack := h.kstack p hvm

theorem boot_inMemory : InMemory boot 1 :=
  .of_owned boot_owned (by decide) (by decide) (by decide) (by decide) fun k hk => by
    obtain rfl : k = 0 := Nat.lt_one_iff.mp hk
    decide +kernel

/-- A process of the small machine that grows by a page, and is told so. -/
theorem growproc_exact_boot : GrowsExactly boot 1 0x1000 ∧
    returns (growproc 1 0x1000 boot) (fun x _ => x == 0) = true := by
  refine ⟨(growproc_exact boot_inMemory).mpr ⟨by decide, fun _ _ k h1 h2 => ?_⟩, by decide +kernel⟩
  obtain rfl : k = 1 := by
    have h1 : 1 ≤ k := h1
    have h2 : k < 2 := h2
    omega
  decide +kernel

/-- A process of one page that gives it back is told that it still has it. -/
theorem growproc_loses_heap : (boot.proc 1).pgdir.entry 0 ≠ none ∧ ∃ t, growproc 1 (-0x1000) boot = .ok (-1) t ∧
    (t.proc 1).sz = 0x1000 ∧ (t.proc 1).pgdir.entry 0 = none := by
  have hrun : returns (growproc 1 (-0x1000) boot) (fun x t => x == -1 && (t.proc 1).sz == 0x1000 &&
      (t.proc 1).pgdir.entry 0 == none) = true := by decide +kernel
  obtain ⟨x, t, hx, htest⟩ := exists_of_returns hrun
  simp only [Bool.and_eq_true, beq_iff_eq] at htest
  obtain ⟨⟨rfl, hsz⟩, hentry⟩ := htest
  exact ⟨by decide +kernel, t, hx, hsz, hentry⟩

/-! ## Page tables in memory -/

/-- No page is there twice: the directory, its page tables and the pages of the process are different ones. -/
def Unshared (d : PgDir) : Prop := ∀ o o' v, d.holds o = some v → d.holds o' = some v → o = o'

/-- The address of the entry for page `n`, in a page table of `d`. -/
def slot (d : PgDir) (n : Nat) : Word :=
  P2V (pteAddr (d.pde (n / NPDENTRIES))) + BitVec.ofNat 32 (4 * (n % NPDENTRIES))

/-- The store of `x` to the entry for page `n` changes all entries at its address. -/
def storePte (d : PgDir) (n : Nat) (x : Word) : PgDir :=
  { d with
    pte := fun m =>
      if m < 2 ^ 20 ∧ hasFlag (d.pde (m / NPDENTRIES)) PTE_P ∧ slot d m = slot d n then x else d.pte m }

theorem toNat_slot (d : PgDir) (k : Nat) :
    (slot d k).toNat = (P2V (pteAddr (d.pde (k / NPDENTRIES)))).toNat + 4 * (k % NPDENTRIES) ∧
      (P2V (pteAddr (d.pde (k / NPDENTRIES)))).toNat % 4096 = 0 := by
  have hpte := toNat_pteAddr (d.pde (k / NPDENTRIES))
  have hlow : k % NPDENTRIES < 1024 := Nat.mod_lt _ (by decide)
  rw [slot, BitVec.toNat_add, P2V, BitVec.toNat_add, BitVec.toNat_ofNat, show KERNBASE.toNat = 2 ^ 31 from rfl]
  omega

theorem storePte_eq (hd : Unshared d) (hpde : d'.pde = d.pde) {k : Nat} (hk : k < 2 ^ 20)
    (hp : hasFlag (d.pde (k / NPDENTRIES)) PTE_P) (x : Word) : storePte d' k x = d'.setPte k x := by
  have htable : ∀ i, i < 2 ^ 20 → hasFlag (d.pde (i / NPDENTRIES)) PTE_P →
      d.holds (.table (i / NPDENTRIES)) = some (P2V (pteAddr (d.pde (i / NPDENTRIES)))) :=
    fun i hi h => if_pos ⟨by unfold NPDENTRIES; omega, h⟩
  have hiff : ∀ j, (j < 2 ^ 20 ∧ hasFlag (d'.pde (j / NPDENTRIES)) PTE_P ∧ slot d' j = slot d' k) ↔ j = k := by
    intro j
    refine ⟨fun ⟨hj, hpj, hslot⟩ => ?_, fun h => ?_⟩
    · obtain ⟨hsj, haj⟩ := toNat_slot d' j
      obtain ⟨hsk, hak⟩ := toNat_slot d' k
      rw [hpde] at hpj hsj haj hsk hak
      rw [hslot] at hsj
      have hpage : P2V (pteAddr (d.pde (j / NPDENTRIES))) = P2V (pteAddr (d.pde (k / NPDENTRIES))) := by
        rw [← BitVec.toNat_inj]
        simp only [NPDENTRIES] at *
        omega
      have hheld := htable j hj hpj
      rw [hpage] at hheld hsj
      have hindex := PgOwner.table.inj (hd _ _ _ hheld (htable k hk hp))
      simp only [NPDENTRIES] at *
      omega
    · subst h
      exact ⟨hk, by rwa [hpde], rfl⟩
  unfold storePte PgDir.setPte
  congr
  funext j
  simp only [hiff, Function.update_apply]

end Xv6.Exec
