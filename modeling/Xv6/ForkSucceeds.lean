import Xv6.Boot
import Xv6.PageMap

/-!
# A fork that succeeds

`fork` maps 65536 pages of the kernel into the new page directory, so it cannot be computed. These lemmas
say that it gets as far as `copy_maps` when there are enough free pages, and that memory of zeros, as in
`boot`, stays so.
-/

namespace Xv6

open Hoare

variable {z : Prop} {k top : Nat} {d : PgDir}

/-! ## `copyuvm` -/

/-- There are `k` free pages, and memory holds only zeros if `z` says so. -/
structure Roomy (z : Prop) (k : Nat) (r : Ram) : Prop where
  blank : z → ∀ a, r.mem a = 0
  room : k ≤ r.freelist.length
  kdata : r.kdata = boot.ram.kdata

theorem Roomy.mono {k' : Nat} {r : Ram} (h : Roomy z k r) (hk : k' ≤ k) : Roomy z k' r :=
  { h with room := hk.trans h.room }

/-- No entry for the pages from `m` up to `top` is present. -/
def PgDir.Clear (d : PgDir) (m top : Nat) : Prop :=
  ∀ n, m ≤ n → n < top → hasFlag (d.pde (n / NPDENTRIES)) PTE_P → hasFlag (d.pte n) PTE_P = false

theorem roomy_kalloc : Triple (Roomy z (k + 1)) kalloc (fun o r => Roomy z k r ∧ ∃ v, o = some v)
    ⊥ := by
  refine ⟨fun r hr => ?_⟩
  unfold kalloc
  cases hfl : r.freelist with
  | nil => exact absurd hr.room (by simp [hfl])
  | cons v fl => exact ⟨⟨hr.blank, by simpa [hfl] using hr.room, hr.kdata⟩, v, rfl⟩

theorem roomy_memset (dst : Word) : Keeps (Roomy z k) ⊥ (memset dst 0) := by
  refine .modify fun r hr => { hr with blank := fun hz a => ?_ }
  dsimp only
  split
  · rfl
  · exact hr.blank hz a

theorem roomy_memmove (dst src : Word) : Keeps (Roomy z k) ⊥ (memmove dst src) := by
  refine .modify fun r hr => { hr with blank := fun hz a => ?_ }
  dsimp only
  split <;> exact hr.blank hz _

/-- The page tables that are missing for the pages `m` to `m + n`, at most. -/
def PgDir.missing (d : PgDir) (m n : Nat) : Nat :=
  (m + n) / NPDENTRIES - m / NPDENTRIES +
    if hasFlag (d.pde (m / NPDENTRIES)) PTE_P then 0 else 1

theorem PgDir.missing_le (d : PgDir) (m n : Nat) :
    d.missing m n ≤ (m + n) / NPDENTRIES - m / NPDENTRIES + 1 := by
  unfold missing
  split <;> omega

theorem roomy_walkpgdir (va : Word) (hclear : d.Clear (vpn va) top) :
    Triple (Roomy z (k + if hasFlag (d.pde (pdx va)) PTE_P then 0 else 1)) (walkpgdir d va)
      (fun o r => Roomy z k r ∧ ∃ d', o = some d' ∧ hasFlag (d'.pde (pdx va)) PTE_P ∧
        d'.Clear (vpn va) top ∧ ∀ j, j ≠ pdx va → d'.pde j = d.pde j)
      ⊥ := by
  refine .ite (fun hp => ?_) fun hp => ?_
  · rw [if_pos hp]
    exact .pure fun r hr => ⟨hr, d, rfl, hp, hclear, fun _ _ => rfl⟩
  · rw [if_neg hp]
    refine .bind roomy_kalloc fun o => .pre_and fun ho => ?_
    obtain ⟨pg, rfl⟩ := ho
    refine .bind (roomy_memset pg) fun _ => .pure fun r hr => ⟨hr, _, rfl, ?_, ?_, ?_⟩
    · rw [PgDir.setTable_pde, if_pos rfl]
      exact PgDir.hasFlag_table pg
    · intro n hn htop hpde
      rw [PgDir.setTable_pde] at hpde
      rw [PgDir.setTable_pte]
      by_cases hk : n / NPDENTRIES = pdx va
      · rw [if_pos hk]
        exact hasFlag_zero _
      · rw [if_neg hk] at hpde ⊢
        exact hclear n hn htop hpde
    · intro j hj
      rw [PgDir.setTable_pde, if_neg hj]

theorem roomy_mappagesLoop (perm : Word) (n : Nat) (a pa : Word) (hn : vpn a + n < top)
    (htop : top ≤ 2 ^ 20) (hclear : d.Clear (vpn a) top) :
    Triple (Roomy z (k + d.missing (vpn a) n)) (mappagesLoop perm n d a pa)
      (fun x r => Roomy z k r ∧ x.1 = true ∧ x.2.Clear (vpn a + n + 1) top ∧
        ∀ j, j < pdx a ∨ (vpn a + n) / NPDENTRIES < j → x.2.pde j = d.pde j)
      ⊥ := by
  refine ((mappagesLoop_rule (F := fun _ _ => False) (I := fun i d' r =>
    Roomy z (k + if i ≤ n then d'.missing (vpn a + i) (n - i) else 0) r ∧ d'.Clear (vpn a + i) top ∧
      ∀ j, j < pdx a ∨ (vpn a + n) / NPDENTRIES < j → d'.pde j = d.pde j) n fun i hi d' b hb =>
    .pre_and ?_).pre fun r hr => ⟨hr, hclear, fun _ _ => rfl⟩).post fun x r hx => ?_
  · rintro ⟨hclear', hpde⟩
    have hvpn := hb (by omega)
    have hpdx := vpn_div b
    rw [← hvpn] at hclear'
    have hroom : d'.missing (vpn a + i) (n - i) = (vpn a + n) / NPDENTRIES - pdx b +
        if hasFlag (d'.pde (pdx b)) PTE_P then 0 else 1 := by
      rw [PgDir.missing, ← hvpn, hpdx, hvpn, Nat.add_assoc, Nat.add_sub_cancel' hi]
    rw [if_pos hi, hroom, ← Nat.add_assoc]
    refine (roomy_walkpgdir b hclear').post ?_
    rintro o r ⟨hr, d₁, rfl, hp, hclear₁, hpde₁⟩
    have hpte : hasFlag (d₁.pte (vpn b)) PTE_P = false := hclear₁ _ le_rfl (by omega) (by rwa [hpdx])
    rw [Option.elim_some, if_neg (by simp [hpte])]
    refine ⟨hr.mono ?_, fun m hm hm' hmp => ?_, fun j hj => ?_⟩
    · split
      -- the next page has a page table already, or it is the first one of the next table
      next hmore =>
        have hend : vpn a + (i + 1) + (n - (i + 1)) = vpn a + n := by omega
        by_cases hsame : (vpn a + (i + 1)) / NPDENTRIES = pdx b
        · rw [PgDir.missing, PgDir.setPte_pde, hsame, if_pos hp, hend]
          omega
        · refine Nat.add_le_add_left ((PgDir.missing_le _ _ _).trans ?_) k
          simp only [NPDENTRIES] at *
          omega
      next => omega
    · rw [PgDir.setPte_pte, if_neg (by omega)]
      exact hclear₁ m (by omega) hm' hmp
    · have hja := vpn_div a
      simp only [NPDENTRIES] at *
      rw [PgDir.setPte_pde, hpde₁ j (by omega), hpde j hj]
  · split at hx
    next hdone =>
      rw [if_neg (by omega)] at hx
      exact ⟨hx.1, hdone, hx.2⟩
    next => exact hx.elim

/-- A directory with an empty user half. -/
def PgDir.kernelOnly (d : PgDir) : Prop := ∀ j < 512, hasFlag (d.pde j) PTE_P = false

theorem clear_of_kernelOnly (hd : d.kernelOnly) : d.Clear 0 0x80000 := by
  intro n _ hn hp
  rw [hd _ (by rw [NPDENTRIES]; omega)] at hp
  cases hp

theorem roomy_mappages (va size pa perm : Word) (n m : Nat) (hva : pgRoundDown va = va)
    (hn : vpn (pgRoundDown (va + size - 1) - va) = n) (hm : vpn va = m) (hmn : m + n < top)
    (htop : top ≤ 2 ^ 20) (hclear : d.Clear m top) :
    Triple (Roomy z (k + ((m + n) / NPDENTRIES - m / NPDENTRIES + 1))) (mappages d va size pa perm)
      (fun x r => Roomy z k r ∧ x.1 = true ∧ x.2.Clear (m + n + 1) top ∧
        ∀ j, j < m / NPDENTRIES ∨ (m + n) / NPDENTRIES < j → x.2.pde j = d.pde j)
      ⊥ := by
  unfold mappages
  dsimp only
  rw [hva, hn]
  subst hm
  have hloop := roomy_mappagesLoop (z := z) (k := k) perm n va pa hmn htop hclear
  rw [← vpn_div] at hloop
  exact hloop.pre fun r hr => hr.mono (Nat.add_le_add_left (d.missing_le _ _) k)

theorem roomy_setupkvm : Triple (Roomy z (k + 67)) setupkvm
    (fun o r => Roomy z k r ∧ ∃ d, o = some d ∧ d.kernelOnly) ⊥ := by
  unfold setupkvm
  refine .bind (roomy_kalloc (k := k + 66)) fun o => .pre_and fun ho => ?_
  obtain ⟨pgdir, rfl⟩ := ho
  refine .bind (roomy_memset pgdir) fun _ => ?_
  rw [if_neg (by decide)]
  refine .read fun r hr => ?_
  rw [hr.kdata]
  let d0 : PgDir := { PgDir.null with page := pgdir }
  have hd0 : ∀ m, d0.Clear m (2 ^ 20) := fun m n _ _ _ => hasFlag_zero _
  -- the four rows lie one above the other, so each finds its pages unmapped
  unfold kmap setupkvmLoop
  refine .bind (roomy_mappages (k := k + 65) KERNBASE _ _ _ 0xFF 0x80000 (by decide) (by decide)
    (by decide) (by decide) le_rfl (hd0 _)) fun x1 => .pre_and ?_
  rintro ⟨h1, hc1, hp1⟩
  rw [if_pos h1]
  unfold setupkvmLoop
  refine .bind (roomy_mappages (k := k + 64) KERNLINK _ _ _ 7 0x80100 (by decide) (by decide)
    (by decide) (by decide) le_rfl hc1) fun x2 => .pre_and ?_
  rintro ⟨h2, hc2, hp2⟩
  rw [if_pos h2]
  unfold setupkvmLoop
  refine .bind (roomy_mappages (k := k + 8) boot.ram.kdata _ _ _ 0xDEF7 0x80108 (by decide) (by decide)
    (by decide) (by decide) le_rfl hc2) fun x3 => .pre_and ?_
  rintro ⟨h3, hc3, hp3⟩
  rw [if_pos h3]
  unfold setupkvmLoop
  refine .bind (roomy_mappages (k := k) DEVSPACE _ _ _ 0x1FFF 0xFE000 (by decide) (by decide)
    (by decide) (by decide) le_rfl fun n hn => hc3 n (by omega)) fun x4 => .pre_and ?_
  rintro ⟨h4, -, hp4⟩
  rw [if_pos h4]
  unfold setupkvmLoop
  refine .pure fun r hr => ⟨hr, x4.2, rfl, fun j hj => ?_⟩
  simp only [NPDENTRIES] at *
  rw [hp4 j (by omega), hp3 j (by omega), hp2 j (by omega), hp1 j (by omega)]
  exact hasFlag_zero _

theorem roomy_copyuvm {pgdir : PgDir} {pte : Word} (hwalk : pgdir.walk 0 = some pte)
    (hpte : hasFlag pte PTE_P) :
    Triple (Roomy z (k + 69)) (copyuvm pgdir 0x1000) (fun o r => Roomy z k r ∧ ∃ d, o = some d) ⊥ := by
  refine .bind (roomy_setupkvm (k := k + 2)) fun o => .pre_and ?_
  rintro ⟨d, rfl, hd⟩
  show Triple _ (copyuvmLoop pgdir 1 0 d) _ _
  unfold copyuvmLoop
  rw [hwalk]
  dsimp only
  rw [if_neg (by simp [hpte])]
  refine .bind (roomy_kalloc (k := k + 1)) fun o => .pre_and ?_
  rintro ⟨mem, rfl⟩
  refine .bind (roomy_memmove _ _) fun _ => .bind (roomy_mappages (k := k) 0 _ _ _ 0 0 (by decide)
    (by decide) (by decide) (by decide) (by decide) (clear_of_kernelOnly hd)) fun x => .pre_and ?_
  rintro ⟨hx, -⟩
  rw [if_pos hx]
  exact .pure fun r hr => ⟨hr, x.2, rfl⟩

/-! ## `fork` up to `copy_maps` -/

/-- Process `p`, which is `x`, can fork: there are `k` free pages, and its files have references. -/
structure Forkable (k : Nat) (p : Fin NPROC) (x : Proc) (s : State) : Prop where
  roomy : Roomy True k s.ram
  proc : s.proc p = x
  fds : ∀ fd f, x.ofile fd = some f → 1 ≤ (s.fs.file f).ref

variable {p np : Fin NPROC} {x : Proc}

theorem Forkable.updProc {s : State} (h : Forkable k p x s) (hne : np ≠ p) (g : Proc → Proc) :
    Forkable k p x (s.updProc np g) :=
  { h with proc := by rw [updProc_of_ne _ hne.symm, h.proc] }

theorem forkable_onRam {α : Type} {m : RamM α} {c : α → Prop} {k' : Nat}
    (hm : Triple (Roomy True k') m (fun a r => Roomy True k r ∧ c a) ⊥) :
    Triple (Forkable k' p x) (onRam m) (fun a s => Forkable k p x s ∧ c a) ⊥ := by
  refine ⟨fun s hs => ?_⟩
  have hrun := hm.run s.ram hs.roomy
  unfold onRam
  cases hr : m s.ram with
  | ok a r =>
    rw [hr] at hrun
    exact ⟨{ hs with roomy := hrun.1 }, hrun.2⟩
  | error e r =>
    rw [hr] at hrun
    exact hrun

theorem forkable_allocproc (hne : np ≠ p) :
    Triple (fun s => Forkable (k + 1) p x s ∧
        (List.finRange NPROC).find? (fun q => (s.proc q).state == .unused) = some np) allocproc
      (fun o s => Forkable k p x s ∧ o = some np) ⊥ := by
  unfold allocproc
  refine .get fun t ht => ?_
  rw [ht.2]
  dsimp only
  refine .update (R := Forkable (k + 1) p x) ?_ ?_
  · rintro _ rfl
    exact ht.1.updProc hne _
  refine .update (R := Forkable (k + 1) p x) (fun s hs => { hs with }) ?_
  refine .bind (forkable_onRam roomy_kalloc) fun o => .pre_and ?_
  rintro ⟨v, rfl⟩
  exact .update (R := Forkable k p x) (fun s hs => hs.updProc hne _) <| .pure fun s hs => ⟨hs, rfl⟩

theorem forkable_filedup {f : Fin NFILE} {fd : Fin NOFILE} (hf : x.ofile fd = some f) :
    Keeps (Forkable k p x) ⊥ (filedup f) := by
  refine .get fun t ht => ?_
  rw [if_neg (Nat.not_lt.mpr (ht.fds fd f hf))]
  refine .modify fun s hs => { hs with fds := fun fd g h => ?_ }
  have hg := hs.fds fd g h
  by_cases hgf : g = f
  · subst hgf
    simp
  · simpa [hgf] using hg

theorem forkable_forkFill (hne : np ≠ p) (d : PgDir) {n : Nat} (hcwd : x.cwd = some n) :
    Keeps (Forkable k p x) ⊥ (forkFill p np d) := by
  have hdup : ∀ fd, Keeps (Forkable k p x) ⊥ (dupFd p np fd) := by
    intro fd
    refine .get fun t ht => ?_
    rw [ht.proc]
    cases hf : x.ofile fd with
    | none => exact .pure _
    | some f =>
      exact .bind (forkable_filedup hf) fun _ => .modify fun s hs => hs.updProc hne _
  refine .get fun t _ => .update (fun s hs => hs.updProc hne _) <|
    .bind (.forM _ fun fd _ => hdup fd) fun _ => .get fun t ht => ?_
  rw [ht.proc, hcwd]
  exact .update (fun s hs => { hs with }) <| .modify fun s hs => hs.updProc hne _

theorem forkable_fork (hne : np ≠ p) {pte : Word} (hwalk : x.pgdir.walk 0 = some pte)
    (hpte : hasFlag pte PTE_P) (hsz : x.sz = 0x1000) {n : Nat} (hcwd : x.cwd = some n)
    {Q : Word → State → Prop} {E : Stop → State → Prop}
    (hmaps : ∀ pid : Word, Triple (Forkable k p x) (do
      copyMaps p np
      pure pid) Q E) :
    Triple (fun s => Forkable (k + 70) p x s ∧
      (List.finRange NPROC).find? (fun q => (s.proc q).state == .unused) = some np) (fork p) Q E := by
  unfold fork
  have hnever : ∀ (e : Stop) (s : State), False → E e s := fun _ _ h => h.elim
  refine .bind ((forkable_allocproc hne).conseq (fun s hs => hs) (fun _ _ h => h) hnever) fun o => ?_
  refine .pre_and fun ho => ?_
  subst ho
  refine .read fun t ht => ?_
  rw [ht.proc, hsz]
  refine .bind ((forkable_onRam (k := k) (roomy_copyuvm hwalk hpte)).conseq
    (fun s hs => hs) (fun _ _ h => h) hnever) fun o => .pre_and ?_
  rintro ⟨d, rfl⟩
  refine .bind ((forkable_forkFill hne d hcwd).conseq (fun s hs => hs) (fun _ _ h => h) hnever)
    fun _ => ?_
  exact .update (R := Forkable k p x) (fun s hs => hs.updProc hne _) <| hmaps _

end Xv6
