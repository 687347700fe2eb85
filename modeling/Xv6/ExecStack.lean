import Xv6.ExecImage

/-!
# The stack of a new program

`exec` puts two pages on top of the program, closes the lower one to user code and copies the arguments into
the upper one. The stack pointer can leave the page and even pass address `0`. Below the stack page
`copyout` comes to the closed page, and above the kernel's half to the devices; there it stops.
-/

namespace Xv6.Exec

open Hoare
open BitVec (toNat_add toNat_ofNat ofNat)

variable {P : Pool} {img : Word → Byte} {hand : Set Word} {r : Ram} {E : Stop → Ram → Prop}
  {d d' : PgDir} {κ : KernelHalf} {a va sz : Word} {buf : Bytes} {s : State} {p : Fin NPROC}

/-! ## The kernel's half of a new directory -/

/-- From `d` to `d'` the page numbers from `lo` to `hi` were mapped, all of them if `done`. -/
structure Maps (d d' : PgDir) (lo hi : Nat) (done : Bool) : Prop where
  kept : ∀ n, d.entry n ≠ none → d'.entry n ≠ none
  tables : ∀ k, k < lo / 1024 ∨ hi / 1024 < k → d'.pde k = d.pde k
  mapped : done = true → ∀ n, lo ≤ n → n ≤ hi → d'.entry n ≠ none

variable {pa perm : Word}

theorem Maps.entry {d₁ : PgDir} {lo hi : Nat} (h : Maps d d' lo hi false)
    (hentry : d₁.entry = d'.entry) (hpde : hasFlag (d₁.pde (pdx a)) PTE_P)
    (htables : ∀ k, k ≠ pdx a → d₁.pde k = d'.pde k) (hlo : lo ≤ vpn a) (hhi : vpn a ≤ hi) :
    Maps d (d₁.setPte (vpn a) (pa ||| perm ||| PTE_P)) lo hi false where
  kept n hn := by
    rw [entry_map hpde, hentry]
    by_cases hna : n = vpn a
    · simp [hna]
    · rw [Function.update_of_ne hna]
      exact h.kept n hn
  tables k hk := by
    have hne : k ≠ pdx a := by
      rw [← vpn_div]
      unfold NPDENTRIES
      omega
    rw [PgDir.setPte_pde, htables k hne, h.tables k hk]
  mapped := nofun

theorem maps_mappagesLoop (k : Nat) (hk : vpn a + k < 2 ^ 20) :
    Triple (fun _ => True) (mappagesLoop perm k d a pa)
      (fun x _ => Maps d x.2 (vpn a) (vpn a + k) x.1) ⊤ := by
  refine ((mappagesLoop_rule (E := ⊤) (F := fun d' _ => Maps d d' (vpn a) (vpn a + k) false)
    (I := fun i d' _ => Maps d d' (vpn a) (vpn a + k) false ∧
      ∀ n, vpn a ≤ n → n < vpn a + i → d'.entry n ≠ none) k fun i hi d' b hb => ?_).pre
    fun r _ => ?_).post fun x r hx => ?_
  · refine ⟨fun r hd' => (walkpgdir_entry.post fun o r ho => ?_).run r trivial⟩
    cases o with
    | none => exact hd'.1
    | some d₁ =>
      obtain ⟨hentry, hpde, htables⟩ := ho
      have hvpn := hb (by omega)
      rw [Option.elim_some]
      split
      next => trivial
      next =>
        refine ⟨hd'.1.entry hentry hpde htables (by omega) (by omega), fun n h1 h2 => ?_⟩
        rw [entry_map hpde, hentry]
        by_cases hn : n = vpn b
        · simp [hn]
        · rw [Function.update_of_ne hn]
          exact hd'.2 n h1 (by omega)
  · exact ⟨⟨fun _ => id, fun _ _ => rfl, nofun⟩, fun n h1 h2 => absurd h2 (by omega)⟩
  · cases hdone : x.1 with
    | true =>
      rw [if_pos hdone] at hx
      exact ⟨hx.1.kept, hx.1.tables, fun _ n h1 h2 => hx.2 n h1 (by omega)⟩
    | false =>
      rw [if_neg (by simp [hdone])] at hx
      exact hx

/-- What all rows of `l` map. -/
structure RowsMapped (l : List Kmap) (d d' : PgDir) : Prop where
  kept : ∀ n, d.entry n ≠ none → d'.entry n ≠ none
  tables : ∀ k, (∀ m ∈ l, k < m.first / 1024 ∨ m.last / 1024 < k) → d'.pde k = d.pde k
  mapped : ∀ m ∈ l, ∀ n, m.first ≤ n → n ≤ m.last → d'.entry n ≠ none

theorem maps_setupkvmLoop (l : List Kmap) (hl : ∀ m ∈ l, KernelRow m) :
    Triple (fun _ => True) (setupkvmLoop l d) (fun o _ => ∀ d', o = some d' → RowsMapped l d d')
      ⊤ := by
  induction l generalizing d with
  | nil =>
    refine .pure fun r _ d' hd => ?_
    obtain rfl := Option.some.inj hd
    exact ⟨fun _ => id, fun _ _ => rfl, by rintro _ ⟨⟩⟩
  | cons m l ih =>
    have hm := hl m List.mem_cons_self
    unfold setupkvmLoop
    refine .bind (maps_mappagesLoop _ hm.below) fun x => ⟨fun r hx => ?_⟩
    refine Triple.run (P := fun _ => True) (.ite (fun hdone => ?_) fun _ => ?_) r trivial
    · refine (ih fun m' hm' => hl m' (List.mem_cons_of_mem _ hm')).post fun o r ho d' hd => ?_
      have hrest := ho d' hd
      refine ⟨fun n hn => hrest.kept n (hx.kept n hn), fun k hk => ?_, fun m' hm' n h1 h2 => ?_⟩
      · rw [hrest.tables k fun m' hm' => hk m' (List.mem_cons_of_mem _ hm')]
        exact hx.tables k (hk m List.mem_cons_self)
      · rcases List.mem_cons.mp hm' with rfl | hm'
        · exact hrest.kept n (hx.mapped hdone n h1 h2)
        · exact hrest.mapped m' hm' n h1 h2
    · exact .bind (R := fun _ _ => True) ⟨fun r _ => by split <;> trivial⟩ fun _ =>
        .pure fun r _ => by rintro _ ⟨⟩

/-- The devices are mapped, and between them and the memory there is no page table. -/
structure DevicesMapped (d : PgDir) : Prop where
  devices : ∀ n, 0xFE000 ≤ n → n < 2 ^ 20 → d.entry n ≠ none
  hole : ∀ k, 568 ≤ k → k < 1016 → hasFlag (d.pde k) PTE_P = false

theorem maps_setupkvm {k : Word} (hk : Linked k) : Triple (fun r => r.kdata = k) setupkvm
    (fun o _ => ∀ d, o = some d → DevicesMapped d) ⊤ := by
  unfold setupkvm
  refine .bind (R := fun _ r => r.kdata = k) ⟨fun r hr => ?_⟩ fun o => ?_
  · unfold kalloc
    cases r.freelist <;> exact hr
  cases o with
  | none => exact .pure fun r _ => nofun
  | some pgdir =>
    refine .update (R := fun r => r.kdata = k) (fun _ hr => hr) ?_
    refine .ite (fun hlow => absurd hlow (by decide)) fun _ => .get fun r hr => ?_
    rw [hr]
    refine ((maps_setupkvmLoop _ (kernelRow_kmap hk)).pre fun _ _ => trivial).post fun o r ho d hd => ?_
    have hrows := ho d hd
    have hspan : ∀ m ∈ kmap k, (m.first, m.last) ∈ (kmap k).map fun m => (m.first, m.last) := fun m hm =>
      List.mem_map_of_mem hm
    rw [kmap_spans hk] at hspan
    refine ⟨fun n h1 h2 => ?_, fun j h1 h2 => ?_⟩
    · have hrow : (Kmap.mk DEVSPACE DEVSPACE 0 PTE_W).last = 0xFFFFF := by decide
      exact hrows.mapped ⟨DEVSPACE, DEVSPACE, 0, PTE_W⟩ (by simp [kmap]) n h1 (by omega)
    · rw [hrows.tables j fun m hm => ?_]
      · simp [PgDir.null]
      · have hk2 : k.toNat < 0x8E000000 := hk.below
        have := hspan m hm
        simp only [List.mem_cons, Prod.mk.injEq, List.not_mem_nil, or_false] at this
        omega

/-! ## The page that is closed -/

/-- A program of `n` pages: the last one is the stack, and the one below it is closed to user code. -/
structure Stacked (κ : KernelHalf) (d : PgDir) (n : Nat) : Prop where
  two : 2 ≤ n
  low : n ≤ 0x80000
  user : ∀ k < n, k ≠ n - 2 → ∃ v, d.entry k = some (userPte v)
  guard : ∃ pte, d.entry (n - 2) = some pte ∧ hasFlag pte PTE_U = false
  clear : d.ClearFrom n 0x80000
  kernel : κ.In d

variable {n : Nat}
variable {k : Nat}

section
variable (h : Stacked κ d n)
include h

theorem Stacked.present (hk : k < n) : ∃ pte, d.entry k = some pte := by
  by_cases hg : k = n - 2
  · obtain ⟨pte, hpte, -⟩ := h.guard
    exact ⟨pte, hg ▸ hpte⟩
  · obtain ⟨v, hv⟩ := h.user k hk hg
    exact ⟨_, hv⟩

theorem Stacked.holds (hk : k < n) : ∃ v, d.holds (.user k) = some v := by
  obtain ⟨pte, hpte⟩ := h.present hk
  exact ⟨_, holds_user_of_entry hpte (if_pos (.inl (lt_of_lt_of_le hk h.low)))⟩

theorem Stacked.walk (ha : vpn a < n) : d.walk a ≠ none := by
  obtain ⟨pte, hpte⟩ := h.present ha
  simp [walk_of_entry hpte]

theorem Stacked.access (a : Word) (w : Bool) : d.access a true w = true ↔ vpn a < n ∧ vpn a ≠ n - 2 := by
  rw [access_entry]
  by_cases hlt : vpn a < n
  · by_cases hg : vpn a = n - 2
    · obtain ⟨pte, hpte, huser⟩ := h.guard
      simp [hg, hpte, huser]
    · obtain ⟨v, hv⟩ := h.user _ hlt hg
      simp [hlt, hg, hv, user_userPte, writable_userPte]
  · cases hentry : d.entry (vpn a) with
    | none => simp [hlt]
    | some pte =>
      by_cases hhalf : vpn a < 0x80000
      · rw [h.clear _ (not_lt.mp hlt) hhalf] at hentry
        cases hentry
      · simp [hlt, h.kernel.user (not_lt.mp hhalf) hentry]

end

theorem toNat_pgRoundUp (h : sz.toNat ≤ 2 ^ 31) : (pgRoundUp sz).toNat = 4096 * pages sz := by
  rw [← vpn_pgRoundUp h, mul_comm]
  exact (vpn_of_aligned (aligned_pgRoundUp sz)).symm

theorem pages_pgRoundUp (h : sz.toNat ≤ 2 ^ 31) : pages (pgRoundUp sz) = pages sz := by
  rw [pages, toNat_pgRoundUp h]
  omega

theorem Filled.roundUp (h : Filled κ d sz) : Filled κ d (pgRoundUp sz) where
  low := by
    have := pages_le_kernel h.low
    rw [toNat_pgRoundUp h.low]
    omega
  user := by
    rw [pages_pgRoundUp h.low]
    exact h.user
  clear := by
    rw [pages_pgRoundUp h.low]
    exact h.clear
  kernel := h.kernel

theorem holds_clearpteu {pte : Word} (hentry : d.entry k = some pte) (hk : k < 0x80000) :
    (d.setPte k (pte &&& ~~~PTE_U)).entry = Function.update d.entry k (some (pte &&& ~~~PTE_U)) ∧
      (d.setPte k (pte &&& ~~~PTE_U)).holds = d.holds := by
  obtain ⟨⟨hlt, hpde, hpte⟩, rfl⟩ := entry_eq_some.mp hentry
  have hflag : hasFlag (d.pte k &&& ~~~PTE_U) PTE_P := by
    unfold hasFlag at *
    rwa [BitVec.and_assoc, show ~~~PTE_U &&& PTE_P = PTE_P from rfl]
  have haddr : pteAddr (d.pte k &&& ~~~PTE_U) = pteAddr (d.pte k) := by
    unfold pteAddr
    rw [BitVec.and_assoc]
    rfl
  have hupd := entry_setPte hlt hpde hflag
  refine ⟨hupd, ?_⟩
  rw [holds_setPte_eq hupd]
  refine Function.update_eq_self_iff.mpr ?_
  rw [holds_user_entry, hentry]
  show userPage k _ = userPage k _
  rw [userPage, userPage, if_pos (.inl hk), if_pos (.inl hk), haddr]

theorem stacked_clearpteu (hd : Filled κ d sz) (htwo : 2 ≤ n) (hn : sz.toNat = 4096 * n) :
    Triple (Stock P img d.holds hand) (clearpteu d (sz - 2 * PGSIZE)) (fun d' r =>
      Stock P img d'.holds hand r ∧ Stacked κ d' n ∧ d'.pde = d.pde) E := by
  have hlow := hd.low
  have hpages : pages sz = n := by
    unfold pages
    omega
  have hguard : vpn (sz - 2 * PGSIZE) = n - 2 := by
    rw [vpn, BitVec.toNat_sub_of_le (by rw [BitVec.le_def]; show 8192 ≤ _; omega),
      show (2 * PGSIZE).toNat = 8192 from rfl]
    omega
  obtain ⟨v, -, hentry⟩ := hd.user (n - 2) (by omega)
  obtain ⟨hupd, hholds⟩ := holds_clearpteu hentry (show n - 2 < 0x80000 by omega)
  unfold clearpteu
  rw [walk_of_entry (hguard ▸ hentry), hguard]
  refine .pure fun r hr => ⟨by rwa [hholds], ⟨htwo, by omega, fun k hk hg => ?_, ?_, ?_, ?_⟩, rfl⟩
  · rw [hupd, Function.update_of_ne hg]
    obtain ⟨w, -, hw⟩ := hd.user k (by omega)
    exact ⟨w, hw⟩
  · refine ⟨_, by rw [hupd, Function.update_self], ?_⟩
    unfold hasFlag
    rw [BitVec.and_assoc]
    simp
  · intro k h1 h2
    rw [hupd, Function.update_of_ne (by omega)]
    exact hd.clear k (by omega) h2
  · refine hd.kernel.congr fun k hk => ?_
    rw [hupd, Function.update_of_ne (by omega)]

/-! ## Copying to the stack -/

/-- The state `s` with the memory `m`, in which the directory has its pages and user code sees `img`. -/
def Shows (P : Pool) (hand : Set Word) (d : PgDir) (s : State) (img : Word → Byte) (m : Word → Byte) :
    Prop :=
  Stock P img d.holds hand { s.ram with mem := m }

theorem Stacked.copied {m : Word → Byte} {done : Bool} (hd : Stacked κ d n)
    (hstock : Stock P img d.holds hand s.ram) (hlen : k ≤ 2 ^ 32) (h : Copied d va buf s.ram.mem done k m) :
    Shows P hand d s (overlay img va (buf.take k)) m := by
  have hle := h.le
  have htake : (buf.take k).length = k := by
    rw [List.length_take]
    omega
  refine stock_copy hstock (by omega) (fun j hj => hd.holds ?_) h.bytes
  exact ((hd.access _ _).mp (h.range.user j (by omega))).1

theorem Stacked.kernelAddr_ne_zero (hd : Stacked κ d n) (hstock : Stock P img d.holds hand r)
    (ha : vpn a < n) (hg : vpn a ≠ n - 2) : kernelAddr d a ≠ 0 := by
  obtain ⟨v, hv⟩ := hd.user _ ha hg
  have hheld := holds_user_of_entry hv (if_pos (.inl (lt_of_lt_of_le ha hd.low)))
  rw [kernelAddr, if_pos ((hd.access a false).mpr ⟨ha, hg⟩), (entry_eq_some.mp hv).2]
  exact (P.pages (hstock.books.ok_held hheld)).ne_zero

theorem Stacked.copyout_fits (hd : Stacked κ d n) (hstock : Stock P img d.holds hand s.ram)
    (hlo : 4096 * (n - 1) ≤ va.toNat) (hhi : va.toNat + buf.length ≤ 4096 * n) :
    ∃ m, copyout p d buf.length va buf s = .ok true (withMem s m) ∧
      Shows P hand d s (overlay img va buf) m := by
  have htwo := hd.two
  have hlow := hd.low
  have hin : ∀ k < buf.length, vpn (va + .ofNat 32 k) = n - 1 := by
    intro k hk
    rw [vpn, toNat_add, toNat_ofNat]
    omega
  have hrange : CopyRange d va buf.length :=
    fun k hk => hd.kernelAddr_ne_zero hstock (by rw [hin k hk]; omega) (by rw [hin k hk]; omega)
  have htab : TablesMet d va buf.length := fun k hk _ => hd.walk (by rw [hin k hk]; omega)
  obtain ⟨done, k, m, hcop, hrun⟩ := copyoutWith_run buf.length le_rfl htab s
  have hall : k = buf.length := by
    by_contra hne
    have hlt := lt_of_le_of_ne hcop.le hne
    exact hrange k hlt (hcop.stop hlt)
  refine ⟨m, ?_, ?_⟩
  · rw [copyout_eq, hrun, hcop.done_iff.mpr hall]
  · have hshows := hd.copied hstock (by omega) hcop
    rwa [hall, List.take_length] at hshows

/-- A copy that is finished has met no page that has an entry and is not for user code. -/
theorem copyoutWith_visits {null : K Word} (fuel : Nat) (hfuel : buf.length ≤ fuel) {t : State}
    (h : copyoutWith null d fuel va buf s = .ok true t) (hk : k < buf.length) :
    d.walk (va + .ofNat 32 k) = none ∨ d.access (va + .ofNat 32 k) true false := by
  induction fuel generalizing va buf s k with
  | zero => omega
  | succ fuel ih =>
    have hn : min (4096 - (va - pgRoundDown va).toNat) buf.length = inPage va buf := by
      rw [sub_pgRoundDown, toNat_and_low, inPage]
    rw [copyoutWith, if_neg (by omega)] at h
    dsimp only at h
    rw [hn] at h
    obtain ⟨pa0, s₁, hka, h⟩ := bind_eq_ok.mp h
    by_cases hpa : pa0 = 0
    · rw [if_pos hpa] at h
      cases h
    · rw [if_neg hpa] at h
      obtain ⟨-, s₂, -, hrest⟩ := bind_eq_ok.mp h
      by_cases hin : k < inPage va buf
      · -- the page of `va` decides
        rw [walk_congr (vpn_add_inPage (inPage_lt hin)), access_congr (vpn_add_inPage (inPage_lt hin))]
        cases hw : d.walk va with
        | none => exact .inl rfl
        | some pte =>
          rw [uva2ka_some hw] at hka
          injection hka with ho
          exact .inr (access_of_kernelAddr (ho ▸ hpa))
      · have hnext : pgRoundDown va + PGSIZE = va + .ofNat 32 (inPage va buf) := by
          rw [pgRoundDown_next, show inPage va buf = 4096 - va.toNat % 2 ^ 12 by
            unfold inPage at hin ⊢
            omega]
        have hlen : (buf.drop (inPage va buf)).length = buf.length - inPage va buf := List.length_drop
        have hpos : 0 < inPage va buf := inPage_pos (by omega)
        rw [hnext] at hrest
        have hlate : k - inPage va buf < (buf.drop (inPage va buf)).length := by omega
        have hmet := ih (by omega) hrest hlate
        rwa [add_ofNat_add, Nat.add_sub_cancel' (not_lt.mp hin)] at hmet

/-! ## The stack pointer -/

/-- The bytes that a string takes on the stack. -/
def room (arg : Bytes) : Nat := (arg.length + 1 + 3) / 4 * 4

/-- The stack pointer below a string of `len` bytes. -/
def below (sp : Word) (len : Nat) : Word := (sp - ofNat 32 len) &&& ~~~3

theorem toNat_and_not_three (a : Word) : (a &&& ~~~3).toNat = a.toNat / 4 * 4 := by
  have hlow : (a &&& 3).toNat = a.toNat % 2 ^ 2 := by
    rw [BitVec.toNat_and]
    exact Nat.and_two_pow_sub_one_eq_mod _ 2
  have hsum := congrArg BitVec.toNat (and_add_and_not a 3)
  rw [toNat_add, hlow] at hsum
  omega

variable {sp : Word}

theorem below_cases (arg : Bytes) (hsp : sp.toNat % 4 = 0) (hpos : 4 ≤ sp.toNat) :
    (room arg ≤ sp.toNat ∧ (below sp (arg.length + 1)).toNat = sp.toNat - room arg) ∨
      (sp.toNat < room arg ∧ 2 ^ 32 ≤ (below sp (arg.length + 1)).toNat + (arg.length + 1) ∧
        (room arg ≤ 2 ^ 32 → (below sp (arg.length + 1)).toNat = 2 ^ 32 + sp.toNat - room arg)) := by
  unfold room below
  rw [toNat_and_not_three, BitVec.toNat_sub, toNat_ofNat]
  omega

/-- The kernel's half has the devices in it. -/
def KernelHalf.Devices (κ : KernelHalf) : Prop := ∀ k, 0xFE000 ≤ k → k < 2 ^ 20 → κ.map k ≠ none

theorem KernelHalf.In.device (h : κ.In d) (hdev : κ.Devices) (ha : 0xFE000 ≤ vpn a) :
    d.walk a ≠ none ∧ ¬ d.access a true false := by
  obtain ⟨pte, hpte⟩ := Option.ne_none_iff_exists'.mp (hdev _ ha (vpn_lt a))
  have hentry : d.entry (vpn a) = some pte := by rw [h _ (by omega), hpte]
  refine ⟨by simp [walk_of_entry hentry], ?_⟩
  rw [access_entry, hentry]
  simp [h.user (by omega) hentry]

theorem Stacked.closed (h : Stacked κ d n) (ha : vpn a = n - 2) :
    d.walk a ≠ none ∧ ¬ d.access a true false := by
  have htwo := h.two
  refine ⟨h.walk (by omega), ?_⟩
  rw [h.access]
  omega

section Push
variable {sp : Word} (arg : Bytes) (hd : Stacked κ d n) (hsp : sp.toNat % 4 = 0)
  (hlo : 4096 * (n - 1) ≤ sp.toNat) (hhi : sp.toNat ≤ 4096 * n)
include hd hsp hlo

theorem push_blocked (hdev : κ.Devices) (hroom : sp.toNat < 4096 * (n - 1) + room arg) :
    ∃ k < arg.length + 1, d.walk (below sp (arg.length + 1) + .ofNat 32 k) ≠ none ∧
      ¬ d.access (below sp (arg.length + 1) + .ofNat 32 k) true false := by
  have htwo := hd.two
  have hr : room arg ≤ arg.length + 1 + 3 := Nat.div_mul_le_self _ _
  rcases below_cases arg hsp (by omega) with ⟨hfits, hbelow⟩ | ⟨-, hlast, -⟩
  · -- the first byte in the closed page
    refine ⟨4096 * (n - 2) - (below sp (arg.length + 1)).toNat, by omega, hd.closed ?_⟩
    rw [vpn, toNat_add, toNat_ofNat]
    omega
  · -- the last byte of the address space
    refine ⟨2 ^ 32 - 1 - (below sp (arg.length + 1)).toNat, by omega, hd.kernel.device hdev ?_⟩
    rw [vpn, toNat_add, toNat_ofNat]
    omega

theorem push_not_done (hdev : κ.Devices) (hroom : sp.toNat < 4096 * (n - 1) + room arg) {t : State} :
    copyout p d (arg.length + 1) (below sp (arg.length + 1)) (arg ++ [0]) s ≠ .ok true t := by
  intro hrun
  obtain ⟨k, hk, hwalk, hacc⟩ := push_blocked arg hd hsp hlo hdev hroom
  have hlen : (arg ++ [0]).length = arg.length + 1 := List.length_append
  rw [copyout_eq] at hrun
  rcases copyoutWith_visits _ hlen.le hrun (hlen ▸ hk) with h | h
  · exact hwalk h
  · exact hacc h

include hhi

theorem push_fits (hstock : Stock P img d.holds hand s.ram) (hroom : 4096 * (n - 1) + room arg ≤ sp.toNat) :
    (below sp (arg.length + 1)).toNat = sp.toNat - room arg ∧
    ∃ m, copyout p d (arg.length + 1) (below sp (arg.length + 1)) (arg ++ [0]) s = .ok true (withMem s m) ∧
      Shows P hand d s (overlay img (below sp (arg.length + 1)) (arg ++ [0])) m := by
  have hlen : (arg ++ [0]).length = arg.length + 1 := List.length_append
  have hr : arg.length + 1 ≤ room arg := by
    unfold room
    omega
  rcases below_cases arg hsp (by omega) with ⟨-, hbelow⟩ | ⟨hover, -⟩
  · refine ⟨hbelow, ?_⟩
    rw [← hlen] at *
    exact hd.copyout_fits hstock (by omega) (by omega)
  · omega

end Push

/-! ## All arguments -/

def used (argv : Argv) : Nat := (argv.map room).sum

@[simp] theorem used_nil : used [] = 0 := rfl

@[simp] theorem used_cons (arg : Bytes) (argv : Argv) :
    used (arg :: argv) = room arg + used argv := by simp [used]

/-- Where the strings go. -/
def pointers (sp : Word) : Argv → List Word
  | [] => []
  | arg :: argv => below sp (arg.length + 1) :: pointers (below sp (arg.length + 1)) argv

/-- The stack pointer below the strings. -/
def belowAll (sp : Word) : Argv → Word
  | [] => sp
  | arg :: argv => belowAll (below sp (arg.length + 1)) argv

/-- The strings over what user code saw. -/
def pushed (img : Word → Byte) (sp : Word) : Argv → Word → Byte
  | [] => img
  | arg :: argv => pushed (overlay img (below sp (arg.length + 1)) (arg ++ [0])) (below sp (arg.length + 1)) argv

variable {argc : Nat} {arg : Bytes} {argv : Argv}

theorem pushArgs_cons
    {ustack : List Word} (hargc : argc < MAXARG) : pushArgs p d (arg :: argv) argc sp ustack = (do
      if ← copyout p d (arg.length + 1) (below sp (arg.length + 1)) (arg ++ [0]) then
        pushArgs p d argv (argc + 1) (below sp (arg.length + 1)) (ustack ++ [below sp (arg.length + 1)])
      else pure none) := by
  rw [pushArgs, if_neg (by omega)]
  rfl

section Args
variable {sp : Word} (argv : Argv) (argc : Nat) (ustack : List Word) (hd : Stacked κ d n)
  (hsp : sp.toNat % 4 = 0) (hlo : 4096 * (n - 1) ≤ sp.toNat) (hhi : sp.toNat ≤ 4096 * n)
include hd hsp hlo

theorem toNat_below (arg : Bytes) (hroom : 4096 * (n - 1) + room arg ≤ sp.toNat) :
    (below sp (arg.length + 1)).toNat = sp.toNat - room arg ∧ (below sp (arg.length + 1)).toNat % 4 = 0 := by
  have htwo := hd.two
  have hr : room arg % 4 = 0 := Nat.mul_mod_left _ _
  rcases below_cases arg hsp (by omega) with ⟨-, hbelow⟩ | ⟨hover, -⟩
  · exact ⟨hbelow, by omega⟩
  · omega

theorem toNat_belowAll (hroom : 4096 * (n - 1) + used argv ≤ sp.toNat) :
    (belowAll sp argv).toNat = sp.toNat - used argv := by
  induction argv generalizing sp with
  | nil => rfl
  | cons arg argv ih =>
    rw [used_cons] at *
    obtain ⟨hbelow, hsp'⟩ := toNat_below hd hsp hlo arg (by omega)
    rw [belowAll, ih hsp' (by omega) (by omega), hbelow]
    omega

theorem pushArgs_some (hdev : κ.Devices) {x : Word × List Word} {t : State}
    (hrun : pushArgs p d argv argc sp ustack s = .ok (some x) t) (hargc : argc ≤ MAXARG) :
    argc + argv.length ≤ MAXARG ∧ 4096 * (n - 1) + used argv ≤ sp.toNat := by
  induction argv generalizing argc sp ustack s with
  | nil => exact ⟨by simpa using hargc, by simpa using hlo⟩
  | cons arg argv ih =>
    have hlt : argc < MAXARG := by
      by_contra hge
      rw [pushArgs, if_pos (by omega)] at hrun
      cases hrun
    rw [pushArgs_cons hlt] at hrun
    obtain ⟨done, s₁, hcopy, hrest⟩ := bind_eq_ok.mp hrun
    cases done with
    | false => cases hrest
    | true =>
      have hroom : 4096 * (n - 1) + room arg ≤ sp.toNat := by
        by_contra hout
        exact push_not_done arg hd hsp hlo hdev (not_le.mp hout) hcopy
      obtain ⟨hbelow, hsp'⟩ := toNat_below hd hsp hlo arg hroom
      have htail := ih (argc + 1) _ hsp' (by omega) hrest hlt
      rw [List.length_cons, used_cons]
      omega

include hhi

theorem pushArgs_fits (hstock : Stock P img d.holds hand s.ram) (hargc : argc + argv.length ≤ MAXARG)
    (hroom : 4096 * (n - 1) + used argv ≤ sp.toNat) :
    ∃ m, pushArgs p d argv argc sp ustack s =
      .ok (some (belowAll sp argv, ustack ++ pointers sp argv)) (withMem s m) ∧
        Shows P hand d s (pushed img sp argv) m := by
  induction argv generalizing argc sp ustack s img with
  | nil =>
    refine ⟨s.ram.mem, ?_, hstock⟩
    rw [pointers, List.append_nil]
    rfl
  | cons arg argv ih =>
    rw [used_cons] at hroom
    rw [List.length_cons] at hargc
    obtain ⟨hbelow, m₁, hcopy, hshows⟩ := push_fits (p := p) arg hd hsp hlo hhi hstock (by omega)
    have hsp' := (toNat_below hd hsp hlo arg (by omega)).2
    obtain ⟨m, hrest, hshows⟩ := ih (s := withMem s m₁) (argc + 1) (ustack ++ [below sp (arg.length + 1)])
      hsp' (by omega) (by omega) hshows (by omega) (by omega)
    refine ⟨m, ?_, hshows⟩
    rw [pushArgs_cons (by omega), bind_ok hcopy, if_pos rfl, hrest, pointers, List.append_assoc]
    rfl

end Args

/-! ## The table below the strings -/

/-- `ustack`: the return address, `argc`, `argv` and the pointers. -/
def table (sp : Word) (args : List Word) : List Word :=
  [0xFFFFFFFF, ofNat 32 args.length, sp - ofNat 32 ((args.length + 1) * 4)] ++ args ++ [0]

/-- `pushStack`, with the stack pointer of the new program as its result. -/
def pushStackAt (p : Fin NPROC) (d : PgDir) (argv : Argv) (sz : Word) : K (Option Word) := do
  match ← pushArgs p d argv 0 sz [] with
  | none => pure none
  | some (sp, args) => do
    let bytes := (table sp args).flatMap wordBytes
    let sp := sp - ofNat 32 ((3 + args.length + 1) * 4)
    if ← copyout p d bytes.length sp bytes then pure (some sp) else pure none

theorem pushStack_eq (argv : Argv) (sz : Word) :
    pushStack p d argv sz = pushStackAt p d argv sz >>= fun o => pure o.isSome := by
  unfold pushStack pushStackAt
  rw [bind_assoc]
  congr 1
  funext o
  cases o with
  | none => rfl
  | some x =>
    dsimp only
    rw [bind_assoc, ← bind_pure (copyout p d _ _ _)]
    refine congrArg _ (funext fun done => ?_)
    cases done <;> rfl

theorem length_flatMap_wordBytes (l : List Word) : (l.flatMap wordBytes).length = 4 * l.length := by
  induction l with
  | nil => rfl
  | cons w l ih =>
    rw [List.flatMap_cons, List.length_append, ih, List.length_cons]
    show 4 + _ = _
    omega

theorem length_table (sp : Word) (args : List Word) :
    ((table sp args).flatMap wordBytes).length = 4 * (args.length + 4) := by
  rw [length_flatMap_wordBytes]
  simp [table]

theorem length_pointers (sp : Word) (argv : Argv) : (pointers sp argv).length = argv.length := by
  induction argv generalizing sp with
  | nil => rfl
  | cons arg argv ih => simp [pointers, ih]

/-- The strings and the table have room in a page. -/
def FitsPage (argv : Argv) : Prop :=
  argv.length ≤ MAXARG ∧ used argv + 4 * (argv.length + 4) ≤ 4096

/-- The stack pointer of the new program. -/
def stackPointer (sz : Word) (argv : Argv) : Word :=
  belowAll sz argv - ofNat 32 ((3 + argv.length + 1) * 4)

/-- What user code sees with the arguments on the stack. -/
def stackImage (img : Word → Byte) (sz : Word) (argv : Argv) : Word → Byte :=
  overlay (pushed img sz argv) (stackPointer sz argv)
    ((table (belowAll sz argv) (pointers sz argv)).flatMap wordBytes)

section Stack
variable {sz : Word} (argv : Argv) (hd : Stacked κ d n) (hsz : sz.toNat = 4096 * n)
include hd hsz

theorem toNat_stackPointer (hmax : argv.length ≤ MAXARG) (hroom : used argv ≤ 4096) :
    (stackPointer sz argv).toNat = 4096 * n - used argv - 4 * (argv.length + 4) := by
  have htwo := hd.two
  have hlow := hd.low
  have hbelow : (belowAll sz argv).toNat = sz.toNat - used argv :=
    toNat_belowAll argv hd (by omega) (by omega) (by omega)
  have hmax : argv.length ≤ 32 := hmax
  rw [stackPointer, BitVec.toNat_sub_of_le, hbelow, toNat_ofNat]
  · omega
  · rw [BitVec.le_def, toNat_ofNat, hbelow]
    omega

theorem pushStackAt_table (hstock : Stock P img d.holds hand s.ram) (hmax : argv.length ≤ MAXARG)
    (hroom : used argv ≤ 4096) : ∃ m₁, Shows P hand d s (pushed img sz argv) m₁ ∧
      pushStackAt p d argv sz s = (do
        let bytes := (table (belowAll sz argv) (pointers sz argv)).flatMap wordBytes
        if ← copyout p d bytes.length (stackPointer sz argv) bytes then pure (some (stackPointer sz argv))
        else pure none : K (Option Word)) (withMem s m₁) := by
  have htwo := hd.two
  have hsp : sz.toNat % 4 = 0 := by omega
  obtain ⟨m₁, hargs, hshows⟩ := pushArgs_fits (p := p) argv 0 [] hd hsp (by omega)
    (by omega) hstock (by omega) (by omega)
  refine ⟨m₁, hshows, ?_⟩
  unfold pushStackAt
  rw [bind_ok hargs, List.nil_append]
  dsimp only
  rw [length_pointers]
  rfl

theorem pushStackAt_fits (hstock : Stock P img d.holds hand s.ram) (hfits : FitsPage argv) :
    ∃ m, pushStackAt p d argv sz s = .ok (some (stackPointer sz argv)) (withMem s m) ∧
      Shows P hand d s (stackImage img sz argv) m := by
  obtain ⟨hmax, hroom⟩ := hfits
  have htwo := hd.two
  obtain ⟨m₁, hshows, hrun⟩ := pushStackAt_table (p := p) argv hd hsz hstock hmax (by omega)
  have hptr := toNat_stackPointer argv hd hsz hmax (by omega)
  have hlo : 4096 * (n - 1) ≤ (stackPointer sz argv).toNat := by omega
  have hhi : (stackPointer sz argv).toNat +
      ((table (belowAll sz argv) (pointers sz argv)).flatMap wordBytes).length ≤ 4096 * n := by
    rw [length_table, length_pointers]
    omega
  obtain ⟨m, hcopy, hshows⟩ := hd.copyout_fits (p := p) (s := withMem s m₁) hshows hlo hhi
  refine ⟨m, ?_, hshows⟩
  rw [hrun]
  dsimp only
  rw [bind_ok hcopy]
  rfl

theorem table_blocked (hmax : argv.length ≤ MAXARG) (hroom : used argv ≤ 4096) (hnot : ¬ FitsPage argv) :
    vpn (stackPointer sz argv) = n - 2 := by
  have htwo := hd.two
  have hmax' : argv.length ≤ 32 := hmax
  have hover : 4096 < used argv + 4 * (argv.length + 4) := by
    by_contra hle
    exact hnot ⟨hmax, not_lt.mp hle⟩
  rw [vpn, toNat_stackPointer argv hd hsz hmax hroom]
  omega

theorem fits_of_pushStackAt (hdev : κ.Devices) (hstock : Stock P img d.holds hand s.ram) {x : Word}
    {t : State} (hrun : pushStackAt p d argv sz s = .ok (some x) t) : FitsPage argv := by
  have htwo := hd.two
  by_contra hnot
  obtain ⟨o, s₁, hargs, -⟩ := bind_eq_ok.mp hrun
  cases o with
  | none =>
    unfold pushStackAt at hrun
    rw [bind_ok hargs] at hrun
    cases hrun
  | some y =>
    have hsp : sz.toNat % 4 = 0 := by omega
    obtain ⟨hmax, hroom⟩ := pushArgs_some argv 0 [] hd hsp (by omega) hdev hargs
      (Nat.zero_le _)
    obtain ⟨m₁, -, htable⟩ := pushStackAt_table (p := p) argv hd hsz hstock (by omega) (by omega)
    rw [htable] at hrun
    obtain ⟨done, s₂, hcopy, hrest⟩ := bind_eq_ok.mp hrun
    cases done with
    | false => cases hrest
    | true =>
      have hclosed := hd.closed (table_blocked argv hd hsz (by omega) (by omega) hnot)
      have hpos : 0 < ((table (belowAll sz argv) (pointers sz argv)).flatMap wordBytes).length := by
        rw [length_table]
        omega
      rw [copyout_eq] at hcopy
      have hmet := copyoutWith_visits _ le_rfl hcopy hpos
      rw [BitVec.add_zero] at hmet
      rcases hmet with h | h
      · exact hclosed.1 h
      · exact hclosed.2 h

end Stack

/-! ## In any case -/

section
variable (hzero : (s.proc p).pgdir.access 0 false false)
include hzero

theorem copyout_returns (fuel : Nat) (va : Word)
    (buf : Bytes) : ∃ done m, copyout p d fuel va buf s = .ok done (withMem s m) := by
  rw [copyout_eq]
  induction fuel generalizing va buf s with
  | zero => exact ⟨true, s.ram.mem, rfl⟩
  | succ fuel ih =>
    unfold copyoutWith
    by_cases hb : buf.length = 0
    · rw [if_pos hb]
      exact ⟨true, s.ram.mem, rfl⟩
    rw [if_neg hb]
    obtain ⟨pa0, hka⟩ : ∃ pa0, uva2ka (nullEntry p) d (pgRoundDown va) s = .ok pa0 s := by
      obtain ⟨pte, hpte⟩ : ∃ pte, entryWith (nullEntry p) d (pgRoundDown va) s = .ok pte s := by
        unfold entryWith nullEntry
        cases d.walk (pgRoundDown va) with
        | some pte => exact ⟨pte, rfl⟩
        | none =>
          refine ⟨s.userWord p 0, ?_⟩
          dsimp only
          rw [bind_ok (get_run s), if_pos hzero]
          rfl
      unfold uva2ka
      rw [bind_ok hpte]
      by_cases hP : hasFlag pte PTE_P <;> by_cases hU : hasFlag pte PTE_U <;> simp [hP, hU] <;>
        exact ⟨_, rfl⟩
    rw [bind_ok hka]
    by_cases hpa : pa0 = 0
    · rw [if_pos hpa]
      exact ⟨false, s.ram.mem, rfl⟩
    · rw [if_neg hpa]
      have hnext : ∀ m₁ rest, ∃ done m, copyoutWith (nullEntry p) d fuel (pgRoundDown va + PGSIZE) rest
          (withMem s m₁) = .ok done (withMem s m) := fun m₁ rest => ih (s := withMem s m₁) hzero _ rest
      exact hnext _ _

theorem pushArgs_returns (argv : Argv) (argc : Nat) (sp : Word) (ustack : List Word) :
    ∃ o m, pushArgs p d argv argc sp ustack s = .ok o (withMem s m) := by
  induction argv generalizing argc sp ustack s with
  | nil => exact ⟨_, s.ram.mem, rfl⟩
  | cons arg argv ih =>
    by_cases hargc : argc < MAXARG
    · obtain ⟨done, m₁, hcopy⟩ := copyout_returns (d := d) hzero (arg.length + 1)
        (below sp (arg.length + 1)) (arg ++ [0])
      rw [pushArgs_cons hargc, bind_ok hcopy]
      cases done with
      | false => exact ⟨none, m₁, rfl⟩
      | true =>
        obtain ⟨o, m, hrest⟩ := ih (s := withMem s m₁) hzero (argc + 1) (below sp (arg.length + 1))
          (ustack ++ [below sp (arg.length + 1)])
        exact ⟨o, m, hrest⟩
    · rw [pushArgs, if_pos (by omega)]
      exact ⟨none, s.ram.mem, rfl⟩

theorem pushStackAt_returns (argv : Argv)
    (sz : Word) : ∃ o m, pushStackAt p d argv sz s = .ok o (withMem s m) := by
  obtain ⟨o, m₁, hargs⟩ := pushArgs_returns (d := d) hzero argv 0 sz []
  unfold pushStackAt
  rw [bind_ok hargs]
  cases o with
  | none => exact ⟨none, m₁, rfl⟩
  | some x =>
    dsimp only
    obtain ⟨done, m, hcopy⟩ := copyout_returns (s := withMem s m₁) (d := d) hzero
      ((table x.1 x.2).flatMap wordBytes).length (x.1 - .ofNat 32 ((3 + x.2.length + 1) * 4))
      ((table x.1 x.2).flatMap wordBytes)
    rw [bind_ok hcopy]
    cases done with
    | false => exact ⟨none, m, rfl⟩
    | true => exact ⟨some _, m, rfl⟩

end

theorem Held.withMem (h : Held P κ hand d r) (m : Word → Byte) :
    Held { P with mem := m } κ hand d { r with mem := m } := by
  obtain ⟨⟨img, hstock⟩, hkernel⟩ := h
  refine ⟨⟨fun a => m (d.translate a), ?_⟩, hkernel⟩
  exact ⟨hstock.books, fun _ _ => rfl, hstock.kend, hstock.kdata, fun a v hv => by
    rw [translate_of_holds hv]⟩

end Xv6.Exec
