import Xv6.Log

/-!
# The power fails during a commit

`L.Durable lh v d` says that recovery will turn the disk `d` into one whose home blocks are as in `v`, with
`lh` the blocks that it still has to copy. Until the header is written the version is the one before the
transaction, and from then on the one after it; installing blocks and recovering do not change it.
-/

namespace Xv6.Log

open Function (update_of_ne update_self)
open Hoare

variable {L : Layout} {lh : List Word} {v w : Word → Block} {s : Machine} {k : Nat} {x : Word}

/-! ## The layout of the log -/

/-- A block that is not in the log. -/
def Layout.Home (L : Layout) (x : Word) : Prop := L.size ≤ (x - L.start).toNat

instance (L : Layout) (x : Word) : Decidable (L.Home x) := inferInstanceAs (Decidable (_ ≤ _))

/-- The block numbers of a transaction: distinct, outside of the log, and few enough for the log after the
header and for `lh.block`. -/
structure Layout.Fits (L : Layout) (lh : List Word) : Prop where
  nodup : lh.Nodup
  home : ∀ b ∈ lh, L.Home b
  room : lh.length < L.size
  array : lh.length ≤ LOGSIZE

theorem Layout.Fits.nil (h : L.Fits lh) : L.Fits [] where
  nodup := List.nodup_nil
  home b hb := absurd hb List.not_mem_nil
  room := by
    have := h.room
    rw [List.length_nil]
    omega
  array := Nat.zero_le _

variable {i : Nat}

theorem block_sub_start (L : Layout) (hi : i + 1 < L.size) : (L.block i - L.start).toNat = i + 1 := by
  have := L.size_lt
  have h : L.block i - L.start = .ofNat 32 (i + 1) := by
    unfold Layout.block
    rw [add_assoc, add_sub_cancel_left, BitVec.ofNat_add]
    rfl
  rw [h, BitVec.toNat_ofNat, Nat.mod_eq_of_lt (by omega)]

theorem Layout.Home.ne_start (hx : L.Home x) (h : 0 < L.size) : x ≠ L.start := by
  rintro rfl
  unfold Layout.Home at hx
  rw [sub_self] at hx
  exact absurd h (Nat.not_lt.mpr hx)

theorem Layout.Home.ne_block (hx : L.Home x) (hi : i + 1 < L.size) : x ≠ L.block i := by
  rintro rfl
  unfold Layout.Home at hx
  rw [block_sub_start L hi] at hx
  omega

theorem block_ne_start (hi : i + 1 < L.size) : L.block i ≠ L.start := by
  intro h
  have := block_sub_start L hi
  rw [h, sub_self] at this
  cases this

theorem block_inj {j : Nat} (hi : i + 1 < L.size) (hj : j + 1 < L.size)
    (h : L.block i = L.block j) : i = j := by
  have hi := block_sub_start L hi
  rw [h, block_sub_start L hj] at hi
  omega

theorem Layout.Fits.lt (h : L.Fits lh) {e : Word × Nat} (he : e ∈ lh.zipIdx) : e.2 + 1 < L.size := by
  have := h.room
  have := List.snd_lt_of_mem_zipIdx he
  omega

/-! ## What a disk stands for -/

/-- The header block lists `lh`. -/
structure Header (lh : List Word) (hb : Block) : Prop where
  count : hb 0 = .ofNat 32 lh.length
  list : entries hb = lh

theorem header_putEntries (h : lh.length ≤ LOGSIZE) (hb : Block) : Header lh (putEntries lh hb) := by
  have hcount : putEntries lh hb 0 = .ofNat 32 lh.length := rfl
  have h30 : LOGSIZE = 30 := rfl
  refine ⟨hcount, ?_⟩
  unfold entries
  rw [hcount, BitVec.toNat_ofNat, Nat.mod_eq_of_lt (by omega)]
  apply List.ext_getElem
  · rw [List.length_map, List.length_take, List.length_finRange]
    omega
  · intro i _ hi
    simp [putEntries, hi]

/-- Recovery turns the home blocks of the disk `d` into those of `v`, with those of `lh` to be copied from
the log. -/
structure Layout.Durable (L : Layout) (lh : List Word) (v d : Word → Block) : Prop where
  header : Header lh (d L.start)
  logged : ∀ e ∈ lh.zipIdx, d (L.block e.2) = v e.1
  home : ∀ x, L.Home x → x ∉ lh → d x = v x

variable {d : Word → Block}

theorem durable_nil (h : L.Durable [] v d) (hx : L.Home x) : d x = v x :=
  h.home x hx List.not_mem_nil

variable {b : Word} {data : Block}

theorem Layout.Durable.update (h : L.Durable lh v d)
    (hstart : b ≠ L.start) (hlog : ∀ e ∈ lh.zipIdx, b ≠ L.block e.2)
    (hhome : L.Home b → b ∉ lh → data = v b) : L.Durable lh v (Function.update d b data) where
  header := by
    rw [update_of_ne hstart.symm]
    exact h.header
  logged e he := by
    rw [update_of_ne (hlog e he).symm]
    exact h.logged e he
  home x hx hmem := by
    by_cases hb : x = b
    · subst hb
      rw [update_self]
      exact hhome hx hmem
    · rw [update_of_ne hb]
      exact h.home x hx hmem

/-! ## The parts of a commit -/

theorem bwrite_triple {P : Machine → Prop} {Q : Unit → Machine → Prop} {E : Stop → Machine → Prop}
    (hcut : ∀ s, P s → s.fuel = 0 → E .powerCut s)
    (hwrite : ∀ s, P s → 0 < s.fuel → Q () (s.write b data)) : Triple P (bwrite b data) Q E := by
  refine .get fun t ht => .ite (fun h0 => .throw ?_) fun hpos => ⟨fun _ _ => ?_⟩
  · rintro s rfl
    exact hcut s ht h0
  · exact hwrite t ht (Nat.pos_of_ne_zero hpos)

/-- While blocks are copied to the log; `rest` are still to be copied, and the disk took `k` writes at the
start. -/
structure Logging (L : Layout) (lh : List Word) (v w : Word → Block) (k : Nat)
    (rest : List (Word × Nat)) (s : Machine) : Prop where
  list : s.lh = lh
  durable : L.Durable [] v s.disk
  buffered : ∀ b ∈ lh, s.cache b = w b
  logged : ∀ e ∈ lh.zipIdx, e ∉ rest → s.disk (L.block e.2) = w e.1 ∧ s.cache (L.block e.2) = w e.1
  fuel : s.fuel + lh.length = k + rest.length

section
variable (hfit : L.Fits lh)
include hfit

theorem writeLog_triple :
    Triple (Logging L lh v w k lh.zipIdx) (writeLog L) (fun _ => Logging L lh v w k [])
      (fun e s => e = .powerCut ∧ L.Durable [] v s.disk ∧ k ≤ lh.length) := by
  refine .read fun t ht => ?_
  rw [ht.list]
  refine .forM (I := Logging L lh v w k) _ fun e rest hrest => .read fun t ht => ?_
  have he : e ∈ lh.zipIdx := hrest.subset List.mem_cons_self
  have hmem : e.1 ∈ lh := List.fst_mem_of_mem_zipIdx he
  rw [ht.buffered e.1 hmem]
  refine bwrite_triple (fun s hs h0 => ⟨rfl, hs.durable, ?_⟩) fun s hs hpos => ?_
  · have := hs.fuel
    rw [List.length_cons] at this
    omega
  · refine ⟨hs.list, hs.durable.update (block_ne_start (hfit.lt he)) nofun fun hhome _ => ?_,
      fun b hb => ?_, fun e' he' hrest' => ?_, ?_⟩
    · exact absurd rfl (hhome.ne_block (hfit.lt he))
    · rw [write_cache, update_of_ne ((hfit.home b hb).ne_block (hfit.lt he))]
      exact hs.buffered b hb
    · -- entry `e'` was copied just now or before
      by_cases heq : e' = e
      · subst heq
        rw [write_disk, write_cache, update_self, update_self]
        exact ⟨rfl, rfl⟩
      · have hne : L.block e'.2 ≠ L.block e.2 := by
          intro hb
          have hidx := block_inj (hfit.lt he') (hfit.lt he) hb
          apply heq
          have h1 := List.mem_zipIdx_iff_getElem?.mp he
          have h2 := List.mem_zipIdx_iff_getElem?.mp he'
          rw [hidx, h1] at h2
          exact Prod.ext (Option.some.inj h2).symm hidx
        rw [write_disk, write_cache, update_of_ne hne, update_of_ne hne]
        exact hs.logged e' he' (by simp [heq, hrest'])
    · have := hs.fuel
      rw [List.length_cons] at this
      rw [write_fuel]
      omega

/-- While blocks are copied from the log to their homes. -/
structure Installing (L : Layout) (lh : List Word) (v : Word → Block) (k : Nat)
    (rest : List (Word × Nat)) (s : Machine) : Prop where
  list : s.lh = lh
  durable : L.Durable lh v s.disk
  buffered : ∀ e ∈ lh.zipIdx, s.cache (L.block e.2) = v e.1
  installed : ∀ x, L.Home x → x ∉ rest.map Prod.fst → s.disk x = v x
  fuel : s.fuel + lh.length = k + rest.length

theorem installTrans_triple :
    Triple (Installing L lh v k lh.zipIdx) (installTrans L) (fun _ => Installing L lh v k [])
      (fun e s => e = .powerCut ∧ L.Durable lh v s.disk ∧ k ≤ lh.length) := by
  refine .read fun t ht => ?_
  rw [ht.list]
  refine .forM (I := Installing L lh v k) _ fun e rest hrest => .read fun t ht => ?_
  have he : e ∈ lh.zipIdx := hrest.subset List.mem_cons_self
  have hhome : L.Home e.1 := hfit.home _ (List.fst_mem_of_mem_zipIdx he)
  have hne : ∀ e' ∈ lh.zipIdx, e.1 ≠ L.block e'.2 := fun e' he' => hhome.ne_block (hfit.lt he')
  rw [ht.buffered e he]
  refine bwrite_triple (fun s hs h0 => ⟨rfl, hs.durable, ?_⟩) fun s hs hpos => ?_
  · have := hs.fuel
    rw [List.length_cons] at this
    omega
  · refine ⟨hs.list, hs.durable.update (hhome.ne_start (Nat.zero_lt_of_lt hfit.room)) hne
      fun _ _ => rfl, fun e' he' => ?_, fun x hx hrest' => ?_, ?_⟩
    · rw [write_cache, update_of_ne (hne e' he').symm]
      exact hs.buffered e' he'
    · rw [write_disk]
      by_cases heq : x = e.1
      · subst heq
        rw [update_self]
      · rw [update_of_ne heq]
        exact hs.installed x hx (by simpa [heq] using hrest')
    · have := hs.fuel
      rw [List.length_cons] at this
      rw [write_fuel]
      omega

/-- The last write of both programs: the home blocks are in place and the header is emptied. -/
theorem eraseHead_triple :
    Triple (Installing L lh v k [])
      (do modify fun s => { s with lh := [] }
          writeHead L)
      (fun _ s => L.Durable [] v s.disk)
      (fun e s => e = .powerCut ∧ L.Durable lh v s.disk ∧ k ≤ lh.length) := by
  let R : Machine → Prop := fun s => s.lh = [] ∧ L.Durable lh v s.disk ∧
    (∀ x, L.Home x → s.disk x = v x) ∧ s.fuel + lh.length = k
  refine .update (R := R) (fun s hs => ?_) <| .read fun t _ => .read fun t' ht' => ?_
  · exact ⟨rfl, hs.durable, fun x hx => hs.installed x hx List.not_mem_nil, hs.fuel⟩
  obtain ⟨hlh, -⟩ := ht'
  rw [hlh]
  refine bwrite_triple (fun s hs h0 => ?_) fun s hs hpos => ?_
  · obtain ⟨-, hdurable, -, hfuel⟩ := hs
    exact ⟨rfl, hdurable, by omega⟩
  · obtain ⟨-, -, hhome, -⟩ := hs
    rw [write_disk]
    refine ⟨?_, nofun, fun x hx _ => ?_⟩
    · rw [update_self]
      exact header_putEntries (Nat.zero_le _) _
    · rw [update_of_ne (hx.ne_start (Nat.zero_lt_of_lt hfit.room))]
      exact hhome x hx

/-! ## Recovery -/

theorem readHead_triple :
    Triple (fun s => L.Durable lh v s.disk ∧ s.cache = s.disk ∧ s.fuel = k) (readHead L)
      (fun _ => Installing L lh v k lh.zipIdx) (fun _ _ => False) := by
  refine .read fun t ht => ?_
  obtain ⟨ht, hcache, -⟩ := ht
  have hlen := hfit.array
  have h30 : LOGSIZE = 30 := rfl
  have hcount : (t.cache L.start 0).toNat = lh.length := by
    rw [hcache, ht.header.count, BitVec.toNat_ofNat, Nat.mod_eq_of_lt (by omega)]
  refine .ite (fun hneg => ?_) fun _ => .ite (fun hbig => ?_) fun _ => .modify fun s hs => ?_
  · have hmsb : (t.cache L.start 0).msb = true := by rwa [← BitVec.slt_zero_eq_msb]
    rw [BitVec.msb_eq_decide, hcount, decide_eq_true_eq] at hmsb
    omega
  · omega
  · obtain ⟨hs, hcache', hfuel⟩ := hs
    refine ⟨by rw [hcache, ht.header.list], hs, fun e he => ?_, fun x hx hmem => ?_, ?_⟩
    · dsimp only
      rw [hcache']
      exact hs.logged e he
    · refine hs.home x hx fun hx => hmem ?_
      rwa [List.zipIdx_map_fst]
    · rw [List.length_zipIdx]
      exact congrArg (· + _) hfuel

/-- Recovery does not change what the disk stands for, and comes to its end when the power lasts. -/
theorem recoverFromLog_triple :
    Triple (fun s => L.Durable lh v s.disk ∧ s.cache = s.disk ∧ s.fuel = k) (recoverFromLog L)
      (fun _ s => L.Durable [] v s.disk)
      (fun e s => e = .powerCut ∧ L.Durable lh v s.disk ∧ k ≤ lh.length) :=
  .bind ((readHead_triple hfit).conseq (fun _ => id) (fun _ _ => id) fun _ _ => False.elim) fun _ =>
    .bind (installTrans_triple hfit) fun _ => eraseHead_triple hfit

end

/-- Some transaction is being recovered. -/
def Layout.Recoverable (L : Layout) (v : Word → Block) (s : Machine) : Prop :=
  ∃ lh, L.Fits lh ∧ L.Durable lh v s.disk

theorem recovers_durable {t : Machine} (hs : L.Recoverable v s)
    (h : Recovers reboot (recoverFromLog L) s t) : L.Durable [] v t.disk := by
  refine Recovers.rule (C := L.Recoverable v) (Q := fun t => L.Durable [] v t.disk)
    (fun k => ⟨?_⟩) hs h
  rintro _ ⟨s₀, ⟨lh, hfit, hlh⟩, rfl⟩
  have hrun := (recoverFromLog_triple (k := k) hfit).run (reboot k s₀) ⟨hlh, rfl, rfl⟩
  split at hrun
  · exact hrun
  · exact ⟨lh, hfit, hrun.2.1⟩

theorem recovers_exists (hs : L.Recoverable v s) : ∃ t, Recovers reboot (recoverFromLog L) s t := by
  obtain ⟨lh, hfit, hlh⟩ := hs
  have hrun := (recoverFromLog_triple hfit).run (reboot (lh.length + 1) s) ⟨hlh, rfl, rfl⟩
  cases hx : recoverFromLog L (reboot (lh.length + 1) s) with
  | ok a t => exact ⟨t, .done _ hx⟩
  | error e t =>
    rw [hx] at hrun
    exact absurd hrun.2.2 (Nat.not_succ_le_self _)

/-! ## Crash atomicity -/

/-- The home blocks after the transaction: those in the list are as the cache has them. -/
def Machine.after (s : Machine) (x : Word) : Block := if x ∈ s.lh then s.cache x else s.disk x

theorem commit_triple (hfit : L.Fits lh) (hvw : ∀ x, x ∉ lh → w x = v x) :
    Triple (Logging L lh v w k lh.zipIdx) (commit L) (fun _ s => L.Durable [] w s.disk)
      (fun _ s => L.Durable [] v s.disk ∧ k ≤ lh.length ∨ L.Durable lh w s.disk) := by
  refine .read fun t ht => .ite (fun _ => ?_) fun hnil => .pure fun s hs => ?_
  · refine .bind ((writeLog_triple hfit).conseq (fun _ => id) (fun _ _ => id) fun _ s hs => .inl hs.2)
      fun _ => .bind (R := fun _ => Installing L lh w (k - lh.length - 1) lh.zipIdx) ?_ fun _ => ?_
    · -- the header is the commit point
      refine .read fun t _ => .read fun t' ht' => ?_
      rw [ht'.list]
      refine bwrite_triple (fun s hs h0 => .inl ⟨hs.durable, ?_⟩) fun s hs hpos => ?_
      · have := hs.fuel
        rw [List.length_nil] at this
        omega
      · have hstart : ∀ {e : Word × Nat}, e ∈ lh.zipIdx → L.block e.2 ≠ L.start :=
          fun he => block_ne_start (hfit.lt he)
        have hhome : ∀ x, L.Home x → x ∉ lh →
            Function.update s.disk L.start (putEntries lh (t.cache L.start)) x = w x := by
          intro x hx hmem
          rw [update_of_ne (hx.ne_start (Nat.zero_lt_of_lt hfit.room)), hvw x hmem]
          exact durable_nil hs.durable hx
        refine ⟨hs.list, ⟨?_, fun e he => ?_, hhome⟩, fun e he => ?_, fun x hx hmem => ?_, ?_⟩
        · rw [write_disk, update_self]
          exact header_putEntries hfit.array _
        · rw [write_disk, update_of_ne (hstart he)]
          exact (hs.logged e he List.not_mem_nil).1
        · rw [write_cache, update_of_ne (hstart he)]
          exact (hs.logged e he List.not_mem_nil).2
        · rw [List.zipIdx_map_fst] at hmem
          exact hhome x hx hmem
        · have := hs.fuel
          rw [List.length_nil] at this
          rw [List.length_zipIdx, write_fuel]
          omega
    · refine .bind ((installTrans_triple hfit).conseq (fun _ => id) (fun _ _ => id) ?_) fun _ =>
        (eraseHead_triple hfit).conseq (fun _ => id) (fun _ _ => id) ?_
      · exact fun _ _ hs => .inr hs.2.1
      · exact fun _ _ hs => .inr hs.2.1
  · -- nothing was logged
    have hlh : lh = [] := by
      rw [ht.list] at hnil
      exact List.length_eq_zero_iff.mp (by omega)
    subst hlh
    exact ⟨hs.durable.header, nofun, fun x hx hmem => (durable_nil hs.durable hx).trans (hvw x hmem).symm⟩

theorem logging_start (hidle : s.disk L.start 0 = 0) :
    Logging L s.lh s.disk s.after k s.lh.zipIdx { s with fuel := k } where
  list := rfl
  durable := by
    refine ⟨⟨hidle, ?_⟩, nofun, fun x _ _ => rfl⟩
    unfold entries
    rw [hidle]
    rfl
  buffered b hb := (if_pos hb).symm
  logged e he hrest := absurd he hrest
  fuel := by rw [List.length_zipIdx]

/-- A commit that is cut off, or comes to its end, leaves one of the two versions on the disk. -/
theorem commit_recoverable (hfit : L.Fits s.lh) (hidle : s.disk L.start 0 = 0) :
    L.Recoverable s.disk (final (commit L { s with fuel := k })) ∧ k ≤ s.lh.length ∨
      L.Recoverable s.after (final (commit L { s with fuel := k })) := by
  have hrun := (commit_triple hfit fun x hx => if_neg hx).run _ (logging_start (k := k) hidle)
  cases hx : commit L { s with fuel := k } with
  | ok a t =>
    rw [hx] at hrun
    exact .inr ⟨[], hfit.nil, hrun⟩
  | error e t =>
    rw [hx] at hrun
    exact hrun.imp (fun h => ⟨⟨[], hfit.nil, h.1⟩, h.2⟩) fun h => ⟨_, hfit, h⟩

/-- **Crash atomicity.** The power fails after `k` writes of a commit, or the commit comes to its end
before. Then recovery can be completed; and whenever it is, however often it failed, the header is empty and
the home blocks are all as before or all as after the transaction, the latter if the power lasted for the
blocks of the log and the header. -/
theorem commit_crash_atomic (hfit : L.Fits s.lh) (hidle : s.disk L.start 0 = 0) (k : Nat) :
    (∃ t, Recovers reboot (recoverFromLog L) (final (commit L { s with fuel := k })) t) ∧
    ∀ t, Recovers reboot (recoverFromLog L) (final (commit L { s with fuel := k })) t → t.disk L.start 0 = 0 ∧
      ((∀ x, L.Home x → t.disk x = s.disk x) ∨ ∀ x, L.Home x → t.disk x = s.after x) ∧
      (s.lh.length < k → ∀ x, L.Home x → t.disk x = s.after x) := by
  obtain ⟨hbefore, hk⟩ | hafter := commit_recoverable (k := k) hfit hidle
  · refine ⟨recovers_exists hbefore, fun t ht => ?_⟩
    have ht := recovers_durable hbefore ht
    exact ⟨ht.header.count, .inl fun x hx => durable_nil ht hx, fun hlt => absurd hk (by omega)⟩
  · refine ⟨recovers_exists hafter, fun t ht => ?_⟩
    have ht := recovers_durable hafter ht
    exact ⟨ht.header.count, .inr fun x hx => durable_nil ht hx, fun _ x hx => durable_nil ht hx⟩

/-- The log that `mkfs` makes, and two blocks that were changed from zeros. -/
def mkfsLog : Layout := ⟨2, LOGSIZE, by decide⟩

def twoBlocks : Machine where
  disk _ _ := 0
  cache b _ := if b = 100 then 1 else if b = 101 then 2 else 0
  lh := [100, 101]
  fuel := 0

/-- The power fails when only the first block is installed: recovery installs the other. -/
theorem commit_crash_atomic_twoBlocks :
    let u := final (commit mkfsLog { twoBlocks with fuel := 4 })
    u.disk 100 0 = 1 ∧ u.disk 101 0 = 0 ∧ ∃ t, Recovers reboot (recoverFromLog mkfsLog) u t ∧
      t.disk 100 0 = 1 ∧ t.disk 101 0 = 2 := by
  have hfit : mkfsLog.Fits twoBlocks.lh :=
    ⟨by decide, fun b hb => by obtain rfl | rfl := List.mem_pair.mp hb <;> decide, by decide, by decide⟩
  obtain ⟨⟨t, ht⟩, hall⟩ := commit_crash_atomic hfit rfl 4
  obtain ⟨-, -, hafter⟩ := hall t ht
  have hafter := hafter (by decide)
  exact ⟨by decide, by decide, t, ht, congrFun (hafter 100 (by decide)) 0, congrFun (hafter 101 (by decide)) 0⟩

end Xv6.Log
