import Xv6.Image

/-!
# The free bit map

Along every run of calls the bit map marks exactly the blocks before the data area and the blocks that are
in use, each of which is in one place; no inode has a hole; and an inode that is in memory and not locked
is what is on the disk.
-/

namespace Xv6.Calls

open Store

/-- The bit map, the inodes and the cache agree. -/
structure BitmapExact (sb : Superblock) (s : Disk) : Prop where
  bits : ∀ b < sb.size, s.bitmap b = true ↔
    b < sb.nmeta ∨ ∃! r : Nat × Store.Slot, s.Live r.1 ∧ s.ref r.1 r.2 = b
  /-- No block is in two places. -/
  shared : s.Distinct
  mapped : ∀ i, s.Live i → ∀ bn < ((s.inode i).size + Store.BSIZE - 1) / Store.BSIZE,
    s.ref i (blockSlot bn) ≠ 0
  synced : ∀ i, (s.icache i).locked = false → (s.icache i).valid = true → s.dinode i = (s.icache i).copy

variable {sb : Superblock} {s t : Sys} {d : Disk} {pc : Fin NPROC × Call}

theorem bitmapExact_of_consistent (hd : d.Consistent sb) : BitmapExact sb d where
  bits b hb := by
    refine ⟨fun hbit => ?_, fun h => ?_⟩
    · by_cases hmeta : b < sb.nmeta
      · exact .inl hmeta
      · obtain h | ⟨i, k, hi, hk⟩ := hd.used b hb hbit
        · exact absurd h hmeta
        · have h0 : d.ref i k ≠ 0 := by
            have := sb.nmeta_pos
            omega
          refine .inr ⟨(i, k), ⟨hi, hk⟩, ?_⟩
          rintro ⟨j, l⟩ ⟨hj, hl⟩
          obtain ⟨rfl, rfl⟩ := hd.sound.tidy.inj hi hj (hk.trans hl.symm) h0
          rfl
    · obtain hmeta | ⟨⟨i, k⟩, ⟨hi, hk⟩, -⟩ := h
      · exact hd.sound.tidy.reserved b hmeta
      · by_cases h0 : d.ref i k = 0
        · rw [← hk, h0]
          exact hd.sound.tidy.reserved 0 sb.nmeta_pos
        · rw [← hk]
          exact hd.sound.tidy.marked hi h0
  shared := hd.sound.tidy.inj
  mapped i hi bn hbn := by
    have hlt : bn * Store.BSIZE < (d.inode i).size := by
      have := Nat.mul_le_of_le_div _ _ _ hbn
      have hpos : 0 < Store.BSIZE := by decide
      rw [Nat.succ_mul] at this
      omega
    have hview := hd.sound.full hi hlt
    rw [Nat.mul_div_cancel _ (by decide : 0 < Store.BSIZE)] at hview
    obtain ⟨blk, hblk⟩ := Option.isSome_iff_exists.mp hview
    exact (view_eq_some_iff.mp hblk).2.1
  synced i _ hv := hd.synced i hv

/-- Between calls. -/
structure Sys.Good (sb : Superblock) (s : Sys) : Prop where
  consistent : s.disk.Consistent sb
  quiet : Quiet s.tables s.disk.inodes

theorem step_after (hs : s.Good sb) (hstep : step sb s pc = some t) :
    t.disk.Consistent sb ∧ ∃ cwd, s.tables.cwd pc.1 = some cwd ∧
      After sb s.tables s.disk.inodes pc.1 cwd pc.2 t.tables t.disk.inodes := by
  unfold step at hstep
  split at hstep
  · cases hstep
  · next cwd hcwd =>
    have hsafe : True ∨ SafeCall s.tables s.disk.inodes cwd pc.2 := .inl trivial
    have hrun := (prog_disk (p := pc.1) hs.consistent hs.quiet.locked hsafe).run s.disk rfl
    split at hstep
    · next t' d' hr =>
      rw [hr] at hrun
      cases hstep
      exact ⟨hrun.1, cwd, hcwd, hrun.2.1⟩
    · cases hstep

theorem step_good (hs : s.Good sb) (hstep : step sb s pc = some t) : t.Good sb := by
  obtain ⟨hd, cwd, hcwd, hafter⟩ := step_after hs hstep
  obtain ⟨a', -, hret, -⟩ := hafter hs.quiet hcwd
  exact ⟨hd, hret.quiet⟩

/-- In every state reached, and for every call that is made next. -/
theorem bitmap_of_run (hs : s.Good sb) (h : Run (step sb) (fun _ _ => True) s t) :
    BitmapExact sb t.disk ∧ ∀ p cwd (c : Call) d',
      (c.prog t.tables p cwd).run (diskOps sb) t.disk ≠ .error (.panic "freeing free block") d' := by
  have ht : t.Good sb := h.invariant hs fun _ _ _ hs _ => step_good hs
  refine ⟨bitmapExact_of_consistent ht.consistent, fun p cwd c d' hr => ?_⟩
  have hsafe : True ∨ SafeCall t.tables t.disk.inodes cwd c := .inl trivial
  have hrun := (prog_disk (p := p) ht.consistent ht.quiet.locked hsafe).run t.disk rfl
  rw [hr] at hrun
  obtain ⟨b, hfail⟩ | ⟨hpanic, -⟩ := hrun
  · generalize hmsg : "freeing free block" = msg at hfail
    cases hfail with
    | panic hplain => exact hplain.1 hmsg.symm
    | noType => exact absurd hmsg (by decide)
  · injection hpanic with hmsg
    exact absurd hmsg (by decide)

theorem good_oneFile : Sys.Good mkfsSb ⟨oneFile, firstTables⟩ where
  consistent := consistent_oneFile
  quiet :=
    { locked := fun _ => rfl
      ref := fun i => by
        have hrefs : (firstTables.refs i : Int) = RefCount.one (some 1) i := refs_firstTables i
        show (if i = 1 then 1 else 0) = firstTables.refs i
        by_cases hi : i = 1
        · subst hi
          rw [RefCount.one_self] at hrefs
          rw [if_pos rfl]
          omega
        · rw [RefCount.one_of_ne hi] at hrefs
          rw [if_neg hi]
          omega }

/-- A file is made and written to. -/
theorem bitmap_of_run_oneFile : ∃ t, Run (step mkfsSb) (fun _ _ => True) ⟨oneFile, firstTables⟩ t ∧
    t.disk.bitmap 60 = true ∧ BitmapExact mkfsSb t.disk := by
  have hx : (Run.execAll (step mkfsSb) ⟨oneFile, firstTables⟩
      [(0, .open [103] 0x202 (some 0)), (0, .write 0 [1, 2, 3])]).any fun t => t.disk.bitmap 60 := by
    decide +kernel
  obtain ⟨t, hrun, hbit⟩ := Run.exists_run hx
  exact ⟨t, hrun, hbit, (bitmap_of_run good_oneFile hrun).1⟩

/-- No inode is locked, and the references are those in the tables. While a process keeps one, no call frees
the inode. -/
theorem references_of_run (hs : s.Good sb) (h : Run (step sb) (fun _ _ => True) s t) :
    Quiet t.tables t.disk.inodes ∧ ∀ pc u i, step sb t pc = some u → 0 < t.tables.refs i →
      0 < u.tables.refs i → (t.disk.node i).type ≠ 0 → (u.disk.node i).type = (t.disk.node i).type := by
  have ht : t.Good sb := h.invariant hs fun _ _ _ hs _ => step_good hs
  refine ⟨ht.quiet, fun pc u i hstep hi hi' htype => ?_⟩
  obtain ⟨-, cwd, hcwd, hafter⟩ := step_after ht hstep
  obtain ⟨a', he, hret, -⟩ := hafter ht.quiet hcwd
  exact hret.type_of_ref he ht.quiet hi hi' htype

theorem mkdir_oneFile : ∃ t, Run.execAll (step mkfsSb) ⟨oneFile, firstTables⟩ [(0, .mkdir [100])] = some t ∧
    t.disk.bitmap 60 = true := Run.exists_of_any (by decide +kernel)

/-- A file that is unlinked while it is open is not freed. -/
theorem references_of_run_oneFile : ∃ t u, Run (step mkfsSb) (fun _ _ => True) ⟨oneFile, firstTables⟩ t ∧
    Quiet t.tables t.disk.inodes ∧ step mkfsSb t (0, .unlink [102]) = some u ∧ (u.disk.node 2).nlink = 0 ∧
    (u.disk.node 2).type = T_FILE := by
  have hx : (Run.execAll (step mkfsSb) ⟨oneFile, firstTables⟩ [(0, .open [102] 0 (some 0))]).any fun t =>
      t.tables.ptr (.inr 0) == some 2 && (t.disk.node 2).type == T_FILE &&
        (step mkfsSb t (0, .unlink [102])).any fun u =>
          u.tables.ptr (.inr 0) == some 2 && (u.disk.node 2).nlink == 0 := by
    decide +kernel
  obtain ⟨t, hrun, ht⟩ := Run.exists_run hx
  simp only [Bool.and_eq_true, beq_iff_eq] at ht
  obtain ⟨⟨hptr, htype⟩, ht⟩ := ht
  obtain ⟨u, hu, ht⟩ := Run.exists_of_any ht
  simp only [Bool.and_eq_true, beq_iff_eq] at ht
  obtain ⟨hquiet, hkept⟩ := references_of_run good_oneFile hrun
  have hsame := hkept _ u 2 hu (RefCount.count_pos hptr) (RefCount.count_pos ht.1) (by rw [htype]; decide)
  exact ⟨t, u, hrun, hquiet, hu, ht.2, hsame.trans htype⟩

/-! ## Inodes instead of blocks -/

/-- `step` on the inodes alone. -/
def stepInodes (sb : Superblock) (s : Inodes × Tables) (c : Fin NPROC × Call) :
    Option (Inodes × Tables) := do
  let cwd ← s.2.cwd c.1
  match (c.2.prog s.2 c.1 cwd).run (inodeOps sb) s.1 with
  | .ok t a => some (a, t)
  | .error _ _ => none

theorem step_inodes (hs : s.Good sb) (hstep : step sb s pc = some t) :
    stepInodes sb (s.disk.inodes, s.tables) pc = some (t.disk.inodes, t.tables) := by
  unfold step at hstep
  split at hstep
  · cases hstep
  · next cwd hcwd =>
    have hspec : Spec sb (Holds _ s.disk.inodes _ _) (pc.2.prog s.tables pc.1 cwd) _ _ True :=
      prog_spec (.inl trivial)
    have hupper := hspec.run _ (holds_start hs.quiet.locked)
    have hrun := (refined_prog (pc.2.prog s.tables pc.1 cwd)).run s.disk _ ⟨hs.consistent, rfl⟩
      fun b hb => by
        rw [hb] at hupper
        cases hupper
    split at hstep
    · next hr =>
      rw [hr] at hrun
      obtain ⟨b, hb, -, rfl⟩ := hrun
      cases hstep
      simp [stepInodes, hcwd, hb]
    · cases hstep

/-- A sequence of calls that return on the disk returns on the inodes alone, and to the same inodes. -/
theorem calls_on_inodes {l : List (Fin NPROC × Call)} (hs : s.Good sb)
    (h : Run.execAll (step sb) s l = some t) : Run.execAll (stepInodes sb) (s.disk.inodes, s.tables) l =
      some (t.disk.inodes, t.tables) := by
  induction l generalizing s with
  | nil =>
    cases h
    rfl
  | cons pc l ih =>
    obtain ⟨u, hu, h⟩ := Option.bind_eq_some_iff.mp h
    unfold Run.execAll
    rw [step_inodes hs hu]
    exact ih (step_good hs hu) h

theorem calls_on_inodes_oneFile : ∃ t : Sys, t.disk.bitmap 60 = true ∧
    Run.execAll (stepInodes mkfsSb) (oneFile.inodes, firstTables) [(0, .mkdir [100])] =
      some (t.disk.inodes, t.tables) := by
  obtain ⟨t, hx, hbit⟩ := mkdir_oneFile
  have hrun := calls_on_inodes good_oneFile hx
  exact ⟨t, hbit, hrun⟩

end Xv6.Calls
