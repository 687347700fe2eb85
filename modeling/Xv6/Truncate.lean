import Xv6.FileContent

/-!
# Freeing the blocks of an inode

`itrunc` gives back the direct blocks, the blocks in the indirect block and the indirect block itself.
Since no block number stands in two places, each of them is still marked when its turn comes, and
`bfree` does not panic.
-/

namespace Xv6.Store

open Function (update update_apply update_self update_idem update_of_ne update_eq_self update_eq_self_iff)
open Hoare

variable {sb : Superblock} {s t : Disk} {i b : Nat} {k : Slot}

/-- The blocks in the places `D` of inode `i` are not marked any more. -/
def Freed (s : Disk) (i : Nat) (D : Slot → Prop) (bm : Nat → Bool) : Prop :=
  ∀ b, bm b = true ↔ s.bitmap b = true ∧ ∀ k, D k → s.ref i k = b → b = 0

variable {D D' : Slot → Prop} {bm : Nat → Bool}

theorem Freed.congr (h : Freed s i D bm) (hD : ∀ k, s.ref i k ≠ 0 → (D' k ↔ D k)) : Freed s i D' bm := by
  intro b
  rw [h b]
  refine and_congr_right fun _ => forall_congr' fun k => ?_
  by_cases h0 : s.ref i k = 0
  · rw [h0]
    exact ⟨fun _ _ hb => hb.symm, fun _ _ hb => hb.symm⟩
  · rw [hD k h0]

theorem Freed.step (h : Freed s i D bm) (hs : s.Tidy sb) (hi : s.Live i) (hk : ¬ D k)
    (h0 : s.ref i k ≠ 0) : bm (s.ref i k) = true ∧
      Freed s i (fun l => D l ∨ l = k) (update bm (s.ref i k) false) := by
  constructor
  · refine (h _).mpr ⟨hs.marked hi h0, fun l hl heq => ?_⟩
    -- a place that is done holds another number
    exact absurd ((hs.inj hi hi heq.symm h0).2 ▸ hl) hk
  · intro b
    rw [update_apply]
    by_cases hb : b = s.ref i k
    · rw [if_pos hb]
      refine ⟨(by rintro ⟨⟩), fun ⟨_, hall⟩ => ?_⟩
      exact absurd (hb ▸ hall k (.inr rfl) hb.symm) h0
    · rw [if_neg hb, h b]
      refine and_congr_right fun _ => ⟨fun hall l hl heq => ?_, fun hall l hl => hall l (.inl hl)⟩
      obtain hl | rfl := hl
      · exact hall l hl heq
      · exact absurd heq.symm hb

theorem bfree_triple {bm : Nat → Bool} (hb : bm b = true) (u : Disk) :
    Triple (fun s => s = { u with bitmap := bm }) (bfree b)
      (fun _ s => s = { u with bitmap := update bm b false }) ⊥ := by
  refine .get fun t ht => ?_
  subst ht
  rw [show (!bm b) = false by rw [hb]; rfl]
  exact ⟨fun _ _ => rfl⟩

/-- Half way through: another bit map, and other block numbers in the copy. -/
def Disk.during (s : Disk) (i : Nat) (bm : Nat → Bool) (f : Fin (NDIRECT + 1) → Nat) : Disk :=
  { s with
    bitmap := bm
    icache := update s.icache i
      { s.icache i with copy := { (s.icache i).copy with addrs := f } } }

section
variable (s i bm) (f : Fin (NDIRECT + 1) → Nat)

theorem copy_during : ((s.during i bm f).icache i).copy = { (s.icache i).copy with addrs := f } := by
  unfold Disk.during
  dsimp only
  rw [update_self]

theorem addrs_during : ((s.during i bm f).icache i).copy.addrs = f := by
  rw [copy_during]

theorem setAddr_during (k : Fin (NDIRECT + 1)) (b : Nat) : (s.during i bm f).setAddr i k b =
      s.during i bm (update f k b) := by
  unfold Disk.setAddr Disk.updCopy Disk.updInode Disk.during
  dsimp only
  rw [update_self, update_idem]

end

/-- The loop over the direct blocks, with the numbers `l` left to do. -/
structure Directs (s : Disk) (i : Nat) (l : List (Fin NDIRECT)) (bm : Nat → Bool)
    (f : Fin (NDIRECT + 1) → Nat) : Prop where
  freed : Freed s i (fun k => ∃ n, n ∉ l ∧ k = .direct n) bm
  left : ∀ n : Fin NDIRECT, f n.castSucc = if n ∈ l then s.ref i (.direct n) else 0
  last : f (Fin.last NDIRECT) = s.ref i .indirect

section
variable (hs : s.Tidy sb) (hi : s.Live i)
include hs hi

theorem Directs.next {n : Fin NDIRECT} {l : List (Fin NDIRECT)} {f : Fin (NDIRECT + 1) → Nat}
    (h : Directs s i (n :: l) bm f) (hn : n ∉ l) :
    f n.castSucc = s.ref i (.direct n) ∧ (s.ref i (.direct n) ≠ 0 → bm (s.ref i (.direct n)) = true ∧
        Directs s i l (update bm (s.ref i (.direct n)) false) (update f n.castSucc 0)) ∧
      (s.ref i (.direct n) = 0 → Directs s i l bm f) := by
  have hsplit : ∀ k : Slot, (∃ m, m ∉ l ∧ k = .direct m) ↔
      (∃ m, m ∉ n :: l ∧ k = .direct m) ∨ k = .direct n := by
    intro k
    constructor
    · rintro ⟨m, hm, rfl⟩
      by_cases hmn : m = n
      · exact .inr (hmn ▸ rfl)
      · exact .inl ⟨m, by simp [hmn, hm], rfl⟩
    · rintro (⟨m, hm, rfl⟩ | rfl)
      · exact ⟨m, fun h => hm (List.mem_cons_of_mem _ h), rfl⟩
      · exact ⟨n, hn, rfl⟩
  have hleft : ∀ m : Fin NDIRECT, m ≠ n → (m ∈ l ↔ m ∈ n :: l) := by
    intro m hmn
    simp [hmn]
  refine ⟨by rw [h.left, if_pos List.mem_cons_self], fun h0 => ?_, fun h0 => ⟨?_, fun m => ?_, h.last⟩⟩
  · obtain ⟨hbit, hfreed⟩ := h.freed.step hs hi (k := .direct n) (by simp) h0
    refine ⟨hbit, hfreed.congr fun k _ => hsplit k, fun m => ?_, ?_⟩
    · by_cases hmn : m = n
      · rw [hmn, update_self, if_neg hn]
      · rw [update_of_ne fun h => hmn (Fin.castSucc_injective _ h), h.left]
        simp only [hleft m hmn]
    · rw [update_of_ne (Fin.castSucc_lt_last n).ne', h.last]
  · refine h.freed.congr fun k hk => ?_
    rw [hsplit]
    refine or_iff_left ?_
    rintro rfl
    exact hk h0
  · by_cases hmn : m = n
    · rw [h.left, hmn, if_pos List.mem_cons_self, if_neg hn, h0]
    · rw [h.left]
      simp only [hleft m hmn]

/-- What `itrunc` leaves. -/
def Truncated (i : Nat) (s t : Disk) : Prop :=
  ∃ bm, Freed s i (fun _ => True) bm ∧
    t = { s with bitmap := bm }.setInode i { (s.icache i).copy with addrs := fun _ => 0, size := 0 }

/-- The loop over the entries of the indirect block, with the indices `l` left to do. -/
def Entries (s : Disk) (i : Nat) (l : List Nat) (bm : Nat → Bool) : Prop :=
  Freed s i (fun k => (∃ n, k = .direct n) ∨ ∃ e : Fin NINDIRECT, e.val ∉ l ∧ k = .entry e) bm

theorem Entries.next {j : Nat} {l : List Nat} (h : Entries s i (j :: l) bm) (hj : j ∉ l) (hlt : j < NINDIRECT) :
    (s.ref i (.entry ⟨j, hlt⟩) ≠ 0 → bm (s.ref i (.entry ⟨j, hlt⟩)) = true ∧
      Entries s i l (update bm (s.ref i (.entry ⟨j, hlt⟩)) false)) ∧
    (s.ref i (.entry ⟨j, hlt⟩) = 0 → Entries s i l bm) := by
  have hsplit : ∀ k : Slot, ((∃ n, k = .direct n) ∨ ∃ e : Fin NINDIRECT, e.val ∉ l ∧ k = .entry e) ↔
      ((∃ n, k = .direct n) ∨ ∃ e : Fin NINDIRECT, e.val ∉ j :: l ∧ k = .entry e) ∨ k = .entry ⟨j, hlt⟩ := by
    intro k
    rw [or_assoc]
    refine or_congr_right ⟨?_, ?_⟩
    · rintro ⟨e, he, rfl⟩
      by_cases hej : e.val = j
      · exact .inr (congrArg _ (Fin.ext hej))
      · exact .inl ⟨e, by simp [hej, he], rfl⟩
    · rintro (⟨e, he, rfl⟩ | rfl)
      · exact ⟨e, fun h => he (List.mem_cons_of_mem _ h), rfl⟩
      · exact ⟨⟨j, hlt⟩, hj, rfl⟩
  refine ⟨fun h0 => ?_, fun h0 => h.congr fun k hk => ?_⟩
  · obtain ⟨hbit, hfreed⟩ := h.step hs hi (k := .entry ⟨j, hlt⟩) (by simp) h0
    exact ⟨hbit, hfreed.congr fun k _ => hsplit k⟩
  · rw [hsplit]
    refine or_iff_left ?_
    rintro rfl
    exact hk h0

theorem directLoop_triple (hv : (s.icache i).valid = true) :
    Triple (fun u => u = s)
      ((List.finRange NDIRECT).forM fun k => do
        let s ← get
        if (s.icache i).copy.addrs k.castSucc ≠ 0 then do
          bfree ((s.icache i).copy.addrs k.castSucc)
          modify fun s => s.setAddr i k.castSucc 0
        else
          pure ())
      (fun _ u => ∃ bm f, u = s.during i bm f ∧ Directs s i [] bm f) ⊥ := by
  have hinode := Disk.inode_of_valid hv
  have hstart : ∃ bm f, s = s.during i bm f ∧ Directs s i (List.finRange NDIRECT) bm f := by
    refine ⟨s.bitmap, (s.icache i).copy.addrs, ?_, fun b => ?_, fun n => ?_, ?_⟩
    · unfold Disk.during
      rw [update_eq_self]
    · refine ⟨fun hb => ⟨hb, ?_⟩, fun hb => hb.1⟩
      rintro _ ⟨n, hn, -⟩
      exact absurd (List.mem_finRange n) hn
    · rw [if_pos (List.mem_finRange n)]
      unfold Disk.ref
      rw [hinode]
      rfl
    · unfold Disk.ref
      rw [hinode]
      rfl
  refine (Triple.forM (I := fun l u => ∃ bm f, u = s.during i bm f ∧ Directs s i l bm f)
    (List.finRange NDIRECT) fun n l hl => ?_).pre fun u hu => hu ▸ hstart
  have hn : n ∉ l := (List.nodup_cons.mp ((List.nodup_finRange NDIRECT).sublist hl.sublist)).1
  refine .pre_exists fun bm => .pre_exists fun f => .get fun u hu => ?_
  obtain ⟨rfl, hdir⟩ := hu
  obtain ⟨hf, hnonzero, hzero⟩ := hdir.next hs hi hn
  rw [addrs_during, hf]
  refine .ite (fun h0 => ?_) fun h0 => .pure ?_
  · obtain ⟨hbit, hnext⟩ := hnonzero h0
    refine .bind (bfree_triple hbit (s.during i bm f)) fun _ => .modify fun u hu => ?_
    exact ⟨_, _, hu ▸ setAddr_during s i _ f _ 0, hnext⟩
  · rintro u rfl
    exact ⟨bm, f, rfl, hzero (by_contra h0)⟩

theorem entryLoop_triple (ha : s.ref i .indirect ≠ 0)
    {f : Fin (NDIRECT + 1) → Nat} (hbm : Entries s i (List.range NINDIRECT) bm) :
    Triple (fun u => u = s.during i bm f)
      ((List.range NINDIRECT).forM fun j =>
        if word (s.blocks (s.ref i .indirect)) j ≠ 0 then bfree (word (s.blocks (s.ref i .indirect)) j)
        else pure ())
      (fun _ u => ∃ bm, u = s.during i bm f ∧ Entries s i [] bm) ⊥ := by
  refine (Triple.forM (I := fun l u => ∃ bm, u = s.during i bm f ∧ Entries s i l bm)
    (List.range NINDIRECT) fun j l hl => ?_).pre fun u hu => ⟨bm, hu, hbm⟩
  have hj : j ∉ l := (List.nodup_cons.mp (List.nodup_range.sublist hl.sublist)).1
  have hlt : j < NINDIRECT := List.mem_range.mp (hl.subset List.mem_cons_self)
  refine .pre_exists fun bm => .pre_and fun hent => ?_
  obtain ⟨hnonzero, hzero⟩ := hent.next hs hi hj hlt
  rw [ref_entry, if_neg ha] at hnonzero hzero
  refine .ite (fun h0 => ?_) fun h0 => .pure fun u hu => ⟨bm, hu, hzero (by_contra h0)⟩
  obtain ⟨hbit, hnext⟩ := hnonzero h0
  exact (bfree_triple hbit (s.during i bm f)).post fun _ u hu => ⟨_, hu, hnext⟩

theorem itrunc_triple (hv : (s.icache i).valid = true) :
    Triple (fun u => u = s) (itrunc i) (fun _ u => Truncated i s u) ⊥ := by
  -- with all places done, what is left
  have hend : ∀ {bm : Nat → Bool}, Freed s i (fun _ => True) bm →
      Triple (fun u => u = s.during i bm fun _ => 0)
        (do
          modify fun s => s.updCopy i fun d => { d with size := 0 }
          iupdate i)
        (fun _ u => Truncated i s u) ⊥ := by
    intro bm hbm
    refine .update (R := fun u => u = (s.during i bm fun _ => 0).updCopy i fun d => { d with size := 0 })
      (fun u hu => by rw [hu]) <| ⟨fun u hu => ?_⟩
    rw [hu, iupdate_updCopy]
    refine ⟨bm, hbm, ?_⟩
    rw [copy_during]
    unfold Disk.during Disk.setInode
    dsimp only
    rw [update_self, update_idem]
  refine .bind (directLoop_triple hs hi hv) fun _ => .get fun u hu => ?_
  obtain ⟨bm, f, rfl, hdir⟩ := hu
  rw [addrs_during, hdir.last]
  have hfree : Freed s i (fun k => ∃ n, k = .direct n) bm := hdir.freed.congr fun k _ => by simp
  have hf : update f (Fin.last NDIRECT) 0 = fun _ => 0 := by
    funext k
    cases k using Fin.lastCases with
    | last => rw [update_self]
    | cast n =>
      rw [update_of_ne (Fin.castSucc_lt_last n).ne, hdir.left n]
      simp
  dsimp only
  refine .ite (fun ha => ?_) fun ha => ?_
  · have hstart : Entries s i (List.range NINDIRECT) bm := by
      refine hfree.congr fun k _ => or_iff_left ?_
      rintro ⟨e, he, -⟩
      exact he (List.mem_range.mpr e.isLt)
    refine .bind (entryLoop_triple hs hi ha hstart) fun _ => ?_
    refine .pre_exists fun bm => .pre_and fun hent => ?_
    have hmost : Freed s i (fun k => k ≠ .indirect) bm := by
      refine hent.congr fun k _ => ?_
      cases k <;> simp
    obtain ⟨hbit, hall⟩ := hmost.step hs hi (k := .indirect) (fun h => h rfl) ha
    refine .bind (bfree_triple hbit (s.during i bm f)) fun _ => .update (fun u hu => ?_) <|
      hend (hall.congr fun k _ => ?_)
    · rw [hu, ← hf]
      exact setAddr_during s i _ f _ 0
    · simp only [true_iff]
      exact ne_or_eq k .indirect
  · have ha := by_contra ha
    have hall : Freed s i (fun _ => True) bm := by
      refine hfree.congr fun k hk => ?_
      -- without an indirect block there are no entries
      cases k with
      | direct n => simp
      | indirect => exact absurd ha hk
      | entry e =>
        rw [ref_entry, if_pos ha] at hk
        exact absurd rfl hk
    refine (hend hall).pre fun u hu => ?_
    rw [hu, ← hf, update_eq_self_iff.mpr (by rw [hdir.last, ha])]

end

end Xv6.Store
