import Xv6.Lib.Run
import Xv6.Lib.Threads
import Xv6.Truncate

/-!
# The last reference to an inode

Processes that all have a reference to one inode without links give it up at the same time. `iput` takes the
inode's lock to look at the reference count and gives it back before it takes one off the count. In between
another process can look: then both find that they are not the last, and nobody frees the inode.
-/

namespace Xv6.Store.LastReference

open Function (update update_self update_of_ne)
open Hoare Threads

/-- Where a process is in `iput`: what it does next. -/
inductive Pc where
  /-- `acquiresleep(&ip->lock)` -/
  | lock
  /-- `ip->valid && ip->nlink == 0` -/
  | test
  /-- `r = ip->ref` under `icache.lock`, and `r == 1` -/
  | check
  /-- Truncate and free. -/
  | free
  /-- `releasesleep(&ip->lock)` -/
  | unlock
  /-- `ip->ref--` under `icache.lock` -/
  | drop
  | done
  deriving DecidableEq

/-- What is done to the inode under its lock when no other reference was found. -/
def freeInode (i : Nat) : DiskM Unit := do
  itrunc i
  modify fun s => s.updCopy i fun d => { d with type := 0 }
  iupdate i
  modify fun s => s.updInode i fun ip => { ip with valid := false }

/-- The processes, and how often the inode was freed. -/
structure Closing (ι : Type) where
  disk : Disk
  pc : ι → Pc
  frees : Nat

variable {ι : Type} [DecidableEq ι]

/-- Process `p` takes a step; there is none while it waits for the lock. -/
def step (i : Nat) (s : Closing ι) (p : ι) : Option (Closing ι) :=
  let ip := s.disk.icache i
  let goto (c : Pc) : ι → Pc := update s.pc p c
  match s.pc p with
  | .lock =>
    if ip.locked then none
    else some
      { s with disk := s.disk.updInode i fun ip => { ip with locked := true }, pc := goto .test }
  | .test => some { s with pc := goto (if ip.valid && ip.copy.nlink == 0 then .check else .unlock) }
  | .check => some { s with pc := goto (if ip.ref == 1 then .free else .unlock) }
  | .free =>
    match freeInode i s.disk with
    | .ok _ d => some { disk := d, pc := goto .unlock, frees := s.frees + 1 }
    | .error _ _ => none
  | .unlock => some
    { s with disk := s.disk.updInode i fun ip => { ip with locked := false }, pc := goto .drop }
  | .drop => some
    { s with disk := s.disk.updInode i fun ip => { ip with ref := ip.ref - 1 }, pc := goto .done }
  | .done => none

/-- All processes are about to call `iput`. -/
def start (ι : Type) (d : Disk) : Closing ι := { disk := d, pc := fun _ => .lock, frees := 0 }

/-- The reference count is looked at only when no process is about to take one off it. -/
def Undisturbed (s : Closing ι) (p : ι) : Prop := s.pc p = .check → ∀ q, s.pc q ≠ .drop

instance [Fintype ι] (s : Closing ι) (p : ι) : Decidable (Undisturbed s p) :=
  inferInstanceAs (Decidable (_ → ∀ _, _))

/-! ## Freeing -/

/-- The inode is free on the disk, and its blocks are not marked any more. -/
structure Gone (i : Nat) (d t : Disk) : Prop where
  type : (t.dinode i).type = 0
  blocks : ∀ k, d.ref i k ≠ 0 → t.bitmap (d.ref i k) = false

variable {sb : Superblock} {d : Disk} {i : Nat}

theorem freeInode_run (hd : d.Tidy sb) (hi : d.Live i) (hv : (d.icache i).valid = true) :
    ∃ t, freeInode i d = .ok () t ∧ Gone i d t ∧ (t.icache i).valid = false ∧
      (t.icache i).ref = (d.icache i).ref ∧ (t.icache i).locked = (d.icache i).locked := by
  obtain ⟨⟨⟩, t, htrunc, bm, hbm, rfl⟩ := (itrunc_triple hd hi hv).returns rfl
  unfold freeInode
  rw [bind_ok htrunc, bind_ok (modify_run _ _), bind_ok (iupdate_updCopy _ _ _), modify_run]
  refine ⟨_, rfl, ⟨?_, fun k hk => ?_⟩, ?_, ?_, ?_⟩
  · unfold Disk.updInode Disk.setInode
    simp
  · refine Bool.eq_false_iff.mpr fun hbit => hk ?_
    exact ((hbm _).mp hbit).2 k trivial rfl
  all_goals
    unfold Disk.updInode Disk.setInode
    simp

/-- The inode is as it was, but for its lock and its reference count. -/
structure Same (i : Nat) (d e : Disk) : Prop where
  bitmap : e.bitmap = d.bitmap
  blocks : e.blocks = d.blocks
  inode : ∀ j, e.inode j = d.inode j
  valid : (e.icache i).valid = (d.icache i).valid
  copy : (e.icache i).copy = (d.icache i).copy

variable {e : Disk}

theorem Same.refl (i : Nat) (d : Disk) : Same i d d := ⟨rfl, rfl, fun _ => rfl, rfl, rfl⟩

theorem Same.updInode (h : Same i d e) {f : Cached → Cached} (hv : ∀ ip, (f ip).valid = ip.valid)
    (hc : ∀ ip, (f ip).copy = ip.copy) : Same i d (e.updInode i f) where
  bitmap := h.bitmap
  blocks := h.blocks
  inode j := by
    rw [← h.inode j]
    unfold Disk.inode Disk.updInode
    by_cases hj : j = i
    · subst hj
      simp [hv, hc]
    · simp [hj]
  valid := by
    rw [← h.valid]
    simp [Disk.updInode, hv]
  copy := by
    rw [← h.copy]
    simp [Disk.updInode, hc]

theorem Same.ref (h : Same i d e) (j : Nat) (k : Slot) : e.ref j k = d.ref j k := by
  unfold Disk.ref
  rw [h.inode, h.blocks]

theorem Same.live (h : Same i d e) {j : Nat} : e.Live j ↔ d.Live j := by
  unfold Disk.Live
  rw [h.inode]

theorem Same.tidy (h : Same i d e) (hd : d.Tidy sb) : e.Tidy sb :=
  hd.of_refs (fun {j k} hj _ => ⟨h.live.mp hj, h.ref j k⟩) fun b _ hb => by rw [h.bitmap, hb]

/-! ## The invariant -/

/-- The process has the inode's lock. -/
def Pc.held : Pc → Bool
  | .test | .check | .free | .unlock => true
  | .lock | .drop | .done => false

/-- The process has its reference. -/
def Pc.live : Pc → Bool
  | .done => false
  | _ => true

/-- The process may still free the inode. -/
def Pc.early : Pc → Bool
  | .lock | .test | .check | .free => true
  | .unlock | .drop | .done => false

structure Inv (i : Nat) (d : Disk) (s : Closing ι) : Prop where
  lock : Flag Pc.held s.pc (s.disk.icache i).locked
  refs : Tally Pc.live s.pc (s.disk.icache i).ref
  /-- As long as the inode is not freed, somebody will look at the count. -/
  fresh : s.frees = 0 → Same i d s.disk ∧ ∃ q, (s.pc q).early = true
  gone : s.frees ≠ 0 → s.frees = 1 ∧ Gone i d s.disk ∧ ∀ q, (s.pc q).early = false
  /-- Who frees the inode is alone. -/
  solo : ∀ p, s.pc p = .free → ∀ q, q ≠ p → s.pc q = .done

variable {s t : Closing ι} {p : ι}

omit [DecidableEq ι] in
theorem Inv.start [Fintype ι] [Nonempty ι] (hl : (d.icache i).locked = false)
    (href : (d.icache i).ref = Fintype.card ι) : Inv i d (start ι d) where
  lock := by
    rw [show (LastReference.start ι d).disk = d from rfl, hl]
    exact ⟨⟨(by rintro ⟨⟩), fun ⟨_, hq⟩ => by cases hq⟩, fun _ _ hq => by cases hq⟩
  refs := ⟨Finset.univ, fun q => by simp [LastReference.start, Pc.live], by
    rw [show (LastReference.start ι d).disk = d from rfl, href]
    rfl⟩
  fresh _ := ⟨Same.refl i d, Classical.arbitrary ι, rfl⟩
  gone h := absurd rfl h
  solo _ := (by rintro ⟨⟩)

omit [DecidableEq ι] in
theorem Inv.fresh_of_early (h : Inv i d s) (hp : (s.pc p).early = true) : s.frees = 0 := by
  by_contra h0
  rw [(h.gone h0).2.2 p] at hp
  cases hp

theorem Inv.move (h : Inv i d s) {c : Pc} (hp : s.pc p ≠ .done) (hc : c ≠ .free)
    (hlock : Flag Pc.held (update s.pc p c) (e.icache i).locked)
    (hrefs : Tally Pc.live (update s.pc p c) (e.icache i).ref)
    (hsame : Same i d s.disk → Same i d e) (hgone : Gone i d s.disk → Gone i d e)
    (hearly : s.frees = 0 → ∃ q, (update s.pc p c q).early = true) (hlate : s.frees ≠ 0 → c.early = false) :
    Inv i d { s with disk := e, pc := update s.pc p c } where
  lock := hlock
  refs := hrefs
  fresh h0 := ⟨hsame (h.fresh h0).1, hearly h0⟩
  gone h0 := by
    obtain ⟨h1, hg, hnone⟩ := h.gone h0
    refine ⟨h1, hgone hg, fun q => ?_⟩
    dsimp only
    by_cases hq : q = p
    · rw [hq, update_self, hlate h0]
    · rw [update_of_ne hq, hnone q]
  solo q hq := by
    dsimp only at hq
    have hqp : q ≠ p := by
      rintro rfl
      rw [update_self] at hq
      exact hc hq
    rw [update_of_ne hqp] at hq
    exact absurd (h.solo q hq p hqp.symm) hp

omit [DecidableEq ι] in
theorem Inv.waiting (h : Inv i d s) (hp : (s.pc p).held = true) {q : ι} (hq : q ≠ p)
    (hdrop : s.pc q ≠ .drop) (hlive : (s.pc q).live = true) : s.pc q = .lock := by
  have hnot : (s.pc q).held ≠ true := fun hheld => hq (h.lock.sole q p hheld hp)
  cases hpc : s.pc q <;> rw [hpc] at hnot hlive hdrop <;> simp_all [Pc.held, Pc.live]

theorem Inv.check (h : Inv i d s) (hp : s.pc p = .check) (hdrop : ∀ q, s.pc q ≠ .drop) : Inv i d
      { s with
        pc := update s.pc p (if (s.disk.icache i).ref == 1 then .free else .unlock) } := by
  have hheld : (s.pc p).held = true := by rw [hp]; rfl
  have hplive : (s.pc p).live = true := by rw [hp]; rfl
  have h0 : s.frees = 0 := h.fresh_of_early (p := p) (by rw [hp]; rfl)
  obtain ⟨R, hR, hcard⟩ := h.refs
  have hmem : p ∈ R := (hR p).mpr hplive
  by_cases hone : (s.disk.icache i).ref = 1
  · rw [hone, if_pos (by rfl)]
    -- `p` is the only one that has a reference
    have hothers : ∀ q, q ≠ p → s.pc q = .done := by
      intro q hq
      by_contra hdone
      have hlive : (s.pc q).live = true := by cases hpc : s.pc q <;> simp_all [Pc.live]
      have hcard1 : R.card ≤ 1 := by omega
      exact hq (Finset.card_le_one.mp hcard1 q ((hR q).mpr hlive) p hmem)
    refine ⟨h.lock.same (by rw [hp]; rfl), h.refs.same (by rw [hp]; rfl), fun _ => ⟨(h.fresh h0).1, p, ?_⟩,
      fun hne => absurd h0 hne, fun q hq r hr => ?_⟩
    · dsimp only
      rw [update_self]
      rfl
    · dsimp only at hq ⊢
      have hqp : q = p := by
        by_contra hqp
        rw [update_of_ne hqp, hothers q hqp] at hq
        cases hq
      subst hqp
      rw [update_of_ne hr, hothers r hr]
  · rw [if_neg (by simpa using hone)]
    refine h.move (by rw [hp]; nofun) nofun (h.lock.same (by rw [hp]; rfl))
      (h.refs.same (by rw [hp]; rfl)) id id (fun _ => ?_) fun _ => rfl
    -- somebody else waits for the lock
    have hpos := Finset.card_pos.mpr ⟨p, hmem⟩
    obtain ⟨q, hq, hqp⟩ := Finset.exists_mem_ne (by omega : 1 < R.card) p
    refine ⟨q, ?_⟩
    rw [update_of_ne hqp, h.waiting hheld hqp (hdrop q) ((hR q).mp hq)]
    rfl

theorem Inv.step (hd : d.Tidy sb) (hi : d.Live i) (hv : (d.icache i).valid = true)
    (hn : (d.icache i).copy.nlink = 0) (h : Inv i d s) (hg : Undisturbed s p)
    (hx : step i s p = some t) : Inv i d t := by
  have hmoved : (s.pc p).early = true → ∀ {c : Pc}, c.early = true →
      s.frees = 0 → ∃ q, (update s.pc p c q).early = true :=
    fun _ c hc _ => ⟨p, by rw [update_self, hc]⟩
  have hothers : (s.pc p).early = false → ∀ {c : Pc}, s.frees = 0 →
      ∃ q, (update s.pc p c q).early = true := by
    intro hp c h0
    obtain ⟨q, hq⟩ := (h.fresh h0).2
    refine ⟨q, ?_⟩
    rw [update_of_ne, hq]
    rintro rfl
    rw [hp] at hq
    cases hq
  have hcache : ∀ f : Cached → Cached,
      (s.disk.updInode i f).icache i = f (s.disk.icache i) := fun f => update_self _ _ _
  unfold LastReference.step at hx
  dsimp only at hx
  cases hp : s.pc p with
  | lock =>
    rw [hp] at hx
    dsimp only at hx
    have hearly : (s.pc p).early = true := by rw [hp]; rfl
    split at hx
    · cases hx
    · next hlocked =>
      cases hx
      refine h.move (by rw [hp]; nofun) nofun ?_ ?_ (fun hs => hs.updInode (fun _ => rfl) fun _ => rfl)
        (fun hs => ⟨hs.1, hs.2⟩) (hmoved hearly rfl) fun h0 => absurd (h.fresh_of_early hearly) h0
      · rw [hcache]
        have hflag := h.lock
        rw [Bool.eq_false_iff.mpr hlocked] at hflag
        exact hflag.enter rfl
      · rw [hcache]
        exact h.refs.same (by rw [hp]; rfl)
  | test =>
    rw [hp] at hx
    dsimp only at hx
    have hearly : (s.pc p).early = true := by rw [hp]; rfl
    have hsame := (h.fresh (h.fresh_of_early hearly)).1
    rw [hsame.valid, hsame.copy, hv, hn] at hx
    cases hx
    exact h.move (by rw [hp]; nofun) nofun (h.lock.same (by rw [hp]; rfl))
      (h.refs.same (by rw [hp]; rfl)) id id (hmoved hearly rfl)
      fun h0 => absurd (h.fresh_of_early hearly) h0
  | check =>
    rw [hp] at hx
    cases hx
    exact h.check hp (hg hp)
  | free =>
    rw [hp] at hx
    dsimp only at hx
    have hearly : (s.pc p).early = true := by rw [hp]; rfl
    have h0 := h.fresh_of_early hearly
    have hsame := (h.fresh h0).1
    obtain ⟨e, he, hgone, -, href, hlocked⟩ :=
      freeInode_run (hsame.tidy hd) (hsame.live.mpr hi) (by rw [hsame.valid, hv])
    rw [he] at hx
    cases hx
    have hgone : Gone i d e := ⟨hgone.type, fun k hk => by
      rw [← hsame.ref]
      exact hgone.blocks k (by rwa [hsame.ref])⟩
    refine ⟨?_, ?_, fun h1 => absurd h1 (Nat.succ_ne_zero _), fun _ => ⟨by rw [h0], hgone, fun q => ?_⟩,
      fun q hq => ?_⟩
    · dsimp only
      rw [hlocked]
      exact h.lock.same (by rw [hp]; rfl)
    · dsimp only
      rw [href]
      exact h.refs.same (by rw [hp]; rfl)
    · dsimp only
      by_cases hqp : q = p
      · rw [hqp, update_self]
        rfl
      · rw [update_of_ne hqp, h.solo p hp q hqp]
        rfl
    · dsimp only at hq
      by_cases hqp : q = p
      · rw [hqp, update_self] at hq
        cases hq
      · rw [update_of_ne hqp, h.solo p hp q hqp] at hq
        cases hq
  | unlock =>
    rw [hp] at hx
    cases hx
    refine h.move (by rw [hp]; nofun) nofun ?_ ?_ (fun hs => hs.updInode (fun _ => rfl) fun _ => rfl)
      (fun hs => ⟨hs.1, hs.2⟩) (hothers (by rw [hp]; rfl)) fun _ => rfl
    · rw [hcache]
      exact h.lock.leave (by rw [hp]; rfl) rfl
    · rw [hcache]
      exact h.refs.same (by rw [hp]; rfl)
  | drop =>
    rw [hp] at hx
    cases hx
    refine h.move (by rw [hp]; nofun) nofun ?_ ?_ (fun hs => hs.updInode (fun _ => rfl) fun _ => rfl)
      (fun hs => ⟨hs.1, hs.2⟩) (hothers (by rw [hp]; rfl)) fun _ => rfl
    · rw [hcache]
      exact h.lock.same (by rw [hp]; rfl)
    · rw [hcache]
      have hlive : (s.pc p).live = true := by rw [hp]; rfl
      have hpos := h.refs.pos hlive
      have hleave := h.refs.leave (c := .done) hlive rfl
      rwa [show ((s.disk.icache i).ref : Int) - 1 = ((s.disk.icache i).ref - 1 : Nat) by omega] at hleave
  | done =>
    rw [hp] at hx
    cases hx

/-- **The last reference frees the inode**, once, in every run in which nobody looks at the count while
another process is about to take one off it. -/
theorem freed_once_of_run [Fintype ι] [Nonempty ι] (hd : d.Tidy sb) (hi : d.Live i)
    (hv : (d.icache i).valid = true) (hn : (d.icache i).copy.nlink = 0)
    (hl : (d.icache i).locked = false) (href : (d.icache i).ref = Fintype.card ι)
    (h : Run (LastReference.step i) Undisturbed (start ι d) t) (h0 : (t.disk.icache i).ref = 0) :
    Gone i d t.disk ∧ t.frees = 1 := by
  have hinv : Inv i d t := h.invariant (.start hl href) fun _ _ _ h hg hx => h.step hd hi hv hn hg hx
  have hfrees : t.frees ≠ 0 := by
    intro hf
    obtain ⟨-, q, hq⟩ := hinv.fresh hf
    have hpos := hinv.refs.pos (p := q) (by cases hpc : t.pc q <;> simp_all [Pc.live, Pc.early])
    omega
  obtain ⟨h1, hgone, -⟩ := hinv.gone hfrees
  exact ⟨hgone, h1⟩

/-- A file with one block and without links. -/
def unlinkedInode : Dinode := { type := T_FILE, size := 1, addrs := oneBlock 60 }

/-- It is inode 2, and two processes have it open. -/
def unlinkedFile : Disk where
  bitmap b := b < 61
  blocks _ _ := 0
  dinode i := if i = 2 then unlinkedInode else {}
  icache i := if i = 2 then { ref := 2, valid := true, copy := unlinkedInode } else {}

theorem tidy_unlinkedFile : unlinkedFile.Tidy twoFilesSb := by
  have hone : unlinkedFile.OneBlock 2 60 := by
    refine ⟨rfl, fun i hi => ?_⟩
    unfold Disk.inode unlinkedFile
    simp [hi]
  refine hone.tidy rfl (by decide) fun b hb => ?_
  have : b < 61 := Nat.lt_trans hb (by decide)
  simp [unlinkedFile, this]

/-- One after the other. -/
theorem freed_once_of_run_unlinkedFile : ∃ t : Closing (Fin 2),
    Run (LastReference.step 2) Undisturbed (start (Fin 2) unlinkedFile) t ∧ (t.disk.icache 2).ref = 0 ∧
    Gone 2 unlinkedFile t.disk ∧ t.frees = 1 := by
  have hx : (Run.execAll
      (fun s p => if Undisturbed s p then LastReference.step 2 s p else none) (start (Fin 2) unlinkedFile)
      (List.replicate 5 0 ++ List.replicate 6 1)).any (fun t => (t.disk.icache 2).ref == 0) = true := by
    decide +kernel
  obtain ⟨t, hrun, h0⟩ := Run.exists_run hx
  have h0 : (t.disk.icache 2).ref = 0 := by simpa using h0
  exact ⟨t, hrun.of_checked, h0, freed_once_of_run tidy_unlinkedFile (i := 2) (by unfold Disk.Live; decide)
    rfl rfl rfl rfl hrun.of_checked h0⟩

/-- The second process looks at the count before the first one takes one off it. -/
theorem last_reference_lost : ∃ t : Closing (Fin 2),
    Run (LastReference.step 2) (fun _ _ => True) (start (Fin 2) unlinkedFile) t ∧
    (t.disk.icache 2).ref = 0 ∧ (t.disk.dinode 2).type = T_FILE ∧ t.disk.bitmap 60 = true ∧ t.frees = 0 := by
  have hx : (Run.execAll (LastReference.step 2) (start (Fin 2) unlinkedFile)
      (List.replicate 4 0 ++ List.replicate 4 1 ++ [0, 1])).any (fun t =>
        (t.disk.icache 2).ref == 0 && (t.disk.dinode 2).type == T_FILE && t.disk.bitmap 60 &&
          t.frees == 0) = true := by decide +kernel
  obtain ⟨t, hrun, ht⟩ := Run.exists_run hx
  simp only [Bool.and_eq_true, beq_iff_eq] at ht
  exact ⟨t, hrun, ht.1.1.1, ht.1.1.2, ht.1.2, ht.2⟩

end Xv6.Store.LastReference
