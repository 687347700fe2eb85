import Xv6.FirstFit
import Xv6.Frame

/-!
# Indices of the table of mappings

`mmaps` and the local array `to_free` of `sys_munmap` have `PAGE_LIMIT` entries. Two indices are not checked.
A guard page that grows looks at the slot after its own, also when it is in the last one. And `to_free` is
filled while the loop over the range runs, which may go round the address space for ever.

A guard page also grows when a page that it covers is written back. `Contained` says that no page that could
be written back is in a guard page in the last slot.
-/

namespace Xv6

open Function (update_self update_of_ne)
open Hoare

variable {p np : Fin NPROC} {s t : State} {E : Stop → State → Prop}
  {mmaps : Mmaps} {W : Set Word}

/-! ## The last slot -/

/-- The last slot of the table. -/
def lastSlot : Index := ⟨PAGE_LIMIT - 1, by decide⟩

/-- A fault in `W` does not find a guard page in the last slot, now or after some guard page grew: the slot
is taken by another page, or its address is elsewhere. -/
def Shielded (W : Set Word) (mmaps : Mmaps) : Prop :=
  (mmaps lastSlot).valid ∧ (mmaps lastSlot).guardPage = false ∨ Disjoint W (mmaps lastSlot).range

/-- Every page that `munmap` or `exit` would write back is shielded from the last slot, and is not page
`0`, which is what a slot that was freed holds. -/
def Contained (mmaps : Mmaps) : Prop :=
  ∀ i, (mmaps i).f ≠ none → hasFlag (mmaps i).flags MAP_PRIVATE = false →
    Shielded (mmaps i).range mmaps ∧ Disjoint (mmaps i).range (pageRange 0)

/-- The mappings of `p` are. -/
@[simp] abbrev ContainedAt (p : Fin NPROC) (s : State) : Prop := Contained (s.proc p).mmaps

variable {i : Index} {md : MmapDesc}

section
variable (hva : md.virtualAddress = (mmaps i).virtualAddress)
  (hlast : i = lastSlot → (mmaps i).valid → (mmaps i).guardPage = false → md.valid ∧ md.guardPage = false)
include hva hlast

/-- A change that moves no slot and does not turn the page in the last slot into a guard page. -/
theorem Shielded.update (h : Shielded W mmaps) : Shielded W (Function.update mmaps i md) := by
  unfold Shielded at h ⊢
  by_cases hi : lastSlot = i
  · rw [hi] at h ⊢
    rw [update_self, MmapDesc.range, hva]
    exact h.imp_left fun h => hlast hi.symm h.1 h.2
  · rwa [update_of_ne hi]

theorem Contained.update (h : Contained mmaps)
    (hf : md.f = (mmaps i).f) (hflags : md.flags = (mmaps i).flags) : Contained (Function.update mmaps i md) := by
  intro j hj hpriv
  have hsame : (Function.update mmaps i md j).f = (mmaps j).f ∧
      (Function.update mmaps i md j).flags = (mmaps j).flags ∧
      (Function.update mmaps i md j).range = (mmaps j).range := by
    by_cases hji : j = i
    · subst hji
      rw [update_self]
      exact ⟨hf, hflags, by rw [MmapDesc.range, hva, MmapDesc.range]⟩
    · rw [update_of_ne hji]
      exact ⟨rfl, rfl, rfl⟩
  obtain ⟨hjf, hjflags, hrange⟩ := hsame
  rw [hjf] at hj
  rw [hjflags] at hpriv
  rw [hrange]
  exact ⟨(h j hj hpriv).1.update hva hlast, (h j hj hpriv).2⟩

end

theorem Contained.clear (h : Contained mmaps) (i : Index) :
    Contained (Function.update mmaps i (mmaps i).cleared) := by
  intro j hj hpriv
  by_cases hji : j = i
  · subst hji
    rw [update_self] at hj
    exact absurd rfl hj
  · rw [update_of_ne hji] at hj hpriv ⊢
    refine ⟨?_, (h j hj hpriv).2⟩
    by_cases hi : lastSlot = i
    · refine .inr ?_
      rw [hi, update_self]
      exact (h j hj hpriv).2
    · unfold Shielded
      rw [update_of_ne hi]
      exact (h j hj hpriv).1

theorem Shielded.next_lt (h : Shielded W mmaps) {x : Word} (hx : x ∈ W)
    (hfind : findDesc mmaps x = some i) (hguard : (mmaps i).guardPage) : i.val + 1 < PAGE_LIMIT := by
  by_contra hlt
  have hi : i = lastSlot := Fin.ext (by have := i.isLt; simp only [lastSlot]; omega)
  subst hi
  obtain ⟨-, hmem, -⟩ := covers_iff.mp (covers_of_findDesc hfind)
  rcases h with h | h
  · rw [h.2] at hguard
    cases hguard
  · exact Set.disjoint_left.mp h hx hmem

/-! ## Writing back -/

section Stop
variable (hE : ∀ e s, e.isOutside = false → Contained (s.proc p).mmaps → E e s)
include hE

/-- A property of the table of `p` that implies `Contained` and does not look at the pages is calm. -/
theorem calm_of_contained {C : Mmaps → Prop} (hC : ∀ m, C m → Contained m) :
    Calm p (fun s => C fun i => ((s.proc p).mmaps i).frame) E :=
  { calm_of_frame C with
    stop := fun e he s hs =>
      hE e s (by simp_all [Stop.plain]) (hC (fun i => ((s.proc p).mmaps i).frame) hs)
    exit := fun s hs => hE _ s rfl (hC (fun i => ((s.proc p).mmaps i).frame) hs) }

theorem contained_calm : Calm p (ContainedAt p) E :=
  calm_of_contained hE fun _ => id

theorem contained_fileBlind (q : Fin NPROC) : FileBlind q (ContainedAt p) E where
  count _ s hs := hE _ s rfl hs
  file _ _ _ _ hs := hs
  ofile s g hs := by
    by_cases hq : p = q
    · subst hq
      simpa using hs
    · simpa [hq] using hs
  cwd s c hs := by
    by_cases hq : p = q
    · subst hq
      simpa using hs
    · simpa [hq] using hs

theorem contained_allocatePageGuard {i : Index} (hi : i.val + 1 < PAGE_LIMIT) (a : Word) :
    Keeps (fun s => ContainedAt p s ∧ Shielded W (s.proc p).mmaps) E (allocatePageGuard p i a) := by
  have hI : Calm p (fun s => ContainedAt p s ∧ Shielded W (s.proc p).mmaps) E :=
    calm_of_contained hE (C := fun m => Contained m ∧ Shielded W m) fun _ => And.left
  -- the slot that it grows into stays free until then
  let C : Mmaps → Prop := fun m =>
    (Contained m ∧ Shielded W m) ∧ (m ⟨i.val + 1, hi⟩).valid = false
  have hJ : Calm p (fun s => C (s.proc p).mmaps) E := calm_of_contained hE (C := C) fun _ h => h.1.1
  have hne : (⟨i.val + 1, hi⟩ : Index) ≠ i := Fin.ne_of_gt (Nat.lt_succ_self i.val)
  unfold allocatePageGuard
  refine Triple.get fun t ht => ?_
  rw [dif_pos hi]
  refine .ite (fun _ => hI.kill.pre fun s hs => hs ▸ ht) fun hfree => ?_
  refine .update (R := fun s => C (s.proc p).mmaps) ?_ ?_
  · rintro _ rfl
    rw [updDesc_mmaps]
    refine ⟨⟨ht.1.update rfl (fun _ hv _ => ⟨hv, rfl⟩) rfl rfl, ht.2.update rfl fun _ hv _ => ⟨hv, rfl⟩⟩, ?_⟩
    rw [update_of_ne hne]
    simpa using hfree
  refine .bindOption (hJ.onRam _) (.throw (hJ.stop _ rfl)) fun mem => ?_
  refine .bind (hJ.onRam _) fun _ => .bind (hJ.onRam _) fun r => ?_
  refine .check (hJ.stop _ rfl) fun _ => ?_
  refine .update (R := fun s => C (s.proc p).mmaps) (fun s hs => ?_) ?_
  · rwa [updProc_self]
  refine .update (R := fun s => Contained (s.proc p).mmaps ∧ Shielded W (s.proc p).mmaps)
    (fun s hs => ?_) ?_
  · have hnew : ⟨i.val + 1, hi⟩ = lastSlot → ((s.proc p).mmaps ⟨i.val + 1, hi⟩).valid → False := by
      intro _ hv
      rw [hs.2] at hv
      cases hv
    rw [updDesc_mmaps]
    exact ⟨hs.1.1.update rfl (fun h hv => (hnew h hv).elim) rfl rfl,
      hs.1.2.update rfl fun h hv => (hnew h hv).elim⟩
  · exact .ite (fun _ => .pure fun s hs => hs) fun _ => hI.readFilePage i mem

theorem contained_trap {x : Word} (hx : x ∈ W) (user : Bool) :
    Keeps (fun s => ContainedAt p s ∧ Shielded W (s.proc p).mmaps) E (trap p user x) := by
  have hI : Calm p (fun s => ContainedAt p s ∧ Shielded W (s.proc p).mmaps) E :=
    calm_of_contained hE (C := fun m => Contained m ∧ Shielded W m) fun _ => And.left
  refine .bind ?_ fun _ => .get fun t _ => .check hI.exit fun _ => .pure _
  refine .get fun t ht => ?_
  cases hfind : findDesc (t.proc p).mmaps x with
  | none => exact hI.kill
  | some i =>
    refine .ite (fun hguard => ?_) fun _ => hI.allocatePageNonGuard i x
    exact contained_allocatePageGuard hE (ht.2.next_lt hx hfind hguard) x

theorem contained_closeDesc (i : Index) : Keeps (ContainedAt p) E (closeDesc p i) := by
  have hC : Calm p (ContainedAt p) E := contained_calm hE
  refine Triple.get fun t ht => ?_
  dsimp only
  cases hf : ((t.proc p).mmaps i).f with
  | none => exact .pure fun s hs => hs ▸ ht
  | some f =>
    refine .bind (R := fun _ s => Contained (s.proc p).mmaps) (.ite (fun _ => ?_) fun hpriv => ?_) fun _ => ?_
    · exact .pure fun s hs => hs ▸ ht
    · -- all of the page is shielded while it is written back
      let W := ((t.proc p).mmaps i).range
      have hI : Calm p (fun s => ContainedAt p s ∧ Shielded W (s.proc p).mmaps) E :=
        calm_of_contained hE (C := fun m => Contained m ∧ Shielded W m) fun _ => And.left
      have hstart := ht i (by simp [hf]) (by simpa using hpriv)
      have hwrite := hI.filewrite (p := p) le_rfl
        (fun x hx => hI.touch x (contained_trap hE (W := W) hx false)) f
      refine .bind (hwrite.pre fun s hs => hs ▸ ⟨ht, hstart.1⟩) fun _ => .pure fun s hs => hs.1
    · exact (contained_fileBlind hE p).fileclose hC.toPassive (fun _ _ _ _ _ => hC.onRam _) f

theorem contained_munmapFree (i : Index) : Keeps (ContainedAt p) E (munmapFree p i) := by
  refine (contained_calm hE).munmapFree (fun s hs => ?_) fun s hs => ?_ <;> rw [ContainedAt, updDesc_mmaps]
  · exact hs.update rfl (fun _ hv hg => ⟨hv, hg⟩) rfl rfl
  · exact hs.clear i

/-! ## Processes -/

omit hE in
/-- The table of `p` is not changed by what happens to another process, or to another part of `p`. -/
theorem contained_updProc {q : Fin NPROC} {g : Proc → Proc}
    (hg : q = p → (g (s.proc q)).mmaps = (s.proc q).mmaps) (hs : Contained (s.proc p).mmaps) :
    Contained ((s.updProc q g).proc p).mmaps := by
  by_cases hq : p = q
  · subst hq
    rwa [updProc_self, hg rfl]
  · rwa [updProc_of_ne _ hq]

theorem contained_copyMap (hne : np ≠ p) (i : Index) : Keeps (ContainedAt p) E (copyMap p np i) := by
  have hC : Calm p (ContainedAt p) E := contained_calm hE
  have hchild : ∀ g, Keeps (ContainedAt p) E
      (modify fun s => s.updProc np g : K Unit) := fun g =>
    .modify fun s hs => contained_updProc (fun h => absurd h hne) hs
  refine hC.copyMap (fun d => hchild _) ?_ fun q g hg => .modify fun s hs => ?_
  · refine .get fun t _ => .bind (hchild _) fun _ => ?_
    exact .bind ((contained_fileBlind hE p).filedupNull hC.toPassive _) fun _ => hchild _
  · by_cases hq : p = q
    · subst hq
      rw [ContainedAt, updDesc_mmaps, hg]
      exact hs.update rfl (fun _ hv hg => ⟨hv, hg⟩) rfl rfl
    · rwa [ContainedAt, updDesc_proc_of_ne _ _ hq]

theorem contained_fork :
    Triple (fun s => ContainedAt p s ∧ (s.proc p).state ≠ .unused) (fork p)
      (fun _ s => Contained (s.proc p).mmaps) E := by
  have hC : Calm p (ContainedAt p) E := contained_calm hE
  have hchild : ∀ np, np ≠ p → ∀ g, Keeps (ContainedAt p) E
      (modify fun s => s.updProc np g : K Unit) := fun np hne g =>
    .modify fun s hs => contained_updProc (fun h => absurd h hne) hs
  have halloc : Triple (fun s => ContainedAt p s ∧ (s.proc p).state ≠ .unused) allocproc
      (fun o s => Contained (s.proc p).mmaps ∧ ∀ np, o = some np → np ≠ p) E := by
    unfold allocproc
    refine .get fun t ht => ?_
    cases hfind : (List.finRange NPROC).find? fun q => (t.proc q).state == .unused with
    | none => exact .pure fun s hs => ⟨hs ▸ ht.1, by rintro np ⟨⟩⟩
    | some np =>
      have hne : np ≠ p := by
        rintro rfl
        exact ht.2 (by simpa using List.find?_some hfind)
      refine .update (R := ContainedAt p) ?_ ?_
      · rintro _ rfl
        exact contained_updProc (fun h => absurd h hne) ht.1
      refine .update (R := ContainedAt p) (fun s hs => hs) ?_
      refine .bindOption (hC.onRam _) (.bind (hchild np hne _) fun _ => .pure fun s hs => ⟨hs, by rintro np ⟨⟩⟩)
        fun v => ?_
      refine .bind (hchild np hne _) fun _ => .pure fun s hs => ⟨hs, ?_⟩
      rintro _ ⟨⟩
      exact hne
  refine .bindOption halloc (.pure fun s hs => hs.1) fun np => ?_
  refine .pre (.pre_and fun hne => ?_) fun s hs => ⟨hs.1, hs.2 np rfl⟩
  refine .read fun t _ => .bindOption (hC.onRam _)
    (.bind (hC.onRam _) fun _ => .bind (hchild np hne _) fun _ => .pure fun s hs => hs) fun d => ?_
  have hF := contained_fileBlind hE np
  have hfill : Keeps (ContainedAt p) E (forkFill p np d) := by
    refine .get fun t _ => .bind (hchild np hne _) fun _ => ?_
    exact .bind (.forM _ fun fd _ => hF.dupFd fd) fun _ => hF.dupCwd hC.toPassive
  refine .bind hfill fun _ => .bind (hchild np hne _) fun _ => ?_
  exact .bind (Keeps.forM _ fun i _ => contained_copyMap hE hne i) fun _ => .pure fun s hs => hs

theorem contained_wait : Keeps (ContainedAt p) E (wait p) :=
  (contained_calm hE).wait fun _ _ hg => .modify fun _ hs => contained_updProc (fun _ => (hg _).1) hs

theorem contained_exit : Keeps (ContainedAt p) E (exit p) := by
  have hC : Calm p (ContainedAt p) E := contained_calm hE
  refine (contained_fileBlind hE p).exit hC.toPassive (fun _ _ _ _ _ => hC.onRam _) (contained_closeDesc hE)
    (contained_munmapFree hE) (fun _ _ hs => hs) (.modify fun s hs => ?_)
    (.modify fun s hs => contained_updProc (fun _ => rfl) hs)
  dsimp only [ContainedAt]
  split <;> exact hs

end Stop

/-! ## `to_free` -/

/-- However far the loop over the range has come, `to_free` has not more than `PAGE_LIMIT` entries. -/
def ToFreeInside (mmaps : Mmaps) (addr length : Word) : Prop :=
  ∀ m, (∀ k < m, (addr + PGSIZE * .ofNat 32 k).slt (length + addr)) →
    (toFree mmaps (pagesFrom addr m)).length ≤ PAGE_LIMIT

theorem pagesFrom_add (a : Word) (m n : Nat) :
    pagesFrom a (m + n) = pagesFrom a m ++ pagesFrom (a + PGSIZE * .ofNat 32 m) n := by
  rw [pagesFrom, List.range_add, List.map_append, List.map_map]
  refine congrArg (pagesFrom a m ++ ·) (List.map_congr_left fun k _ => ?_)
  rw [Function.comp_apply, BitVec.ofNat_add, mul_add, add_assoc]

theorem toFree_append (mmaps : Mmaps) (l l' : List Word) :
    toFree mmaps (l ++ l') = toFree mmaps l ++ toFree mmaps l' := List.flatMap_append

variable {addr length : Word}

theorem toFreeInside_of_ends {l : List Word} (h : LoopEnds (length + addr) addr l) :
    ToFreeInside mmaps addr length := by
  intro m hm
  obtain ⟨n, rfl, -, hstop⟩ := loopEnds_iff.mp h
  have hmn : m ≤ n := by
    by_contra hlt
    exact hstop (hm n (by omega))
  have hnodup : (toFree mmaps (pagesFrom addr n)).Nodup := nodup_toFree mmaps h.pagesBelow
  rw [← Nat.add_sub_of_le hmn, pagesFrom_add, toFree_append] at hnodup
  simpa using hnodup.of_append_left.length_le_card

theorem length_toFree_rounds (mmaps : Mmaps) (a : Word) (r : Nat) :
    (toFree mmaps (pagesFrom a (2 ^ 20 * r))).length = r * (toFree mmaps (pagesFrom a (2 ^ 20))).length := by
  have hround : a + PGSIZE * .ofNat 32 (2 ^ 20) = a := by
    have hzero : PGSIZE * .ofNat 32 (2 ^ 20) = 0 := by decide
    rw [hzero, add_zero]
  induction r with
  | zero => simp [pagesFrom, toFree]
  | succ r ih =>
    rw [Nat.mul_succ, Nat.add_comm, pagesFrom_add, toFree_append, List.length_append, hround, ih]
    ring

variable {a : Word}

theorem covers_round {k : Nat}
    (h : (mmaps i).covers (a + PGSIZE * .ofNat 32 k)) : i ∈ toFree mmaps (pagesFrom a (2 ^ 20)) := by
  unfold toFree
  refine List.mem_flatMap.mpr ⟨a + PGSIZE * .ofNat 32 k, ?_, ?_⟩
  · refine List.mem_map.mpr ⟨k % 2 ^ 20, List.mem_range.mpr (Nat.mod_lt _ (by decide)), ?_⟩
    apply BitVec.eq_of_toNat_eq
    rw [toNat_add_page, toNat_add_page]
    omega
  · exact List.mem_filter.mpr ⟨List.mem_finRange i, h⟩

theorem toFreeInside_iff (haddr : Aligned addr) :
    ToFreeInside mmaps addr length ↔ (length + addr).toInt ≤ addr.toInt ∨ (length + addr).toInt ≤ 0x7FFFF000 ∨
        ∀ i k, ¬ (mmaps i).covers (addr + PGSIZE * .ofNat 32 k) := by
  rw [← or_assoc]
  by_cases hends : (length + addr).toInt ≤ addr.toInt ∨ (length + addr).toInt ≤ 0x7FFFF000
  · exact iff_of_true (toFreeInside_of_ends ((loopEnds_pagesFrom haddr).mpr ⟨hends, rfl⟩)) (.inl hends)
  rw [or_iff_right hends]
  -- the loop has no end
  have hbelow : ∀ k, (addr + PGSIZE * .ofNat 32 k).slt (length + addr) := by
    by_contra hstop
    push Not at hstop
    refine hends ((loopEnds_pagesFrom (n := Nat.find hstop) haddr).mp (loopEnds_iff.mpr ?_)).1
    exact ⟨_, rfl, fun k hk => not_not.mp (Nat.find_min hstop hk), Nat.find_spec hstop⟩
  constructor
  · intro h i k hcover
    have hlen := h (2 ^ 20 * 33) fun k _ => hbelow k
    rw [length_toFree_rounds] at hlen
    have hpos := List.length_pos_of_mem (covers_round hcover)
    have hlimit : PAGE_LIMIT = 32 := rfl
    omega
  · intro h m _
    have hnil : toFree mmaps (pagesFrom addr m) = [] := by
      refine List.flatMap_eq_nil_iff.mpr fun a ha => List.filter_eq_nil_iff.mpr fun i _ => ?_
      obtain ⟨k, -, rfl⟩ := List.mem_map.mp ha
      exact h i k
    rw [hnil]
    exact Nat.zero_le _

/-! ## Operations -/

/-- The operation uses only indices of the table: it does not look behind its end, `mmap` fills slots in it,
and `munmap` does not fill `to_free` beyond its size. -/
def InTable (s : State) (op : Op) : Prop :=
  (∀ k t, op.outcome s ≠ .error (.outside k) t) ∧
  match op with
  | .mmap p (some a) => ∀ n i, pageCount a = some n →
      findRun (s.proc p).mmaps n (List.finRange PAGE_LIMIT) 0 = some i → i + n ≤ PAGE_LIMIT
  | .munmap p (some (addr, length)) => Aligned addr → ToFreeInside (s.proc p).mmaps addr length
  | _ => True

/-- What the code does not check. A fault is not in a guard page in the last slot. The loop of a `munmap`
ends or meets no mapping. And the process has no page in such a guard page that the operation can write
back. -/
def TableGuard (s : State) : Op → Prop
  | .mmap p _ => (s.proc p).killed → Contained (s.proc p).mmaps
  | .munmap p args => Contained (s.proc p).mmaps ∧ ∀ addr length, args = some (addr, length) → Aligned addr →
        (length + addr).toInt ≤ addr.toInt ∨ (length + addr).toInt ≤ 0x7FFFF000 ∨
          ∀ i k, ¬ ((s.proc p).mmaps i).covers (addr + PGSIZE * .ofNat 32 k)
  | .fault p addr _ => Contained (s.proc p).mmaps ∧
      ∀ i, findDesc (s.proc p).mmaps addr = some i → ((s.proc p).mmaps i).guardPage → i.val + 1 < PAGE_LIMIT
  | .store _ _ _ => True
  | op => Contained (s.proc op.proc).mmaps

/-- How an operation stops that stays in the table; `exit` goes on from there. -/
def InsideStop (p : Fin NPROC) (e : Stop) (s : State) : Prop :=
  e.isOutside = false ∧ (e = .exit → Contained (s.proc p).mmaps)

theorem sysMmap_killed (p : Fin NPROC) (args : Option MmapArgs) (s : State) :
    Triple (fun t => t = s) (sysMmap p args) (fun _ t => (t.proc p).killed = (s.proc p).killed)
      (fun e _ => e.isOutside = false ∧ e ≠ .exit) := by
  refine ⟨fun t ht => ?_⟩
  rw [ht]
  have hout := mmapOutcome p args s
  generalize sysMmap p args s = r at hout ⊢
  cases hout with
  | refused h => rfl
  | endless h => exact ⟨rfl, by rintro ⟨⟩⟩
  | badFile h hanon hfd => simp [State.updDesc, Proc.updDesc]
  | deadFile h hanon hfd hdead => exact ⟨rfl, by rintro ⟨⟩⟩
  | mapped h hfo hlive hu =>
    show ((State.bump _ _ _).proc p).killed = _
    rw [bump_proc, hu.rest]
    simp

theorem insideStop_mmap {args : Option MmapArgs} (hg : (s.proc p).killed → Contained (s.proc p).mmaps) :
    Triple (fun t => t = s) (Op.syscall p (sysMmap p args)) ⊤ (InsideStop p) := by
  refine .get fun t ht => ?_
  subst ht
  refine .ite (fun hk => .throw ?_) fun hk => ?_
  · rintro _ rfl
    exact ⟨rfl, fun _ => hg hk⟩
  · refine .bind ((sysMmap_killed p args t).conseq (fun _ h => h) (fun _ _ h => h) ?_) fun _ => ?_
    · rintro e u ⟨h, hne⟩
      exact ⟨h, fun he => absurd he hne⟩
    · refine .get fun u hu => .ite (fun hku => ?_) fun _ => .pure fun _ _ => trivial
      rw [hu] at hku
      exact absurd hku hk

theorem insideStop_fault (hs : Contained (s.proc p).mmaps)
    (hlast : ∀ i, findDesc (s.proc p).mmaps a = some i → ((s.proc p).mmaps i).guardPage →
      i.val + 1 < PAGE_LIMIT) :
    Triple (fun t => t = s) (trap p true a) (fun _ t => Contained (t.proc p).mmaps) (InsideStop p) := by
  have hE : ∀ e s, e.isOutside = false → Contained (s.proc p).mmaps → InsideStop p e s :=
    fun e s he hs => ⟨he, fun _ => hs⟩
  have hC := contained_calm hE
  refine .bind (R := fun _ t => Contained (t.proc p).mmaps) (.get fun t ht => ?_) fun _ =>
    .read fun t _ => .check hC.exit fun _ => .pure fun s hs => hs
  subst ht
  cases hfind : findDesc (t.proc p).mmaps a with
  | none => exact hC.kill.pre fun u hu => hu ▸ hs
  | some i =>
    refine .ite (fun hguard => ?_) fun _ => (hC.allocatePageNonGuard i a).pre fun u hu => hu ▸ hs
    have hgrow := contained_allocatePageGuard hE (W := ∅) (hlast i hfind hguard) a
    exact hgrow.conseq (fun u hu => hu ▸ ⟨hs, .inr (Set.empty_disjoint _)⟩) (fun _ _ h => h.1) fun _ _ => id

variable {op : Op}

theorem inside_body (hen : op.enabled s) (hg : TableGuard s op) :
    Triple (fun t => t = s) op.body ⊤ (InsideStop op.proc) := by
  have hE : ∀ e s, e.isOutside = false → Contained (s.proc op.proc).mmaps → InsideStop op.proc e s :=
    fun e s he hs => ⟨he, fun _ => hs⟩
  have hC := contained_calm hE
  have hF := contained_fileBlind hE op.proc
  have hpipe : ∀ (s : State) (f : Fin NFILE) (pg : Word), Contained (s.proc op.proc).mmaps →
      (s.fs.file f).type = .pipe → Keeps (fun s => Contained (s.proc op.proc).mmaps)
        (InsideStop op.proc) (onRam (kfree pg)) := fun _ _ _ _ _ => hC.onRam _
  have hcall : ∀ {α : Type} {m : K α}, Contained (s.proc op.proc).mmaps →
      Triple (fun t => t = s) m (fun _ t => Contained (t.proc op.proc).mmaps) (InsideStop op.proc) →
      Triple (fun t => t = s) (Op.syscall op.proc m) ⊤ (InsideStop op.proc) := fun hs hm =>
    (syscall_triple hm (fun t ht => ht ▸ hC.exit _ hs) fun t ht => hC.exit _ ht).post fun _ _ _ => trivial
  have hkeep : ∀ {α : Type} {m : K α}, Contained (s.proc op.proc).mmaps →
      Keeps (fun t => Contained (t.proc op.proc).mmaps) (InsideStop op.proc) m →
      Triple (fun t => t = s) (Op.syscall op.proc m) ⊤ (InsideStop op.proc) := fun hs hm =>
    hcall hs (hm.pre fun t ht => ht ▸ hs)
  cases op with
  | mmap p args => exact insideStop_mmap hg
  | munmap p args =>
    exact hkeep hg.1 ((contained_calm hE).sysMunmap (contained_closeDesc hE) (contained_munmapFree hE) args)
  | fault p addr write => exact (insideStop_fault hg.1 hg.2).post fun _ _ _ => trivial
  | store p addr b =>
    refine .get fun t _ => ⟨fun u _ => ?_⟩
    exact trivial
  | fork p =>
    have hstate : (s.proc p).state ≠ .unused := by
      intro h
      simp [Op.enabled, Op.proc, h] at hen
    exact hcall hg ((contained_fork hE).pre fun t ht => ht ▸ ⟨hg, hstate⟩)
  | exit p => exact hkeep hg (.throw hC.exit)
  | wait p => exact hkeep hg (contained_wait hE)
  | «open» p path omode => exact hkeep hg (hF.sysOpen hC.toPassive hpipe path omode)
  | dup p fd => exact hkeep hg (hF.sysDup fd)
  | close p fd => exact hkeep hg (hF.sysClose hC.toPassive hpipe fd)
  | pipe p =>
    refine hkeep hg (hF.sysPipe (fun f => hF.fileclose hC.toPassive hpipe f) (hC.onRam _) ?_)
    exact fun _ _ hs => hs

/-- An operation that meets `TableGuard` uses only indices of the table, in every state. -/
theorem inTable_of_guard (hen : op.enabled s) (hg : TableGuard s op) : InTable s op := by
  have hexit : Triple (InsideStop op.proc .exit) (exit op.proc) (fun _ _ => True)
      (fun e _ => e.isOutside = false) := by
    refine (contained_exit (p := op.proc) (E := fun e _ => e.isOutside = false) fun _ _ h _ => h).conseq ?_ ?_ ?_
    · exact fun _ h => h.2 rfl
    · exact fun _ _ _ => trivial
    · exact fun _ _ h => h
  have hout := outcome_triple (inside_body hen hg) hexit fun _ _ h => h.1
  refine ⟨fun k t hrun => ?_, ?_⟩
  · have := hout.run s rfl
    rw [hrun] at this
    cases this
  · cases op with
    | mmap p args =>
      cases args with
      | none => trivial
      | some a => exact fun n i _ hrun => (isLeast_findRun hrun).2.1.1
    | munmap p args =>
      cases args with
      | none => trivial
      | some a => exact fun haddr => (toFreeInside_iff haddr).mpr (hg.2 a.1 a.2 rfl haddr)
    | _ => trivial

/-- A touch of a guard page that is not in the last slot, and a `munmap` of the page below it. -/
theorem inTable_of_guard_boot : ∃ t, Run exec (fun _ _ => True) boot t ∧ ((t.proc 1).mmaps 1).guardPage ∧
    InTable t (.fault 1 0x60001000 true) ∧ InTable t (.munmap 1 (some (VIRT_ADDR_START, 4096))) := by
  have hx : (Run.execAll exec boot [.mmap 1 (some
      ⟨0, 4096, PTE_W, MAP_PRIVATE ||| MAP_ANON ||| MAP_GROWSUP, 0, 0⟩)]).any (fun t =>
      ((t.proc 1).mmaps 1).guardPage && findDesc (t.proc 1).mmaps 0x60001000 == some 1 &&
      decide (∀ i, ((t.proc 1).mmaps i).f = none) && (Op.fault 1 0x60001000 true).enabled t &&
      (Op.munmap 1 none).enabled t) = true := by decide +kernel
  obtain ⟨t, hrun, ht⟩ := Run.exists_run hx
  simp only [Bool.and_eq_true, beq_iff_eq, decide_eq_true_eq] at ht
  obtain ⟨⟨⟨⟨hguard, hfind⟩, hnone⟩, hen⟩, hen'⟩ := ht
  have hc : Contained (t.proc 1).mmaps := fun i hf => absurd (hnone i) hf
  refine ⟨t, hrun, hguard, inTable_of_guard hen ⟨hc, fun i hi _ => ?_⟩, inTable_of_guard hen' ⟨hc, ?_⟩⟩
  · obtain rfl := Option.some.inj (hfind.symm.trans hi)
    decide
  · rintro addr length ⟨⟩ -
    exact .inr (.inl (by decide))

/-- A request for 31 pages and a guard page. -/
def bootFullTable : Op :=
  .mmap 1 (some ⟨0, 0x1F000, PTE_W, MAP_PRIVATE ||| MAP_ANON ||| MAP_GROWSUP, 0, 0⟩)

/-- The guard page of a mapping that takes the whole table is in the last slot, and a touch of it looks at
`mmaps[32]`. A `munmap` that starts at a mapping and never ends fills `to_free` beyond its end. -/
theorem table_left :
    (∃ t u, Run exec (fun _ _ => True) boot t ∧
      (Op.fault 1 0x6001F000 true).outcome t = .error (.outside 32) u) ∧
    Run exec (fun _ _ => True) boot bootMapped ∧
      ¬ ToFreeInside (bootMapped.proc 1).mmaps VIRT_ADDR_START 0x1FFFF001 := by
  have hx : (Run.execAll exec boot [bootFullTable]).any (fun t =>
      stopsWith ((Op.fault 1 0x6001F000 true).outcome t) fun e _ => e == .outside 32) = true := by
    decide +kernel
  refine ⟨?_, .tail .refl trivial exec_bootAnon, ?_⟩
  · obtain ⟨t, hrun, ht⟩ := Run.exists_run hx
    obtain ⟨e, u, hout, he⟩ := exists_of_stopsWith ht
    rw [beq_iff_eq] at he
    exact ⟨t, u, hrun, he ▸ hout⟩
  · rw [toFreeInside_iff (by decide)]
    rintro (h | h | h)
    · exact absurd h (by decide)
    · exact absurd h (by decide)
    · exact h 0 0 (by decide)

end Xv6
