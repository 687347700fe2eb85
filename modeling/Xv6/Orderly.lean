import Xv6.FirstFit
import Xv6.Frame

/-!
# Properties of the tables of mappings

Most of the kernel makes no mapping valid and moves none. A property `C` of a table that survives this is
`Hereditary`. `fork` copies the descriptors of the parent, which is harmless. What `mmap` puts into the
table and what a guard page grows into has to be looked at for each `C`: `OrderlyGuard` asks for it, and
`Orderly.step` says that nothing else is needed.

There are no pipes in an `Orderly` state: `exit` writes mappings back while it holds `ptable.lock`, and only
a write to a pipe could come back from that.
-/

namespace Xv6

open Function (update update_self update_of_ne)
open Hoare

variable {p np : Fin NPROC} {s t : State} {E : Stop → State → Prop}

/-! ## Tables -/

/-- The valid descriptors of the second table are valid in the first, at the same address. -/
def Within (mmaps mmaps' : Mmaps) : Prop :=
  ∀ i, (mmaps' i).valid → (mmaps i).valid ∧ (mmaps' i).virtualAddress = (mmaps i).virtualAddress

theorem Within.refl (mmaps : Mmaps) : Within mmaps mmaps :=
  fun _ h => ⟨h, rfl⟩

variable {mmaps : Mmaps} {i : Index} {md : MmapDesc}

theorem within_update (h : md.valid → (mmaps i).valid ∧ md.virtualAddress = (mmaps i).virtualAddress) :
    Within mmaps (update mmaps i md) := by
  intro j hj
  by_cases hji : j = i
  · subst hji
    simpa using h (by simpa using hj)
  · simpa [hji] using hj

/-- The two tables have the same valid addresses, slot by slot. -/
def SameRanges (mmaps mmaps' : Mmaps) : Prop :=
  ∀ k, (mmaps' k).valid = (mmaps k).valid ∧ (mmaps' k).virtualAddress = (mmaps k).virtualAddress

theorem SameRanges.refl (mmaps : Mmaps) : SameRanges mmaps mmaps :=
  fun _ => ⟨rfl, rfl⟩

variable {mmaps' : Mmaps}

theorem SameRanges.within (h : SameRanges mmaps mmaps') : Within mmaps mmaps' :=
  fun i hi => ⟨(h i).1 ▸ hi, (h i).2⟩

theorem SameRanges.update (h : SameRanges mmaps mmaps')
    (hmd : md.valid = (mmaps' i).valid ∧ md.virtualAddress = (mmaps' i).virtualAddress) :
    SameRanges mmaps (update mmaps' i md) := by
  intro k
  by_cases hk : k = i
  · subst hk
    simp only [update_self, hmd]
    exact h k
  · simpa [hk] using h k

/-- The property of a table passes to every table with fewer mappings. -/
def Hereditary (C : Mmaps → Prop) : Prop :=
  ∀ mmaps mmaps', C mmaps → Within mmaps mmaps' → C mmaps'

variable {C : Mmaps → Prop}

/-- The table of every process has the property; and there are no pipes. -/
structure Orderly (C : Mmaps → Prop) (s : State) : Prop where
  tables : ∀ q, C (s.proc q).mmaps
  noPipe : ∀ f, (s.fs.file f).type ≠ .pipe

/-- What has to hold when an operation stops: an `exit` on the way goes on from there. -/
def OrderlyStop (C : Mmaps → Prop) (x : Stop) (s : State) : Prop :=
  x = .exit → Orderly C s

theorem orderlyStop (x : Stop) (s : State) (hs : Orderly C s) : OrderlyStop C x s := fun _ => hs

theorem noPipe_updFile {f : Fin NFILE} {g : File → File}
    (hg : (g (s.fs.file f)).type = .pipe → (s.fs.file f).type = .pipe) (f' : Fin NFILE)
    (h : ((s.updFile f g).fs.file f').type = .pipe) : (s.fs.file f').type = .pipe := by
  by_cases hf : f' = f
  · subst hf
    exact hg (by simpa using h)
  · simpa [hf] using h

theorem orderly_noPipe (s : State) (f : Fin NFILE) (pg : Word) (hs : Orderly C s)
    (hf : (s.fs.file f).type = .pipe) : Keeps (Orderly C) E (onRam (kfree pg)) :=
  absurd hf (hs.noPipe f)

section Hereditary
variable (hC : Hereditary C)
include hC

theorem Orderly.within (hs : Orderly C s) (hproc : ∀ q, Within (s.proc q).mmaps (t.proc q).mmaps)
    (hfile : ∀ f, (t.fs.file f).type = .pipe → (s.fs.file f).type = .pipe) : Orderly C t where
  tables q := hC _ _ (hs.tables q) (hproc q)
  noPipe f h := hs.noPipe f (hfile f h)

variable {g : Proc → Proc}

theorem Orderly.updProc (hs : Orderly C s) (q : Fin NPROC)
    (hg : Within (s.proc q).mmaps (g (s.proc q)).mmaps) : Orderly C (s.updProc q g) := by
  refine hs.within hC (fun q' => ?_) fun _ => id
  by_cases hq : q' = q
  · subst hq
    simpa using hg
  · simpa [hq] using Within.refl _

variable {i : Index}

theorem Orderly.updDesc (hs : Orderly C s) (q : Fin NPROC)
    {g : MmapDesc → MmapDesc} (hg : (g ((s.proc q).mmaps i)).valid → ((s.proc q).mmaps i).valid ∧
      (g ((s.proc q).mmaps i)).virtualAddress = ((s.proc q).mmaps i).virtualAddress) :
    Orderly C (s.updDesc q i g) :=
  hs.updProc hC q (within_update hg)

theorem orderly_calm (hstop : ∀ e s, Orderly C s → E e s) : Calm p (Orderly C) E where
  stop e _ := hstop e
  exit := hstop _
  mem _ _ hs := ⟨hs.tables, hs.noPipe⟩
  nullPage _ hs := ⟨hs.tables, hs.noPipe⟩
  off _ _ _ hs := hs.within hC (fun _ => Within.refl _) (noPipe_updFile id)
  inode _ _ hs := ⟨hs.tables, hs.noPipe⟩
  pipe _ _ hs := ⟨hs.tables, hs.noPipe⟩
  ilocks _ _ hs := ⟨hs.tables, hs.noPipe⟩
  ram _ _ hs := ⟨hs.tables, hs.noPipe⟩
  pgdir _ _ _ hs := hs.updProc hC p (Within.refl _)
  killed _ hs := hs.updProc hC p (Within.refl _)
  page _ _ _ hs := hs.updDesc hC p fun h => ⟨h, rfl⟩

theorem orderly_fileBlind (hstop : ∀ e s, Orderly C s → E e s) : FileBlind p (Orderly C) E where
  count _ := hstop _
  file _ _ _ hg hs := hs.within hC (fun _ => Within.refl _) (noPipe_updFile hg)
  ofile _ _ hs := hs.updProc hC p (Within.refl _)
  cwd _ _ hs := hs.updProc hC p (Within.refl _)

/-! ## Faults -/

/-- The slot that a guard page grows into may become valid at the address that is left in it. -/
def GrowsTo (C : Mmaps → Prop) (mmaps : Mmaps)
    (i : Index) : Prop :=
  ∀ j : Index, j.val = i.val + 1 → (mmaps j).valid = false →
    C (update mmaps j { mmaps j with valid := true })

variable {a : Word}

theorem orderly_allocatePageGuard (ht : Orderly C t) (hgrow : GrowsTo C (t.proc p).mmaps i) :
    Triple (fun s => s = t) (allocatePageGuard p i a) (fun _ => Orderly C) (OrderlyStop C) := by
  have hA : Calm p (Orderly C) (OrderlyStop C) := orderly_calm hC orderlyStop
  let J : State → Prop := fun s => Orderly C s ∧ SameRanges (t.proc p).mmaps (s.proc p).mmaps
  have hI : Calm p J (OrderlyStop C) := hA.and (calm_of_frame (SameRanges (t.proc p).mmaps))
  unfold allocatePageGuard
  refine .get fun s hs => ?_
  obtain rfl := hs
  split
  next h =>
    refine .ite (fun _ => .modify fun u hu => hu ▸ hA.killed _ ht) fun hvalid => ?_
    refine .update (R := J) ?_ <| .bind (hI.onRam _) fun o => ?_
    · rintro _ rfl
      refine ⟨ht.updDesc hC p fun h => ⟨h, rfl⟩, ?_⟩
      rw [updDesc_mmaps]
      exact (SameRanges.refl _).update ⟨rfl, rfl⟩
    cases o with
    | none => exact .throw (hI.stop _ rfl)
    | some mem =>
      refine .bind (hI.onRam _) fun _ => .bind (hI.onRam _) fun r => ?_
      refine .check (hI.stop _ rfl) fun _ => .update (R := J) ?_ ?_
      · intro u hu
        exact ⟨hu.1.updProc hC p (Within.refl _), by simpa using hu.2⟩
      refine .update (R := Orderly C) (fun u hu => ⟨fun q => ?_, hu.1.noPipe⟩) ?_
      · by_cases hq : q = p
        · -- the neighbour becomes valid, at the address that is left in it
          subst hq
          refine hC _ _ (hgrow ⟨i.val + 1, h⟩ rfl (by simpa using hvalid)) ?_
          rw [updDesc_mmaps]
          intro k hk
          by_cases hkj : k = ⟨i.val + 1, h⟩
          · subst hkj
            simpa using (hu.2 _).2
          · rw [update_of_ne hkj] at hk ⊢
            rw [update_of_ne hkj]
            exact hu.2.within k hk
        · rw [updDesc_proc_of_ne _ _ hq]
          exact hu.1.tables q
      · exact .ite (fun _ => .pure fun u hu => hu) fun _ => hA.readFilePage i mem
  next => exact .throw fun u hu => hu ▸ orderlyStop _ _ ht

theorem orderly_trap (ht : Orderly C t) (user : Bool)
    (hgrow : ∀ i, findDesc (t.proc p).mmaps a = some i → ((t.proc p).mmaps i).guardPage →
      GrowsTo C (t.proc p).mmaps i) :
    Triple (fun s => s = t) (trap p user a) (fun _ => Orderly C) (OrderlyStop C) := by
  have hA : Calm p (Orderly C) (OrderlyStop C) := orderly_calm hC orderlyStop
  refine .bind (R := fun _ => Orderly C) ?_ fun _ => .read fun t _ =>
    .check hA.exit fun _ => .pure fun s hs => hs
  refine .get fun s hs => ?_
  obtain rfl := hs
  cases hfind : findDesc (s.proc p).mmaps a with
  | none => exact hA.kill.pre fun u hu => hu ▸ ht
  | some i =>
    refine .ite (fun hguard => ?_) fun _ => (hA.allocatePageNonGuard i a).pre fun u hu => hu ▸ ht
    exact orderly_allocatePageGuard hC ht (hgrow i hfind hguard)

/-! ## `munmap` -/

theorem orderly_munmapFree (hstop : ∀ e s, Orderly C s → E e s) (i : Index) :
    Keeps (Orderly C) E (munmapFree p i) :=
  (orderly_calm hC hstop).munmapFree (fun _ hs => hs.updDesc hC p fun h => ⟨h, rfl⟩)
    fun _ hs => hs.updDesc hC p (by rintro ⟨⟩)

/-- Where a page is written back, the first descriptor that covers the address is not a guard page. -/
def NoGrowBack (mmaps : Mmaps) (l : List Index) : Prop :=
  ∀ i ∈ l, (mmaps i).f ≠ none → hasFlag (mmaps i).flags MAP_PRIVATE = false →
    ∀ x ∈ (mmaps i).range, ∀ k, findDesc mmaps x = some k → (mmaps k).guardPage = false

theorem orderly_sysMunmap (ht : Orderly C t) {addr length : Word}
    (hback : ∀ visits, pagesBelow (length + addr) (2 ^ 20 + 1) addr = some visits →
      NoGrowBack (t.proc p).mmaps (toFree (t.proc p).mmaps visits)) :
    Triple (fun s => s = t) (sysMunmap p (some (addr, length))) (fun _ => Orderly C) (OrderlyStop C) := by
  have hA : Calm p (Orderly C) (OrderlyStop C) := orderly_calm hC orderlyStop
  unfold sysMunmap
  refine .ite (fun _ => .pure fun s hs => hs ▸ ht) fun _ => ?_
  cases hvisits : pagesBelow (length + addr) (2 ^ 20 + 1) addr with
  | none => exact .throw fun s hs => hs ▸ hA.stop _ rfl _ ht
  | some visits =>
    refine .get fun s hs => ?_
    obtain rfl := hs
    -- while pages are written back, the descriptors say what they said
    let J : State → Prop := fun u => Orderly C u ∧
      (fun i => ((u.proc p).mmaps i).frame) = fun i => ((s.proc p).mmaps i).frame
    have hJ : Calm p J (OrderlyStop C) := hA.and (calm_of_frame (· = fun i => ((s.proc p).mmaps i).frame))
    have hF : FileBlind p J (OrderlyStop C) := (orderly_fileBlind hC orderlyStop).and
      (F := fun _ _ => True) ⟨fun _ _ _ => trivial, fun _ _ _ _ h => h, fun u g h => by simpa using h,
        fun u c h => by simpa using h⟩
    refine .bind (R := fun _ => J) ((hJ.resetFirst _).pre ?_) fun _ => ?_
    · rintro _ rfl
      exact ⟨ht, rfl⟩
    refine .bind (R := fun _ => J) (Keeps.forM _ fun i hi => ?_) fun _ => ?_
    · refine hF.closeDesc hJ.toPassive (fun u f pg hu hf => absurd hf (hu.1.noPipe f)) i ?_
      intro u hu hf hpriv x hx
      refine hJ.touch x (hJ.trap false x fun v k hv hfind => ?_)
      have hu' : ((u.proc p).mmaps i).frame = ((s.proc p).mmaps i).frame := congrFun hu.2 i
      rw [frame_guardPage (congrFun hv.2 k)]
      refine hback visits hvisits i hi (frame_f hu' ▸ hf) (frame_flags hu' ▸ hpriv) x ?_ k ?_
      · rwa [MmapDesc.range, ← frame_virtualAddress hu']
      · rw [findDesc_frame, ← hv.2, ← findDesc_frame]
        exact hfind
    · refine .bind (R := fun _ => Orderly C) (.pre (Keeps.forM _ fun i _ => ?_) fun u hu => hu.1)
        fun _ => .pure fun u hu => hu
      exact orderly_munmapFree hC orderlyStop i

omit hC in
theorem orderly_sysMmap (ht : Orderly C t) (args : Option MmapArgs)
    (hreq : ∀ a n i, args = some a → Accepted t p a n i →
      (hasFlag a.flags MAP_ANON ∨ (argfd (t.proc p) a.fd).isSome) ∧
      ∀ u, FirstFit p a t u (a.start t) n i → C (u.proc p).mmaps) :
    Triple (fun s => s = t) (sysMmap p args) (fun _ => Orderly C) (OrderlyStop C) := by
  refine ⟨fun s hs => ?_⟩
  rw [hs]
  have hout := mmapOutcome p args t
  generalize sysMmap p args t = r at hout ⊢
  cases hout with
  | refused h => exact ht
  | endless h => rintro ⟨⟩
  | badFile h hanon hfd =>
    -- the slot would become valid with its old address
    have := (hreq _ _ _ rfl h).1
    simp [hanon, hfd] at this
  | deadFile h hanon hfd hdead => rintro ⟨⟩
  | @mapped a n i fo u h hfo hlive hu =>
    have hfit := hu.firstFit h hfo
    refine ⟨fun q => ?_, fun f => ?_⟩
    · by_cases hq : q = p
      · subst hq
        exact (hreq a n i rfl h).2 _ hfit
      · rw [hfit.procs q hq]
        exact ht.tables q
    · obtain ⟨fo, -, -, hfile⟩ := hfit.file
      rw [hfile f]
      split <;> exact ht.noPipe f

/-! ## Processes -/

omit hC in
/-- While a child is made: the other processes are in order, and the child has no mapping that its parent
does not have at the same place. -/
structure Inherits (C : Mmaps → Prop) (p np : Fin NPROC) (s : State) : Prop where
  tables : ∀ q, q ≠ np → C (s.proc q).mmaps
  noPipe : ∀ f, (s.fs.file f).type ≠ .pipe
  child : Within (s.proc p).mmaps (s.proc np).mmaps

section
variable (hs : Inherits C p np s)
include hs

theorem Inherits.orderly (hne : np ≠ p) : Orderly C s where
  tables q := by
    by_cases hq : q = np
    · subst hq
      exact hC _ _ (hs.tables p hne.symm) hs.child
    · exact hs.tables q hq
  noPipe := hs.noPipe

theorem Inherits.same (hproc : ∀ q, SameRanges (s.proc q).mmaps (t.proc q).mmaps)
    (hfile : ∀ f, (t.fs.file f).type = .pipe → (s.fs.file f).type = .pipe) : Inherits C p np t where
  tables q hq := hC _ _ (hs.tables q hq) (hproc q).within
  noPipe f h := hs.noPipe f (hfile f h)
  child i hi := by
    obtain ⟨hv, ha⟩ := hs.child i ((hproc np i).1 ▸ hi)
    exact ⟨(hproc p i).1 ▸ hv, ((hproc np i).2.trans ha).trans (hproc p i).2.symm⟩

theorem Inherits.updProc (q : Fin NPROC)
    (hg : SameRanges (s.proc q).mmaps (g (s.proc q)).mmaps) : Inherits C p np (s.updProc q g) := by
  refine hs.same hC (fun q' => ?_) fun _ => id
  by_cases hq : q' = q
  · subst hq
    simpa using hg
  · simpa [hq] using SameRanges.refl _

theorem Inherits.updDesc (q : Fin NPROC)
    {g : MmapDesc → MmapDesc} (hg : (g ((s.proc q).mmaps i)).valid = ((s.proc q).mmaps i).valid ∧
      (g ((s.proc q).mmaps i)).virtualAddress = ((s.proc q).mmaps i).virtualAddress) :
    Inherits C p np (s.updDesc q i g) :=
  hs.updProc hC q ((SameRanges.refl _).update hg)

end

theorem inherits_calm (hne : np ≠ p) : Calm p (Inherits C p np) (OrderlyStop C) where
  stop _ _ _ hs := fun _ => hs.orderly hC hne
  exit _ hs := fun _ => hs.orderly hC hne
  mem _ _ hs := ⟨hs.tables, hs.noPipe, hs.child⟩
  nullPage _ hs := ⟨hs.tables, hs.noPipe, hs.child⟩
  off _ _ _ hs := hs.same hC (fun _ => SameRanges.refl _) (noPipe_updFile id)
  inode _ _ hs := ⟨hs.tables, hs.noPipe, hs.child⟩
  pipe _ _ hs := ⟨hs.tables, hs.noPipe, hs.child⟩
  ilocks _ _ hs := ⟨hs.tables, hs.noPipe, hs.child⟩
  ram _ _ hs := ⟨hs.tables, hs.noPipe, hs.child⟩
  pgdir _ _ _ hs := hs.updProc hC p (SameRanges.refl _)
  killed _ hs := hs.updProc hC p (SameRanges.refl _)
  page _ _ _ hs := hs.updDesc hC p ⟨rfl, rfl⟩

theorem inherits_fileBlind (hne : np ≠ p) : FileBlind np (Inherits C p np) (OrderlyStop C) where
  count _ _ hs _ := hs.orderly hC hne
  file _ _ _ hg hs := hs.same hC (fun _ => SameRanges.refl _) (noPipe_updFile hg)
  ofile _ _ hs := hs.updProc hC np (SameRanges.refl _)
  cwd _ _ hs := hs.updProc hC np (SameRanges.refl _)

theorem inherits_deepCopy (hne : np ≠ p) (i : Index) :
    Keeps (Inherits C p np) (OrderlyStop C) (deepCopy p np i) := by
  have hI : Calm p (Inherits C p np) (OrderlyStop C) := inherits_calm hC hne
  unfold deepCopy
  refine Triple.get fun t ht => ?_
  refine .update (R := Inherits C p np) ?_ ?_
  · rintro _ rfl
    refine ⟨fun q hq => ?_, ht.noPipe, fun j hj => ?_⟩
    · rw [updDesc_proc_of_ne _ _ hq]
      exact ht.tables q hq
    · rw [updDesc_proc_of_ne _ _ hne.symm, updDesc_mmaps] at *
      by_cases hji : j = i
      · subst hji
        rw [update_self] at hj ⊢
        exact ⟨hj, rfl⟩
      · rw [update_of_ne hji] at hj ⊢
        exact ht.child j hj
  · refine .bind ((inherits_fileBlind hC hne).filedupNull hI.toPassive _) fun _ => ?_
    exact .modify fun s hs => hs.updDesc hC np ⟨rfl, rfl⟩

theorem inherits_copyMap (hne : np ≠ p) (i : Index) :
    Keeps (Inherits C p np) (OrderlyStop C) (copyMap p np i) :=
  (inherits_calm hC hne).copyMap (fun d => .modify fun s hs => hs.updProc hC np (SameRanges.refl _))
    (inherits_deepCopy hC hne i) fun q g hg => .modify fun s hs => hs.updDesc hC q (by rw [hg]; exact ⟨rfl, rfl⟩)

theorem orderly_allocproc :
    Triple (fun s => Orderly C s ∧ (s.proc p).state ≠ .unused) allocproc
      (fun o s => Orderly C s ∧ ∀ np, o = some np → np ≠ p ∧ Inherits C p np s) (OrderlyStop C) := by
  unfold allocproc
  refine .get fun t ht => ?_
  cases hfind : (List.finRange NPROC).find? fun q => (t.proc q).state == .unused with
  | none => exact .pure fun s hs => ⟨hs ▸ ht.1, by rintro np ⟨⟩⟩
  | some np =>
    have hne : np ≠ p := by
      rintro rfl
      exact ht.2 (by simpa using List.find?_some hfind)
    have hI : Calm p (Inherits C p np) (OrderlyStop C) := inherits_calm hC hne
    refine .update (R := Inherits C p np) ?_ ?_
    · rintro _ rfl
      refine ⟨fun q hq => ?_, ht.1.noPipe, fun i hi => ?_⟩
      · simpa [hq] using ht.1.tables q
      · simp at hi
    refine .update (R := Inherits C p np) (fun s hs => ?_) ?_
    · exact ⟨hs.tables, hs.noPipe, hs.child⟩
    refine .bind (hI.onRam _) fun o => ?_
    cases o with
    | none =>
      refine .update (R := Inherits C p np) (fun s hs => ?_) <|
        .pure fun s hs => ⟨hs.orderly hC hne, by rintro np ⟨⟩⟩
      exact hs.updProc hC np (SameRanges.refl _)
    | some v =>
      refine .update (R := Inherits C p np) (fun s hs => ?_) <| .pure fun s hs => ⟨hs.orderly hC hne, ?_⟩
      · exact hs.updProc hC np (SameRanges.refl _)
      · rintro _ ⟨⟩
        exact ⟨hne, hs⟩

theorem orderly_fork :
    Triple (fun s => Orderly C s ∧ (s.proc p).state ≠ .unused) (fork p) (fun _ => Orderly C)
      (OrderlyStop C) := by
  unfold fork
  refine .bindOption (orderly_allocproc hC) (.pure fun s hs => hs.1) fun np => ?_
  refine .pre (P := fun s => Inherits C p np s ∧ np ≠ p) (.pre_and fun hne => ?_) fun s hs =>
    ⟨(hs.2 np rfl).2, (hs.2 np rfl).1⟩
  have hI : Calm p (Inherits C p np) (OrderlyStop C) := inherits_calm hC hne
  refine .read fun t _ => .bind (hI.onRam _) fun o => ?_
  cases o with
  | none =>
    refine .bind (hI.onRam _) fun _ => .update (R := Orderly C) (fun s hs => ?_) <| .pure fun s hs => hs
    exact (hs.updProc hC np (SameRanges.refl _)).orderly hC hne
  | some d =>
    have hF : FileBlind np (Inherits C p np) (OrderlyStop C) := inherits_fileBlind hC hne
    have hfill : Keeps (Inherits C p np) (OrderlyStop C) (forkFill p np d) := by
      refine .get fun t _ => .update (fun s hs => hs.updProc hC np (SameRanges.refl _)) ?_
      exact .bind (.forM _ fun fd _ => hF.dupFd fd) fun _ => hF.dupCwd hI.toPassive
    refine .bind hfill fun _ => ?_
    refine .update (R := Inherits C p np)
      (fun s hs => hs.updProc hC np (SameRanges.refl _)) ?_
    refine .bind (Keeps.forM _ fun i _ => inherits_copyMap hC hne i) fun _ => ?_
    exact .pure fun s hs => hs.orderly hC hne

theorem orderly_wait : Keeps (Orderly C) (OrderlyStop C) (wait p) :=
  (orderly_calm hC orderlyStop).wait fun q _ hg =>
    .modify fun _ hs => hs.updProc hC q ((hg _).1 ▸ Within.refl _)

/-- `exit` holds `ptable.lock` while it gives up the mappings, so it comes to its end only if it writes
nothing back; then it makes no mapping valid. -/
theorem orderly_exit : Triple (Orderly C) (exit p) (fun _ => Orderly C) ⊤ := by
  have hA : Calm p (Orderly C) ⊤ := orderly_calm hC fun _ _ _ => trivial
  have hF : FileBlind p (Orderly C) ⊤ := orderly_fileBlind hC fun _ _ _ => trivial
  let L : State → Prop := fun s => Orderly C s ∧ s.ptableLock = true
  have hL : Calm p L ⊤ := hA.and locked_deaf.toCalm
  have hLF : FileBlind p L ⊤ := hF.and (F := fun _ _ => True)
    ⟨fun _ _ _ => trivial, fun _ _ _ _ h => h, fun _ _ h => h, fun _ _ h => h⟩
  have hdesc : ∀ i, Keeps L ⊤ (exitDesc p i) := by
    intro i
    refine .get fun t _ => .early fun _ => .bind (.get fun t _ => ?_) fun _ => ?_
    · dsimp only
      cases ((t.proc p).mmaps i).f with
      | none => exact .pure _
      | some f =>
        refine .bind (syncDesc_locked _ fun s hs => ⟨hs.2, hs.1.noPipe f⟩) fun _ => ?_
        exact hLF.fileclose hL.toPassive (fun s f pg hs hf => absurd hf (hs.1.noPipe f)) f
    · exact hL.munmapFree (fun _ hs => ⟨hs.1.updDesc hC p fun h => ⟨h, rfl⟩, hs.2⟩)
        fun _ hs => ⟨hs.1.updDesc hC p (by rintro ⟨⟩), hs.2⟩
  unfold exit
  refine .read fun t _ => .check (fun _ _ => trivial) fun _ => ?_
  refine .bind (Keeps.forM _ fun fd _ => hF.exitFd hA.toPassive orderly_noPipe fd) fun _ => ?_
  refine .bind (hF.exitCwd hA.toPassive) fun _ => ?_
  refine .bind (R := fun _ => L) (.read fun t _ => .check (fun _ _ => trivial) fun _ =>
    .modify fun s hs => ⟨⟨hs.tables, hs.noPipe⟩, rfl⟩) fun _ => ?_
  refine .update (R := L)
    (fun s hs => ⟨hs.1.within hC (fun q => ?_) fun _ => id, hs.2⟩) ?_
  · dsimp only
    split <;> exact Within.refl _
  refine .bind (Keeps.forM _ fun i _ => hdesc i) fun _ => ?_
  refine .update (R := L)
    (fun s hs => ⟨hs.1.updProc hC p (Within.refl _), hs.2⟩) ?_
  exact .modify fun s hs => ⟨hs.1.tables, hs.1.noPipe⟩

/-! ## A step -/

/-- A request names an open file, if any, and its pages may be put into the table; a guard page may grow
into the next slot, but not in a write-back of `munmap`; and no pipe is made. -/
def OrderlyGuard (C : Mmaps → Prop) (s : State) : Op → Prop
  | .mmap p args => ∀ a n i, args = some a → Accepted s p a n i →
      (hasFlag a.flags MAP_ANON ∨ (argfd (s.proc p) a.fd).isSome) ∧
      ∀ u, FirstFit p a s u (a.start s) n i → C (u.proc p).mmaps
  | .munmap p args => ∀ addr length visits, args = some (addr, length) →
      pagesBelow (length + addr) (2 ^ 20 + 1) addr = some visits →
      NoGrowBack (s.proc p).mmaps (toFree (s.proc p).mmaps visits)
  | .fault p addr _ => ∀ i, findDesc (s.proc p).mmaps addr = some i →
      ((s.proc p).mmaps i).guardPage → GrowsTo C (s.proc p).mmaps i
  | .pipe _ => False
  | _ => True

variable {op : Op}

theorem orderly_outcome (hs : Orderly C s) (hen : op.enabled s) (hg : OrderlyGuard C s op) :
    Triple (fun t => t = s) op.outcome (fun _ => Orderly C) ⊤ := by
  have hstate : (s.proc op.proc).state ≠ .unused := by
    intro h
    simp [Op.enabled, h] at hen
  have hA : Calm op.proc (Orderly C) (OrderlyStop C) := orderly_calm hC orderlyStop
  have hF : FileBlind op.proc (Orderly C) (OrderlyStop C) := orderly_fileBlind hC orderlyStop
  have hcall : ∀ {α : Type} {m : K α}, Triple (fun t => t = s) m (fun _ => Orderly C) (OrderlyStop C) →
      Triple (fun t => t = s) (Op.syscall op.proc m) (fun _ => Orderly C) (OrderlyStop C) := fun hm =>
    syscall_triple hm (fun t ht _ => ht ▸ hs) fun t ht _ => ht
  have hkeep : ∀ {α : Type} {m : K α}, Keeps (Orderly C) (OrderlyStop C) m →
      Triple (fun t => t = s) (Op.syscall op.proc m) (fun _ => Orderly C) (OrderlyStop C) := fun hm =>
    hcall (hm.pre fun t ht => ht ▸ hs)
  have hbody : Triple (fun t => t = s) op.body (fun _ => Orderly C) (OrderlyStop C) := by
    cases op with
    | mmap p args => exact hcall (orderly_sysMmap hs args hg)
    | munmap p args =>
      cases args with
      | none => exact hkeep (.pure _)
      | some a => exact hcall (orderly_sysMunmap hC hs fun visits => hg a.1 a.2 visits rfl)
    | fault p addr write => exact orderly_trap hC hs true hg
    | store p addr b =>
      exact Triple.pre (Keeps.get fun t _ => hA.onRam _) fun t ht => ht ▸ hs
    | fork p => exact hcall ((orderly_fork hC).pre fun t ht => ht ▸ ⟨hs, hstate⟩)
    | exit p => exact hkeep (.throw fun t ht _ => ht)
    | wait p => exact hkeep (orderly_wait hC)
    | «open» p path omode => exact hkeep (hF.sysOpen hA.toPassive orderly_noPipe path omode)
    | dup p fd => exact hkeep (hF.sysDup fd)
    | close p fd => exact hkeep (hF.sysClose hA.toPassive orderly_noPipe fd)
    | pipe p => exact hg.elim
  exact outcome_triple hbody ((orderly_exit hC).pre fun t ht => ht rfl) fun _ _ _ => trivial

theorem Orderly.step (hs : Orderly C s) (hg : OrderlyGuard C s op) (hx : exec s op = some t) :
    Orderly C t := by
  obtain ⟨hen, hout⟩ := exec_eq_some.mp hx
  have := (orderly_outcome hC hs hen hg).run s rfl
  rwa [hout] at this

end Hereditary

end Xv6
