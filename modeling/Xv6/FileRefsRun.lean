import Xv6.FileRefs
import Xv6.ForkSucceeds

/-!
# Processes and their references to files

`fork` gives the child a reference for every open file and for every mapping, `exit` gives all of them up,
and a process that is gone has none. With that the counts are right along every run: `file_refs_of_run`.
-/

namespace Xv6

open Hoare RefCount
open List (finRange)

variable {p np q : Fin NPROC} {s t : State} {f : Fin NFILE} {P : Slot → Option (Fin NFILE)}
  {D : Fin NFILE → Int}

/-! ## `fork` -/

variable {g : Proc → Proc}

theorem Acc.bury (h : Acc p P D s) (hne : q ≠ p) (hnone : ∀ x, P (q, x) = none)
    (hofile : (g (s.proc q)).ofile = (s.proc q).ofile)
    (hmmaps : (g (s.proc q)).mmaps = (s.proc q).mmaps) : Acc p P D (s.updProc q g) where
  ptr := by
    rw [← h.ptr]
    funext ⟨q', x⟩
    by_cases hq : q' = q
    · subst hq
      cases x <;> simp [State.ptr, Proc.ptr, hofile, hmmaps]
    · cases x <;> simp [State.ptr, Proc.ptr, hq]
  ref := h.ref
  idle q' := by
    by_cases hq : q' = q
    · subst hq
      simpa [hmmaps] using h.idle q'
    · simpa [hq] using h.idle q'
  one q' := by
    by_cases hq : q' = q
    · subst hq
      simpa [hmmaps] using h.one q'
    · simpa [hq] using h.one q'
  gone q' hd := by
    by_cases hq : q' = q
    · subst hq
      exact hnone
    · exact h.gone q' (by simpa [hq] using hd)
  live := by simpa [hne.symm] using h.live

/-- While `fork` fills the child in: the slots of the child that it has not come to are empty. -/
def Filling (p np : Fin NPROC) (x : Proc) (todo : Set Handle) (D : Fin NFILE → Int) (s : State) :
    Prop :=
  (∃ P, Acc p P D s ∧ ∀ y ∈ todo, P (np, y) = none) ∧ ¬ (s.proc np).dead ∧ s.proc p = x

variable {x : Proc} {todo todo' : Set Handle}

theorem Filling.counted (hs : Filling p np x todo 0 s) (e : Stop) (he : e.miscount = false) :
    Counted p e s := by
  obtain ⟨⟨P, hs, -⟩, -, -⟩ := hs
  exact ⟨he, fun _ => ⟨P, hs⟩⟩

section
variable (hs : Filling p np x todo D s)
include hs

theorem Filling.mono (h : todo' ⊆ todo) : Filling p np x todo' D s := by
  obtain ⟨⟨P, hs, hP⟩, hrest⟩ := hs
  exact ⟨⟨P, hs, fun y hy => hP y (h hy)⟩, hrest⟩

theorem Filling.same (hproc : ∀ q, SameFiles (s.proc q) (t.proc q))
    (hfile : ∀ f, (t.fs.file f).ref = (s.fs.file f).ref) (hp : t.proc p = s.proc p) :
    Filling p np x todo D t := by
  obtain ⟨⟨P, hs, hP⟩, hlive, hx⟩ := hs
  exact ⟨⟨P, hs.same hproc hfile, hP⟩, fun hd => hlive ((hproc np).dead hd), hp.trans hx⟩

theorem Filling.updProc (hne : np ≠ p)
    (hg : SameFiles (s.proc np) (g (s.proc np))) : Filling p np x todo D (s.updProc np g) := by
  refine hs.same (fun q => ?_) (fun _ => rfl) (updProc_of_ne _ hne.symm _)
  by_cases hq : q = np
  · subst hq
    simpa using hg
  · simpa [hq] using SameFiles.refl _

end

variable {α : Type}

theorem filling_onRam (m : RamM α) [Plain m] : Keeps (Filling p np x todo 0) (Counted p) (onRam m) := by
  refine keeps_onRam m (fun e he s hs => ?_) fun _ _ hs => hs.same (fun _ => SameFiles.refl _) (fun _ => rfl) rfl
  simp only [Stop.plain, Bool.and_eq_true, Bool.not_eq_true'] at he
  exact hs.counted e he.1.1

theorem acc_allocproc : Triple (fun s => Ready p s ∧ s.proc p = x) allocproc
    (fun o s => match o with
      | none => Ready p s
      | some np => Filling p np x Set.univ 0 s ∧ np ≠ p) (Counted p) := by
  unfold allocproc
  refine .get fun t ht => ?_
  obtain ⟨⟨P, ht⟩, hx⟩ := ht
  cases hfind : (finRange NPROC).find? fun p => (t.proc p).state == .unused with
  | none => exact .pure fun s hs => hs ▸ ht.ready rfl
  | some np =>
    have hunused : (t.proc np).state = .unused := by simpa using List.find?_some hfind
    have hnone : ∀ y, P (np, y) = none := ht.gone np (.inl hunused)
    have hne : np ≠ p := by
      rintro rfl
      exact ht.live (.inl hunused)
    refine .update (R := Filling p np x Set.univ 0) ?_ ?_
    · rintro _ rfl
      refine ⟨⟨P, ht.updProc np ?_, fun y _ => hnone y⟩, by simp [Proc.dead], ?_⟩
      · refine ⟨rfl, fun _ => rfl, fun i _ => .inr ?_, fun _ _ => rfl, fun _ => .inl hunused⟩
        rw [ht.f_eq, hnone]
      · rw [updProc_of_ne _ hne.symm, hx]
    refine .update (R := Filling p np x Set.univ 0) (fun s hs => ?_) ?_
    · exact hs.same (fun _ => SameFiles.refl _) (fun _ => rfl) rfl
    refine .bind (filling_onRam kalloc) fun o => ?_
    cases o with
    | none =>
      refine .update (R := Ready p) ?_ <| .pure fun s hs => hs
      rintro s ⟨⟨P', hs, hP'⟩, -, -⟩
      exact ⟨P', hs.bury hne (fun y => hP' y trivial) rfl rfl⟩
    | some v =>
      refine .update (R := Filling p np x Set.univ 0) (fun s hs => hs.updProc hne ?_) <|
        .pure fun s hs => ⟨hs, hne⟩
      exact ⟨rfl, fun _ => rfl, fun _ => .inl, fun _ _ => rfl, id⟩

theorem filling_filedup {z : Handle} (hz : x.ptr z = some f) :
    Triple (Filling p np x todo 0) (filedup f)
      (fun _ => Filling p np x todo (RefCount.one (some f))) (Counted p) := by
  refine ⟨fun s hs => ?_⟩
  obtain ⟨⟨P, hacc, hP⟩, hlive, hx⟩ := hs
  have hpos : 0 < count P f := by
    refine count_pos (x := (p, z)) ?_
    rw [← hacc.ptr, State.ptr, hx, hz]
  have hdup := (acc_filedup (p := p) (P := P) (D := 0) (f := f)
    (by simp only [Pi.zero_apply]; omega)).run s hacc
  cases hrun : filedup f s with
  | error e s' =>
    rw [hrun] at hdup
    exact hdup
  | ok a s' =>
    rw [hrun] at hdup
    have hproc := filedup_proc hrun
    exact ⟨⟨P, hdup.congr (zero_add _), hP⟩, by rwa [hproc], by rw [hproc, hx]⟩

variable {fd : Fin NOFILE}

theorem filling_dupFd (hne : np ≠ p) (hfd : .inl fd ∈ todo) (htodo : todo' ⊆ todo \ {.inl fd}) :
    Triple (Filling p np x todo 0) (dupFd p np fd) (fun _ => Filling p np x todo' 0) (Counted p) := by
  refine .read fun t ht => ?_
  rw [ht.2.2]
  cases hf : x.ofile fd with
  | none => exact .pure fun s hs => hs.mono fun y hy => (htodo hy).1
  | some f =>
    refine .bind (filling_filedup (z := .inl fd) hf) fun _ => .modify ?_
    rintro s ⟨⟨P, hs, hP⟩, hlive, hx⟩
    refine ⟨⟨_, (hs.setOfile hlive fd (some f)).congr ?_, fun y hy => ?_⟩, ?_, ?_⟩
    · rw [hP _ hfd, one_none]
      abel
    · have hne' : y ≠ .inl fd := (htodo hy).2
      rw [Function.update_of_ne (by simpa using hne'), hP y (htodo hy).1]
    · simpa [Proc.dead] using hlive
    · rw [updProc_of_ne _ hne.symm, hx]

variable {i : Index}

section
variable (hne : np ≠ p) (hi : .inr i ∈ todo) (htodo : todo' ⊆ todo \ {.inr i})
include hne hi htodo

/-- A mapping with a file is copied into an empty slot of the child that has its count already. -/
theorem filling_deepCopy (hvalid : (x.mmaps i).valid) (hf : (x.mmaps i).f ≠ none) :
    Triple (fun s => Filling p np x todo 0 s ∧ ((s.proc np).mmaps i).ref = 1) (deepCopy p np i)
      (fun _ => Filling p np x todo' 0) (Counted p) := by
  obtain ⟨f, hf⟩ := Option.ne_none_iff_exists'.mp hf
  let ready : (Fin NPROC → Proc) → Prop := fun y => ((y np).mmaps i).valid ∧ ((y np).mmaps i).ref = 1
  unfold deepCopy
  refine .read fun t ht => ?_
  rw [ht.1.2.2]
  refine .update (R := fun s => Filling p np x todo 0 s ∧ ready s.proc) (fun s hs => ?_)
    ?_
  · refine ⟨hs.1.updProc hne (.updDesc i rfl (fun h => ?_) fun _ => rfl), ?_⟩
    · exact absurd hvalid (Bool.eq_false_iff.mp h)
    · simpa [ready, State.updDesc, hvalid] using hs.2
  · rw [hf]
    refine .bind ((filling_filedup (z := .inr i) hf).frame fun s b s' hs h => filedup_proc h ▸ hs)
      fun _ => .modify ?_
    rintro s ⟨⟨⟨P, hs, hP⟩, hlive, hx⟩, hvalid, href⟩
    refine ⟨⟨_, (hs.setF hlive i rfl (fun hv => ?_) fun _ => href).congr ?_, fun y hy => ?_⟩, ?_, ?_⟩
    · exact absurd hvalid (Bool.eq_false_iff.mp hv)
    · rw [hP _ hi, one_none]
      abel
    · have hne' : y ≠ .inr i := (htodo hy).2
      rw [Function.update_of_ne (by simpa using hne'), hP y (htodo hy).1]
    · simpa [State.updDesc, Proc.dead, Proc.updDesc] using hlive
    · rw [updDesc_proc_of_ne _ _ hne.symm, hx]

theorem filling_copyPrivate (hvalid : (x.mmaps i).valid) (hf : (x.mmaps i).f ≠ none) (pa : Word) :
    Triple (Filling p np x todo 0) (copyPrivate p np i pa) (fun _ => Filling p np x todo' 0)
      (Counted p) := by
  refine .bindOption (filling_onRam kalloc) (.throw fun s hs => hs.counted _ rfl) fun mem => ?_
  refine .read fun t _ => .bind (filling_onRam _) fun r => ?_
  refine .check (fun s hs => hs.counted _ rfl) fun _ => ?_
  refine .update (R := Filling p np x todo 0) (fun s hs => ?_) ?_
  · exact hs.updProc hne ⟨rfl, fun _ => rfl, fun _ => .inl, fun _ _ => rfl, id⟩
  refine .bind (filling_onRam _) fun _ => ?_
  refine .update (R := fun s => Filling p np x todo 0 s ∧ ((s.proc np).mmaps i).ref = 1)
    (fun s hs => ?_) <| filling_deepCopy hne hi htodo hvalid hf
  refine ⟨hs.updProc hne (.updDesc i rfl id fun hne' => absurd ?_ hne'), by simp [State.updDesc]⟩
  obtain ⟨⟨P, hs, hP⟩, -, -⟩ := hs
  rw [hs.f_eq, hP _ hi]

/-- `fork` copies every mapping at once, with a count of its own: the mapping has a file, is private and
has been touched. -/
def ForkCounted (x : Proc) : Prop := ∀ i, (x.mmaps i).valid →
  (x.mmaps i).f ≠ none ∧ hasFlag (x.mmaps i).flags MAP_SHARED = false ∧
    getPhysicalPage x.pgdir (x.mmaps i).virtualAddress ≠ 0

theorem filling_copyMap (hx : ForkCounted x) :
    Triple (Filling p np x todo 0) (copyMap p np i) (fun _ => Filling p np x todo' 0) (Counted p) := by
  unfold copyMap
  refine .read fun t ht => ?_
  rw [ht.2.2]
  refine .ite (fun _ => .pure fun s hs => hs.mono fun y hy => (htodo hy).1) fun hvalid => ?_
  replace hvalid : (x.mmaps i).valid := by simpa using hvalid
  obtain ⟨hf, hshared, hpage⟩ := hx i hvalid
  rw [if_neg (by simp [hshared]), if_neg hpage]
  exact filling_copyPrivate hne hi htodo hvalid hf _

end

theorem notMem_of_suffix {i : α} {l l' : List α} (hl : l.Nodup) (h : i :: l' <:+ l) :
    i ∉ l' := (List.nodup_cons.mp (hl.sublist h.sublist)).1

/-- The mappings, and the file descriptors that are left. -/
def fdsLeft (l : List (Fin NOFILE)) : Set Handle := { y | ∀ fd, y = .inl fd → fd ∈ l }

/-- The mappings that are left. -/
def mapsLeft (l : List Index) : Set Handle := { y | ∃ i ∈ l, y = .inr i }

theorem filling_fork (hne : np ≠ p) (hx : ForkCounted x) (d : PgDir) (pid : Word) :
    Triple (Filling p np x Set.univ 0) (do
      forkFill p np d
      setState np .runnable
      copyMaps p np
      pure pid) (fun _ => Ready p) (Counted p) := by
  have hfds : Triple (Filling p np x (fdsLeft (finRange NOFILE)) 0)
      ((finRange NOFILE).forM (dupFd p np)) (fun _ => Filling p np x (fdsLeft []) 0)
      (Counted p) := by
    refine Triple.forM (I := fun l => Filling p np x (fdsLeft l) 0) _ fun fd l hl =>
      filling_dupFd hne ?_ ?_
    · rintro fd' hfd
      cases hfd
      exact List.mem_cons_self
    · intro y hy
      refine ⟨fun fd' h => List.mem_cons_of_mem _ (hy fd' h), fun h => ?_⟩
      exact notMem_of_suffix (List.nodup_finRange _) hl (hy fd h)
  have hmaps : Triple (Filling p np x (mapsLeft (finRange PAGE_LIMIT)) 0)
      ((finRange PAGE_LIMIT).forM (copyMap p np)) (fun _ => Filling p np x (mapsLeft []) 0)
      (Counted p) := by
    refine Triple.forM (I := fun l => Filling p np x (mapsLeft l) 0) _ fun i l hl =>
      filling_copyMap hne ⟨i, List.mem_cons_self, rfl⟩ ?_ hx
    rintro y ⟨j, hj, rfl⟩
    refine ⟨⟨j, List.mem_cons_of_mem _ hj, rfl⟩, fun h => ?_⟩
    cases h
    exact notMem_of_suffix (List.nodup_finRange _) hl hj
  refine .bind (R := fun _ => Filling p np x (fdsLeft []) 0) ?_ fun _ => ?_
  · refine .read fun t _ => .update (R := Filling p np x (fdsLeft (finRange NOFILE)) 0)
      (fun s hs => ?_) <| .bind hfds fun _ => ?_
    · refine (hs.updProc hne ?_).mono (Set.subset_univ _)
      exact ⟨rfl, fun _ => rfl, fun _ => .inl, fun _ _ => rfl, id⟩
    · refine .read fun t ht => ?_
      cases (t.proc p).cwd with
      | none => exact .throw fun s hs => hs.counted _ rfl
      | some n =>
        refine .update (R := Filling p np x (fdsLeft []) 0) (fun s hs => ?_) ?_
        · exact hs.same (fun _ => SameFiles.refl _) (fun _ => rfl) rfl
        · refine .modify fun s hs => hs.updProc hne ?_
          exact ⟨rfl, fun _ => rfl, fun _ => .inl, fun _ _ => rfl, id⟩
  · refine .update (R := Filling p np x (mapsLeft (finRange PAGE_LIMIT)) 0)
      (fun s hs => ?_) <| .bind hmaps fun _ => .pure ?_
    · refine (hs.updProc hne ?_).mono ?_
      · exact ⟨rfl, fun _ => rfl, fun _ => .inl, fun _ _ => rfl, by simp [Proc.dead]⟩
      · rintro y ⟨i, -, rfl⟩
        rintro fd ⟨⟩
    · rintro s ⟨⟨P, hs, -⟩, -⟩
      exact ⟨P, hs⟩

theorem acc_fork (ht : Ready p t) (hx : ForkCounted (t.proc p)) :
    Triple (fun s => s = t) (fork p) (fun _ => Ready p) (Counted p) := by
  refine .bindOption (acc_allocproc.pre fun s hs => ⟨hs ▸ ht, congrArg (State.proc · p) hs⟩)
    (.pure fun s hs => hs) fun np => ?_
  refine .pre_and fun hne => .read fun u _ => .bind (filling_onRam _) fun o => ?_
  cases o with
  | none =>
    refine .bind (filling_onRam _) fun _ => .update (R := Ready p) ?_ <| .pure fun s hs => hs
    rintro s ⟨⟨P, hs, hP⟩, -, -⟩
    exact ⟨P, hs.bury hne (fun y => hP y trivial) rfl rfl⟩
  | some d => exact filling_fork hne hx d _

theorem acc_wait : Keeps (Ready p) (Counted p) (wait p) := by
  have hI : Passive (Ready p) (Counted p) := ready_deaf.toPassive
  refine acc_ready fun P => ?_
  unfold wait
  refine .read fun t ht => ?_
  split
  next q hfind =>
    have hzombie : (t.proc q).state = .zombie := by
      have := List.find?_some hfind
      simp only [Bool.and_eq_true, beq_iff_eq] at this
      exact this.2
    have hnone : ∀ y, P (q, y) = none := ht.gone q (.inr hzombie)
    have hne : q ≠ p := by
      rintro rfl
      exact ht.live (.inr hzombie)
    refine .bind (acc_onRam _) fun _ => .update (R := Acc p P 0) (fun s hs => ?_)
      ?_
    · exact hs.bury hne hnone rfl rfl
    refine .bind (acc_onRam _) fun _ => .update (R := Acc p P 0) (fun s hs => ?_) <|
      .pure fun s hs => hs.ready rfl
    exact hs.bury hne hnone rfl rfl
  next =>
    refine .ite (fun _ => .pure fun s hs => hs.ready rfl) fun _ => .throw fun s hs => ?_
    exact hI.stop _ rfl s (hs.ready rfl)

/-! ## `exit` -/

/-- While `exit` gives the references up: those that are left are in `left`. -/
def Leaving (p : Fin NPROC) (left : Set Handle) (s : State) : Prop :=
  ∃ P, Acc p P 0 s ∧ ∀ y, P (p, y) ≠ none → y ∈ left

variable {left left' : Set Handle}
variable {y : Handle}

theorem leaving_update (hP : ∀ z, P (p, z) ≠ none → z ∈ left) (hleft : left \ {y} ⊆ left') (z : Handle)
    (hz : Function.update P (p, y) none (p, z) ≠ none) : z ∈ left' := by
  by_cases hzy : z = y
  · subst hzy
    simp at hz
  · rw [Function.update_of_ne (by simpa using hzy)] at hz
    exact hleft ⟨hP z hz, hzy⟩

theorem leaving_same (hP : ∀ z, P (p, z) ≠ none → z ∈ left)
    (hleft : left \ {y} ⊆ left') (hy : P (p, y) = none) (z : Handle) (hz : P (p, z) ≠ none) : z ∈ left' := by
  refine hleft ⟨hP z hz, ?_⟩
  rintro rfl
  exact hz hy

theorem leaving_exitFd (hleft : left \ {.inl fd} ⊆ left') :
    Triple (Leaving p left) (exitFd p fd) (fun _ => Leaving p left') (Counted p) := by
  refine .pre_exists fun P => .pre_and fun hP => .read fun t ht => ?_
  cases hfd : (t.proc p).ofile fd with
  | none =>
    have hy : P (p, .inl fd) = none := by rw [← ht.ofile_eq, hfd]
    exact .pure fun s hs => ⟨P, hs, leaving_same hP hleft hy⟩
  | some f =>
    have hy : P (p, .inl fd) = some f := by rw [← ht.ofile_eq, hfd]
    have hpos := count_pos hy
    refine .bind (acc_fileclose (by simp only [Pi.zero_apply]; omega)) fun _ => .modify fun s hs => ?_
    refine ⟨_, (hs.setOfile hs.live fd none).congr ?_, leaving_update hP hleft⟩
    simp [hy]

theorem leaving_exitDesc (hleft : left \ {.inr i} ⊆ left') :
    Triple (Leaving p left) (exitDesc p i) (fun _ => Leaving p left') (Counted p) := by
  refine .pre_exists fun P => .pre_and fun hP => .read fun t ht => .ite (fun hinv => ?_) fun _ => ?_
  · have hy : P (p, .inr i) = none := by rw [← ht.f_eq, ht.idle p i (by simpa using hinv)]
    exact .pure fun s hs => ⟨P, hs, leaving_same hP hleft hy⟩
  · have htouch : ∀ y, Keeps (fun s => Acc p P 0 s ∧ True) (Counted p) (touch p y) := fun y =>
      (acc_deaf.touch y (acc_deaf.trap false y)).conseq (fun s hs => hs.1)
        (fun _ s hs => ⟨hs, trivial⟩) fun _ _ => id
    refine .bind (R := fun _ => Acc p P (0 - RefCount.one (P (p, .inr i)))) ?_ fun _ => ?_
    · refine (acc_closeDesc (passive_of_proc fun _ => True) (fun f => .anything _) i (fun f hf => ?_)
        fun _ _ _ _ y _ => htouch y).conseq (fun s hs => ⟨hs, trivial⟩) (fun _ s hs => hs.1)
        fun _ _ => id
      have hpos := count_pos hf
      simp only [Pi.zero_apply]
      omega
    · refine (acc_munmapFree i).post fun _ s hs => ⟨_, hs.congr (by simp), leaving_update hP hleft⟩

/-! ## Between operations -/

/-- How many file descriptors and how many valid mappings, of all processes, point to `f`. -/
def State.refs (s : State) (f : Fin NFILE) : Nat :=
  count (fun x : Fin NPROC × Fin NOFILE => (s.proc x.1).ofile x.2) f +
  count (fun x : Fin NPROC × Index =>
    if ((s.proc x.1).mmaps x.2).valid then ((s.proc x.1).mmaps x.2).f else none) f

/-- The state between two operations: every count is right, and no reference is where the code would
forget it. -/
structure Balanced (s : State) : Prop where
  ref : ∀ f, (s.fs.file f).ref = s.refs f
  idle : ∀ q i, ((s.proc q).mmaps i).valid = false → ((s.proc q).mmaps i).f = none
  one : ∀ q i, ((s.proc q).mmaps i).f ≠ none → ((s.proc q).mmaps i).ref = 1
  gone : ∀ q, (s.proc q).dead → ∀ y, s.ptr (q, y) = none

theorem refs_eq_count (hidle : ∀ q i, ((s.proc q).mmaps i).valid = false →
    ((s.proc q).mmaps i).f = none) (f : Fin NFILE) : s.refs f = count s.ptr f := by
  have hvalid : (fun x : Fin NPROC × Index =>
      if ((s.proc x.1).mmaps x.2).valid then ((s.proc x.1).mmaps x.2).f else none) =
      fun x => ((s.proc x.1).mmaps x.2).f := by
    funext x
    split
    next => rfl
    next h => exact (hidle _ _ (by simpa using h)).symm
  rw [State.refs, hvalid, count_prod_sum]
  rfl

theorem Balanced.ready (hs : Balanced s) (hp : ¬ (s.proc p).dead) : Ready p s := by
  refine ⟨s.ptr, rfl, fun f => ?_, hs.idle, hs.one, hs.gone, hp⟩
  rw [hs.ref, refs_eq_count hs.idle, Pi.zero_apply, add_zero]

theorem Acc.balanced (hs : Acc p P 0 s) : Balanced s := by
  obtain ⟨rfl, href, hidle, hone, hgone, -⟩ := hs
  refine ⟨fun f => ?_, hidle, hone, hgone⟩
  have := href f
  rw [Pi.zero_apply, add_zero] at this
  rw [refs_eq_count hidle]
  exact_mod_cast this

theorem Ready.balanced (hs : Ready p s) : Balanced s := by
  obtain ⟨P, hs⟩ := hs
  exact hs.balanced

theorem Leaving.zombie (hs : Leaving p ∅ s) :
    Balanced (s.updProc p fun q => { q with state := .zombie }) := by
  obtain ⟨P, hs, hP⟩ := hs
  let s' := s.updProc p fun q => { q with state := .zombie }
  have hproc : ∀ q, (s'.proc q).ptr = (s.proc q).ptr ∧ (s'.proc q).mmaps = (s.proc q).mmaps := by
    intro q
    by_cases hq : q = p
    · subst hq
      simp [s', Proc.ptr]
    · simp [s', hq]
  have hptr : s'.ptr = P := by
    rw [← hs.ptr]
    funext x
    exact congrFun (hproc x.1).1 x.2
  have hidle : ∀ q i, ((s'.proc q).mmaps i).valid = false → ((s'.proc q).mmaps i).f = none := by
    intro q
    rw [(hproc q).2]
    exact hs.idle q
  refine ⟨fun f => ?_, hidle, fun q => ?_, fun q hd y => ?_⟩
  · have := hs.ref f
    rw [Pi.zero_apply, add_zero] at this
    rw [refs_eq_count hidle, hptr]
    exact_mod_cast this
  · rw [(hproc q).2]
    exact hs.one q
  · rw [hptr]
    by_cases hq : q = p
    · subst hq
      by_contra hy
      exact hP y hy
    · exact hs.gone q (by simpa [s', hq] using hd) y

theorem acc_exit : Triple (Ready p) (exit p) (fun _ => Balanced) (fun x _ => x.miscount = false) := by
  have hfds : Triple (Leaving p (fdsLeft (finRange NOFILE)))
      ((finRange NOFILE).forM (exitFd p)) (fun _ => Leaving p (fdsLeft [])) (Counted p) := by
    refine Triple.forM (I := fun l => Leaving p (fdsLeft l)) _ fun fd l _ => leaving_exitFd ?_
    rintro y ⟨hy, hne⟩ fd' rfl
    exact (List.mem_cons.mp (hy fd' rfl)).resolve_left fun h => hne (h ▸ rfl)
  have hmaps : Triple (Leaving p (mapsLeft (finRange PAGE_LIMIT)))
      ((finRange PAGE_LIMIT).forM (exitDesc p)) (fun _ => Leaving p (mapsLeft [])) (Counted p) := by
    refine Triple.forM (I := fun l => Leaving p (mapsLeft l)) _ fun i l _ => leaving_exitDesc ?_
    rintro y ⟨⟨j, hj, rfl⟩, hne⟩
    exact ⟨j, (List.mem_cons.mp hj).resolve_left fun h => hne (h ▸ rfl), rfl⟩
  suffices h : Triple (Ready p) (exit p) (fun _ => Balanced) (Counted p) from
    h.conseq (fun _ => id) (fun _ _ => id) fun x s hx => hx.1
  unfold exit
  refine .read fun t ht => .check (fun s hs => ready_deaf.stop _ rfl s hs) fun _ => ?_
  refine .bind (hfds.pre ?_) fun _ => .pre_exists fun P => .pre_and fun hP => ?_
  · rintro s ⟨P, hs⟩
    exact ⟨P, hs, fun y _ fd _ => List.mem_finRange fd⟩
  -- up to the mappings the references stay as they are
  have hI : Passive (Acc p P 0) (Counted p) := acc_passive
  refine .bind (R := fun _ => Acc p P 0) ?_ fun _ => ?_
  · refine .read fun t _ => ?_
    cases (t.proc p).cwd with
    | none => exact .throw fun s hs => hI.stop _ rfl s hs
    | some n =>
      refine .bind (Keeps.pure _) fun _ => .bind (hI.iput n) fun _ => .bind hI.wakeup fun _ => ?_
      refine .modify fun s hs => hs.updProc p ?_
      exact ⟨rfl, fun _ => rfl, fun _ => .inl, fun _ _ => rfl, id⟩
  refine .bind (R := fun _ => Acc p P 0) ?_ fun _ => ?_
  · refine .read fun t _ => .check (fun s hs => hI.stop _ rfl s hs) fun _ => ?_
    exact .modify fun s hs => hs.same (fun _ => SameFiles.refl _) fun _ => rfl
  refine .update (R := Acc p P 0) (fun s hs => hs.same (fun q => ?_) fun _ => rfl)
    ?_
  · dsimp only
    split <;> exact ⟨rfl, fun _ => rfl, fun _ => .inl, fun _ _ => rfl, id⟩
  refine .bind (hmaps.pre fun s hs => ⟨P, hs, fun y hy => ?_⟩) fun _ => ?_
  · cases y with
    | inl fd => exact absurd (hP _ hy fd rfl) (List.not_mem_nil)
    | inr i => exact ⟨i, List.mem_finRange i, rfl⟩
  refine .update (R := Balanced) (fun s hs => Leaving.zombie ?_) <|
    .modify fun s hs => ⟨hs.ref, hs.idle, hs.one, hs.gone⟩
  obtain ⟨P', hs, hP'⟩ := hs
  refine ⟨P', hs, fun y hy => ?_⟩
  obtain ⟨i, hi, -⟩ := hP' y hy
  exact absurd hi List.not_mem_nil

/-! ## Runs -/

/-- What the operations have to do for the counts to stay right. -/
def RefGuard (s : State) : Op → Prop
  | .munmap p args => ∀ addr length visits, args = some (addr, length) →
      pagesBelow (length + addr) (2 ^ 20 + 1) addr = some visits →
      BackPresent (s.proc p) (toFree (s.proc p).mmaps visits)
  | .fork p => ForkCounted (s.proc p)
  | _ => True

theorem balanced_outcome {op : Op} (hs : Balanced s) (hen : op.enabled s) (hg : RefGuard s op) :
    Triple (fun t => t = s) op.outcome (fun _ => Balanced) (fun x _ => x.miscount = false) := by
  have hlive : ¬ (s.proc op.proc).dead := by
    rintro (h | h) <;> simp [Op.enabled, h] at hen
  have hready : Ready op.proc s := hs.ready hlive
  have hcall : ∀ {α : Type} {m : K α}, Triple (fun t => t = s) m (fun _ => Ready op.proc) (Counted op.proc) →
      Triple (fun t => t = s) (Op.syscall op.proc m) (fun _ => Ready op.proc) (Counted op.proc) :=
    fun hm => syscall_triple hm (fun t ht => ⟨rfl, fun _ => ht ▸ hready⟩) fun t ht => ⟨rfl, fun _ => ht⟩
  have hkeep : ∀ {α : Type} {m : K α}, Keeps (Ready op.proc) (Counted op.proc) m →
      Triple (fun t => t = s) (Op.syscall op.proc m) (fun _ => Ready op.proc) (Counted op.proc) :=
    fun hm => hcall (hm.pre fun t ht => ht ▸ hready)
  have hbody : Triple (fun t => t = s) op.body (fun _ => Ready op.proc) (Counted op.proc) := by
    cases op with
    | mmap p args => exact hkeep (acc_sysMmap args)
    | munmap p args =>
      cases args with
      | none => exact hkeep (.pure _)
      | some a => exact hcall (acc_sysMunmap hready fun visits => hg a.1 a.2 visits rfl)
    | fault p addr write => exact (ready_deaf.trap true addr).pre fun t ht => ht ▸ hready
    | store p addr b =>
      exact Triple.pre (Keeps.get fun t _ => ready_deaf.onRam _) fun t ht => ht ▸ hready
    | fork p => exact hcall (acc_fork hready hg)
    | exit p => exact hkeep (.throw fun t ht => ⟨rfl, fun _ => ht⟩)
    | wait p => exact hkeep acc_wait
    | «open» p path omode => exact hkeep (ready_deaf.toPassive.sysOpen (fun n => acc_openInode n omode) path)
    | dup p fd => exact hkeep (acc_sysDup fd)
    | close p fd => exact hkeep (acc_sysClose fd)
    | pipe p => exact hkeep acc_sysPipe
  refine outcome_triple (hbody.post fun _ t ht => ht.balanced) (acc_exit.pre fun t ht => ht.2 rfl) ?_
  exact fun x t hx => hx.1

/-- Along every run under `RefGuard`, the count of every file is the number of its references, no operation
panics over a count, and nothing points to a file that is free. -/
theorem file_refs_of_run (hs : Balanced s) (hrun : Run exec RefGuard s t) :
    (∀ f, (t.fs.file f).ref = t.refs f) ∧ (∀ op, op.enabled t → RefGuard t op → ∀ u,
      op.outcome t ≠ .error (.panic "filedup") u ∧ op.outcome t ≠ .error (.panic "fileclose") u) ∧
    (∀ q fd f, (t.proc q).ofile fd = some f → 0 < (t.fs.file f).ref) ∧
    (∀ q i f, ((t.proc q).mmaps i).valid → ((t.proc q).mmaps i).f = some f → 0 < (t.fs.file f).ref) := by
  have ht : Balanced t := by
    refine hrun.invariant (I := Balanced) hs fun t op u ht hg hx => ?_
    obtain ⟨hen, hout⟩ := exec_eq_some.mp hx
    have := (balanced_outcome ht hen hg).run t rfl
    rwa [hout] at this
  have href : ∀ x f, t.ptr x = some f → 0 < (t.fs.file f).ref := by
    intro x f hx
    rw [ht.ref, refs_eq_count ht.idle]
    exact count_pos hx
  refine ⟨ht.ref, fun op hen hg u => ?_, fun q fd f h => href (q, .inl fd) f h,
    fun q i f _ h => href (q, .inr i) f h⟩
  have hout := (balanced_outcome ht hen hg).run t rfl
  constructor
  all_goals
    intro h
    rw [h] at hout
    cases hout

/-! ## In the small machine -/

theorem boot_ptr (x : Slot) : boot.ptr x = none := by
  obtain ⟨q, y⟩ := x
  cases y <;> simp only [State.ptr, boot, Proc.ptr, Sum.elim_inl, Sum.elim_inr] <;> split <;> rfl

theorem boot_f (q : Fin NPROC) (i : Index) : ((boot.proc q).mmaps i).f = none :=
  boot_ptr (q, .inr i)

theorem boot_balanced : Balanced boot where
  ref f := by
    rw [refs_eq_count fun q i _ => boot_f q i]
    show 0 = _
    simp [count, boot_ptr]
  idle q i _ := boot_f q i
  one q i h := absurd (boot_f q i) h
  gone _ _ y := boot_ptr _

/-- Process 1 opens the root directory, duplicates the descriptor and maps a page of it. -/
def bootFiles : List Op :=
  [.open 1 (some 1) 0, .dup 1 0,
   .mmap 1 (some { addr := 0, length := 4096, prot := 2, flags := MAP_PRIVATE, fd := 0, offset := 0 })]

theorem file_refs_of_run_boot : ∃ t, Run exec RefGuard boot t ∧ (t.fs.file 0).ref = 3 ∧ t.refs 0 = 3 := by
  have hx : (Run.execAll exec boot bootFiles).any (fun t => (t.fs.file 0).ref == 3) = true := by
    decide +kernel
  have hg : ∀ op ∈ bootFiles, ∀ s, RefGuard s op := by simp [bootFiles, RefGuard]
  obtain ⟨t, hrun, ht⟩ := Run.exists_run hx hg
  have ht : (t.fs.file 0).ref = 3 := by simpa using ht
  exact ⟨t, hrun, ht, by rw [← (file_refs_of_run boot_balanced hrun).1, ht]⟩

theorem bootMapped_forkable : Forkable (49 + 70) 1 (bootMapped.proc 1) bootMapped where
  roomy := ⟨fun _ _ => rfl, by decide, rfl⟩
  proc := rfl
  fds _ _ h := by cases h

/-- `copy_maps` calls `filedup` with the null file of the mapping, whose count is a word of the user's
memory. -/
theorem copyMap_panics {k : Nat} : Triple (Forkable k 1 (bootMapped.proc 1)) (copyMap 1 2 0) ⊥
    (fun e _ => e = .panic "filedup") := by
  refine .read fun t ht => ?_
  rw [ht.proc]
  refine .read fun t ht => .update (R := Forkable k 1 (bootMapped.proc 1))
    (fun s hs => hs.updProc (by decide) _) ?_
  rw [ht.proc]
  refine .bind (R := fun _ _ => False) ?_ fun _ => ⟨fun _ h => h.elim⟩
  refine .read fun t ht => ?_
  rw [ht.proc, if_neg (by decide +kernel), if_pos ?_]
  · exact .throw fun _ _ => rfl
  · simp only [State.userWord, State.userByte, ht.roomy.blank trivial]
    decide

/-- A process with a mapping that has no file cannot fork: `filedup` of the null file panics. -/
theorem fork_panics_filedup : ∃ t u, Run exec (fun _ _ => True) boot t ∧
    (Op.fork 1).enabled t ∧ (Op.fork 1).outcome t = .error (.panic "filedup") u := by
  have hfork : Triple (fun s => s = bootMapped) (fork 1) (fun _ _ => False)
      (fun e _ => e = .panic "filedup") := by
    have hwalk : (bootMapped.proc 1).pgdir.walk 0 = some ((bootDir 1).pte 0) := rfl
    have hcopy : ∀ pid : Word, Triple (Forkable 49 1 (bootMapped.proc 1)) (do
        copyMaps 1 2
        pure pid) (fun _ _ => False) (fun e _ => e = .panic "filedup") := by
      intro pid
      refine .bind (R := fun _ _ => False) ?_ fun _ => ⟨fun _ h => h.elim⟩
      unfold copyMaps
      exact .bind copyMap_panics fun _ => ⟨fun _ h => h.elim⟩
    refine (forkable_fork (by decide) hwalk (by decide) rfl (n := 1) rfl hcopy).pre ?_
    rintro _ rfl
    exact ⟨bootMapped_forkable, by decide +kernel⟩
  obtain ⟨e, u, hrun, rfl⟩ := hfork.stops rfl
  exact ⟨bootMapped, u, .tail .refl trivial exec_bootAnon, by decide +kernel,
    outcome_of_error (m := fork 1) rfl (by decide +kernel) hrun nofun⟩

end Xv6
