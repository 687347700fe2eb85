import Xv6.Fresh

/-!
# What is in a page when it is touched for the first time

Without a file the page holds zeros; with a file it holds the beginning of the file, whichever page of the
mapping it is, followed by zeros. The bytes do not depend on which process faults, so two processes with the
same mapping see the same page.
-/

namespace Xv6

open Hoare

variable {q : Fin NPROC} {t u : State} {fs₀ : Fs} {C : Ram → Prop}

/-- What `mmap_read` gives for a page of a file. -/
def fileBytes (fs : Fs) : Option (Fin NFILE) → Bytes
  | none => []
  | some f =>
    if !(fs.file f).readable then []
    else
      match (fs.file f).type with
      | .none => []
      | .pipe => (fs.pipe (fs.file f).pipe).data.take 4096
      | .inode =>
        match (fs.inode (fs.file f).ip).type with
        | .dev _ => []
        | _ => (fs.inode (fs.file f).ip).data.take 4096

/-- The content of a new page of a mapping, up to where the zeros start. -/
def MmapDesc.initial (md : MmapDesc) (fs : Fs) : Bytes :=
  if hasFlag md.flags MAP_ANON then [] else fileBytes fs md.f

/-! ## Reading the file -/

theorem ram_wakeup : Keeps (fun s => C s.ram) ⊤ wakeup :=
  .get fun _ _ => .check (fun _ _ => trivial) fun _ => .pure _

theorem ram_iunlock (n : Nat) : Keeps (fun s => C s.ram) ⊤ (iunlock n) :=
  .get fun _ _ => .check (fun _ _ => trivial) fun _ =>
    .update (fun _ hs => hs) <| ram_wakeup

theorem ram_ilock (n : Nat) : Keeps (fun s => C s.ram) ⊤ (ilock n) :=
  .get fun _ _ => .check (fun _ _ => trivial) fun _ =>
    .check (fun _ _ => trivial) fun _ => .ite (fun _ => .throw fun _ _ => trivial)
      fun _ => .modify fun _ hs => hs

theorem fileread_bytes (f : Fin NFILE) (hoff : (fs₀.file f).off = 0) :
    Triple (fun s => C s.ram ∧ s.fs = fs₀) (fileread q f 4096)
      (fun r s => C s.ram ∧ r.getD [] = fileBytes fs₀ (some f)) ⊤ := by
  refine .read fun t ht => ?_
  obtain ⟨-, ht⟩ := ht
  rw [ht]
  unfold fileBytes
  dsimp only
  refine .ite (fun hr => .pure fun s hs => ⟨hs.1, by rw [if_pos hr]; rfl⟩) fun hr => ?_
  rw [if_neg hr]
  cases htype : (fs₀.file f).type with
  | none => exact .throw fun _ _ => trivial
  | pipe =>
    refine .read fun t ht => ?_
    rw [ht.2]
    refine .ite (fun h => .ite (fun _ => .pure fun s hs => ⟨hs.1, ?_⟩) fun _ => .throw fun _ _ => trivial)
      fun _ => ?_
    · simp [h.1]
    · refine .update (R := fun s => C s.ram) (fun s hs => hs.1) ?_
      exact .bind ram_wakeup fun _ => .pure fun s hs => ⟨hs, rfl⟩
  | inode =>
    refine .bind ((ram_ilock _).pre fun s hs => hs.1) fun _ => ?_
    have hregular : Triple (fun s : State => C s.ram) (do
        modify fun s => s.updFile f fun x =>
          x.advance (readi (fs₀.inode (fs₀.file f).ip) (fs₀.file f).off 4096)
        iunlock (fs₀.file f).ip
        pure (readi (fs₀.inode (fs₀.file f).ip) (fs₀.file f).off 4096))
        (fun r s => C s.ram ∧ r.getD [] = (fs₀.inode (fs₀.file f).ip).data.take 4096)
        ⊤ := by
      refine .update (R := fun s => C s.ram) (fun s hs => hs) ?_
      refine .bind (ram_iunlock _) fun _ => .pure fun s hs => ⟨hs, ?_⟩
      rw [hoff]
      simp [readi]
    cases (fs₀.inode (fs₀.file f).ip).type with
    | dev major =>
      refine .check (fun _ _ => trivial) fun _ => ?_
      exact .bind (ram_iunlock _) fun _ => .pure fun s hs => ⟨hs, rfl⟩
    | free => exact hregular
    | dir => exact hregular
    | file => exact hregular

/-- The page at `v` starts with the bytes `bs`, and the rest is zeros. -/
def Ram.Holds (r : Ram) (v : Word) (bs : Bytes) : Prop :=
  ∀ x ∈ pageRange v, r.mem x = bs.getD (x - v).toNat 0

theorem holds_memset (v : Word) : Triple (fun _ => True) (memset v 0) (fun _ r => r.Holds v [])
    ⊤ := by
  refine .modify fun r _ x hx => ?_
  exact (if_pos hx).trans (by simp)

theorem zeros_memset (v w : Word) : Keeps (fun r => r.Holds v []) ⊤ (memset w 0) := by
  refine .modify fun r hr x hx => ?_
  dsimp only
  split
  · simp
  · exact hr x hx

theorem zeros_storeBytes (v w : Word) (n : Nat) :
    Keeps (fun r => r.Holds v []) ⊤ (storeBytes w (List.replicate n 0)) := by
  refine .modify fun r hr x hx => ?_
  dsimp only
  split
  · rw [List.getD_eq_getElem?_getD, List.getElem?_replicate]
    split <;> simp
  · exact hr x hx

variable {α : Type} {P : Ram → Prop}

theorem onRam_lift {Q : α → Ram → Prop} {m : RamM α} (hm : Triple P m Q ⊤) (D : State → Prop)
    (hD : ∀ s r, D s → D { s with ram := r }) :
    Triple (fun s => P s.ram ∧ D s) (onRam m) (fun a s => Q a s.ram ∧ D s) ⊤ := by
  refine ⟨fun s hs => ?_⟩
  have hrun := hm.run s.ram hs.1
  unfold onRam
  cases hr : m s.ram with
  | ok a r =>
    rw [hr] at hrun
    exact ⟨hrun, hD s r hs.2⟩
  | error e r => trivial

theorem onRam_memory {Q : α → Ram → Prop} {m : RamM α} (hm : Triple P m Q ⊤) :
    Triple (fun s => P s.ram) (onRam m) (fun a s => Q a s.ram) ⊤ :=
  (onRam_lift hm (fun _ => True) fun _ _ h => h).conseq (fun _ hs => ⟨hs, trivial⟩)
    (fun _ _ hs => hs.1) fun _ _ h => h

theorem mmapReadNull_bytes (page : Word) (f : Option (Fin NFILE)) :
    Triple (fun s => s.ram.Holds page [] ∧ s.fs = fs₀) (mmapReadNull q f)
      (fun r s => s.ram.Holds page [] ∧ r.getD [] = fileBytes fs₀ f) ⊤ := by
  cases f with
  | none =>
    refine .bind (R := fun _ s => s.ram.Holds page []) ?_ fun _ => .read fun t _ => ?_
    · refine .read fun t _ => .ite (fun _ => ?_) fun _ => .throw fun _ _ => trivial
      exact (onRam_memory (zeros_storeBytes page _ 4)).pre fun s hs => hs.1
    · refine .ite (fun _ => .pure fun s hs => ⟨hs, rfl⟩) fun _ => ?_
      exact .check (fun _ _ => trivial) fun _ => .throw fun _ _ => trivial
  | some f =>
    let fs₁ : Fs := { fs₀ with file := Function.update fs₀.file f { fs₀.file f with off := 0 } }
    have hsame : fileBytes fs₁ (some f) = fileBytes fs₀ (some f) := by
      simp [fileBytes, fs₁]
    rw [← hsame]
    refine .update (R := fun s => s.ram.Holds page [] ∧ s.fs = fs₁) (fun s hs => ?_) <|
      fileread_bytes (C := fun r => r.Holds page []) f (by simp [fs₁])
    exact ⟨hs.1, by simp [State.updFile, hs.2, fs₁]⟩

/-- The buffer holds zeros until the file is read into it; from there it goes to the page. -/
theorem bytes_storeBytes (v : Word) (bs : Bytes) :
    Triple (fun r => r.Holds v []) (storeBytes v bs) (fun _ r => r.Holds v bs) ⊤ := by
  refine .modify fun r hr x hx => ?_
  dsimp only
  split
  · rfl
  · rename_i hlen
    rw [hr x hx, List.getD_eq_getElem?_getD, List.getD_eq_getElem?_getD,
      List.getElem?_eq_none (not_lt.mp hlen)]
    rfl

theorem bytes_memmove (v w : Word) (bs : Bytes) :
    Triple (fun r => r.Holds w bs) (memmove v w) (fun _ r => r.Holds v bs) ⊤ := by
  refine .modify fun r hr x hx => ?_
  have hx' : w + (x - v) ∈ pageRange w := by
    rw [mem_pageRange, add_sub_cancel_left]
    exact hx
  refine (if_pos hx).trans ((hr _ hx').trans ?_)
  rw [add_sub_cancel_left]

theorem readFilePage_bytes (i : Index) (f : Option (Fin NFILE)) (mem : Word) :
    Triple (fun s => s.fs = fs₀ ∧ ((s.proc q).mmaps i).f = f) (readFilePage q i mem)
      (fun _ s => s.ram.Holds mem (fileBytes fs₀ f)) ⊤ := by
  let D : State → Prop := fun s => s.fs = fs₀ ∧ ((s.proc q).mmaps i).f = f
  have hD : ∀ s r, D s → D { s with ram := r } := fun _ _ h => h
  have hram : ∀ {α : Type} (m : RamM α), Keeps D ⊤ (onRam m) := by
    intro α m
    exact (onRam_lift (Keeps.anything m) D hD).conseq (fun s hs => ⟨trivial, hs⟩)
      (fun _ s hs => hs.2) fun _ _ h => h
  refine .bind (hram _) fun buff => .bind (R := fun _ => D) ?_ fun page => ?_
  · cases buff with
    | some b => exact .pure fun s hs => hs
    | none =>
      refine .read fun t _ => .ite (fun _ => ?_) fun _ => .throw fun _ _ => trivial
      exact .bind (hram _) fun _ => .pure fun s hs => hs
  · refine .bind ((onRam_lift (holds_memset page) D hD).pre fun s hs => ⟨trivial, hs⟩) fun _ => ?_
    refine .read fun t ht => ?_
    rw [ht.2.2]
    refine .bind ((mmapReadNull_bytes page f).pre fun s hs => ⟨hs.1, hs.2.1⟩) fun r => .pre_and ?_
    intro hr
    rw [hr]
    refine .bind (onRam_memory (bytes_storeBytes page _)) fun _ => ?_
    exact .bind (onRam_memory (bytes_memmove mem page _)) fun _ => .modify fun s hs => hs

/-! ## The fault -/

theorem zeros_walkpgdir (v : Word) (d : PgDir) (va : Word) :
    Keeps (fun r => r.Holds v []) ⊤ (walkpgdir d va) := by
  refine .early fun _ => .bind ?_ fun o => ?_
  · refine ⟨fun r hr => ?_⟩
    unfold kalloc
    cases r.freelist <;> exact hr
  · cases o with
    | none => exact .pure _
    | some pg => exact .bind (zeros_memset v pg) fun _ => .pure _

variable {a : Word}

theorem zeros_mapPage (v : Word) (d : PgDir) (ha : Aligned a) (mem prot : Word) :
    Keeps (fun r => r.Holds v []) ⊤ (mapPage d a mem prot) := by
  unfold mapPage
  rw [mappages_page ha]
  refine .bind ?_ fun x => .ite (fun _ => .update (fun r hr => hr) <| .pure _) fun _ => .pure _
  unfold mappagesLoop
  refine .bind (zeros_walkpgdir v d a) fun o => ?_
  cases o with
  | none => exact .pure _
  | some d' => exact .check (fun _ _ => trivial) fun _ => .pure _

/-- A fault of `q` leaves the other processes alone and takes pages from `fl`. -/
structure Framed (q : Fin NPROC) (t : State) (d : PgDir) (fl : List Word) (s : State) : Prop where
  free : s.ram.freelist <:+ fl
  dir : (s.proc q).pgdir = d
  others : ∀ q', q' ≠ q → s.proc q' = t.proc q'

section
variable {d : PgDir} {fl : List Word}

theorem framed_passive : Passive (Framed q t d fl) ⊤ where
  stop _ _ _ _ := trivial
  mem _ _ hs := { hs with }
  nullPage _ hs := { hs with }
  off _ _ _ hs := { hs with }
  inode _ _ hs := { hs with }
  pipe _ _ hs := { hs with }
  ilocks _ _ hs := { hs with }

theorem framed_kalloc : Keeps (Framed q t d fl) ⊤ (onRam kalloc) := by
  refine ⟨fun s hs => ?_⟩
  unfold onRam kalloc
  cases hfl : s.ram.freelist with
  | nil => exact { hs with }
  | cons v l =>
    have hfree := hs.free
    rw [hfl] at hfree
    exact { hs with free := (List.suffix_cons v l).trans hfree }

theorem framed_readFilePage (i : Index) (mem : Word) :
    Keeps (Framed q t d fl) ⊤ (readFilePage q i mem) := by
  have hI : Passive (Framed q t d fl) ⊤ := framed_passive
  refine .bind framed_kalloc fun buff => .bind (hI.bufferPage buff) fun page => ?_
  refine .bind (hI.memset page 0) fun _ => .get fun t _ => .bind (hI.mmapReadNull _) fun r => ?_
  refine .bind (hI.storeBytes page _) fun _ => .bind (hI.memmove mem page) fun _ => ?_
  refine .modify fun s hs => ⟨hs.free, ?_, fun q' hq => ?_⟩
  · rw [← hs.dir]
    simp [State.updDesc, Proc.updDesc]
  · rw [updDesc_proc_of_ne _ _ hq, hs.others q' hq]

end

/-- `q` has touched the page at `a` of the mapping `md`, and the page `mem` was taken for it. -/
structure Touched (q : Fin NPROC) (t : State) (a : Word) (md : MmapDesc) (mem : Word) (s : State) :
    Prop where
  free : ∃ fl, t.ram.freelist = mem :: fl ∧ s.ram.freelist <:+ fl
  others : ∀ q', q' ≠ q → s.proc q' = t.proc q'
  entry : (s.proc q).pgdir.walk a = some (V2P mem ||| (md.prot ||| PTE_U) ||| PTE_P)
  bytes : s.ram.Holds mem (md.initial t.fs)

/-- A page is taken and filled with zeros; nothing else happens in between. -/
structure Taken (t : State) (x : Fin NPROC → Proc) (mem : Word) (fl : List Word) (s : State) : Prop where
  free : s.ram.freelist <:+ fl
  zeros : s.ram.Holds mem []
  proc : s.proc = x
  fs : s.fs = t.fs

section
variable {x : Fin NPROC → Proc} {mem : Word} {fl : List Word}

theorem taken_kalloc : Triple (fun s => s.ram = t.ram ∧ s.proc = x ∧ s.fs = t.fs) (onRam kalloc)
    (fun o s => ∀ mem, o = some mem → ∃ fl, t.ram.freelist = mem :: fl ∧
      s.ram.freelist = fl ∧ s.proc = x ∧ s.fs = t.fs) ⊤ := by
  refine ⟨fun s hs => ?_⟩
  obtain ⟨hram, hproc, hfs⟩ := hs
  unfold onRam kalloc
  rw [hram]
  cases hfl : t.ram.freelist with
  | nil => exact nofun
  | cons v l =>
    rintro mem ⟨⟩
    exact ⟨l, rfl, rfl, hproc, hfs⟩

theorem taken_memset (mem : Word) :
    Triple (fun s => t.ram.freelist = mem :: fl ∧ s.ram.freelist = fl ∧ s.proc = x ∧ s.fs = t.fs)
      (onRam (memset mem 0)) (fun _ s => Taken t x mem fl s ∧ t.ram.freelist = mem :: fl)
      ⊤ := by
  refine ⟨fun s hs => ?_⟩
  obtain ⟨hfl, hfree, hproc, hfs⟩ := hs
  have hzeros := (holds_memset mem).run s.ram trivial
  exact ⟨⟨hfree ▸ List.suffix_refl _, hzeros, hproc, hfs⟩, hfl⟩

variable {a : Word}

theorem taken_mapPage (d : PgDir) (ha : Aligned a) (prot : Word) :
    Triple (Taken t x mem fl) (onRam (mapPage d a mem prot)) (fun r s => Taken t x mem fl s ∧
      (r.1 = true → d.Adds r.2 a (V2P mem ||| (prot ||| PTE_U) ||| PTE_P))) ⊤ := by
  refine ⟨fun s hs => ?_⟩
  have htakes := (takes_mapPage (S := ∅) (d := d) ha mem prot).run s.ram (Takes.refl _ _)
  have hzeros := (zeros_mapPage mem d ha mem prot).run s.ram hs.zeros
  unfold onRam
  cases hr : mapPage d a mem prot s.ram with
  | ok r s' =>
    rw [hr] at htakes hzeros
    exact ⟨{ hs with free := htakes.1.free.trans hs.free, zeros := hzeros }, htakes.2⟩
  | error e s' => trivial

variable {d : PgDir}

theorem framed_fill (i : Index) (md : MmapDesc) :
    Triple (fun s => Framed q t d fl s ∧ s.ram.Holds mem [] ∧ s.fs = t.fs ∧ ((s.proc q).mmaps i).f = md.f)
      (if hasFlag md.flags MAP_ANON then pure () else readFilePage q i mem)
      (fun _ s => Framed q t d fl s ∧ s.ram.Holds mem (md.initial t.fs)) ⊤ := by
  refine .ite (fun h => .pure fun s hs => ⟨hs.1, ?_⟩) fun h => ?_
  · rw [MmapDesc.initial, if_pos h]
    exact hs.2.1
  · have hinit : md.initial t.fs = fileBytes t.fs md.f := by rw [MmapDesc.initial, if_neg h]
    rw [hinit]
    refine Triple.pre ((framed_readFilePage i mem).and (readFilePage_bytes i md.f mem)) fun s hs => ?_
    exact ⟨hs.1, hs.2.2⟩

theorem Framed.touched {md : MmapDesc} {s : State} (hs : Framed q t d fl s)
    (hbytes : s.ram.Holds mem (md.initial t.fs)) (hfl : t.ram.freelist = mem :: fl)
    (hd : d.walk a = some (V2P mem ||| (md.prot ||| PTE_U) ||| PTE_P)) : Touched q t a md mem s :=
  ⟨⟨fl, hfl, hs.free⟩, hs.others, by rw [hs.dir, hd], hbytes⟩

end

theorem touched_nonGuard (i : Index) (a : Word) :
    Triple (fun s => s = t) (allocatePageNonGuard q i a)
      (fun _ s => ∃ mem, Touched q t a ((t.proc q).mmaps i) mem s) ⊤ := by
  have hstart : ∀ s, s = t → s.ram = t.ram ∧ s.proc = t.proc ∧ s.fs = t.fs := by
    rintro _ rfl
    exact ⟨rfl, rfl, rfl⟩
  refine .bindOption (taken_kalloc.pre hstart) (.throw fun _ _ => trivial) fun mem => ?_
  refine .pre (.pre_exists fun fl => ?_) fun s hs => hs mem rfl
  refine .bind (taken_memset mem) fun _ => .pre_and fun hfl => .read fun s hs => ?_
  rw [hs.proc]
  refine .bind (taken_mapPage _ (aligned_pteAddr a) _) fun r => .pre_and fun hr => ?_
  let R : State → Prop := fun s => Framed q t r.2 fl s ∧ s.ram.Holds mem [] ∧ s.fs = t.fs ∧
    ((s.proc q).mmaps i).f = ((t.proc q).mmaps i).f
  refine .update (R := R) (fun s hs => ?_) <| .ite (fun _ => ?_) fun hok => ?_
  · refine ⟨⟨hs.free, by simp, fun q' hq => ?_⟩, hs.zeros, hs.fs, ?_⟩
    · rw [updProc_of_ne _ hq, hs.proc]
    · simp [hs.proc]
  · -- no page table: the process exits
    refine .bind (R := fun _ _ => True) ((Keeps.anything _).pre fun _ _ => trivial) fun _ => ?_
    exact .bind (Keeps.anything _) fun _ => .throw fun _ _ => trivial
  · have hwalk := (hr (by simpa using hok)).here a (vpn_pgRoundDown a).symm
    exact (framed_fill i _).post fun _ s hs => ⟨mem, hs.1.touched hs.2 hfl hwalk⟩

theorem touched_guard (i : Index) (a : Word) :
    Triple (fun s => s = t) (allocatePageGuard q i a)
      (fun _ s => (s.proc q).killed ∧ (s.proc q).pgdir = (t.proc q).pgdir ∨
        ∃ mem, Touched q t a ((t.proc q).mmaps i) mem s)
      ⊤ := by
  unfold allocatePageGuard
  refine .get fun t' ht' => ?_
  subst ht'
  split
  next h =>
    refine .ite (fun _ => .modify fun s hs => .inl (by simp [hs])) fun _ => ?_
    let x := (t'.updDesc q i fun md => { md with guardPage := false }).proc
    refine .update (R := fun s => s.ram = t'.ram ∧ s.proc = x ∧ s.fs = t'.fs) ?_ <|
      .bind taken_kalloc fun o => ?_
    · rintro _ rfl
      exact ⟨rfl, rfl, rfl⟩
    cases o with
    | none => exact .throw fun _ _ => trivial
    | some mem =>
      refine .pre (.pre_exists fun fl => ?_) fun s hs => hs mem rfl
      refine .bind (taken_memset mem) fun _ => .pre_and fun hfl => ?_
      refine .bind (taken_mapPage _ (aligned_pteAddr a) _) fun r => .pre_and fun hr => ?_
      refine .check (fun _ _ => trivial) fun hok => ?_
      have hwalk := (hr (by simpa using hok)).here a (vpn_pgRoundDown a).symm
      let R : State → Prop := fun s => Framed q t' r.2 fl s ∧ s.ram.Holds mem [] ∧ s.fs = t'.fs ∧
        ((s.proc q).mmaps i).f = ((t'.proc q).mmaps i).f
      refine .update (R := R) (fun s hs => ?_) <| .update (R := R) (fun s hs => ?_) ?_
      · refine ⟨⟨hs.free, by simp, fun q' hq => ?_⟩, hs.zeros, hs.fs, ?_⟩
        · rw [updProc_of_ne _ hq, hs.proc]
          exact updDesc_proc_of_ne _ _ hq _
        · simp [hs.proc, x, State.updDesc]
      · obtain ⟨hf, hz, hfs, hfile⟩ := hs
        refine ⟨⟨hf.free, ?_, fun q' hq => ?_⟩, hz, hfs, ?_⟩
        · rw [← hf.dir]
          simp [State.updDesc, Proc.updDesc]
        · rw [updDesc_proc_of_ne _ _ hq, hf.others q' hq]
        · rw [updDesc_mmaps, Function.update_of_ne, hfile]
          exact Fin.ne_of_lt (Nat.lt_succ_self i.val)
      · exact (framed_fill i _).post fun _ s hs => .inr ⟨mem, hs.1.touched hs.2 hfl hwalk⟩
  next => exact .throw fun _ _ => trivial

theorem touched_pageFault (a : Word) :
    Triple (fun s => s = t) (pageFault q a)
      (fun _ s => (s.proc q).killed ∧ (s.proc q).pgdir = (t.proc q).pgdir ∨
        ∃ i mem, findDesc (t.proc q).mmaps a = some i ∧ Touched q t a ((t.proc q).mmaps i) mem s)
      ⊤ := by
  refine .get fun t' ht' => ?_
  subst ht'
  cases findDesc (t'.proc q).mmaps a with
  | none => exact .modify fun s hs => .inl (by simp [hs])
  | some i =>
    refine .ite (fun _ => (touched_guard i a).post fun _ s hs => ?_) fun _ =>
      (touched_nonGuard i a).post fun _ s hs => ?_
    · exact hs.imp_right fun ⟨mem, h⟩ => ⟨i, mem, rfl, h⟩
    · obtain ⟨mem, h⟩ := hs
      exact .inr ⟨i, mem, rfl, h⟩

theorem trap_touched {user : Bool} (h : trap q user a t = .ok () u)
    (ht : (t.proc q).pgdir.access a false false = false) (hu : (u.proc q).pgdir.access a false false) :
    ∃ i mem, findDesc (t.proc q).mmaps a = some i ∧ Touched q t a ((t.proc q).mmaps i) mem u := by
  obtain ⟨⟨⟩, s, hfault, h⟩ := bind_eq_ok.mp h
  obtain rfl : s = u := by
    obtain ⟨_, _, ⟨⟩, h⟩ := bind_eq_ok.mp h
    split at h
    · cases h
    · cases h
      rfl
  obtain ⟨-, hdir⟩ | hpage := (touched_pageFault a).ok rfl hfault
  · rw [hdir, ht] at hu
    cases hu
  · exact hpage

/-- The page that backs the address `a` of a process. -/
def State.backing (s : State) (q : Fin NPROC) (a : Word) : Word :=
  pteAddr ((s.proc q).pgdir.pte (vpn a))

variable {mem : Word} {md : MmapDesc}

section
variable (h : Touched q t a md mem u) (hprot : LowBits md.prot) (hmem : Aligned mem)
include h hprot hmem

theorem Touched.backing : u.backing q a = V2P mem := by
  rw [State.backing, pte_of_walk h.entry]
  exact pteAddr_entry (aligned_V2P.mpr hmem) (lowBits_or hprot (by decide))

theorem Touched.userByte : u.userByte q a = (md.initial t.fs).getD (a &&& 0xFFF#32).toNat 0 := by
  have hlow : (a &&& 0xFFF#32).toNat < 4096 := by
    rw [toNat_and_low]
    exact Nat.mod_lt _ (by decide)
  have hmem' : (u.proc q).pgdir.translate a = mem + (a &&& 0xFFF#32) := by
    have hb := h.backing hprot hmem
    unfold State.backing at hb
    rw [PgDir.translate, hb, P2V_V2P]
  rw [State.userByte, hmem', h.bytes _ (by rwa [mem_pageRange, add_sub_cancel_left]), add_sub_cancel_left]

end

end Xv6
