import Mathlib.Tactic.Abel
import Xv6.Boot
import Xv6.Frame
import Xv6.Lib.RefCount
import Xv6.Ranges

/-!
# References to open files

A file is referenced from the `ofile` tables and from mappings, and `ref` counts the references. The code
changes a table and the count in two steps: `Acc p P D` says that the tables are `P` and that every count is
the number of its entries plus `D`. At the end of an operation `D` is `0`.

Two things go wrong with mappings. `munmap_free` keeps a descriptor whose count is not `1` after its file
was closed; `fork` makes such descriptors. And `deep_copy` calls `filedup` for a mapping without a file.
`RefGuard` excludes these forks, and the faults inside `munmap` that end the process half way.
-/

namespace Xv6

open Function (update update_self update_of_ne update_eq_self)
open Hoare RefCount

variable {p np q : Fin NPROC} {s t : State} {f : Fin NFILE}

/-! ## The tables -/

/-- Where a process can have a reference: a file descriptor or a mapping. -/
abbrev Handle : Type := Fin NOFILE ⊕ Index

def Proc.ptr (x : Proc) : Handle → Option (Fin NFILE) := Sum.elim x.ofile fun i => (x.mmaps i).f

abbrev Slot : Type := Fin NPROC × Handle

def State.ptr (s : State) (x : Slot) : Option (Fin NFILE) := (s.proc x.1).ptr x.2

def Proc.dead (x : Proc) : Prop := x.state = .unused ∨ x.state = .zombie

/-- The references are `P`, and each count is right up to `D`. A mapping that is not valid has no file, one
with a file has the count that lets `munmap_free` give it up, and a process that is gone has no files. -/
structure Acc (p : Fin NPROC) (P : Slot → Option (Fin NFILE)) (D : Fin NFILE → Int) (s : State) : Prop where
  ptr : s.ptr = P
  ref : ∀ f, ((s.fs.file f).ref : Int) = count P f + D f
  idle : ∀ q i, ((s.proc q).mmaps i).valid = false → ((s.proc q).mmaps i).f = none
  one : ∀ q i, ((s.proc q).mmaps i).f ≠ none → ((s.proc q).mmaps i).ref = 1
  gone : ∀ q, (s.proc q).dead → ∀ x, P (q, x) = none
  live : ¬ (s.proc p).dead

/-- Every count is right. -/
def Ready (p : Fin NPROC) (s : State) : Prop := ∃ P, Acc p P 0 s

/-- What holds when an operation stops: the counts are not why, and `exit` can go on from there. -/
def Counted (p : Fin NPROC) (x : Stop) (s : State) : Prop :=
  x.miscount = false ∧ (x = .exit → Ready p s)

variable {P : Slot → Option (Fin NFILE)} {D D' : Fin NFILE → Int}

theorem Acc.congr (h : Acc p P D s) (hD : D = D') : Acc p P D' s := hD ▸ h

theorem Acc.ready (h : Acc p P D s) (hD : D = 0) : Ready p s := ⟨P, h.congr hD⟩

theorem Acc.ofile_eq (h : Acc p P D s) (q : Fin NPROC) (fd : Fin NOFILE) :
    (s.proc q).ofile fd = P (q, .inl fd) := by
  rw [← h.ptr]
  rfl

theorem Acc.f_eq (h : Acc p P D s) (q : Fin NPROC) (i : Index) : ((s.proc q).mmaps i).f = P (q, .inr i) := by
  rw [← h.ptr]
  rfl

/-! ## Changes that leave the references alone -/

/-- The process `y` has the references of `x`. -/
structure SameFiles (x y : Proc) : Prop where
  ofile : y.ofile = x.ofile
  f : ∀ i, (y.mmaps i).f = (x.mmaps i).f
  idle : ∀ i, (y.mmaps i).valid = false → (x.mmaps i).valid = false ∨ (x.mmaps i).f = none
  ref : ∀ i, (x.mmaps i).f ≠ none → (y.mmaps i).ref = (x.mmaps i).ref
  dead : y.dead → x.dead

theorem SameFiles.refl (x : Proc) : SameFiles x x := ⟨rfl, fun _ => rfl, fun _ => .inl, fun _ _ => rfl, id⟩

theorem Acc.same (h : Acc p P D s) (hproc : ∀ q, SameFiles (s.proc q) (t.proc q))
    (hfile : ∀ f, (t.fs.file f).ref = (s.fs.file f).ref) : Acc p P D t where
  ptr := by
    rw [← h.ptr]
    funext ⟨q, x⟩
    cases x with
    | inl fd => exact congrFun (hproc q).ofile fd
    | inr i => exact (hproc q).f i
  ref f := by rw [hfile, h.ref]
  idle q i hv := by
    rw [(hproc q).f]
    exact ((hproc q).idle i hv).elim (h.idle q i) id
  one q i hf := by
    rw [(hproc q).f] at hf
    rw [(hproc q).ref i hf, h.one q i hf]
  gone q hq := h.gone q ((hproc q).dead hq)
  live hq := h.live ((hproc p).dead hq)

theorem Acc.updProc (h : Acc p P D s) (q : Fin NPROC) {g : Proc → Proc}
    (hg : SameFiles (s.proc q) (g (s.proc q))) : Acc p P D (s.updProc q g) := by
  refine h.same (fun q' => ?_) fun _ => rfl
  by_cases hq : q' = q
  · subst hq
    simpa using hg
  · simpa [hq] using SameFiles.refl _

variable {g : MmapDesc → MmapDesc}

theorem SameFiles.updDesc {x : Proc} (i : Index) (hf : (g (x.mmaps i)).f = (x.mmaps i).f)
    (hidle : (g (x.mmaps i)).valid = false → (x.mmaps i).valid = false)
    (href : (x.mmaps i).f ≠ none → (g (x.mmaps i)).ref = (x.mmaps i).ref) : SameFiles x (x.updDesc i g) := by
  refine ⟨rfl, fun j => ?_, fun j hj => ?_, fun j hj => ?_, id⟩
  · by_cases hji : j = i
    · subst hji
      simpa using hf
    · simp [hji]
  · by_cases hji : j = i
    · subst hji
      exact .inl (hidle (by simpa using hj))
    · exact .inl (by simpa [hji] using hj)
  · by_cases hji : j = i
    · subst hji
      simpa using href hj
    · simp [hji]

theorem Acc.updDesc (h : Acc p P D s) (q : Fin NPROC) (i : Index)
    (hf : (g ((s.proc q).mmaps i)).f = ((s.proc q).mmaps i).f)
    (hidle : (g ((s.proc q).mmaps i)).valid = false → ((s.proc q).mmaps i).valid = false)
    (href : ((s.proc q).mmaps i).f ≠ none →
      (g ((s.proc q).mmaps i)).ref = ((s.proc q).mmaps i).ref) : Acc p P D (s.updDesc q i g) :=
  h.updProc q (.updDesc i hf hidle href)

theorem Acc.updFile (h : Acc p P D s) (f : Fin NFILE) {g : File → File}
    (hg : (g (s.fs.file f)).ref = (s.fs.file f).ref) : Acc p P D (s.updFile f g) := by
  refine h.same (fun q => SameFiles.refl _) fun f' => ?_
  by_cases hf : f' = f
  · subst hf
    simpa using hg
  · simp [hf]

theorem acc_passive : Passive (Acc p P D) (Counted p) where
  stop e he s hs := by
    simp only [Stop.plain, Bool.and_eq_true, Bool.not_eq_true', bne_iff_ne] at he
    exact ⟨he.1.1, fun h => absurd h he.1.2⟩
  mem _ _ hs := hs.same (fun _ => SameFiles.refl _) fun _ => rfl
  nullPage _ hs := hs.same (fun _ => SameFiles.refl _) fun _ => rfl
  off _ f _ hs := hs.updFile f rfl
  inode _ _ hs := hs.same (fun _ => SameFiles.refl _) fun _ => rfl
  pipe _ _ hs := hs.same (fun _ => SameFiles.refl _) fun _ => rfl
  ilocks _ _ hs := hs.same (fun _ => SameFiles.refl _) fun _ => rfl

/-- A page fault leaves the references alone: a guard page that grows takes over a slot without a file. -/
theorem acc_deaf : Deaf p (Acc p P 0) (Counted p) where
  toPassive := acc_passive
  exit _ hs := ⟨rfl, fun _ => hs.ready rfl⟩
  ram _ _ hs := hs.same (fun _ => SameFiles.refl _) fun _ => rfl
  pgdir _ _ _ hs := hs.updProc p ⟨rfl, fun _ => rfl, fun _ => .inl, fun _ _ => rfl, id⟩
  killed _ hs := hs.updProc p ⟨rfl, fun _ => rfl, fun _ => .inl, fun _ _ => rfl, id⟩
  page _ i _ hs := hs.updDesc p i rfl id fun _ => rfl
  shrink _ i hs := hs.updDesc p i rfl id fun _ => rfl
  grow _ i hs := hs.updDesc p i rfl nofun fun _ => rfl
  outside _ _ _ := ⟨rfl, nofun⟩

variable {α : Type}

theorem acc_onRam (m : RamM α) [Plain m] : Keeps (Acc p P D) (Counted p) (onRam m) :=
  keeps_onRam m acc_passive.stop fun _ _ hs => hs.same (fun _ => SameFiles.refl _) fun _ => rfl

/-! ## Counting -/

theorem Acc.setRef (h : Acc p P D s) {g : File → File} {d : Int}
    (hg : ((g (s.fs.file f)).ref : Int) = (s.fs.file f).ref + d) :
    Acc p P (fun f' => D f' + d * RefCount.one (some f) f') (s.updFile f g) where
  ptr := h.ptr
  ref f' := by
    by_cases hf : f' = f
    · subst hf
      rw [updFile_self, hg, h.ref, one_self]
      ring
    · rw [updFile_of_ne _ hf, h.ref, one_of_ne hf]
      ring
  idle := h.idle
  one := h.one
  gone := h.gone
  live := h.live

theorem Acc.one_le (h : Acc p P D s) (hf : 1 ≤ count P f + D f) : 1 ≤ (s.fs.file f).ref := by
  have := h.ref f
  omega

theorem acc_filedup (hf : 1 ≤ count P f + D f) :
    Triple (Acc p P D) (filedup f) (fun _ => Acc p P (D + RefCount.one (some f))) (Counted p) := by
  refine .read fun t ht => ?_
  have href : ¬ (t.fs.file f).ref < 1 := by
    have := ht.one_le hf
    omega
  rw [if_neg href]
  refine .modify fun s hs => (hs.setRef (d := 1) ?_).congr ?_
  · push_cast
    rfl
  · funext f'
    simp

theorem acc_fileclose (hf : 1 ≤ count P f + D f) :
    Triple (Acc p P D) (fileclose f) (fun _ => Acc p P (D - RefCount.one (some f))) (Counted p) := by
  have hI : ∀ {D}, Passive (Acc p P D) (Counted p) := acc_passive
  have hdrop : ∀ {s} {g : File → File}, Acc p P D s → ((g (s.fs.file f)).ref : Int) = (s.fs.file f).ref - 1 →
      Acc p P (D - RefCount.one (some f)) (s.updFile f g) := by
    intro s g hs hg
    refine (hs.setRef (d := -1) (by rw [hg]; ring)).congr ?_
    funext f'
    simp only [Pi.sub_apply]
    ring
  refine .get fun t ht => ?_
  have hone := ht.one_le hf
  dsimp only
  rw [if_neg (by omega)]
  refine .ite (fun hlt => .modify ?_) fun hlt => ?_
  · rintro _ rfl
    refine hdrop ht ?_
    dsimp only
    omega
  refine .update (R := Acc p P (D - RefCount.one (some f))) ?_ ?_
  · rintro _ rfl
    refine hdrop ht ?_
    dsimp only
    omega
  cases (t.fs.file f).type with
  | none => exact .pure fun s hs => hs
  | pipe => exact acc_passive.pipeclose _ _ (acc_onRam _)
  | inode => exact .bind (Keeps.pure _) fun _ => .bind (hI.iput _) fun _ => hI.wakeup

theorem acc_filealloc : Triple (Acc p P D) filealloc
    (fun o s => match o with
      | none => Acc p P D s
      | some f => Acc p P (D + RefCount.one (some f)) s ∧ count P f + D f = 0) (Counted p) := by
  refine .get fun t ht => ?_
  cases hfind : (List.finRange NFILE).find? fun f => (t.fs.file f).ref == 0 with
  | none => exact .pure fun s hs => hs ▸ ht
  | some f =>
    have hzero : (t.fs.file f).ref = 0 := by simpa using List.find?_some hfind
    refine .update (R := fun s => Acc p P (D + RefCount.one (some f)) s) ?_ <| .pure ?_
    · rintro _ rfl
      refine (ht.setRef (d := 1) (by simp [hzero])).congr ?_
      funext f'
      simp
    · intro s hs
      have := ht.ref f
      exact ⟨hs, by omega⟩

/-! ## Storing and dropping references -/

variable {o : Option (Fin NFILE)}

section
variable (h : Acc p P D s) (hq : ¬ (s.proc q).dead)
include h hq

theorem Acc.set {x : Handle} {g : Proc → Proc} (hstate : (g (s.proc q)).state = (s.proc q).state)
    (hptr : (s.updProc q g).ptr = update s.ptr (q, x) o)
    (hidle : ∀ i, ((g (s.proc q)).mmaps i).valid = false → ((g (s.proc q)).mmaps i).f = none)
    (hone : ∀ i, ((g (s.proc q)).mmaps i).f ≠ none → ((g (s.proc q)).mmaps i).ref = 1) :
    Acc p (update P (q, x) o) (D + RefCount.one (P (q, x)) - RefCount.one o) (s.updProc q g) := by
  have hdead : ∀ q', ((s.updProc q g).proc q').dead → q' ≠ q ∧ (s.proc q').dead := by
    intro q' hd
    by_cases hq' : q' = q
    · subst hq'
      rw [updProc_self, Proc.dead, hstate] at hd
      exact absurd hd hq
    · rw [updProc_of_ne _ hq'] at hd
      exact ⟨hq', hd⟩
  refine ⟨by rw [hptr, h.ptr], fun f => ?_, fun q' => ?_, fun q' => ?_, fun q' hd y => ?_, fun hd => ?_⟩
  · rw [count_update, updProc_fs, h.ref]
    simp only [Pi.add_apply, Pi.sub_apply]
    ring
  · by_cases hq' : q' = q
    · subst hq'
      simpa using hidle
    · simpa [hq'] using h.idle q'
  · by_cases hq' : q' = q
    · subst hq'
      simpa using hone
    · simpa [hq'] using h.one q'
  · obtain ⟨hq', hd⟩ := hdead q' hd
    rw [update_of_ne (by simp [hq']), h.gone q' hd]
  · exact h.live (hdead p hd).2

theorem Acc.setOfile (fd : Fin NOFILE) (o : Option (Fin NFILE)) : Acc p (update P (q, .inl fd) o)
      (D + RefCount.one (P (q, .inl fd)) - RefCount.one o)
      (s.updProc q fun x => { x with ofile := update x.ofile fd o }) := by
  refine h.set hq rfl ?_ (h.idle q) (h.one q)
  funext ⟨q', x⟩
  by_cases hq' : q' = q
  · subst hq'
    cases x with
    | inl fd' =>
      by_cases hfd : fd' = fd
      · subst hfd
        simp [State.ptr, Proc.ptr]
      · simp [State.ptr, Proc.ptr, hfd]
    | inr i => simp [State.ptr, Proc.ptr]
  · cases x <;> simp [State.ptr, Proc.ptr, hq']

theorem Acc.setF (i : Index) (hf : (g ((s.proc q).mmaps i)).f = o)
    (hidle : (g ((s.proc q).mmaps i)).valid = false → o = none)
    (hone : o ≠ none → (g ((s.proc q).mmaps i)).ref = 1) : Acc p (update P (q, .inr i) o)
      (D + RefCount.one (P (q, .inr i)) - RefCount.one o) (s.updDesc q i g) := by
  refine h.set hq rfl ?_ (fun j => ?_) fun j => ?_
  · funext ⟨q', x⟩
    by_cases hq' : q' = q
    · subst hq'
      cases x with
      | inl fd => simp [State.ptr, Proc.ptr, Proc.updDesc]
      | inr j =>
        by_cases hj : j = i
        · subst hj
          simpa [State.ptr, Proc.ptr] using hf
        · simp [State.ptr, Proc.ptr, hj]
    · cases x <;> simp [State.ptr, Proc.ptr, hq']
  · by_cases hj : j = i
    · subst hj
      simpa [hf] using hidle
    · simpa [hj] using h.idle q j
  · by_cases hj : j = i
    · subst hj
      simpa [hf] using hone
    · simpa [hj] using h.one q j

end

/-! ## Opening and closing -/

/-- A program that ends with the counts right, whatever the references are, keeps them right. -/
theorem acc_ready {m : K α} (h : ∀ P, Triple (Acc p P 0) m (fun _ => Ready p) (Counted p)) :
    Keeps (Ready p) (Counted p) m := .pre_exists h

theorem ready_deaf : Deaf p (Ready p) (Counted p) where
  stop e he _ := fun ⟨_, h⟩ => acc_deaf.stop e he _ h
  mem _ g := fun ⟨P, h⟩ => ⟨P, acc_deaf.mem _ g h⟩
  nullPage _ := fun ⟨P, h⟩ => ⟨P, acc_deaf.nullPage _ h⟩
  off _ f o := fun ⟨P, h⟩ => ⟨P, acc_deaf.off _ f o h⟩
  inode _ g := fun ⟨P, h⟩ => ⟨P, acc_deaf.inode _ g h⟩
  pipe _ g := fun ⟨P, h⟩ => ⟨P, acc_deaf.pipe _ g h⟩
  ilocks _ l := fun ⟨P, h⟩ => ⟨P, acc_deaf.ilocks _ l h⟩
  exit _ := fun ⟨_, h⟩ => acc_deaf.exit _ h
  ram _ r := fun ⟨P, h⟩ => ⟨P, acc_deaf.ram _ r h⟩
  pgdir _ d hd := fun ⟨P, h⟩ => ⟨P, acc_deaf.pgdir _ d hd h⟩
  killed _ := fun ⟨P, h⟩ => ⟨P, acc_deaf.killed _ h⟩
  page _ i w := fun ⟨P, h⟩ => ⟨P, acc_deaf.page _ i w h⟩
  shrink _ i := fun ⟨P, h⟩ => ⟨P, acc_deaf.shrink _ i h⟩
  grow _ i := fun ⟨P, h⟩ => ⟨P, acc_deaf.grow _ i h⟩
  outside _ k := fun ⟨_, h⟩ => acc_deaf.outside _ k h

theorem acc_fdalloc (f : Fin NFILE) : Triple (Acc p P D) (fdalloc p f)
    (fun o s => match o with
      | none => Acc p P D s
      | some fd => Acc p (update P (p, .inl fd) (some f)) (D - RefCount.one (some f)) s ∧
        P (p, .inl fd) = none)
    (Counted p) := by
  refine .get fun t ht => ?_
  cases hfind : (List.finRange NOFILE).find? fun fd => ((t.proc p).ofile fd).isNone with
  | none => exact .pure fun s hs => hs ▸ ht
  | some fd =>
    have hfree : P (p, .inl fd) = none := by
      rw [← ht.ofile_eq]
      simpa using List.find?_some hfind
    refine .update (R := Acc p (update P (p, .inl fd) (some f))
      (D - RefCount.one (some f))) ?_ <| .pure fun s hs => ⟨hs, hfree⟩
    rintro _ rfl
    refine (ht.setOfile ht.live fd (some f)).congr ?_
    rw [hfree, one_none, add_zero]

theorem acc_openInode (n : Nat) (omode : Word) : Keeps (Ready p) (Counted p) (openInode p n omode) := by
  refine acc_ready fun P => .bind acc_filealloc fun o => ?_
  have hI : Passive (Ready p) (Counted p) := ready_deaf.toPassive
  have hfail : Keeps (Ready p) (Counted p) (do
      iput n
      endOp
      pure (-1) : K Word) :=
    .bind (hI.iput n) fun _ => .bind hI.wakeup fun _ => .pure _
  cases o with
  | none => exact hfail.pre fun s hs => hs.ready rfl
  | some f =>
    refine .pre_and fun hzero => .bind (acc_fdalloc f) fun o => ?_
    cases o with
    | none =>
      refine .bind (acc_fileclose ?_) fun _ => hfail.pre fun s hs => hs.ready ?_
      · simp only [Pi.add_apply, one_self]
        omega
      · simp
    | some fd =>
      refine .bind (R := fun _ => Ready p) (hI.wakeup.pre fun s hs => hs.1.ready (by simp)) fun _ => ?_
      refine .update (R := Ready p) (fun s hs => ?_) <| .pure fun s hs => hs
      obtain ⟨P', hs⟩ := hs
      exact ⟨P', hs.updFile f rfl⟩

theorem Acc.argfd (h : Acc p P D s) {fd : Word} (hf : argfd (s.proc p) fd = some f) :
    ∃ n, P (p, .inl n) = some f := by
  unfold Xv6.argfd at hf
  split at hf
  next hfd => exact ⟨⟨fd.toNat, hfd⟩, by rw [← h.ofile_eq, hf]⟩
  next => cases hf

theorem acc_sysDup (fd : Word) : Keeps (Ready p) (Counted p) (sysDup p fd) := by
  refine acc_ready fun P => .read fun t ht => ?_
  cases hfd : argfd (t.proc p) fd with
  | none => exact .pure fun s hs => hs.ready rfl
  | some f =>
    obtain ⟨n, hn⟩ := ht.argfd hfd
    have hpos := count_pos hn
    refine .bind (acc_fdalloc f) fun o => ?_
    cases o with
    | none => exact .pure fun s hs => hs.ready rfl
    | some fd' =>
      refine .pre_and fun hfree => .bind (acc_filedup ?_) fun _ => .pure fun s hs => hs.ready (by simp)
      rw [count_update, hfree]
      simp only [Pi.sub_apply, Pi.zero_apply, one_none, one_self]
      omega

theorem acc_sysClose (fd : Word) : Keeps (Ready p) (Counted p) (sysClose p fd) := by
  unfold sysClose
  refine acc_ready fun P => .get fun t ht => ?_
  split
  next h =>
    cases hfd : (t.proc p).ofile ⟨fd.toNat, h⟩ with
    | none => exact .pure fun s hs => hs ▸ ht.ready rfl
    | some f =>
      have hP : P (p, .inl ⟨fd.toNat, h⟩) = some f := by rw [← ht.ofile_eq, hfd]
      refine .update (R := Acc p (update P (p, .inl ⟨fd.toNat, h⟩) none)
        (RefCount.one (some f))) ?_ ?_
      · rintro _ rfl
        refine (ht.setOfile ht.live _ none).congr ?_
        simp [hP]
      · refine .bind (acc_fileclose ?_) fun _ => .pure fun s hs => hs.ready (sub_self _)
        rw [one_self]
        omega
  next => exact .pure fun s hs => hs ▸ ht.ready rfl

theorem acc_pipealloc : Triple (Acc p P 0) pipealloc
    (fun o s => match o with
      | none => Acc p P 0 s
      | some (rf, wf) => Acc p P (one (some rf) + one (some wf)) s) (Counted p) := by
  refine .bindOption acc_filealloc (.pure fun s hs => hs) fun f0 => ?_
  refine .pre_and fun hzero => .bind acc_filealloc fun o => ?_
  have hclose : 1 ≤ count P f0 + ((0 : Fin NFILE → Int) + one (some f0)) f0 := by
    simp only [Pi.add_apply, Pi.zero_apply, one_self]
    omega
  cases o with
  | none =>
    refine .bind (acc_fileclose hclose) fun _ => .pure fun s hs => hs.congr ?_
    simp
  | some f1 =>
    have hnonneg := one_nonneg (some f1) f0
    refine .pre_and fun _ => .bind (acc_onRam kalloc) fun o => ?_
    cases o with
    | none =>
      refine .bind (acc_fileclose ?_) fun _ => .bind (acc_fileclose ?_) fun _ =>
        .pure fun s hs => hs.congr ?_
      · simp only [Pi.add_apply, Pi.zero_apply, one_self]
        omega
      · simp only [Pi.add_apply, Pi.sub_apply, Pi.zero_apply, one_self]
        omega
      · abel
    | some pg =>
      let D2 := (0 : Fin NFILE → Int) + one (some f0) + one (some f1)
      refine .update (R := Acc p P D2) (fun s hs => acc_passive.pipe s _ hs) ?_
      refine .update (R := Acc p P D2) (fun s hs => hs.updFile f0 rfl) ?_
      refine .update (R := Acc p P D2) (fun s hs => hs.updFile f1 rfl) ?_
      exact .pure fun s hs => hs.congr (by simp [D2])

theorem acc_sysPipe : Keeps (Ready p) (Counted p) (sysPipe p) := by
  refine acc_ready fun P => .bindOption acc_pipealloc (.pure fun s hs => hs.ready rfl) fun fs => ?_
  obtain ⟨rf, wf⟩ := fs
  have hnonneg := one_nonneg (some wf) rf
  -- both files are closed again, from any tables
  have hclose : ∀ P', Triple (Acc p P' (RefCount.one (some rf) + RefCount.one (some wf))) (do
      fileclose rf
      fileclose wf
      pure (-1) : K Word) (fun _ => Ready p) (Counted p) := by
    intro P'
    refine .bind (acc_fileclose ?_) fun _ => .bind (acc_fileclose ?_) fun _ =>
      .pure fun s hs => hs.ready (by abel)
    · simp only [Pi.add_apply, one_self]
      omega
    · simp only [Pi.add_apply, Pi.sub_apply, one_self]
      omega
  refine .bindOption (acc_fdalloc rf) (hclose P) fun fd0 => ?_
  refine .pre_and fun _ => .bind (acc_fdalloc wf) fun o => ?_
  cases o with
  | none =>
    refine .update (R := Acc p _ (RefCount.one (some rf) + RefCount.one (some wf)))
      (fun s hs => (hs.setOfile hs.live fd0 none).congr ?_) <| hclose _
    rw [update_self, one_none]
    abel
  | some fd1 => exact .pure fun s hs => hs.1.ready (by abel)

theorem Acc.claim (h : Acc p P D s) {i : Index} (hidle : ((s.proc q).mmaps i).valid = false)
    (hf : (g ((s.proc q).mmaps i)).f = ((s.proc q).mmaps i).f) : Acc p P D (s.updDesc q i g) :=
  h.updDesc q i hf (fun _ => hidle) fun hne => absurd (h.idle q i hidle) hne

theorem acc_mmapFill (a : MmapArgs) (last : Nat) (js : List Index) (va : Word) :
    Keeps (Ready p) (Counted p) (mmapFill p a last js va) := by
  induction js generalizing va with
  | nil => exact .pure _
  | cons j js ih =>
    refine acc_ready fun P => ?_
    unfold mmapFill
    refine .get fun t ht => .ite (fun _ => (ih va).pre fun s hs => hs ▸ ht.ready rfl) fun hinv => ?_
    replace hinv : ((t.proc p).mmaps j).valid = false := by simpa using hinv
    have hP : P (p, .inr j) = none := by rw [← ht.f_eq, ht.idle p j hinv]
    let claimed : (Fin NPROC → Proc) → Prop := fun x => ((x p).mmaps j).valid ∧ ((x p).mmaps j).ref = 1
    refine .update (R := fun s => Acc p P 0 s ∧ claimed s.proc) ?_ ?_
    · rintro _ rfl
      refine ⟨ht.claim hinv rfl, ?_⟩
      simp [claimed, State.updDesc, MmapDesc.claim]
    refine .ite (fun _ => ?_) fun _ => ?_
    · refine .update (R := Ready p) (fun s hs => ⟨P, ?_⟩) <| ih _
      exact hs.1.updDesc p j (by rw [hs.1.f_eq, hP]) id fun _ => rfl
    · cases hfd : argfd (t.proc p) a.fd with
      | none => exact .pure fun s hs => hs.1.ready rfl
      | some f =>
        obtain ⟨n, hn⟩ := ht.argfd hfd
        have hpos := count_pos hn
        refine .bind ((acc_filedup ?_).frame fun s b s' hs h => filedup_proc h ▸ hs) fun _ => ?_
        · simp only [Pi.zero_apply]
          omega
        refine .update (R := Ready p) (fun s hs => ?_) <| ih _
        obtain ⟨hs, hvalid, href⟩ := hs
        refine (hs.setF hs.live j rfl (fun hv => ?_) fun _ => href).ready (by simp [hP])
        exact absurd hvalid (Bool.eq_false_iff.mp hv)

theorem acc_sysMmap (args : Option MmapArgs) : Keeps (Ready p) (Counted p) (sysMmap p args) := by
  refine ready_deaf.toPassive.sysMmap (fun a _ => acc_mmapFill a) fun s va hs => ?_
  obtain ⟨P, hs⟩ := hs
  exact ⟨P, hs.same (fun _ => SameFiles.refl _) fun _ => rfl⟩

/-! ## `munmap`

All the files are closed first, and then the mappings are given up. In between, the counts lag behind by
what the mappings in the list point to. -/

theorem fileclose_proc (x : Fin NPROC → Proc) (f : Fin NFILE) :
    Keeps (fun s => s.proc = x) (fun _ _ => True) (fileclose f) := by
  refine (passive_of_proc (· = x)).fileclose (fun _ _ => trivial) (fun _ _ _ _ _ hs => hs) ?_ f
  intro s f pg hs _
  exact onRam_proc (· = x) _

theorem acc_closeDesc {C : State → Prop} {F : Stop → State → Prop} (hC : Passive C F)
    (hclose : ∀ f, Keeps C F (fileclose f)) (i : Index)
    (hcount : ∀ f, P (p, .inr i) = some f → 1 ≤ count P f + D f)
    (htouch : ∀ s, Acc p P D s ∧ C s → ((s.proc p).mmaps i).f ≠ none →
      hasFlag ((s.proc p).mmaps i).flags MAP_PRIVATE = false →
      ∀ y, (y - ((s.proc p).mmaps i).virtualAddress).toNat < 4096 →
        Keeps (fun s => Acc p P D s ∧ C s) (Counted p) (touch p y)) :
    Triple (fun s => Acc p P D s ∧ C s) (closeDesc p i)
      (fun _ s => Acc p P (D - one (P (p, .inr i))) s ∧ C s) (Counted p) := by
  have hI : Passive (fun s => Acc p P D s ∧ C s) (Counted p) := acc_passive.and hC
  refine .read fun t ht => ?_
  dsimp only
  cases hf : ((t.proc p).mmaps i).f with
  | none =>
    have hP : P (p, .inr i) = none := by rw [← ht.1.f_eq, hf]
    exact .pure fun s hs => ⟨hs.1.congr (by simp [hP]), hs.2⟩
  | some f =>
    have hP : P (p, .inr i) = some f := by rw [← ht.1.f_eq, hf]
    rw [hP]
    refine .bind (R := fun _ s => Acc p P D s ∧ C s)
      (hI.syncDesc f _ fun hpriv => htouch t ht (by simp [hf]) hpriv) fun _ => ?_
    exact (acc_fileclose (hcount f hP)).and (hclose f)

theorem acc_munmapFree (i : Index) : Triple (Acc p P D) (munmapFree p i)
    (fun _ => Acc p (update P (p, .inr i) none) (D + RefCount.one (P (p, .inr i)))) (Counted p) := by
  have hsame : ∀ {s}, Acc p P D s → P (p, .inr i) = none →
      Acc p (update P (p, .inr i) none) (D + RefCount.one (P (p, .inr i))) s := by
    intro s hs hP
    rw [hP, one_none, add_zero, ← hP, update_eq_self]
    exact hs
  refine .get fun t ht => ?_
  dsimp only
  refine .ite (fun hinv => .pure ?_) fun _ => .ite (fun href => .modify ?_) fun href => ?_
  · rintro _ rfl
    exact hsame ht (by rw [← ht.f_eq, ht.idle p i (by simpa using hinv)])
  · have hf : ((t.proc p).mmaps i).f = none := by
      by_contra hf
      exact href (by rw [ht.one p i hf]; rfl)
    rintro _ rfl
    exact hsame (ht.updDesc p i rfl id fun hne => absurd hf hne) (by rw [← ht.f_eq, hf])
  · let R := Acc p (update P (p, .inr i) none) (D + RefCount.one (P (p, .inr i)))
    refine .update (R := R) ?_ ?_
    · rintro _ rfl
      have hset := ht.setF (g := MmapDesc.cleared) ht.live i rfl (fun _ => rfl) fun h => absurd rfl h
      exact hset.congr (by simp [MmapDesc.cleared])
    refine .ite (fun _ => .pure fun s hs => hs) fun _ => .bind (acc_onRam _) fun _ => ?_
    exact .modify fun s hs => hs.updDesc p i rfl id fun _ => rfl

/-- The slots of the mappings in a list. -/
def mapSlots (p : Fin NPROC) (l : List Index) : List Slot := l.map fun i => (p, .inr i)

variable {l : List Index}

theorem nodup_mapSlots (hl : l.Nodup) : (mapSlots p l).Nodup :=
  hl.map fun i j hij => by simpa using hij

/-- Closing the files of a list of mappings, all of whose pages are there if they are written back. -/
theorem acc_closeAll (x : Fin NPROC → Proc) (l : List Index)
    (hle : ∀ f, tally P (mapSlots p l) f ≤ count P f + D f)
    (hback : ∀ i ∈ l, ((x p).mmaps i).f ≠ none → hasFlag ((x p).mmaps i).flags MAP_PRIVATE = false →
      ∀ y ∈ ((x p).mmaps i).range, (x p).pgdir.access y false false) :
    Triple (fun s => Acc p P D s ∧ s.proc = x) (l.forM (closeDesc p))
      (fun _ s => Acc p P (D - tally P (mapSlots p l)) s ∧ s.proc = x) (Counted p) := by
  induction l generalizing D with
  | nil => exact .pure fun s hs => ⟨hs.1.congr (by simp [mapSlots]), hs.2⟩
  | cons i l ih =>
    have hcons : tally P (mapSlots p (i :: l)) =
        one (P (p, .inr i)) + tally P (mapSlots p l) := tally_cons _ _ _
    have hclose := acc_closeDesc (p := p) (P := P) (D := D) (passive_of_proc (· = x))
      (fileclose_proc x) i (fun f hf => ?_) ?_
    · refine .bind hclose fun _ => (ih (fun f => ?_) fun j hj => hback j (List.mem_cons_of_mem _ hj)).post ?_
      · have := hle f
        rw [hcons] at this
        simp only [Pi.add_apply, Pi.sub_apply] at this ⊢
        omega
      · intro _ s hs
        exact ⟨hs.1.congr (by rw [hcons]; abel), hs.2⟩
    · have := hle f
      have hnonneg := tally_nonneg P (mapSlots p l) f
      rw [hcons, hf] at this
      simp only [Pi.add_apply, one_self] at this
      omega
    · rintro s ⟨-, rfl⟩ hf hpriv y hy
      refine Keeps.get fun u hu => ?_
      rw [if_pos (by rw [hu.2]; exact hback i List.mem_cons_self hf hpriv y hy)]
      exact .pure _

theorem acc_freeAll (hl : l.Nodup) :
    Triple (Acc p P D) (l.forM (munmapFree p))
      (fun _ s => ∃ P', Acc p P' (D + tally P (mapSlots p l)) s) (Counted p) := by
  induction l generalizing P D with
  | nil => exact .pure fun s hs => ⟨P, hs.congr (by simp [mapSlots])⟩
  | cons i l ih =>
    obtain ⟨hi, hl⟩ := List.nodup_cons.mp hl
    refine .bind (acc_munmapFree i) fun _ => (ih hl).post fun _ s hs => hs.imp fun P' hs => hs.congr ?_
    have hcons : tally P (mapSlots p (i :: l)) =
        one (P (p, .inr i)) + tally P (mapSlots p l) := tally_cons _ _ _
    rw [hcons, tally_update _ _ (by simpa [mapSlots] using hi)]
    abel

/-- Every page that `munmap` writes back is in memory. -/
def BackPresent (q : Proc) (l : List Index) : Prop :=
  ∀ i ∈ l, (q.mmaps i).f ≠ none → hasFlag (q.mmaps i).flags MAP_PRIVATE = false →
    ∀ y ∈ (q.mmaps i).range, q.pgdir.access y false false

theorem acc_sysMunmap (ht : Ready p t) {addr length : Word}
    (hback : ∀ visits, pagesBelow (length + addr) (2 ^ 20 + 1) addr = some visits →
      BackPresent (t.proc p) (toFree (t.proc p).mmaps visits)) :
    Triple (fun s => s = t) (sysMunmap p (some (addr, length))) (fun _ => Ready p) (Counted p) := by
  obtain ⟨P, ht⟩ := ht
  unfold sysMunmap
  refine .ite (fun _ => .pure fun s hs => hs ▸ ht.ready rfl) fun _ => ?_
  cases hvisits : pagesBelow (length + addr) (2 ^ 20 + 1) addr with
  | none => exact .throw fun s hs => acc_passive.stop _ rfl s (hs ▸ ht)
  | some visits =>
    refine .get fun s hs => ?_
    obtain rfl := hs
    have hnodup := nodup_toFree (s.proc p).mmaps hvisits
    have hI : Passive (fun u => Acc p P 0 u ∧ u.proc = s.proc) (Counted p) :=
      acc_passive.and (passive_of_proc (· = s.proc))
    refine .bind (R := fun _ u => Acc p P 0 u ∧ u.proc = s.proc)
      ((hI.resetFirst _).pre ?_) fun _ => ?_
    · rintro _ rfl
      exact ⟨ht, rfl⟩
    refine .bind (acc_closeAll s.proc _ (fun f => ?_) (hback visits hvisits)) fun _ => ?_
    · rw [Pi.zero_apply, add_zero]
      exact tally_le_count P (nodup_mapSlots hnodup) f
    refine .bind ((acc_freeAll hnodup).pre fun u hu => hu.1) fun _ => .pure ?_
    rintro u ⟨P', hu⟩
    exact hu.ready (by simp)

end Xv6
