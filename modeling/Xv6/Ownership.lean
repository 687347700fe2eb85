import Xv6.Frame
import Xv6.Paging

/-!
# Who holds which page: the kernel

Every allocated page belongs to a kernel stack, to a page directory or to the buffer of a mapping. `Owned`
says that the books are in order for the whole kernel, with a set `hand` of pages that the running function
has taken and not stored yet.

A `prot` argument with high bits makes an entry name a page that nobody gave to the process, and `copy_maps`
makes two owners of a page that it maps into the child. `OwnGuard` excludes these two, and `pipe`, whose
buffers are pages of the allocator too.
-/

namespace Xv6

open Hoare

variable {e k : Word} {p : Fin NPROC} {hand : Set Word} {s t : State} {mem : Word}

/-! ## The owners -/

inductive Owner where
  | kstack (p : Fin NPROC)
  /-- `mmaps[i].page`. -/
  | buf (p : Fin NPROC) (i : Index)
  | pg (p : Fin NPROC) (o : PgOwner)

/-- The process has a page directory of its own. `wait` frees the directory but leaves the pointer, and
`allocproc` does not touch it. -/
def Proc.hasVm (q : Proc) : Bool := q.state != .unused && q.state != .embryo

/-- A pointer that is null where there is no page. -/
def pageOf (v : Word) : Option Word := if v = 0 then none else some v

variable {v : Word} {r : Ram} {d : PgDir} {i : Index}
variable {w : Word}

theorem pageOf_eq_some : pageOf v = some w ↔ v ≠ 0 ∧ v = w := by
  unfold pageOf
  split <;> simp_all

def State.holds (s : State) : Owner → Option Word
  | .kstack p => pageOf (s.proc p).kstack
  | .buf p i => pageOf ((s.proc p).mmaps i).page
  | .pg p o => if (s.proc p).hasVm then (s.proc p).pgdir.holds o else none

/-- The process that the owner belongs to. -/
def Owner.proc : Owner → Fin NPROC
  | .kstack p | .buf p _ | .pg p _ => p

theorem holds_updProc {o : Owner} {g : Proc → Proc} (h : o.proc ≠ p) : (s.updProc p g).holds o = s.holds o := by
  have hproc : (s.updProc p g).proc o.proc = s.proc o.proc := by simp [h]
  cases o <;> rw [Owner.proc] at hproc <;> simp only [State.holds, hproc]

/-- The owners without the page directory of `p`. -/
def State.holdsBut (s : State) (p : Fin NPROC) : Owner → Option Word
  | .pg q o => if q = p then none else s.holds (.pg q o)
  | o => s.holds o

theorem holdsBut_eq_some {o : Owner} : s.holdsBut p o = some w ↔ s.holds o = some w ∧ ∀ i, o ≠ .pg p i := by
  cases o with
  | kstack q | buf q i => simp [State.holdsBut]
  | pg q o =>
    by_cases hq : q = p <;> simp [State.holdsBut, hq]

theorem Books.split (hb : Books e k s.holds hand r) (hvm : (s.proc p).hasVm) :
    Books e k (Sum.elim (s.holdsBut p) (s.proc p).pgdir.holds) hand r := by
  refine hb.reindex (Sum.elim id (Owner.pg p)) ?_ ?_
  · rintro (o | o) (o' | o') w h1 h2 hf
    · exact congrArg _ hf
    · cases hf
      simp [State.holdsBut] at h1
    · cases hf
      simp [State.holdsBut] at h2
    · cases hf
      rfl
  · rintro (o | o) w ho
    · exact (holdsBut_eq_some.mp ho).1
    · simpa [State.holds, hvm] using ho

theorem Books.join (hb : Books e k (Sum.elim (s.holdsBut p) d.holds) hand r) :
    Books e k (s.updProc p fun q => { q with pgdir := d }).holds hand r := by
  refine hb.reindex (fun
    | .pg q o => if q = p then .inr o else .inl (.pg q o)
    | o => .inl o) ?_ ?_
  · rintro o o' w - - hf
    cases o <;> cases o' <;> simp only at hf
    case pg.pg q o q' o' =>
      split at hf <;> split at hf <;> simp_all
    all_goals (try split at hf) <;> simp_all
  · rintro o w ho
    by_cases hq : o.proc = p
    · subst hq
      cases o with
      | kstack q | buf q i => simpa [State.holdsBut, State.holds, Owner.proc] using ho
      | pg q o =>
        simp only [State.holds, Owner.proc, updProc_self] at ho
        split at ho
        · simpa [Owner.proc] using ho
        · cases ho
    · rw [holds_updProc hq] at ho
      cases o with
      | kstack q | buf q i => exact ho
      | pg q o =>
        have hqp : q ≠ p := hq
        simpa [State.holdsBut, hqp] using ho

/-- The processes have the same pages. -/
structure SamePages (q q' : Proc) : Prop where
  kstack : q'.kstack = q.kstack
  pgdir : q'.pgdir = q.pgdir
  vm : q'.hasVm = q.hasVm
  page : ∀ i, (q'.mmaps i).page = (q.mmaps i).page

theorem SamePages.refl (q : Proc) : SamePages q q := ⟨rfl, rfl, rfl, fun _ => rfl⟩

theorem holds_congr (h : ∀ q, SamePages (s.proc q) (t.proc q)) : t.holds = s.holds := by
  funext o
  cases o with
  | kstack q => simp only [State.holds, (h q).kstack]
  | buf q i => simp only [State.holds, (h q).page]
  | pg q o => simp only [State.holds, (h q).vm, (h q).pgdir]

/-! ## The invariant -/

/-- The books are in order, and nothing that user code chose can get them out of order later. -/
structure Owned (e k : Word) (hand : Set Word) (s : State) : Prop where
  books : Books e k s.holds hand s.ram
  /-- A process that has memory has a kernel stack. -/
  kstack : ∀ q, (s.proc q).hasVm → (s.proc q).kstack ≠ 0
  prot : ∀ q i, LowBits ((s.proc q).mmaps i).prot
  noPipe : ∀ f, (s.fs.file f).type ≠ .pipe

/-- The invariant while `p` runs. -/
structure Active (e k : Word) (p : Fin NPROC) (hand : Set Word) (s : State) : Prop
    extends Owned e k hand s where
  vm : (s.proc p).hasVm

/-- When the operation of `p` does not return: what was freed was allocated, and if `p` has called
`exit` the books are still in order. -/
def Halted (e k : Word) (p : Fin NPROC) (x : Stop) (s : State) : Prop :=
  s.ram.Freed ∧ (x = .exit → Active e k p ∅ s)

theorem Active.halted (h : Active e k p hand s) (x : Stop) : Halted e k p x s :=
  ⟨h.books.freed, fun _ =>
    { h with books := h.books.drop (Set.empty_subset hand) }⟩

theorem Owned.congr (h : Owned e k hand s) (hram : Books e k s.holds hand t.ram)
    (hproc : ∀ q, SamePages (s.proc q) (t.proc q)) (hprot : ∀ q i, LowBits ((t.proc q).mmaps i).prot)
    (hfile : ∀ f, (t.fs.file f).type ≠ .pipe) : Owned e k hand t where
  books := by rwa [holds_congr hproc]
  kstack q hq := by
    rw [(hproc q).kstack]
    exact h.kstack q (by rwa [← (hproc q).vm])
  prot := hprot
  noPipe := hfile

variable {hand' : Set Word} {g : Proc → Proc}

theorem Owned.updProc (h : Owned e k hand s) (q : Fin NPROC) (hb : Books e k (s.updProc q g).holds hand' r)
    (hkstack : (g (s.proc q)).hasVm → (g (s.proc q)).kstack ≠ 0)
    (hprot : ∀ i, LowBits ((g (s.proc q)).mmaps i).prot) :
    Owned e k hand' { s.updProc q g with ram := r } where
  books := hb
  kstack q' := by
    by_cases hq : q' = q
    · subst hq
      simpa using hkstack
    · simpa [hq] using h.kstack q'
  prot q' i := by
    by_cases hq : q' = q
    · subst hq
      simpa using hprot i
    · simpa [hq] using h.prot q' i
  noPipe := h.noPipe

theorem Owned.updProc_same (h : Owned e k hand s) (q : Fin NPROC) (hg : SamePages (s.proc q) (g (s.proc q)))
    (hprot : ∀ i, LowBits ((g (s.proc q)).mmaps i).prot) : Owned e k hand (s.updProc q g) := by
  refine h.updProc (r := s.ram) q ?_ ?_ hprot
  · rw [holds_congr (s := s) fun q' => ?_]
    · exact h.books
    · by_cases hq : q' = q
      · subst hq
        simpa using hg
      · simpa [hq] using SamePages.refl _
  · rw [hg.kstack, hg.vm]
    exact h.kstack q

theorem Active.updProc_same (h : Active e k p hand s) (q : Fin NPROC)
    (hg : SamePages (s.proc q) (g (s.proc q)))
    (hprot : ∀ i, LowBits ((g (s.proc q)).mmaps i).prot) : Active e k p hand (s.updProc q g) where
  toOwned := h.toOwned.updProc_same q hg hprot
  vm := by
    by_cases hq : p = q
    · subst hq
      simpa [hg.vm] using h.vm
    · simpa [hq] using h.vm

theorem Active.passive : Passive (Active e k p hand) (Halted e k p) where
  stop x _ s hs := hs.halted x
  mem s g hs := { hs with books := { hs.books with } }
  nullPage s hs :=
    { hs with
      books := { hs.books with freed := fun v b hm => hs.books.freed v b (by simpa using hm) } }
  off s f o hs :=
    { hs with
      noPipe := fun f' => by
        by_cases hf : f' = f
        · subst hf
          simpa using hs.noPipe f'
        · simpa [hf] using hs.noPipe f' }
  inode s g hs := { hs with }
  pipe s g hs := { hs with }
  ilocks s l hs := { hs with }

theorem Active.killed (hs : Active e k p hand s) (q : Fin NPROC) :
    Active e k p hand (s.updProc q fun x => { x with killed := true }) :=
  hs.updProc_same q ⟨rfl, rfl, rfl, fun _ => rfl⟩ (hs.prot q)

theorem active_kill : Triple (Active e k p hand) (kill p) (fun _ => Active e k p hand)
    (Halted e k p) :=
  .modify fun _ hs => hs.killed p

theorem Active.fileBlind (q : Fin NPROC) : FileBlind q (Active e k p hand) (Halted e k p) where
  count _ _ hs := hs.halted _
  file s f g hg hs :=
    { hs with
      noPipe := fun f' => by
        by_cases hf : f' = f
        · subst hf
          simpa using fun hpipe => hs.noPipe f' (hg hpipe)
        · simpa [hf] using hs.noPipe f' }
  ofile s g hs := hs.updProc_same q ⟨rfl, rfl, rfl, fun _ => rfl⟩ (hs.prot q)
  cwd s c hs := hs.updProc_same q ⟨rfl, rfl, rfl, fun _ => rfl⟩ (hs.prot q)

/-- A program over memory that keeps the books of any owners keeps those of the kernel. -/
theorem active_onRam {α : Type} {m : RamM α} {hand' : α → Set Word} {c : α → Prop}
    (h : ∀ g : Owner → Option Word,
      Triple (Books e k g hand) m (fun a r => Books e k g (hand' a) r ∧ c a) Broken) :
    Triple (Active e k p hand) (onRam m) (fun a s => Active e k p (hand' a) s ∧ c a) (Halted e k p) := by
  refine ⟨fun s hs => ?_⟩
  have hrun := (onRam_triple (h s.holds) s).run s ⟨hs.books, rfl⟩
  cases hm : onRam m s with
  | ok a t =>
    rw [hm] at hrun
    obtain ⟨⟨hb, hc⟩, ht⟩ := hrun
    rw [ht]
    exact ⟨⟨⟨hb, hs.kstack, hs.prot, hs.noPipe⟩, hs.vm⟩, hc⟩
  | error x t =>
    rw [hm] at hrun
    exact ⟨hrun.1.1, fun hx => absurd hx hrun.1.2⟩

theorem active_kalloc : Triple (Active e k p hand) (onRam kalloc)
    (fun o s => Active e k p (taken hand o) s ∧ ∀ v, o = some v → v ∉ hand) (Halted e k p) :=
  active_onRam fun _ => books_kalloc

theorem active_kfree_hand (hv : v ∈ hand) :
    Triple (Active e k p hand) (onRam (kfree v)) (fun _ => Active e k p (hand \ {v}))
      (Halted e k p) :=
  (active_onRam (c := fun _ => True) fun _ => (books_kfree_hand hv).post fun _ _ hb =>
    ⟨hb, trivial⟩).post fun _ _ hs => hs.1

/-! ## Bringing a page in -/

variable {va prot : Word}

theorem books_mapPage {Ω : Type} {h : Ω → Option Word}
    (hmem : mem ∉ hand) (hva : Aligned va) (hprot : LowBits prot) :
    Triple (Books e k (Sum.elim h d.holds) (insert mem hand)) (mapPage d va mem prot)
      (fun r => Books e k (Sum.elim h r.2.holds) (if r.1 then hand else insert mem hand))
      Broken := by
  unfold mapPage
  rw [mappages_page hva]
  refine .bind (books_mappagesLoop_page va hmem (lowBits_or hprot (by decide))) fun x => ?_
  refine .ite (fun _ => ?_) fun _ => .pure fun r hb => hb
  refine .update (fun r hb => ?_) <| .pure fun r hb => hb
  refine { hb with freed := fun v b hm => hb.freed v b ?_ }
  simpa using hm

/-- A page that is in the hand is mapped in the directory of `p`; the directory is still to be stored. -/
theorem active_mapPage (ht : Active e k p (insert mem hand) t)
    (hd : (t.proc p).pgdir = d) (hmem : mem ∉ hand) (hva : Aligned va) (hprot : LowBits prot) :
    Triple (fun s => s = t) (onRam (mapPage d va mem prot))
      (fun r s => Active e k p (if r.1 then hand else insert mem hand)
        (s.updProc p fun q => { q with pgdir := r.2 }) ∧ s = { t with ram := s.ram })
      (Halted e k p) := by
  have hsplit : Books e k (Sum.elim (t.holdsBut p) d.holds) (insert mem hand) t.ram := by
    rw [← hd]
    exact ht.books.split ht.vm
  have hmap : Triple (Books e k (Sum.elim (t.holdsBut p) d.holds) (insert mem hand))
      (mapPage d va mem prot) (fun r => Books e k (Sum.elim (t.holdsBut p) r.2.holds)
        (if r.1 then hand else insert mem hand)) Broken := books_mapPage hmem hva hprot
  refine (onRam_triple hmap t).conseq ?_ ?_ ?_
  · rintro _ rfl
    exact ⟨hsplit, rfl⟩
  · rintro r s ⟨hb, hs⟩
    refine ⟨?_, hs⟩
    rw [hs]
    refine ⟨ht.toOwned.updProc p (Books.join hb) (ht.kstack p) (ht.prot p), ?_⟩
    simpa [Proc.hasVm] using ht.vm
  · rintro x s ⟨hb, -⟩
    exact ⟨hb.1, fun hx => absurd hx hb.2⟩

theorem holds_updDesc {g : MmapDesc → MmapDesc} {o : Owner} (ho : (s.updDesc p i g).holds o = some w) :
    (o = .buf p i ∧ pageOf (g ((s.proc p).mmaps i)).page = some w) ∨ (o ≠ .buf p i ∧ s.holds o = some w) := by
  by_cases hq : o.proc = p
  · subst hq
    cases o with
    | kstack q => exact .inr ⟨by rintro ⟨⟩, by simpa [State.holds, State.updDesc, Proc.updDesc,
        Owner.proc] using ho⟩
    | buf q j =>
      by_cases hj : j = i
      · subst hj
        exact .inl ⟨rfl, by simpa [State.holds, State.updDesc, Owner.proc] using ho⟩
      · exact .inr ⟨by simp [hj], by simpa [State.holds, State.updDesc, Owner.proc, hj] using ho⟩
    | pg q o =>
      exact .inr ⟨by rintro ⟨⟩, by simpa [State.holds, State.updDesc, Proc.updDesc, Proc.hasVm,
        Owner.proc] using ho⟩
  · refine .inr ⟨?_, by rwa [State.updDesc, holds_updProc hq] at ho⟩
    rintro rfl
    exact hq rfl

theorem Active.updDesc {g : MmapDesc → MmapDesc}
    (hs : Active e k p hand s) (q : Fin NPROC) (hb : Books e k (s.updDesc q i g).holds hand' r)
    (hprot : LowBits (g ((s.proc q).mmaps i)).prot) :
    Active e k p hand' { s.updDesc q i g with ram := r } where
  toOwned := by
    refine hs.toOwned.updProc q hb (hs.kstack q) fun j => ?_
    by_cases hj : j = i
    · subst hj
      simpa using hprot
    · simpa [hj] using hs.prot q j
  vm := by
    by_cases hq : p = q
    · subst hq
      simpa [State.updDesc, Proc.updDesc, Proc.hasVm] using hs.vm
    · simpa [State.updDesc, hq] using hs.vm

theorem Active.updDesc_same {g : MmapDesc → MmapDesc} (hs : Active e k p hand s) (q : Fin NPROC)
    (hpage : (g ((s.proc q).mmaps i)).page = ((s.proc q).mmaps i).page)
    (hprot : LowBits (g ((s.proc q).mmaps i)).prot) : Active e k p hand (s.updDesc q i g) := by
  refine hs.updDesc (r := s.ram) q (hs.books.anti fun o w ho => ?_) hprot
  rcases holds_updDesc ho with ⟨rfl, hw⟩ | ⟨-, ho⟩
  · rwa [hpage] at hw
  · exact ho

/-- A page in the hand becomes the buffer of a mapping; the old buffer is nobody's after that. -/
theorem Active.setBuffer (hs : Active e k p (insert v hand) s)
    (hv : v ∉ hand) : Active e k p hand (s.updDesc p i fun md => { md with page := v }) := by
  refine hs.updDesc (r := s.ram) p (hs.books.store hv (.buf p i) fun o w ho => ?_) (hs.prot p i)
  rcases holds_updDesc ho with ⟨rfl, hw⟩ | ⟨-, ho⟩
  · exact .inl ⟨rfl, (pageOf_eq_some.mp hw).2.symm⟩
  · exact .inr ho

theorem Active.clearBuffer (hs : Active e k p hand s) :
    Active e k p hand (s.updDesc p i fun md => { md with page := 0 }) := by
  refine hs.updDesc (r := s.ram) p (hs.books.anti fun o w ho => ?_) (hs.prot p i)
  rcases holds_updDesc ho with ⟨rfl, hw⟩ | ⟨-, ho⟩
  · exact absurd rfl (pageOf_eq_some.mp hw).1
  · exact ho

theorem active_readFilePage (i : Index) :
    Triple (Active e k p hand) (readFilePage p i mem) (fun _ => Active e k p hand) (Halted e k p) := by
  unfold readFilePage
  refine .bind active_kalloc fun o => .pre_and fun ho => ?_
  refine .bind (Active.passive.bufferPage o) fun page => ?_
  refine .bind (Active.passive.memset _ _) fun _ => .read fun s _ => ?_
  refine .bind (Active.passive.mmapReadNull _) fun r => ?_
  refine .bind (Active.passive.storeBytes _ _) fun _ => .bind (Active.passive.memmove _ _) fun _ => ?_
  refine .modify fun s hs => ?_
  cases o with
  | none => exact hs.clearBuffer
  | some v => exact hs.setBuffer (ho v rfl)

theorem aligned_pgRoundDown (a : Word) : Aligned (pgRoundDown a) := aligned_pteAddr a

theorem active_allocatePageNonGuard (i : Index) (a : Word) :
    Keeps (Active e k p ∅) (Halted e k p) (allocatePageNonGuard p i a) := by
  unfold allocatePageNonGuard
  refine Triple.bindOption active_kalloc (.pre_and fun _ => .throw fun s hs => hs.halted _)
    fun mem => .pre_and fun ho => ?_
  refine .bind (Active.passive.memset _ _) fun _ => .get fun t ht => ?_
  refine .bind (active_mapPage ht rfl (ho _ rfl) (aligned_pgRoundDown a) (ht.prot p i)) fun r => ?_
  refine .update (R := Active e k p (if r.1 then ∅ else insert mem ∅))
    (fun s hs => hs.1) ?_
  refine .ite (fun hr => ?_) fun hr => ?_
  · have hr : r.1 = false := by simpa using hr
    rw [hr]
    refine .bind (active_kfree_hand (Set.mem_insert mem ∅)) fun _ => ?_
    exact .bind active_kill fun _ => .throw fun s hs => hs.halted _
  · have hr : r.1 = true := by simpa using hr
    rw [hr]
    exact .ite (fun _ => .pure fun s hs => hs) fun _ => active_readFilePage i

theorem active_allocatePageGuard (i : Index) (a : Word) :
    Keeps (Active e k p ∅) (Halted e k p) (allocatePageGuard p i a) := by
  unfold allocatePageGuard
  refine Triple.get fun s hs => ?_
  split
  next hi =>
    refine .ite (fun _ => .modify ?_) fun _ => ?_
    · rintro _ rfl
      exact hs.killed p
    · have hguard : Triple (fun t => t = s)
          (modify fun s => s.updDesc p i fun md => { md with guardPage := false })
          (fun _ t => Active e k p ∅ t ∧ (t.proc p).pgdir = (s.proc p).pgdir) (Halted e k p) := by
        refine .modify ?_
        rintro _ rfl
        exact ⟨hs.updDesc_same p rfl (hs.prot p i), by simp [State.updDesc, Proc.updDesc]⟩
      refine .bind hguard fun _ => .bindOption (active_kalloc.frame onRam_pgdir)
        (.throw fun t ht => ht.1.1.halted _) fun mem => ?_
      refine .pre (P := fun t => (Active e k p (insert mem ∅) t ∧
        (t.proc p).pgdir = (s.proc p).pgdir) ∧ mem ∉ (∅ : Set Word)) (.pre_and fun hmem => ?_)
        fun t ht => ⟨⟨ht.1.1, ht.2⟩, ht.1.2 mem rfl⟩
      refine .bind ((Active.passive.memset _ _).frame onRam_pgdir) fun _ => ?_
      have hmap : Triple (fun t => Active e k p (insert mem ∅) t ∧ (t.proc p).pgdir = (s.proc p).pgdir)
          (onRam (mapPage (s.proc p).pgdir (pgRoundDown a) mem ((s.proc p).mmaps i).prot))
          (fun r t => Active e k p (if r.1 then ∅ else insert mem ∅)
            (t.updProc p fun q => { q with pgdir := r.2 })) (Halted e k p) :=
        ⟨fun t ht => ((active_mapPage ht.1 ht.2 hmem (aligned_pgRoundDown a)
          (hs.prot p i)).post fun _ _ h => h.1).run t rfl⟩
      refine .bind hmap fun r => ?_
      refine .check (fun t ht => ?_) fun hr => ?_
      · exact ⟨ht.books.freed, by rintro ⟨⟩⟩
      · have hr : r.1 = true := by simpa using hr
        rw [hr]
        refine .update (R := Active e k p ∅) (fun t ht => ht) ?_
        refine .update (R := Active e k p ∅) (fun t ht => ?_) ?_
        · exact ht.updDesc_same p rfl (ht.prot p _)
        · exact .ite (fun _ => .pure fun t ht => ht) fun _ => active_readFilePage i
  next => exact .throw fun t ht => ht ▸ hs.halted _

theorem active_trap (user : Bool) (a : Word) : Keeps (Active e k p ∅) (Halted e k p) (trap p user a) := by
  unfold trap
  refine .bind ?_ fun _ => .get fun s _ => .ite (fun _ => .throw fun s hs => hs.halted _)
    fun _ => .pure _
  refine .get fun s _ => ?_
  cases findDesc (s.proc p).mmaps a with
  | none => exact active_kill
  | some i =>
    exact .ite (fun _ => active_allocatePageGuard i a) fun _ => active_allocatePageNonGuard i a

/-! ## The system calls on files and mappings -/

theorem noPipes (s : State) (f : Fin NFILE) (pg : Word) (hs : Active e k p hand s)
    (hf : (s.fs.file f).type = .pipe) : Keeps (Active e k p hand) (Halted e k p) (onRam (kfree pg)) :=
  absurd hf (hs.noPipe f)

theorem active_freeBuffer {page : Word} (ht : Active e k p ∅ t)
    (hpage : ((t.proc p).mmaps i).page = page) (hne : page ≠ 0) :
    Triple (fun s => s = t) (do
        onRam (kfree page)
        modify fun s => s.updDesc p i fun md => { md with page := 0 })
      (fun _ => Active e k p ∅) (Halted e k p) := by
  have hfree : Triple (Books e k t.holds ∅) (kfree page)
      (fun _ => Books e k (t.updDesc p i fun md => { md with page := 0 }).holds ∅) Broken := by
    refine books_kfree (.buf p i) (pageOf_eq_some.mpr ⟨hpage ▸ hne, hpage⟩) fun o w ho => ?_
    rcases holds_updDesc ho with ⟨-, hw⟩ | ⟨hne, ho⟩
    · exact absurd rfl (pageOf_eq_some.mp hw).1
    · exact ⟨ho, hne⟩
  refine .bind ((onRam_triple hfree t).conseq ?_ (fun _ _ => id) ?_) fun _ => .modify ?_
  · rintro _ rfl
    exact ⟨ht.books, rfl⟩
  · rintro x s ⟨hb, -⟩
    exact ⟨hb.1, fun hx => absurd hx hb.2⟩
  · rintro s ⟨hb, hs⟩
    rw [hs]
    exact ht.updDesc p hb (ht.prot p i)

theorem active_munmapFree (i : Index) : Keeps (Active e k p ∅) (Halted e k p) (munmapFree p i) := by
  unfold munmapFree
  refine Triple.get fun t ht => .ite (fun _ => .pure fun s hs => hs ▸ ht) fun _ => ?_
  refine .ite (fun _ => .modify fun s hs => hs ▸ ht.updDesc_same p rfl (ht.prot p i)) fun _ => ?_
  -- the cleared descriptor still has its buffer
  have hcleared : Active e k p ∅ (t.updDesc p i MmapDesc.cleared) :=
    ht.updDesc_same p rfl (show LowBits 0 by decide)
  refine .update (R := fun s => s = t.updDesc p i MmapDesc.cleared)
    (fun s hs => congrArg (fun s : State => s.updDesc p i MmapDesc.cleared) hs) ?_
  refine .ite (fun _ => .pure fun s hs => hs ▸ hcleared) fun hpage => ?_
  refine active_freeBuffer hcleared ?_ hpage
  simp [State.updDesc, MmapDesc.cleared]

theorem active_closeDesc (i : Index) : Keeps (Active e k p ∅) (Halted e k p) (closeDesc p i) :=
  (Active.fileBlind p).closeDesc Active.passive noPipes i fun _ _ _ _ x _ =>
    Active.passive.touch x (active_trap false x)

theorem active_sysMmap (args : Option MmapArgs) (hargs : ∀ a, args = some a → LowBits a.prot) :
    Keeps (Active e k p ∅) (Halted e k p) (sysMmap p args) :=
  Active.passive.sysMmap (fun a ha => (Active.fileBlind p).mmapFill
    (fun _ _ _ hs => hs.updDesc_same p rfl (hargs a ha)) fun j _ _ _ hs => hs.updDesc_same p rfl (hs.prot p j))
    fun _ _ hs => { hs with }

end Xv6
