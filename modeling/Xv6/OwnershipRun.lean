import Xv6.Boot
import Xv6.Ownership

/-!
# Page ownership over whole runs

From functions to operations and runs. Between `allocproc` and the point where the child may run, the child's
directory is already filled in but not yet its own; the invariant there is `Active` of the state as it will
be (`publish`).
-/

namespace Xv6

open Proc (hasVm)
open Active (passive fileBlind)
open Hoare

variable {e k : Word} {p np : Fin NPROC} {hand : Set Word} {s t : State}

/-! ## `fork` -/

theorem updProc_updProc (s : State) (q : Fin NPROC) (g g' : Proc → Proc) :
    (s.updProc q g).updProc q g' = s.updProc q fun x => g' (g x) := by
  simp [State.updProc]

/-- A new process, before it gets anything from its parent. -/
structure Fresh (p np : Fin NPROC) (s : State) : Prop where
  ne : np ≠ p
  state : (s.proc np).state = .embryo
  kstack : (s.proc np).kstack ≠ 0

variable {v : Word}

theorem Active.setKstack (hs : Active e k p (insert v hand) s) (hv : v ∉ hand)
    (hne : np ≠ p) (hnp : (s.proc np).hasVm = false) :
    Active e k p hand (s.updProc np fun q => { q with kstack := v }) where
  toOwned := by
    refine hs.toOwned.updProc (r := s.ram) (g := fun q => { q with kstack := v }) np ?_ (fun hvm => ?_)
      (hs.prot np)
    · refine hs.books.store hv (.kstack np) fun o w ho => ?_
      by_cases hq : o.proc = np
      · subst hq
        cases o with
        | kstack q =>
          have hw : pageOf v = some w := by simpa [State.holds, Owner.proc] using ho
          exact .inl ⟨rfl, (pageOf_eq_some.mp hw).2.symm⟩
        | buf q i => exact .inr (by simpa [State.holds, Owner.proc] using ho)
        | pg q o => exact .inr (by simpa [State.holds, hasVm, Owner.proc] using ho)
      · exact .inr (by rwa [holds_updProc hq] at ho)
    · have : (s.proc np).hasVm = true := hvm
      simp [hnp] at this
  vm := by simpa [hne.symm] using hs.vm

variable {g : Proc → Proc} {o : Owner} {w : Word}

theorem Active.reset (hs : Active e k p hand s) (hne : np ≠ p)
    (hg : (g (s.proc np)).kstack = 0) (hvm : (g (s.proc np)).hasVm = false)
    (hmmaps : (g (s.proc np)).mmaps = (s.proc np).mmaps) :
    Active e k p hand (s.updProc np g) where
  toOwned := by
    refine hs.toOwned.updProc (r := s.ram) np (hs.books.anti fun o w ho => ?_)
      (fun h => by simp [hvm] at h) (fun i => by rw [hmmaps]; exact hs.prot np i)
    by_cases hq : o.proc = np
    · cases o <;> rw [Owner.proc] at hq <;> subst hq
      case kstack => simp [State.holds, hg, pageOf] at ho
      case buf => simpa [State.holds, hmmaps] using ho
      case pg => simp [State.holds, hvm] at ho
    · rwa [holds_updProc hq] at ho
  vm := by simpa [hne.symm] using hs.vm

theorem active_allocproc (q : Proc) :
    Triple (fun s => Active e k p ∅ s ∧ s.proc p = q) allocproc
      (fun o s => (Active e k p ∅ s ∧ s.proc p = q) ∧ ∀ np, o = some np → Fresh p np s) (Halted e k p) := by
  unfold allocproc
  refine .get fun t ht => ?_
  cases hfind : (List.finRange NPROC).find? fun q => (t.proc q).state == .unused with
  | none => exact .pure fun s hs => ⟨hs ▸ ht, nofun⟩
  | some np =>
    have hunused : (t.proc np).state = .unused := by simpa using List.find?_some hfind
    have hne : np ≠ p := by
      rintro rfl
      have := ht.1.vm
      simp [hasVm, hunused] at this
    have hclaim : Active e k p ∅ (t.updProc np fun q =>
        { q with
          state := .embryo, pid := t.nextpid
          mmaps := fun i => { q.mmaps i with valid := false } }) :=
      ht.1.updProc_same np ⟨rfl, rfl, by simp [hasVm, hunused], fun _ => rfl⟩ (ht.1.prot np)
    refine .update (R := fun s => Active e k p ∅ s ∧ s.proc p = q ∧ (s.proc np).state = .embryo)
      ?_ ?_
    · rintro _ rfl
      exact ⟨hclaim, by simpa [hne.symm] using ht.2, by simp⟩
    refine .update (R := fun s => Active e k p ∅ s ∧ s.proc p = q ∧ (s.proc np).state = .embryo)
      (fun s hs => ⟨{ hs.1 with }, hs.2⟩) ?_
    refine .bind (active_kalloc.frame fun s o s' hs hrun => ?_) fun o => ?_
    · obtain ⟨r, -, rfl⟩ := onRam_eq_ok.mp hrun
      exact hs
    cases o with
    | none =>
      refine .update (R := fun s => Active e k p ∅ s ∧ s.proc p = q) (fun s hs => ?_) <|
        .pure fun s hs => ⟨hs, nofun⟩
      exact ⟨hs.1.1.reset hne rfl rfl rfl, by simpa [hne.symm] using hs.2.1⟩
    | some v =>
      refine .update (R := fun s => (Active e k p ∅ s ∧ s.proc p = q) ∧ Fresh p np s)
        ?_ <| .pure fun s hs => ⟨hs.1, fun _ h => Option.some.inj h ▸ hs.2⟩
      rintro s ⟨⟨hs, hv⟩, hp, hnp⟩
      have hpage : PageAt e v := hs.books.page (Set.mem_insert v ∅)
      refine ⟨⟨hs.setKstack (hv v rfl) hne (by simp [hasVm, hnp]),
        by simpa [hne.symm] using hp⟩, hne, by simpa using hnp, ?_⟩
      simpa using hpage.ne_zero

/-- The child as it will be when the scheduler sees it. -/
def publish (q : Proc) : Proc := { q with state := .runnable }

theorem Active.unpublish (hne : np ≠ p) (hs : Active e k p hand (s.updProc np publish)) :
    Active e k p hand s where
  books := by
    refine hs.books.anti fun o w ho => ?_
    by_cases hq : o.proc = np
    · subst hq
      cases o with
      | kstack q | buf q i => simpa [State.holds, Xv6.publish, Owner.proc] using ho
      | pg q o =>
        simp only [State.holds] at ho
        split at ho
        · simpa [State.holds, Xv6.publish, hasVm, Owner.proc] using ho
        · cases ho
    · rwa [holds_updProc hq]
  kstack q hq := by
    by_cases h : q = np
    · subst h
      simpa [publish] using hs.kstack q (by simp [publish, hasVm])
    · simpa [h] using hs.kstack q (by simpa [h] using hq)
  prot q i := by
    by_cases h : q = np
    · subst h
      simpa [publish] using hs.prot q i
    · simpa [h] using hs.prot q i
  noPipe := hs.noPipe
  vm := by simpa [hne.symm] using hs.vm

theorem passive_publish (hne : np ≠ p) :
    Passive (fun s => Active e k p ∅ (s.updProc np publish)) (Halted e k p) where
  stop x _ _ hs := (hs.unpublish hne).halted x
  mem _ g hs := passive.mem _ g hs
  nullPage _ hs := passive.nullPage _ hs
  off _ f o hs := passive.off _ f o hs
  inode _ g hs := passive.inode _ g hs
  pipe _ g hs := passive.pipe _ g hs
  ilocks _ l hs := passive.ilocks _ l hs

theorem fileBlind_publish (hne : np ≠ p) :
    FileBlind np (fun s => Active e k p ∅ (s.updProc np publish)) (Halted e k p) where
  count _ _ hs := (hs.unpublish hne).halted _
  file s f g hg hs := (fileBlind np).file (s.updProc np publish) f g hg hs
  ofile s g hs := by
    have := (fileBlind np).ofile _ g hs
    rw [updProc_updProc] at this ⊢
    exact this
  cwd s c hs := by
    have := (fileBlind np).cwd _ c hs
    rw [updProc_updProc] at this ⊢
    exact this

variable {d : PgDir} {r : Ram}

theorem Active.publish (ht : Active e k p ∅ t)
    (hnp : Fresh p np t) (hb : Books e k (Sum.elim t.holds d.holds) ∅ r)
    (hg : SamePages { t.proc np with pgdir := d, state := .runnable } (g (t.proc np)))
    (hprot : ∀ i, ((g (t.proc np)).mmaps i).prot = ((t.proc np).mmaps i).prot) :
    Active e k p ∅ { t.updProc np g with ram := r } where
  toOwned := by
    refine ht.toOwned.updProc np ?_ (fun _ => ?_) fun i => ?_
    · -- the owners are those of the state with the child published, renamed
      have hbut : Books e k (Sum.elim ((t.updProc np Xv6.publish).holdsBut np) d.holds) ∅ r := by
        refine hb.anti ?_
        rintro (o | o) w ho
        · obtain ⟨ho, hne⟩ := holdsBut_eq_some.mp ho
          by_cases hq : o.proc = np
          · subst hq
            cases o with
            | kstack q | buf q i => simpa [State.holds, Xv6.publish, Owner.proc] using ho
            | pg q o => exact absurd rfl (hne o)
          · rwa [holds_updProc hq] at ho
        · exact ho
      have hjoin := hbut.join
      rw [updProc_updProc] at hjoin
      rwa [holds_congr (s := t.updProc np fun q => { Xv6.publish q with pgdir := d }) fun q => ?_]
      by_cases hq : q = np
      · subst hq
        simpa [Xv6.publish] using hg
      · simpa [hq] using SamePages.refl _
    · rw [hg.kstack]
      exact hnp.kstack
    · rw [hprot]
      exact ht.prot np i
  vm := by simpa [hnp.ne.symm] using ht.vm

theorem active_deepCopy (hne : np ≠ p) (q : Proc) (i : Index) :
    Keeps (fun s => Active e k p ∅ s ∧ s.proc p = q) (Halted e k p) (deepCopy p np i) := by
  unfold deepCopy
  refine .get fun t ht => ?_
  have hdesc : ∀ {s} (g : MmapDesc → MmapDesc), (∀ md, (g md).page = md.page) →
      (∀ md, LowBits md.prot → LowBits (g md).prot) → (Active e k p ∅ s ∧ s.proc p = q) →
      Active e k p ∅ (s.updDesc np i g) ∧ (s.updDesc np i g).proc p = q := by
    intro s g hpage hprot hs
    refine ⟨hs.1.updDesc_same np (hpage _) (hprot _ (hs.1.prot np i)), ?_⟩
    simpa [State.updDesc, hne.symm] using hs.2
  have hpassive : Passive (fun s => Active e k p ∅ s ∧ s.proc p = q) (Halted e k p) :=
    passive.and (passive_of_proc fun x => x p = q)
  have hblind : FileBlind np (fun s => Active e k p ∅ s ∧ s.proc p = q) (Halted e k p) :=
    (fileBlind np).and (fileBlind_of_ne hne.symm q)
  refine .update (fun s => hdesc _ (fun _ => rfl) fun _ _ => ht.1.prot p i) ?_
  refine .bind (hblind.filedupNull hpassive _) fun _ => ?_
  exact .modify fun s => hdesc _ (fun _ => rfl) fun _ => id

/-- `copy_maps` copies nothing into the child's page table: every mapping that the child gets is private
and has not been touched. -/
def ForkLazy (q : Proc) : Prop := ∀ i, (q.mmaps i).valid →
  getPhysicalPage q.pgdir (q.mmaps i).virtualAddress = 0 ∧
    (hasFlag (q.mmaps i).flags MAP_SHARED → hasFlag (q.mmaps i).flags MAP_GROWSUP)

theorem active_copyMap (hne : np ≠ p) {q : Proc} (hq : ForkLazy q) (i : Index) :
    Keeps (fun s => Active e k p ∅ s ∧ s.proc p = q) (Halted e k p) (copyMap p np i) := by
  unfold copyMap
  refine .get fun t ht => ?_
  rw [ht.2]
  refine .early fun hvalid => ?_
  obtain ⟨hpage, hshared⟩ := hq i (by simpa using hvalid)
  refine .ite (fun hs => ?_) fun _ => ?_
  · rw [if_pos hpage, if_pos (hshared hs)]
    exact .pure _
  · rw [if_pos hpage]
    exact active_deepCopy hne q i

theorem active_forkFill {q : Proc} (ht : Active e k p ∅ t) (hp : t.proc p = q) (hnp : Fresh p np t) :
    Triple (fun s => Books e k (Sum.elim t.holds d.holds) ∅ s.ram ∧ s = { t with ram := s.ram })
      (forkFill p np d)
      (fun _ s => Active e k p ∅ (s.updProc np publish) ∧ s.proc p = q) (Halted e k p) := by
  have hpassive : Passive (fun s => Active e k p ∅ (s.updProc np publish) ∧ s.proc p = q)
      (Halted e k p) := (passive_publish hnp.ne).and (passive_of_proc fun x => x p = q)
  have hblind : FileBlind np (fun s => Active e k p ∅ (s.updProc np publish) ∧ s.proc p = q)
      (Halted e k p) := (fileBlind_publish hnp.ne).and (fileBlind_of_ne hnp.ne.symm q)
  unfold forkFill
  refine .read fun t' _ => .update (R := fun s => Active e k p ∅ (s.updProc np publish) ∧ s.proc p = q) ?_ ?_
  · rintro s ⟨hb, hs⟩
    rw [hs]
    refine ⟨?_, by simpa [hnp.ne.symm] using hp⟩
    rw [updProc_updProc]
    exact ht.publish (g := fun x => Xv6.publish { x with pgdir := d, sz := (t'.proc p).sz, parent := some p })
      hnp hb ⟨rfl, rfl, rfl, fun _ => rfl⟩ fun _ => rfl
  · refine .bind (Keeps.forM _ fun fd _ => hblind.dupFd fd) fun _ => ?_
    exact hblind.dupCwd hpassive

theorem books_freeKstack (q : Fin NPROC) (hk : (t.proc q).kstack ≠ 0) :
    Triple (Books e k t.holds ∅) (kfree (t.proc q).kstack)
      (fun _ => Books e k (t.updProc q fun x => { x with kstack := 0 }).holds ∅) Broken := by
  refine books_kfree (.kstack q) (pageOf_eq_some.mpr ⟨hk, rfl⟩) fun o w ho => ?_
  by_cases hq : o.proc = q
  · subst hq
    cases o with
    | kstack q' => simp [State.holds, pageOf, Owner.proc] at ho
    | buf q' i => exact ⟨by simpa [State.holds, Owner.proc] using ho, by rintro ⟨⟩⟩
    | pg q' o => exact ⟨by simpa [State.holds, hasVm, Owner.proc] using ho, by rintro ⟨⟩⟩
  · refine ⟨by rwa [holds_updProc hq] at ho, ?_⟩
    rintro rfl
    exact hq rfl

variable {q : Fin NPROC}

theorem holds_gone (hg : (g (t.proc q)).kstack = 0) (hvm : (g (t.proc q)).hasVm = false)
    (hmmaps : (g (t.proc q)).mmaps = (t.proc q).mmaps) (ho : (t.updProc q g).holds o = some w) :
    (t.updProc q fun x => { x with kstack := 0 }).holdsBut q o = some w := by
  by_cases hq : o.proc = q
  · cases o <;> rw [Owner.proc] at hq <;> subst hq
    case kstack => simp [State.holds, hg, pageOf] at ho
    case buf => simpa [State.holdsBut, State.holds, hmmaps] using ho
    case pg => simp [State.holds, hvm] at ho
  · refine holdsBut_eq_some.mpr ⟨by rwa [holds_updProc hq] at ho ⊢, ?_⟩
    rintro i rfl
    exact hq rfl

/-- A process that is not running goes back to `UNUSED`, and the books without it are in order. -/
theorem Active.gone (ht : Active e k p ∅ t) (hne : q ≠ p)
    (hb : Books e k ((t.updProc q fun x => { x with kstack := 0 }).holdsBut q) ∅ r)
    (hg : (g (t.proc q)).kstack = 0) (hvm : (g (t.proc q)).hasVm = false)
    (hmmaps : (g (t.proc q)).mmaps = (t.proc q).mmaps) :
    Active e k p ∅ { t.updProc q g with ram := r } where
  toOwned := by
    refine ht.toOwned.updProc q (hb.anti fun o w => holds_gone hg hvm hmmaps) (fun h => ?_) fun i => ?_
    · simp [hvm] at h
    · rw [hmmaps]
      exact ht.prot q i
  vm := by simpa [hne.symm] using ht.vm

theorem halted_onRam {α : Type} {P : Ram → Prop} {m : RamM α} {Q : α → Ram → Prop}
    (h : Triple P m Q Broken) (t : State) :
    Triple (fun s => P s.ram ∧ s = { t with ram := s.ram }) (onRam m)
      (fun a s => Q a s.ram ∧ s = { t with ram := s.ram }) (Halted e k p) :=
  (onRam_triple h t).conseq (fun _ => id) (fun _ _ => id) fun _ _ hs =>
    ⟨hs.1.1, fun hx => absurd hx hs.1.2⟩

theorem active_fork (hk : Linked k) {q : Proc} (hq : ForkLazy q) :
    Triple (fun s => Active e k p ∅ s ∧ s.proc p = q) (fork p) (fun _ => Active e k p ∅) (Halted e k p) := by
  unfold fork
  refine .bindOption (active_allocproc q) (.pure fun s hs => hs.1.1) fun np => ?_
  refine .get fun t ht => ?_
  have hnp : Fresh p np t := ht.2 np rfl
  have hcopy : Triple (Books e k t.holds ∅) (copyuvm (t.proc p).pgdir (t.proc p).sz)
      (fun o => Books e k (Sum.elim t.holds (PgDir.holdsOpt o)) ∅) Broken := books_copyuvm hk _ _
  refine .bind ((halted_onRam hcopy t).pre fun s hs => ?_) fun o => ?_
  · obtain rfl := hs
    exact ⟨ht.1.1.books, rfl⟩
  cases o with
  | none =>
    have hfree : Triple (Books e k t.holds ∅) _ _ _ := books_freeKstack np hnp.kstack
    refine .bind ((halted_onRam hfree t).pre fun s hs => ⟨Books.sum_none.mp hs.1, hs.2⟩) fun _ => ?_
    refine .update (R := Active e k p ∅) ?_ <| .pure fun s hs => hs
    rintro s ⟨hb, hs⟩
    rw [hs]
    exact ht.1.1.gone (g := fun q => { q with pgdir := .null, kstack := 0, state := .unused })
      hnp.ne (hb.anti fun o w ho => (holdsBut_eq_some.mp ho).1) rfl rfl rfl
  | some d =>
    refine .bind (active_forkFill ht.1.1 ht.1.2 hnp) fun _ => ?_
    refine .update (R := fun s => Active e k p ∅ s ∧ s.proc p = q) (fun s hs => ?_)
      ?_
    · exact ⟨hs.1, by simpa [hnp.ne.symm] using hs.2⟩
    refine .bind (Keeps.forM _ fun i _ => active_copyMap hnp.ne hq i) fun _ => ?_
    exact .pure fun s hs => hs.1

/-! ## `wait` and `exit` -/

theorem active_wait :
    Triple (fun s => Active e k p ∅ s ∧ (s.proc p).state ≠ .zombie) (wait p)
      (fun _ => Active e k p ∅) (Halted e k p) := by
  unfold wait
  refine .get fun t ht => ?_
  split
  next q hfind =>
    have hq : (t.proc q).parent = some p ∧ (t.proc q).state = .zombie := by
      simpa using List.find?_some hfind
    have hne : q ≠ p := by
      rintro rfl
      exact ht.2 hq.2
    have hvm : (t.proc q).hasVm := by simp [hasVm, hq.2]
    have hfree : Triple (Books e k t.holds ∅) _ _ _ := books_freeKstack q (ht.1.kstack q hvm)
    refine .bind ((halted_onRam hfree t).pre fun s hs => ?_) fun _ => ?_
    · obtain rfl := hs
      exact ⟨ht.1.books, rfl⟩
    -- the state with the stack gone, in which the directory is taken down
    let t' := t.updProc q fun x => { x with kstack := 0 }
    have hdir : (t'.proc q).pgdir = (t.proc q).pgdir := by simp [t']
    refine .update (R := fun s => Books e k (Sum.elim (t'.holdsBut q) (t.proc q).pgdir.holds) ∅ s.ram ∧
      s = { t' with ram := s.ram }) (fun s hs => ?_) ?_
    · refine ⟨?_, by rw [hs.2]; rfl⟩
      rw [← hdir]
      exact hs.1.split (by simpa [t', hasVm] using hvm)
    refine .bind (halted_onRam books_freevm t') fun _ => ?_
    refine .update (R := Active e k p ∅) (fun s hs => ?_) <| .pure fun s hs => hs
    rw [hs.2]
    have hgone := ht.1.gone (g := fun x => { x with
      kstack := 0, pid := 0, parent := none, killed := false, state := .unused }) hne hs.1 rfl rfl rfl
    simpa only [State.updProc, Function.update_self, Function.update_idem, t'] using hgone
  next =>
    exact .ite (fun _ => .pure fun s hs => hs ▸ ht.1) fun _ => .throw fun s hs => hs ▸ ht.1.halted _

theorem active_exit : Keeps (Active e k p ∅) (Halted e k p) (exit p) := by
  refine (fileBlind p).exit passive noPipes active_closeDesc active_munmapFree
    (fun _ _ hs => { hs with }) (.modify fun s hs => ?_)
    (.modify fun s hs => hs.updProc_same p ⟨rfl, rfl, hs.vm.symm, fun _ => rfl⟩ (hs.prot p))
  have hsame : ∀ q, SamePages (s.proc q) (if (s.proc q).parent = some p then
      { s.proc q with parent := some s.initproc } else s.proc q) := by
    intro q
    split
    · exact ⟨rfl, rfl, rfl, fun _ => rfl⟩
    · exact SamePages.refl _
  refine ⟨hs.toOwned.congr hs.books hsame (fun q i => ?_) hs.noPipe, ?_⟩
  · dsimp only
    split <;> exact hs.prot q i
  · exact (hsame p).vm.trans hs.vm

/-! ## Runs -/

/-- The permissions of a mapping are permission bits, a process that forks has not touched its mappings, and
nobody makes a pipe. -/
def OwnGuard (s : State) : Op → Prop
  | .mmap _ args => ∀ a, args = some a → LowBits a.prot
  | .fork p => ForkLazy (s.proc p)
  | .pipe _ => False
  | _ => True

variable {op : Op}

theorem Owned.active (hs : Owned e k ∅ s) (hen : op.enabled s) :
    Active e k op.proc ∅ s ∧ (s.proc op.proc).state ≠ .zombie := by
  have hstate : (s.proc op.proc).state = .runnable ∨ (s.proc op.proc).state = .running := by
    have := (Bool.and_eq_true _ _ ▸ hen : _ ∧ _).1
    simpa using this
  refine ⟨⟨hs, ?_⟩, ?_⟩ <;> rcases hstate with h | h <;> simp [hasVm, h]

/-- An operation under the guard keeps the books, and what it frees was allocated even if it does not
come to its end. -/
theorem owned_outcome (hk : Linked k) (hs : Owned e k ∅ s) (hen : op.enabled s) (hg : OwnGuard s op) :
    Triple (fun t => t = s) op.outcome (fun _ => Owned e k ∅) (fun _ t => t.ram.Freed) := by
  obtain ⟨hactive, hzombie⟩ := hs.active hen
  have hkeeps : ∀ {m : K Unit}, Keeps (Active e k op.proc ∅) (Halted e k op.proc) m →
      Triple (fun t => t = s) m (fun _ => Active e k op.proc ∅) (Halted e k op.proc) :=
    fun hm => hm.pre fun t ht => ht ▸ hactive
  have hsys : ∀ {α : Type} {m : K α},
      Triple (fun t => t = s) m (fun _ => Active e k op.proc ∅) (Halted e k op.proc) →
      Triple (fun t => t = s) (Op.syscall op.proc m) (fun _ => Active e k op.proc ∅)
        (Halted e k op.proc) := fun hm =>
    syscall_triple hm (fun t ht => ht ▸ hactive.halted _) fun t ht => ht.halted _
  have hcall : ∀ {α : Type} {m : K α}, Keeps (Active e k op.proc ∅) (Halted e k op.proc) m →
      Triple (fun t => t = s) (Op.syscall op.proc m) (fun _ => Active e k op.proc ∅)
        (Halted e k op.proc) := fun hm => hsys (hm.pre fun t ht => ht ▸ hactive)
  have hbody : Triple (fun t => t = s) op.body (fun _ => Active e k op.proc ∅)
      (Halted e k op.proc) := by
    cases op with
    | mmap p args => exact hcall (active_sysMmap args hg)
    | munmap p args => exact hcall (passive.sysMunmap active_closeDesc active_munmapFree args)
    | fault p addr write => exact hkeeps (active_trap true addr)
    | store p addr b => exact hkeeps (.get fun t _ => passive.storeBytes _ _)
    | fork p => exact hsys ((active_fork hk hg).pre fun t ht => ⟨ht ▸ hactive, ht ▸ rfl⟩)
    | exit p => exact hcall (.throw fun t ht => ht.halted _)
    | wait p => exact hsys (active_wait.pre fun t ht => ht ▸ ⟨hactive, hzombie⟩)
    | «open» p path omode =>
      exact hcall ((fileBlind p).sysOpen passive noPipes path omode)
    | dup p fd => exact hcall ((fileBlind p).sysDup fd)
    | close p fd => exact hcall ((fileBlind p).sysClose passive noPipes fd)
    | pipe p => exact hg.elim
  have hexit : Triple (Halted e k op.proc .exit) (exit op.proc) (fun _ => Active e k op.proc ∅)
      (Halted e k op.proc) := active_exit.pre fun t ht => ht.2 rfl
  exact (outcome_triple hbody hexit fun _ _ => id).conseq (fun _ => id)
    (fun _ _ ht => ht.toOwned) fun _ _ ht => ht.1

theorem owned_run (hk : Linked k) (hs : Owned e k ∅ s) (hrun : Run exec OwnGuard s t) : Owned e k ∅ t := by
  refine hrun.invariant hs fun t op u ht hg hx => ?_
  obtain ⟨hen, hout⟩ := exec_eq_some.mp hx
  have := (owned_outcome hk ht hen hg).run t rfl
  rwa [hout] at this

/-- In every run under `OwnGuard` from a state in which every page has at most one owner, `kfree` is only
called on allocated pages, also by an operation that does not come to its end, and no page on the free list
is in the page table of a process. -/
theorem kfree_allocated_of_run (hk : Linked k) (hs : Owned e k ∅ s) (hrun : Run exec OwnGuard s t) :
    t.ram.Freed ∧ (∀ op, op.enabled t → OwnGuard t op → (final (op.outcome t)).ram.Freed) ∧
    ∀ p n, (t.proc p).hasVm → (t.proc p).pgdir.userEntry n →
      P2V (pteAddr ((t.proc p).pgdir.pte n)) ∉ t.ram.freelist := by
  have ht := owned_run hk hs hrun
  refine ⟨ht.books.freed, fun op hen hg => ?_, fun p n hvm hn => ?_⟩
  · refine Triple.final (P := fun u => u = t) (I := fun u => u.ram.Freed) ?_ rfl
    exact (owned_outcome hk ht hen hg).post fun _ _ hu => hu.books.freed
  · refine ht.books.ledger.held_free (o := .pg p (.user n)) ?_
    simp [State.holds, hvm, PgDir.holds, hn]

/-- In such a run a page with an owner is one of the allocator's; it is not free and has no other owner. -/
theorem owner_unique_of_run (hk : Linked k) (hs : Owned e k ∅ s) (hrun : Run exec OwnGuard s t)
    (ho : t.holds o = some v) : PageAt e v ∧ v ∉ t.ram.freelist ∧ ∀ o', t.holds o' = some v → o' = o := by
  have hledger := (owned_run hk hs hrun).books.ledger
  exact ⟨hledger.ok_held ho, hledger.held_free ho, fun o' ho' => hledger.inj ho' ho⟩

/-! ## The small machine -/

variable {m : Nat}

theorem toNat_bootPage (hm : m < 256) : (bootPage m).toNat = 0x8DF00000 + 0x1000 * m := by
  simp only [bootPage, BitVec.toNat_ofNat]
  omega

theorem bootPage_inj {m' : Nat} (hm : m < 256) (hm' : m' < 256) (h : bootPage m = bootPage m') : m = m' := by
  have := congrArg BitVec.toNat h
  rw [toNat_bootPage hm, toNat_bootPage hm'] at this
  omega

theorem pageAt_bootPage (hm : m < 256) : PageAt 0x8DF00000 (bootPage m) := by
  have htop : (bootPage m).toNat = 0x8DF00000 + 0x1000 * m := toNat_bootPage hm
  refine ⟨?_, ?_, ?_⟩
  · rw [aligned_iff]
    omega
  · simp only [BitVec.ult_iff_lt, BitVec.lt_def, not_lt, htop]
    show 0x8DF00000 ≤ _
    omega
  · rw [BitVec.ult_iff_lt, BitVec.lt_def, V2P, BitVec.toNat_sub, htop]
    show (2 ^ 32 - 0x80000000 + (0x8DF00000 + 0x1000 * m)) % 2 ^ 32 < 0xE000000
    omega

variable {k j : Nat}

theorem bootTable_eq (h : bootTable k = some j) :
    k = 0 ∧ j = 3 ∨ k = j + 508 ∧ 4 ≤ j ∧ j < 60 ∨ k = j + 956 ∧ 60 ≤ j ∧ j < 68 := by
  unfold bootTable at h
  split at h
  next => simp_all
  next =>
    split at h
    next =>
      have := Option.some.inj h
      omega
    next =>
      split at h
      next =>
        have := Option.some.inj h
        omega
      next => cases h

theorem pteAddr_bootPage (hm : m < 256) :
    P2V (pteAddr (V2P (bootPage m) ||| (PTE_P ||| PTE_W ||| PTE_U))) = bootPage m := by
  rw [pteAddr_or (aligned_V2P.mpr (pageAt_bootPage hm).1) (by decide), P2V_V2P]

theorem bootDir_user {i n : Nat} (h : (bootDir i).userEntry n) : n = 0 := by
  obtain ⟨-, -, hp, hu⟩ := userEntry_iff.mp h
  by_contra hn
  have hentry : ∀ x w, (bootDir i).pte n = BitVec.ofNat 32 (x * 0x1000) ||| w →
      hasFlag w PTE_U = false → 0x80000 ≤ n → False := by
    intro x w heq hw hle
    rw [heq, hasFlag_or_aligned _ (by decide), hw] at hu
    · simp at hu
      omega
    · rw [aligned_iff, BitVec.toNat_ofNat]
      omega
  simp only [bootDir, hn, if_false] at hp hentry
  split at hp
  next h1 => exact hentry _ _ (if_pos h1) (by decide) (by omega)
  next h1 =>
    rw [if_neg h1] at hentry
    split at hp
    next h2 => exact hentry _ _ (if_pos h2) (by decide) (by omega)
    next h2 =>
      rw [if_neg h2] at hentry
      split at hp
      next h3 => exact hentry _ _ (if_pos h3) (by decide) (by omega)
      next => simp at hp

/-- What page `j` of a process is for. -/
def bootOwner (q : Fin NPROC) (j : Nat) : Owner :=
  if j = 0 then .kstack q
  else if j = 1 then .pg q .dir
  else if j = 2 then .pg q (.user 0)
  else if j = 3 then .pg q (.table 0)
  else if j < 60 then .pg q (.table (j + 508))
  else .pg q (.table (j + 956))

theorem bootOwner_table (h : bootTable k = some j) : bootOwner q j = .pg q (.table k) := by
  unfold bootOwner
  rcases bootTable_eq h with ⟨rfl, rfl⟩ | ⟨rfl, h1, h2⟩ | ⟨rfl, h1, h2⟩
  · simp
  · rw [if_neg (by omega), if_neg (by omega), if_neg (by omega), if_neg (by omega), if_pos h2]
  · rw [if_neg (by omega), if_neg (by omega), if_neg (by omega), if_neg (by omega), if_neg (by omega)]

theorem boot_holds (ho : boot.holds o = some w) :
    ∃ (q : Fin NPROC) (j : Nat), q.val < 2 ∧ j < 68 ∧ w = bootPage (bootBase q.val + j) ∧
      o = bootOwner q j := by
  cases o with
  | kstack q =>
    simp only [State.holds, boot] at ho
    split at ho
    next hq => exact ⟨q, 0, hq, by decide, (pageOf_eq_some.mp ho).2.symm, rfl⟩
    next => exact absurd rfl (pageOf_eq_some.mp ho).1
  | buf q i =>
    simp only [State.holds, boot] at ho
    split at ho <;> exact absurd rfl (pageOf_eq_some.mp ho).1
  | pg q o =>
    by_cases hq : q.val < 2
    · have hproc : boot.proc q = bootProc q.val := if_pos hq
      have hdir : (bootDir q.val).holds o = some w := by
        simp only [State.holds, hproc] at ho
        split at ho
        · exact ho
        · cases ho
      have hpage : ∀ j < 68, P2V (pteAddr (V2P (bootPage (bootBase q.val + j)) |||
          (PTE_P ||| PTE_W ||| PTE_U))) = bootPage (bootBase q.val + j) := by
        intro j hj
        refine pteAddr_bootPage ?_
        simp only [bootBase]
        omega
      cases o with
      | dir => exact ⟨q, 1, hq, by decide, (Option.some.inj hdir).symm, rfl⟩
      | table k =>
        obtain ⟨-, hp, hw⟩ := holds_table.mp hdir
        simp only [bootDir] at hp hw
        cases hk : bootTable k with
        | none => simp [hk] at hp
        | some j =>
          have hj : j < 68 := by
            have := bootTable_eq hk
            omega
          rw [hk] at hw
          exact ⟨q, j, hq, hj, hw.symm.trans (hpage j hj), (bootOwner_table hk).symm⟩
      | user n =>
        obtain ⟨hu, hw⟩ := holds_user.mp hdir
        obtain rfl := bootDir_user hu
        exact ⟨q, 2, hq, by decide, hw.symm.trans (hpage 2 (by decide)), rfl⟩
    · have hproc : boot.proc q = {} := if_neg hq
      simp [State.holds, hproc, hasVm] at ho

theorem mem_boot_freelist (h : w ∈ boot.ram.freelist) : ∃ m, m < 120 ∧ w = bootPage (136 + m) := by
  obtain ⟨m, hm, rfl⟩ := List.mem_map.mp h
  exact ⟨m, List.mem_range.mp hm, rfl⟩

theorem boot_owned : Owned 0x8DF00000 0x80108000 ∅ boot where
  books :=
    { ledger :=
        { nodup := by decide +kernel
          inj := by
            intro o o' w h h'
            obtain ⟨q, j, hq, hj, hw, rfl⟩ := boot_holds h
            obtain ⟨q', j', hq', hj', hw', rfl⟩ := boot_holds h'
            have heq : bootBase q.val + j = bootBase q'.val + j' := by
              refine bootPage_inj ?_ ?_ (hw.symm.trans hw') <;> simp only [bootBase] <;> omega
            simp only [bootBase] at heq
            obtain rfl : q = q' := Fin.ext (by omega)
            rw [show j = j' by omega]
          held_free := by
            intro o w h hfree
            obtain ⟨q, j, hq, hj, hw, -⟩ := boot_holds h
            obtain ⟨m, hm, hw'⟩ := mem_boot_freelist hfree
            have heq : bootBase q.val + j = 136 + m := by
              refine bootPage_inj ?_ (by omega) (hw.symm.trans hw')
              simp only [bootBase]
              omega
            simp only [bootBase] at heq
            omega
          held_hand := fun _ => Set.notMem_empty _
          hand_free := fun h => absurd h (Set.notMem_empty _)
          ok_free := by
            intro w hfree
            obtain ⟨m, hm, rfl⟩ := mem_boot_freelist hfree
            exact pageAt_bootPage (by omega)
          ok_held := by
            intro o w h
            obtain ⟨q, j, hq, hj, rfl, -⟩ := boot_holds h
            refine pageAt_bootPage ?_
            simp only [bootBase]
            omega
          ok_hand := fun h => absurd h (Set.notMem_empty _) }
      kend := rfl
      kdata := rfl
      freed := nofun }
  kstack := by decide +kernel
  prot := by decide +kernel
  noPipe := by decide

theorem boot_linked : Linked 0x80108000 := ⟨by decide, by decide, by decide⟩

theorem boot_complete (hv : PageAt 0x8DF00000 v) : v ∈ boot.ram.freelist ∨ ∃ o, boot.holds o = some v := by
  have hheld : ∀ q : Fin 2, ∀ j : Fin 68,
      boot.holds (bootOwner (q.castLE (by decide)) j.val) = some (bootPage (bootBase q.val + j.val)) := by
    decide +kernel
  obtain ⟨hal, hlo, hhi⟩ := hv
  rw [aligned_iff] at hal
  simp only [BitVec.ult_iff_lt, BitVec.lt_def, not_lt] at hlo
  have hlo : 0x8DF00000 ≤ v.toNat := hlo
  rw [BitVec.ult_iff_lt, BitVec.lt_def, V2P, BitVec.toNat_sub] at hhi
  have hhi : (2 ^ 32 - 0x80000000 + v.toNat) % 2 ^ 32 < 0xE000000 := hhi
  obtain ⟨m, hm, rfl⟩ : ∃ m, m < 256 ∧ v = bootPage m := by
    refine ⟨(v.toNat - 0x8DF00000) / 0x1000, by omega, ?_⟩
    rw [← BitVec.toNat_inj, toNat_bootPage (by omega)]
    omega
  by_cases hfree : 136 ≤ m
  · refine .inl (List.mem_map.mpr ⟨m - 136, List.mem_range.mpr (by omega), ?_⟩)
    rw [show 136 + (m - 136) = m by omega]
  · have hpage := hheld ⟨m / 68, by omega⟩ ⟨m % 68, Nat.mod_lt _ (by decide)⟩
    refine .inr ⟨_, hpage.trans ?_⟩
    simp only [bootBase]
    rw [show 68 * (m / 68) + m % 68 = m from Nat.div_add_mod m 68]

/-- A private mapping of one page, and the first access to it. -/
def bootMapping (prot : Word) : List Op :=
  [.mmap 1 (some ⟨0, 4096, prot, MAP_PRIVATE ||| MAP_ANON, 0, 0⟩), .fault 1 0x60000000 false]

theorem ownGuard_bootMapping : ∀ op ∈ bootMapping PTE_W, ∀ s, OwnGuard s op := by
  intro op hop s
  simp only [bootMapping, List.mem_cons, List.not_mem_nil, or_false] at hop
  rcases hop with rfl | rfl
  · rintro _ ⟨⟩
    show LowBits PTE_W
    decide
  · trivial

/-- With an ordinary `prot` the books stay in order on this run. -/
theorem kfree_allocated_of_run_boot :
    ∃ t, Run exec OwnGuard boot t ∧ (t.proc 1).pgdir.userEntry 0x60000 ∧ t.ram.Freed ∧
      P2V (pteAddr ((t.proc 1).pgdir.pte 0x60000)) ∉ t.ram.freelist := by
  have hx : (Run.execAll exec boot (bootMapping PTE_W)).any
      (fun t => (t.proc 1).hasVm && (t.proc 1).pgdir.userEntry 0x60000) = true := by
    decide +kernel
  obtain ⟨t, hrun, ht⟩ := Run.exists_run hx ownGuard_bootMapping
  obtain ⟨hvm, hentry⟩ := (Bool.and_eq_true _ _ ▸ ht : _ ∧ _)
  obtain ⟨hfreed, -, hfree⟩ := kfree_allocated_of_run boot_linked boot_owned hrun
  exact ⟨t, hrun, hentry, hfreed, hfree 1 0x60000 hvm hentry⟩

theorem owner_unique_of_run_boot : ∃ t v, Run exec OwnGuard boot t ∧
    t.holds (.pg 1 (.user 0x60000)) = some v ∧ ∀ o, t.holds o = some v → o = .pg 1 (.user 0x60000) := by
  have hx : (Run.execAll exec boot (bootMapping PTE_W)).any
      (fun t => (t.holds (.pg 1 (.user 0x60000))).isSome) = true := by
    decide +kernel
  obtain ⟨t, hrun, ht⟩ := Run.exists_run hx ownGuard_bootMapping
  obtain ⟨v, hv⟩ := Option.isSome_iff_exists.mp ht
  exact ⟨t, v, hrun, hv, (owner_unique_of_run boot_linked boot_owned hrun hv).2.2⟩

/-- The entry for a mapping with `prot = 0x2000` names another page than the one that was allocated: the
process reaches a page that is on the free list. -/
theorem prot_maps_free_page :
    Owned 0x8DF00000 0x80108000 ∅ boot ∧
    (∀ v, PageAt 0x8DF00000 v → v ∈ boot.ram.freelist ∨ ∃ o, boot.holds o = some v) ∧
    ∃ t, Run exec (fun _ _ => True) boot t ∧ (t.proc 1).hasVm ∧ (t.proc 1).pgdir.userEntry 0x60000 ∧
      P2V (pteAddr ((t.proc 1).pgdir.pte 0x60000)) ∈ t.ram.freelist := by
  refine ⟨boot_owned, fun v => boot_complete, ?_⟩
  have hx : (Run.execAll exec boot (bootMapping 0x2000)).any (fun t => (t.proc 1).hasVm &&
      (t.proc 1).pgdir.userEntry 0x60000 &&
      t.ram.freelist.contains (P2V (pteAddr ((t.proc 1).pgdir.pte 0x60000)))) = true := by
    decide +kernel
  obtain ⟨t, hrun, ht⟩ := Run.exists_run hx
  simp only [Bool.and_eq_true, List.contains_iff_mem] at ht
  exact ⟨t, hrun, ht.1.1, ht.1.2, ht.2⟩

end Xv6
