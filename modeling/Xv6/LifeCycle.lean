import Xv6.Scheduling

/-!
# The life of a process

Who is whose parent, which pages a process has, and which processes have exited and were waited for. A `fork`
takes an `UNUSED` slot and gives it a kernel stack, a page table and a parent, in this order and without
`ptable.lock`, or gives it back when it fails. A process that has exited keeps its slot until its parent
waits for it.
-/

namespace Xv6.Machine

open Function (update_self update_of_ne)

variable {κ : Type}

/-! ## What a step does to the table -/

/-- The code that a process is in. -/
def Sys.bases (s : Sys κ) (i : Slot) : Base := (s.thread (.inr i)).base

/-- Slot `p` is as before, but for its parent, its channel and its flags; the process may have been woken,
scheduled or put to sleep. -/
structure Alike (T T' : Table) (p : Slot) : Prop where
  kstack : (T'.proc p).kstack = (T.proc p).kstack
  pgdir : (T'.proc p).pgdir = (T.proc p).pgdir
  serial : (T'.proc p).serial = (T.proc p).serial
  forkedBy : (T'.proc p).forkedBy = (T.proc p).forkedBy
  state : (T'.proc p).state = (T.proc p).state ∨
    active (T.proc p).state = true ∧ active (T'.proc p).state = true
  pages : ∀ a u, T'.pages a = some (p, u) ↔ T.pages a = some (p, u)

/-- The parent is as before too. -/
structure Kept (T T' : Table) (p : Slot) : Prop extends Alike T T' p where
  parent : (T'.proc p).parent = (T.proc p).parent

section
variable {T T' : Table} {p k : Slot}

theorem Alike.trans {T'' : Table} (h : Alike T T' p) (h' : Alike T' T'' p) : Alike T T'' p := by
  refine ⟨h'.kstack.trans h.kstack, h'.pgdir.trans h.pgdir, h'.serial.trans h.serial,
    h'.forkedBy.trans h.forkedBy, ?_, fun a u => (h'.pages a u).trans (h.pages a u)⟩
  obtain h1 | ⟨h1, h2⟩ := h.state
  · rw [← h1]
    exact h'.state
  · obtain h3 | ⟨-, h3⟩ := h'.state
    · exact .inr ⟨h1, by rw [h3, h2]⟩
    · exact .inr ⟨h1, h3⟩

theorem Alike.active (h : Alike T T' p) : active (T'.proc p).state = Machine.active (T.proc p).state := by
  obtain h | ⟨h, h'⟩ := h.state
  · rw [h]
  · rw [h, h']

theorem Alike.state_eq (h : Alike T T' p) {x : ProcState} (hx : Machine.active x = false) :
    (T'.proc p).state = x ↔ (T.proc p).state = x := by
  obtain h | ⟨h, h'⟩ := h.state
  · rw [h]
  · refine iff_of_false (fun hs => ?_) fun hs => ?_
    · rw [hs, hx] at h'
      cases h'
    · rw [hs, hx] at h
      cases h

theorem Kept.refl (T : Table) (p : Slot) : Kept T T p :=
  ⟨⟨rfl, rfl, rfl, rfl, .inl rfl, fun _ _ => Iff.rfl⟩, rfl⟩

theorem Kept.of_proc (hproc : T'.proc p = T.proc p)
    (hpages : ∀ a u, T'.pages a = some (p, u) ↔ T.pages a = some (p, u)) : Kept T T' p :=
  ⟨⟨by rw [hproc], by rw [hproc], by rw [hproc], by rw [hproc], .inl (by rw [hproc]), hpages⟩, by rw [hproc]⟩

theorem Kept.upd_of_ne (T : Table) (f : Proc → Proc) (hp : p ≠ k) : Kept T (T.upd k f) p :=
  .of_proc (T.upd_of_ne f hp) fun _ _ => Iff.rfl

theorem Kept.upd {f : Proc → Proc}
    (hf : ∀ q, (f q).kstack = q.kstack ∧ (f q).pgdir = q.pgdir ∧ (f q).serial = q.serial ∧
      (f q).forkedBy = q.forkedBy ∧ (f q).parent = q.parent)
    (hstate : (f (T.proc k)).state = (T.proc k).state ∨
      active (T.proc k).state = true ∧ active (f (T.proc k)).state = true) : Kept T (T.upd k f) p := by
  by_cases hp : p = k
  · subst hp
    obtain ⟨h1, h2, h3, h4, h5⟩ := hf (T.proc p)
    refine ⟨⟨?_, ?_, ?_, ?_, ?_, fun _ _ => Iff.rfl⟩, ?_⟩ <;> rw [T.upd_self]
    exacts [h1, h2, h3, h4, hstate, h5]
  · exact .upd_of_ne T f hp

theorem Kept.wakeup1 (T : Table) (c : Chan) : Kept T (T.wakeup1 c) p := by
  refine ⟨⟨?_, ?_, ?_, ?_, ?_, fun _ _ => Iff.rfl⟩, ?_⟩ <;> simp only [Table.wakeup1] <;> split
  all_goals first
    | rfl
    | exact .inl rfl
    | next h => exact .inr ⟨by rw [h.1]; rfl, rfl⟩

theorem Kept.trans {T'' : Table} (h : Kept T T' p) (h' : Kept T' T'' p) : Kept T T'' p :=
  ⟨h.toAlike.trans h'.toAlike, h'.parent.trans h.parent⟩

theorem Kept.kill (T : Table) (pid : BitVec 32) (k : Slot) : Kept T ((T.name pid).killProc k) p := by
  have hname : Kept T (T.name pid) p := by
    refine ⟨⟨?_, ?_, ?_, ?_, .inl ?_, fun _ _ => Iff.rfl⟩, ?_⟩ <;> simp only [Table.name] <;> split <;> rfl
  refine hname.trans (.upd (fun _ => ⟨rfl, rfl, rfl, rfl, rfl⟩) ?_)
  dsimp only
  split
  · next h => exact .inr ⟨by rw [h]; rfl, rfl⟩
  · exact .inl rfl

theorem pages_take {a : Page} {u : Use} (ha : T.pages a = none) (hp : p ≠ k) (x : Page) (v : Use) :
    Function.update T.pages a (some (k, u)) x = some (p, v) ↔ T.pages x = some (p, v) := by
  by_cases hx : x = a
  · subst hx
    rw [update_self, ha]
    exact iff_of_false (fun h => hp (congrArg Prod.fst (Option.some.inj h)).symm) nofun
  · rw [update_of_ne hx]

theorem pages_free {o : Option Page} (ho : ∀ a, o = some a → ∃ u, T.pages a = some (k, u)) (hp : p ≠ k)
    (x : Page) (v : Use) : T.free o x = some (p, v) ↔ T.pages x = some (p, v) := by
  cases o with
  | none => rfl
  | some a =>
    obtain ⟨u, hu⟩ := ho a rfl
    simp only [Table.free]
    by_cases hx : x = a
    · subst hx
      rw [update_self, hu]
      exact iff_of_false nofun fun h => hp (congrArg Prod.fst (Option.some.inj h)).symm
    · rw [update_of_ne hx]

end

/-- What process `i` does to the processes at `b`, besides waking, scheduling and putting to sleep. -/
inductive Change (T : Table) (i : Slot) : Base → Table → Base → Prop
  | found {k : Slot} (hk : (T.proc k).state = .unused) :
    Change T i (.fork (.scan k)) (T.found k) (.fork (.found k))
  | noStack {k} : Change T i (.fork (.stack k)) (T.noStack k) (.kernel false none)
  | setStack {k a} (ha : T.pages a = none) : Change T i (.fork (.stack k)) (T.setStack k a) (.fork (.copy k))
  | noDir {k} : Change T i (.fork (.copy k)) (T.noDir k) (.fork (.undo k))
  | setDir {k a} (ha : T.pages a = none) : Change T i (.fork (.copy k)) (T.setDir k a) (.fork (.parent k))
  | freeStack {k} : Change T i (.fork (.undo k)) (T.freeStack k) (.fork (.unuse k))
  | unuse {k} : Change T i (.fork (.unuse k)) (T.setState k .unused) (.kernel false none)
  | setParent {k} : Change T i (.fork (.parent k)) (T.setParent k i) (.fork (.lock k))
  | publish {k} : Change T i (.fork (.publish k)) (T.setState k .runnable) (.fork .release)
  | reap {k} (hk : T.zombieChild i = some k) :
    Change T i (.wait .scan) (T.reap k) (.wait (.release (some (T.proc k).pid)))
  | reparent : Change T i (.exit .reparent) (T.reparent i) (.exit .zombie)
  | zombie : Change T i (.exit .zombie) (T.setState i .zombie) (.exit (.sched .check))

/-- The counts of processes stay. -/
def SameCounts (T T' : Table) : Prop := T'.births = T.births ∧ T'.exited = T.exited ∧ T'.reaped = T.reaped

/-- What a step of CPU `c` does to the processes. -/
inductive Effect (s : Sys κ) (c : κ) (s' : Sys κ) : Prop
  | calm (hkept : ∀ p, Kept s.tab s'.tab p) (hcounts : SameCounts s.tab s'.tab)
    (hcalm : ∀ i, Calm (some i) (s.bases i) (s'.bases i))
  | change {i : Slot} (hi : s.cur c = some i) (hrun : (s.tab.proc i).state = .running)
    (hnow : s.now c = ⟨none, s.bases i⟩) (hnow' : s'.now c = ⟨none, s'.bases i⟩)
    (h : Change s.tab i (s.bases i) s'.tab (s'.bases i))
    (hbases : ∀ j, j ≠ i → s'.bases j = s.bases j ∨ s'.bases j = .forkret)

section
variable {cpu : Cpu} {t t' : Thread} {o : Option Slot}

theorem Plain.calm (h : Plain cpu t t') : Calm cpu.proc t.base t'.base := by
  obtain ⟨-, -, hb⟩ | ⟨-, -, hb⟩ := h.base
  · rw [hb]
    exact .refl _ _
  · exact hb.toCalm

theorem Masks.calm {on : Bool} (h : Masks cpu on t t') : Calm o t.base t'.base := by
  cases h with
  | iret | interrupt => exact .refl _ _
  | enable | leave | enter => exact ⟨rfl, .inl, nofun⟩

theorem Scheds.calm {f : Bool → Thread} (h : Scheds t f) (x : Bool) : Calm o t.base (f x).base := by
  cases h with
  | yield => exact .refl _ _
  | sleep | wait | exit => exact ⟨rfl, .inl, nofun⟩

theorem Resumes.calm {x : Bool} (h : Resumes x t t') : Calm o t.base t'.base := by
  cases h with
  | yield => exact .refl _ _
  | sleep | wait => exact ⟨rfl, .inl, nofun⟩

theorem SetsProc.calm {T : Table} {p : Option Slot} (h : SetsProc T p t t') : Calm o t.base t'.base := by
  cases h <;> exact ⟨rfl, .inl, nofun⟩

/-- A step that changes the table is one of those in `Change`, or it only concerns the scheduling. -/
theorem TableStep.change {T T' : Table} {th : κ ⊕ Slot} (h : TableStep T o t T' t') (hmine : Mine th o t)
    (hrun : ∀ i, th = .inr i → active (T.proc i).state = true)
    (hpick : ∀ k, t.base = .scheduler (.running k) → active (T.proc k).state = true) :
    ((∀ p, Kept T T' p) ∧ SameCounts T T' ∧ ∀ o, Calm o t.base t'.base) ∨
      ∃ i, th = .inr i ∧ t.irq = none ∧ t'.irq = none ∧ Change T i t.base T' t'.base := by
  cases h with
  | handlerWakeup => exact .inl ⟨fun _ => .wakeup1 T _, ⟨rfl, rfl, rfl⟩, fun _ => .refl _ _⟩
  | wakeup | exitWakeup =>
    exact .inl ⟨fun _ => .wakeup1 T _, ⟨rfl, rfl, rfl⟩, fun _ => ⟨rfl, .inl, nofun⟩⟩
  | yield hi =>
    have hact := hrun _ (hmine.eq (.inr rfl) hi)
    exact .inl ⟨fun _ => .upd (fun _ => ⟨rfl, rfl, rfl, rfl, rfl⟩) (.inr ⟨hact, rfl⟩), ⟨rfl, rfl, rfl⟩,
      fun _ => .refl _ _⟩
  | sleep hi | waitSleep hi =>
    have hact := hrun _ (hmine.eq (.inl rfl) hi)
    exact .inl ⟨fun _ => .upd (fun _ => ⟨rfl, rfl, rfl, rfl, rfl⟩) (.inr ⟨hact, rfl⟩), ⟨rfl, rfl, rfl⟩,
      fun _ => ⟨rfl, .inl, nofun⟩⟩
  | running =>
    exact .inl ⟨fun _ => .upd (fun _ => ⟨rfl, rfl, rfl, rfl, rfl⟩) (.inr ⟨hpick _ rfl, rfl⟩), ⟨rfl, rfl, rfl⟩,
      fun _ => ⟨rfl, .inl, nofun⟩⟩
  | sleepClear | waitClear | fault =>
    exact .inl ⟨fun _ => .upd (fun _ => ⟨rfl, rfl, rfl, rfl, rfl⟩) (.inl rfl), ⟨rfl, rfl, rfl⟩,
      fun _ => ⟨rfl, .inl, nofun⟩⟩
  | kill => exact .inl ⟨fun _ => .kill T _ _, ⟨rfl, rfl, rfl⟩, fun _ => ⟨rfl, .inl, nofun⟩⟩
  | setParent hi | reparent hi | zombie hi =>
    exact .inr ⟨_, hmine.eq (.inl rfl) hi, rfl, rfl, by constructor⟩
  | reap hi hk => exact .inr ⟨_, hmine.eq (.inl rfl) hi, rfl, rfl, .reap hk⟩
  | found hk =>
    obtain ⟨i, hi, -⟩ := hmine (.inl rfl)
    exact .inr ⟨i, hi, rfl, rfl, .found hk⟩
  | setDir ha =>
    obtain ⟨i, hi, -⟩ := hmine (.inl rfl)
    exact .inr ⟨i, hi, rfl, rfl, .setDir ha⟩
  | noStack | noDir | freeStack | unuse | publish =>
    obtain ⟨i, hi, -⟩ := hmine (.inl rfl)
    exact .inr ⟨i, hi, rfl, rfl, by constructor⟩

end

section
variable [DecidableEq κ] {s s' : Sys κ} {c : κ} {t' : Thread}

section
variable (hs : Inv s) (h : Calm (s.cpu c).proc (s.now c).base t'.base)
include hs h

theorem Inv.calm_goto (i : Slot) : Calm (some i) (s.bases i) (s.goto c t' (.inr i)).base := by
  by_cases hi : s.self c = .inr i
  · have hcur := Inv.cur_of_self hi
    rw [Inv.now_of_some hcur, hs.proc_of_some hcur] at h
    rw [← hi, Inv.goto_self]
    exact h
  · rw [Inv.goto_of_ne fun h => hi h.symm]
    exact .refl _ _

theorem Inv.effect_quiet (htab : s'.tab = s.tab) (hthread : s'.thread = s.goto c t') : Effect s c s' := by
  refine .calm (fun p => by rw [htab]; exact .refl _ _) (by rw [htab]; exact ⟨rfl, rfl, rfl⟩) fun i => ?_
  have hbase : s'.bases i = (s.goto c t' (.inr i)).base := by rw [Sys.bases, hthread]
  rw [hbase]
  exact hs.calm_goto h i

end

omit [DecidableEq κ] in
theorem Effect.stop (s : Sys κ) (c : κ) (msg : String) : Effect s c (s.stop msg) :=
  .calm (.refl _) ⟨rfl, rfl, rfl⟩ fun _ => .refl _ _

theorem Inv.effect_table (hs : Inv s) {T' : Table} (h : TableStep s.tab (s.cpu c).proc (s.now c) T' t') :
    Effect s c { s with tab := T', thread := s.goto c t' } := by
  have hrun : ∀ i, s.self c = .inr i → (s.tab.proc i).state = .running := by
    intro i hi
    have hcur := Inv.cur_of_self hi
    rw [hs.state hcur, ← Inv.now_of_some hcur]
    exact expected_of_sched h.touches.before
  have hpick : ∀ k, (s.now c).base = .scheduler (.running k) → active (s.tab.proc k).state = true := by
    intro k hk
    have hc := hs.cur_of_scheduler hk
    rw [Inv.now_of_none hc] at hk
    rw [hs.running hk]
    rfl
  obtain ⟨hkept, hcounts, hcalm⟩ | ⟨i, hi, hirq, hirq', hchange⟩ :=
    h.change (hs.mine c) (fun i hi => by rw [hrun i hi]; rfl) hpick
  · exact .calm hkept hcounts (hs.calm_goto (hcalm _))
  · have hcur := Inv.cur_of_self hi
    have hnow : s.now c = ⟨none, s.bases i⟩ := by
      rw [← hirq, Inv.now_of_some hcur]
      rfl
    have hgoto : s.goto c t' (.inr i) = t' := by rw [← hi, Inv.goto_self]
    refine .change hcur (hrun i hi) hnow ?_ ?_ fun j hj => .inl ?_
    · have hirq'' : (s.goto c t' (.inr i)).irq = none := by rw [hgoto, hirq']
      have hself : s.goto c t' (s.self c) = s.goto c t' (.inr i) := by rw [hi]
      exact hself.trans (by rw [← hirq'']; rfl)
    · rw [hnow] at hchange
      have hbase : (s.goto c t' (.inr i)).base = t'.base := by rw [hgoto]
      rwa [← hbase] at hchange
    · have hne : Sum.inr j ≠ s.self c := by
        rw [hi]
        exact fun h => hj (Sum.inr.inj h)
      exact congrArg Thread.base (Inv.goto_of_ne hne)

theorem Inv.effect_spawn (hs : Inv s) {k : Slot} {a : Page} (ha : s.tab.pages a = none)
    (ht : s.now c = ⟨none, .fork (.stack k)⟩) (hcur : s'.cur = s.cur) (htab : s'.tab = s.tab.setStack k a)
    (hthread : s'.thread =
      Function.update (s.goto c (Base.fork (.copy k)).thread) (.inr k) Base.forkret.thread) :
    Effect s c s' := by
  have hchild : (s.now c).base.child = some (k, false) := by rw [ht]; rfl
  obtain ⟨i, hi, -⟩ := hs.child_now hchild
  have hself := Inv.self_of_some hi
  have hrun : (s.tab.proc i).state = .running := by
    rw [hs.state hi, ← Inv.now_of_some hi, ht]
    rfl
  have hik : i ≠ k := by
    rintro rfl
    have hk := hs.embryo_of_child hchild
    rw [hrun] at hk
    cases hk
  have hbase : s.bases i = .fork (.stack k) := by
    rw [Sys.bases, ← Inv.now_of_some hi, ht]
  have hthread' : s'.thread (.inr i) = ⟨none, .fork (.copy k)⟩ := by
    rw [hthread, update_of_ne fun h => hik (Sum.inr.inj h), ← hself, Inv.goto_self]
  have hbase' : s'.bases i = .fork (.copy k) := by
    rw [Sys.bases, hthread']
  have hnow' : s'.now c = ⟨none, s'.bases i⟩ := by
    rw [Inv.now_of_some (by rw [hcur, hi]), hthread', hbase']
  refine .change hi hrun (by rw [ht, hbase]) hnow' (by rw [hbase, hbase', htab]; exact .setStack ha) fun j hj => ?_
  by_cases hjk : j = k
  · subst hjk
    exact .inr (by rw [Sys.bases, hthread, update_self])
  · refine .inl ?_
    have hne : Sum.inr j ≠ s.self c := by
      rw [hself]
      exact fun h => hj (Sum.inr.inj h)
    have hjk : Sum.inr j ≠ (Sum.inr k : κ ⊕ Slot) := fun h => hjk (Sum.inr.inj h)
    unfold Sys.bases
    rw [hthread, update_of_ne hjk, Inv.goto_of_ne hne]

/-- What a step does to the table. -/
theorem Inv.effect (hs : Inv s) {ch : Choice} (h : s.exec (c, ch) = some s') : Effect s c s' := by
  unfold Sys.exec at h
  obtain ⟨-, h⟩ := Option.ite_none_left_eq_some.mp h
  obtain ⟨a, hact, h⟩ := Option.bind_eq_some_iff.mp h
  have hflow := Thread.flow hact
  have hnow : s.thread (s.self c) = s.now c := rfl
  dsimp only at hflow
  rw [hnow] at hflow
  cases a with
  | goto t' =>
    cases h
    exact hs.effect_quiet hflow.1.calm rfl rfl
  | mask on t' =>
    cases h
    exact hs.effect_quiet (Masks.calm hflow) rfl rfl
  | lock k t' =>
    simp only [Sys.apply] at h
    split at h
    · cases h
      exact hs.effect_quiet hflow.1.calm rfl rfl
    · obtain ⟨-, h⟩ := Option.ite_none_right_eq_some.mp h
      cases h
      exact .stop s c _
  | unlock k t' =>
    simp only [Sys.apply] at h
    split_ifs at h <;> cases h
    iterate 3 exact .stop s c _
    exact hs.effect_quiet hflow.1.calm rfl rfl
  | table T' t' =>
    cases h
    exact hs.effect_table hflow
  | spawn k T' t' =>
    obtain ⟨a, ha, rfl, ht, rfl⟩ := hflow
    cases h
    exact hs.effect_spawn ha ht rfl rfl rfl
  | setProc o t' =>
    cases h
    exact hs.effect_quiet (SetsProc.calm hflow) rfl rfl
  | run k t' =>
    obtain ⟨ht, rfl⟩ := hflow
    cases h
    exact hs.effect_quiet (by rw [ht]; exact ⟨rfl, .inl, by rintro ⟨⟩⟩) rfl rfl
  | sched f =>
    simp only [Sys.apply] at h
    split at h
    · cases h
      exact .stop s c _
    · split_ifs at h <;> cases h
      iterate 4 exact .stop s c _
      exact hs.effect_quiet (Scheds.calm hflow _) rfl rfl
  | resume x t' =>
    cases h
    exact hs.effect_quiet (Resumes.calm hflow) rfl rfl
  | panic msg =>
    cases h
    exact .stop s c msg

end

/-! ## Pages -/

/-- Slot `p` has the pages that are allocated for it: a kernel stack if `stack`, a page table if `dir`. -/
structure Owns (T : Table) (p : Slot) (stack dir : Bool) : Prop where
  kstack : ∀ a, T.pages a = some (p, .kstack) ↔ (T.proc p).kstack = some a
  stack : (T.proc p).kstack.isSome = stack
  pgdir : ∀ a, T.pages a = some (p, .pgdir) ↔ dir = true ∧ (T.proc p).pgdir = some a
  dir : dir = true → (T.proc p).pgdir.isSome = true

section
variable {T T' : Table} {p k : Slot} {stack dir : Bool}

theorem Owns.congr (h : Owns T p stack dir) (hkstack : (T'.proc p).kstack = (T.proc p).kstack)
    (hpgdir : (T'.proc p).pgdir = (T.proc p).pgdir)
    (hpages : ∀ a u, T'.pages a = some (p, u) ↔ T.pages a = some (p, u)) : Owns T' p stack dir := by
  refine ⟨fun a => ?_, by rw [hkstack, h.stack], fun a => ?_, fun hd => by rw [hpgdir, h.dir hd]⟩
  · rw [hpages, h.kstack, hkstack]
  · rw [hpages, h.pgdir, hpgdir]

theorem Owns.alike (h : Owns T p stack dir) (hp : Alike T T' p) : Owns T' p stack dir :=
  h.congr hp.kstack hp.pgdir hp.pages

theorem Owns.setStack {a : Page} (h : Owns T k false false) : Owns (T.setStack k a) k true false := by
  have hnone : (T.proc k).kstack = none := by simpa using h.stack
  have hself : (T.setStack k a).proc k = { T.proc k with kstack := some a } := by
    rw [Table.setStack_proc, T.upd_self]
  have hpages : (T.setStack k a).pages = Function.update T.pages a (some (k, .kstack)) := rfl
  refine ⟨fun x => ?_, by rw [hself]; rfl, fun x => ?_, by rintro ⟨⟩⟩
  · rw [hself, hpages]
    by_cases hx : x = a
    · subst hx
      rw [update_self]
      exact iff_of_true rfl rfl
    · rw [update_of_ne hx, h.kstack, hnone]
      exact iff_of_false (by rintro ⟨⟩) fun h => hx (Option.some.inj h).symm
  · rw [hpages]
    refine iff_of_false (fun hx => ?_) (fun h => by cases h.1)
    by_cases hxa : x = a
    · subst hxa
      rw [update_self] at hx
      cases hx
    · rw [update_of_ne hxa, h.pgdir] at hx
      cases hx.1

theorem Owns.setDir {a : Page} (h : Owns T k true false) (ha : T.pages a = none) :
    Owns (T.setDir k a) k true true := by
  have hself : (T.setDir k a).proc k = { T.proc k with pgdir := some a } := by
    rw [Table.setDir_proc, T.upd_self]
  have hpages : (T.setDir k a).pages = Function.update T.pages a (some (k, .pgdir)) := rfl
  refine ⟨fun x => ?_, by rw [hself]; exact h.stack, fun x => ?_, fun _ => by rw [hself]; rfl⟩
  · rw [hself, hpages, ← h.kstack]
    by_cases hx : x = a
    · subst hx
      rw [update_self, ha]
      exact iff_of_false (by rintro ⟨⟩) (by rintro ⟨⟩)
    · rw [update_of_ne hx]
  · rw [hself, hpages]
    by_cases hx : x = a
    · subst hx
      rw [update_self]
      exact iff_of_true rfl ⟨rfl, rfl⟩
    · rw [update_of_ne hx, h.pgdir]
      exact iff_of_false (fun h => by cases h.1) fun h => hx (Option.some.inj h.2).symm

theorem free_eq {o : Option Page} {x : Page} {v : Slot × Use} :
    T.free o x = some v ↔ T.pages x = some v ∧ o ≠ some x := by
  cases o with
  | none => exact ⟨fun h => ⟨h, nofun⟩, And.left⟩
  | some a =>
    simp only [Table.free]
    by_cases hx : x = a
    · subst hx
      rw [update_self]
      exact iff_of_false nofun fun h => h.2 rfl
    · rw [update_of_ne hx]
      exact ⟨fun h => ⟨h, fun h => hx (Option.some.inj h).symm⟩, And.left⟩

theorem Owns.freeStack (h : Owns T k true false) : Owns (T.freeStack k) k false false := by
  have hself : (T.freeStack k).proc k = { T.proc k with kstack := none } := by
    rw [Table.freeStack_proc, T.upd_self]
  have hpages : (T.freeStack k).pages = T.free (T.proc k).kstack := rfl
  refine ⟨fun x => ?_, by rw [hself]; rfl, fun x => ?_, by rintro ⟨⟩⟩
  · rw [hself, hpages, free_eq, h.kstack]
    exact iff_of_false (fun h => h.2 h.1) (by rintro ⟨⟩)
  · rw [hpages, free_eq, h.pgdir]
    exact iff_of_false (fun h => by cases h.1.1) fun h => by cases h.1

theorem Owns.noDir (h : Owns T k stack false) : Owns (T.noDir k) k stack false := by
  have hself : (T.noDir k).proc k = { T.proc k with pgdir := none } := T.upd_self ..
  refine ⟨fun x => ?_, by rw [hself]; exact h.stack, fun x => ?_, by rintro ⟨⟩⟩
  · rw [hself]
    exact h.kstack x
  · exact iff_of_false (fun hx => by cases ((h.pgdir x).mp hx).1) fun hx => by cases hx.1

theorem Owns.reap (h : Owns T k true true) : Owns (T.reap k) k false false := by
  have hself : ((T.reap k).proc k).kstack = none := by rw [Table.reap_proc, T.upd_self]
  have hpages : ∀ x v, (T.reap k).pages x = some v ↔
      (T.pages x = some v ∧ (T.proc k).kstack ≠ some x) ∧ (T.proc k).pgdir ≠ some x := by
    intro x v
    rw [← free_eq (T := T), ← free_eq (T := { T with pages := T.free (T.proc k).kstack })]
    rfl
  refine ⟨fun x => ?_, by rw [hself]; rfl, fun x => ?_, by rintro ⟨⟩⟩
  · rw [hself, hpages, h.kstack]
    exact iff_of_false (fun h => h.1.2 h.1.1) (by rintro ⟨⟩)
  · rw [hpages, h.pgdir]
    exact iff_of_false (fun h => h.2 h.1.1.2) fun h => by cases h.1

theorem Owns.pages_reap (h : Owns T k true true) (hp : p ≠ k) (x : Page) (v : Use) :
    (T.reap k).pages x = some (p, v) ↔ T.pages x = some (p, v) := by
  have hstack : ∀ a, (T.proc k).kstack = some a → ∃ u, T.pages a = some (k, u) :=
    fun a ha => ⟨_, (h.kstack a).mpr ha⟩
  refine (pages_free (T := { T with pages := T.free (T.proc k).kstack }) (k := k) ?_ hp x v).trans
    (pages_free hstack hp x v)
  intro a ha
  have hdir := (h.pgdir a).mpr ⟨rfl, ha⟩
  refine ⟨.pgdir, free_eq.mpr ⟨hdir, fun hs => ?_⟩⟩
  rw [← h.kstack, hdir] at hs
  cases hs

end

/-! ## Parents -/

def Stage.stack (st : Stage) : Bool := st ≠ .bare

def Stage.dir : Stage → Bool
  | .mapped | .adopted => true
  | _ => false

/-- Slot `k` is as it should be in a `fork` of process `i`. -/
structure Fits (T : Table) (i k : Slot) (st : Stage) : Prop where
  owns : Owns T k st.stack st.dir
  parent : (T.proc k).parent = if st = .adopted then some i else none

/-- What holds of the table when each process is in the code `b`. -/
structure Family (T : Table) (b : Slot → Base) : Prop where
  init : active (T.proc initproc).state = true
  stays : (b initproc).exiting = false
  parent : ∀ {p q}, (T.proc p).parent = some q → active (T.proc q).state = true
  /-- A process that is about to become a zombie has no children any more. -/
  left : ∀ {i}, b i = .exit .zombie → active (T.proc i).state = true ∧ ∀ p, (T.proc p).parent ≠ some i
  unused : ∀ {p}, (T.proc p).state = .unused → Fits T p p .bare
  forked : ∀ {i k st}, (b i).stage = some (k, st) → Fits T i k st
  grown : ∀ {p}, (T.proc p).state ≠ .unused → (T.proc p).state ≠ .embryo →
    Owns T p true true ∧ (p ≠ initproc → (T.proc p).parent ≠ none)
  /-- The parent is the process it was forked by, or `init` when that one has exited. -/
  origin : ∀ {p q}, (T.proc p).parent = some q →
    (T.proc q).serial = (T.proc p).forkedBy ∨ q = initproc ∧ (T.proc p).forkedBy ∈ T.exited

section
variable {T T' : Table} {b b' : Slot → Base} {i k : Slot}

theorem Fits.kept {p : Slot} {st : Stage} (h : Fits T i p st) (hp : Kept T T' p) : Fits T' i p st :=
  ⟨h.owns.alike hp.toAlike, by rw [hp.parent, h.parent]⟩

theorem Family.forget (h : Family T b) (hb : ∀ j, b' j = b j ∨ b' j = .forkret) : Family T b' := by
  refine ⟨h.init, ?_, h.parent, fun {j} hj => ?_, h.unused, fun {j k st} hj => ?_, h.grown, h.origin⟩
  · obtain hb | hb := hb initproc
    · rw [hb, h.stays]
    · rw [hb]
      rfl
  · obtain hb | hb := hb j
    · exact h.left (hb.symm.trans hj)
    · rw [hb] at hj
      cases hj
  · obtain hb | hb := hb j
    · exact h.forked (hb ▸ hj)
    · rw [hb] at hj
      cases hj

theorem Family.calm (h : Family T b) (hkept : ∀ p, Kept T T' p) (hexited : T'.exited = T.exited)
    (hcalm : ∀ i, Calm (some i) (b i) (b' i)) : Family T' b' where
  init := (hkept initproc).active.trans h.init
  stays := by
    refine Bool.eq_false_iff.mpr fun hex => ?_
    obtain hex | hne := (hcalm initproc).exits hex
    · rw [h.stays] at hex
      cases hex
    · exact hne rfl
  parent {p q} hq := (hkept q).active.trans (h.parent ((hkept p).parent ▸ hq))
  left {i} hi := by
    obtain ⟨hact, hkids⟩ := h.left ((hcalm i).zombie hi)
    exact ⟨(hkept i).active.trans hact, fun p => by rw [(hkept p).parent]; exact hkids p⟩
  unused {p} hp := (h.unused (((hkept p).state_eq rfl).mp hp)).kept (hkept p)
  forked {i k st} hk := (h.forked ((hcalm i).stage ▸ hk)).kept (hkept k)
  grown {p} hu he := by
    obtain ⟨ho, hp⟩ := h.grown (mt ((hkept p).state_eq rfl).mpr hu) (mt ((hkept p).state_eq rfl).mpr he)
    exact ⟨ho.alike (hkept p).toAlike, by rwa [(hkept p).parent]⟩
  origin {p q} hq := by
    rw [(hkept p).parent] at hq
    rw [(hkept q).serial, (hkept p).forkedBy, hexited]
    exact h.origin hq

theorem Family.ne_of_inactive (h : Family T b) (hk : active (T.proc k).state = false) :
    k ≠ initproc ∧ ∀ p, (T.proc p).parent ≠ some k := by
  refine ⟨?_, fun p hp => ?_⟩
  · rintro rfl
    rw [h.init] at hk
    cases hk
  · rw [h.parent hp] at hk
    cases hk

/-- What is asked of slot `k` after a step that process `i` made to it; the process is at `x` then. -/
structure Settled (T T' : Table) (i k : Slot) (x : Base) : Prop where
  parent : ∀ q, (T'.proc k).parent = some q →
    (T.proc k).parent = some q ∧ (T'.proc k).forkedBy = (T.proc k).forkedBy ∨
      q = i ∧ i ≠ k ∧ active (T.proc i).state = true ∧ (T'.proc k).forkedBy = (T.proc i).serial
  unused : (T'.proc k).state = .unused → Fits T' k k .bare
  forked : ∀ {k' st}, x.stage = some (k', st) → k' = k ∧ Fits T' i k st
  grown : (T'.proc k).state ≠ .unused → (T'.proc k).state ≠ .embryo →
    Owns T' k true true ∧ (T'.proc k).parent ≠ none

theorem Family.touch (h : Family T b) (hkept : ∀ p, p ≠ k → Kept T T' p) (hexited : T'.exited = T.exited)
    (hbases : ∀ j, j ≠ i → b' j = b j) (hstays : (b' i).exiting = (b i).exiting) (hleft : b' i ≠ .exit .zombie)
    (hk : active (T.proc k).state = false ∨ k = i ∧ b i = .exit .zombie)
    (hothers : ∀ j st, j ≠ i → (b j).stage ≠ some (k, st)) (hnew : Settled T T' i k (b' i)) :
    Family T' b' := by
  have hbase : ∀ {j}, b' j = .exit .zombie → b j = .exit .zombie ∧ j ≠ i := by
    intro j hj
    have hji : j ≠ i := by
      rintro rfl
      exact hleft hj
    exact ⟨by rw [← hbases j hji, hj], hji⟩
  have hinit : k ≠ initproc := by
    obtain hk | ⟨rfl, hk⟩ := hk
    · exact (h.ne_of_inactive hk).1
    · rintro rfl
      have := h.stays
      rw [hk] at this
      cases this
  have hkids : ∀ p, (T.proc p).parent ≠ some k := by
    obtain hk | ⟨rfl, hk⟩ := hk
    · exact (h.ne_of_inactive hk).2
    · exact (h.left hk).2
  refine ⟨(hkept _ hinit.symm).active.trans h.init, ?_, fun {p q} hq => ?_, fun {j} hj => ⟨?_, fun p hp => ?_⟩,
    fun {p} hp => ?_, fun {j k' st} hj => ?_, fun {p} hu he => ?_, fun {p q} hq => ?_⟩
  · by_cases hi : initproc = i
    · subst hi
      rw [hstays, h.stays]
    · rw [hbases _ hi, h.stays]
  · by_cases hpk : p = k
    · subst hpk
      obtain ⟨hq, -⟩ | ⟨rfl, hne, hact, -⟩ := hnew.parent q hq
      · have hqk : q ≠ p := fun hqk => hkids p (hqk ▸ hq)
        exact (hkept q hqk).active.trans (h.parent hq)
      · exact (hkept q hne).active.trans hact
    · rw [(hkept p hpk).parent] at hq
      have hqk : q ≠ k := fun hqk => hkids p (hqk ▸ hq)
      exact (hkept q hqk).active.trans (h.parent hq)
  · obtain ⟨hbj, hji⟩ := hbase hj
    have hact := (h.left hbj).1
    have hjk : j ≠ k := by
      rintro rfl
      obtain hk | ⟨hk, -⟩ := hk
      · rw [hact] at hk
        cases hk
      · exact hji hk
    exact (hkept j hjk).active.trans hact
  · obtain ⟨hbj, hji⟩ := hbase hj
    by_cases hpk : p = k
    · subst hpk
      obtain ⟨hp, -⟩ | ⟨hji', -⟩ := hnew.parent j hp
      · exact (h.left hbj).2 p hp
      · exact hji hji'
    · exact (h.left hbj).2 p ((hkept p hpk).parent ▸ hp)
  · by_cases hpk : p = k
    · subst hpk
      exact hnew.unused hp
    · exact (h.unused (((hkept p hpk).state_eq rfl).mp hp)).kept (hkept p hpk)
  · by_cases hji : j = i
    · subst hji
      obtain ⟨rfl, hfits⟩ := hnew.forked hj
      exact hfits
    · rw [hbases j hji] at hj
      have hne : k' ≠ k := fun hk => hothers j st hji (hk ▸ hj)
      exact (h.forked hj).kept (hkept k' hne)
  · by_cases hpk : p = k
    · subst hpk
      obtain ⟨ho, hp⟩ := hnew.grown hu he
      exact ⟨ho, fun _ => hp⟩
    · have hp := hkept p hpk
      obtain ⟨ho, hne⟩ := h.grown (mt (hp.state_eq rfl).mpr hu) (mt (hp.state_eq rfl).mpr he)
      exact ⟨ho.alike hp.toAlike, by rwa [hp.parent]⟩
  · rw [hexited]
    by_cases hpk : p = k
    · subst hpk
      obtain ⟨hq, hby⟩ | ⟨rfl, hne, -, hby⟩ := hnew.parent q hq
      · have hqk : q ≠ p := fun hqk => hkids p (hqk ▸ hq)
        rw [hby, (hkept q hqk).serial]
        exact h.origin hq
      · exact .inl (by rw [hby, (hkept q hne).serial])
    · have hp := hkept p hpk
      rw [hp.parent] at hq
      have hqk : q ≠ k := fun hqk => hkids p (hqk ▸ hq)
      rw [(hkept q hqk).serial, hp.forkedBy]
      exact h.origin hq

/-- What the scheduling says of the slots that are taken by a `fork`. -/
structure Taken (T : Table) (b : Slot → Base) : Prop where
  embryo : ∀ {i k st}, (b i).stage = some (k, st) → (T.proc k).state = .embryo
  inj : ∀ {i j k st st'}, (b i).stage = some (k, st) → (b j).stage = some (k, st') → i = j

theorem Inv.taken {s : Sys κ} (hs : Inv s) : Taken s.tab s.bases := by
  have hchild : ∀ {i k st}, (s.bases i).stage = some (k, st) →
      (s.thread (.inr i)).base.child = some (k, decide (st ≠ .bare)) := by
    intro i k st h
    rw [Base.child, ← Sys.bases, h]
    rfl
  exact ⟨fun h => (hs.child (hchild h)).1, fun h h' => hs.child_inj (hchild h) (hchild h')⟩

section
variable (h : Family T b) (ht : Taken T b) (hbases : ∀ j, j ≠ i → b' j = b j)
include h ht hbases

theorem Family.fork {st : Stage} (hi : (b i).stage = some (k, st))
    (hex : (b i).exiting = false) (hkept : ∀ p, p ≠ k → Kept T T' p) (hexited : T'.exited = T.exited)
    (hstays : (b' i).exiting = false) (hnew : Settled T T' i k (b' i)) : Family T' b' := by
  refine h.touch hkept hexited hbases (by rw [hex, hstays]) (fun hz => ?_) (.inl (by rw [ht.embryo hi]; rfl))
    (fun j st' hj hk => hj (ht.inj hk hi)) hnew
  rw [hz] at hstays
  cases hstays

theorem Family.found (hk : (T.proc k).state = .unused)
    (hi : b i = .fork (.scan k)) (hi' : b' i = .fork (.found k)) : Family (T.found k) b' := by
  have hfits := h.unused hk
  have hself : (T.found k).proc k = { T.proc k with
      state := .embryo, pid := T.nextpid, serial := T.births, named := false, faulted := false } :=
    update_self ..
  have hnew : Fits (T.found k) i k .bare :=
    ⟨hfits.owns.congr (by rw [hself]) (by rw [hself]) fun _ _ => Iff.rfl, by rw [hself]; exact hfits.parent⟩
  refine h.touch (fun p hp => .of_proc (update_of_ne hp ..) fun _ _ => Iff.rfl) rfl hbases
    (by rw [hi, hi']; rfl) (by rw [hi']; nofun) (.inl (by rw [hk]; rfl)) (fun j st _ hst => ?_)
    ⟨fun q hq => ?_, fun hu => ?_, fun hst => ?_, fun _ he => ?_⟩
  · have := ht.embryo hst
    rw [hk] at this
    cases this
  · rw [hnew.parent] at hq
    cases hq
  · rw [hself] at hu
    cases hu
  · rw [hi'] at hst
    cases hst
    exact ⟨rfl, hnew⟩
  · rw [hself] at he
    exact absurd rfl he

theorem Family.zombie (hrun : (T.proc i).state = .running)
    (hi : b i = .exit .zombie) (hi' : b' i = .exit (.sched .check)) : Family (T.setState i .zombie) b' := by
  have hself : (T.setState i .zombie).proc i = { T.proc i with state := .zombie } := T.upd_self ..
  have hinit : i ≠ initproc := by
    rintro rfl
    have := h.stays
    rw [hi] at this
    cases this
  obtain ⟨howns, hparent⟩ := h.grown (p := i) (by rw [hrun]; nofun) (by rw [hrun]; nofun)
  refine h.touch (fun p hp => .upd_of_ne T _ hp) rfl hbases (by rw [hi, hi']; rfl) (by rw [hi']; nofun)
    (.inr ⟨rfl, hi⟩) (fun j st _ hst => ?_) ⟨fun q hq => .inl ⟨?_, by rw [hself]⟩, fun hu => ?_, fun hst => ?_,
    fun _ _ => ⟨howns.congr (by rw [hself]) (by rw [hself]) fun _ _ => Iff.rfl, by rw [hself]; exact hparent hinit⟩⟩
  · have := ht.embryo hst
    rw [hrun] at this
    cases this
  · rwa [hself] at hq
  · rw [hself] at hu
    cases hu
  · rw [hi'] at hst
    cases hst

/-- `wait` frees a zombie child. -/
theorem Family.reap (hk : T.zombieChild i = some k) {r : Option (BitVec 32)}
    (hi : b i = .wait .scan) (hi' : b' i = .wait (.release r)) : Family (T.reap k) b' := by
  have hzombie := (Table.zombieChild_some hk).2
  have hself : (T.reap k).proc k =
      { T.proc k with kstack := none, pid := 0, parent := none, killed := false, state := .unused } := by
    rw [Table.reap_proc, T.upd_self]
  obtain ⟨howns, -⟩ := h.grown (p := k) (by rw [hzombie]; nofun) (by rw [hzombie]; nofun)
  refine h.touch (fun p hp => .of_proc ?_ (howns.pages_reap hp)) rfl hbases
    (by rw [hi, hi']; rfl) (by rw [hi']; nofun) (.inl (by rw [hzombie]; rfl))
    (fun j st _ hst => ?_) ⟨fun q hq => ?_,
    fun _ => ⟨howns.reap, by rw [hself]; rfl⟩, fun hst => ?_, fun hu _ => ?_⟩
  · rw [Table.reap_proc, T.upd_of_ne _ hp]
  · have := ht.embryo hst
    rw [hzombie] at this
    cases this
  · rw [hself] at hq
    cases hq
  · rw [hi'] at hst
    cases hst
  · rw [hself] at hu
    exact absurd rfl hu

end

/-- Children of `i` that are in `l` have been given to `init`, and nothing else has changed. -/
structure Adopted (T : Table) (i : Slot) (l : List Slot) (T' : Table) : Prop where
  alike : ∀ p, Alike T T' p
  counts : SameCounts T T'
  parent : ∀ p, (T'.proc p).parent =
    if p ∈ l ∧ (T.proc p).parent = some i then some initproc else (T.proc p).parent

theorem Adopted.giveAway (T : Table) (i q : Slot) : Adopted T i [q] (T.giveAway i q) := by
  unfold Table.giveAway
  split
  · next hq =>
    have hupd : Adopted T i [q] (T.upd q fun x => { x with parent := some initproc }) := by
      refine ⟨fun p => ?_, ⟨rfl, rfl, rfl⟩, fun p => ?_⟩
      · by_cases hp : p = q
        · subst hp
          refine ⟨?_, ?_, ?_, ?_, .inl ?_, fun _ _ => Iff.rfl⟩ <;> rw [T.upd_self]
        · exact (Kept.upd_of_ne T _ hp).toAlike
      · by_cases hp : p = q
        · subst hp
          rw [T.upd_self, if_pos ⟨List.mem_singleton_self p, hq⟩]
        · rw [T.upd_of_ne _ hp, if_neg fun h => hp (List.mem_singleton.mp h.1)]
    dsimp only
    split
    · have hwake := fun p => Kept.wakeup1 (p := p) (T.upd q fun x => { x with parent := some initproc })
        (.proc initproc)
      exact ⟨fun p => (hupd.alike p).trans (hwake p).toAlike, hupd.counts,
        fun p => (hwake p).parent.trans (hupd.parent p)⟩
    · exact hupd
  · next hq =>
    refine ⟨fun p => (Kept.refl T p).toAlike, ⟨rfl, rfl, rfl⟩, fun p => (if_neg fun h => hq ?_).symm⟩
    rw [← List.mem_singleton.mp h.1]
    exact h.2

theorem Adopted.foldl (T : Table) (i : Slot) (l : List Slot) :
    Adopted T i l (l.foldl (fun T p => T.giveAway i p) T) := by
  induction l generalizing T with
  | nil => exact ⟨fun p => (Kept.refl T p).toAlike, ⟨rfl, rfl, rfl⟩, fun p => (if_neg fun h => nomatch h.1).symm⟩
  | cons q l ih =>
    have h := Adopted.giveAway T i q
    have h' := ih (T.giveAway i q)
    refine ⟨fun p => (h.alike p).trans (h'.alike p), ?_, fun p => ?_⟩
    · exact ⟨h'.counts.1.trans h.counts.1, h'.counts.2.1.trans h.counts.2.1, h'.counts.2.2.trans h.counts.2.2⟩
    · rw [List.foldl_cons, h'.parent, h.parent]
      -- a child that is given away at `q` stays with `init` afterwards
      by_cases hi : (T.proc p).parent = some i
      · by_cases hp : p = q
        · subst hp
          simp [hi]
        · simp [hi, hp]
      · simp [hi]

structure Reparented (T : Table) (i : Slot) (T' : Table) : Prop where
  alike : ∀ p, Alike T T' p
  births : T'.births = T.births
  reaped : T'.reaped = T.reaped
  exited : T'.exited = T.exited ++ [(T.proc i).serial]
  parent : ∀ p, (T'.proc p).parent =
    if (T.proc p).parent = some i then some initproc else (T.proc p).parent

theorem Reparented.reparent (T : Table) (i : Slot) : Reparented T i (T.reparent i) := by
  have hspec := Adopted.foldl T i (List.finRange NPROC)
  have hmem : ∀ p : Slot, p ∈ List.finRange NPROC := List.mem_finRange
  unfold Table.reparent
  generalize List.finRange NPROC = l at hspec hmem
  have halike := hspec.alike
  refine ⟨fun p => ?_, hspec.counts.1, hspec.counts.2.2, ?_, fun p => ?_⟩
  · exact ⟨(halike p).kstack, (halike p).pgdir, (halike p).serial, (halike p).forkedBy, (halike p).state,
      (halike p).pages⟩
  · dsimp only
    rw [hspec.counts.2.1, (halike i).serial]
  · dsimp only
    rw [hspec.parent]
    simp only [hmem, true_and]

/-- `exit` hands its children to `initproc`. -/
theorem Family.reparent (h : Family T b) (hrun : (T.proc i).state = .running) (hr : Reparented T i T')
    (hi : b i = .exit .reparent) (hi' : b' i = .exit .zombie) (hbases : ∀ j, j ≠ i → b' j = b j) :
    Family T' b' := by
  have hinit : i ≠ initproc := by
    rintro rfl
    have := h.stays
    rw [hi] at this
    cases this
  have hinit' : initproc ≠ i := hinit.symm
  refine ⟨(hr.alike _).active.trans h.init, by rw [hbases _ hinit', h.stays], fun {p q} hq => ?_,
    fun {j} hj => ⟨?_, fun p hp => ?_⟩, fun {p} hp => ?_, fun {j k st} hj => ?_, fun {p} hu he => ?_,
    fun {p q} hq => ?_⟩
  · rw [hr.parent] at hq
    rw [(hr.alike q).active]
    split at hq
    · cases hq
      exact h.init
    · exact h.parent hq
  · rw [(hr.alike j).active]
    by_cases hji : j = i
    · rw [hji, hrun]
      rfl
    · exact (h.left ((hbases j hji).symm.trans hj)).1
  · rw [hr.parent] at hp
    split at hp
    · cases hp
      rw [hbases _ hinit'] at hj
      have := h.stays
      rw [hj] at this
      cases this
    · next hne =>
      by_cases hji : j = i
      · exact hne (hji ▸ hp)
      · exact (h.left ((hbases j hji).symm.trans hj)).2 p hp
  · have hfits := h.unused (((hr.alike p).state_eq rfl).mp hp)
    have hnone : (T.proc p).parent = none := hfits.parent
    exact ⟨hfits.owns.alike (hr.alike p), by rw [hr.parent, hnone, if_neg nofun]; rfl⟩
  · have hji : j ≠ i := by
      rintro rfl
      rw [hi'] at hj
      cases hj
    rw [hbases j hji] at hj
    have hfits := h.forked hj
    refine ⟨hfits.owns.alike (hr.alike k), ?_⟩
    -- the slot belongs to another process
    rw [hr.parent, if_neg ?_, hfits.parent]
    rw [hfits.parent]
    split
    · exact fun hx => hji (Option.some.inj hx)
    · nofun
  · obtain ⟨ho, hp⟩ := h.grown (mt ((hr.alike p).state_eq rfl).mpr hu) (mt ((hr.alike p).state_eq rfl).mpr he)
    refine ⟨ho.alike (hr.alike p), fun hne => ?_⟩
    rw [hr.parent]
    split
    · nofun
    · exact hp hne
  · rw [hr.parent] at hq
    rw [(hr.alike q).serial, (hr.alike p).forkedBy, hr.exited]
    split at hq
    · next hpi =>
      cases hq
      refine .inr ⟨rfl, List.mem_append.mpr ?_⟩
      obtain hby | ⟨hinit'', -⟩ := h.origin hpi
      · exact .inr (by rw [hby]; exact List.mem_singleton_self _)
      · exact absurd hinit'' hinit
    · obtain hby | ⟨hqi, hby⟩ := h.origin hq
      · exact .inl hby
      · exact .inr ⟨hqi, List.mem_append_left _ hby⟩

section
variable (h : Family T b) (ht : Taken T b) (hbases : ∀ j, j ≠ i → b' j = b j)
include h ht hbases

theorem Family.forks {x x' : Base} {st : Stage} (hi : b i = x) (hi' : b' i = x')
    (hst : x.stage = some (k, st)) (hex : x.exiting = false) (hkept : ∀ p, p ≠ k → Kept T T' p)
    (hexited : T'.exited = T.exited) (hstays : x'.exiting = false)
    (hparent : (T'.proc k).parent = (T.proc k).parent ∧ (T'.proc k).forkedBy = (T.proc k).forkedBy)
    (hne : st ≠ .adopted) (hnext : Owns T k st.stack st.dir →
      x'.stage = none ∧ (T'.proc k).state = .unused ∧ Owns T' k false false ∨
      ∃ st', x'.stage = some (k, st') ∧ (T'.proc k).state = (T.proc k).state ∧ Owns T' k st'.stack st'.dir ∧
        st' ≠ .adopted) : Family T' b' := by
  subst hi hi'
  have hold := (h.forked hst).parent
  rw [if_neg hne, ← hparent.1] at hold
  refine h.fork ht hbases hst hex hkept hexited hstays ⟨fun q hq => ?_, fun hu => ?_, fun hx => ?_, fun hu he => ?_⟩
  · rw [hold] at hq
    cases hq
  all_goals obtain ⟨hst', hstate, howns⟩ | ⟨st', hst', hstate, howns, hne'⟩ := hnext (h.forked hst).owns
  · exact ⟨howns, hold⟩
  · rw [hstate, ht.embryo hst] at hu
    cases hu
  · rw [hst'] at hx
    cases hx
  · rw [hst'] at hx
    cases hx
    exact ⟨rfl, howns, by rw [hold, if_neg hne']⟩
  · exact absurd hstate hu
  · exact absurd (hstate.trans (ht.embryo hst)) he

theorem Family.setParent (hrun : (T.proc i).state = .running)
    (hi : b i = .fork (.parent k)) (hi' : b' i = .fork (.lock k)) : Family (T.setParent k i) b' := by
  have hst : (b i).stage = some (k, .mapped) := by rw [hi]; rfl
  have hself : (T.setParent k i).proc k =
      { T.proc k with parent := some i, forkedBy := (T.proc i).serial } := T.upd_self ..
  have hembryo := ht.embryo hst
  have hne : i ≠ k := by
    rintro rfl
    rw [hrun] at hembryo
    cases hembryo
  refine h.fork ht hbases hst (by rw [hi]; rfl) (fun p hp => .upd_of_ne T _ hp) rfl (by rw [hi']; rfl)
    ⟨fun q hq => ?_, fun hu => ?_, fun hx => ?_, fun _ he => ?_⟩
  · rw [hself] at hq
    cases hq
    exact .inr ⟨rfl, hne, by rw [hrun]; rfl, by rw [hself]⟩
  · rw [hself, hembryo] at hu
    cases hu
  · rw [hi'] at hx
    cases hx
    exact ⟨rfl, (h.forked hst).owns.congr (by rw [hself]) (by rw [hself]) fun _ _ => Iff.rfl, by rw [hself]; rfl⟩
  · rw [hself] at he
    exact absurd hembryo he

theorem Family.publish (hi : b i = .fork (.publish k)) (hi' : b' i = .fork .release) :
    Family (T.setState k .runnable) b' := by
  have hst : (b i).stage = some (k, .adopted) := by rw [hi]; rfl
  have hself : (T.setState k .runnable).proc k = { T.proc k with state := .runnable } := T.upd_self ..
  have hfits := h.forked hst
  refine h.fork ht hbases hst (by rw [hi]; rfl) (fun p hp => .upd_of_ne T _ hp) rfl (by rw [hi']; rfl)
    ⟨fun q hq => .inl ⟨by rwa [hself] at hq, by rw [hself]⟩, fun hu => ?_, fun hx => ?_, fun _ _ => ⟨?_, ?_⟩⟩
  · rw [hself] at hu
    cases hu
  · rw [hi'] at hx
    cases hx
  · exact hfits.owns.congr (by rw [hself]) (by rw [hself]) fun _ _ => Iff.rfl
  · rw [hself]
    dsimp only
    rw [hfits.parent]
    nofun

/-- Every change keeps the families. -/
theorem Family.change (hrun : (T.proc i).state = .running)
    (hc : Change T i (b i) T' (b' i)) : Family T' b' := by
  generalize hi : b i = x at hc
  generalize hi' : b' i = x' at hc
  cases hc with
  | found hk => exact h.found ht hbases hk hi hi'
  | reap hk => exact h.reap ht hbases hk hi hi'
  | reparent => exact h.reparent hrun (.reparent T i) hi hi' hbases
  | zombie => exact h.zombie ht hbases hrun hi hi'
  | setParent => exact h.setParent ht hbases hrun hi hi'
  | publish => exact h.publish ht hbases hi hi'
  | @noStack k =>
    have hself : (T.noStack k).proc k = { T.proc k with kstack := none, state := .unused } := T.upd_self ..
    refine h.forks ht hbases hi hi' rfl rfl (fun p hp => .upd_of_ne T _ hp) rfl rfl
      (by rw [hself]; exact ⟨rfl, rfl⟩)
      nofun fun ho => .inl ⟨rfl, by rw [hself], ho.congr ?_ (by rw [hself]) fun _ _ => Iff.rfl⟩
    have hstack : (T.proc k).kstack.isSome = false := ho.stack
    have hnone : (T.proc k).kstack = none := by simpa using hstack
    rw [hself, hnone]
  | @unuse k =>
    have hself : (T.setState k .unused).proc k = { T.proc k with state := .unused } := T.upd_self ..
    exact h.forks ht hbases hi hi' rfl rfl (fun p hp => .upd_of_ne T _ hp) rfl rfl (by rw [hself]; exact ⟨rfl, rfl⟩)
      nofun fun ho => .inl ⟨rfl, by rw [hself], ho.congr (by rw [hself]) (by rw [hself]) fun _ _ => Iff.rfl⟩
  | @setStack k a ha =>
    have hself : (T.setStack k a).proc k = { T.proc k with kstack := some a } := by
      rw [Table.setStack_proc, T.upd_self]
    exact h.forks ht hbases hi hi' rfl rfl
      (fun p hp => .of_proc (by rw [Table.setStack_proc, T.upd_of_ne _ hp]) (pages_take ha hp)) rfl rfl
      (by rw [hself]; exact ⟨rfl, rfl⟩) nofun fun ho => .inr ⟨.stacked, rfl, by rw [hself], ho.setStack, nofun⟩
  | @noDir k =>
    have hself : (T.noDir k).proc k = { T.proc k with pgdir := none } := T.upd_self ..
    exact h.forks ht hbases hi hi' rfl rfl (fun p hp => .upd_of_ne T _ hp) rfl rfl
      (by rw [hself]; exact ⟨rfl, rfl⟩) nofun fun ho => .inr ⟨.stacked, rfl, by rw [hself], ho.noDir, nofun⟩
  | @setDir k a ha =>
    have hself : (T.setDir k a).proc k = { T.proc k with pgdir := some a } := by
      rw [Table.setDir_proc, T.upd_self]
    exact h.forks ht hbases hi hi' rfl rfl
      (fun p hp => .of_proc (by rw [Table.setDir_proc, T.upd_of_ne _ hp]) (pages_take ha hp)) rfl rfl
      (by rw [hself]; exact ⟨rfl, rfl⟩) nofun fun ho => .inr ⟨.mapped, rfl, by rw [hself], ho.setDir ha, nofun⟩
  | @freeStack k =>
    have hself : (T.freeStack k).proc k = { T.proc k with kstack := none } := by
      rw [Table.freeStack_proc, T.upd_self]
    have howns := (h.forked (hi ▸ rfl : (b i).stage = some (k, .stacked))).owns
    exact h.forks ht hbases hi hi' rfl rfl (fun p hp => .of_proc (by rw [Table.freeStack_proc, T.upd_of_ne _ hp])
        (pages_free (fun a ha => ⟨_, (howns.kstack a).mpr ha⟩) hp)) rfl rfl
      (by rw [hself]; exact ⟨rfl, rfl⟩) nofun fun ho => .inr ⟨.bare, rfl, by rw [hself], ho.freeStack, nofun⟩

end

/-! ## Processes that have exited -/

/-- The numbers of the processes that there have been. -/
structure Serials (T : Table) (b : Slot → Base) : Prop where
  lt : ∀ p, (T.proc p).serial < T.births
  inj : ∀ {p q}, (T.proc p).state ≠ .unused → (T.proc q).state ≠ .unused →
    (T.proc p).serial = (T.proc q).serial → p = q
  gone : ∀ {p}, (T.proc p).state = .zombie ∨ b p = .exit .zombie → (T.proc p).serial ∈ T.exited
  exited_lt : ∀ n ∈ T.exited, n < T.births
  reaped_exited : ∀ n ∈ T.reaped, n ∈ T.exited
  nodup : T.reaped.Nodup
  /-- A process that was waited for has no slot. -/
  kept : ∀ {p}, (T.proc p).state ≠ .unused → (T.proc p).serial ∉ T.reaped

section
variable (h : Serials T b)
include h

theorem Serials.mono (hserial : ∀ p, (T'.proc p).serial = (T.proc p).serial)
    (hbirths : T'.births = T.births) (hreaped : T'.reaped = T.reaped)
    (hunused : ∀ p, (T'.proc p).state ≠ .unused → (T.proc p).state ≠ .unused)
    (hsub : T.exited ⊆ T'.exited) (hnew : ∀ n ∈ T'.exited, n ∈ T.exited ∨ ∃ p, n = (T.proc p).serial)
    (hgone : ∀ p, (T'.proc p).state = .zombie ∨ b' p = .exit .zombie → (T.proc p).serial ∈ T'.exited) :
    Serials T' b' where
  lt p := by
    rw [hserial, hbirths]
    exact h.lt p
  inj {p q} hp hq heq := by
    rw [hserial, hserial] at heq
    exact h.inj (hunused p hp) (hunused q hq) heq
  gone {p} hp := by
    rw [hserial]
    exact hgone p hp
  exited_lt n hn := by
    rw [hbirths]
    obtain hn | ⟨p, rfl⟩ := hnew n hn
    · exact h.exited_lt n hn
    · exact h.lt p
  reaped_exited n hn := hsub (h.reaped_exited n (hreaped ▸ hn))
  nodup := by
    rw [hreaped]
    exact h.nodup
  kept {p} hp := by
    rw [hserial, hreaped]
    exact h.kept (hunused p hp)

theorem Serials.calm (hkept : ∀ p, Kept T T' p) (hcounts : SameCounts T T')
    (hcalm : ∀ i, Calm (some i) (b i) (b' i)) : Serials T' b' := by
  obtain ⟨hbirths, hexited, hreaped⟩ := hcounts
  refine h.mono (fun p => (hkept p).serial) hbirths hreaped (fun p => mt ((hkept p).state_eq rfl).mpr)
    (by rw [hexited]; exact fun _ h => h) (fun n hn => .inl (hexited ▸ hn)) fun p hp => ?_
  rw [hexited]
  exact h.gone (hp.imp ((hkept p).state_eq rfl).mp (hcalm p).zombie)

theorem Serials.touch (hproc : ∀ p, p ≠ k → T'.proc p = T.proc p) (hcounts : SameCounts T T')
    (hserial : (T'.proc k).serial = (T.proc k).serial)
    (hunused : (T'.proc k).state ≠ .unused → (T.proc k).state ≠ .unused)
    (hzombie : (T'.proc k).state = .zombie → (T.proc k).serial ∈ T.exited)
    (hb : ∀ p, b' p = .exit .zombie → b p = .exit .zombie) : Serials T' b' := by
  obtain ⟨hbirths, hexited, hreaped⟩ := hcounts
  refine h.mono (fun p => ?_) hbirths hreaped (fun p hp => ?_) (by rw [hexited]; exact fun _ h => h)
    (fun n hn => .inl (hexited ▸ hn)) fun p hp => ?_
  · by_cases hpk : p = k
    · subst hpk
      exact hserial
    · rw [hproc p hpk]
  · by_cases hpk : p = k
    · subst hpk
      exact hunused hp
    · rwa [hproc p hpk] at hp
  · rw [hexited]
    obtain hp | hp := hp
    · by_cases hpk : p = k
      · subst hpk
        exact hzombie hp
      · exact h.gone (.inl (by rwa [hproc p hpk] at hp))
    · exact h.gone (.inr (hb p hp))

theorem Serials.found (hk : (T.proc k).state = .unused)
    (hb : ∀ p, b' p = .exit .zombie → b p = .exit .zombie ∧ p ≠ k) : Serials (T.found k) b' := by
  have hself : (T.found k).proc k = { T.proc k with
      state := .embryo, pid := T.nextpid, serial := T.births, named := false, faulted := false } :=
    update_self ..
  have hother : ∀ {p}, p ≠ k → (T.found k).proc p = T.proc p := fun hp => update_of_ne hp ..
  refine ⟨fun p => ?_, fun {p q} hp hq heq => ?_, fun {p} hp => ?_, fun n hn => ?_, h.reaped_exited, h.nodup,
    fun {p} hp hmem => ?_⟩
  · by_cases hpk : p = k
    · subst hpk
      rw [hself]
      exact Nat.lt_succ_self _
    · rw [hother hpk]
      exact Nat.lt_succ_of_lt (h.lt p)
  · by_cases hpk : p = k
    · by_cases hqk : q = k
      · rw [hpk, hqk]
      · subst hpk
        rw [hself, hother hqk] at heq
        exact absurd (heq ▸ h.lt q) (Nat.lt_irrefl _)
    · by_cases hqk : q = k
      · subst hqk
        rw [hself, hother hpk] at heq
        exact absurd (heq ▸ h.lt p) (Nat.lt_irrefl _)
      · rw [hother hpk] at hp heq
        rw [hother hqk] at hq heq
        exact h.inj hp hq heq
  · by_cases hpk : p = k
    · subst hpk
      obtain hp | hp := hp
      · rw [hself] at hp
        cases hp
      · exact absurd rfl (hb p hp).2
    · rw [hother hpk] at hp ⊢
      exact h.gone (hp.imp_right fun hp => (hb p hp).1)
  · exact Nat.lt_succ_of_lt (h.exited_lt n hn)
  · by_cases hpk : p = k
    · subst hpk
      rw [hself] at hmem
      exact absurd (h.exited_lt _ (h.reaped_exited _ hmem)) (Nat.lt_irrefl _)
    · rw [hother hpk] at hp hmem
      exact h.kept hp hmem

theorem Serials.reap (hk : (T.proc k).state = .zombie)
    (hb : ∀ p, b' p = .exit .zombie → b p = .exit .zombie) : Serials (T.reap k) b' := by
  have hself : ((T.reap k).proc k).state = .unused := by rw [Table.reap_proc, T.upd_self]
  have hother : ∀ {p}, p ≠ k → (T.reap k).proc p = T.proc p := by
    intro p hp
    rw [Table.reap_proc, T.upd_of_ne _ hp]
  have hserial : ∀ p, ((T.reap k).proc p).serial = (T.proc p).serial := by
    intro p
    by_cases hpk : p = k
    · subst hpk
      rw [Table.reap_proc, T.upd_self]
    · rw [hother hpk]
  have hused : ∀ {p}, ((T.reap k).proc p).state ≠ .unused → p ≠ k ∧ (T.proc p).state ≠ .unused := by
    intro p hp
    have hpk : p ≠ k := by
      rintro rfl
      exact hp hself
    exact ⟨hpk, by rwa [hother hpk] at hp⟩
  have hku : (T.proc k).state ≠ .unused := by
    rw [hk]
    nofun
  have hreaped : (T.reap k).reaped = T.reaped ++ [(T.proc k).serial] := rfl
  refine ⟨fun p => by rw [hserial]; exact h.lt p, fun {p q} hp hq heq => ?_, fun {p} hp => ?_, h.exited_lt,
    fun n hn => ?_, ?_, fun {p} hp hmem => ?_⟩
  · rw [hserial, hserial] at heq
    exact h.inj (hused hp).2 (hused hq).2 heq
  · rw [hserial]
    refine h.gone (hp.imp (fun hp => ?_) (hb p))
    have hpk : p ≠ k := by
      rintro rfl
      rw [hself] at hp
      cases hp
    rwa [hother hpk] at hp
  · rw [hreaped] at hn
    obtain hn | hn := List.mem_append.mp hn
    · exact h.reaped_exited n hn
    · rw [List.mem_singleton.mp hn]
      exact h.gone (.inl hk)
  · rw [hreaped, List.nodup_append]
    refine ⟨h.nodup, List.nodup_singleton _, fun a ha c hc hac => h.kept hku ?_⟩
    rwa [← List.mem_singleton.mp hc, ← hac]
  · rw [hserial, hreaped] at hmem
    obtain ⟨hpk, hpu⟩ := hused hp
    obtain hmem | hmem := List.mem_append.mp hmem
    · exact h.kept hpu hmem
    · exact hpk (h.inj hpu hku (List.mem_singleton.mp hmem))

/-- Every change keeps the numbers. -/
theorem Serials.change (hf : Family T b) (ht : Taken T b) (hrun : (T.proc i).state = .running)
    (hc : Change T i (b i) T' (b' i)) (hbases : ∀ j, j ≠ i → b' j = b j) : Serials T' b' := by
  generalize hi : b i = x at hc
  generalize hi' : b' i = x' at hc
  -- only `reparent` goes to the place before the zombie
  have hb : x' ≠ .exit .zombie → ∀ p, b' p = .exit .zombie → b p = .exit .zombie ∧ p ≠ i := by
    intro hx p hp
    have hpi : p ≠ i := by
      rintro rfl
      exact hx (hi'.symm.trans hp)
    exact ⟨(hbases p hpi).symm.trans hp, hpi⟩
  have hfork : ∀ {k st} {f : Proc → Proc} {T' : Table}, (b i).stage = some (k, st) →
      T'.proc = (T.upd k f).proc → SameCounts T T' → (∀ q, (f q).serial = q.serial) →
      (∀ q, q.state ≠ .zombie → (f q).state ≠ .zombie) → x' ≠ .exit .zombie → Serials T' b' := by
    intro k st f T' hst hproc hcounts hf hzombie hx
    have hembryo := ht.embryo hst
    refine h.touch (k := k) (fun p hp => by rw [hproc, T.upd_of_ne _ hp]) hcounts ?_ (fun _ => ?_)
      (fun hz => absurd hz ?_) fun p hp => (hb hx p hp).1
    · rw [hproc, T.upd_self, hf]
    · rw [hembryo]
      rintro ⟨⟩
    · rw [hproc, T.upd_self]
      exact hzombie _ (by rw [hembryo]; rintro ⟨⟩)
  cases hc with
  | found hk =>
    refine h.found hk fun p hp => ?_
    obtain ⟨hp, -⟩ := hb (by rintro ⟨⟩) p hp
    refine ⟨hp, ?_⟩
    rintro rfl
    have := (hf.left hp).1
    rw [hk] at this
    cases this
  | reap hk => exact h.reap (Table.zombieChild_some hk).2 fun p hp => (hb (by rintro ⟨⟩) p hp).1
  | reparent =>
    have hr := Reparented.reparent T i
    refine h.mono (fun p => (hr.alike p).serial) hr.births hr.reaped
      (fun p => mt ((hr.alike p).state_eq rfl).mpr) (by rw [hr.exited]; exact List.subset_append_left ..)
      (fun n hn => ?_) fun p hp => ?_
    · rw [hr.exited] at hn
      exact (List.mem_append.mp hn).imp_right fun hn => ⟨i, List.mem_singleton.mp hn⟩
    · rw [hr.exited]
      by_cases hpi : p = i
      · subst hpi
        exact List.mem_append_right _ (List.mem_singleton_self _)
      · refine List.mem_append_left _ (h.gone (hp.imp ((hr.alike p).state_eq rfl).mp fun hp => ?_))
        rw [← hbases p hpi, hp]
  | zombie =>
    refine h.touch (fun p hp => T.upd_of_ne _ hp) ⟨rfl, rfl, rfl⟩ (by rw [Table.setState, T.upd_self])
      (fun _ => by rw [hrun]; rintro ⟨⟩) (fun _ => h.gone (.inr hi)) fun p hp => (hb (by rintro ⟨⟩) p hp).1
  | noStack | unuse | noDir | setParent | publish =>
    exact hfork (by rw [hi]; rfl) rfl ⟨rfl, rfl, rfl⟩ (fun _ => rfl)
      (fun _ => by first | exact id | rintro - ⟨⟩) (by rintro ⟨⟩)
  | setStack =>
    exact hfork (by rw [hi]; rfl) (T.setStack_proc _ _) ⟨rfl, rfl, rfl⟩ (fun _ => rfl)
      (fun _ => id) (by rintro ⟨⟩)
  | setDir =>
    exact hfork (by rw [hi]; rfl) (T.setDir_proc _ _) ⟨rfl, rfl, rfl⟩ (fun _ => rfl) (fun _ => id)
      (by rintro ⟨⟩)
  | freeStack =>
    exact hfork (by rw [hi]; rfl) (T.freeStack_proc _) ⟨rfl, rfl, rfl⟩ (fun _ => rfl)
      (fun _ => id) (by rintro ⟨⟩)

end

end

/-! ## Runs -/

/-- What holds of the processes in every state that is reached. -/
structure Life (s : Sys κ) : Prop where
  inv : Inv s
  family : Family s.tab s.bases
  serials : Serials s.tab s.bases

/-- In a step of CPU `c` process `q` waits successfully for its child `p`. -/
structure Reaps (s : Sys κ) (c : κ) (s' : Sys κ) (q p : Slot) : Prop where
  caller : s.cur c = some q
  scan : s.now c = ⟨none, .wait .scan⟩
  result : s'.now c = ⟨none, .wait (.release (some (s.tab.proc p).pid))⟩
  child : (s.tab.proc p).parent = some q
  zombie : (s.tab.proc p).state = .zombie
  unused : (s'.tab.proc p).state = .unused
  reaped : s'.tab.reaped = s.tab.reaped ++ [(s.tab.proc p).serial]
  kstack : ∃ a, (s.tab.proc p).kstack = some a ∧ s.tab.pages a = some (p, .kstack) ∧ s'.tab.pages a = none
  pgdir : ∃ a, (s.tab.proc p).pgdir = some a ∧ s.tab.pages a = some (p, .pgdir) ∧ s'.tab.pages a = none

section
variable [DecidableEq κ] {s s' : Sys κ} {c : κ} {ch : Choice}

omit [DecidableEq κ] in
theorem Serials.forget {T : Table} {b b' : Slot → Base} (h : Serials T b)
    (hb : ∀ j, b' j = b j ∨ b' j = .forkret) : Serials T b' := by
  refine ⟨h.lt, h.inj, fun {p} hp => h.gone (hp.imp_right fun hp => ?_), h.exited_lt, h.reaped_exited, h.nodup,
    h.kept⟩
  obtain hb | hb := hb p
  · exact hb.symm.trans hp
  · rw [hb] at hp
    cases hp

/-- Every step keeps the life cycle. -/
theorem Life.step (h : Life s) (hx : s.exec (c, ch) = some s') : Life s' := by
  have hinv := (h.inv.step hx).1
  cases h.inv.effect hx with
  | calm hkept hcounts hcalm =>
    exact ⟨hinv, h.family.calm hkept hcounts.2.1 hcalm, h.serials.calm hkept hcounts hcalm⟩
  | @change i _ hrun _ _ hchange hbases =>
    -- first the process goes on, then the thread of the new process is set up
    have hself : Function.update s.bases i (s'.bases i) i = s'.bases i := update_self ..
    have hother : ∀ j, j ≠ i → Function.update s.bases i (s'.bases i) j = s.bases j :=
      fun j hj => update_of_ne hj ..
    have hforget : ∀ j, s'.bases j = Function.update s.bases i (s'.bases i) j ∨ s'.bases j = .forkret := by
      intro j
      by_cases hj : j = i
      · subst hj
        exact .inl hself.symm
      · rw [hother j hj]
        exact hbases j hj
    rw [← hself] at hchange
    exact ⟨hinv, (h.family.change h.inv.taken hother hrun hchange).forget hforget,
      (h.serials.change h.family h.inv.taken hrun hchange hother).forget hforget⟩

omit [DecidableEq κ] in
theorem Life.boot : Life (boot κ) := by
  have hother : ∀ {p : Slot}, p ≠ initproc → bootTable.proc p = unusedProc := by
    intro p hp
    simp [bootTable, hp]
  have hinit : bootTable.proc initproc =
      { unusedProc with state := .runnable, pid := 1, kstack := some 0, pgdir := some 1 } := by
    simp [bootTable]
  have hall : ∀ {P : Proc → Prop}, P unusedProc →
      P { unusedProc with state := .runnable, pid := 1, kstack := some 0, pgdir := some 1 } →
      ∀ p, P (bootTable.proc p) := by
    intro P hP hP' p
    by_cases hp : p = initproc
    · rwa [hp, hinit]
    · rwa [hother hp]
  have hparent : ∀ p, (bootTable.proc p).parent = none := hall (P := fun q => q.parent = none) rfl rfl
  have hserial : ∀ p, (bootTable.proc p).serial = 0 := hall (P := fun q => q.serial = 0) rfl rfl
  have hzombie : ∀ p, (bootTable.proc p).state ≠ .zombie := hall (P := fun q => q.state ≠ .zombie) nofun nofun
  have hused : ∀ {p}, (bootTable.proc p).state ≠ .unused → p = initproc := by
    intro p hp
    by_contra hne
    rw [hother hne] at hp
    exact hp rfl
  have hnoparent : ∀ {p q : Slot}, (bootTable.proc p).parent ≠ some q := by
    intro p q hp
    rw [hparent] at hp
    cases hp
  have hpages : ∀ {a p u}, bootTable.pages a = some (p, u) →
      p = initproc ∧ (a = 0 ∧ u = .kstack ∨ a = 1 ∧ u = .pgdir) := by
    intro a p u h
    simp only [bootTable] at h
    split_ifs at h with h0 h1 <;> cases h
    · exact ⟨rfl, .inl ⟨h0, rfl⟩⟩
    · exact ⟨rfl, .inr ⟨h1, rfl⟩⟩
  have howns : Owns bootTable initproc true true := by
    refine ⟨fun a => ?_, by rw [hinit]; rfl, fun a => ?_, fun _ => by rw [hinit]; rfl⟩
    · rw [hinit]
      refine ⟨fun h => ?_, fun h => ?_⟩
      · obtain ⟨-, ⟨rfl, -⟩ | ⟨-, h⟩⟩ := hpages h
        · rfl
        · cases h
      · cases h
        rfl
    · rw [hinit]
      refine ⟨fun h => ?_, fun h => ?_⟩
      · obtain ⟨-, ⟨-, h⟩ | ⟨rfl, -⟩⟩ := hpages h
        · cases h
        · exact ⟨rfl, rfl⟩
      · cases h.2
        rfl
  refine ⟨.boot, ⟨?_, rfl, fun hp => absurd hp hnoparent, nofun, fun {p} hp => ?_, nofun, fun {p} hu _ => ?_,
    fun hp => absurd hp hnoparent⟩, ⟨fun p => ?_, fun {p q} hp hq _ => ?_, fun {p} hp => ?_, nofun, nofun,
    List.nodup_nil, fun _ => List.not_mem_nil⟩⟩
  · exact congrArg (fun q => active q.state) hinit
  · have hne : p ≠ initproc := by
      rintro rfl
      have hstate : (bootTable.proc initproc).state = .unused := hp
      rw [hinit] at hstate
      cases hstate
    have hnone : ∀ a u, bootTable.pages a ≠ some (p, u) := fun a u h => hne (hpages h).1
    refine ⟨⟨fun a => iff_of_false (hnone a _) ?_, ?_, fun a => iff_of_false (hnone a _)
      (fun h => nomatch h.1), nofun⟩, hparent p⟩
    · intro h
      have hk : (bootTable.proc p).kstack = some a := h
      rw [hother hne] at hk
      cases hk
    · exact congrArg (fun q => q.kstack.isSome) (hother hne)
  · have hp := hused hu
    subst hp
    exact ⟨howns, fun h => absurd rfl h⟩
  · have : (bootTable.proc p).serial < 1 := by rw [hserial]; exact Nat.one_pos
    exact this
  · rw [hused hp, hused hq]
  · obtain hp | hp := hp
    · exact absurd hp (hzombie p)
    · cases hp

theorem Reached.life (h : Reached s) : Life s :=
  h.invariant .boot fun _ _ _ hs _ hx => hs.step hx

omit [DecidableEq κ] in
theorem Owns.reaps {i k : Slot} (h : Owns s.tab k true true) (hi : s.cur c = some i)
    (hnow : s.now c = ⟨none, .wait .scan⟩)
    (hnow' : s'.now c = ⟨none, .wait (.release (some (s.tab.proc k).pid))⟩)
    (hparent : (s.tab.proc k).parent = some i) (hzombie : (s.tab.proc k).state = .zombie)
    (htab : s'.tab = s.tab.reap k) : Reaps s c s' i k := by
  obtain ⟨a, ha⟩ := Option.isSome_iff_exists.mp h.stack
  obtain ⟨d, hd⟩ := Option.isSome_iff_exists.mp (h.dir rfl)
  have hgone : ∀ {x}, (s.tab.proc k).kstack = some x ∨ (s.tab.proc k).pgdir = some x →
      (s.tab.reap k).pages x = none := by
    intro x hx
    refine Option.eq_none_iff_forall_ne_some.mpr fun v hv => ?_
    obtain ⟨hv, hne'⟩ := (free_eq (T := { s.tab with pages := s.tab.free (s.tab.proc k).kstack })).mp hv
    obtain ⟨-, hne⟩ := free_eq.mp hv
    exact hx.elim hne hne'
  refine ⟨hi, hnow, hnow', hparent, hzombie, ?_, by rw [htab]; rfl, ⟨a, ha, (h.kstack a).mpr ha, ?_⟩,
    ⟨d, hd, (h.pgdir d).mpr ⟨rfl, hd⟩, ?_⟩⟩
  · rw [htab, Table.reap_proc, s.tab.upd_self]
  · rw [htab, hgone (.inl ha)]
  · rw [htab, hgone (.inr hd)]

/-- A step is a successful `wait`, or it keeps the zombies and all pages that are not those of an embryo. -/
theorem Life.reaps_or (h : Life s) (hx : s.exec (c, ch) = some s') :
    (∃ q p, Reaps s c s' q p ∧ s'.tab = s.tab.reap p) ∨
      (∀ p, (s.tab.proc p).state = .zombie → (s'.tab.proc p).state = .zombie) ∧ s'.tab.reaped = s.tab.reaped ∧
      ∀ a p u, s.tab.pages a = some (p, u) → (s.tab.proc p).state ≠ .embryo → s'.tab.pages a = some (p, u) := by
  cases h.inv.effect hx with
  | calm hkept hcounts _ =>
    exact .inr ⟨fun p hp => ((hkept p).state_eq rfl).mpr hp, hcounts.2.2,
      fun a p u ha _ => ((hkept p).pages a u).mpr ha⟩
  | @change i hi hrun hnow hnow' hchange _ =>
    have htaken := h.inv.taken
    generalize hb : s.bases i = b at hchange hnow
    generalize hb' : s'.bases i = b' at hchange hnow'
    generalize hT : s'.tab = T' at hchange ⊢
    have hfork : ∀ {k st} {f : Proc → Proc}, (s.bases i).stage = some (k, st) → T'.proc = (s.tab.upd k f).proc →
        ∀ p, (s.tab.proc p).state = .zombie → (T'.proc p).state = .zombie := by
      intro k st f hst hproc p hp
      have hpk : p ≠ k := by
        rintro rfl
        rw [htaken.embryo hst] at hp
        cases hp
      rwa [hproc, s.tab.upd_of_ne _ hpk]
    have htake : ∀ {a v}, s.tab.pages a = none → ∀ x w, s.tab.pages x = some w →
        Function.update s.tab.pages a v x = some w := by
      intro a v ha x w hx
      have hne : x ≠ a := by
        rintro rfl
        rw [ha] at hx
        cases hx
      rwa [update_of_ne hne]
    cases hchange with
    | noStack | unuse | noDir | setParent | publish =>
      exact .inr ⟨hfork (by rw [hb]; rfl) rfl, rfl, fun a p u ha _ => ha⟩
    | setStack ha =>
      exact .inr ⟨hfork (by rw [hb]; rfl) (s.tab.setStack_proc _ _), rfl, fun x p u hx _ => htake ha x _ hx⟩
    | setDir ha =>
      exact .inr ⟨hfork (by rw [hb]; rfl) (s.tab.setDir_proc _ _), rfl, fun x p u hx _ => htake ha x _ hx⟩
    | @freeStack k =>
      have hst : (s.bases i).stage = some (k, .stacked) := by rw [hb]; rfl
      have howns := (h.family.forked hst).owns
      refine .inr ⟨hfork hst (s.tab.freeStack_proc _), rfl, fun x p u hx hp => ?_⟩
      have hpk : p ≠ k := by
        rintro rfl
        exact hp (htaken.embryo hst)
      exact (pages_free (fun a ha => ⟨_, (howns.kstack a).mpr ha⟩) hpk x u).mpr hx
    | @found k hk =>
      refine .inr ⟨fun p hp => ?_, rfl, fun a p u ha _ => ha⟩
      have hpk : p ≠ k := by
        rintro rfl
        rw [hk] at hp
        cases hp
      simpa only [Table.found, update_of_ne hpk] using hp
    | reparent =>
      have hr := Reparented.reparent s.tab i
      exact .inr ⟨fun p hp => ((hr.alike p).state_eq rfl).mpr hp, hr.reaped,
        fun a p u ha _ => ((hr.alike p).pages a u).mpr ha⟩
    | zombie =>
      refine .inr ⟨fun p hp => ?_, rfl, fun a p u ha _ => ha⟩
      by_cases hpi : p = i
      · rw [hpi]
        exact s.tab.setState_self i .zombie
      · rwa [s.tab.setState_of_ne _ hpi]
    | @reap k hk =>
      obtain ⟨hparent, hzombie⟩ := Table.zombieChild_some hk
      obtain ⟨howns, -⟩ := h.family.grown (p := k) (by rw [hzombie]; rintro ⟨⟩) (by rw [hzombie]; rintro ⟨⟩)
      exact .inl ⟨i, k, howns.reaps hi hnow hnow' hparent hzombie hT, rfl⟩

theorem Sys.now_goto {t' : Thread} (hthread : s'.thread = s.goto c t') (hcur : s'.cur = s.cur) :
    s'.now c = t' := by
  have hself : s'.self c = s.self c := by rw [Sys.self, Sys.self, hcur]
  rw [Sys.now, hself, hthread, Inv.goto_self]

theorem Inv.procAct (hs : Inv s) {i : Slot} {b : Base} (hi : s.cur c = some i) (hnow : s.now c = ⟨none, b⟩)
    (hpt : .ptable ∈ b.locks) (hx : s.exec (c, ch) = some s') :
    ∃ a, b.procAct s.tab i ch = some a ∧ s.apply c a = some s' := by
  unfold Sys.exec at hx
  obtain ⟨-, hx⟩ := Option.ite_none_left_eq_some.mp hx
  obtain ⟨a, hact, hx⟩ := Option.bind_eq_some_iff.mp hx
  dsimp only at hact hx
  rw [← Sys.now, hnow] at hact
  have hintr : (s.cpu c).intr = false := by
    refine Bool.eq_false_iff.mpr fun hintr => ?_
    have hnone := ((hs.cpu c).quiet hintr).1
    rw [hnow] at hnone
    have hnone : b.locks = [] := hnone
    rw [hnone] at hpt
    cases hpt
  have hkind : b.isScheduler = false := by
    have := (hs.thread (.inr i)).kind
    rwa [← Inv.now_of_some hi, hnow] at this
  simp only [Thread.act, hintr, hs.proc_of_some hi, Bool.false_eq_true, if_false] at hact
  obtain ⟨-, hact⟩ := Option.ite_none_left_eq_some.mp hact
  cases b with
  | scheduler a => cases hkind
  | _ => exact ⟨a, hact, hx⟩

/-- What one scan of `wait` finds. -/
theorem Inv.wait_scan (hs : Inv s) {i : Slot} (hi : s.cur c = some i) (hnow : s.now c = ⟨none, .wait .scan⟩)
    (hx : s.exec (c, ch) = some s') :
    (∃ p, s.tab.zombieChild i = some p ∧ s'.tab = s.tab.reap p ∧
      s'.now c = ⟨none, .wait (.release (some (s.tab.proc p).pid))⟩) ∨
    s.tab.zombieChild i = none ∧ (s.tab.hasChild i = false ∨ (s.tab.proc i).killed = true) ∧
      s'.now c = ⟨none, .wait (.release none)⟩ ∨ s'.now c = ⟨none, .wait .set⟩ := by
  obtain ⟨a, hact, hx⟩ := hs.procAct hi hnow (List.mem_cons_self ..) hx
  cases ch with
  | go =>
    simp only [Base.procAct, WaitAt.act] at hact
    split at hact
    · next p hp =>
      cases hact
      cases hx
      exact .inl ⟨p, hp, rfl, Sys.now_goto rfl rfl⟩
    · next hp =>
      split at hact
      · next hor =>
        cases hact
        cases hx
        exact .inr (.inl ⟨hp, hor, Sys.now_goto rfl rfl⟩)
      · cases hact
        cases hx
        exact .inr (.inr (Sys.now_goto rfl rfl))
  | _ => cases hact

theorem not_child_of_hasChild {T : Table} {i : Slot} (h : T.hasChild i = false) (p : Slot) :
    (T.proc p).parent ≠ some i := by
  intro hp
  have : T.hasChild i = true := List.any_eq_true.mpr ⟨p, List.mem_finRange p, decide_eq_true hp⟩
  rw [h] at this
  cases this

/-- An `UNUSED` slot has no parent, and a process other than `init` that is not an embryo has one that has
not exited, the process it was forked by or `init`; no process was waited for twice, and none before it
exited. A zombie leaves the table, and the two pages of a process that has started are freed, only in a
successful `wait` of its parent; a `wait` that returns a pid is such a step, and one that returns -1 was
killed or has no children. -/
theorem lifeCycle_of_run (h : Reached s) :
    (∀ p, (s.tab.proc p).state = .unused → (s.tab.proc p).parent = none) ∧
    (∀ p, p ≠ initproc → (s.tab.proc p).state ≠ .unused → (s.tab.proc p).state ≠ .embryo →
      ∃ q, (s.tab.proc p).parent = some q ∧ (s.tab.proc q).state ∉ [.unused, .embryo, .zombie] ∧
        ((s.tab.proc q).serial = (s.tab.proc p).forkedBy ∨
          q = initproc ∧ (s.tab.proc p).forkedBy ∈ s.tab.exited)) ∧
    s.tab.reaped.Nodup ∧ (∀ n ∈ s.tab.reaped, n ∈ s.tab.exited) ∧ ∀ c ch s', s.exec (c, ch) = some s' →
      (∀ p, (s.tab.proc p).state = .zombie → (s'.tab.proc p).state ≠ .zombie → ∃ q, Reaps s c s' q p) ∧
      (s'.tab.reaped ≠ s.tab.reaped → ∃ q p, Reaps s c s' q p) ∧
      (∀ a p u, s.tab.pages a = some (p, u) → s'.tab.pages a ≠ some (p, u) →
        (s.tab.proc p).state = .embryo ∨ ∃ q, Reaps s c s' q p) ∧
      ∀ q r, s.cur c = some q → s.now c = ⟨none, .wait .scan⟩ → s'.now c = ⟨none, .wait (.release r)⟩ →
        match r with
        | some pid => ∃ p, Reaps s c s' q p ∧ (s.tab.proc p).pid = pid
        | none => (s.tab.proc q).killed = true ∨ ∀ p, (s.tab.proc p).parent ≠ some q := by
  have hlife := h.life
  have hfam := hlife.family
  refine ⟨fun p hp => (hfam.unused hp).parent, fun p hne hu he => ?_, hlife.serials.nodup,
    hlife.serials.reaped_exited, fun c ch s' hx => ⟨fun p hp hp' => ?_, fun hr => ?_, fun a p u ha ha' => ?_,
    fun q r hq hscan hr => ?_⟩⟩
  · obtain ⟨-, hparent⟩ := hfam.grown hu he
    obtain ⟨q, hq⟩ := Option.ne_none_iff_exists'.mp (hparent hne)
    refine ⟨q, hq, fun hmem => ?_, hfam.origin hq⟩
    have hact := hfam.parent hq
    simp only [List.mem_cons, List.not_mem_nil, or_false] at hmem
    obtain hs | hs | hs := hmem <;> (rw [hs] at hact; cases hact)
  · obtain ⟨q, k, hreaps, htab⟩ | ⟨hzombie, -⟩ := hlife.reaps_or hx
    · have hpk : p = k := by
        by_contra hpk
        rw [htab, Table.reap_proc, s.tab.upd_of_ne _ hpk] at hp'
        exact hp' hp
      exact ⟨q, hpk ▸ hreaps⟩
    · exact absurd (hzombie p hp) hp'
  · obtain ⟨q, k, hreaps, -⟩ | ⟨-, hreaped, -⟩ := hlife.reaps_or hx
    · exact ⟨q, k, hreaps⟩
    · exact absurd hreaped hr
  · obtain ⟨q, k, hreaps, htab⟩ | ⟨-, -, hpages⟩ := hlife.reaps_or hx
    · have hpk : p = k := by
        by_contra hpk
        obtain ⟨howns, -⟩ := hfam.grown (p := k) (by rw [hreaps.zombie]; nofun) (by rw [hreaps.zombie]; nofun)
        rw [htab] at ha'
        exact ha' ((howns.pages_reap hpk a u).mpr ha)
      exact .inr ⟨q, hpk ▸ hreaps⟩
    · by_cases hp : (s.tab.proc p).state = .embryo
      · exact .inl hp
      · exact absurd (hpages a p u ha hp) ha'
  · obtain ⟨p, hp, htab, hnow⟩ | ⟨-, hor, hnow⟩ | hnow := hlife.inv.wait_scan hq hscan hx
    · rw [hr] at hnow
      cases hnow
      obtain ⟨hparent, hzombie⟩ := Table.zombieChild_some hp
      obtain ⟨howns, -⟩ := hfam.grown (p := p) (by rw [hzombie]; nofun) (by rw [hzombie]; nofun)
      exact ⟨p, howns.reaps hq hscan hr hparent hzombie htab, rfl⟩
    · rw [hr] at hnow
      cases hnow
      exact hor.symm.imp_right not_child_of_hasChild
    · rw [hr] at hnow
      cases hnow

end

/-- One CPU: `init` forks and waits, and the child exits. -/
def childExits : List (Unit × Choice) :=
  let go n := List.replicate n Choice.go
  let choices : List Choice := go 6 ++ [.fork] ++ go 4 ++ [.page (some 2), .page (some 3)] ++ go 4 ++
    [.wait] ++ go 4 ++ go 5 ++ [.exit, .exit] ++ go 4
  choices.map fun ch => ((), ch)

theorem lifeCycle_of_run_childExits :
    ∃ s : Sys Unit, Reached s ∧ (s.tab.proc 1).state = .zombie ∧ ∃ q, (s.tab.proc 1).parent = some q ∧
      (s.tab.proc q).state ∉ [.unused, .embryo, .zombie] := by
  have hx : (Run.execAll Sys.exec (boot Unit) childExits).any
      fun s => decide ((s.tab.proc 1).state = .zombie) := by decide +kernel
  obtain ⟨s, hrun, hs⟩ := Run.exists_run hx
  have hs := of_decide_eq_true hs
  obtain ⟨q, hq, hstate, -⟩ :=
    (lifeCycle_of_run hrun).2.1 1 (by decide) (by rw [hs]; nofun) (by rw [hs]; nofun)
  exact ⟨s, hrun, hs, q, hq, hstate⟩

end Xv6.Machine
