import Xv6.LifeCycle

/-!
# Processes that are killed

`kill` looks for a pid in all slots, also in those that are `UNUSED`, which have the pid 0 or that of a
process whose `fork` failed, and `allocproc` does not clear `killed`. As long as no `kill` finds an unused
slot, and no `fork` fails whose new process has been killed meanwhile, only those processes are killed that a
`kill` named or that faulted.
-/

namespace Xv6.Machine

variable {κ : Type}

/-- A `kill` does not find an unused slot first, and the process of a `fork` that fails is not killed. -/
def Base.killOk (T : Table) : Base → Choice → Bool
  | .kill pid .scan, _ => ∀ k, (T.proc k).state = .unused → (T.proc k).pid = pid →
    ∃ j, j < k ∧ (T.proc j).state ≠ .unused ∧ (T.proc j).pid = pid
  | .fork (.stack k), .page none => !(T.proc k).killed
  | .fork (.unuse k), _ => !(T.proc k).killed
  | _, _ => true

/-- The condition on a step. -/
def KillOk (s : Sys κ) (l : κ × Choice) : Prop :=
  (s.now l.1).irq = none → (s.now l.1).base.killOk s.tab l.2 = true

instance (s : Sys κ) (l : κ × Choice) : Decidable (KillOk s l) :=
  inferInstanceAs (Decidable (_ = none → _ = true))

/-! ## The flags in a step -/

/-- No unused slot is marked as killed, and all others that are have been named by a `kill` or have faulted. -/
structure Killed (T : Table) : Prop where
  unused : ∀ {p}, (T.proc p).state = .unused → (T.proc p).killed = false
  cause : ∀ {p}, (T.proc p).killed = true → (T.proc p).named = true ∨ (T.proc p).faulted = true

/-- The flags of process `p` stay, but it may have been named, and its slot does not become unused. -/
structure SameFlags (T T' : Table) (p : Slot) : Prop where
  killed : (T'.proc p).killed = (T.proc p).killed
  named : (T.proc p).named = true → (T'.proc p).named = true
  faulted : (T'.proc p).faulted = (T.proc p).faulted
  unused : (T'.proc p).state = .unused → (T.proc p).state = .unused

section
variable {T T' : Table} {o : Option Slot} {t t' : Thread} {ch : Choice} {p k : Slot}

theorem SameFlags.refl (T : Table) (p : Slot) : SameFlags T T p := ⟨rfl, id, rfl, id⟩

theorem SameFlags.trans {T'' : Table} (h : SameFlags T T' p) (h' : SameFlags T' T'' p) : SameFlags T T'' p :=
  ⟨h'.killed.trans h.killed, h'.named ∘ h.named, h'.faulted.trans h.faulted, h.unused ∘ h'.unused⟩

theorem SameFlags.of_proc (h : T'.proc p = T.proc p) : SameFlags T T' p := by
  refine ⟨?_, ?_, ?_, ?_⟩ <;> rw [h]
  exacts [id, id]

theorem SameFlags.upd {f : Proc → Proc}
    (hf : ∀ q, (f q).killed = q.killed ∧ (f q).named = q.named ∧ (f q).faulted = q.faulted ∧
      ((f q).state = .unused → q.state = .unused)) : SameFlags T (T.upd k f) p := by
  by_cases hp : p = k
  · subst hp
    obtain ⟨h1, h2, h3, h4⟩ := hf (T.proc p)
    refine ⟨?_, ?_, ?_, ?_⟩ <;> rw [T.upd_self]
    exacts [h1, fun hn => h2.trans hn, h3, h4]
  · exact .of_proc (T.upd_of_ne f hp)

theorem SameFlags.wakeup1 (T : Table) (c : Chan) (p : Slot) : SameFlags T (T.wakeup1 c) p := by
  refine ⟨?_, ?_, ?_, ?_⟩ <;> simp only [Table.wakeup1] <;> split
  all_goals first
    | rfl
    | exact id
    | rintro ⟨⟩

theorem SameFlags.reparent (T : Table) (i p : Slot) : SameFlags T (T.reparent i) p := by
  have hgive : ∀ (T : Table) q, SameFlags T (T.giveAway i q) p := by
    intro T q
    unfold Table.giveAway
    split
    · have hupd : SameFlags T (T.upd q fun x => { x with parent := some initproc }) p :=
        .upd fun _ => ⟨rfl, rfl, rfl, id⟩
      dsimp only
      split
      · exact hupd.trans (.wakeup1 _ _ p)
      · exact hupd
    · exact .refl T p
  have hfold : ∀ (l : List Slot) (T : Table), SameFlags T (l.foldl (fun T q => T.giveAway i q) T) p := by
    intro l
    induction l with
    | nil => exact fun T => .refl T p
    | cons q l ih => exact fun T => (hgive T q).trans (ih _)
  unfold Table.reparent
  generalize List.finRange NPROC = l
  have h := hfold l T
  exact ⟨h.killed, h.named, h.faulted, h.unused⟩

theorem findPid_some {pid : BitVec 32} (h : T.findPid pid = some k) :
    (T.proc k).pid = pid ∧ ∀ j, j < k → (T.proc j).pid ≠ pid := by
  refine ⟨by simpa using List.find?_some h, fun j hj hpid => ?_⟩
  obtain ⟨-, i, hi, hik, hbefore⟩ := List.find?_eq_some_iff_getElem.mp h
  have hji : j.val < i := by
    rw [List.getElem_finRange] at hik
    rw [← hik] at hj
    exact hj
  have hj := hbefore j.val hji
  rw [List.getElem_finRange] at hj
  simp [hpid] at hj

/-- What a step of thread `t` of process `o` does to the flags of process `p`. -/
inductive FlagStep (T T' : Table) (o : Option Slot) (t : Thread) (p : Slot) : Prop
  | same (h : SameFlags T T' p)
  | born (hu : (T.proc p).state = .unused) (hk : (T'.proc p).killed = (T.proc p).killed)
  | clear (hk : (T'.proc p).killed = false)
  | kill {pid} (ht : t = ⟨none, .kill pid .scan⟩) (hpid : (T.proc p).pid = pid)
    (hu : (T.proc p).state ≠ .unused) (hu' : (T'.proc p).state ≠ .unused) (hn : (T'.proc p).named = true)
  | fault (ht : t = ⟨none, .kernel false none⟩) (ho : o = some p)
    (hu : (T.proc p).state ≠ .unused) (hu' : (T'.proc p).state ≠ .unused) (hf : (T'.proc p).faulted = true)

theorem FlagStep.of_upd {f : Proc → Proc} (h : FlagStep T (T.upd k f) o t k) : FlagStep T (T.upd k f) o t p := by
  by_cases hp : p = k
  · subst hp
    exact h
  · exact .same (.of_proc (T.upd_of_ne f hp))

theorem used_of_findPid {pid : BitVec 32} (hk : T.findPid pid = some k)
    (hok : (Base.kill pid .scan).killOk T ch = true) : (T.proc k).state ≠ .unused := by
  obtain ⟨hpid, hfirst⟩ := findPid_some hk
  intro hu
  obtain ⟨j, hj, -, hjpid⟩ := of_decide_eq_true hok k hu hpid
  exact hfirst j hj hjpid

theorem FlagStep.kill_scan {pid : BitVec 32} (hk : T.findPid pid = some k)
    (hok : (Base.kill pid .scan).killOk T ch = true) :
    FlagStep T ((T.name pid).killProc k) o ⟨none, .kill pid .scan⟩ p := by
  obtain ⟨hpid, -⟩ := findPid_some hk
  have hu := used_of_findPid hk hok
  have hname : SameFlags T (T.name pid) p := by
    refine ⟨?_, ?_, ?_, ?_⟩ <;> simp only [Table.name] <;> split
    all_goals first
      | rfl
      | exact id
      | exact fun _ => rfl
  by_cases hp : p = k
  · subst hp
    have hself : (T.name pid).proc p = { T.proc p with named := true } := if_pos ⟨hu, hpid⟩
    refine .kill rfl hpid hu ?_ ?_ <;> rw [Table.killProc, Table.upd_self, hself]
    dsimp only
    split
    · rintro ⟨⟩
    · exact hu
  · exact .same (hname.trans (.of_proc ((T.name pid).upd_of_ne _ hp)))

theorem TableStep.flags (h : TableStep T o t T' t') (hok : t.irq = none → t.base.killOk T ch = true)
    (hch : ∀ k, t = ⟨none, .fork (.stack k)⟩ → ch = .page none)
    (hrun : ∀ i, t.base.isScheduler = false → o = some i → (T.proc i).state ≠ .unused) (p : Slot) :
    FlagStep T T' o t p := by
  cases h with
  | handlerWakeup | wakeup | exitWakeup => exact .same (.wakeup1 T _ p)
  | yield | sleep | waitSleep | publish | zombie | running => exact .same (.upd fun _ => ⟨rfl, rfl, rfl, nofun⟩)
  | sleepClear | waitClear | noDir | setParent => exact .same (.upd fun _ => ⟨rfl, rfl, rfl, id⟩)
  | @setDir k a =>
    have hupd : SameFlags T (T.upd k fun q => { q with pgdir := some a }) p := .upd fun _ => ⟨rfl, rfl, rfl, id⟩
    exact .same ⟨hupd.killed, hupd.named, hupd.faulted, hupd.unused⟩
  | @freeStack k =>
    have hupd : SameFlags T (T.upd k fun q => { q with kstack := none }) p := .upd fun _ => ⟨rfl, rfl, rfl, id⟩
    exact .same ⟨hupd.killed, hupd.named, hupd.faulted, hupd.unused⟩
  | reparent => exact .same (.reparent T _ p)
  | kill hk => exact .kill_scan hk (hok rfl)
  | @found k hk =>
    by_cases hp : p = k
    · subst hp
      exact .born hk (by simp only [Table.found, Function.update_self])
    · exact .same (.of_proc (Function.update_of_ne hp ..))
  | @noStack k =>
    have hclear : (!(T.proc k).killed) = true := by
      have := hok rfl
      rwa [hch k rfl] at this
    refine .of_upd (.clear ?_)
    rw [T.upd_self]
    exact Bool.not_eq_true' _ ▸ hclear
  | @unuse k =>
    have hclear : (!(T.proc k).killed) = true := hok rfl
    refine .of_upd (.clear ?_)
    rw [T.upd_self]
    exact Bool.not_eq_true' _ ▸ hclear
  | @reap i k hi hk =>
    by_cases hp : p = k
    · subst hp
      exact .clear (by rw [Table.reap_proc, T.upd_self])
    · exact .same (.of_proc (by rw [Table.reap_proc, T.upd_of_ne _ hp]))
  | @fault i hi =>
    have hu := hrun i rfl hi
    refine .of_upd (.fault rfl hi hu ?_ ?_) <;> rw [T.upd_self]
    exact hu

theorem Killed.step (h : Killed T) (hf : ∀ p, FlagStep T T' o t p) : Killed T' := by
  refine ⟨fun {p} hu => ?_, fun {p} hk => ?_⟩
  · cases hf p with
    | same hs => exact hs.killed.trans (h.unused (hs.unused hu))
    | born hold hk => exact hk.trans (h.unused hold)
    | clear hk => exact hk
    | kill _ _ _ hu' | fault _ _ _ hu' => exact absurd hu hu'
  · cases hf p with
    | same hs =>
      rw [hs.faulted]
      exact (h.cause (hs.killed ▸ hk)).imp_left hs.named
    | born hold hk' =>
      rw [hk', h.unused hold] at hk
      cases hk
    | clear hk' =>
      rw [hk'] at hk
      cases hk
    | kill _ _ _ _ hn => exact .inl hn
    | fault _ _ _ _ hf => exact .inr hf

theorem FlagStep.sets (h : FlagStep T T' o t p) (hk : (T.proc p).killed = false)
    (hk' : (T'.proc p).killed = true) : (T.proc p).state ≠ .unused ∧
      (t = ⟨none, .kill (T.proc p).pid .scan⟩ ∨ t = ⟨none, .kernel false none⟩ ∧ o = some p) := by
  cases h with
  | same hs =>
    rw [hs.killed, hk] at hk'
    cases hk'
  | born _ hs =>
    rw [hs, hk] at hk'
    cases hk'
  | clear hs =>
    rw [hs] at hk'
    cases hk'
  | kill ht hpid hu => exact ⟨hu, .inl (hpid ▸ ht)⟩
  | fault ht ho hu => exact ⟨hu, .inr ⟨ht, ho⟩⟩

end

/-! ## Runs -/

section
variable [DecidableEq κ] {s s' : Sys κ} {c : κ} {ch : Choice}

/-- A step does not change the table, or it is one of those in `TableStep`, or it sets a kernel stack. -/
theorem Sys.exec_tab (h : s.exec (c, ch) = some s') :
    s'.tab = s.tab ∨ (∃ k a, s'.tab = s.tab.setStack k a) ∨
      ∃ t', (s.now c).act s.tab (s.cpu c) ch = some (.table s'.tab t') := by
  unfold Sys.exec at h
  obtain ⟨-, h⟩ := Option.ite_none_left_eq_some.mp h
  obtain ⟨a, hact, h⟩ := Option.bind_eq_some_iff.mp h
  dsimp only at hact h
  rw [← Sys.now] at hact
  cases a with
  | goto t' | mask on t' | setProc o t' | run k t' | resume x t' | panic msg =>
    cases h
    exact .inl rfl
  | lock k t' =>
    simp only [Sys.apply] at h
    split at h
    · cases h
      exact .inl rfl
    · obtain ⟨-, h⟩ := Option.ite_none_right_eq_some.mp h
      cases h
      exact .inl rfl
  | unlock k t' =>
    simp only [Sys.apply] at h
    split_ifs at h <;> cases h <;> exact .inl rfl
  | sched f =>
    simp only [Sys.apply] at h
    split at h
    · cases h
      exact .inl rfl
    · split_ifs at h <;> cases h <;> exact .inl rfl
  | spawn k T' t' =>
    obtain ⟨a, -, rfl, -, rfl⟩ := Thread.flow hact
    cases h
    exact .inr (.inl ⟨k, a, rfl⟩)
  | table T' t' =>
    cases h
    exact .inr (.inr ⟨t', hact⟩)

theorem choice_of_noStack {T T' : Table} {cpu : Cpu} {k : Slot} {t' : Thread}
    (h : (⟨none, .fork (.stack k)⟩ : Thread).act T cpu ch = some (.table T' t')) : ch = .page none := by
  simp only [Thread.act, Base.procAct] at h
  split_ifs at h
  · cases h
  · split at h
    · cases ch with
      | page a =>
        cases a with
        | none => rfl
        | some a =>
          simp only [ForkAt.act] at h
          obtain ⟨-, h⟩ := Option.ite_none_right_eq_some.mp h
          cases h
      | _ => cases h
    · cases h

theorem Inv.flags (hs : Inv s) (hok : KillOk s (c, ch)) (hx : s.exec (c, ch) = some s') (p : Slot) :
    FlagStep s.tab s'.tab (s.cpu c).proc (s.now c) p := by
  obtain htab | ⟨k, a, htab⟩ | ⟨t', hact⟩ := Sys.exec_tab hx
  · rw [htab]
    exact .same (.refl _ _)
  · rw [htab]
    have hupd : SameFlags s.tab (s.tab.upd k fun q => { q with kstack := some a }) p :=
      .upd fun _ => ⟨rfl, rfl, rfl, id⟩
    exact .same ⟨hupd.killed, hupd.named, hupd.faulted, hupd.unused⟩
  · have hstep : TableStep s.tab (s.cpu c).proc (s.now c) s'.tab t' := Thread.flow hact
    refine hstep.flags hok (fun k hk => ?_) (fun i hb hi => ?_) p
    · rw [hk] at hact
      exact choice_of_noStack hact
    · have hcur := Inv.cur_of_self ((hs.mine c).eq (.inl hb) hi)
      rw [hs.state hcur]
      exact expected_ne.1

omit [DecidableEq κ] in
theorem killed_boot : Killed (boot κ).tab := by
  have hclear : ∀ p, ((boot κ).tab.proc p).killed = false := by
    intro p
    by_cases hp : p = initproc
    · subst hp
      rfl
    · simp [boot, bootTable, unusedProc, hp]
  refine ⟨fun {p} _ => hclear p, fun {p} hk => ?_⟩
  rw [hclear] at hk
  cases hk

theorem Inv.kill_scan (hs : Inv s) {pid : BitVec 32} (hnow : s.now c = ⟨none, .kill pid .scan⟩)
    (hx : s.exec (c, ch) = some s') :
    (∃ k, s.tab.findPid pid = some k) ∨ s'.now c = ⟨none, .kill pid (.release false)⟩ := by
  obtain ⟨i, hi, -⟩ := hs.mine c (.inl (by rw [hnow]; rfl))
  obtain ⟨a, hact, hx⟩ := hs.procAct (Inv.cur_of_self hi) hnow (List.mem_cons_self ..) hx
  cases ch with
  | go =>
    simp only [Base.procAct, KillAt.act] at hact
    split at hact
    · next k hk => exact .inl ⟨k, hk⟩
    · cases hact
      cases hx
      exact .inr (Sys.now_goto rfl rfl)
  | _ => cases hact

/-- No unused slot is marked as killed, and a process that is has been named by a `kill` since its slot was
taken, or it faulted. A step sets the flag only of a process that it names or that faults; `kill` returns 0
only if there is a process with the pid; and a new process is not killed. -/
theorem killed_of_run (h : Run Sys.exec KillOk (boot κ) s) :
    (∀ p, (s.tab.proc p).state = .unused → (s.tab.proc p).killed = false) ∧
    (∀ p, (s.tab.proc p).killed = true → (s.tab.proc p).named = true ∨ (s.tab.proc p).faulted = true) ∧
    ∀ c ch s', KillOk s (c, ch) → s.exec (c, ch) = some s' →
      (∀ p, (s.tab.proc p).killed = false → (s'.tab.proc p).killed = true → (s.tab.proc p).state ≠ .unused ∧
        (s.now c = ⟨none, .kill (s.tab.proc p).pid .scan⟩ ∨
          s.now c = ⟨none, .kernel false none⟩ ∧ (s.cpu c).proc = some p)) ∧
      (∀ pid, s.now c = ⟨none, .kill pid .scan⟩ → s'.now c = ⟨none, .kill pid (.release true)⟩ →
        ∃ p, (s.tab.proc p).state ≠ .unused ∧ (s.tab.proc p).pid = pid) ∧
      ∀ p, (s.tab.proc p).state = .unused → (s'.tab.proc p).state ≠ .unused →
        (s'.tab.proc p).killed = false := by
  have hinv : Inv s ∧ Killed s.tab := by
    refine h.invariant (I := fun s => Inv s ∧ Killed s.tab) ⟨.boot, killed_boot⟩ fun s l s' hs hok hx => ?_
    exact ⟨(hs.1.step hx).1, hs.2.step (hs.1.flags hok hx)⟩
  obtain ⟨hs, hkilled⟩ := hinv
  refine ⟨fun p => hkilled.unused, fun p => hkilled.cause, fun c ch s' hok hx => ?_⟩
  have hflags := hs.flags hok hx
  refine ⟨fun p hk hk' => (hflags p).sets hk hk', fun pid hscan hret => ?_, fun p hu _ => ?_⟩
  · obtain ⟨k, hk⟩ | hnow := hs.kill_scan hscan hx
    · have hok : (s.now c).irq = none → (s.now c).base.killOk s.tab ch = true := hok
      rw [hscan] at hok
      exact ⟨k, used_of_findPid hk (hok rfl), (findPid_some hk).1⟩
    · rw [hret] at hnow
      cases hnow
  · by_contra hne
    exact ((hflags p).sets (hkilled.unused hu) (Bool.eq_true_of_not_eq_false hne)).1 hu

end

/-- One CPU: `init` forks a process and kills it. -/
def killChild : List (Unit × Choice) :=
  let go n := List.replicate n Choice.go
  let choices : List Choice := go 6 ++ [.fork] ++ go 4 ++ [.page (some 2), .page (some 3)] ++ go 4 ++
    [.kill 2] ++ go 2
  choices.map fun ch => ((), ch)

theorem killed_of_run_killChild :
    ∃ s : Sys Unit, Run Sys.exec KillOk (boot Unit) s ∧ (s.tab.proc 1).killed = true ∧
      ((s.tab.proc 1).named = true ∨ (s.tab.proc 1).faulted = true) := by
  have hx : (Run.execAll (fun s l => if KillOk s l then Sys.exec s l else none) (boot Unit) killChild).any
      fun s => (s.tab.proc 1).killed := by decide +kernel
  obtain ⟨s, hrun, hs⟩ := Run.exists_run hx
  have hrun := Run.of_checked hrun
  exact ⟨s, hrun, hs, (killed_of_run hrun).2.1 1 hs⟩

/-- One CPU: `init` kills process 0, which there is not, and then forks. -/
def killZero : List (Unit × Choice) :=
  let go n := List.replicate n Choice.go
  let choices : List Choice := go 6 ++ [.kill 0] ++ go 2
  choices.map fun ch => ((), ch)

def forkNext : List (Unit × Choice) :=
  let go n := List.replicate n Choice.go
  let choices : List Choice := go 1 ++ [.fork] ++ go 4 ++ [.page (some 2), .page (some 3)] ++ go 4
  choices.map fun ch => ((), ch)

/-- `kill(0)` returns 0 although no process has the pid 0, and the process that is forked next is killed. -/
theorem killed_killZero :
    ∃ s s' : Sys Unit, Reached s ∧ Reached s' ∧ s.now () = ⟨none, .kill 0 (.release true)⟩ ∧
      (∀ p, (s.tab.proc p).state ≠ .unused → (s.tab.proc p).pid ≠ 0) ∧
      (s'.tab.proc 1).state = .runnable ∧ (s'.tab.proc 1).killed = true ∧
      (s'.tab.proc 1).named = false ∧ (s'.tab.proc 1).faulted = false := by
  have hx : (Run.execAll Sys.exec (boot Unit) killZero).any fun s =>
      decide (s.now () = ⟨none, .kill 0 (.release true)⟩ ∧
        ∀ p, (s.tab.proc p).state ≠ .unused → (s.tab.proc p).pid ≠ 0) := by decide +kernel
  have hx' : (Run.execAll Sys.exec (boot Unit) (killZero ++ forkNext)).any fun s =>
      decide ((s.tab.proc 1).state = .runnable ∧ (s.tab.proc 1).killed = true ∧
        (s.tab.proc 1).named = false ∧ (s.tab.proc 1).faulted = false) := by decide +kernel
  obtain ⟨s, hrun, hs⟩ := Run.exists_run hx
  obtain ⟨s', hrun', hs'⟩ := Run.exists_run hx'
  obtain ⟨hret, hpid⟩ := of_decide_eq_true hs
  exact ⟨s, s', hrun, hrun', hret, hpid, of_decide_eq_true hs'⟩

end Xv6.Machine
