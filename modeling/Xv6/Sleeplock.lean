import Xv6.Lib.Monitor

/-!
# Sleep locks

`acquiresleep`, `releasesleep` and `holdingsleep` of `sleeplock.c`, as the program of a monitor: the inner spin
lock `lk->lk` is the lock of the data, and the sleep lock itself is the channel.
-/

namespace Xv6.Sleeplock

open Monitor

variable {ι : Type}

/-- `struct sleeplock`; `pid` is zero, or the process that has the lock. -/
structure Lk (ι : Type) where
  locked : Bool
  pid : Option ι
  deriving DecidableEq

/-- The statements under `lk->lk`. A process that has the sleep lock may call `acquiresleep` again, or
`holdingsleep`; `held` says whether it has. -/
inductive Stmt where
  | acquireLoop (held : Bool)
  | acquireLocked
  | acquirePid
  | acquireRelease
  | releaseLocked
  | releasePid
  | releaseWakeup
  | releaseRelease
  | holding (held : Bool)
  deriving DecidableEq

/-- A process outside knows whether it has the sleep lock. -/
def act (p : ι) (_ : Bool) (d : Lk ι) : Stmt → Action (Lk ι) Stmt Bool Unit
  -- acquiresleep
  | .acquireLoop held => if d.locked then .sleep () (.acquireLoop held) else .run d .acquireLocked
  | .acquireLocked => .run { d with locked := true } .acquirePid
  | .acquirePid => .run { d with pid := some p } .acquireRelease
  | .acquireRelease => .leave d true
  -- releasesleep
  | .releaseLocked => .run { d with locked := false } .releasePid
  | .releasePid => .run { d with pid := none } .releaseWakeup
  | .releaseWakeup => .wakeup () .releaseRelease
  | .releaseRelease => .leave d false
  -- holdingsleep
  | .holding held => .leave d held

/-- `releasesleep` is called by a process that has the lock. -/
def call : Bool → Stmt → Bool
  | held, .acquireLoop held' | held, .holding held' => held == held'
  | held, .releaseLocked => held
  | _, _ => false

def code (ι : Type) : Code ι (Lk ι) Stmt Bool Unit where
  act := act
  call := call

abbrev Sys (ι : Type) : Type := Monitor.Sys ι (Lk ι) Stmt Bool Unit

/-- After `initsleeplock`. -/
def init (ι : Type) : Sys ι := .start ⟨false, none⟩ false

/-- The process has the sleep lock: it is between its `acquiresleep` and its `releasesleep`. -/
def Stmt.held : Stmt → Bool
  | .acquireLoop held | .holding held => held
  | .acquireRelease | .releaseLocked => true
  | _ => false

def Holds (s : Sys ι) (p : ι) : Prop :=
  (match (s.pc p).place with
    | .inl held => held
    | .inr l => l.held) = true

/-! ## What the processes know -/

/-- The process that has the lock is the one whose number is in it. -/
def Own (p : ι) (held : Bool) (d : Lk ι) : Prop := held = true → d.locked = true ∧ d.pid = some p

variable {p : ι} {held : Bool} {d d' : Lk ι}

theorem Own.of_pid_none (h : Own p held d) (hd : d.pid = none) : Own p held d' := by
  intro hheld
  rw [(h hheld).2] at hd
  cases hd

theorem Own.of_pid_some {q : ι} (h : Own q held d) (hd : d.pid = some p) (hq : q ≠ p) : Own q held d' := by
  intro hheld
  rw [(h hheld).2] at hd
  exact absurd (Option.some.inj hd) hq

/-- The lock between calls. -/
def Settled (d : Lk ι) : Prop := d.locked = false → d.pid = none

def inside (p : ι) (l : Stmt) (d : Lk ι) : Prop :=
  match l with
  | .acquireLoop held | .holding held => Settled d ∧ Own p held d
  | .acquireLocked => d.locked = false ∧ d.pid = none
  | .acquirePid => d.locked = true ∧ d.pid = none
  | .acquireRelease | .releaseLocked => d.locked = true ∧ d.pid = some p
  | .releasePid => d.locked = false ∧ d.pid = some p
  | .releaseWakeup | .releaseRelease => d.locked = false ∧ d.pid = none

def outside (p : ι) (x : Bool ⊕ Stmt) (d : Lk ι) : Prop :=
  match x with
  | .inl held => Own p held d
  | .inr l => Own p l.held d ∧ call l.held l = true

theorem outside_of_own {x : Bool ⊕ Stmt} (h : ∀ held, Own p held d → Own p held d')
    (hx : outside p x d) : outside p x d' := by
  cases x with
  | inl held => exact h held hx
  | inr l => exact ⟨h l.held hx.1, hx.2⟩

def rule (ι : Type) : Rule (code ι) Guard.none where
  free := Settled
  inside := inside
  outside := outside
  call := by
    intro p held l d hcall hout
    cases l with
    | acquireLoop held' | holding held' =>
      obtain rfl : held = held' := by simpa [code, call] using hcall
      exact ⟨hout, hcall⟩
    | releaseLocked =>
      obtain rfl : held = true := hcall
      exact ⟨hout, rfl⟩
    | _ => cases hcall
  enter := by
    intro p l d hfree hout
    cases l with
    | acquireLoop | holding => exact ⟨hfree, hout.1⟩
    | releaseLocked => exact hout.1 rfl
    | _ => cases hout.2
  run := by
    intro p k d l d' l' _ hin hact
    cases l with
    | acquireLoop held =>
      simp only [code, act] at hact
      split at hact
      · cases hact
      · next hfree =>
        cases hact
        have hfree : d.locked = false := by simpa using hfree
        exact ⟨⟨hfree, hin.1 hfree⟩, fun _ _ _ h => h⟩
    | acquireLocked =>
      cases hact
      exact ⟨⟨rfl, hin.2⟩, fun q x _ => outside_of_own fun _ h => h.of_pid_none hin.2⟩
    | acquirePid =>
      cases hact
      exact ⟨⟨hin.1, rfl⟩, fun q x _ => outside_of_own fun _ h => h.of_pid_none hin.2⟩
    | releaseLocked =>
      cases hact
      exact ⟨⟨rfl, hin.2⟩, fun q x hq => outside_of_own fun _ h => h.of_pid_some hin.2 hq⟩
    | releasePid =>
      cases hact
      exact ⟨⟨hin.1, rfl⟩, fun q x hq => outside_of_own fun _ h => h.of_pid_some hin.2 hq⟩
    | _ => cases hact
  sleep := by
    intro p k d l c l' _ hin hact
    cases l with
    | acquireLoop held =>
      simp only [code, act] at hact
      split at hact
      · cases hact
        exact ⟨hin.1, hin.2, by simp [Stmt.held, call]⟩
      · cases hact
    | _ => cases hact
  wakeup := by
    intro p k d l c l' _ hin hact
    cases l with
    | releaseWakeup =>
      cases hact
      exact hin
    | acquireLoop held =>
      simp only [code, act] at hact
      split at hact <;> cases hact
    | _ => cases hact
  leave := by
    intro p k d l d' o _ hin hact
    cases l with
    | acquireRelease =>
      cases hact
      exact ⟨fun h => absurd hin.1 (by simp [h]), fun _ => hin, fun _ _ _ h => h⟩
    | releaseRelease =>
      cases hact
      exact ⟨fun _ => hin.2, nofun, fun _ _ _ h => h⟩
    | holding held =>
      cases hact
      exact ⟨hin.1, hin.2, fun _ _ _ h => h⟩
    | acquireLoop held =>
      simp only [code, act] at hact
      split at hact <;> cases hact
    | _ => cases hact

/-! ## Sleepers -/

/-- A process sleeps because the lock is taken. Who clears `locked` owes a wakeup. -/
def waits (ι : Type) : Waits (rule ι) where
  stay _ d := d.locked = true
  slept _ _ := True
  owes l _ _ := l = .releasePid ∨ l = .releaseWakeup
  run := by
    intro p k d l d' l' c _ hin hact
    cases l with
    | acquireLoop held =>
      simp only [code, act] at hact
      split at hact
      · cases hact
      · cases hact
        simp
    | acquireLocked | acquirePid | releaseLocked | releasePid =>
      cases hact
      simp
    | _ => cases hact
  sleep := by
    intro p k d l c l' _ hin hact
    cases l with
    | acquireLoop held =>
      simp only [code, act] at hact
      split at hact
      · next hlocked => exact ⟨trivial, hlocked, by simp⟩
      · cases hact
    | _ => cases hact
  wakeup := by
    intro p k d l c l' c' _ hin hact _
    exact .inl rfl
  leave := by
    intro p k d l d' o c _ hin hact
    cases l with
    | acquireRelease | releaseRelease | holding =>
      cases hact
      simp
    | acquireLoop held =>
      simp only [code, act] at hact
      split at hact <;> cases hact
    | _ => cases hact

variable {s : Sys ι}

theorem own_of_inv (hs : (rule ι).Inv s) (hp : Holds s p) : s.data.pid = some p := by
  have hknows := hs.holds p
  unfold Holds at hp
  cases hpc : s.pc p with
  | out held | killAcquire _ held | killScan _ held | killRelease held =>
    rw [hpc] at hp hknows
    exact (hknows hp).2
  | enter l | sleepSet _ l | sleepSched _ l | asleep _ l | woken l | resumed l =>
    rw [hpc] at hp hknows
    exact (hknows.1 hp).2
  | sleepAcquire _ l | sleepRelease _ l =>
    rw [hpc] at hp hknows
    exact (hknows.2.1 hp).2
  | inside l | wakeAcquire _ l | wakeScan _ l | wakeRelease l =>
    rw [hpc] at hp hknows
    cases l with
    | acquireLoop | holding => exact (hknows.2 hp).2
    | acquireRelease | releaseLocked => exact hknows.2
    | _ => cases hp

variable [DecidableEq ι]

/-- One process at a time has the sleep lock, and while the spin lock is free and the sleep lock is not
taken, nobody is asleep on it. -/
theorem sleeplock_of_run (h : Run (Monitor.Sys.exec (code ι)) (fun _ _ => True) (init ι) s) :
    (∀ p q, Holds s p → Holds s q → p = q) ∧
    (s.lock = false → s.data.locked = false → ∀ p, (s.pc p).chan = none) := by
  have hrun : Run (Monitor.Sys.exec (code ι)) (Monitor.Sys.Guarded Guard.none) (init ι) s :=
    h.mono fun _ _ _ => guarded_none
  have hstart : (rule ι).Inv (init ι) := Rule.inv_start (fun _ => rfl) fun _ => nofun
  have hs := Rule.sound hstart hrun
  refine ⟨fun p q hp hq => ?_, fun hfree hlocked p => ?_⟩
  · exact Option.some.inj ((own_of_inv hs hp).symm.trans (own_of_inv hs hq))
  · have hwaits : (waits ι).Inv s := Waits.sound Waits.inv_start hstart hrun
    cases hchan : (s.pc p).chan with
    | none => rfl
    | some c =>
      have hstay : s.data.locked = true := hwaits.stay hs hfree hchan
      rw [hlocked] at hstay
      cases hstay

/-- The second process sleeps until the first one releases the lock. -/
def handOver : List (Label Bool Stmt) :=
  [.proc false (.call (.acquireLoop false))] ++ List.replicate 5 (.proc false .go) ++
  [.proc true (.call (.acquireLoop false))] ++ List.replicate 6 (.proc true .go) ++ [.schedRelease] ++
  [.proc false (.call .releaseLocked)] ++ List.replicate 8 (.proc false .go) ++
  [.schedAcquire, .schedRun true] ++ List.replicate 6 (.proc true .go)

instance (s : Sys ι) (p : ι) : Decidable (Holds s p) := inferInstanceAs (Decidable (_ = true))

theorem sleeplock_of_run_handOver :
    ∃ s, Run (Monitor.Sys.exec (code Bool)) (fun _ _ => True) (init Bool) s ∧ Holds s true ∧
      ¬ Holds s false := by
  have hx : (Run.execAll (Monitor.Sys.exec (code Bool)) (init Bool) handOver).any
      fun s => decide (Holds s true) := by decide +kernel
  obtain ⟨s, hrun, hs⟩ := Run.exists_run hx
  have hs := of_decide_eq_true hs
  exact ⟨s, hrun, hs, fun hfalse => absurd ((sleeplock_of_run hrun).1 _ _ hs hfalse) (by decide)⟩

end Xv6.Sleeplock
