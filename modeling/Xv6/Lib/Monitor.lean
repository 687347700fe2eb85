import Xv6.Lib.Run
import Xv6.Lib.Threads

/-!
# Monitors with sleep and wakeup

Processes share data that a spin lock guards. Inside the lock a process runs statements, may sleep on a
channel, may wake its sleepers, and leaves. Who is asleep is in a table with a lock of its own: to sleep is
to lock the table, to give up the lock of the data, to note that one is asleep and to call the scheduler,
which lets go of the table. Killing a process wakes it.

`Rule.sound` is for what holds of the data whenever the lock is free, `Waits.sound` for why processes are
asleep: one that changes the reason owes the sleepers a wakeup until it leaves.
-/

namespace Monitor

open Function (update update_self update_of_ne)

/-- What a process that has the lock does next; the program goes on at `l`. -/
inductive Action (σ L O C : Type) where
  | run (d : σ) (l : L)
  | sleep (c : C) (l : L)
  | wakeup (c : C) (l : L)
  /-- Release the lock and return; the rest of the process knows `o`. -/
  | leave (d : σ) (o : O)

/-- The program. What it does depends on who runs it and on whether that process is killed. -/
structure Code (ι σ L O C : Type) where
  act : ι → Bool → σ → L → Action σ L O C
  /-- The calls that can be made. -/
  call : O → L → Bool

/-- Where a process is. -/
inductive Pc (ι L O C : Type) where
  | out (o : O)
  /-- In `acquire` of the lock. -/
  | enter (l : L)
  | inside (l : L)
  /-- `sleep`: in `acquire` of the table; then it has both locks, then only the table. -/
  | sleepAcquire (c : C) (l : L)
  | sleepRelease (c : C) (l : L)
  | sleepSet (c : C) (l : L)
  /-- It is noted as asleep, and about to call the scheduler. -/
  | sleepSched (c : C) (l : L)
  | asleep (c : C) (l : L)
  | woken (l : L)
  /-- The scheduler has passed on the table. -/
  | resumed (l : L)
  | wakeAcquire (c : C) (l : L)
  | wakeScan (c : C) (l : L)
  | wakeRelease (l : L)
  | killAcquire (q : ι) (o : O)
  | killScan (q : ι) (o : O)
  | killRelease (o : O)

variable {ι σ L O C : Type}

namespace Pc

def hasLock : Pc ι L O C → Bool
  | .inside _ | .sleepAcquire .. | .sleepRelease .. | .wakeAcquire .. | .wakeScan .. | .wakeRelease _ => true
  | _ => false

def hasTable : Pc ι L O C → Bool
  | .sleepRelease .. | .sleepSet .. | .sleepSched .. | .resumed _ | .wakeScan .. | .wakeRelease _
  | .killScan .. | .killRelease _ => true
  | _ => false

/-- Where the program goes on. -/
def place : Pc ι L O C → O ⊕ L
  | .out o | .killAcquire _ o | .killScan _ o | .killRelease o => .inl o
  | .enter l | .inside l | .sleepAcquire _ l | .sleepRelease _ l | .sleepSet _ l | .sleepSched _ l
  | .asleep _ l | .woken l | .resumed l | .wakeAcquire _ l | .wakeScan _ l | .wakeRelease l => .inr l

/-- The channel that the process is noted as asleep on. -/
def chan : Pc ι L O C → Option C
  | .sleepSched c _ | .asleep c _ => some c
  | _ => none

/-- The statement that a process inside the lock executes next. -/
def next : Pc ι L O C → Option L
  | .inside l => some l
  | _ => none

def rouse : Pc ι L O C → Pc ι L O C
  | .asleep _ l => .woken l
  | c => c

def wake [DecidableEq C] (c : C) : Pc ι L O C → Pc ι L O C
  | .asleep c' l => if c' = c then .woken l else .asleep c' l
  | a => a

end Pc

structure Sys (ι σ L O C : Type) where
  data : σ
  /-- Is the lock of the data taken? -/
  lock : Bool
  /-- Is the lock of the table taken, and is it a scheduler who has it? -/
  table : Bool
  sched : Bool
  pc : ι → Pc ι L O C
  killed : ι → Bool

inductive Move (ι L : Type) where
  | call (l : L)
  | kill (q : ι)
  /-- The next statement. -/
  | go

inductive Label (ι L : Type) where
  | proc (p : ι) (m : Move ι L)
  | schedAcquire
  | schedRelease
  | schedRun (p : ι)

/-- Process `p` goes to `a`. -/
abbrev Sys.to [DecidableEq ι] (s : Sys ι σ L O C) (p : ι) (a : Pc ι L O C) : ι → Pc ι L O C := update s.pc p a

/-- Process `p`, which is at `a`, executes a statement. -/
def Sys.go [DecidableEq ι] [DecidableEq C] (m : Code ι σ L O C) (s : Sys ι σ L O C) (p : ι) :
    Pc ι L O C → Option (Sys ι σ L O C)
  | .out _ | .asleep .. | .woken _ => none
  | .enter l => if s.lock then none else some { s with pc := s.to p (.inside l), lock := true }
  | .inside l =>
    match m.act p (s.killed p) s.data l with
    | .run d l' => some { s with pc := s.to p (.inside l'), data := d }
    | .sleep c l' => some { s with pc := s.to p (.sleepAcquire c l') }
    | .wakeup c l' => some { s with pc := s.to p (.wakeAcquire c l') }
    | .leave d o => some { s with pc := s.to p (.out o), data := d, lock := false }
  | .sleepAcquire c l => if s.table then none else some { s with pc := s.to p (.sleepRelease c l), table := true }
  | .sleepRelease c l => some { s with pc := s.to p (.sleepSet c l), lock := false }
  | .sleepSet c l => some { s with pc := s.to p (.sleepSched c l) }
  | .sleepSched c l => some { s with pc := s.to p (.asleep c l), sched := true }
  | .resumed l => some { s with pc := s.to p (.enter l), table := false }
  | .wakeAcquire c l => if s.table then none else some { s with pc := s.to p (.wakeScan c l), table := true }
  | .wakeScan c l => some { s with pc := update (fun q => (s.pc q).wake c) p (.wakeRelease l) }
  | .wakeRelease l => some { s with pc := s.to p (.inside l), table := false }
  | .killAcquire q o => if s.table then none else some { s with pc := s.to p (.killScan q o), table := true }
  | .killScan q o =>
    some { s with
      pc := update (update s.pc q (s.pc q).rouse) p (.killRelease o)
      killed := update s.killed q true }
  | .killRelease o => some { s with pc := s.to p (.out o), table := false }

def Sys.exec [DecidableEq ι] [DecidableEq C] (m : Code ι σ L O C) (s : Sys ι σ L O C) :
    Label ι L → Option (Sys ι σ L O C)
  | .proc p (.call l) =>
    match s.pc p with
    | .out o => if m.call o l then some { s with pc := s.to p (.enter l) } else none
    | _ => none
  | .proc p (.kill q) =>
    match s.pc p with
    | .out o => some { s with pc := s.to p (.killAcquire q o) }
    | _ => none
  | .proc p .go => s.go m p (s.pc p)
  | .schedAcquire => if s.table then none else some { s with table := true, sched := true }
  | .schedRelease => if s.sched then some { s with table := false, sched := false } else none
  | .schedRun p =>
    match s.pc p with
    | .woken l => if s.sched then some { s with pc := s.to p (.resumed l), sched := false } else none
    | _ => none

/-! ## What a step can do -/

/-- Conditions on a process that makes a call, and on one that is about to act inside the lock. -/
structure Guard (ι σ L O C : Type) where
  call : Sys ι σ L O C → ι → L → Prop
  act : ι → Bool → σ → L → Prop

def Guard.none : Guard ι σ L O C where
  call _ _ _ := True
  act _ _ _ _ := True

/-- The next step meets the guard. -/
def Sys.Guarded (G : Guard ι σ L O C) (s : Sys ι σ L O C) : Label ι L → Prop
  | .proc p (.call l) => G.call s p l
  | .proc p .go => ∀ l ∈ (s.pc p).next, G.act p (s.killed p) s.data l
  | _ => True

instance (G : Guard ι σ L O C) [∀ s p l, Decidable (G.call s p l)] [∀ p k d l, Decidable (G.act p k d l)]
    (s : Sys ι σ L O C) : ∀ i, Decidable (s.Guarded G i)
  | .proc p (.call l) => inferInstanceAs (Decidable (G.call s p l))
  | .proc p .go => inferInstanceAs (Decidable (∀ l ∈ (s.pc p).next, G.act p (s.killed p) s.data l))
  | .proc _ (.kill _) | .schedAcquire | .schedRelease | .schedRun _ => isTrue trivial

theorem guarded_none {s : Sys ι σ L O C} {i : Label ι L} : s.Guarded Guard.none i := by
  match i with
  | .proc _ .go => exact fun _ _ => trivial
  | .proc _ (.call _) | .proc _ (.kill _) | .schedAcquire | .schedRelease | .schedRun _ => trivial

/-- Process `p` at `l` does `x` next. -/
def Does (m : Code ι σ L O C) (G : Guard ι σ L O C) (s : Sys ι σ L O C) (p : ι) (l : L)
    (x : Action σ L O C) : Prop :=
  G.act p (s.killed p) s.data l ∧ m.act p (s.killed p) s.data l = x

/-- A process goes on in its program, and nothing happens to the data or to other processes. -/
inductive Goes (m : Code ι σ L O C) (G : Guard ι σ L O C) (s : Sys ι σ L O C) (p : ι) :
    Pc ι L O C → Pc ι L O C → Prop
  | call {o : O} {l : L} (h : m.call o l = true) (hg : G.call s p l) : Goes m G s p (.out o) (.enter l)
  | kill {o : O} {q : ι} : Goes m G s p (.out o) (.killAcquire q o)
  | enter {l : L} : Goes m G s p (.enter l) (.inside l)
  | sleep {l l' : L} {c : C} (h : Does m G s p l (.sleep c l')) :
    Goes m G s p (.inside l) (.sleepAcquire c l')
  | wakeup {l l' : L} {c : C} (h : Does m G s p l (.wakeup c l')) :
    Goes m G s p (.inside l) (.wakeAcquire c l')
  | sleepAcquire {l : L} {c : C} : Goes m G s p (.sleepAcquire c l) (.sleepRelease c l)
  | sleepRelease {l : L} {c : C} : Goes m G s p (.sleepRelease c l) (.sleepSet c l)
  | sleepSet {l : L} {c : C} : Goes m G s p (.sleepSet c l) (.sleepSched c l)
  | resumed {l : L} : Goes m G s p (.resumed l) (.enter l)
  | wakeAcquire {l : L} {c : C} : Goes m G s p (.wakeAcquire c l) (.wakeScan c l)
  | wakeRelease {l : L} : Goes m G s p (.wakeRelease l) (.inside l)
  | killAcquire {o : O} {q : ι} : Goes m G s p (.killAcquire q o) (.killScan q o)
  | killRelease {o : O} : Goes m G s p (.killRelease o) (.out o)

/-- The flag of a lock after a process went from a place with (`a`) or without it to a place with (`b`)
or without it. -/
def passed (a b flag : Bool) : Bool := if a = b then flag else b

/-- A lock that is taken cannot be taken again. -/
abbrev Free (a b flag : Bool) : Prop := b = true → a = true ∨ flag = false

inductive Step [DecidableEq ι] [DecidableEq C] (m : Code ι σ L O C) (G : Guard ι σ L O C) (s : Sys ι σ L O C)
    : Sys ι σ L O C → Prop
  | goes {p : ι} {b : Pc ι L O C} (h : Goes m G s p (s.pc p) b)
    (hlock : Free (s.pc p).hasLock b.hasLock s.lock) (htable : Free (s.pc p).hasTable b.hasTable s.table) :
    Step m G s { s with
      pc := s.to p b
      lock := passed (s.pc p).hasLock b.hasLock s.lock
      table := passed (s.pc p).hasTable b.hasTable s.table }
  | run {p : ι} {l l' : L} {d : σ} (hp : s.pc p = .inside l) (h : Does m G s p l (.run d l')) :
    Step m G s { s with pc := s.to p (.inside l'), data := d }
  | leave {p : ι} {l : L} {d : σ} {o : O} (hp : s.pc p = .inside l)
    (h : Does m G s p l (.leave d o)) : Step m G s { s with pc := s.to p (.out o), data := d, lock := false }
  | sleepSched {p : ι} {l : L} {c : C} (hp : s.pc p = .sleepSched c l) :
    Step m G s { s with pc := s.to p (.asleep c l), sched := true }
  | wakeScan {p : ι} {l : L} {c : C} (hp : s.pc p = .wakeScan c l) :
    Step m G s { s with pc := update (fun q => (s.pc q).wake c) p (.wakeRelease l) }
  | killScan {p q : ι} {o : O} (hp : s.pc p = .killScan q o) :
    Step m G s { s with
      pc := update (update s.pc q (s.pc q).rouse) p (.killRelease o)
      killed := update s.killed q true }
  | schedAcquire (h : s.table = false) : Step m G s { s with table := true, sched := true }
  | schedRelease (h : s.sched = true) : Step m G s { s with table := false, sched := false }
  | schedRun {p : ι} {l : L} (hp : s.pc p = .woken l) (h : s.sched = true) :
    Step m G s { s with pc := s.to p (.resumed l), sched := false }

variable {m : Code ι σ L O C} {G : Guard ι σ L O C} {s t : Sys ι σ L O C} {p : ι}

theorem Step.of_goes [DecidableEq ι] [DecidableEq C] {a b : Pc ι L O C} {lock table : Bool}
    (hp : s.pc p = a) (h : Goes m G s p a b)
    (hlock : Free a.hasLock b.hasLock s.lock) (htable : Free a.hasTable b.hasTable s.table)
    (h1 : passed a.hasLock b.hasLock s.lock = lock) (h2 : passed a.hasTable b.hasTable s.table = table) :
    Step m G s { s with pc := s.to p b, lock := lock, table := table } := by
  subst hp h1 h2
  exact .goes h hlock htable

theorem step_of_go [DecidableEq ι] [DecidableEq C] {a : Pc ι L O C} (hp : s.pc p = a)
    (hg : s.Guarded G (.proc p .go)) (h : s.go m p a = some t) : Step m G s t := by
  cases a with
  | out o | asleep c l | woken l => cases h
  | enter l =>
    obtain ⟨hlock, h⟩ := Option.ite_none_left_eq_some.mp h
    cases h
    exact .of_goes hp .enter (fun _ => .inr (by simpa using hlock)) nofun rfl rfl
  | inside l =>
    have hg := hg l (by rw [hp]; rfl)
    simp only [Sys.go] at h
    split at h
    · next hact =>
      cases h
      exact .run hp ⟨hg, hact⟩
    · next hact =>
      cases h
      exact .of_goes hp (.sleep ⟨hg, hact⟩) (fun _ => .inl rfl) nofun rfl rfl
    · next hact =>
      cases h
      exact .of_goes hp (.wakeup ⟨hg, hact⟩) (fun _ => .inl rfl) nofun rfl rfl
    · next hact =>
      cases h
      exact .leave hp ⟨hg, hact⟩
  | sleepAcquire c l =>
    obtain ⟨htable, h⟩ := Option.ite_none_left_eq_some.mp h
    cases h
    exact .of_goes hp .sleepAcquire (fun _ => .inl rfl) (fun _ => .inr (by simpa using htable)) rfl rfl
  | sleepRelease c l =>
    cases h
    exact .of_goes hp .sleepRelease nofun (fun _ => .inl rfl) rfl rfl
  | sleepSet c l =>
    cases h
    exact .of_goes hp .sleepSet nofun (fun _ => .inl rfl) rfl rfl
  | sleepSched c l =>
    cases h
    exact .sleepSched hp
  | resumed l =>
    cases h
    exact .of_goes hp .resumed nofun nofun rfl rfl
  | wakeAcquire c l =>
    obtain ⟨htable, h⟩ := Option.ite_none_left_eq_some.mp h
    cases h
    exact .of_goes hp .wakeAcquire (fun _ => .inl rfl) (fun _ => .inr (by simpa using htable)) rfl rfl
  | wakeScan c l =>
    cases h
    exact .wakeScan hp
  | wakeRelease l =>
    cases h
    exact .of_goes hp .wakeRelease (fun _ => .inl rfl) nofun rfl rfl
  | killAcquire q o =>
    obtain ⟨htable, h⟩ := Option.ite_none_left_eq_some.mp h
    cases h
    exact .of_goes hp .killAcquire nofun (fun _ => .inr (by simpa using htable)) rfl rfl
  | killScan q o =>
    cases h
    exact .killScan hp
  | killRelease o =>
    cases h
    exact .of_goes hp .killRelease nofun nofun rfl rfl

theorem step_of_exec [DecidableEq ι] [DecidableEq C] {i : Label ι L} (hg : s.Guarded G i)
    (h : s.exec m i = some t) : Step m G s t := by
  match i with
  | .proc p (.call l) =>
    simp only [Sys.exec] at h
    split at h
    · next o hp =>
      obtain ⟨hcall, h⟩ := Option.ite_none_right_eq_some.mp h
      cases h
      exact .of_goes hp (.call hcall hg) nofun nofun rfl rfl
    · cases h
  | .proc p (.kill q) =>
    simp only [Sys.exec] at h
    split at h
    · next o hp =>
      cases h
      exact .of_goes hp .kill nofun nofun rfl rfl
    · cases h
  | .proc p .go => exact step_of_go rfl hg h
  | .schedAcquire =>
    obtain ⟨htable, h⟩ := Option.ite_none_left_eq_some.mp h
    cases h
    exact .schedAcquire (by simpa using htable)
  | .schedRelease =>
    obtain ⟨hsched, h⟩ := Option.ite_none_right_eq_some.mp h
    cases h
    exact .schedRelease hsched
  | .schedRun p =>
    simp only [Sys.exec] at h
    split at h
    · next l hp =>
      obtain ⟨hsched, h⟩ := Option.ite_none_right_eq_some.mp h
      cases h
      exact .schedRun hp hsched
    · cases h

/-! ## Which call a process is in -/

section
variable {K : Type}

def Pc.kind (κ : L → K) (a : Pc ι L O C) : Option K := a.place.getRight?.map κ

/-- The statements of one call are all of one kind. -/
structure Code.Keeps (m : Code ι σ L O C) (κ : L → K) : Prop where
  run : ∀ {p k d l d' l'}, m.act p k d l = .run d' l' → κ l' = κ l
  sleep : ∀ {p k d l c l'}, m.act p k d l = .sleep c l' → κ l' = κ l
  wakeup : ∀ {p k d l c l'}, m.act p k d l = .wakeup c l' → κ l' = κ l

/-- Calls begin and end. -/
inductive Kinds [DecidableEq ι]
    (m : Code ι σ L O C) (G : Guard ι σ L O C) (κ : L → K) (s t : Sys ι σ L O C) : Prop
  | call {p : ι} {l : L} (hg : G.call s p l) (hd : t.data = s.data)
    (h : ∀ q, (t.pc q).kind κ = if q = p then some (κ l) else (s.pc q).kind κ)
  | run {p : ι} {l l' : L} (hp : s.pc p = .inside l) (hact : Does m G s p l (.run t.data l'))
    (h : ∀ q, (t.pc q).kind κ = (s.pc q).kind κ)
  | leave {p : ι} {l : L} {o : O} (hp : s.pc p = .inside l) (hact : Does m G s p l (.leave t.data o))
    (h : ∀ q, (t.pc q).kind κ = if q = p then none else (s.pc q).kind κ)
  | same (hd : t.data = s.data) (h : ∀ q, (t.pc q).kind κ = (s.pc q).kind κ)

variable {κ : L → K} {a b : Pc ι L O C}

theorem kind_update [DecidableEq ι] {pc : ι → Pc ι L O C} (q : ι) :
    (update pc p b q).kind κ = if q = p then b.kind κ else (pc q).kind κ := by
  by_cases hq : q = p
  · rw [hq, update_self, if_pos rfl]
  · rw [update_of_ne hq, if_neg hq]

theorem kind_update_same [DecidableEq ι] {pc : ι → Pc ι L O C} (h : b.kind κ = (pc p).kind κ) (q : ι) :
    (update pc p b q).kind κ = (pc q).kind κ := by
  rw [kind_update]
  split
  · next hq => rw [hq, h]
  · rfl

theorem kind_wake [DecidableEq C] (c : C) : (a.wake c).kind κ = a.kind κ := by
  cases a with
  | asleep c' l => by_cases hc : c' = c <;> simp [Pc.wake, hc, Pc.kind, Pc.place]
  | _ => rfl

theorem kind_rouse : a.rouse.kind κ = a.kind κ := by
  cases a <;> rfl

theorem kind_of_goes (hκ : m.Keeps κ) (h : Goes m G s p a b) :
    b.kind κ = a.kind κ ∨ ∃ l, G.call s p l ∧ b.kind κ = some (κ l) := by
  cases h with
  | call _ hg => exact .inr ⟨_, hg, rfl⟩
  | sleep hact => exact .inl (congrArg some (hκ.sleep hact.2))
  | wakeup hact => exact .inl (congrArg some (hκ.wakeup hact.2))
  | _ => exact .inl rfl

theorem Step.kinds [DecidableEq ι] [DecidableEq C] (hκ : m.Keeps κ) (h : Step m G s t) : Kinds m G κ s t := by
  cases h with
  | goes hgo _ _ =>
    obtain hkind | ⟨l, hg, hkind⟩ := kind_of_goes hκ hgo
    · exact .same rfl (kind_update_same hkind)
    · refine .call hg rfl fun q => ?_
      rw [kind_update, hkind]
  | run hp hact =>
    refine .run hp hact (kind_update_same ?_)
    rw [hp]
    exact congrArg some (hκ.run hact.2)
  | leave hp hact => exact .leave hp hact kind_update
  | sleepSched hp | schedRun hp _ => exact .same rfl (kind_update_same (by rw [hp]; rfl))
  | wakeScan hp =>
    next p l c =>
    refine .same rfl fun q => ?_
    have hself : (Pc.wakeRelease l : Pc ι L O C).kind κ = ((s.pc p).wake c).kind κ := by
      rw [hp]
      rfl
    show (update (fun q => (s.pc q).wake c) p (.wakeRelease l) q).kind κ = _
    exact (kind_update_same hself q).trans (kind_wake c)
  | killScan hp =>
    next p q o =>
    refine .same rfl fun r => (kind_update_same ?_ r).trans (kind_update_same kind_rouse r)
    rw [kind_update_same kind_rouse, hp]
    rfl
  | schedAcquire | schedRelease => exact .same rfl fun _ => rfl

end

/-! ## The locks -/

open Threads

theorem Pc.wake_same [DecidableEq C] (c : C) (a : Pc ι L O C) :
    (a.wake c).hasLock = a.hasLock ∧ (a.wake c).hasTable = a.hasTable := by
  cases a with
  | asleep c' l =>
    by_cases hc : c' = c <;> simp [Pc.wake, hc, Pc.hasLock, Pc.hasTable]
  | _ => exact ⟨rfl, rfl⟩

theorem Pc.rouse_same (a : Pc ι L O C) : a.rouse.hasLock = a.hasLock ∧ a.rouse.hasTable = a.hasTable := by
  cases a <;> exact ⟨rfl, rfl⟩

/-- Each lock is taken exactly while somebody is in a part of the program where it is held. -/
structure Locks (s : Sys ι σ L O C) : Prop where
  lock : Flag Pc.hasLock s.pc s.lock
  table : Flag Pc.hasTable s.pc (s.table && !s.sched)
  sched : s.sched = true → s.table = true

theorem flag_passed [DecidableEq ι] {f : Pc ι L O C → Bool} {pc : ι → Pc ι L O C} {flag other : Bool}
    {b : Pc ι L O C} (h : Flag f pc (flag && !other)) (hother : other = true → flag = true)
    (hfree : Free (f (pc p)) (f b) flag) :
    Flag f (update pc p b) (passed (f (pc p)) (f b) flag && !other) := by
  unfold passed
  by_cases hab : f (pc p) = f b
  · rw [if_pos hab]
    exact h.same hab.symm
  · rw [if_neg hab]
    cases hb : f b with
    | true =>
      have hp : f (pc p) = false := by
        rw [hb] at hab
        simpa using hab
      have hflag : flag = false := (hfree hb).resolve_left (by simp [hp])
      have : other = false := by
        by_contra ho
        rw [hother (by simpa using ho)] at hflag
        cases hflag
      subst hflag this
      exact h.enter hb
    | false =>
      have hp : f (pc p) = true := by
        rw [hb] at hab
        simpa using hab
      exact h.leave hp hb

theorem Step.locks [DecidableEq ι] [DecidableEq C] (h : Step m G s t) (hs : Locks s) : Locks t := by
  have hlock : Flag Pc.hasLock s.pc (s.lock && !false) := by simpa using hs.lock
  cases h with
  | goes hgo hl ht =>
    next p b =>
    refine ⟨by simpa using flag_passed hlock nofun hl, flag_passed hs.table hs.sched ht, fun hsched => ?_⟩
    have htable := hs.sched hsched
    -- nobody has the table of a scheduler
    have hp : (s.pc p).hasTable = false := by
      have hflag := hs.table
      rw [show s.sched = true from hsched, Bool.not_true, Bool.and_false] at hflag
      exact hflag.not_mem p
    unfold passed
    rw [hp, htable]
    cases b.hasTable <;> rfl
  | run hp _ =>
    exact ⟨hs.lock.same (by rw [hp]; rfl), hs.table.same (by rw [hp]; rfl), hs.sched⟩
  | leave hp _ =>
    exact ⟨hs.lock.leave (by rw [hp]; rfl) rfl, hs.table.same (by rw [hp]; rfl), hs.sched⟩
  | sleepSched hp =>
    next p l c =>
    have hset : (s.table && !s.sched) = true := hs.table.set (p := p) (by rw [hp]; rfl)
    rw [Bool.and_eq_true] at hset
    refine ⟨hs.lock.same (by rw [hp]; rfl), ?_, fun _ => hset.1⟩
    simpa using hs.table.leave (p := p) (c := .asleep c l) (by rw [hp]; rfl) rfl
  | wakeScan hp =>
    next p l c =>
    have hwake : ∀ f : Pc ι L O C → Bool, (∀ a, f (a.wake c) = f a) →
        f (.wakeRelease l) = f (.wakeScan c l) → ∀ q,
        f (update (fun q => (s.pc q).wake c) p (.wakeRelease l) q) = f (s.pc q) := by
      intro f hf hfl q
      by_cases hq : q = p
      · rw [hq, update_self, hp, hfl]
      · rw [update_of_ne hq, hf]
    exact ⟨hs.lock.map (hwake _ (fun a => (a.wake_same c).1) rfl),
      hs.table.map (hwake _ (fun a => (a.wake_same c).2) rfl), hs.sched⟩
  | killScan hp =>
    next p q o =>
    have hrouse : ∀ f : Pc ι L O C → Bool, (∀ a, f a.rouse = f a) →
        f (.killRelease o) = f (.killScan q o) → ∀ r,
        f (update (update s.pc q (s.pc q).rouse) p (.killRelease o) r) = f (s.pc r) := by
      intro f hf hfl r
      by_cases hr : r = p
      · rw [hr, update_self, hp, hfl]
      · rw [update_of_ne hr]
        exact update_same (hf _) r
    exact ⟨hs.lock.map (hrouse _ (fun a => a.rouse_same.1) rfl),
      hs.table.map (hrouse _ (fun a => a.rouse_same.2) rfl), hs.sched⟩
  | schedAcquire htable =>
    have hflag := hs.table
    rw [htable] at hflag
    exact ⟨hs.lock, hflag, fun _ => rfl⟩
  | schedRelease hsched =>
    have hflag := hs.table
    rw [hsched, Bool.not_true, Bool.and_false] at hflag
    exact ⟨hs.lock, hflag, nofun⟩
  | schedRun hp hsched =>
    have hflag := hs.table
    rw [hsched, Bool.not_true, Bool.and_false] at hflag
    refine ⟨hs.lock.same (by rw [hp]; rfl), ?_, nofun⟩
    simpa [hs.sched hsched] using hflag.enter rfl

/-! ## What holds of the data -/

/-- The data is `free` while nobody has the lock. A process inside the lock knows `inside`, at each place
of its program, and one without the lock knows `outside`, which the others do not make false. -/
structure Rule (m : Code ι σ L O C) (G : Guard ι σ L O C) where
  free : σ → Prop
  inside : ι → L → σ → Prop
  outside : ι → O ⊕ L → σ → Prop
  call : ∀ {p o l d}, m.call o l = true → outside p (.inl o) d → outside p (.inr l) d
  enter : ∀ {p l d}, free d → outside p (.inr l) d → inside p l d
  run : ∀ {p k d l d' l'}, G.act p k d l → inside p l d → m.act p k d l = .run d' l' →
    inside p l' d' ∧ ∀ q x, q ≠ p → outside q x d → outside q x d'
  sleep : ∀ {p k d l c l'}, G.act p k d l → inside p l d → m.act p k d l = .sleep c l' →
    free d ∧ outside p (.inr l') d
  wakeup : ∀ {p k d l c l'}, G.act p k d l → inside p l d → m.act p k d l = .wakeup c l' → inside p l' d
  leave : ∀ {p k d l d' o}, G.act p k d l → inside p l d → m.act p k d l = .leave d' o →
    free d' ∧ outside p (.inl o) d' ∧ ∀ q x, q ≠ p → outside q x d → outside q x d'

namespace Rule

variable (R : Rule m G)

/-- What process `p` knows. -/
def Holds (p : ι) (d : σ) : Pc ι L O C → Prop
  | .inside l | .wakeAcquire _ l | .wakeScan _ l | .wakeRelease l => R.inside p l d
  | .sleepAcquire _ l | .sleepRelease _ l => R.free d ∧ R.outside p (.inr l) d
  | a => R.outside p a.place d

structure Inv (s : Sys ι σ L O C) : Prop where
  locks : Locks s
  free : s.lock = false → R.free s.data
  holds : ∀ p, R.Holds p s.data (s.pc p)

variable {R} {d : σ} {a b : Pc ι L O C}

theorem holds_iff (ha : a.hasLock = false) : R.Holds p d a ↔ R.outside p a.place d := by
  cases a <;> first | rfl | cases ha

theorem holds_wake [DecidableEq C] (c : C) : R.Holds p d (a.wake c) ↔ R.Holds p d a := by
  cases a with
  | asleep c' l => by_cases hc : c' = c <;> simp [Pc.wake, hc, Holds, Pc.place]
  | _ => rfl

theorem holds_rouse : R.Holds p d a.rouse ↔ R.Holds p d a := by
  cases a <;> rfl

theorem holds_of_goes (h : Goes m G s p a b) (ha : R.Holds p s.data a)
    (hfree : s.lock = false → R.free s.data) (hlock : Free a.hasLock b.hasLock s.lock) :
    R.Holds p s.data b := by
  cases h with
  | call hcall _ => exact R.call hcall ha
  | enter => exact R.enter (hfree ((hlock rfl).resolve_left nofun)) ha
  | sleep hact => exact R.sleep hact.1 ha hact.2
  | wakeup hact => exact R.wakeup hact.1 ha hact.2
  | sleepRelease => exact ha.2
  | kill | sleepAcquire | sleepSet | resumed | wakeAcquire | wakeRelease | killAcquire | killRelease =>
    exact ha

/-- Only `sleep` gives up the lock in this way. -/
theorem free_of_goes (h : Goes m G s p a b) (ha : R.Holds p s.data a) (hlock : a.hasLock = true)
    (hlock' : b.hasLock = false) : R.free s.data := by
  cases h with
  | sleepRelease => exact ha.1
  | _ => cases hlock <;> cases hlock'

theorem forall_update [DecidableEq ι] {pc : ι → Pc ι L O C} (h : ∀ q, q ≠ p → R.Holds q d (pc q))
    (ha : R.Holds p d a) (q : ι) : R.Holds q d (update pc p a q) := by
  by_cases hq : q = p
  · subst hq
    rwa [update_self]
  · rw [update_of_ne hq]
    exact h q hq

section
variable (hs : R.Inv s)
include hs

/-- A process inside the lock changes the data. -/
theorem Inv.others (hp : (s.pc p).hasLock = true)
    (hd : ∀ q x, q ≠ p → R.outside q x s.data → R.outside q x d) {q : ι} (hq : q ≠ p) :
    R.Holds q d (s.pc q) := by
  have hnot : (s.pc q).hasLock = false := Bool.eq_false_iff.mpr fun h => hq (hs.locks.lock.sole q p h hp)
  exact (holds_iff hnot).mpr (hd q _ hq ((holds_iff hnot).mp (hs.holds q)))

theorem Inv.knows (hp : s.pc p = a) : R.Holds p s.data a := hp ▸ hs.holds p

theorem Inv.step [DecidableEq ι] [DecidableEq C] (h : Step m G s t) : R.Inv t := by
  refine ⟨h.locks hs.locks, ?_, ?_⟩
  · cases h with
    | goes hgo hl ht =>
      next p b =>
      intro hfree
      have hpass : passed (s.pc p).hasLock b.hasLock s.lock = false := hfree
      unfold passed at hpass
      split at hpass
      · exact hs.free hpass
      · next hne =>
        rw [hpass] at hne
        have hd := free_of_goes hgo (hs.holds p) (by simpa using hne) hpass
        exact hd
    | run hp hact =>
      intro hfree
      have := hs.locks.lock.set (p := _) (by rw [hp]; rfl)
      rw [show s.lock = false from hfree] at this
      cases this
    | leave hp hact =>
      exact fun _ => (R.leave hact.1 (hs.knows hp) hact.2).1
    | sleepSched | wakeScan | killScan | schedAcquire | schedRelease | schedRun => exact hs.free
  · cases h with
    | goes hgo hl ht =>
      have hb := holds_of_goes hgo (hs.holds _) hs.free hl
      exact forall_update (fun q _ => hs.holds q) hb
    | run hp hact =>
      obtain ⟨hin', hd⟩ := R.run hact.1 (hs.knows hp) hact.2
      exact forall_update (fun q => hs.others (by rw [hp]; rfl) hd) hin'
    | leave hp hact =>
      obtain ⟨-, hout, hd⟩ := R.leave hact.1 (hs.knows hp) hact.2
      exact forall_update (fun q => hs.others (by rw [hp]; rfl) hd) hout
    | sleepSched hp | schedRun hp _ =>
      have hin := hs.knows hp
      exact forall_update (fun q _ => hs.holds q) hin
    | wakeScan hp =>
      have hin := hs.knows hp
      exact forall_update (fun q _ => (holds_wake _).mpr (hs.holds q)) hin
    | killScan hp =>
      have hin := hs.knows hp
      exact forall_update (fun q _ => forall_update (fun q _ => hs.holds q)
        (holds_rouse.mpr (hs.holds _)) q) hin
    | schedAcquire | schedRelease => exact hs.holds

/-- What holds both inside the lock and while it is free holds always. -/
theorem Inv.always {P : σ → Prop} (hfree : R.free s.data → P s.data)
    (hin : ∀ p l, R.inside p l s.data → P s.data) : P s.data := by
  cases hlock : s.lock with
  | false => exact hfree (hs.free hlock)
  | true =>
    obtain ⟨p, hp⟩ := hs.locks.lock.iff.mp hlock
    have hknows := hs.holds p
    cases hpc : s.pc p with
    | inside l | wakeAcquire _ l | wakeScan _ l | wakeRelease l =>
      rw [hpc] at hknows
      exact hin p l hknows
    | sleepAcquire | sleepRelease =>
      rw [hpc] at hknows
      exact hfree hknows.1
    | _ =>
      rw [hpc] at hp
      cases hp

/-- The rule for the data, over a whole run. -/
theorem sound [DecidableEq ι] [DecidableEq C] (h : Run (Sys.exec m) (Sys.Guarded G) s t) : R.Inv t :=
  h.invariant hs fun _ _ _ hs hg hx => hs.step (step_of_exec hg hx)

end

end Rule

/-! ## Why processes are asleep -/

/-- A process sleeps on `c` while `stay c` holds of the data. One that makes it false does not give up the
lock before it has called `wakeup`, or there is no need any more. After `sleep` on `c` the program goes on
at a place in `slept c`. -/
structure Waits (R : Rule m G) where
  stay : C → σ → Prop
  slept : C → L → Prop
  owes : L → C → σ → Prop
  run : ∀ {p k d l d' l' c}, G.act p k d l → R.inside p l d → m.act p k d l = .run d' l' →
    stay c d ∨ owes l c d → stay c d' ∨ owes l' c d'
  sleep : ∀ {p k d l c l'}, G.act p k d l → R.inside p l d → m.act p k d l = .sleep c l' →
    slept c l' ∧ stay c d ∧ ∀ c', owes l c' d → stay c' d
  wakeup : ∀ {p k d l c l' c'}, G.act p k d l → R.inside p l d → m.act p k d l = .wakeup c l' →
    owes l c' d → c' = c ∨ owes l' c' d
  leave : ∀ {p k d l d' o c}, G.act p k d l → R.inside p l d → m.act p k d l = .leave d' o →
    stay c d ∨ owes l c d → stay c d'

namespace Waits

variable {R : Rule m G} (W : Waits R)

/-- The process has the lock and will call `wakeup` on `c`. -/
def Owes (c : C) (d : σ) : Pc ι L O C → Prop
  | .inside l | .wakeRelease l => W.owes l c d
  | .wakeAcquire c' l | .wakeScan c' l => c = c' ∨ W.owes l c d
  | _ => False

/-- The process is asleep on `c` or will be. -/
def Waiting (c : C) (l : L) : Pc ι L O C → Prop
  | .sleepAcquire c' l' | .sleepRelease c' l' | .sleepSet c' l' | .sleepSched c' l' | .asleep c' l' =>
    c' = c ∧ l' = l
  | _ => False

/-- There is a reason to wait, or a wakeup to come. -/
def Reason (s : Sys ι σ L O C) (c : C) : Prop := W.stay c s.data ∨ ∃ q, W.Owes c s.data (s.pc q)

def Inv (s : Sys ι σ L O C) : Prop := ∀ p c l, Waiting c l (s.pc p) → W.slept c l ∧ W.Reason s c

variable {W} {a b : Pc ι L O C} {c : C} {d : σ} {l : L}

theorem hasLock_of_owes (h : W.Owes c d a) : a.hasLock = true := by
  cases a <;> first | rfl | cases h

theorem owes_wake [DecidableEq C] {c' : C} : W.Owes c d (a.wake c') ↔ W.Owes c d a := by
  cases a with
  | asleep c'' l => by_cases hc : c'' = c' <;> simp [Pc.wake, hc, Owes]
  | _ => rfl

theorem owes_rouse : W.Owes c d a.rouse ↔ W.Owes c d a := by
  cases a <;> rfl

theorem waiting_wake [DecidableEq C] {c' : C} (h : Waiting c l (a.wake c')) : Waiting c l a := by
  cases a with
  | asleep c'' l =>
    by_cases hc : c'' = c'
    · simp [Pc.wake, hc, Waiting] at h
    · simpa [Pc.wake, hc] using h
  | _ => exact h

/-- Who is not woken has one of the locks. -/
theorem locked_of_wake [DecidableEq C] (h : Waiting c l (a.wake c)) : a.hasLock = true ∨ a.hasTable = true := by
  cases a with
  | sleepAcquire | sleepRelease => exact .inl rfl
  | sleepSet | sleepSched => exact .inr rfl
  | asleep c' l =>
    by_cases hc : c' = c
    · simp [Pc.wake, hc, Waiting] at h
    · simp [Pc.wake, hc, Waiting] at h
  | _ => cases h

theorem waiting_rouse (h : Waiting c l a.rouse) : Waiting c l a := by
  cases a <;> first | exact h | cases h

/-- Nobody forgets what it owes. -/
theorem owes_of_goes (h : Goes m G s p a b) (hR : R.Holds p s.data a) (ha : W.Owes c s.data a) :
    W.stay c s.data ∨ W.Owes c s.data b := by
  cases h with
  | sleep hact => exact .inl ((W.sleep hact.1 hR hact.2).2.2 c ha)
  | wakeup hact => exact .inr (W.wakeup hact.1 hR hact.2 ha)
  | wakeAcquire | wakeRelease => exact .inr ha
  | _ => cases ha

theorem waiting_of_goes (h : Goes m G s p a b) (hR : R.Holds p s.data a) (hb : Waiting c l b) :
    W.slept c l ∧ W.stay c s.data ∨ Waiting c l a := by
  cases h with
  | sleep hact =>
    obtain ⟨rfl, rfl⟩ := hb
    obtain ⟨hslept, hstay, -⟩ := W.sleep hact.1 hR hact.2
    exact .inl ⟨hslept, hstay⟩
  | sleepAcquire | sleepRelease | sleepSet => exact .inr hb
  | _ => cases hb

theorem waiting_update [DecidableEq ι] {pc : ι → Pc ι L O C} {r : ι} (h : Waiting c l (update pc p b r))
    (hb : Waiting c l b → Waiting c l (pc p)) : Waiting c l (pc r) := by
  by_cases hr : r = p
  · subst hr
    rw [update_self] at h
    exact hb h
  · rwa [update_of_ne hr] at h

/-- The data is the same, and `p` pays what it owes or still owes it. -/
theorem Reason.update [DecidableEq ι] (h : W.Reason s c) {pc : ι → Pc ι L O C} (hd : t.data = s.data)
    (ht : t.pc = update pc p b) (hq : ∀ q, q ≠ p → W.Owes c s.data (s.pc q) → W.Owes c s.data (pc q))
    (hp : W.Owes c s.data (s.pc p) → W.stay c s.data ∨ W.Owes c s.data b) : W.Reason t c := by
  unfold Reason
  rw [hd, ht]
  obtain hstay | ⟨q, howe⟩ := h
  · exact .inl hstay
  · by_cases hqp : q = p
    · subst hqp
      exact (hp howe).imp_right fun h => ⟨q, by rwa [update_self]⟩
    · exact .inr ⟨q, by rw [update_of_ne hqp]; exact hq q hqp howe⟩

/-- Only the process inside the lock owes anything. -/
theorem Reason.of_inside (h : W.Reason s c) (hR : R.Inv s) (hp : s.pc p = .inside l) :
    W.stay c s.data ∨ W.owes l c s.data := by
  refine h.imp_right fun ⟨q, howe⟩ => ?_
  obtain rfl := hR.locks.lock.sole q p (hasLock_of_owes howe) (by rw [hp]; rfl)
  rwa [hp] at howe

theorem Inv.step [DecidableEq ι] [DecidableEq C] (hs : W.Inv s) (hR : R.Inv s)
    (h : Step m G s t) : W.Inv t := by
  intro r c l hwait
  cases h with
  | goes hgo hl ht =>
    next p b =>
    have hold : W.slept c l ∧ W.Reason s c := by
      by_cases hr : r = p
      · subst hr
        have hwait : Waiting c l (update s.pc r b r) := hwait
        rw [update_self] at hwait
        exact (waiting_of_goes hgo (hR.holds r) hwait).elim (.imp_right .inl) (hs r c l)
      · have hwait : Waiting c l (update s.pc p b r) := hwait
        rw [update_of_ne hr] at hwait
        exact hs r c l hwait
    have howes : W.Owes c s.data (s.pc p) → _ := owes_of_goes hgo (hR.holds p)
    exact hold.imp_right fun h => h.update rfl rfl (fun q _ => id) howes
  | run hp hact =>
    next p l₁ l₂ d =>
    obtain ⟨hslept, hold⟩ := hs r c l (waiting_update hwait nofun)
    have hnew := W.run hact.1 (hR.knows hp) hact.2 (hold.of_inside hR hp)
    refine ⟨hslept, hnew.imp_right fun howe => ⟨p, ?_⟩⟩
    show W.Owes c d (update s.pc p (.inside l₂) p)
    rwa [update_self]
  | leave hp hact =>
    obtain ⟨hslept, hold⟩ := hs r c l (waiting_update hwait nofun)
    exact ⟨hslept, .inl (W.leave hact.1 (hR.knows hp) hact.2 (hold.of_inside hR hp))⟩
  | sleepSched hp =>
    have hold := hs r c l (waiting_update hwait fun h => by rwa [hp])
    refine hold.imp_right fun h => h.update rfl rfl (fun q _ => id) fun howe => ?_
    rw [hp] at howe
    cases howe
  | wakeScan hp =>
    next p l₁ c' =>
    have hwait : Waiting c l (update (fun q => (s.pc q).wake c') p (.wakeRelease l₁) r) := hwait
    have hr : r ≠ p := by
      rintro rfl
      rw [update_self] at hwait
      cases hwait
    rw [update_of_ne hr] at hwait
    have hc : c ≠ c' := by
      rintro rfl
      -- `p` has both locks
      obtain h | h := locked_of_wake hwait
      · exact hr (hR.locks.lock.sole r p h (by rw [hp]; rfl))
      · exact hr (hR.locks.table.sole r p h (by rw [hp]; rfl))
    have hold := hs r c l (waiting_wake hwait)
    refine hold.imp_right fun h => h.update rfl rfl (fun q _ howe => owes_wake.mpr howe) fun howe => ?_
    rw [hp] at howe
    exact .inr (howe.resolve_left hc)
  | killScan hp =>
    next p q o =>
    have hold := hs r c l (waiting_update (waiting_update hwait nofun) waiting_rouse)
    refine hold.imp_right fun h => h.update rfl rfl (fun r _ howe => ?_) fun howe => ?_
    · by_cases hrq : r = q
      · subst hrq
        rw [update_self]
        exact owes_rouse.mpr howe
      · rwa [update_of_ne hrq]
    · rw [hp] at howe
      cases howe
  | schedAcquire | schedRelease => exact hs r c l hwait
  | schedRun hp hsched =>
    have hold := hs r c l (waiting_update hwait nofun)
    refine hold.imp_right fun h => h.update rfl rfl (fun q _ => id) fun howe => ?_
    rw [hp] at howe
    cases howe

theorem waiting_of_chan (ha : a.chan = some c) : ∃ l, a.place = .inr l ∧ Waiting c l a := by
  cases a with
  | sleepSched c' l | asleep c' l => exact ⟨l, rfl, Option.some.inj ha, rfl⟩
  | _ => cases ha

theorem Inv.slept (hs : W.Inv s) (hp : (s.pc p).chan = some c) :
    ∃ l, (s.pc p).place = .inr l ∧ W.slept c l := by
  obtain ⟨l, hplace, hwait⟩ := waiting_of_chan hp
  exact ⟨l, hplace, (hs p c l hwait).1⟩

/-- While the lock is free, everybody who is asleep has a reason to be. -/
theorem Inv.stay (hs : W.Inv s) (hR : R.Inv s) (hfree : s.lock = false)
    (hp : (s.pc p).chan = some c) : W.stay c s.data := by
  obtain ⟨l, -, hwait⟩ := waiting_of_chan hp
  refine (hs p c l hwait).2.resolve_right ?_
  rintro ⟨q, howe⟩
  have := hR.locks.lock.set (hasLock_of_owes howe)
  rw [hfree] at this
  cases this

/-- The rule for sleepers, over a whole run. -/
theorem sound [DecidableEq ι] [DecidableEq C] (hs : W.Inv s) (hR : R.Inv s)
    (h : Run (Sys.exec m) (Sys.Guarded G) s t) : W.Inv t := by
  refine (h.invariant (I := fun s => W.Inv s ∧ R.Inv s) ⟨hs, hR⟩ fun s i t hs hg hx => ?_).1
  have hstep := step_of_exec hg hx
  exact ⟨hs.1.step hs.2 hstep, hs.2.step hstep⟩

end Waits

/-- Nobody has called yet. -/
def Sys.start (d : σ) (o : O) : Sys ι σ L O C where
  data := d
  lock := false
  table := false
  sched := false
  pc _ := .out o
  killed _ := false

theorem Rule.inv_start {R : Rule m G} {d : σ} {o : O} (hfree : R.free d)
    (hout : ∀ p, R.outside p (.inl o) d) : R.Inv (Sys.start d o) where
  locks :=
    { lock := ⟨iff_of_false nofun (fun ⟨_, h⟩ => Bool.false_ne_true h), nofun⟩
      table := ⟨iff_of_false nofun (fun ⟨_, h⟩ => Bool.false_ne_true h), nofun⟩
      sched := nofun }
  free _ := hfree
  holds := hout

theorem Waits.inv_start {R : Rule m G} {W : Waits R} {d : σ} {o : O} : W.Inv (Sys.start d o) :=
  fun _ _ _ => False.elim

end Monitor
