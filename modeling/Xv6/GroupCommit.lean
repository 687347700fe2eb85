import Mathlib.Data.List.Pairwise
import Xv6.Lib.Run
import Xv6.Lib.Threads
import Xv6.LogSystem

/-!
# Group commit

The invariant of the log under any interleaving of operations. It speaks about a process only through
its `Role`: whether it holds the lock, whether `log.outstanding` counts it, whether it is the one that
commits. Most statements of the program leave all of that alone, and the others change one thing.
-/

namespace Xv6.Log

open Function (update update_self update_of_ne update_eq_self update_idem)
open Threads
open Bool (false_ne_true eq_false_iff)

variable {ι : Type}

/-! ## Roles -/

structure Role where
  /-- Holds `log.lock`. -/
  locked : Bool := false
  /-- Is counted by `log.outstanding`. -/
  counted : Bool := false
  /-- Has set `log.committing`. -/
  committer : Bool := false
  /-- Has written the header of a commit and not yet emptied the list. -/
  installing : Bool := false
  /-- Has emptied the list. -/
  cleared : Bool := false
  /-- Is about to decide on a commit, or to call `wakeup` after one. -/
  closing : Bool := false
  asleep : Bool := false
  deriving DecidableEq, Repr

def Pc.role : Pc → Role
  | .idle | .beginAcquire => {}
  | .asleep => { asleep := true }
  | .beginLoop | .endRelease false | .endRelease2 => { locked := true }
  | .beginRelease | .writeLocked _ | .writeRelease | .endLocked => { locked := true, counted := true }
  | .inOp | .writeCheck _ | .writeAcquire _ | .endAcquire => { counted := true }
  | .endTest => { locked := true, closing := true }
  | .endRelease true => { locked := true, committer := true }
  | .commitStart | .commitLog | .commitHead => { committer := true }
  | .commitInstall | .commitClear => { committer := true, installing := true }
  | .commitErase | .endAcquire2 => { committer := true, cleared := true }
  | .endClear => { locked := true, committer := true, cleared := true }
  | .endWakeup => { locked := true, cleared := true, closing := true }

theorem locked_of_closing {c : Pc} (h : c.role.closing = true) : c.role.locked = true := by
  cases c with
  | endRelease b => cases b <;> cases h
  | _ => first | rfl | cases h

theorem committer_of_installing {c : Pc} (h : c.role.installing = true) : c.role.committer = true := by
  cases c with
  | endRelease b => cases b <;> cases h
  | _ => first | rfl | cases h

structure Inv (l : Vars) (k : ι → Role) : Prop where
  lock : Flag Role.locked k l.lock
  committing : Flag Role.committer k l.committing
  count : Tally Role.counted k l.outstanding
  alone : l.committing = true → l.outstanding = 0
  cleared : ∀ p, (k p).cleared = true → l.lh = []
  closing : ∀ p, (k p).closing = true → l.committing = false
  /-- With no operation and no commit there is nothing in the list, once someone has looked. -/
  empty : l.outstanding = 0 → l.committing = false → l.lh = [] ∨ ∃ p, (k p).closing = true
  /-- A process that sleeps waits for someone. -/
  asleep : ∀ p, (k p).asleep = true → l.committing = true ∨ 0 < l.outstanding ∨ ∃ q, (k q).closing = true
  nodup : l.lh.Nodup

theorem inv_init : Inv (Sys.init : Sys ι).vars (fun _ : ι => ({} : Role)) where
  lock := ⟨by simp [Sys.init], by simp⟩
  committing := ⟨by simp [Sys.init], by simp⟩
  count := ⟨∅, by simp, rfl⟩
  alone := nofun
  cleared := nofun
  closing := nofun
  empty _ _ := .inl rfl
  asleep := nofun
  nodup := List.nodup_nil

/-! ## What a statement can do

One constructor for each way in which a statement changes the variables or a role. -/

/-- The statements whose effect the history records. -/
def Pc.recorded : Pc → Bool
  | .beginLoop | .writeLocked _ | .commitHead => true
  | _ => false

inductive Moves (l : Vars) : Pc → Outcome → Prop
  | quiet {c c' : Pc} : c.recorded = false → c'.role = c.role → Moves l c { vars := l, pc := c' }
  | acquire {c c' : Pc} : c.recorded = false → l.lock = false → c'.role = { c.role with locked := true } →
      Moves l c { vars := { l with lock := true }, pc := c' }
  | release {c c' : Pc} : c.recorded = false → c.role.locked = true →
      c'.role = { c.role with locked := false } → Moves l c { vars := { l with lock := false }, pc := c' }
  | sleep : (l.committing = true ∨ (LOGSIZE : Int) < l.lh.length + (l.outstanding + 1) * MAXOPBLOCKS) →
      Moves l .beginLoop { vars := { l with lock := false }, pc := .asleep }
  | wake : Moves l .asleep { vars := l, pc := .beginAcquire }
  | joins : l.committing = false → l.lh.length + (l.outstanding + 1) * MAXOPBLOCKS ≤ (LOGSIZE : Int) →
      Moves l .beginLoop
        { vars := { l with outstanding := l.outstanding + 1 }, pc := .beginRelease }
  | absorb (b : Word) : Moves l (.writeLocked b)
      { vars := { l with lh := absorb l.lh b }, pc := .writeRelease }
  | finish : Moves l .endLocked
      { vars := { l with outstanding := l.outstanding - 1 }, pc := .endTest }
  | begins : l.outstanding = 0 →
      Moves l .endTest { vars := { l with committing := true }, pc := .endRelease true }
  | others : l.outstanding ≠ 0 → Moves l .endTest { vars := l, pc := .endRelease false, wakeup := true }
  | skip : l.lh = [] → Moves l .commitStart { vars := l, pc := .endAcquire2 }
  | head : Moves l .commitHead { vars := l, pc := .commitInstall }
  | clear : Moves l .commitClear { vars := { l with lh := [] }, pc := .commitErase }
  | ends : Moves l .endClear { vars := { l with committing := false }, pc := .endWakeup }
  | wakeup : Moves l .endWakeup { vars := l, pc := .endRelease2, wakeup := true }

section
variable {size : Nat} {l : Vars} {c c' : Pc} {ch : Choice} {o : Outcome}

theorem moves_acquire (h : acquire l c' = .ok o) (hc : c.recorded = false)
    (hr : c'.role = { c.role with locked := true }) : Moves l c o := by
  unfold acquire at h
  split at h
  · cases h
  · next hlock =>
    cases h
    exact .acquire hc (Bool.eq_false_iff.mpr hlock) hr

theorem moves_of_advance (h : advance l c = .ok o) : Moves l c o := by
  cases c with
  | asleep | inOp => cases h
  | idle | commitLog | commitInstall | commitErase =>
    cases h
    exact .quiet rfl rfl
  | beginAcquire | writeAcquire b | endAcquire | endAcquire2 => exact moves_acquire h rfl rfl
  | beginRelease | writeRelease | endRelease2 =>
    cases h
    exact .release rfl rfl rfl
  | endRelease doCommit =>
    cases h
    cases doCommit <;> exact .release rfl rfl rfl
  | beginLoop =>
    simp only [advance] at h
    split at h
    · next hc =>
      cases h
      exact .sleep (.inl hc)
    · next hc =>
      split at h
      · next hbig =>
        cases h
        exact .sleep (.inr hbig)
      · next hroom =>
        cases h
        exact .joins (Bool.eq_false_iff.mpr hc) (Int.not_lt.mp hroom)
  | writeCheck b =>
    simp only [advance] at h
    split at h
    · cases h
    · cases h
      exact .quiet rfl rfl
  | writeLocked b =>
    simp only [advance] at h
    split at h
    · cases h
    · cases h
      exact .absorb b
  | endLocked =>
    cases h
    exact .finish
  | endTest =>
    simp only [advance] at h
    split at h
    · cases h
    · split at h
      · next h0 =>
        cases h
        exact .begins h0
      · next h0 =>
        cases h
        exact .others h0
  | commitStart =>
    cases h
    split
    · exact .quiet rfl rfl
    · next hlen => exact .skip (List.length_eq_zero_iff.mp (Nat.eq_zero_of_not_pos hlen))
  | commitHead =>
    cases h
    exact .head
  | commitClear =>
    cases h
    exact .clear
  | endClear =>
    cases h
    exact .ends
  | endWakeup =>
    cases h
    exact .wakeup

theorem moves_of_step (h : step size l c ch = .ok o) : Moves l c o := by
  unfold step at h
  split at h
  · exact moves_of_advance h
  · split at h
    · cases h
    · next hc =>
      split at h
      · cases h
      · cases h
        rw [not_not.mp hc]
        exact .quiet rfl rfl
  · split at h
    · cases h
    · next hc =>
      cases h
      rw [not_not.mp hc]
      exact .quiet rfl rfl
  · split at h
    · cases h
    · next hc =>
      cases h
      rw [not_not.mp hc]
      exact .wake

end

/-! ## What the statements change -/

namespace Inv

variable {l : Vars} {k : ι → Role} {p : ι}

section
variable (h : Inv l k)
include h

theorem wakeup : Inv l fun q => { k q with asleep := false } where
  lock := h.lock.map fun _ => rfl
  committing := h.committing.map fun _ => rfl
  count := h.count.map fun _ => rfl
  alone := h.alone
  cleared := h.cleared
  closing := h.closing
  empty := h.empty
  asleep := nofun
  nodup := h.nodup

/-- The list changes while an operation is under way and nobody relies on it being empty. -/
theorem setList {lh : List Word} (hlh : lh.Nodup) (hcleared : ∀ q, (k q).cleared = false)
    (hout : 0 < l.outstanding) : Inv { l with lh := lh } k where
  lock := h.lock
  committing := h.committing
  count := h.count
  alone := h.alone
  cleared q hq := by
    rw [hcleared q] at hq
    cases hq
  closing := h.closing
  empty h0 := absurd h0 (Int.ne_of_gt hout)
  asleep := h.asleep
  nodup := hlh

variable [DecidableEq ι]

theorem waits {r : Role} (ha : r.asleep = true → (k p).asleep = true)
    (hc : (k p).closing = true → r.closing = true) (q : ι) :
    (update k p r q).asleep = true →
      l.committing = true ∨ 0 < l.outstanding ∨ ∃ q, (update k p r q).closing = true := by
  have hwait : ∀ q, (k q).asleep = true → l.committing = true ∨ 0 < l.outstanding ∨
      ∃ q, (update k p r q).closing = true := fun q hq =>
    (h.asleep q hq).imp_right fun h => h.imp_right fun h => exists_update h hc
  exact forall_update (f := Role.asleep) hwait (fun hr => hwait p (ha hr)) q

/-- The lock changes hands, or `p` begins to install: none of the other conditions sees it. -/
theorem setLock {b locked installing : Bool}
    (hlock : Flag Role.locked (update k p { k p with locked, installing }) b) :
    Inv { l with lock := b } (update k p { k p with locked, installing }) where
  lock := hlock
  committing := h.committing.same rfl
  count := h.count.same rfl
  alone := h.alone
  cleared := forall_update h.cleared (h.cleared p)
  closing := forall_update h.closing (h.closing p)
  empty h0 hc := (h.empty h0 hc).imp_right fun hq => exists_update hq id
  asleep := h.waits id id
  nodup := h.nodup

theorem acquire (hlock : l.lock = false) :
    Inv { l with lock := true } (update k p { k p with locked := true }) :=
  h.setLock ((hlock ▸ h.lock).enter rfl)

theorem release (hp : (k p).locked = true) :
    Inv { l with lock := false } (update k p { k p with locked := false }) :=
  h.setLock (h.lock.leave hp rfl)

theorem sleep {b : Bool} (hb : b = true → l.committing = true ∨ 0 < l.outstanding) :
    Inv l (update k p { k p with asleep := b }) where
  lock := h.lock.same rfl
  committing := h.committing.same rfl
  count := h.count.same rfl
  alone := h.alone
  cleared := forall_update h.cleared (h.cleared p)
  closing := forall_update h.closing (h.closing p)
  empty h0 hc := (h.empty h0 hc).imp_right fun hq => exists_update hq id
  asleep := by
    refine forall_update (f := Role.asleep) (fun q hq => ?_) fun hq => (hb hq).imp_right .inl
    exact (h.asleep q hq).imp_right fun h => h.imp_right fun h => exists_update h id
  nodup := h.nodup

theorem joins (hp : (k p).counted = false) (hidle : l.committing = false) :
    Inv { l with outstanding := l.outstanding + 1 }
      (update k p { k p with counted := true }) where
  lock := h.lock.same rfl
  committing := h.committing.same rfl
  count := h.count.enter hp rfl
  alone hc := absurd (hidle.symm.trans hc) false_ne_true
  cleared := forall_update h.cleared (h.cleared p)
  closing := forall_update h.closing (h.closing p)
  empty h0 := by
    have := h.count.nonneg
    dsimp only at h0
    omega
  asleep _ _ := by
    have := h.count.nonneg
    exact .inr (.inl (by dsimp only; omega))
  nodup := h.nodup

theorem finish (hp : (k p).counted = true) : Inv { l with outstanding := l.outstanding - 1 }
      (update k p { k p with counted := false, closing := true }) := by
  have hpos := h.count.pos hp
  have hidle : l.committing = false := by
    rw [eq_false_iff]
    intro hc
    have := h.alone hc
    omega
  have hclosing : ∃ q, (update k p { k p with counted := false, closing := true } q).closing =
      true := ⟨p, by rw [update_self]⟩
  exact {
    lock := h.lock.same rfl
    committing := h.committing.same rfl
    count := h.count.leave hp rfl
    alone := fun hc => absurd (hidle.symm.trans hc) false_ne_true
    cleared := forall_update h.cleared (h.cleared p)
    closing := fun _ _ => hidle
    empty := fun _ _ => .inr hclosing
    asleep := fun _ _ => .inr (.inr hclosing)
    nodup := h.nodup }

theorem begins (hsole : ∀ q, (k q).closing = true → q = p) (hp : (k p).closing = true)
    (hout : l.outstanding = 0) : Inv { l with committing := true }
      (update k p { k p with closing := false, committer := true }) where
  lock := h.lock.same rfl
  committing := (h.closing p hp ▸ h.committing).enter rfl
  count := h.count.same rfl
  alone _ := hout
  cleared := forall_update h.cleared (h.cleared p)
  closing q hq := by
    by_cases hqp : q = p
    · rw [hqp, update_self] at hq
      cases hq
    · rw [update_of_ne hqp] at hq
      exact absurd (hsole q hq) hqp
  empty := nofun
  asleep _ _ := .inl rfl
  nodup := h.nodup

/-- Nothing is left to be decided: after an operation that is not the last one, or after a commit. -/
theorem closed (hasleep : ∀ q, (k q).asleep = false) (hempty : l.outstanding = 0 → l.lh = []) :
    Inv l (update k p { k p with cleared := false, closing := false }) where
  lock := h.lock.same rfl
  committing := h.committing.same rfl
  count := h.count.same rfl
  alone := h.alone
  cleared := forall_update h.cleared nofun
  closing := forall_update h.closing nofun
  empty h0 _ := .inl (hempty h0)
  asleep := by
    have hnone : ∀ q, (k q).asleep = true → False := fun q hq =>
      false_ne_true ((hasleep q).symm.trans hq)
    exact forall_update (f := Role.asleep) (fun q hq => (hnone q hq).elim) fun hq => (hnone p hq).elim
  nodup := h.nodup

theorem install : Inv l (update k p { k p with installing := true }) :=
  h.setLock (h.lock.same rfl)

theorem clear : Inv { l with lh := [] }
    (update k p { k p with installing := false, cleared := true }) where
  lock := h.lock.same rfl
  committing := h.committing.same rfl
  count := h.count.same rfl
  alone := h.alone
  cleared _ _ := rfl
  closing := forall_update h.closing (h.closing p)
  empty _ _ := .inl rfl
  asleep := h.waits id id
  nodup := List.nodup_nil

theorem ends (hp : (k p).committer = true) (hcleared : (k p).cleared = true) :
    Inv { l with committing := false }
      (update k p { k p with committer := false, closing := true }) where
  lock := h.lock.same rfl
  committing := h.committing.leave hp rfl
  count := h.count.same rfl
  alone := nofun
  cleared := forall_update h.cleared (h.cleared p)
  closing _ _ := rfl
  empty _ _ := .inl (h.cleared p hcleared)
  asleep _ _ := .inr (.inr ⟨p, by rw [update_self]⟩)
  nodup := h.nodup

end

end Inv

/-! ## Every statement keeps the invariant -/

/-- The roles of all processes. -/
def Sys.roles (s : Sys ι) (q : ι) : Role := (s.pc q).role

theorem role_woken (c : Pc) : c.woken.role = { c.role with asleep := false } := by
  cases c with
  | endRelease b => cases b <;> rfl
  | _ => rfl

variable {s : Sys ι} {p : ι}

theorem Inv.not_cleared (h : Inv s.vars s.roles) (hlocked : (s.roles p).locked = true)
    (hcounted : (s.roles p).counted = true) (q : ι) : (s.roles q).cleared = false := by
  have hpos := h.count.pos hcounted
  have hcommitter : (s.roles q).committer = true → False := fun hq => by
    have := h.alone (h.committing.set hq)
    omega
  have hsole : (s.roles q).locked = true → q = p := fun hq => h.lock.sole q p hq hlocked
  rw [eq_false_iff]
  intro hq
  unfold Sys.roles at hq hcommitter hsole hcounted
  cases hc : s.pc q <;> rw [hc] at hq hcommitter hsole
  case endWakeup =>
    rw [← hsole rfl, hc] at hcounted
    cases hcounted
  case endRelease b => cases b <;> cases hq
  all_goals first | exact hcommitter rfl | cases hq

theorem Inv.closing_sole (h : Inv s.vars s.roles) (hlocked : (s.roles p).locked = true) {q : ι}
    (hq : (s.roles q).closing = true) : q = p :=
  h.lock.sole q p (locked_of_closing hq) hlocked

variable {lh : List Word} {o : Outcome} {k : ι → Role} {g : History ι} {size : Nat}

theorem nodup_absorb (h : lh.Nodup) (b : Word) : (absorb lh b).Nodup := by
  unfold absorb
  split
  · exact h
  · next hb => exact List.nodup_append.mpr ⟨h, List.nodup_singleton b, by
      rintro a ha _ hx rfl
      exact hb (List.mem_singleton.mp hx ▸ ha)⟩

variable [DecidableEq ι]

theorem roles_after (s : Sys ι) (p : ι) (o : Outcome) : (s.after p o).roles = update
    (fun q => if o.wakeup then { s.roles q with asleep := false } else s.roles q) p o.pc.role := by
  funext q
  unfold Sys.roles Sys.after
  dsimp only
  by_cases hq : q = p
  · rw [hq, update_self, update_self]
  · rw [update_of_ne hq, update_of_ne hq]
    cases o.wakeup with
    | false => rfl
    | true => exact role_woken _

theorem roles_after_quiet (s : Sys ι) (p : ι) (l : Vars) (c : Pc) :
    (s.after p { vars := l, pc := c }).roles = update s.roles p c.role :=
  roles_after s p _

theorem inv_moves (h : Inv s.vars s.roles) (hm : Moves s.vars (s.pc p) o) :
    Inv o.vars (s.after p o).roles := by
  rw [roles_after]
  have hrole : s.roles p = (s.pc p).role := rfl
  generalize s.pc p = c at hm hrole
  cases hm with
  | quiet _ hr =>
    rw [hr, ← hrole]
    exact (update_eq_self p s.roles).symm ▸ h
  | acquire _ hlock hr =>
    rw [hr, ← hrole]
    exact h.acquire hlock
  | release _ hlocked hr =>
    rw [hr, ← hrole]
    exact h.release (hrole ▸ hlocked)
  | sleep hwait =>
    have hlocked : (s.roles p).locked = true := by rw [hrole]; rfl
    -- with no operation and no commit under way there would have been room
    have hb : s.vars.committing = true ∨ 0 < s.vars.outstanding := by
      by_contra hnone
      rw [not_or, Bool.not_eq_true] at hnone
      have h0 : s.vars.outstanding = 0 := by
        have := h.count.nonneg
        omega
      obtain hnil | ⟨q, hq⟩ := h.empty h0 hnone.1
      · obtain hc | hbig := hwait
        · exact false_ne_true (hnone.1.symm.trans hc)
        · rw [hnil, h0] at hbig
          exact absurd hbig (by decide)
      · rw [h.closing_sole hlocked hq, hrole] at hq
        cases hq
    have := (h.release hlocked).sleep (p := p) (b := true) fun _ => hb
    rw [update_idem, update_self, hrole] at this
    exact this
  | wake =>
    have := h.sleep (p := p) (b := false) nofun
    rw [hrole] at this
    exact this
  | joins hidle hroom =>
    have := h.joins (p := p) (by rw [hrole]; rfl) hidle
    rw [hrole] at this
    exact this
  | absorb b =>
    rw [show Pc.writeRelease.role = s.roles p from hrole.symm]
    have hcounted : (s.roles p).counted = true := by rw [hrole]; rfl
    have hcleared := h.not_cleared (p := p) (by rw [hrole]; rfl) hcounted
    exact (update_eq_self p s.roles).symm ▸ h.setList (nodup_absorb h.nodup b) hcleared (h.count.pos hcounted)
  | finish =>
    have := h.finish (p := p) (by rw [hrole]; rfl)
    rw [hrole] at this
    exact this
  | begins hout =>
    have := h.begins (p := p) (fun q => h.closing_sole (by rw [hrole]; rfl)) (by rw [hrole]; rfl) hout
    rw [hrole] at this
    exact this
  | others hout =>
    have := h.wakeup.closed (p := p) (fun _ => rfl) fun h0 => absurd h0 hout
    rw [hrole] at this
    exact this
  | skip hnil =>
    have := h.clear (p := p)
    rw [hrole, ← hnil] at this
    exact this
  | head =>
    have := h.install (p := p)
    rw [hrole] at this
    exact this
  | clear =>
    have := h.clear (p := p)
    rw [hrole] at this
    exact this
  | ends =>
    have := h.ends (p := p) (by rw [hrole]; rfl) (by rw [hrole]; rfl)
    rw [hrole] at this
    exact this
  | wakeup =>
    have := h.wakeup.closed (p := p) (fun _ => rfl) fun _ => h.cleared p (by rw [hrole]; rfl)
    rw [hrole] at this
    exact this

/-! ## The history -/

theorem record_eq (g : History ι) (p : ι) (lh : List Word) {c c' : Pc} (hc : c.recorded = false) :
    g.record p lh c c' = g := by
  cases c with
  | beginLoop | writeLocked b | commitHead => cases hc
  | _ => rfl

/-- What the history says about the processes and the list. -/
structure Told (lh : List Word) (k : ι → Role) (g : History ι) : Prop where
  fresh : ∀ q, (k q).counted = true → g.op q < g.nextOp
  known : ∀ e ∈ g.written, e.1 < g.nextOp
  split : ∀ e, e ∈ g.written ↔ e ∈ g.pending ∨ ∃ c ∈ g.commits, e ∈ c.events
  listed : ∀ e ∈ g.pending, e.2 ∈ lh
  /-- Between the header of a commit and the end of the list nothing is written. -/
  sealed : ∀ q, (k q).installing = true → g.pending = []
  carried : ∀ c ∈ g.commits, ∀ e ∈ c.events, e.2 ∈ c.blocks
  /-- An operation that is in a commit has ended, and has nothing left to be committed. -/
  ended : ∀ c ∈ g.commits, ∀ e ∈ c.events, ∀ q, (k q).counted = true → g.op q ≠ e.1
  settled : ∀ c ∈ g.commits, ∀ e ∈ c.events, ∀ e' ∈ g.pending, e'.1 ≠ e.1
  apart : g.commits.Pairwise fun c c' => ∀ e ∈ c.events, ∀ e' ∈ c'.events, e.1 ≠ e'.1

omit [DecidableEq ι] in
theorem Told.mono {k' : ι → Role} (h : Told lh k g)
    (hcounted : ∀ q, (k' q).counted = true → (k q).counted = true)
    (hinst : ∀ q, (k' q).installing = true → (k q).installing = true) : Told lh k' g :=
  { h with
    fresh := fun q hq => h.fresh q (hcounted q hq)
    sealed := fun q hq => h.sealed q (hinst q hq)
    ended := fun c hc e he q hq => h.ended c hc e he q (hcounted q hq) }

theorem Told.joins (h : Told lh k g) (p : ι) : Told lh (update k p { k p with counted := true })
      { g with op := update g.op p g.nextOp, nextOp := g.nextOp + 1 } := by
  have hcounted : ∀ q, (update k p { k p with counted := true } q).counted = true → q ≠ p →
      (k q).counted = true := by
    intro q hq hqp
    rwa [update_of_ne hqp] at hq
  refine { h with
    fresh := fun q hq => ?_
    known := fun e he => Nat.lt_succ_of_lt (h.known e he)
    sealed := forall_update (f := Role.installing) h.sealed (h.sealed p)
    ended := fun c hc e he q hq => ?_ }
  · by_cases hqp : q = p
    · subst hqp
      simp
    · simp only [update_of_ne hqp]
      exact Nat.lt_succ_of_lt (h.fresh q (hcounted q hq hqp))
  · by_cases hqp : q = p
    · subst hqp
      simp only [update_self]
      exact Nat.ne_of_gt (h.known e ((h.split e).mpr (.inr ⟨c, hc, he⟩)))
    · simp only [update_of_ne hqp]
      exact h.ended c hc e he q (hcounted q hq hqp)

theorem mem_absorb {b x : Word} : x ∈ absorb lh b ↔ x ∈ lh ∨ x = b := by
  unfold absorb
  split
  · next hb =>
    constructor
    · exact .inl
    · rintro (hx | rfl)
      · exact hx
      · exact hb
  · rw [List.mem_append, List.mem_singleton]

omit [DecidableEq ι] in
theorem Told.absorb {p : ι} (h : Told lh k g) (b : Word)
    (hp : (k p).counted = true) (hnone : ∀ q, (k q).installing = false) : Told (absorb lh b) k
      { g with written := (g.op p, b) :: g.written, pending := (g.op p, b) :: g.pending } where
  fresh := h.fresh
  known := List.forall_mem_cons.mpr ⟨h.fresh p hp, h.known⟩
  split e := by simp only [List.mem_cons, h.split e, or_assoc]
  listed := List.forall_mem_cons.mpr ⟨mem_absorb.mpr (.inr rfl), fun e he =>
    mem_absorb.mpr (.inl (h.listed e he))⟩
  sealed q hq := absurd ((hnone q).symm.trans hq) false_ne_true
  carried := h.carried
  ended := h.ended
  settled c hc e he := List.forall_mem_cons.mpr ⟨h.ended c hc e he p hp, h.settled c hc e he⟩
  apart := h.apart

theorem Told.commit (h : Told lh k g) (p : ι)
    (hnone : ∀ q, (k q).counted = false) : Told lh (update k p { k p with installing := true })
      { g with pending := [], commits := ⟨g.pending, lh⟩ :: g.commits } := by
  have hcounted : ∀ q, (update k p { k p with installing := true } q).counted = true → False :=
    forall_update (f := Role.counted) (fun q hq => false_ne_true ((hnone q).symm.trans hq))
      fun hq => false_ne_true ((hnone p).symm.trans hq)
  exact {
    fresh := fun q hq => (hcounted q hq).elim
    known := h.known
    split := fun e => by
      rw [h.split e]
      simp
    listed := nofun
    sealed := fun _ _ => rfl
    carried := List.forall_mem_cons.mpr ⟨h.listed, h.carried⟩
    ended := fun _ _ _ _ q hq => (hcounted q hq).elim
    settled := nofun
    apart := List.pairwise_cons.mpr ⟨fun c hc e he e' he' => h.settled c hc e' he' e he, h.apart⟩ }

theorem Told.clear {p : ι} (h : Told lh k g) (hp : (k p).installing = true) :
    Told [] (update k p { k p with installing := false, cleared := true }) g := by
  have hnil := h.sealed p hp
  have hcounted : ∀ q, (update k p { k p with installing := false, cleared := true } q).counted =
      (k q).counted := update_same rfl
  exact { h with
    fresh := fun q hq => h.fresh q (hcounted q ▸ hq)
    listed := by rw [hnil]; exact nofun
    sealed := fun _ _ => hnil
    ended := fun c hc e he q hq => h.ended c hc e he q (hcounted q ▸ hq) }

/-- Whatever `wakeup` does, a step that does not make `p` count, or install, asks no more. -/
theorem Told.after (h : Told s.vars.lh s.roles s.history)
    (hcounted : o.pc.role.counted = true → (s.roles p).counted = true)
    (hinst : o.pc.role.installing = true → (s.roles p).installing = true) :
    Told s.vars.lh (s.after p o).roles s.history := by
  refine h.mono (fun q hq => ?_) fun q hq => ?_ <;> rw [roles_after] at hq <;> by_cases hqp : q = p
  · rw [hqp, update_self] at hq
    exact hqp ▸ hcounted hq
  · rw [update_of_ne hqp] at hq
    split at hq <;> exact hq
  · rw [hqp, update_self] at hq
    exact hqp ▸ hinst hq
  · rw [update_of_ne hqp] at hq
    split at hq <;> exact hq

omit [DecidableEq ι] in
theorem Inv.not_installing (h : Inv s.vars s.roles) (hcounted : (s.roles p).counted = true) (q : ι) :
    (s.roles q).installing = false := by
  rw [eq_false_iff]
  intro hq
  have hpos := h.count.pos hcounted
  have := h.alone (h.committing.set (p := q) (committer_of_installing hq))
  omega

theorem told_moves (h : Inv s.vars s.roles) (ht : Told s.vars.lh s.roles s.history)
    (hm : Moves s.vars (s.pc p) o) : Told o.vars.lh (s.after p o).roles (s.after p o).history := by
  have hrole : s.roles p = (s.pc p).role := rfl
  have hhist : (s.after p o).history = s.history.record p s.vars.lh (s.pc p) o.pc := rfl
  rw [hhist]
  clear hhist
  generalize s.pc p = c at hm hrole
  cases hm with
  | quiet hc hr | acquire hc _ hr | release hc _ hr =>
    rw [record_eq _ _ _ hc]
    refine ht.after (fun hq => ?_) fun hq => ?_
    · rw [hrole]
      rw [hr] at hq
      exact hq
    · rw [hrole]
      rw [hr] at hq
      exact hq
  | sleep | wake | finish | begins | others | skip | ends | wakeup => exact ht.after nofun nofun
  | joins _ _ =>
    have := ht.joins p
    rw [hrole] at this
    rw [roles_after_quiet]
    exact this
  | absorb b =>
    have hcounted : (s.roles p).counted = true := by rw [hrole]; rfl
    rw [roles_after_quiet, show Pc.writeRelease.role = s.roles p from hrole.symm, update_eq_self]
    exact ht.absorb b hcounted (h.not_installing hcounted)
  | head =>
    have hnone : ∀ q, (s.roles q).counted = false := by
      intro q
      rw [eq_false_iff]
      intro hq
      have hpos := h.count.pos hq
      have := h.alone (h.committing.set (p := p) (by rw [hrole]; rfl))
      omega
    have := ht.commit p hnone
    rw [hrole] at this
    rw [roles_after_quiet]
    exact this
  | clear =>
    have := ht.clear (p := p) (by rw [hrole]; rfl)
    rw [hrole] at this
    rw [roles_after_quiet]
    exact this

/-! ## Whole runs -/

/-- What holds of the log whenever its processes are between two statements. -/
structure Good (s : Sys ι) : Prop where
  inv : Inv s.vars s.roles
  told : Told s.vars.lh s.roles s.history

omit [DecidableEq ι] in
theorem good_init : Good (Sys.init : Sys ι) where
  inv := inv_init
  told :=
    { fresh := nofun, known := nofun, split := by simp [Sys.init], listed := nofun, sealed := nofun
      carried := nofun, ended := nofun, settled := nofun, apart := .nil }

theorem Good.exec {t : Sys ι} {a : ι × Choice} (h : Good s) (hx : s.exec size a = some t) : Good t := by
  obtain ⟨o, hstep, rfl⟩ := exec_eq_some hx
  have hm := moves_of_step hstep
  exact ⟨inv_moves h.inv hm, told_moves h.inv h.told hm⟩

theorem good_run {guard : Sys ι → ι × Choice → Prop}
    (h : Run (Sys.exec size) guard Sys.init s) : Good s :=
  h.invariant good_init fun _ _ _ h _ hx => h.exec hx

/-- In `log_write`. -/
def Pc.writing : Pc → Bool
  | .writeCheck _ | .writeAcquire _ | .writeLocked _ | .writeRelease => true
  | _ => false

omit [DecidableEq ι] in
theorem Good.not_counted (h : Good s) (hc : s.vars.committing = true) (q : ι) :
    (s.pc q).role.counted = false := by
  rw [eq_false_iff]
  intro hq
  have hpos := h.inv.count.pos (p := q) hq
  have := h.inv.alone hc
  omega

theorem committing_of_panic {l : Vars} {c : Pc} {ch : Choice}
    (h : step size l c ch = .error (.panic "log.committing")) : c = .endTest ∧ l.committing = true := by
  unfold step at h
  cases ch with
  | go =>
    unfold advance acquire release at h
    grind
  | write b => grind
  | finish => grind
  | wake => grind

omit [DecidableEq ι] in
theorem Good.all_or_none (h : Good s) {c : Commit} (hc : c ∈ s.history.commits) (o : Nat) :
    (∀ b, (o, b) ∈ s.history.written → (o, b) ∈ c.events) ∨ ∀ b, (o, b) ∉ c.events := by
  by_cases hone : ∃ b, (o, b) ∈ c.events
  · obtain ⟨b, hb⟩ := hone
    refine .inl fun b' hb' => ?_
    obtain hpending | ⟨c', hc', hb'⟩ := (h.told.split _).mp hb'
    · exact absurd rfl (h.told.settled c hc (o, b) hb (o, b') hpending)
    · by_cases hcc : c = c'
      · rwa [hcc]
      · have hsymm : Std.Symm fun c c' : Commit => ∀ e ∈ c.events, ∀ e' ∈ c'.events, e.1 ≠ e'.1 :=
          ⟨fun _ _ h e he e' he' => (h e' he' e he).symm⟩
        exact absurd rfl (h.told.apart.forall hc hc' hcc (o, b) hb (o, b') hb')
  · exact .inr (not_exists.mp hone)

/-- **Group commit.** In every state that any number of processes can reach, whatever the order of their
steps. -/
theorem group_commit {size : Nat} {s : Sys ι} (h : Run (Sys.exec size) (fun _ _ => True) Sys.init s) :
    (s.vars.committing = true → s.vars.outstanding = 0) ∧
    (s.vars.committing = true → ∀ p, s.pc p ≠ .inOp ∧ (s.pc p).writing = false) ∧
    (∀ p ch, step size s.vars (s.pc p) ch ≠ .error (.panic "log.committing")) ∧ s.vars.lh.Nodup ∧
    (∀ e ∈ s.history.pending, e.2 ∈ s.vars.lh) ∧ (∀ c ∈ s.history.commits, (∀ e ∈ c.events, e.2 ∈ c.blocks) ∧
      ∀ o, (∀ b, (o, b) ∈ s.history.written → (o, b) ∈ c.events) ∨ ∀ b, (o, b) ∉ c.events) ∧
    (s.vars.lock = false → s.vars.outstanding = 0 → s.vars.committing = false →
      s.vars.lh = [] ∧ ∀ p, s.pc p ≠ .asleep) := by
  have hgood := good_run h
  refine ⟨hgood.inv.alone, fun hc p => ?_, fun p ch hpanic => ?_, hgood.inv.nodup, hgood.told.listed,
    fun c hc => ⟨hgood.told.carried c hc, hgood.all_or_none hc⟩, ?_⟩
  · have hp := hgood.not_counted hc p
    generalize s.pc p = c at hp
    cases c with
    | inOp | writeCheck b | writeAcquire b | writeLocked b | writeRelease => cases hp
    | _ => exact ⟨nofun, rfl⟩
  · obtain ⟨hc, hcommitting⟩ := committing_of_panic hpanic
    have hidle := hgood.inv.closing p (by unfold Sys.roles; rw [hc]; rfl)
    exact false_ne_true (hidle.symm.trans hcommitting)
  · intro hlock hout hidle
    -- who is about to decide holds the lock
    have hclosing : ¬∃ q, (s.roles q).closing = true := by
      rintro ⟨q, hq⟩
      have hset := hgood.inv.lock.set (p := q) (locked_of_closing hq)
      exact false_ne_true (hlock.symm.trans hset)
    refine ⟨(hgood.inv.empty hout hidle).resolve_right hclosing, fun p hp => ?_⟩
    obtain hc | hpos | hq := hgood.inv.asleep p (by unfold Sys.roles; rw [hp]; rfl)
    · exact false_ne_true (hidle.symm.trans hc)
    · omega
    · exact hclosing hq

/-- Two operations with a log write each. The first one to end leaves the commit to the other. -/
def twoOps : List (Fin 2 × Choice) :=
  let go (p : Fin 2) (n : Nat) := List.replicate n (p, Choice.go)
  go 0 4 ++ [(0, .write 100)] ++ go 0 4 ++ go 1 4 ++ [(1, .write 101)] ++ go 1 4 ++ [(0, .finish)] ++ go 0 4 ++
    [(1, .finish)] ++ go 1 14

theorem group_commit_twoOps : ∃ s : Sys (Fin 2), Run (Sys.exec LOGSIZE) (fun _ _ => True) Sys.init s ∧
    s.history.commits = [⟨[(1, 101), (0, 100)], [100, 101]⟩] ∧ s.vars.lh = [] ∧ ∀ p, s.pc p ≠ .asleep := by
  have hx : (Run.execAll (Sys.exec LOGSIZE) Sys.init twoOps).any (fun s =>
      s.history.commits == [⟨[(1, 101), (0, 100)], [100, 101]⟩] && !s.vars.lock && s.vars.outstanding == 0 &&
        !s.vars.committing) = true := by decide +kernel
  obtain ⟨s, hrun, hs⟩ := Run.exists_run hx
  simp only [Bool.and_eq_true, beq_iff_eq, Bool.not_eq_true'] at hs
  obtain ⟨⟨⟨hcommits, hlock⟩, hout⟩, hidle⟩ := hs
  obtain ⟨-, -, -, -, -, -, hfree⟩ := group_commit hrun
  obtain ⟨hnil, hawake⟩ := hfree hlock hout hidle
  exact ⟨s, hrun, hcommits, hnil, hawake⟩

end Xv6.Log
