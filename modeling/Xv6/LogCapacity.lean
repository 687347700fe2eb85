import Mathlib.Algebra.Order.BigOperators.Group.Finset
import Xv6.GroupCommit

/-!
# Is the log large enough?

`begin_op` reserves `MAXOPBLOCKS` blocks for each operation out of `LOGSIZE`, but the `LOGSIZE` blocks of the
log include the header, and `log_write` panics when all others are in use. With one block less for each
operation the reservation is enough.
-/

namespace Xv6.Log

open Function (update update_self update_of_ne update_eq_self)

variable {ι : Type} [DecidableEq ι] {size : Nat} {s t : Sys ι} {p : ι}

/-- The blocks that the operation of process `p` has written. -/
def History.blocks (g : History ι) (p : ι) : Finset Word :=
  ((g.written.filter fun e => e.1 = g.op p).map Prod.snd).toFinset

/-- No operation writes more than `m` distinct blocks, however often each. -/
def Bounded (m : Nat) (s : Sys ι) : ι × Choice → Prop
  | (p, .write b) => (insert b (s.history.blocks p)).card ≤ m
  | _ => True

instance (m : Nat) (s : Sys ι) : (a : ι × Choice) → Decidable (Bounded m s a)
  | (_, .write _) => inferInstanceAs (Decidable (_ ≤ _))
  | (_, .go) | (_, .finish) | (_, .wake) => isTrue trivial

variable {b : Word} {c : Pc} {o : Outcome}

omit [DecidableEq ι] in
theorem mem_blocks {g : History ι} : b ∈ g.blocks p ↔ (g.op p, b) ∈ g.written := by
  unfold History.blocks
  simp only [List.mem_toFinset, List.mem_map, List.mem_filter, decide_eq_true_eq]
  constructor
  · rintro ⟨e, ⟨he, ho⟩, rfl⟩
    rw [← ho]
    exact he
  · intro h
    exact ⟨_, ⟨h, rfl⟩, rfl⟩

/-- The block that a process is about to put into the list. -/
def Pc.asks : Pc → Option Word
  | .writeCheck b | .writeAcquire b | .writeLocked b => some b
  | _ => none

theorem asks_of_step {l : Vars} {ch : Choice}
    (h : step size l c ch = .ok o) (hb : o.pc.asks = some b) : c.asks = some b ∨ ch = .write b := by
  unfold step advance acquire release at h
  unfold Pc.asks at *
  grind

/-! ## Reservations -/

/-- What the operations under way have used and may still use fits into the log, if each may use `m`
blocks. -/
structure Room (m : Nat) (l : Vars) (k : ι → Role) (g : History ι) : Prop where
  distinct : ∀ p q, (k p).counted = true → (k q).counted = true → g.op p = g.op q → p = q
  room : ∃ R : Finset ι, (∀ q, q ∈ R ↔ (k q).counted = true) ∧ l.outstanding = R.card ∧
    l.lh.length + ∑ q ∈ R, (m - (g.blocks q).card) ≤ 28

section
variable {m : Nat} {l l' : Vars} {k k' : ι → Role} {g g' : History ι} {b : Word}

omit [DecidableEq ι] in
theorem blocks_congr {q : ι} (hop : g'.op q = g.op q) (hw : g'.written = g.written) :
    g'.blocks q = g.blocks q := by
  unfold History.blocks
  rw [hop, hw]

omit [DecidableEq ι] in
theorem Room.mono (h : Room m l k g) (hk : ∀ q, (k' q).counted = (k q).counted)
    (hlh : l'.lh.length ≤ l.lh.length) (hout : l'.outstanding = l.outstanding) (hop : g'.op = g.op)
    (hw : g'.written = g.written) : Room m l' k' g' := by
  obtain ⟨R, hR, hcard, hroom⟩ := h.room
  refine ⟨fun p q hp hq hpq => h.distinct p q (hk p ▸ hp) (hk q ▸ hq) (hop ▸ hpq), R, fun q => ?_, ?_, ?_⟩
  · rw [hR, hk]
  · rw [hout, hcard]
  · simp only [blocks_congr (congrFun hop _) hw]
    omega

theorem Room.joins (h : Room 9 l k g) (hfresh : ∀ q, (k q).counted = true → g.op q < g.nextOp)
    (hp : (k p).counted = false) (hroom : l.lh.length + (l.outstanding + 1) * MAXOPBLOCKS ≤ (LOGSIZE : Int))
    (hempty : l.outstanding = 0 → l.lh = []) : Room 9 { l with outstanding := l.outstanding + 1 }
      (update k p { k p with counted := true })
      { g with op := update g.op p g.nextOp, nextOp := g.nextOp + 1 } := by
  obtain ⟨R, hR, hcard, -⟩ := h.room
  have hnot : p ∉ R := by
    rw [hR, hp]
    exact Bool.false_ne_true
  refine ⟨fun q q' hq hq' hqq => ?_, R.cons p hnot, fun q => ?_, ?_, ?_⟩
  · -- the new number is above all others
    dsimp only at hqq
    by_cases hqp : q = p <;> by_cases hqp' : q' = p
    · rw [hqp, hqp']
    · rw [hqp, update_self, update_of_ne hqp'] at hqq
      rw [update_of_ne hqp'] at hq'
      exact absurd hqq (Nat.ne_of_gt (hfresh q' hq'))
    · rw [hqp', update_self, update_of_ne hqp] at hqq
      rw [update_of_ne hqp] at hq
      exact absurd hqq (Nat.ne_of_lt (hfresh q hq))
    · rw [update_of_ne hqp, update_of_ne hqp'] at hqq
      rw [update_of_ne hqp] at hq
      rw [update_of_ne hqp'] at hq'
      exact h.distinct q q' hq hq' hqq
  · by_cases hq : q = p
    · simp [hq]
    · simp [hq, hR]
  · rw [Finset.card_cons, hcard]
    rfl
  · -- with `n` operations before, `9 * (n + 1)` is below what was found to be free
    have hsum : ∀ f : ι → Nat, ∑ q ∈ R.cons p hnot, (9 - f q) ≤ (R.card + 1) * 9 := by
      intro f
      have := Finset.sum_le_card_nsmul (R.cons p hnot) (fun q => 9 - f q) 9 fun q _ => Nat.sub_le _ _
      rwa [Finset.card_cons] at this
    refine le_trans (Nat.add_le_add_left (hsum _) _) ?_
    dsimp only
    rw [hcard] at hroom hempty
    have h30 : (LOGSIZE : Int) = 30 := rfl
    have h10 : (MAXOPBLOCKS : Int) = 10 := rfl
    rw [h30, h10] at hroom
    cases hn : R.card with
    | zero =>
      rw [hempty (by rw [hn]; rfl)]
      decide
    | succ n =>
      rw [hn] at hroom
      push_cast at hroom
      omega

omit [DecidableEq ι] in
theorem blocks_write (g : History ι) (p q : ι) (b : Word) :
    { g with written := (g.op p, b) :: g.written, pending := (g.op p, b) :: g.pending }.blocks q =
      if g.op q = g.op p then insert b (g.blocks q) else g.blocks q := by
  ext x
  rw [mem_blocks, List.mem_cons, Prod.mk.injEq]
  split
  · next hq => rw [Finset.mem_insert, mem_blocks, and_iff_right hq]
  · next hq => rw [mem_blocks, or_iff_right fun h => hq h.1]

theorem Room.absorb (h : Room m l k g) (hp : (k p).counted = true)
    (hlisted : (g.op p, b) ∈ g.written → b ∈ l.lh) (hm : (insert b (g.blocks p)).card ≤ m) :
    Room m { l with lh := absorb l.lh b } k
      { g with written := (g.op p, b) :: g.written, pending := (g.op p, b) :: g.pending } := by
  obtain ⟨R, hR, hcard, hroom⟩ := h.room
  have hmem : p ∈ R := (hR p).mpr hp
  refine ⟨h.distinct, R, hR, hcard, le_trans ?_ hroom⟩
  simp only [blocks_write]
  -- the reservations of the others stay as they are
  have hothers : ∑ q ∈ R.erase p, (m - (if g.op q = g.op p then insert b (g.blocks q)
      else g.blocks q).card) = ∑ q ∈ R.erase p, (m - (g.blocks q).card) := by
    refine Finset.sum_congr rfl fun q hq => ?_
    obtain ⟨hne, hq⟩ := Finset.mem_erase.mp hq
    rw [if_neg fun hop => hne (h.distinct q p ((hR q).mp hq) hp hop)]
  rw [← Finset.add_sum_erase R _ hmem, hothers, if_pos rfl,
    ← Finset.add_sum_erase R (fun q => m - (g.blocks q).card) hmem]
  unfold Log.absorb
  split
  · have := Finset.card_le_card (Finset.subset_insert b (g.blocks p))
    omega
  · next hb =>
    have hnew : b ∉ g.blocks p := fun hmem => hb (hlisted (mem_blocks.mp hmem))
    rw [Finset.card_insert_of_notMem hnew] at hm ⊢
    rw [List.length_append, List.length_singleton]
    omega

theorem Room.finish (h : Room m l k g) (hp : (k p).counted = true) :
    Room m { l with outstanding := l.outstanding - 1 }
      (update k p { k p with counted := false, closing := true }) g := by
  obtain ⟨R, hR, hcard, hroom⟩ := h.room
  have hmem : p ∈ R := (hR p).mpr hp
  have hcounted : ∀ q, (update k p { k p with counted := false, closing := true } q).counted =
      true ↔ q ∈ R.erase p := by
    intro q
    by_cases hq : q = p
    · simp [hq]
    · simp [hq, hR]
  refine ⟨fun q q' hq hq' => ?_, R.erase p, fun q => (hcounted q).symm, ?_, le_trans ?_ hroom⟩
  · have hq := Finset.mem_of_mem_erase ((hcounted q).mp hq)
    have hq' := Finset.mem_of_mem_erase ((hcounted q').mp hq')
    exact h.distinct q q' ((hR q).mp hq) ((hR q').mp hq')
  · have := Finset.card_pos.mpr ⟨p, hmem⟩
    rw [Finset.card_erase_of_mem hmem]
    dsimp only
    omega
  · exact Nat.add_le_add_left (Finset.sum_le_sum_of_subset (Finset.erase_subset p R)) _

end

/-! ## Every statement keeps the reservations -/

omit [DecidableEq ι] in
theorem Good.listed (h : Good s) (hp : (s.roles p).counted = true)
    (hb : (s.history.op p, b) ∈ s.history.written) : b ∈ s.vars.lh := by
  obtain hpending | ⟨c, hc, he⟩ := (h.told.split _).mp hb
  · exact h.told.listed _ hpending
  · exact absurd rfl (h.told.ended c hc _ he p hp)

theorem counted_after (s : Sys ι) (p : ι) (ho : o.pc.role.counted = (s.roles p).counted)
    (q : ι) : ((s.after p o).roles q).counted = (s.roles q).counted := by
  rw [roles_after]
  by_cases hq : q = p
  · rw [hq, update_self, ho]
  · rw [update_of_ne hq]
    split <;> rfl

theorem room_moves (hgood : Good s) (h : Room 9 s.vars s.roles s.history) (hm : Moves s.vars (s.pc p) o)
    (hasks : ∀ b, (s.pc p).asks = some b → (insert b (s.history.blocks p)).card ≤ 9) :
    Room 9 o.vars (s.after p o).roles (s.after p o).history := by
  have hrole : s.roles p = (s.pc p).role := rfl
  have hhist : (s.after p o).history = s.history.record p s.vars.lh (s.pc p) o.pc := rfl
  rw [hhist]
  clear hhist
  generalize s.pc p = c at hm hrole hasks
  cases hm with
  | quiet hc hr | acquire hc _ hr | release hc _ hr =>
    rw [record_eq _ _ _ hc]
    exact h.mono (counted_after s p (by rw [hrole, hr])) le_rfl rfl rfl rfl
  | sleep | wake | begins | others | skip | ends | wakeup | head =>
    exact h.mono (counted_after s p (by rw [hrole]; rfl)) le_rfl rfl rfl rfl
  | clear => exact h.mono (counted_after s p (by rw [hrole]; rfl)) (Nat.zero_le _) rfl rfl rfl
  | joins hidle hroom =>
    have hempty : s.vars.outstanding = 0 → s.vars.lh = [] := by
      intro h0
      refine (hgood.inv.empty h0 hidle).resolve_right ?_
      rintro ⟨q, hq⟩
      have hqp := hgood.inv.closing_sole (p := p) (by rw [hrole]; rfl) hq
      rw [hqp, hrole] at hq
      cases hq
    have := h.joins (p := p) hgood.told.fresh (by rw [hrole]; rfl) hroom hempty
    rw [hrole] at this
    rw [roles_after_quiet]
    exact this
  | absorb b =>
    have hcounted : (s.roles p).counted = true := by rw [hrole]; rfl
    rw [roles_after_quiet, show Pc.writeRelease.role = s.roles p from hrole.symm, update_eq_self]
    exact h.absorb hcounted (hgood.listed hcounted) (hasks b rfl)
  | finish =>
    have := h.finish (p := p) (by rw [hrole]; rfl)
    rw [hrole] at this
    rw [roles_after_quiet]
    exact this

theorem blocks_after (h : Room 9 s.vars s.roles s.history) (hm : Moves s.vars (s.pc p) o)
    {q : ι} (hq : (s.roles q).counted = true) (hqp : q ≠ p) :
    (s.after p o).history.blocks q = s.history.blocks q := by
  have hrole : s.roles p = (s.pc p).role := rfl
  have hhist : (s.after p o).history = s.history.record p s.vars.lh (s.pc p) o.pc := rfl
  rw [hhist]
  clear hhist
  generalize s.pc p = c at hm hrole
  cases hm with
  | quiet hc _ | acquire hc _ _ | release hc _ _ => rw [record_eq _ _ _ hc]
  | joins _ _ => exact blocks_congr (update_of_ne hqp _ _) rfl
  | absorb b =>
    have hp : (s.roles p).counted = true := by rw [hrole]; rfl
    exact (blocks_write _ _ _ _).trans (if_neg fun hop => hqp (h.distinct q p hq hp hop))
  | _ => rfl

theorem counted_of_asks (h : c.asks = some b) : c.role.counted = true := by
  cases c with
  | writeCheck | writeAcquire | writeLocked => rfl
  | _ => cases h

theorem asks_woken (c : Pc) : c.woken.asks = c.asks := by
  cases c <;> rfl

theorem not_recorded_of_asks {l : Vars} (hm : Moves l c o)
    (h : o.pc.asks = some b) : c.recorded = false := by
  cases hm with
  | quiet hc _ | acquire hc _ _ | release hc _ _ => exact hc
  | _ => cases h

/-- What a process is about to write keeps it within its bound. -/
structure Roomy (s : Sys ι) : Prop where
  good : Good s
  room : Room 9 s.vars s.roles s.history
  asked : ∀ p b, (s.pc p).asks = some b → (insert b (s.history.blocks p)).card ≤ 9

theorem Roomy.exec {a : ι × Choice} (h : Roomy s) (ha : Bounded 9 s a) (hx : s.exec size a = some t) :
    Roomy t := by
  have hgood := h.good.exec hx
  obtain ⟨p, ch⟩ := a
  obtain ⟨o, hstep, rfl⟩ := exec_eq_some hx
  have hm := moves_of_step hstep
  refine ⟨hgood, room_moves h.good h.room hm (h.asked p), fun q b hq => ?_⟩
  by_cases hqp : q = p
  · subst hqp
    have hb : o.pc.asks = some b := by
      unfold Sys.after at hq
      dsimp only at hq
      rwa [update_self] at hq
    have hsame : (s.after q o).history = s.history := record_eq _ _ _ (not_recorded_of_asks hm hb)
    rw [hsame]
    obtain hc | rfl := asks_of_step hstep hb
    · exact h.asked q b hc
    · exact ha
  · have hb : (s.pc q).asks = some b := by
      unfold Sys.after at hq
      dsimp only at hq
      rw [update_of_ne hqp] at hq
      split at hq
      · rwa [asks_woken] at hq
      · exact hq
    rw [blocks_after h.room hm (counted_of_asks hb) hqp]
    exact h.asked q b hb

omit [DecidableEq ι] in
theorem roomy_init : Roomy (Sys.init : Sys ι) where
  good := good_init
  room := ⟨nofun, ∅, by simp [Sys.roles, Sys.init, Pc.role], rfl, by simp [Sys.init]⟩
  asked := nofun

omit [DecidableEq ι] in
theorem Roomy.length_le (h : Roomy s) : s.vars.lh.length ≤ 28 := by
  obtain ⟨R, -, -, hroom⟩ := h.room.room
  omega

/-- **The log is large enough** for operations that write at most `MAXOPBLOCKS - 1` distinct blocks each:
`log_write` does not panic, and the list fits into the log. -/
theorem log_capacity {s : Sys ι} (h : Run (Sys.exec LOGSIZE) (Bounded (MAXOPBLOCKS - 1)) Sys.init s) :
    (∀ p ch, step LOGSIZE s.vars (s.pc p) ch ≠ .error (.panic "too big a transaction")) ∧
      s.vars.lh.length ≤ LOGSIZE - 1 := by
  have hroomy : Roomy s := h.invariant roomy_init fun _ _ _ h ha hx => h.exec ha hx
  have hlen := hroomy.length_le
  have h30 : LOGSIZE = 30 := rfl
  refine ⟨fun p ch hpanic => ?_, by omega⟩
  unfold step advance acquire release at hpanic
  grind

/-- Process `p` calls `begin_op`. -/
def begins (p : Fin 3) : List (Fin 3 × Choice) := List.replicate 4 (p, .go)

/-- Process `p` log writes `m` blocks from block `n` on. -/
def writes (p : Fin 3) (n m : Nat) : List (Fin 3 × Choice) :=
  (List.range m).flatMap fun i =>
    (p, .write (BitVec.ofNat 32 (n + i))) :: List.replicate 4 (p, .go)

/-- Three operations that write nine blocks each fit. -/
theorem log_capacity_three : ∃ s : Sys (Fin 3),
    Run (Sys.exec LOGSIZE) (Bounded (MAXOPBLOCKS - 1)) Sys.init s ∧ s.vars.lh.length = 27 ∧
    ∀ p ch, step LOGSIZE s.vars (s.pc p) ch ≠ .error (.panic "too big a transaction") := by
  have hx : (Run.execAll
      (fun s a => if Bounded (MAXOPBLOCKS - 1) s a then Sys.exec LOGSIZE s a else none)
      Sys.init (begins 0 ++ begins 1 ++ begins 2 ++ writes 0 100 9 ++ writes 1 110 9 ++
        writes 2 120 9)).any (fun s => s.vars.lh.length == 27) = true := by decide +kernel
  obtain ⟨s, hrun, hs⟩ := Run.exists_run hx
  exact ⟨s, hrun.of_checked, by simpa using hs, (log_capacity hrun.of_checked).1⟩

/-- Three operations that write ten blocks each: the last block of the last one is too many. -/
theorem log_overflows : ∃ s : Sys (Fin 3), Run (Sys.exec LOGSIZE) (Bounded MAXOPBLOCKS) Sys.init s ∧
    Bounded MAXOPBLOCKS s (2, .write 129) ∧
    step LOGSIZE s.vars (s.pc 2) (.write 129) = .error (.panic "too big a transaction") := by
  have hx : (Run.execAll (fun s a => if Bounded MAXOPBLOCKS s a then Sys.exec LOGSIZE s a else none)
      Sys.init (begins 0 ++ begins 1 ++ begins 2 ++ writes 0 100 10 ++ writes 1 110 10 ++ writes 2 120 9)).any
      (fun s => decide (Bounded MAXOPBLOCKS s (2, .write 129)) && s.pc 2 == .inOp &&
        s.vars.lh.length == 29) = true := by decide +kernel
  obtain ⟨s, hrun, hs⟩ := Run.exists_run hx
  simp only [Bool.and_eq_true, beq_iff_eq, decide_eq_true_eq] at hs
  obtain ⟨⟨hbounded, hpc⟩, hlen⟩ := hs
  refine ⟨s, hrun.of_checked, hbounded, ?_⟩
  rw [hpc]
  simp [step, hlen, LOGSIZE, MAXOPBLOCKS]

end Xv6.Log
