import Mathlib.Algebra.GroupWithZero.Nat
import Mathlib.Algebra.BigOperators.Group.Finset.Piecewise
import Mathlib.Algebra.Order.BigOperators.Group.Finset
import Mathlib.Data.List.GetD

/-!
# Jobs in pieces

A job is a list of pieces that are to be done in order. Each thread takes up one job at a time, and a log
records for every piece that is done the number of its job. When all threads are idle the log is an
interleaving of all the jobs.
-/

namespace Interleave

open Function (update update_self update_of_ne)

variable {ι β : Type} {jobs : List (List β)} {log : List (Nat × β)}
  {todo : ι → Option (Nat × List β)} {p q : ι} {k : Nat} {x : β} {l rest : List β}

/-- The pieces of a job in the log. -/
def ofJob (log : List (Nat × β)) (k : Nat) : List β := (log.filter (·.1 == k)).map (·.2)

theorem ofJob_append (log log' : List (Nat × β)) (k : Nat) :
    ofJob (log ++ log') k = ofJob log k ++ ofJob log' k := by
  simp [ofJob]

theorem ofJob_single (j k : Nat) (x : β) : ofJob [(j, x)] k = if j = k then [x] else [] := by
  by_cases h : j = k <;> simp [ofJob, h]

/-- `todo p` is the job of thread `p` and what it has still to do of it. -/
structure Interleaving (jobs : List (List β)) (log : List (Nat × β))
    (todo : ι → Option (Nat × List β)) : Prop where
  tags : ∀ e ∈ log, e.1 < jobs.length
  mine : ∀ p k rest, todo p = some (k, rest) → jobs[k]? = some (ofJob log k ++ rest)
  sole : ∀ p q k rest rest', todo p = some (k, rest) → todo q = some (k, rest') → p = q
  ended : ∀ k l, jobs[k]? = some l → (∀ p rest, todo p ≠ some (k, rest)) → ofJob log k = l

namespace Interleaving

theorem nil : Interleaving ([] : List (List β)) [] (fun _ : ι => none) where
  tags _ h := absurd h List.not_mem_nil
  mine _ _ _ h := by cases h
  sole _ _ _ _ _ h := by cases h
  ended _ _ h := by cases h

section
variable (h : Interleaving jobs log todo)
include h

theorem lt (hp : todo p = some (k, rest)) : k < jobs.length :=
  (List.getElem?_eq_some_iff.mp (h.mine p k rest hp)).1

/-- A job that is not there yet has no pieces in the log. -/
theorem ofJob_length : ofJob log jobs.length = [] := by
  simp only [ofJob, List.map_eq_nil_iff, List.filter_eq_nil_iff, beq_iff_eq]
  intro e he heq
  exact absurd (h.tags e he) (by omega)

theorem all_done (hall : ∀ p, todo p = none)
    (hk : jobs[k]? = some l) : ofJob log k = l :=
  h.ended k l hk fun p rest hp => by rw [hall p] at hp; cases hp

variable [DecidableEq ι]

/-- An idle thread takes up a new job. -/
theorem start (l : List β) :
    todo p = none → Interleaving (jobs ++ [l]) log (update todo p (some (jobs.length, l))) := by
  intro hp
  refine ⟨fun e he => ?_, fun q k rest hq => ?_, fun q r k rest rest' hq hr => ?_,
    fun k l' hk hno => ?_⟩
  · rw [List.length_append]
    exact Nat.lt_add_right _ (h.tags e he)
  · by_cases hqp : q = p
    · subst hqp
      rw [update_self] at hq
      cases hq
      rw [h.ofJob_length]
      simp
    · rw [update_of_ne hqp] at hq
      rw [List.getElem?_append_left (h.lt hq)]
      exact h.mine q k rest hq
  · by_cases hqp : q = p <;> by_cases hrp : r = p
    · rw [hqp, hrp]
    · rw [hqp, update_self] at hq
      rw [update_of_ne hrp] at hr
      cases hq
      exact absurd (h.lt hr) (Nat.lt_irrefl _)
    · rw [update_of_ne hqp] at hq
      rw [hrp, update_self] at hr
      cases hr
      exact absurd (h.lt hq) (Nat.lt_irrefl _)
    · rw [update_of_ne hqp] at hq
      rw [update_of_ne hrp] at hr
      exact h.sole q r k rest rest' hq hr
  · have hlt : k < jobs.length := by
      have hlen := (List.getElem?_eq_some_iff.mp hk).1
      have hne : k ≠ jobs.length := by
        rintro rfl
        exact hno p l (by rw [update_self])
      rw [List.length_append, List.length_singleton] at hlen
      omega
    rw [List.getElem?_append_left hlt] at hk
    refine h.ended k l' hk fun q rest hq => hno q rest ?_
    rw [update_of_ne]
    · exact hq
    · rintro rfl
      rw [hp] at hq
      cases hq

/-- A thread does the next piece of its job. -/
theorem emit (hp : todo p = some (k, x :: rest)) :
    Interleaving jobs (log ++ [(k, x)]) (update todo p (some (k, rest))) := by
  refine ⟨fun e he => ?_, fun q j rest' hq => ?_, fun q r j rest' rest'' hq hr => ?_,
    fun j l hj hno => ?_⟩
  · obtain he | he := List.mem_append.mp he
    · exact h.tags e he
    · rw [List.mem_singleton.mp he]
      exact h.lt hp
  · rw [ofJob_append, ofJob_single]
    by_cases hqp : q = p
    · subst hqp
      rw [update_self] at hq
      cases hq
      rw [if_pos rfl, List.append_assoc]
      exact h.mine q _ _ hp
    · rw [update_of_ne hqp] at hq
      have hjk : k ≠ j := by
        rintro rfl
        exact hqp (h.sole q p k _ _ hq hp)
      rw [if_neg hjk, List.append_nil]
      exact h.mine q j rest' hq
  · have hold : ∀ q r', update todo p (some (k, rest)) q = some (j, r') → ∃ r'', todo q = some (j, r'') := by
      intro q r' hq
      by_cases hqp : q = p
      · subst hqp
        rw [update_self] at hq
        cases hq
        exact ⟨_, hp⟩
      · rw [update_of_ne hqp] at hq
        exact ⟨_, hq⟩
    obtain ⟨_, hq'⟩ := hold q _ hq
    obtain ⟨_, hr'⟩ := hold r _ hr
    exact h.sole q r j _ _ hq' hr'
  · have hjk : k ≠ j := by
      rintro rfl
      exact hno p rest (by rw [update_self])
    rw [ofJob_append, ofJob_single, if_neg hjk, List.append_nil]
    refine h.ended j l hj fun q rest' hq => hno q rest' ?_
    rw [update_of_ne]
    · exact hq
    · rintro rfl
      rw [hp] at hq
      cases hq
      exact hjk rfl

/-- A thread that has done its job is idle again. -/
theorem finish (hp : todo p = some (k, [])) : Interleaving jobs log (update todo p none) := by
  have hold : ∀ q x, update todo p none q = some x → todo q = some x := by
    intro q x hq
    by_cases hqp : q = p
    · rw [hqp, update_self] at hq
      cases hq
    · rwa [update_of_ne hqp] at hq
  refine ⟨h.tags, fun q k rest hq => h.mine q k rest (hold q _ hq),
    fun q r k rest rest' hq hr => h.sole q r k rest rest' (hold q _ hq) (hold r _ hr),
    fun j l hj hno => ?_⟩
  by_cases hjk : j = k
  · subst hjk
    have hmine := h.mine p j [] hp
    rw [List.append_nil] at hmine
    exact Option.some.inj (hmine.symm.trans hj)
  · refine h.ended j l hj fun q rest hq => hno q rest ?_
    rw [update_of_ne]
    · exact hq
    · rintro rfl
      rw [hp] at hq
      cases hq
      exact hjk rfl

end

end Interleaving

/-! ## Weights -/

section Weight
variable (w : β → Nat)

/-- The weight of a list of pieces. -/
def weight (l : List β) : Nat := (l.map w).sum

theorem weight_append (l l' : List β) : weight w (l ++ l') = weight w l + weight w l' := by
  simp [weight]

/-- Piece by piece, or job by job. -/
theorem weight_log {n : Nat} (log : List (Nat × β)) (h : ∀ e ∈ log, e.1 < n) :
    weight w (log.map (·.2)) = ∑ k ∈ Finset.range n, weight w (ofJob log k) := by
  induction log with
  | nil => simp [weight, ofJob]
  | cons e log ih =>
    obtain ⟨j, x⟩ := e
    have hj : j ∈ Finset.range n := Finset.mem_range.mpr (h _ List.mem_cons_self)
    have hsplit : ∀ k, weight w (ofJob ((j, x) :: log) k) =
        (if j = k then w x else 0) + weight w (ofJob log k) := by
      intro k
      rw [show (j, x) :: log = [(j, x)] ++ log from rfl, ofJob_append, weight_append, ofJob_single]
      split <;> simp [weight]
    simp only [hsplit, Finset.sum_add_distrib, Finset.sum_ite_eq, if_pos hj]
    rw [← ih fun e he => h e (List.mem_cons_of_mem _ he)]
    simp [weight]

/-- The weight of all jobs. -/
theorem weight_jobs (jobs : List (List β)) :
    (jobs.map (weight w)).sum = ∑ k ∈ Finset.range jobs.length, weight w (jobs.getD k []) := by
  induction jobs with
  | nil => rfl
  | cons l jobs ih =>
    rw [List.length_cons, Finset.sum_range_succ', List.map_cons, List.sum_cons, ih, Nat.add_comm]
    rfl

namespace Interleaving

section
variable (h : Interleaving jobs log todo)
include h

theorem weight_ofJob_le (hk : k < jobs.length) : weight w (ofJob log k) ≤ weight w (jobs.getD k []) := by
  rw [List.getD_eq_getElem _ _ hk]
  have hget : jobs[k]? = some jobs[k] := List.getElem?_eq_getElem hk
  by_cases hopen : ∃ p rest, todo p = some (k, rest)
  · obtain ⟨p, rest, hp⟩ := hopen
    rw [Option.some.inj (hget.symm.trans (h.mine p k rest hp)), weight_append]
    omega
  · rw [h.ended k _ hget fun p rest hp => hopen ⟨p, rest, hp⟩]

/-- What has been done and what one thread has still to do is no more than all there is. -/
theorem weight_le (hp : todo p = some (k, rest)) :
    weight w (log.map (·.2)) + weight w rest ≤ (jobs.map (weight w)).sum := by
  have hk := h.lt hp
  rw [weight_log w log h.tags, weight_jobs, ← Finset.sum_erase_add _ _ (Finset.mem_range.mpr hk),
    ← Finset.sum_erase_add (Finset.range jobs.length) (fun k => weight w (jobs.getD k []))
      (Finset.mem_range.mpr hk), Nat.add_assoc]
  refine Nat.add_le_add (Finset.sum_le_sum fun j hj => ?_) ?_
  · exact h.weight_ofJob_le w (Finset.mem_range.mp (Finset.mem_of_mem_erase hj))
  · have hget : jobs[k]? = some jobs[k] := List.getElem?_eq_getElem hk
    rw [List.getD_eq_getElem _ _ hk, Option.some.inj (hget.symm.trans (h.mine p k rest hp)), weight_append]

/-- When all threads are idle, all there is has been done. -/
theorem weight_eq (hall : ∀ p, todo p = none) : weight w (log.map (·.2)) = (jobs.map (weight w)).sum := by
  rw [weight_log w log h.tags, weight_jobs]
  refine Finset.sum_congr rfl fun k hk => ?_
  have hlt := Finset.mem_range.mp hk
  rw [List.getD_eq_getElem _ _ hlt, h.all_done hall (List.getElem?_eq_getElem hlt)]

end

end Interleaving

end Weight

end Interleave
