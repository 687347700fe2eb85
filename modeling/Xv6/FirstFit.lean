import Xv6.ArgLoops
import Xv6.Boot
import Xv6.Lib.Hoare

/-!
# What `mmap` does to the table

`sys_mmap` looks for the first run of invalid slots that is long enough, and gives its pages to them.
`MmapOutcome` lists every way a call can end, and the results on the table are read off it. A call that fails
at the file descriptor leaves a valid slot behind.
-/

namespace Xv6

open Hoare

variable {p : Fin NPROC} {s t : State} {a : MmapArgs} {mmaps : Mmaps} {n i : Nat}

/-! ## The search -/

/-- The `n` slots from slot `i` on are in the table and not valid. -/
def FreeRun (mmaps : Mmaps) (n i : Nat) : Prop :=
  i + n ≤ PAGE_LIMIT ∧ ∀ j : Index, i ≤ j.val → j.val < i + n → (mmaps j).valid = false

theorem findRun_zero (mmaps : Mmaps) (l : List Index) (run : Nat) :
    findRun mmaps 0 l run = none := by
  induction l generalizing run with
  | nil => rfl
  | cons j l ih =>
    unfold findRun
    rw [if_neg (Nat.succ_ne_zero run), ih, ih, ite_self]

/-- The search from slot `c` on, when the `run` slots before it are free and no run starts before them,
finds the first run. -/
theorem findRun_from (l : List Index) (c run : Nat)
    (hl : l = (List.finRange PAGE_LIMIT).drop c) (hrun : run ≤ c) (hlt : run < n)
    (hfree : ∀ j : Index, c - run ≤ j.val → j.val < c → (mmaps j).valid = false)
    (hnone : ∀ i < c - run, ¬ FreeRun mmaps n i) (hc : c ≤ PAGE_LIMIT) :
    match findRun mmaps n l run with
    | some i => IsLeast { i | FreeRun mmaps n i } i
    | none => ∀ i, ¬ FreeRun mmaps n i := by
  induction l generalizing c run with
  | nil =>
    have hend : PAGE_LIMIT ≤ c := by
      have := congrArg List.length hl
      simp only [List.length_nil, List.length_drop, List.length_finRange] at this
      omega
    intro i hi
    exact hnone i (by have := hi.1; omega) hi
  | cons j l ih =>
    have hlen : c < (List.finRange PAGE_LIMIT).length := by
      by_contra hlen
      rw [List.drop_eq_nil_of_le (not_lt.mp hlen)] at hl
      cases hl
    rw [List.drop_eq_getElem_cons hlen, List.getElem_finRange] at hl
    obtain ⟨hj, hl⟩ := List.cons.inj hl
    have hjc : j.val = c := by rw [hj]; rfl
    unfold findRun
    by_cases hv : (mmaps j).valid
    · -- a run that starts among the free slots before `c` is cut off at `c`
      rw [if_pos hv]
      refine ih (c + 1) 0 hl (Nat.zero_le _) (by omega) (by omega) (fun i hi hfr => ?_) hlen
      by_cases hbefore : i < c - run
      · exact hnone i hbefore hfr
      · have := hfr.2 j (by omega) (by omega)
        rw [hv] at this
        cases this
    · have hfree' : ∀ j' : Index, c - run ≤ j'.val → j'.val < c + 1 → (mmaps j').valid = false := by
        intro j' h1 h2
        rcases Nat.lt_succ_iff_lt_or_eq.mp h2 with h2 | h2
        · exact hfree j' h1 h2
        · rw [show j' = j from Fin.ext (h2.trans hjc.symm)]
          simpa using hv
      rw [if_neg hv]
      by_cases hfull : run + 1 = n
      · rw [if_pos hfull]
        refine ⟨⟨by omega, fun j' h1 h2 => hfree' j' (by omega) (by omega)⟩, fun i hi => ?_⟩
        by_contra hlt
        exact hnone i (by omega) hi
      · rw [if_neg hfull]
        exact ih (c + 1) (run + 1) hl (by omega) (by omega)
          (fun j' h1 h2 => hfree' j' (by omega) h2) (fun i hi => hnone i (by omega)) hlen

theorem isLeast_findRun (h : findRun mmaps n (List.finRange PAGE_LIMIT) 0 = some i) :
    0 < n ∧ IsLeast { i | FreeRun mmaps n i } i := by
  rcases Nat.eq_zero_or_pos n with rfl | hn
  · rw [findRun_zero] at h
    cases h
  · have := @findRun_from mmaps n (List.finRange PAGE_LIMIT) 0 0 rfl le_rfl hn nofun nofun
      (Nat.zero_le _)
    rw [h] at this
    exact ⟨hn, this⟩

variable {j : Index}

theorem mem_slots (hle : i + n ≤ PAGE_LIMIT) : j ∈ slots i n ↔ i ≤ j.val ∧ j.val < i + n := by
  have hj := j.isLt
  simp only [slots, List.mem_iff_getElem, List.length_take, List.length_drop, List.length_finRange,
    List.getElem_take, List.getElem_drop, List.getElem_finRange]
  constructor
  · rintro ⟨k, hk, rfl⟩
    dsimp only [Fin.cast]
    omega
  · rintro ⟨h1, h2⟩
    exact ⟨j.val - i, by omega, Fin.ext (by dsimp only [Fin.cast]; omega)⟩

theorem length_slots (hle : i + n ≤ PAGE_LIMIT) : (slots i n).length = n := by
  simp only [slots, List.length_take, List.length_drop, List.length_finRange]
  omega

theorem nodup_slots : (slots i n).Nodup :=
  ((List.nodup_finRange PAGE_LIMIT).sublist (List.drop_sublist _ _)).sublist (List.take_sublist _ _)

theorem getElem_slots {m : Nat} (hm : m < (slots i n).length) (hle : i + n ≤ PAGE_LIMIT) :
    ∃ h, (slots i n)[m] = ⟨i + m, h⟩ := by
  have hlen : m < n := by rwa [length_slots hle] at hm
  refine ⟨by omega, ?_⟩
  simp [slots]

/-! ## The loop that fills the slots -/

/-- A slot after `sys_mmap` gave it the page at `va` of the file `fo`. -/
def MmapDesc.mapped (md : MmapDesc) (a : MmapArgs) (fo : Option (Fin NFILE)) (va : Word) (guard : Bool) :
    MmapDesc :=
  { md.claim a guard with f := fo, length := a.length, virtualAddress := va }

/-- The files after `n` references to `fo` were taken. -/
def Fs.dup (fs : Fs) (fo : Option (Fin NFILE)) (n : Nat) : Fs :=
  { fs with file := fun f => if fo = some f then { fs.file f with ref := (fs.file f).ref + n } else fs.file f }

/-- `t` is `s` after the slots `js` of `p` were filled, with pages from `va` on. Nothing else changes but
the count of the file. -/
structure Placed (p : Fin NPROC) (a : MmapArgs) (fo : Option (Fin NFILE)) (last : Nat)
    (js : List Index) (va : Word) (s t : State) : Prop where
  made : ∀ (k : Nat) (hk : k < js.length), (t.proc p).mmaps js[k] =
    ((s.proc p).mmaps js[k]).mapped a fo (va + PGSIZE * .ofNat 32 k)
      (js[k].val == last && hasFlag a.flags MAP_GROWSUP)
  other : ∀ j, j ∉ js → (t.proc p).mmaps j = (s.proc p).mmaps j
  rest : t = { s.updProc p fun q => { q with mmaps := (t.proc p).mmaps } with fs := s.fs.dup fo js.length }

/-- The file that a request names, when it names one. -/
def RequestFile (s : State) (p : Fin NPROC) (a : MmapArgs) (fo : Option (Fin NFILE)) : Prop :=
  if hasFlag a.flags MAP_ANON then fo = none else argfd (s.proc p) a.fd = fo ∧ fo.isSome

/-- Its count is at least `1`, as `filedup` wants it. -/
def Fs.Live (fs : Fs) (fo : Option (Fin NFILE)) : Prop := ∀ f, fo = some f → 1 ≤ (fs.file f).ref

theorem Fs.dup_zero (fs : Fs) (fo : Option (Fin NFILE)) : fs.dup fo 0 = fs := by
  simp [Fs.dup]

theorem Fs.dup_dup (fs : Fs) (fo : Option (Fin NFILE)) (m n : Nat) :
    (fs.dup fo m).dup fo n = fs.dup fo (m + n) := by
  simp only [Fs.dup, Fs.mk.injEq, and_true]
  funext f
  split <;> simp [Nat.add_assoc]

theorem updFile_eq_dup (s : State) (f : Fin NFILE) :
    s.updFile f (fun x => { x with ref := x.ref + 1 }) = { s with fs := s.fs.dup (some f) 1 } := by
  simp only [State.updFile, Fs.dup, Option.some.injEq]
  congr 2
  funext f'
  by_cases hf : f' = f
  · subst hf
    simp
  · simp [hf, Ne.symm hf]

/-- The state after slot `j` got the page at `va`. -/
def State.give (s : State) (p : Fin NPROC) (a : MmapArgs) (fo : Option (Fin NFILE)) (last : Nat)
    (j : Index) (va : Word) : State :=
  { s.updDesc p j (fun md => md.mapped a fo va (j.val == last && hasFlag a.flags MAP_GROWSUP)) with
    fs := s.fs.dup fo 1 }

variable {fo : Option (Fin NFILE)} {last : Nat} {va : Word}

theorem give_of_ne {j' : Index}
    (h : j' ≠ j) : ((s.give p a fo last j va).proc p).mmaps j' = (s.proc p).mmaps j' := by
  simp [State.give, State.updDesc, h]

variable {js : List Index}

theorem Placed.cons (hj : j ∉ js) (h : Placed p a fo last js (va + PGSIZE) (s.give p a fo last j va) t) :
    Placed p a fo last (j :: js) va s t := by
  obtain ⟨hmade, hother, hrest⟩ := h
  refine ⟨fun k hk => ?_, fun j' hj' => ?_, ?_⟩
  · cases k with
    | zero =>
      rw [List.getElem_cons_zero, hother j hj]
      simp [State.give, State.updDesc]
    | succ k =>
      have hk : k < js.length := by simpa using hk
      have hne : js[k] ≠ j := fun h => hj (h ▸ List.getElem_mem hk)
      rw [List.getElem_cons_succ, hmade k hk, add_page_mul, give_of_ne hne]
  · rw [List.mem_cons, not_or] at hj'
    rw [hother j' hj'.2, give_of_ne hj'.1]
  · rw [hrest]
    simp [State.give, State.updDesc, State.updProc, Proc.updDesc, Fs.dup_dup, Nat.add_comm]

variable {f : Fin NFILE}

theorem filedup_live (hlive : s.fs.Live (some f)) :
    filedup f s = .ok () { s with fs := s.fs.dup (some f) 1 } := by
  rw [filedup, bind_ok (get_run s), if_neg (not_lt.mpr (hlive f rfl)), modify_run, updFile_eq_dup]

/-- With a file that is open, or none asked for, the loop gives the first slot its page and goes on. -/
theorem mmapFill_cons (hfree : ((s.proc p).mmaps j).valid = false)
    (hfo : RequestFile s p a fo) (hlive : s.fs.Live fo) :
    mmapFill p a last (j :: js) va s = mmapFill p a last js (va + PGSIZE) (s.give p a fo last j va) := by
  rw [mmapFill, bind_ok (get_run s), if_neg (by simp [hfree]), bind_ok (modify_run _ s)]
  unfold RequestFile at hfo
  split
  next hanon =>
    rw [if_pos hanon] at hfo
    subst hfo
    rw [bind_ok (modify_run _ _), updDesc_updDesc]
    congr 1
  next hanon =>
    rw [if_neg hanon] at hfo
    obtain ⟨f, rfl⟩ := Option.isSome_iff_exists.mp hfo.2
    have hdup := filedup_live (s := s.updDesc p j fun md =>
      md.claim a (j.val == last && hasFlag a.flags MAP_GROWSUP)) hlive
    rw [hfo.1]
    dsimp only
    rw [bind_ok hdup, bind_ok (modify_run _ _)]
    congr 1
    simp only [State.give, State.updDesc, State.updProc, Proc.updDesc, Function.update_self,
      Function.update_idem]
    rfl

theorem RequestFile.give (h : RequestFile s p a fo) : RequestFile (s.give p a fo last j va) p a fo := by
  simpa [State.give, RequestFile, State.updDesc, Proc.updDesc, argfd] using h

theorem Fs.Live.dup {fs : Fs} (h : fs.Live fo) : (fs.dup fo 1).Live fo := by
  intro f hf
  have := h f hf
  simp only [Fs.dup, if_pos hf]
  omega

theorem mmapFill_placed (hjs : js.Nodup) (hfree : ∀ j ∈ js, ((s.proc p).mmaps j).valid = false)
    (hfo : RequestFile s p a fo) (hlive : s.fs.Live fo) :
    ∃ t, mmapFill p a last js va s = .ok (some (va + PGSIZE * .ofNat 32 js.length)) t ∧
      Placed p a fo last js va s t := by
  induction js generalizing s va with
  | nil =>
    refine ⟨s, by simp [mmapFill, pure_run], nofun, fun _ _ => rfl, ?_⟩
    simp [State.updProc, Fs.dup_zero]
  | cons j js ih =>
    obtain ⟨hj, hjs⟩ := List.nodup_cons.mp hjs
    have hfree' : ∀ j' ∈ js, (((s.give p a fo last j va).proc p).mmaps j').valid = false := by
      intro j' hj'
      rw [give_of_ne (ne_of_mem_of_not_mem hj' hj)]
      exact hfree j' (List.mem_cons_of_mem j hj')
    obtain ⟨t, hrun, ht⟩ := @ih (s.give p a fo last j va) (va + PGSIZE) hjs hfree' hfo.give hlive.dup
    refine ⟨t, ?_, ht.cons hj⟩
    rw [mmapFill_cons (hfree j List.mem_cons_self) hfo hlive, hrun, add_page_mul, List.length_cons]

section
variable (hfree : ((s.proc p).mmaps j).valid = false) (hanon : hasFlag a.flags MAP_ANON = false)
include hfree hanon

theorem mmapFill_badFile (hfd : argfd (s.proc p) a.fd = none) :
    mmapFill p a last (j :: js) va s = .ok none (s.updDesc p j fun md =>
      md.claim a (j.val == last && hasFlag a.flags MAP_GROWSUP)) := by
  rw [mmapFill, bind_ok (get_run s), if_neg (by simp [hfree]), bind_ok (modify_run _ s),
    if_neg (by simp [hanon]), hfd]
  rfl

theorem mmapFill_deadFile (hfd : argfd (s.proc p) a.fd = some f) (hdead : (s.fs.file f).ref = 0) :
    ∃ t, mmapFill p a last (j :: js) va s = .error (.panic "filedup") t := by
  have hpanic : ∀ u : State, u.fs = s.fs → filedup f u = .error (.panic "filedup") u := by
    intro u hu
    rw [filedup, bind_ok (get_run u), hu, if_pos (by omega)]
    rfl
  rw [mmapFill, bind_ok (get_run s), if_neg (by simp [hfree]), bind_ok (modify_run _ s),
    if_neg (by simp [hanon]), hfd]
  exact ⟨_, bind_of_error (hpanic _ rfl)⟩

end

/-! ## How a call ends -/

/-- The call is turned down before it touches the table. -/
def Refused (s : State) (p : Fin NPROC) : Option MmapArgs → Bool
  | none => true
  | some a => a.length.slt 0 || a.offset.slt 0 ||
    match pageCount a with
    | none => false
    | some n =>
      (!hasFlag a.flags MAP_PRIVATE && !hasFlag a.flags MAP_SHARED) ||
        (hasFlag a.flags MAP_FIXED && !fixedOk (s.proc p).mmaps a n) ||
        (findRun (s.proc p).mmaps n (List.finRange PAGE_LIMIT) 0).isNone

/-- The call passes all checks, and the search finds the `n` slots from `i` on. -/
structure Accepted (s : State) (p : Fin NPROC) (a : MmapArgs) (n i : Nat) : Prop where
  size : (a.length.slt 0 || a.offset.slt 0) = false
  count : pageCount a = some n
  sharing : (!hasFlag a.flags MAP_PRIVATE && !hasFlag a.flags MAP_SHARED) = false
  fixed : (hasFlag a.flags MAP_FIXED && !fixedOk (s.proc p).mmaps a n) = false
  run : findRun (s.proc p).mmaps n (List.finRange PAGE_LIMIT) 0 = some i

section
variable (h : Accepted s p a n i)
include h

theorem Accepted.not_refused : Refused s p (some a) = false := by
  simp only [Refused, h.size, h.count, h.sharing, h.fixed, h.run, Option.isNone_some, Bool.or_false]

theorem Accepted.pos : 0 < n := (isLeast_findRun h.run).1

theorem Accepted.freeRun : FreeRun (s.proc p).mmaps n i :=
  (isLeast_findRun h.run).2.1

/-- The first slot that is filled. -/
def Accepted.slot (h : Accepted s p a n i) : Index :=
  ⟨i, by have := h.freeRun.1; have := h.pos; omega⟩

theorem Accepted.slot_free : ((s.proc p).mmaps h.slot).valid = false :=
  h.freeRun.2 h.slot le_rfl (Nat.lt_add_of_pos_right h.pos)

theorem Accepted.slots_eq : ∃ js, slots i n = h.slot :: js := by
  have hlen : 0 < (slots i n).length := by
    rw [length_slots h.freeRun.1]
    exact h.pos
  obtain ⟨_, hfirst⟩ := getElem_slots hlen h.freeRun.1
  cases hs : slots i n with
  | nil => simp [hs] at hlen
  | cons j js =>
    simp only [hs, List.getElem_cons_zero] at hfirst
    exact ⟨js, congrArg (· :: js) hfirst⟩

/-- Where the pages of a request begin. -/
def MmapArgs.start (a : MmapArgs) (s : State) : Word :=
  if hasFlag a.flags MAP_FIXED then a.addr else s.vaPtr

/-- `VA_PTR` moves behind the pages that did not ask for an address. -/
def State.bump (t : State) (a : MmapArgs) (n : Nat) : State :=
  if hasFlag a.flags MAP_FIXED then t
  else { t with vaPtr := a.start t + PGSIZE * .ofNat 32 n }

/-- Every way in which a call of `sys_mmap` ends. -/
inductive MmapOutcome (p : Fin NPROC) (s : State) : Option MmapArgs → EStateM.Result Stop State Word → Prop
  | refused {args : Option MmapArgs} (h : Refused s p args) : MmapOutcome p s args (.ok RETURN_ERR s)
  | endless {a : MmapArgs} (h : pageCount a = none) : MmapOutcome p s (some a) (.error .loop s)
  /-- The descriptor is not open, and that is seen in the middle of the first slot. -/
  | badFile {a : MmapArgs} {n i : Nat} (h : Accepted s p a n i)
    (hanon : hasFlag a.flags MAP_ANON = false) (hfd : argfd (s.proc p) a.fd = none) :
    MmapOutcome p s (some a) (.ok RETURN_ERR (s.updDesc p h.slot fun md =>
      md.claim a (h.slot.val == i + n - 1 && hasFlag a.flags MAP_GROWSUP)))
  | deadFile {a : MmapArgs} {n i : Nat} {f : Fin NFILE} {t : State} (h : Accepted s p a n i)
    (hanon : hasFlag a.flags MAP_ANON = false) (hfd : argfd (s.proc p) a.fd = some f)
    (hdead : (s.fs.file f).ref = 0) : MmapOutcome p s (some a) (.error (.panic "filedup") t)
  | mapped {a : MmapArgs} {n i : Nat} {fo : Option (Fin NFILE)} {t : State} (h : Accepted s p a n i)
    (hfo : RequestFile s p a fo) (hlive : s.fs.Live fo)
    (ht : Placed p a fo (i + n - 1) (slots i n) (a.start s) s t) :
    MmapOutcome p s (some a) (.ok (a.start s) (t.bump a n))

theorem sysMmap_accepted : sysMmap p (some a) s = (do
    match ← mmapFill p a (i + n - 1) (slots i n) (a.start s) with
    | none => pure RETURN_ERR
    | some va =>
      if hasFlag a.flags MAP_FIXED then pure (a.start s)
      else do
        modify fun s => { s with vaPtr := va }
        pure (a.start s) : K Word) s := by
  simp only [sysMmap, h.size, h.count, h.sharing, Bool.false_eq_true, if_false]
  rw [bind_ok (get_run s)]
  simp only [h.fixed, Bool.false_eq_true, if_false, h.run]
  rfl

theorem mmapOutcome_accepted : MmapOutcome p s (some a) (sysMmap p (some a) s) := by
  rw [sysMmap_accepted h]
  -- a file that is there, or none asked for, is enough for the loop to come to its end
  have hmapped : ∀ fo, RequestFile s p a fo → s.fs.Live fo → MmapOutcome p s (some a) ((do
      match ← mmapFill p a (i + n - 1) (slots i n) (a.start s) with
      | none => pure RETURN_ERR
      | some va =>
        if hasFlag a.flags MAP_FIXED then pure (a.start s)
        else do
          modify fun s => { s with vaPtr := va }
          pure (a.start s) : K Word) s) := by
    intro fo hfo hlive
    have hfree : ∀ j ∈ slots i n, ((s.proc p).mmaps j).valid = false := fun j hj =>
      h.freeRun.2 j ((mem_slots h.freeRun.1).mp hj).1 ((mem_slots h.freeRun.1).mp hj).2
    obtain ⟨t, hrun, ht⟩ :=
      @mmapFill_placed p s a fo (i + n - 1) (a.start s) (slots i n) nodup_slots hfree hfo hlive
    have hva : t.vaPtr = s.vaPtr := by
      rw [ht.rest]
      rfl
    have hend := MmapOutcome.mapped h hfo hlive ht
    rw [length_slots h.freeRun.1] at hrun
    rw [bind_ok hrun]
    simp only [State.bump, MmapArgs.start, hva] at hend ⊢
    split
    next hfix =>
      simp only [hfix, if_true] at hend
      exact hend
    next hfix =>
      simp only [hfix, Bool.false_eq_true, if_false] at hend
      exact hend
  obtain ⟨js, hjs⟩ := h.slots_eq
  cases hanon : hasFlag a.flags MAP_ANON with
  | true => exact hmapped none (by simp [RequestFile, hanon]) nofun
  | false =>
    cases hfd : argfd (s.proc p) a.fd with
    | none =>
      rw [hjs, bind_ok (mmapFill_badFile h.slot_free hanon hfd)]
      exact .badFile h hanon hfd
    | some f =>
      by_cases hdead : (s.fs.file f).ref = 0
      · obtain ⟨t, ht⟩ :=
          @mmapFill_deadFile p s a h.slot (i + n - 1) (a.start s) js f h.slot_free hanon hfd hdead
        rw [hjs, bind_of_error ht]
        exact .deadFile h hanon hfd hdead
      · refine hmapped (some f) (by simp [RequestFile, hanon, hfd]) ?_
        rintro _ ⟨⟩
        omega

end

theorem mmapOutcome (p : Fin NPROC) (args : Option MmapArgs) (s : State) :
    MmapOutcome p s args (sysMmap p args s) := by
  cases args with
  | none => exact .refused rfl
  | some a =>
    have hturn : Refused s p (some a) → sysMmap p (some a) s = .ok RETURN_ERR s →
        MmapOutcome p s (some a) (sysMmap p (some a) s) := fun h hrun => hrun ▸ .refused h
    cases hsize : a.length.slt 0 || a.offset.slt 0 with
    | true =>
      refine hturn (by simp only [Refused, hsize, Bool.true_or]) ?_
      simp only [sysMmap, hsize, if_true]
      rfl
    | false =>
      cases hcount : pageCount a with
      | none =>
        have hrun : sysMmap p (some a) s = .error .loop s := by
          simp only [sysMmap, hsize, hcount, Bool.false_eq_true, if_false]
          rfl
        rw [hrun]
        exact .endless hcount
      | some n =>
        cases hsharing : !hasFlag a.flags MAP_PRIVATE && !hasFlag a.flags MAP_SHARED with
        | true =>
          refine hturn (by simp only [Refused, hcount, hsharing, Bool.true_or, Bool.or_true]) ?_
          simp only [sysMmap, hsize, hcount, hsharing, Bool.false_eq_true, if_false, if_true]
          rfl
        | false =>
          cases hfixed : hasFlag a.flags MAP_FIXED && !fixedOk (s.proc p).mmaps a n with
          | true =>
            refine hturn (by simp only [Refused, hcount, hfixed, Bool.true_or, Bool.or_true]) ?_
            simp only [sysMmap, hsize, hcount, hsharing, Bool.false_eq_true, if_false]
            rw [bind_ok (get_run s), if_pos hfixed]
            rfl
          | false =>
            cases hrun : findRun (s.proc p).mmaps n (List.finRange PAGE_LIMIT) 0 with
            | none =>
              refine hturn (by simp only [Refused, hcount, hrun, Option.isNone_none, Bool.or_true]) ?_
              simp only [sysMmap, hsize, hcount, hsharing, Bool.false_eq_true, if_false]
              rw [bind_ok (get_run s)]
              simp only [hfixed, hrun, Bool.false_eq_true, if_false]
              rfl
            | some i => exact mmapOutcome_accepted ⟨hsize, hcount, hsharing, hfixed, hrun⟩

/-! ## A call that succeeds -/

/-- A mapping of `n` pages from `r` on was put into the slots of `p` from `i` on, which are the first `n`
free ones in a row. -/
structure FirstFit (p : Fin NPROC) (a : MmapArgs) (s t : State) (r : Word) (n i : Nat) : Prop where
  first : IsLeast { i | FreeRun (s.proc p).mmaps n i } i
  start : r = if hasFlag a.flags MAP_FIXED then a.addr else s.vaPtr
  valid : ∀ j : Index, i ≤ j.val → j.val < i + n → ((t.proc p).mmaps j).valid
  address : ∀ j : Index, i ≤ j.val → j.val < i + n →
    ((t.proc p).mmaps j).virtualAddress = r + PGSIZE * .ofNat 32 (j.val - i)
  request : ∀ j : Index, i ≤ j.val → j.val < i + n →
    ((t.proc p).mmaps j).flags = a.flags ∧ ((t.proc p).mmaps j).prot = a.prot ∧
      ((t.proc p).mmaps j).length = a.length
  guard : ∀ j : Index, i ≤ j.val → j.val < i + n →
    (((t.proc p).mmaps j).guardPage ↔ j.val = i + n - 1 ∧ hasFlag a.flags MAP_GROWSUP)
  /-- Every slot holds one new reference to the file. -/
  file : ∃ fo, (if hasFlag a.flags MAP_ANON then fo = none
      else argfd (s.proc p) a.fd = fo ∧ fo.isSome) ∧
    (∀ j : Index, i ≤ j.val → j.val < i + n → ((t.proc p).mmaps j).f = fo) ∧ ∀ f, t.fs.file f =
      if fo = some f then { s.fs.file f with ref := (s.fs.file f).ref + n } else s.fs.file f
  others : ∀ j : Index, ¬ (i ≤ j.val ∧ j.val < i + n) → (t.proc p).mmaps j = (s.proc p).mmaps j
  procs : ∀ q, q ≠ p → t.proc q = s.proc q
  vaPtr : t.vaPtr =
    if hasFlag a.flags MAP_FIXED then s.vaPtr else s.vaPtr + PGSIZE * .ofNat 32 n

theorem bump_proc (t : State) (a : MmapArgs) (n : Nat) : (t.bump a n).proc = t.proc := by
  unfold State.bump
  split <;> rfl

theorem bump_fs (t : State) (a : MmapArgs) (n : Nat) : (t.bump a n).fs = t.fs := by
  unfold State.bump
  split <;> rfl

theorem Placed.vaPtr (h : Placed p a fo last js va s t) : t.vaPtr = s.vaPtr := by
  rw [h.rest]
  rfl

theorem Placed.slot (h : Placed p a fo last (slots i n) va s t) (hle : i + n ≤ PAGE_LIMIT)
    (h1 : i ≤ j.val) (h2 : j.val < i + n) : (t.proc p).mmaps j = ((s.proc p).mmaps j).mapped a fo
      (va + PGSIZE * .ofNat 32 (j.val - i)) (j.val == last && hasFlag a.flags MAP_GROWSUP) := by
  have hk : j.val - i < (slots i n).length := by
    rw [length_slots hle]
    omega
  obtain ⟨hlt, hj⟩ := getElem_slots hk hle
  have hj : (slots i n)[j.val - i] = j := by
    rw [hj]
    exact Fin.ext (by dsimp only; omega)
  have := h.made (j.val - i) hk
  rwa [hj] at this

theorem Placed.firstFit (h : Accepted s p a n i)
    (hfo : RequestFile s p a fo) (ht : Placed p a fo (i + n - 1) (slots i n) (a.start s) s t) :
    FirstFit p a s (t.bump a n) (a.start s) n i := by
  have hle := h.freeRun.1
  have hslot : ∀ j : Index, i ≤ j.val → j.val < i + n →
      (((t.bump a n).proc p).mmaps j) = ((s.proc p).mmaps j).mapped a fo
        (a.start s + PGSIZE * .ofNat 32 (j.val - i))
        (j.val == i + n - 1 && hasFlag a.flags MAP_GROWSUP) := by
    intro j h1 h2
    rw [bump_proc, ht.slot hle h1 h2]
  refine
    { first := (isLeast_findRun h.run).2
      start := rfl
      valid := fun j h1 h2 => by rw [hslot j h1 h2]; rfl
      address := fun j h1 h2 => by rw [hslot j h1 h2]; rfl
      request := fun j h1 h2 => by rw [hslot j h1 h2]; exact ⟨rfl, rfl, rfl⟩
      guard := fun j h1 h2 => by rw [hslot j h1 h2]; simp [MmapDesc.mapped, MmapDesc.claim]
      file := ⟨fo, hfo, fun j h1 h2 => by rw [hslot j h1 h2]; rfl, fun f => ?_⟩
      others := fun j hj => ?_
      procs := fun q hq => ?_
      vaPtr := ?_ }
  · rw [bump_fs, ht.rest, length_slots hle]
    rfl
  · rw [bump_proc]
    exact ht.other j fun hmem => hj ((mem_slots hle).mp hmem)
  · rw [bump_proc, ht.rest]
    simp [hq]
  · unfold State.bump
    split
    · exact ht.vaPtr
    next hfix => simp [MmapArgs.start, hfix, ht.vaPtr]

/-- A call that succeeds fills the first run of free slots that is long enough and leaves the others alone;
without such a run it fails. -/
theorem mmap_firstFit (s : State) (p : Fin NPROC) (a : MmapArgs) (hpos : 0 < a.length.toInt)
    (hle : a.length.toInt ≤ 0x7FFFF000) :
    let n := ceilPages a.length.toInt + if hasFlag a.flags MAP_GROWSUP then 1 else 0
    (∀ r t, sysMmap p (some a) s = .ok r t → r ≠ RETURN_ERR → ∃ i, FirstFit p a s t r n i) ∧
    ((∀ i, ¬ FreeRun (s.proc p).mmaps n i) → ∃ t, sysMmap p (some a) s = .ok RETURN_ERR t) := by
  intro n
  have hcount : pageCount a = some n := pageCount_eq (le_of_lt hpos) hle
  have hout := mmapOutcome p (some a) s
  constructor
  · intro r t hrun hr
    rw [hrun] at hout
    generalize hres : (EStateM.Result.ok r t : EStateM.Result Stop State Word) = res at hout
    cases hout with
    | refused h => cases hres; exact absurd rfl hr
    | endless h => cases hres
    | badFile h hanon hfd => cases hres; exact absurd rfl hr
    | deadFile h hanon hfd hdead => cases hres
    | @mapped _ n' i fo t' h hfo hlive ht =>
      cases hres
      obtain rfl : n = n' := Option.some.inj (hcount.symm.trans h.count)
      exact ⟨i, ht.firstFit h hfo⟩
  · intro hnone
    generalize hres : sysMmap p (some a) s = res at hout
    -- every other outcome has a run of free slots
    have hno : ∀ {n' i}, ¬ Accepted s p a n' i := by
      intro n' i h
      obtain rfl : n = n' := Option.some.inj (hcount.symm.trans h.count)
      exact hnone i h.freeRun
    cases hout with
    | refused h => exact ⟨s, rfl⟩
    | endless h => rw [hcount] at h; cases h
    | badFile h hanon hfd => exact absurd h hno
    | deadFile h hanon hfd hdead => exact absurd h hno
    | mapped h hfo hlive ht => exact absurd h hno

/-- Slots `0` and `2` are taken, so two pages go into the slots after them. -/
def bootHoles : State := boot.updProc 1 fun q => { q with mmaps i := { valid := i == 0 || i == 2 } }

theorem mmap_firstFit_boot : ∃ t, sysMmap 1 (some { bootAnon with length := 8192 }) bootHoles =
    .ok VIRT_ADDR_START t ∧ ((t.proc 1).mmaps 1).valid = false ∧ ((t.proc 1).mmaps 3).valid = true ∧
      ∃ i, FirstFit 1 { bootAnon with length := 8192 } bootHoles t VIRT_ADDR_START 2 i :=
  ⟨_, rfl, rfl, rfl, (mmap_firstFit bootHoles 1 _ (by decide) (by decide)).1 _ _ rfl (by decide)⟩

/-! ## A call that fails -/

/-- A call that returns `-1` leaves the table, `VA_PTR` and the counts of the files as they were. -/
def FailsClean (s : State) (p : Fin NPROC) (args : Option MmapArgs) : Prop :=
  ∀ t, sysMmap p args s = .ok RETURN_ERR t → (t.proc p).mmaps = (s.proc p).mmaps ∧ t.vaPtr = s.vaPtr ∧
      ∀ f, (t.fs.file f).ref = (s.fs.file f).ref

/-- The file that a request names is open, and the address that it gets is not `-1`, which would look
like a failure. -/
def SafeToFill (s : State) (p : Fin NPROC) (a : MmapArgs) : Prop :=
  if hasFlag a.flags MAP_ANON then hasFlag a.flags MAP_FIXED ∨ s.vaPtr ≠ RETURN_ERR
  else ∃ f, argfd (s.proc p) a.fd = some f ∧
    (hasFlag a.flags MAP_FIXED ∨ s.vaPtr ≠ RETURN_ERR ∨ (s.fs.file f).ref = 0)

theorem Accepted.start_ne (h : Accepted s p a n i) (hfix : hasFlag a.flags MAP_FIXED) :
    a.start s ≠ RETURN_ERR := by
  have hok : fixedOk (s.proc p).mmaps a n := by simpa [hfix] using h.fixed
  intro hstart
  rw [MmapArgs.start, if_pos hfix] at hstart
  rw [fixedOk, hstart] at hok
  simp [show RETURN_ERR.slt VIRT_ADDR_START = true by decide] at hok

theorem Accepted.start_ne_iff (h : Accepted s p a n i) :
    a.start s ≠ RETURN_ERR ↔ hasFlag a.flags MAP_FIXED ∨ s.vaPtr ≠ RETURN_ERR := by
  by_cases hfix : hasFlag a.flags MAP_FIXED
  · exact iff_of_true (h.start_ne hfix) (.inl hfix)
  · simp [MmapArgs.start, hfix]

/-- A result whose table has a valid descriptor in the first slot is not a clean failure. -/
theorem not_failsClean (h : Accepted s p a n i) (hrun : sysMmap p (some a) s = .ok RETURN_ERR t)
    (hvalid : ((t.proc p).mmaps h.slot).valid) : ¬ FailsClean s p (some a) := by
  intro hclean
  rw [(hclean t hrun).1, h.slot_free] at hvalid
  cases hvalid

/-- Which calls cannot fail half-way. -/
theorem mmap_failsClean (s : State) (p : Fin NPROC) (args : Option MmapArgs) :
    FailsClean s p args ↔ Refused s p args ∨ ∀ a, args = some a → pageCount a = none ∨ SafeToFill s p a := by
  have hout := mmapOutcome p args s
  generalize hrun : sysMmap p args s = res at hout
  have hvacuous : (∀ t, res ≠ .ok RETURN_ERR t) → FailsClean s p args := by
    intro hne t ht
    exact absurd (hrun.symm.trans ht) (hne t)
  cases hout with
  | refused h =>
    refine iff_of_true (fun t ht => ?_) (.inl h)
    cases hrun.symm.trans ht
    exact ⟨rfl, rfl, fun _ => rfl⟩
  | endless h =>
    refine iff_of_true (hvacuous (by rintro t ⟨⟩)) (.inr ?_)
    rintro _ ⟨⟩
    exact .inl h
  | @badFile a n i h hanon hfd =>
    refine iff_of_false (not_failsClean h hrun ?_) ?_
    · simp [State.updDesc, MmapDesc.claim]
    · rw [h.not_refused]
      rintro (h' | h')
      · cases h'
      · have := h' a rfl
        simp [h.count, SafeToFill, hanon, hfd] at this
  | @deadFile a n i f t h hanon hfd hdead =>
    refine iff_of_true (hvacuous (by rintro t ⟨⟩)) (.inr ?_)
    rintro _ ⟨⟩
    exact .inr (by simp [SafeToFill, hanon, hfd, hdead])
  | @mapped a n i fo t h hfo hlive ht =>
    have hsafe : SafeToFill s p a ↔ a.start s ≠ RETURN_ERR := by
      rw [h.start_ne_iff]
      unfold SafeToFill
      unfold RequestFile at hfo
      split
      next => rfl
      next hanon =>
        rw [if_neg hanon] at hfo
        obtain ⟨f, rfl⟩ := Option.isSome_iff_exists.mp hfo.2
        have href : (s.fs.file f).ref ≠ 0 := Nat.one_le_iff_ne_zero.mp (hlive f rfl)
        simp [hfo.1, href]
    have hclean : FailsClean s p (some a) ↔ a.start s ≠ RETURN_ERR := by
      constructor
      · intro hclean hstart
        rw [hstart] at hrun
        refine not_failsClean h hrun ?_ hclean
        exact (ht.firstFit h hfo).valid h.slot le_rfl (Nat.lt_add_of_pos_right h.pos)
      · intro hne
        refine hvacuous fun t' ht' => hne ?_
        injection ht'
    rw [hclean, ← hsafe, h.not_refused]
    simp [h.count]

/-- A request for a page of a file that is not open. -/
def bootBadFile : MmapArgs := { bootAnon with flags := MAP_PRIVATE }

/-- The failed call has made the first descriptor valid. -/
theorem mmap_failsClean_badFile :
    (∃ t, sysMmap 1 (some bootBadFile) boot = .ok RETURN_ERR t ∧ ((t.proc 1).mmaps 0).valid ∧
      ((boot.proc 1).mmaps 0).valid = false) ∧ ¬ FailsClean boot 1 (some bootBadFile) := by
  have hrun : sysMmap 1 (some bootBadFile) boot =
      .ok RETURN_ERR (boot.updDesc 1 0 fun md => md.claim bootBadFile false) := rfl
  refine ⟨⟨_, hrun, by decide, by decide⟩, fun hclean => ?_⟩
  have hsame := congrArg (fun m => (m 0).valid) (hclean _ hrun).1
  exact absurd hsame (by decide)

end Xv6
