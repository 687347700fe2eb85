import Xv6.ExecOutcome

/-!
# The arguments of a new program

A program finds its arguments through its stack pointer: a return address, `argc`, and a pointer to an array
of pointers to strings. `Passed` is the decoder's view of the stack.
-/

namespace Xv6.Exec

open BitVec (getLsbD_eq_getElem toNat_ofNat toNat_add ofNat)

variable {img : Word → Byte} {κ : KernelHalf} {d : PgDir} {n : Nat} {sp sz a va : Word}

/-- The four bytes at `a`. -/
def wordAt (f : Word → Byte) (a : Word) : Word := f (a + 3) ++ f (a + 2) ++ f (a + 1) ++ f a

theorem word_of_bytes (w : Word) :
    w.extractLsb' 24 8 ++ w.extractLsb' 16 8 ++ w.extractLsb' 8 8 ++ w.extractLsb' 0 8 = w := by
  ext i hi
  simp only [BitVec.getElem_append, BitVec.getElem_extractLsb']
  split
  · simp [getLsbD_eq_getElem hi]
  · split
    · rw [getLsbD_eq_getElem (by omega)]
      congr 1
      omega
    · split
      · rw [getLsbD_eq_getElem (by omega)]
        congr 1
        omega
      · rw [getLsbD_eq_getElem (by omega)]
        congr 1
        omega

theorem getElem?_flatMap_wordBytes (l : List Word) {i j : Nat} (hj : j < 4) :
    (l.flatMap wordBytes)[4 * i + j]? = l[i]?.bind fun w => (wordBytes w)[j]? := by
  induction l generalizing i with
  | nil => rfl
  | cons w l ih =>
    have hlen : (wordBytes w).length = 4 := rfl
    rw [List.flatMap_cons]
    cases i with
    | zero =>
      rw [List.getElem?_append_left (by omega)]
      simp
    | succ i =>
      rw [List.getElem?_append_right (by omega), hlen, show 4 * (i + 1) + j - 4 = 4 * i + j by omega, ih]
      simp

theorem wordAt_overlay {l : List Word} (hl : 4 * l.length ≤ 2 ^ 32) {i : Nat} (hi : i < l.length) :
    wordAt (overlay img va (l.flatMap wordBytes)) (va + .ofNat 32 (4 * i)) = l[i] := by
  have hbyte : ∀ j, j < 4 → overlay img va (l.flatMap wordBytes)
      (va + .ofNat 32 (4 * i) + .ofNat 32 j) = (wordBytes l[i]).getD j 0 := by
    intro j hj
    have hoff : (va + .ofNat 32 (4 * i) + .ofNat 32 j - va).toNat = 4 * i + j := by
      rw [add_ofNat_add, add_sub_cancel_left, toNat_ofNat]
      omega
    have hlen : j < (wordBytes l[i]).length := hj
    rw [overlay, hoff, List.getD_eq_getElem?_getD, getElem?_flatMap_wordBytes l hj,
      List.getElem?_eq_getElem hi, Option.bind_some, List.getElem?_eq_getElem hlen,
      List.getD_eq_getElem?_getD, List.getElem?_eq_getElem hlen]
    rfl
  have h0 := hbyte 0 (by decide)
  rw [BitVec.add_zero] at h0
  unfold wordAt
  rw [h0]
  exact (congrArg₂ _ (congrArg₂ _ (congrArg₂ _ (hbyte 3 (by decide)) (hbyte 2 (by decide)))
    (hbyte 1 (by decide))) rfl).trans (word_of_bytes l[i])

/-! ## Strings on the stack -/

/-- Where the string number `i` goes. -/
def pointer (sp : Word) (argv : Argv) (i : Nat) : Word := (pointers sp argv).getD i 0

@[simp] theorem pointer_cons_zero (arg : Bytes) (argv : Argv) :
    pointer sp (arg :: argv) 0 = below sp (arg.length + 1) := rfl

@[simp] theorem pointer_cons_succ (arg : Bytes) (argv : Argv) (i : Nat) :
    pointer sp (arg :: argv) (i + 1) = pointer (below sp (arg.length + 1)) argv i := rfl

/-- The addresses of a string. -/
def InString (q : Word) (arg : Bytes) (a : Word) : Prop :=
  q.toNat ≤ a.toNat ∧ a.toNat < q.toNat + arg.length + 1

theorem overlay_of_not_inString {q : Word} {arg : Bytes} (hq : q.toNat + arg.length + 1 ≤ 2 ^ 32)
    (ha : ¬ InString q arg a) : overlay img q (arg ++ [0]) a = img a := by
  have halt := a.isLt
  refine overlay_of_le ?_
  rw [List.length_append, BitVec.toNat_sub, List.length_singleton]
  unfold InString at ha
  omega

section Strings
variable (argv : Argv) (hd : Stacked κ d n) (hsp : sp.toNat % 4 = 0)
  (hlo : 4096 * (n - 1) ≤ sp.toNat) (hroom : 4096 * (n - 1) + used argv ≤ sp.toNat)

theorem length_lt_room (arg : Bytes) : arg.length + 1 ≤ room arg := by
  unfold room
  omega

include hd hsp hlo hroom

theorem pointer_bounds {i : Nat} (hi : i < argv.length) :
    (pointer sp argv i).toNat % 4 = 0 ∧ sp.toNat - used argv ≤ (pointer sp argv i).toNat ∧
      (pointer sp argv i).toNat + argv[i].length + 1 ≤ sp.toNat := by
  induction argv generalizing sp i with
  | nil => exact absurd hi (Nat.not_lt_zero _)
  | cons arg argv ih =>
    rw [used_cons] at hroom ⊢
    obtain ⟨hbelow, hsp'⟩ := toNat_below hd hsp hlo arg (by omega)
    have hlen := length_lt_room arg
    cases i with
    | zero =>
      rw [pointer_cons_zero, hbelow, List.getElem_cons_zero]
      omega
    | succ i =>
      have hsp' : (below sp (arg.length + 1)).toNat % 4 = 0 := by omega
      have htail := ih hsp' (by omega) (by omega) (by simpa using hi)
      rw [pointer_cons_succ, List.getElem_cons_succ]
      omega

theorem pointer_ordered {i j : Nat} (hij : i < j) (hj : j < argv.length) :
    (pointer sp argv j).toNat + argv[j].length + 1 ≤ (pointer sp argv i).toNat := by
  induction argv generalizing sp i j with
  | nil => exact absurd hj (Nat.not_lt_zero _)
  | cons arg argv ih =>
    rw [used_cons] at hroom
    obtain ⟨hbelow, hsp'⟩ := toNat_below hd hsp hlo arg (by omega)
    cases j with
    | zero => omega
    | succ j =>
      rw [pointer_cons_succ, List.getElem_cons_succ]
      cases i with
      | zero => exact (pointer_bounds argv hd hsp' (by omega) (by omega) (by simpa using hj)).2.2
      | succ i => exact ih hsp' (by omega) (by omega) (by omega) (by simpa using hj)

theorem pushed_rest (ha : ∀ i, ∀ hi : i < argv.length, ¬ InString (pointer sp argv i) argv[i] a) :
    pushed img sp argv a = img a := by
  induction argv generalizing sp img with
  | nil => rfl
  | cons arg argv ih =>
    have hlen := length_lt_room arg
    rw [used_cons] at hroom
    obtain ⟨hbelow, hsp'⟩ := toNat_below hd hsp hlo arg (by omega)
    rw [pushed, ih (by omega) (by omega) (by omega) fun i hi => ha (i + 1) (by simpa using hi)]
    exact overlay_of_not_inString (by omega) (ha 0 (Nat.succ_pos _))

theorem pushed_string {i k : Nat} (hi : i < argv.length) (hk : k < argv[i].length + 1) :
    pushed img sp argv (pointer sp argv i + .ofNat 32 k) = (argv[i] ++ [0]).getD k 0 := by
  induction argv generalizing sp img i with
  | nil => exact absurd hi (Nat.not_lt_zero _)
  | cons arg argv ih =>
    have hlen := length_lt_room arg
    rw [used_cons] at hroom
    obtain ⟨hbelow, hsp'⟩ := toNat_below hd hsp hlo arg (by omega)
    cases i with
    | zero =>
      rw [pointer_cons_zero, List.getElem_cons_zero] at *
      have hnat : (below sp (arg.length + 1) + .ofNat 32 k).toNat =
          (below sp (arg.length + 1)).toNat + k := by
        rw [toNat_add, toNat_ofNat]
        omega
      have hoff : (below sp (arg.length + 1) + .ofNat 32 k - below sp (arg.length + 1)).toNat = k := by
        rw [add_sub_cancel_left, toNat_ofNat]
        omega
      rw [pushed, pushed_rest argv hd hsp' (by omega) (by omega) fun i hi => ?_]
      · rw [overlay, hoff, List.getD_eq_getElem?_getD, List.getD_eq_getElem?_getD,
          List.getElem?_eq_getElem (by rw [List.length_append]; exact hk)]
        rfl
      · have := (pointer_bounds argv hd hsp' (by omega) (by omega) hi).2.2
        unfold InString
        omega
    | succ i =>
      rw [pointer_cons_succ, List.getElem_cons_succ] at *
      exact ih hsp' (by omega) (by omega) (by simpa using hi) hk

end Strings

/-! ## What the new program finds -/

/-- The pointer number `i` of the array at `esp + 12`. -/
def argPointer (s : State) (p : Fin NPROC) (esp : Word) (i : Nat) : Word :=
  s.userWord p (esp + 12 + ofNat 32 (4 * i))

/-- The program with the stack pointer `esp` finds the arguments `argv`, in the last page of its memory and
apart from one another; the rest of its memory is `img`. -/
structure Passed (s : State) (p : Fin NPROC) (esp : Word) (argv : Argv) (img : Word → Byte) : Prop where
  aligned : esp.toNat % 4 = 0
  returnAddress : s.userWord p esp = 0xFFFFFFFF
  argc : s.userWord p (esp + 4) = ofNat 32 argv.length
  array : s.userWord p (esp + 8) = esp + 12
  pointers : ∀ i, ∀ hi : i < argv.length, (argPointer s p esp i).toNat % 4 = 0 ∧ ∀ k < argv[i].length + 1,
      s.userByte p (argPointer s p esp i + ofNat 32 k) = (argv[i] ++ [0]).getD k 0
  last : argPointer s p esp argv.length = 0
  /-- The closed page is below the stack page. -/
  closed : (s.proc p).pgdir.access ((s.proc p).sz - 2 * PGSIZE) true false = false
  stackPage : (s.proc p).sz.toNat - 4096 ≤ esp.toNat
  tableBelow : ∀ i < argv.length, esp.toNat + 4 * (argv.length + 4) ≤ (argPointer s p esp i).toNat
  ordered : ∀ i j, ∀ hj : j < argv.length, i < j →
    (argPointer s p esp j).toNat + argv[j].length + 1 ≤ (argPointer s p esp i).toNat
  top : ∀ i, ∀ hi : i < argv.length, (argPointer s p esp i).toNat + argv[i].length + 1 ≤ (s.proc p).sz.toNat
  rest : ∀ a, a.toNat < (s.proc p).sz.toNat →
    ¬ (esp.toNat ≤ a.toNat ∧ a.toNat < esp.toNat + 4 * (argv.length + 4)) →
    (∀ i, ∀ hi : i < argv.length, ¬ InString (argPointer s p esp i) argv[i] a) → s.userByte p a = img a

section Decode
variable {argv : Argv} {r : Ram}

theorem getElem_table {args : List Word} {i : Nat} (hi : i < args.length) :
    (table sp args)[3 + i]? = some args[i] := by
  rw [table, List.append_assoc, List.getElem?_append_right (by simp), List.getElem?_append_left (by simpa)]
  simp [hi]

theorem getElem_table_last {args : List Word} : (table sp args)[3 + args.length]? = some 0 := by
  have hlen : 3 + args.length = ([0xFFFFFFFF, ofNat 32 args.length,
      sp - .ofNat 32 ((args.length + 1) * 4)] ++ args).length := by
    rw [List.length_append]
    rfl
  rw [table, hlen, List.getElem?_append_right (Nat.le_refl _), Nat.sub_self]
  rfl

theorem used_mod_four : used argv % 4 = 0 := by
  induction argv with
  | nil => rfl
  | cons arg argv ih =>
    have hr : room arg % 4 = 0 := Nat.mul_mod_left _ _
    rw [used_cons]
    omega

theorem length_argTable : (table (belowAll sz argv) (pointers sz argv)).length = argv.length + 4 := by
  simp [table, length_pointers]

variable (h : Placed κ img argv n d sz r)
include h

theorem Placed.toNat_esp : (stackPointer sz argv).toNat = 4096 * n - used argv - 4 * (argv.length + 4) := by
  obtain ⟨hmax, hroom⟩ := h.fits
  exact toNat_stackPointer argv h.dir h.size hmax (by omega)

theorem Placed.table_word {i : Nat} {w : Word}
    (hi : (table (belowAll sz argv) (pointers sz argv))[i]? = some w) :
    wordAt (fun a => r.mem (d.translate a)) (stackPointer sz argv + .ofNat 32 (4 * i)) = w := by
  obtain ⟨hmax, hroom⟩ := h.fits
  have htwo := h.dir.two
  have hlow := h.dir.low
  have hesp := h.toNat_esp
  have hlen : (table (belowAll sz argv) (pointers sz argv)).length = argv.length + 4 := length_argTable
  obtain ⟨hlt, hw⟩ := List.getElem?_eq_some_iff.mp hi
  have hsame : ∀ j : Nat, j < 4 → r.mem (d.translate (stackPointer sz argv + .ofNat 32 (4 * i) +
      ofNat 32 j)) =
        stackImage img sz argv (stackPointer sz argv + .ofNat 32 (4 * i) + .ofNat 32 j) := by
    intro j hj
    refine h.content _ ?_
    rw [add_ofNat_add, vpn, toNat_add, toNat_ofNat]
    omega
  have h0 := hsame 0 (by decide)
  rw [BitVec.add_zero] at h0
  have hword : wordAt (fun a => r.mem (d.translate a))
      (stackPointer sz argv + .ofNat 32 (4 * i)) =
        wordAt (stackImage img sz argv) (stackPointer sz argv + .ofNat 32 (4 * i)) := by
    unfold wordAt
    exact congrArg₂ _ (congrArg₂ _ (congrArg₂ _ (hsame 3 (by decide)) (hsame 2 (by decide)))
      (hsame 1 (by decide))) h0
  rw [hword, stackImage, wordAt_overlay (by omega) hlt, hw]

theorem Placed.pointer_word {i : Nat} (hi : i < argv.length) :
    wordAt (fun a => r.mem (d.translate a)) (stackPointer sz argv + 12 + .ofNat 32 (4 * i)) =
      pointer sz argv i := by
  have hptr : i < (pointers sz argv).length := by rwa [length_pointers]
  have hword := h.table_word (getElem_table hptr)
  rw [show 4 * (3 + i) = 12 + 4 * i by omega, ← add_ofNat_add] at hword
  refine hword.trans ?_
  rw [pointer, List.getD_eq_getElem?_getD, List.getElem?_eq_getElem hptr, Option.getD_some]

theorem Placed.above_table (ha : vpn a < n)
    (hout : ¬ ((stackPointer sz argv).toNat ≤ a.toNat ∧
      a.toNat < (stackPointer sz argv).toNat + 4 * (argv.length + 4))) :
    r.mem (d.translate a) = pushed img sz argv a := by
  obtain ⟨hmax, hroom⟩ := h.fits
  have hesp := h.toNat_esp
  have halt := a.isLt
  have hlow := h.dir.low
  have htwo := h.dir.two
  rw [h.content a ha, stackImage, overlay_of_le]
  rw [length_flatMap_wordBytes, length_argTable, BitVec.toNat_sub]
  omega

theorem Placed.passed {s : State} {p : Fin NPROC} (hram : s.ram = r) (hdir : (s.proc p).pgdir = d)
    (hsz : (s.proc p).sz = sz) : Passed s p (stackPointer sz argv) argv img := by
  obtain ⟨hmax, hroom⟩ := h.fits
  have hsize := h.size
  have htwo := h.dir.two
  have hlow := h.dir.low
  have hesp := h.toNat_esp
  have hused : used argv % 4 = 0 := used_mod_four
  have hsp : sz.toNat % 4 = 0 := by omega
  have hfits : 4096 * (n - 1) + used argv ≤ sz.toNat := by omega
  have hbounds := fun (i : Nat) (hi : i < argv.length) => pointer_bounds argv h.dir hsp (by omega) hfits hi
  have hbyte : ∀ a, s.userByte p a = r.mem (d.translate a) := fun a => by rw [State.userByte, hram, hdir]
  have hword : ∀ a, s.userWord p a = wordAt (fun a => r.mem (d.translate a)) a := by
    intro a
    unfold State.userWord wordAt
    simp only [hbyte]
  have hptr : ∀ i, i < argv.length → argPointer s p (stackPointer sz argv) i = pointer sz argv i :=
    fun i hi => (hword _).trans (h.pointer_word hi)
  -- a string is above the table and below the end of the page
  have hstring : ∀ i, ∀ hi : i < argv.length,
      (stackPointer sz argv).toNat + 4 * (argv.length + 4) ≤ (pointer sz argv i).toNat ∧
        (pointer sz argv i).toNat + argv[i].length + 1 ≤ 4096 * n := by
    intro i hi
    obtain ⟨-, hlo, hhi⟩ := hbounds i hi
    omega
  constructor
  · omega
  · rw [hword]
    simpa using h.table_word (i := 0) rfl
  · rw [hword]
    exact h.table_word (i := 1) (by simp [table, length_pointers])
  · rw [hword]
    refine (h.table_word (i := 2) rfl).trans ?_
    rw [length_pointers, stackPointer]
    bv_omega
  · intro i hi
    rw [hptr i hi]
    refine ⟨(hbounds i hi).1, fun k hk => ?_⟩
    obtain ⟨hlo, hhi⟩ := hstring i hi
    have hnat : (pointer sz argv i + .ofNat 32 k).toNat = (pointer sz argv i).toNat + k := by
      rw [toNat_add, toNat_ofNat]
      omega
    rw [hbyte, h.above_table (by rw [vpn]; omega) (by omega)]
    exact pushed_string argv h.dir hsp (by omega) hfits hi hk
  · have hlast := h.table_word getElem_table_last
    rw [length_pointers, show 4 * (3 + argv.length) = 12 + 4 * argv.length by omega, ← add_ofNat_add] at hlast
    exact (hword _).trans hlast
  · rw [hdir, hsz]
    refine Bool.eq_false_iff.mpr (h.dir.closed ?_).2
    have hle : (2 * PGSIZE).toNat = 8192 := rfl
    rw [vpn, BitVec.toNat_sub_of_le (BitVec.le_def.mpr (by omega)), hle]
    omega
  · rw [hsz]
    omega
  · intro i hi
    rw [hptr i hi]
    exact (hstring i hi).1
  · intro i j hj hij
    rw [hptr i (hij.trans hj), hptr j hj]
    exact pointer_ordered argv h.dir hsp (by omega) hfits hij hj
  · intro i hi
    rw [hptr i hi, hsz, hsize]
    exact (hstring i hi).2
  · intro a ha hout hrest
    rw [hsz] at ha
    rw [hbyte, h.above_table (by rw [vpn]; omega) hout]
    exact pushed_rest argv h.dir hsp (by omega) hfits fun i hi => hptr i hi ▸ hrest i hi

end Decode

/-! ## The call -/

variable {w : World} {p : Fin NPROC} {found : Option Nat}

/-- After a successful `exec` the new program finds the arguments of the call; a call whose strings and table
do not have room in the stack page fails, and one whose arguments fit succeeds if the program loads. -/
theorem exec_passes_argv (path : Bytes) (argv : Argv) (h : Ready w.state p found) :
    (∀ w', Full.exec p path found argv w = .ok 0 w' →
      ∃ n, found = some n ∧ Passed w'.state p w'.esp argv (imageOf (w.state.fs.inode n))) ∧
    (4096 < used argv + 4 * (argv.length + 4) →
      (∀ n, found = some n → (w.state.fs.inode n).type ≠ .dev CONSOLE) →
      ∃ w', Full.exec p path found argv w = .ok (-1) w') ∧
    ∀ n, found = some n → Loads ((w.entered n).state.fs.inode n) w.state.ram → FitsPage argv →
      ∃ w', Full.exec p path found argv w = .ok 0 w' := by
  cases found with
  | none =>
    have hrun : Full.exec p path none argv w = .ok (-1) w := exec_missing h
    refine ⟨fun w' hw' => ?_, fun _ _ => ⟨w, hrun⟩, nofun⟩
    rw [hrun] at hw'
    injection hw' with hres
    exact absurd hres (by decide)
  | some n =>
    by_cases htype : (w.state.fs.inode n).type = .dev CONSOLE
    · refine ⟨fun w' hw' => ?_, fun _ hfile => absurd htype (hfile n rfl), ?_⟩
      · rw [exec_console h htype] at hw'
        cases hw'
      · rintro _ ⟨⟩ hl
        exact absurd (by rw [entered_inode]; exact htype) (hl.1 CONSOLE)
    have hout : Outcome _ p path argv _ _ (Full.exec p path (some n) argv w) := exec_outcome h htype
    rcases hout with ⟨⟨r', hrun⟩, hfail⟩ | ⟨κ, r', d', sz', hrun, hplaced⟩
    · refine ⟨fun w' hw' => ?_, fun _ _ => ⟨_, hrun⟩, ?_⟩
      · rw [hrun] at hw'
        injection hw' with hres
        exact absurd hres (by decide)
      · rintro _ ⟨⟩ hl hfits
        exact absurd hl (hfail hfits)
    · refine ⟨fun w' hw' => ⟨n, rfl, ?_⟩, fun hlarge _ => absurd hplaced.fits.2 (by omega), fun _ _ _ _ => ⟨_, hrun⟩⟩
      rw [hrun] at hw'
      injection hw' with _ hworld
      rw [← hworld]
      exact hplaced.passed rfl (by simp [World.started, withSpace]) (by simp [World.started, withSpace])

/-- The program on the small machine starts with the argument `hi`, and does not with one of a page. -/
theorem exec_passes_argv_bootProgram :
    (∃ w', Full.exec 1 [] (some 2) [[104, 105]] ⟨bootProgram, 0, 0, [], 0⟩ = .ok 0 w' ∧
      Passed w'.state 1 w'.esp [[104, 105]] (imageOf (bootProgram.fs.inode 2))) ∧
    ∃ w', Full.exec 1 [] (some 2) [.replicate 4096 65] ⟨bootProgram, 0, 0, [], 0⟩ = .ok (-1) w' := by
  have hthm := fun argv => exec_passes_argv (w := ⟨bootProgram, 0, 0, [], 0⟩) [] argv bootProgram_ready
  obtain ⟨w', hrun⟩ := (hthm [[104, 105]]).2.2 2 rfl (bootProgram_loads rfl rfl) ⟨by decide, by decide⟩
  obtain ⟨_, ⟨⟩, hpassed⟩ := (hthm [[104, 105]]).1 w' hrun
  refine ⟨⟨w', hrun, hpassed⟩, (hthm [.replicate 4096 65]).2.1 ?_ ?_⟩
  · rw [used, List.map_singleton, List.sum_singleton, room, List.length_replicate]
    decide
  · rintro _ ⟨⟩
    decide

end Xv6.Exec
