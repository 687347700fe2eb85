import Mathlib.Computability.Language
import Xv6.Mmu

/-!
# `grep`

The matcher of `grep.c` against the language of its patterns, and the loop that takes lines out of the
buffer. A string is the list of the bytes before its NUL. When a `read` brings no newline, `p == buf` at the
end of the loop and `m` is set to 0: the bytes that were kept of an unfinished line are lost.
-/

namespace Xv6.Grep

open Computability
open List (nil_append append_assoc not_mem_nil length_append cons_append)

def newline : Byte := 10
def asterisk : Byte := 42
def dollar : Byte := 36
def dot : Byte := 46
def caret : Byte := 94

/-! ## The matcher -/

mutual

def matchhere (re text : Bytes) : Bool :=
  match re with
  | [] => true
  | c :: re =>
    if re.head? = some asterisk then matchstar c re.tail text
    else if c = dollar ∧ re = [] then text.isEmpty
    else
      match text with
      | [] => false
      | b :: text => if c = dot ∨ c = b then matchhere re text else false
termination_by (re.length, text.length, 0)

def matchstar (c : Byte) (re text : Bytes) : Bool :=
  if matchhere re text then true
  else
    match text with
    | [] => false
    | b :: text => if b = c ∨ c = dot then matchstar c re text else false
termination_by (re.length, text.length, 1)

end

/-- The loop of `match`. -/
def matchFrom (re : Bytes) : Bytes → Bool
  | [] => matchhere re []
  | b :: text => if matchhere re (b :: text) then true else matchFrom re text

/-- `match(re, text)` -/
def matchText (re text : Bytes) : Bool :=
  if re.head? = some caret then matchhere re.tail text else matchFrom re text

/-! ## Patterns -/

inductive Item where
  | one (c : Byte)
  | star (c : Byte)

/-- The strings of one character that `c` stands for. -/
def single (c : Byte) : Language Byte := {w | ∃ b, w = [b] ∧ (c = dot ∨ c = b)}

def Item.lang : Item → Language Byte
  | .one c => single c
  | .star c => (single c)∗

structure Pattern where
  items : List Item
  /-- The text has to end behind it. -/
  atEnd : Bool

def Pattern.lang (p : Pattern) : Language Byte := (p.items.map Item.lang).prod

def Pattern.push (i : Item) (p : Pattern) : Pattern := { p with items := i :: p.items }

def parse : Bytes → Pattern
  | [] => ⟨[], false⟩
  | [c] => if c = dollar then ⟨[], true⟩ else ⟨[.one c], false⟩
  | c :: d :: re => if d = asterisk then (parse re).push (.star c) else (parse (d :: re)).push (.one c)

/-- The text has a string of the pattern at its beginning. -/
def Here (p : Pattern) (text : Bytes) : Prop :=
  ∃ mid post, text = mid ++ post ∧ mid ∈ p.lang ∧ (p.atEnd = true → post = [])

variable {p : Pattern} {c b : Byte} {re text : Bytes}

theorem here_one : Here (p.push (.one c)) text ↔
    ∃ b rest, text = b :: rest ∧ (c = dot ∨ c = b) ∧ Here p rest := by
  constructor
  · rintro ⟨mid, post, rfl, hmid, hend⟩
    obtain ⟨-, ⟨b, rfl, hb⟩, rest, hrest, rfl⟩ := Language.mem_mul.mp hmid
    exact ⟨b, rest ++ post, rfl, hb, rest, post, rfl, hrest, hend⟩
  · rintro ⟨b, -, rfl, hb, mid, post, rfl, hmid, hend⟩
    exact ⟨b :: mid, post, rfl, Language.mem_mul.mpr ⟨[b], ⟨b, rfl, hb⟩, mid, hmid, rfl⟩, hend⟩

theorem here_star : Here (p.push (.star c)) text ↔
    Here p text ∨ ∃ b rest, text = b :: rest ∧ (c = dot ∨ c = b) ∧ Here (p.push (.star c)) rest := by
  have hlang : (p.push (.star c)).lang = p.lang + single c * (p.push (.star c)).lang := by
    show (single c)∗ * p.lang = p.lang + single c * ((single c)∗ * p.lang)
    rw [← mul_assoc, ← one_add_mul, Language.one_add_self_mul_kstar_eq_kstar]
  constructor
  · rintro ⟨mid, post, rfl, hmid, hend⟩
    rw [hlang] at hmid
    rcases hmid with hmid | hmid
    · exact .inl ⟨mid, post, rfl, hmid, hend⟩
    · obtain ⟨-, ⟨b, rfl, hb⟩, rest, hrest, rfl⟩ := Language.mem_mul.mp hmid
      exact .inr ⟨b, rest ++ post, rfl, hb, rest, post, rfl, hrest, hend⟩
  · rintro (⟨mid, post, rfl, hmid, hend⟩ | ⟨b, -, rfl, hb, mid, post, rfl, hmid, hend⟩)
    · exact ⟨mid, post, rfl, by rw [hlang]; exact .inl hmid, hend⟩
    · refine ⟨b :: mid, post, rfl, ?_, hend⟩
      rw [hlang]
      exact .inr (Language.mem_mul.mpr ⟨[b], ⟨b, rfl, hb⟩, mid, hmid, rfl⟩)

theorem here_nil : Here ⟨[], false⟩ text := ⟨[], text, rfl, rfl, nofun⟩

theorem here_end : Here ⟨[], true⟩ text ↔ text = [] := by
  constructor
  · rintro ⟨mid, post, rfl, hmid, hend⟩
    have hnil : mid = [] := hmid
    rw [hnil, hend rfl]
    rfl
  · rintro rfl
    exact ⟨[], [], rfl, rfl, fun _ => rfl⟩

theorem matchstar_iff (hre : ∀ text, matchhere re text = true ↔ Here p text) :
    matchstar c re text = true ↔ Here (p.push (.star c)) text := by
  induction text with
  | nil =>
    rw [matchstar, here_star, ← hre]
    simp
  | cons b text ih =>
    rw [matchstar, here_star, ← hre]
    by_cases hb : c = dot ∨ c = b
    · have hb' : b = c ∨ c = dot := hb.symm.imp_left Eq.symm
      simp [hb, hb', ih]
    · have hb' : ¬ (b = c ∨ c = dot) := fun h => hb (h.symm.imp_right Eq.symm)
      simp [hb, hb']

theorem matchhere_one (hstar : re.head? ≠ some asterisk) (hend : ¬ (c = dollar ∧ re = []))
    (hre : ∀ text, matchhere re text = true ↔ Here p text) :
    matchhere (c :: re) text = true ↔ Here (p.push (.one c)) text := by
  rw [matchhere.eq_def]
  dsimp only
  rw [if_neg hstar, if_neg hend, here_one]
  cases text with
  | nil => simp
  | cons b text =>
    by_cases hb : c = dot ∨ c = b
    · simp [hb, hre]
    · simp [hb]

theorem matchhere_iff : matchhere re text = true ↔ Here (parse re) text := by
  induction re using parse.induct generalizing text with
  | case1 =>
    rw [matchhere, parse]
    exact iff_of_true rfl here_nil
  | case2 =>
    rw [matchhere.eq_def, parse, if_pos rfl, here_end]
    dsimp only
    rw [List.head?_nil, if_neg (by simp), if_pos ⟨rfl, rfl⟩]
    exact List.isEmpty_iff
  | case3 c hc =>
    rw [parse, if_neg hc]
    have hnil : ∀ text, matchhere [] text = true ↔ Here ⟨[], false⟩ text := by
      intro text
      rw [matchhere]
      exact iff_of_true rfl here_nil
    exact matchhere_one (by simp) (fun h => hc h.1) hnil
  | case4 c re ih =>
    rw [matchhere.eq_def, parse, if_pos rfl]
    exact matchstar_iff fun text => ih
  | case5 c d re hd ih =>
    rw [parse, if_neg hd]
    exact matchhere_one (fun h => hd (Option.some.inj h)) nofun fun text => ih

theorem matchFrom_iff : matchFrom re text = true ↔ ∃ pre rest, text = pre ++ rest ∧ Here (parse re) rest := by
  induction text with
  | nil =>
    rw [matchFrom, matchhere_iff]
    constructor
    · exact fun h => ⟨[], [], rfl, h⟩
    · rintro ⟨pre, rest, heq, h⟩
      rwa [(List.append_eq_nil_iff.mp heq.symm).2] at h
  | cons b text ih =>
    rw [matchFrom]
    by_cases hhere : matchhere re (b :: text) = true
    · rw [if_pos hhere]
      exact iff_of_true rfl ⟨[], _, rfl, matchhere_iff.mp hhere⟩
    · rw [if_neg hhere, ih]
      constructor
      · rintro ⟨pre, rest, rfl, h⟩
        exact ⟨b :: pre, rest, rfl, h⟩
      · rintro ⟨pre, rest, heq, h⟩
        cases pre with
        | nil =>
          rw [nil_append] at heq
          exact absurd (matchhere_iff.mpr (heq ▸ h)) hhere
        | cons a pre => exact ⟨pre, rest, (List.cons.inj heq).2, h⟩

/-- `match` returns 1 if a part of the text, the first one after a `^`, is in the language of the pattern. -/
theorem matchText_iff (re text : Bytes) : matchText re text = true ↔
    ∃ pre mid post, text = pre ++ mid ++ post ∧ (re.head? = some caret → pre = []) ∧
      mid ∈ (parse (if re.head? = some caret then re.tail else re)).lang ∧
      ((parse (if re.head? = some caret then re.tail else re)).atEnd = true → post = []) := by
  unfold matchText
  by_cases hre : re.head? = some caret
  · rw [if_pos hre, if_pos hre, matchhere_iff]
    constructor
    · rintro ⟨mid, post, rfl, hmid, hend⟩
      exact ⟨[], mid, post, rfl, fun _ => rfl, hmid, hend⟩
    · rintro ⟨pre, mid, post, rfl, hpre, hmid, hend⟩
      rw [hpre hre]
      exact ⟨mid, post, rfl, hmid, hend⟩
  · rw [if_neg hre, if_neg hre, matchFrom_iff]
    constructor
    · rintro ⟨pre, -, rfl, mid, post, rfl, hmid, hend⟩
      exact ⟨pre, mid, post, (append_assoc ..).symm, fun h => absurd h hre, hmid, hend⟩
    · rintro ⟨pre, mid, post, rfl, -, hmid, hend⟩
      exact ⟨pre, mid ++ post, append_assoc .., mid, post, rfl, hmid, hend⟩

/-! ## The loop over the lines -/

/-- `strchr(p, '\n')`: the bytes before the newline and those behind it. -/
def strchr : Bytes → Option (Bytes × Bytes)
  | [] => none
  | b :: p =>
    if b = 0 then none
    else if b = newline then some ([], p)
    else (strchr p).map fun x => (b :: x.1, x.2)

variable {line : Bytes}

theorem strchr_some {rest : Bytes} (h : strchr text = some (line, rest)) :
    newline ∉ line ∧ text = line ++ newline :: rest := by
  induction text generalizing line with
  | nil => cases h
  | cons b text ih =>
    unfold strchr at h
    split_ifs at h with h0 hn
    · cases h
      exact ⟨not_mem_nil, by rw [hn]; rfl⟩
    · obtain ⟨x, hx, heq⟩ := Option.map_eq_some_iff.mp h
      cases heq
      obtain ⟨hline, happ⟩ := ih hx
      exact ⟨mt List.mem_cons.mp (not_or.mpr ⟨Ne.symm hn, hline⟩), congrArg (b :: ·) happ⟩

/-- `write(1, p, q+1 - p)`, if the line matches. -/
def printed (re line : Bytes) : Bytes := if matchText re line then line ++ [newline] else []

/-- The inner loop from `p` on: what it writes, and `p` at its end. -/
def printLines (re p : Bytes) : Bytes × Bytes :=
  match _h : strchr p with
  | none => ([], p)
  | some (line, rest) => (printed re line ++ (printLines re rest).1, (printLines re rest).2)
termination_by p.length
decreasing_by
  all_goals
    rw [(strchr_some _h).2, length_append, List.length_cons]
    omega

/-- What `grep` writes when the `m` bytes `buf` are in the buffer and `reads` is what the calls of `read`
return from now on. -/
def grep (re buf : Bytes) : List Bytes → Bytes
  | [] => []
  | data :: reads =>
    let p := (printLines re (buf ++ data)).2
    (printLines re (buf ++ data)).1 ++ grep re (if p.length = (buf ++ data).length then [] else p) reads

/-- The lines with a newline at their end, and what is left behind them. -/
def splitLines : Bytes → List Bytes × Bytes
  | [] => ([], [])
  | b :: s =>
    if b = newline then ([] :: (splitLines s).1, (splitLines s).2)
    else
      match (splitLines s).1 with
      | [] => ([], b :: (splitLines s).2)
      | line :: lines => ((b :: line) :: lines, (splitLines s).2)

/-- What `read(fd, buf+m, sizeof(buf)-m-1)` can return, call after call: at least a byte, never more
than there is room for, and no NUL. -/
def Served (buf : Bytes) : List Bytes → Prop
  | [] => True
  | data :: reads => 0 < data.length ∧ buf.length + data.length ≤ 1023 ∧ 0 ∉ data ∧
    Served (if newline ∈ data then (splitLines (buf ++ data)).2 else []) reads

variable {s : Bytes}

theorem splitLines_of_notMem (h : newline ∉ s) : splitLines s = ([], s) := by
  induction s with
  | nil => rfl
  | cons b s ih =>
    obtain ⟨hb, hs⟩ := not_or.mp (mt List.mem_cons.mpr h)
    rw [splitLines, if_neg (Ne.symm hb), ih hs]

theorem splitLines_line (h : newline ∉ line) (rest : Bytes) :
    splitLines (line ++ newline :: rest) = (line :: (splitLines rest).1, (splitLines rest).2) := by
  induction line with
  | nil => exact if_pos rfl
  | cons b line ih =>
    obtain ⟨hb, hs⟩ := not_or.mp (mt List.mem_cons.mpr h)
    rw [cons_append, splitLines, if_neg (Ne.symm hb), ih hs]

theorem splitLines_append (s t : Bytes) : splitLines (s ++ t) =
    ((splitLines s).1 ++ (splitLines ((splitLines s).2 ++ t)).1, (splitLines ((splitLines s).2 ++ t)).2) := by
  induction s with
  | nil => rfl
  | cons b s ih =>
    rw [cons_append, splitLines, splitLines, ih]
    by_cases hb : b = newline
    · rw [if_pos hb, if_pos hb]
      rfl
    · rw [if_neg hb, if_neg hb]
      cases (splitLines s).1 with
      | nil =>
        dsimp only
        rw [nil_append, nil_append, cons_append, splitLines, if_neg hb]
      | cons line lines => rfl

theorem notMem_rest (s : Bytes) : newline ∉ (splitLines s).2 := by
  induction s with
  | nil => exact not_mem_nil
  | cons b s ih =>
    rw [splitLines]
    by_cases hb : b = newline
    · rwa [if_pos hb]
    · rw [if_neg hb]
      cases (splitLines s).1 with
      | nil => exact mt List.mem_cons.mp (not_or.mpr ⟨Ne.symm hb, ih⟩)
      | cons line lines => exact ih

theorem lines_ne_nil (h : newline ∈ s) : (splitLines s).1 ≠ [] := by
  induction s with
  | nil => cases h
  | cons b s ih =>
    rw [splitLines]
    by_cases hb : b = newline
    · rw [if_pos hb]
      exact List.cons_ne_nil _ _
    · rw [if_neg hb]
      cases hl : (splitLines s).1 with
      | nil => exact absurd hl (ih ((List.mem_cons.mp h).resolve_left (Ne.symm hb)))
      | cons line lines => exact List.cons_ne_nil _ _

variable {t : Bytes}

theorem rest_append (s : Bytes) (h : newline ∈ t) : (splitLines (s ++ t)).2 = (splitLines t).2 := by
  induction s with
  | nil => rfl
  | cons b s ih =>
    rw [cons_append, splitLines]
    by_cases hb : b = newline
    · rwa [if_pos hb]
    · rw [if_neg hb]
      cases hl : (splitLines (s ++ t)).1 with
      | nil => exact absurd hl (lines_ne_nil (List.mem_append_right s h))
      | cons line lines => exact ih

theorem splitLines_join (s : Bytes) :
    (splitLines s).1.flatMap (fun line => line ++ [newline]) ++ (splitLines s).2 = s := by
  induction s with
  | nil => rfl
  | cons b s ih =>
    rw [splitLines]
    by_cases hb : b = newline
    · rw [if_pos hb, hb]
      exact congrArg (newline :: ·) ih
    · rw [if_neg hb]
      cases hl : (splitLines s).1 with
      | nil =>
        rw [hl] at ih
        exact congrArg (b :: ·) ih
      | cons line lines =>
        rw [hl] at ih
        exact congrArg (b :: ·) ih

theorem printed_nil : printed [] = fun line => line ++ [newline] := by
  funext line
  have h : matchText [] line = true := by
    cases line <;> simp [matchText, matchFrom, matchhere.eq_def]
  rw [printed, if_pos h]

theorem length_lines (s : Bytes) :
    ((splitLines s).1.flatMap (printed [])).length + (splitLines s).2.length = s.length := by
  rw [printed_nil, ← length_append, splitLines_join]

theorem rest_lt (h : newline ∈ s) : (splitLines s).2.length < s.length := by
  have hlen := length_lines s
  cases hl : (splitLines s).1 with
  | nil => exact absurd hl (lines_ne_nil h)
  | cons line lines =>
    rw [hl, List.flatMap_cons, printed_nil, length_append, length_append, List.length_singleton] at hlen
    omega

/-! ## What the loop writes -/

theorem strchr_none (h0 : 0 ∉ text) (h : strchr text = none) : newline ∉ text := by
  induction text with
  | nil => exact not_mem_nil
  | cons b text ih =>
    obtain ⟨hb, hs⟩ := not_or.mp (mt List.mem_cons.mpr h0)
    rw [strchr, if_neg (Ne.symm hb)] at h
    split_ifs at h with hn
    exact mt List.mem_cons.mp (not_or.mpr ⟨Ne.symm hn, ih hs (Option.map_eq_none_iff.mp h)⟩)

theorem printLines_eq (re : Bytes) {p : Bytes} (h0 : 0 ∉ p) :
    printLines re p = ((splitLines p).1.flatMap (printed re), (splitLines p).2) := by
  fun_induction printLines re p with
  | case1 p h => rw [splitLines_of_notMem (strchr_none h0 h), List.flatMap_nil]
  | case2 p line rest h ih =>
    obtain ⟨hline, rfl⟩ := strchr_some h
    have hrest : 0 ∉ rest := fun hm => h0 (List.mem_append_right _ (List.mem_cons_of_mem _ hm))
    rw [ih hrest, splitLines_line hline, List.flatMap_cons]

variable {buf data : Bytes}

/-- Bytes without a newline are dropped; otherwise what is left of the last line is kept. -/
theorem grep_cons (re : Bytes) (reads : List Bytes) (h0 : 0 ∉ buf ++ data)
    (hbuf : newline ∉ buf) : grep re buf (data :: reads) = (splitLines (buf ++ data)).1.flatMap (printed re) ++
      grep re (if newline ∈ data then (splitLines (buf ++ data)).2 else []) reads := by
  rw [grep, printLines_eq re h0]
  congr 2
  by_cases hn : newline ∈ data
  · rw [if_pos hn, if_neg (rest_lt (List.mem_append_right buf hn)).ne]
  · rw [if_neg hn, splitLines_of_notMem (fun h => (List.mem_append.mp h).elim hbuf hn), if_pos rfl]

theorem carry (h0 : 0 ∉ buf ++ data) :
    let m := if newline ∈ data then (splitLines (buf ++ data)).2 else []
    0 ∉ m ∧ newline ∉ m := by
  dsimp only
  split_ifs
  · refine ⟨fun h => h0 ?_, notMem_rest _⟩
    rw [← splitLines_join (buf ++ data)]
    exact List.mem_append_right _ h
  · exact ⟨not_mem_nil, not_mem_nil⟩

variable {reads : List Bytes}

theorem grep_of_pairwise (re : Bytes) (hserved : Served buf reads)
    (h0 : 0 ∉ buf) (hbuf : newline ∉ buf) (hall : reads.Pairwise fun d e => newline ∈ e → newline ∈ d) :
    grep re buf reads = (splitLines (buf ++ reads.flatten)).1.flatMap (printed re) := by
  induction reads generalizing buf with
  | nil => rw [List.flatten_nil, List.append_nil, splitLines_of_notMem hbuf, List.flatMap_nil, grep]
  | cons data reads ih =>
    obtain ⟨-, -, hz, hrest⟩ := hserved
    obtain ⟨hhead, htail⟩ := List.pairwise_cons.mp hall
    have hz' : 0 ∉ buf ++ data := fun h => (List.mem_append.mp h).elim h0 hz
    rw [grep_cons re reads hz' hbuf, ih hrest (carry hz').1 (carry hz').2 htail, List.flatten_cons,
      ← append_assoc, splitLines_append (buf ++ data), List.flatMap_append]
    by_cases hn : newline ∈ data
    · rw [if_pos hn]
    · -- nothing that comes later ends the line
      have hlater : newline ∉ reads.flatten := by
        intro h
        obtain ⟨e, he, hm⟩ := List.mem_flatten.mp h
        exact hn (hhead e he hm)
      have hb : newline ∉ buf ++ data := fun h => (List.mem_append.mp h).elim hbuf hn
      have happ : newline ∉ buf ++ data ++ reads.flatten := fun h => (List.mem_append.mp h).elim hb hlater
      rw [if_neg hn, splitLines_of_notMem hb, splitLines_of_notMem happ, nil_append,
        splitLines_of_notMem hlater]

theorem length_lines_append (s : Bytes) (h : newline ∈ t) :
    ((splitLines (s ++ t)).1.flatMap (printed [])).length =
      s.length + ((splitLines t).1.flatMap (printed [])).length := by
  have hs := length_lines (s ++ t)
  have ht := length_lines t
  rw [rest_append s h, length_append] at hs
  omega

/-- With the empty pattern `grep` writes no more than it should, and as much only if nothing was dropped. -/
theorem grep_short (hserved : Served buf reads) (h0 : 0 ∉ buf) (hbuf : newline ∉ buf) :
    let due := ((splitLines (buf ++ reads.flatten)).1.flatMap (printed [])).length
    (grep [] buf reads).length ≤ due ∧
      ((grep [] buf reads).length = due → reads.Pairwise fun d e => newline ∈ e → newline ∈ d) := by
  induction reads generalizing buf with
  | nil => exact ⟨Nat.zero_le _, fun _ => List.Pairwise.nil⟩
  | cons data reads ih =>
    obtain ⟨hpos, -, hz, hrest⟩ := hserved
    have hz' : 0 ∉ buf ++ data := fun h => (List.mem_append.mp h).elim h0 hz
    obtain ⟨hle, heq⟩ := ih hrest (carry hz').1 (carry hz').2
    dsimp only
    rw [grep_cons [] reads hz' hbuf, List.flatten_cons, ← append_assoc, length_append,
      List.pairwise_cons]
    by_cases hn : newline ∈ data
    · rw [splitLines_append (buf ++ data), List.flatMap_append, length_append]
      rw [if_pos hn] at hle heq ⊢
      exact ⟨by omega, fun h => ⟨fun _ _ _ => hn, heq (by omega)⟩⟩
    have hb : newline ∉ buf ++ data := fun h => (List.mem_append.mp h).elim hbuf hn
    rw [if_neg hn, nil_append] at hle heq
    rw [if_neg hn, splitLines_of_notMem hb, List.flatMap_nil, List.length_nil, Nat.zero_add]
    by_cases hlater : newline ∈ reads.flatten
    · -- the bytes that are dropped here are missing in the end
      rw [length_lines_append (buf ++ data) hlater, length_append]
      exact ⟨by omega, fun h => by omega⟩
    · have hnone : ∀ e ∈ reads, newline ∉ e := fun e he hm => hlater (List.mem_flatten.mpr ⟨e, he, hm⟩)
      rw [splitLines_of_notMem hlater] at hle
      exact ⟨hle.trans (Nat.zero_le _), fun _ => ⟨fun e he hm => absurd hm (hnone e he),
        List.pairwise_of_forall_mem_list fun _ _ e he hm => absurd hm (hnone e he)⟩⟩

/-- Whatever the pattern, `grep` writes the finished lines of the stream that match if and only if no `read`
that brought no newline is followed by one that brings one. -/
theorem grep_eq_iff (hserved : Served [] reads) :
    (∀ re, grep re [] reads = (splitLines reads.flatten).1.flatMap (printed re)) ↔
      reads.Pairwise fun d e => newline ∈ e → newline ∈ d := by
  constructor
  · intro h
    exact (grep_short hserved not_mem_nil not_mem_nil).2 (congrArg List.length (h []))
  · intro hall re
    exact grep_of_pairwise re hserved not_mem_nil not_mem_nil hall

/-- `"ab\nc"` and `"d\n"`, read one after the other: the second line is in both. -/
theorem grep_eq_iff_short : Served [] [[97, 98, newline, 99], [100, newline]] ∧
    ∀ re, grep re [] [[97, 98, newline, 99], [100, newline]] = [[97, 98], [99, 100]].flatMap (printed re) := by
  have hserved : Served [] [[97, 98, newline, 99], [100, newline]] := by
    simp [Served, newline, splitLines]
  exact ⟨hserved, (grep_eq_iff hserved).mpr (by simp [newline])⟩

/-- `"ab\n"`, read as `"a"` and `"b\n"`, matches `a`, but nothing is written. -/
theorem grep_drops : Served [] [[97], [98, newline]] ∧ grep [97] [] [[97], [98, newline]] = [] ∧
    (splitLines [97, 98, newline]).1.flatMap (printed [97]) = [97, 98, newline] := by
  refine ⟨by simp [Served, newline], ?_, ?_⟩
  · rw [grep_cons [97] _ (by decide) (by decide), if_neg (by decide), grep_cons [97] _ (by decide) (by decide)]
    simp [grep, splitLines, newline, printed, matchText, matchFrom, matchhere.eq_def, caret, dollar, dot, asterisk]
  · simp [splitLines, newline, printed, matchText, matchFrom, matchhere.eq_def, caret, dollar, dot, asterisk]

end Xv6.Grep
