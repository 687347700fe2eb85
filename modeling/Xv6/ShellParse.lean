import Mathlib.Data.List.DropRight
import Mathlib.Data.List.Forall2
import Mathlib.Data.List.GetD
import Xv6.Lib.Related
import Xv6.ShellGrammar

/-!
# The shell parses its grammar

The parser over the characters of the buffer runs in step with the parser over the tokens of the line, so it
accepts what the grammar derives and panics on the rest. The words of the command it returns are the words of
the tree, and still are when `nulterminate` has written zeros over the buffer.
-/

namespace Xv6.Sh

open Hoare

/-! ## The tokens of a line -/

/-- The tokens of one character, `>` apart. -/
def symbol (c : Char) : Option Tok :=
  if c = '|' then some .bar
  else if c = '(' then some .lparen
  else if c = ')' then some .rparen
  else if c = ';' then some .semi
  else if c = '&' then some .amp
  else if c = '<' then some .less
  else none

/-- The token that starts with `c`, when `r` comes after it, and what is left of `r`. -/
def firstToken (c : Char) (r : List Char) : Tok × List Char :=
  match symbol c with
  | some t => (t, r)
  | none =>
    if c = '>' then
      if r.head? = some '>' then (.append, r.tail) else (.greater, r)
    else (.word (c :: r.takeWhile isWord), r.dropWhile isWord)

theorem length_firstToken_le (c : Char) (r : List Char) : (firstToken c r).2.length ≤ r.length := by
  unfold firstToken
  split
  · exact le_rfl
  · split
    · split
      · simp
      · exact le_rfl
    · exact List.length_dropWhile_le _ _

variable {l r buf : List Char} {c : Char} {cmd : Cmd (Nat × Nat)} {tree : Cmd (List Char)} {s : Nat}

theorem length_firstToken_lt (h : l.dropWhile isSpace = c :: r) : (firstToken c r).2.length < l.length := by
  have hfirst := length_firstToken_le c r
  have hdrop := List.length_dropWhile_le isSpace l
  rw [h, List.length_cons] at hdrop
  omega

/-- The tokens of a line: white space is skipped, and each token is as long as it can be. -/
def lex (l : List Char) : List Tok :=
  match _h : l.dropWhile isSpace with
  | [] => []
  | c :: r => (firstToken c r).1 :: lex (firstToken c r).2
termination_by l.length
decreasing_by exact length_firstToken_lt _h

theorem lex_of_nil (h : l.dropWhile isSpace = []) : lex l = [] := by
  rw [lex]
  split <;> simp_all

theorem lex_of_cons (h : l.dropWhile isSpace = c :: r) :
    lex l = (firstToken c r).1 :: lex (firstToken c r).2 := by
  rw [lex]
  split
  · simp_all
  · rename_i h'
    rw [h] at h'
    cases h'
    rfl

theorem lex_dropWhile (l : List Char) : lex (l.dropWhile isSpace) = lex l := by
  have hidem : (l.dropWhile isSpace).dropWhile isSpace = l.dropWhile isSpace :=
    List.dropWhile_idempotent isSpace l
  cases h : l.dropWhile isSpace with
  | nil => rw [lex_of_nil h, lex_of_nil rfl]
  | cons c r => rw [← h, lex_of_cons (hidem.trans h), lex_of_cons h]

theorem length_lex_le (l : List Char) : (lex l).length ≤ l.length := by
  fun_induction lex l with
  | case1 l h => exact Nat.zero_le _
  | case2 l c r h ih =>
    have hlt := length_firstToken_lt h
    rw [List.length_cons]
    omega

/-! ## The buffer and the line in it -/

/-- The command line: the buffer up to its first zero. -/
def cmdline (buf : List Char) : List Char := buf.takeWhile (· ≠ NUL)

theorem dropWhile_head {p : Char → Bool} (h : l.dropWhile p = c :: r) : p c = false := by
  have hc := List.head_dropWhile_not p (l := l) (by rw [h]; exact List.cons_ne_nil c r)
  simpa only [h, List.head_cons] using hc

section Buffer
variable {buf : List Char}
variable {s : Nat} {c : Char} {r : List Char}

theorem charAt_of_drop (h : (cmdline buf).drop s = c :: r) :
    charAt buf s = c ∧ c ≠ NUL ∧ s < strlen buf ∧ (cmdline buf).drop (s + 1) = r := by
  have hs : s < (cmdline buf).length := by
    have := congrArg List.length h
    simp only [List.length_drop, List.length_cons] at this
    omega
  rw [List.drop_eq_getElem_cons hs] at h
  obtain ⟨hc, hr⟩ := List.cons.inj h
  have hmem : c ∈ cmdline buf := hc ▸ List.getElem_mem hs
  refine ⟨?_, by simpa using List.mem_takeWhile_imp hmem, hs, hr⟩
  have hbuf : buf = cmdline buf ++ buf.dropWhile (· ≠ NUL) := (List.takeWhile_append_dropWhile ..).symm
  rw [charAt, hbuf, List.getD_append _ _ _ _ hs, List.getD_eq_getElem _ _ hs, hc]

theorem charAt_line {i : Nat} (h : i < (cmdline buf).length) : charAt buf i = (cmdline buf)[i] :=
  (charAt_of_drop (List.drop_eq_getElem_cons h)).1

theorem charAt_strlen (buf : List Char) : charAt buf (strlen buf) = NUL := by
  have hrun : charAt buf (strlen buf) =
      (cmdline buf ++ buf.dropWhile (· ≠ NUL)).getD (cmdline buf).length NUL := by
    rw [cmdline, List.takeWhile_append_dropWhile]
    rfl
  rw [hrun, List.getD_append_right _ _ _ _ le_rfl, Nat.sub_self]
  cases h : buf.dropWhile (· ≠ NUL) with
  | nil => rfl
  | cons c r =>
    simpa using dropWhile_head h

theorem scan_spec (p : Char → Bool) (n s : Nat) (hn : n + s = strlen buf) :
    scan p buf n s = s + (((cmdline buf).drop s).takeWhile p).length ∧
      (cmdline buf).drop (scan p buf n s) = ((cmdline buf).drop s).dropWhile p ∧
      scan p buf n s ≤ strlen buf := by
  induction n generalizing s with
  | zero =>
    have hend : (cmdline buf).drop s = [] := List.drop_eq_nil_iff.mpr (by
      rw [Nat.zero_add] at hn
      exact hn.ge)
    simp only [scan, hend, List.takeWhile_nil, List.dropWhile_nil, List.length_nil, Nat.add_zero, true_and]
    omega
  | succ n ih =>
    have hs : s < (cmdline buf).length := by
      have : strlen buf = (cmdline buf).length := rfl
      omega
    have hdrop := List.drop_eq_getElem_cons hs
    obtain ⟨ih1, ih2, ih3⟩ := ih (s + 1) (by omega)
    rw [scan, charAt_line hs, hdrop, List.takeWhile_cons, List.dropWhile_cons]
    by_cases hp : p (cmdline buf)[s] = true
    · rw [if_pos hp, if_pos hp, if_pos hp, ih1]
      exact ⟨by rw [List.length_cons]; omega, ih1 ▸ ih2, ih1 ▸ ih3⟩
    · rw [if_neg hp, if_neg hp, if_neg hp]
      exact ⟨rfl, hdrop, by omega⟩

theorem skip_spec (hs : s ≤ strlen buf) :
    (cmdline buf).drop (skip buf (strlen buf) s) = ((cmdline buf).drop s).dropWhile isSpace ∧
      skip buf (strlen buf) s ≤ strlen buf :=
  (scan_spec isSpace (strlen buf - s) s (by omega)).2

/-- A character that a word can have in the buffer. -/
def inWord (c : Char) : Prop := isWord c = true ∧ c ≠ NUL

/-- The pair of pointers delimits the word in the buffer. -/
structure WordAt (buf : List Char) (x : Nat × Nat) (w : List Char) : Prop where
  stop : x.2 = x.1 + w.length
  text : ∀ i (h : i < w.length), charAt buf (x.1 + i) = w[i]
  word : ∀ c ∈ w, inWord c
  after : ¬ inWord (charAt buf x.2)

theorem isWord_of_symbol (hspace : isSpace c = false) (hsym : symbol c = none)
    (hgt : c ≠ '>') : isWord c = true := by
  have hsymbols : c ∉ symbols := by
    intro hmem
    simp only [symbols, List.mem_cons, List.not_mem_nil, or_false] at hmem
    obtain rfl | rfl | rfl | rfl | rfl | rfl | rfl := hmem <;>
      first | exact hgt rfl | exact absurd hsym (by decide)
  have hwhite : c ∉ whitespace := by simpa [isSpace] using hspace
  simp [isWord, hwhite, hsymbols]

theorem wordAt_scan {l : List Char} (hl : (cmdline buf).drop s = l)
    (hs : s ≤ strlen buf) : WordAt buf (s, scan isWord buf (strlen buf - s) s) (l.takeWhile isWord) := by
  obtain ⟨hlen, hdrop, hle⟩ := @scan_spec buf isWord (strlen buf - s) s (by omega)
  subst hl
  have hpre := List.takeWhile_prefix isWord (l := (cmdline buf).drop s)
  refine ⟨hlen, ?_, ?_, ?_⟩
  · intro i hi
    have hi' := Nat.lt_of_lt_of_le hi hpre.length_le
    rw [List.length_drop] at hi'
    rw [charAt_line (by omega), hpre.getElem hi, List.getElem_drop]
  · intro c hc
    have hmem : c ∈ cmdline buf := List.mem_of_mem_drop (hpre.subset hc)
    exact ⟨List.mem_takeWhile_imp hc, by simpa using List.mem_takeWhile_imp hmem⟩
  · rintro ⟨hword, hnul⟩
    cases hrest : ((cmdline buf).drop s).dropWhile isWord with
    | nil =>
      rw [hrest, List.drop_eq_nil_iff] at hdrop
      have hend : scan isWord buf (strlen buf - s) s = strlen buf := Nat.le_antisymm hle hdrop
      exact hnul (by rw [hend, charAt_strlen])
    | cons c r =>
      rw [hrest] at hdrop
      rw [(charAt_of_drop hdrop).1, dropWhile_head hrest] at hword
      cases hword

/-- The characters for which `gettoken` returns the character. -/
abbrev isSingle (c : Char) : Prop := c = '|' ∨ c = '(' ∨ c = ')' ∨ c = ';' ∨ c = '&' ∨ c = '<'

theorem symbol_eq_some {t : Tok} (h : symbol c = some t) :
    isSingle c ∧ t.kind = c ∧ t.first = c ∧ c ≠ 'a' := by
  unfold symbol at h
  split_ifs at h <;> cases h <;> subst_vars <;> simp [isSingle, Tok.kind, Tok.first]

theorem symbol_eq_none (h : symbol c = none) : ¬ isSingle c := by
  rintro (rfl | rfl | rfl | rfl | rfl | rfl) <;> exact absurd h (by decide)

theorem token_spec (h : (cmdline buf).drop s = c :: r) (hspace : isSpace c = false) :
    (token buf (strlen buf) s).1 = (firstToken c r).1.kind ∧
      (cmdline buf).drop (token buf (strlen buf) s).2 = (firstToken c r).2 ∧
      (token buf (strlen buf) s).2 ≤ strlen buf ∧ ((token buf (strlen buf) s).1 = 'a' →
        WordAt buf (s, (token buf (strlen buf) s).2) (firstToken c r).1.text) := by
  obtain ⟨hchar, hnul, hlt, hr⟩ := charAt_of_drop h
  rw [token, hchar, if_neg hnul, firstToken]
  cases hsym : symbol c with
  | some t =>
    obtain ⟨hsingle, hkind, -, hne⟩ := symbol_eq_some hsym
    rw [if_pos hsingle]
    exact ⟨hkind.symm, hr, hlt, fun ha => absurd ha hne⟩
  | none =>
    rw [if_neg (symbol_eq_none hsym)]
    by_cases hgt : c = '>'
    · rw [if_pos hgt, if_pos hgt]
      cases r with
      | nil =>
        have hend : s + 1 = strlen buf := Nat.le_antisymm hlt (List.drop_eq_nil_iff.mp hr)
        have hnext : charAt buf (s + 1) ≠ '>' := by
          rw [hend, charAt_strlen]
          decide
        rw [if_neg hnext, if_neg (by decide)]
        exact ⟨rfl, hr, hlt, fun ha => absurd ha (show '>' ≠ 'a' by decide)⟩
      | cons d r =>
        obtain ⟨hchar', -, hlt', hr'⟩ := charAt_of_drop hr
        rw [hchar', List.head?_cons]
        by_cases hd : d = '>'
        · rw [if_pos hd, if_pos (congrArg some hd)]
          exact ⟨rfl, hr', hlt', fun ha => absurd ha (show '+' ≠ 'a' by decide)⟩
        · rw [if_neg hd, if_neg (fun he => hd (Option.some.inj he))]
          exact ⟨rfl, hr, hlt, fun ha => absurd ha (show '>' ≠ 'a' by decide)⟩
    · rw [if_neg hgt, if_neg hgt]
      have hword := isWord_of_symbol hspace hsym hgt
      obtain ⟨-, hdrop, hle⟩ := @scan_spec buf isWord (strlen buf - s) s (by omega)
      have hat := wordAt_scan h hlt.le
      rw [h, List.dropWhile_cons, if_pos hword] at hdrop
      rw [List.takeWhile_cons, if_pos hword] at hat
      exact ⟨rfl, hdrop, hle, fun _ => hat⟩

/-! ## In step with the parser over tokens -/

/-- The tokens from the position on. -/
def At (buf : List Char) (s : Nat) (ts : List Tok) : Prop :=
  s ≤ strlen buf ∧ lex ((cmdline buf).drop s) = ts

variable {ts : List Tok}

theorem At.skipped (h : At buf s ts) : At buf (skip buf (strlen buf) s) ts := by
  obtain ⟨hdrop, hle⟩ := skip_spec h.1
  exact ⟨hle, by rw [hdrop, lex_dropWhile]; exact h.2⟩

/-- Where white space has been skipped, the position is at the end or at the next token. -/
theorem At.next (h : At buf s ts) :
    (ts = [] ∧ skip buf (strlen buf) s = strlen buf) ∨
    ∃ c r, isSpace c = false ∧ (cmdline buf).drop (skip buf (strlen buf) s) = c :: r ∧
      ts = (firstToken c r).1 :: lex (firstToken c r).2 := by
  obtain ⟨hdrop, hle⟩ := skip_spec h.1
  cases hl : ((cmdline buf).drop s).dropWhile isSpace with
  | nil =>
    refine .inl ⟨h.2.symm.trans (lex_of_nil hl), Nat.le_antisymm hle ?_⟩
    rw [hl] at hdrop
    exact List.drop_eq_nil_iff.mp hdrop
  | cons c r => exact .inr ⟨c, r, dropWhile_head hl, hdrop.trans hl, h.2.symm.trans (lex_of_cons hl)⟩

variable {toks : List Char}

/-- The next token starts with a symbol exactly when the next character is that symbol. -/
theorem first_mem_iff (htoks : ∀ d ∈ toks, d ∈ symbols)
    (hspace : isSpace c = false) : (firstToken c r).1.first ∈ toks ↔ c ∈ toks := by
  rw [firstToken]
  cases hsym : symbol c with
  | some t => rw [(symbol_eq_some hsym).2.2.1]
  | none =>
    by_cases hgt : c = '>'
    · simp only [if_pos hgt]
      rw [hgt]
      split <;> rfl
    · have hword := isWord_of_symbol hspace hsym hgt
      have hc : c ∉ symbols := by
        intro hmem
        simp [isWord, hmem] at hword
      have ha : 'a' ∉ symbols := by decide
      simp only [if_neg hgt]
      exact ⟨fun h => absurd (htoks _ h) ha, fun h => absurd (htoks _ h) hc⟩

theorem peek_related (htoks : ∀ d ∈ toks, d ∈ symbols) :
    Related (At buf) (· = ·) (peek buf (strlen buf) toks) (tokens.peek toks) := by
  intro s ts hat
  refine ⟨?_, hat.skipped⟩
  obtain ⟨rfl, hend⟩ | ⟨c, r, hspace, hdrop, rfl⟩ := hat.next
  · rw [hend, charAt_strlen]
    rfl
  · obtain ⟨hchar, hnul, -, -⟩ := charAt_of_drop hdrop
    rw [hchar]
    simp [startsIn, hnul, first_mem_iff htoks hspace]

theorem gettoken_run (buf : List Char) (es s : Nat) :
    gettoken buf es s =
      .ok ((token buf es (skip buf es s)).1, (skip buf es s, (token buf es (skip buf es s)).2))
        (skip buf es (token buf es (skip buf es s)).2) := rfl

theorem gettoken_related : Related (At buf) (fun x y => x.1 = y.1 ∧ (x.1 = 'a' → WordAt buf x.2 y.2))
      (gettoken buf (strlen buf)) tokens.gettoken := by
  intro s ts hat
  obtain ⟨rfl, hend⟩ | ⟨c, r, hspace, hdrop, rfl⟩ := hat.next
  · have htoken : token buf (strlen buf) (strlen buf) = (NUL, strlen buf) := by
      rw [token, charAt_strlen, if_pos rfl]
    rw [gettoken_run, hend, htoken, gettoken_nil]
    refine ⟨⟨rfl, fun h => absurd h (show NUL ≠ 'a' by decide)⟩, At.skipped ⟨le_rfl, ?_⟩⟩
    exact (congrArg lex List.drop_length).trans (lex_of_nil rfl)
  · obtain ⟨hkind, hrest, hle, hword⟩ := token_spec hdrop hspace
    exact ⟨⟨hkind, hword⟩, At.skipped ⟨hle, congrArg lex hrest⟩⟩

end Buffer

/-- The same command, with its words given in two ways. -/
inductive Cmd.Rel {ω υ : Type} (W : ω → υ → Prop) : Cmd ω → Cmd υ → Prop
  | exec {argv argv'} (h : List.Forall₂ W argv argv') : Cmd.Rel W (.exec argv) (.exec argv')
  | redir {cmd cmd' file file'} {mode fd : Nat} (h : Cmd.Rel W cmd cmd') (hfile : W file file') :
      Cmd.Rel W (.redir cmd file mode fd) (.redir cmd' file' mode fd)
  | pipe {left left' right right'} (hl : Cmd.Rel W left left') (hr : Cmd.Rel W right right') :
      Cmd.Rel W (.pipe left right) (.pipe left' right')
  | list {left left' right right'} (hl : Cmd.Rel W left left') (hr : Cmd.Rel W right right') :
      Cmd.Rel W (.list left right) (.list left' right')
  | back {cmd cmd'} (h : Cmd.Rel W cmd cmd') : Cmd.Rel W (.back cmd) (.back cmd')

section Related
variable {σ τ ω υ : Type} {R : σ → τ → Prop} {W : ω → υ → Prop}
variable {cmd : Cmd ω} {cmd' : Cmd υ}

theorem Cmd.Rel.redirect (h : Cmd.Rel W cmd cmd') (tok : Char)
    {file : ω} {file' : υ} (hfile : W file file') :
    Cmd.Rel W (cmd.redirect tok file) (cmd'.redirect tok file') := by
  unfold Cmd.redirect
  split_ifs
  · exact .redir h hfile
  · exact .redir h hfile
  · exact .redir h hfile
  · exact h

theorem Cmd.Rel.pushArg (h : Cmd.Rel W cmd cmd') {w : ω} {w' : υ}
    (hw : W w w') : Cmd.Rel W (cmd.pushArg w) (cmd'.pushArg w') := by
  induction h with
  | exec h => exact .exec (List.rel_append h (.cons hw .nil))
  | redir _ hfile ih => exact .redir ih hfile
  | pipe hl hr => exact .pipe hl hr
  | list hl hr => exact .list hl hr
  | back h => exact .back h

/-- Two lexers that read one input: they look at the same symbols, and find tokens of the same kind
and, when they are words, the same words. -/
structure Lexer.Rel (R : σ → τ → Prop) (W : ω → υ → Prop) (lx : Lexer σ ω) (lx' : Lexer τ υ) : Prop where
  peek : ∀ toks : List Char, (∀ c ∈ toks, c ∈ symbols) → Related R (· = ·) (lx.peek toks) (lx'.peek toks)
  gettoken : Related R (fun x y => x.1 = y.1 ∧ (x.1 = 'a' → W x.2 y.2)) lx.gettoken lx'.gettoken

namespace Lexer.Rel

variable {lx : Lexer σ ω} {lx' : Lexer τ υ}
variable {α β : Type}

section
variable (h : Lexer.Rel R W lx lx')
include h

theorem look {V : α → β → Prop} {toks : List Char}
    (htoks : toks.all (symbols.contains ·) = true) {m₁ m₂ : EStateM Stop σ α} {n₁ n₂ : EStateM Stop τ β}
    (h₁ : Related R V m₁ n₁) (h₂ : Related R V m₂ n₂) :
    Related R V (lx.peek toks >>= fun b => if b = true then m₁ else m₂)
      (lx'.peek toks >>= fun b => if b = true then n₁ else n₂) := by
  refine (h.peek toks fun c hc => List.contains_iff_mem.mp (List.all_eq_true.mp htoks c hc)).bind ?_
  rintro b _ rfl
  exact .ite (fun _ => h₁) (fun _ => h₂)

theorem skipToken {V : α → β → Prop} {m : EStateM Stop σ α} {n : EStateM Stop τ β} (hm : Related R V m n) :
    Related R V (lx.gettoken >>= fun _ => m) (lx'.gettoken >>= fun _ => n) :=
  h.gettoken.bind fun _ _ _ => hm

variable {cmd : Cmd ω} {cmd' : Cmd υ}

theorem parseredirs (fuel : Nat) (hcmd : Cmd.Rel W cmd cmd') :
    Related R (Cmd.Rel W) (parseredirs lx fuel cmd) (parseredirs lx' fuel cmd') := by
  induction fuel generalizing cmd cmd' with
  | zero => exact .throw _
  | succ fuel ih =>
    refine h.look rfl (h.gettoken.bind ?_) (.pure hcmd)
    rintro ⟨tok, -⟩ ⟨_, -⟩ ⟨rfl, -⟩
    refine h.gettoken.bind ?_
    rintro ⟨kind, file⟩ ⟨_, file'⟩ ⟨rfl, hfile⟩
    refine .ite (fun _ => .throw _) fun hword => ih (hcmd.redirect tok (hfile ?_))
    exact not_not.mp hword

theorem parsebacks (fuel : Nat) (hcmd : Cmd.Rel W cmd cmd') :
    Related R (Cmd.Rel W) (parsebacks lx fuel cmd) (parsebacks lx' fuel cmd') := by
  induction fuel generalizing cmd cmd' with
  | zero => exact .throw _
  | succ fuel ih => exact h.look rfl (h.skipToken (ih (.back hcmd))) (.pure hcmd)

theorem parseargs (fuel argc : Nat) (hcmd : Cmd.Rel W cmd cmd') :
    Related R (Cmd.Rel W) (parseargs lx fuel argc cmd) (parseargs lx' fuel argc cmd') := by
  induction fuel generalizing argc cmd cmd' with
  | zero => exact .throw _
  | succ fuel ih =>
    refine h.look rfl (.pure hcmd) (h.gettoken.bind ?_)
    rintro ⟨kind, w⟩ ⟨_, w'⟩ ⟨rfl, hw⟩
    refine .ite (fun _ => .pure hcmd) fun _ => .ite (fun _ => .throw _) fun hword =>
      .ite (fun _ => .throw _) fun _ => ?_
    exact (h.parseredirs fuel (hcmd.pushArg (hw (not_not.mp hword)))).bind fun _ _ => ih (argc + 1)

theorem parse (fuel : Nat) :
    Related R (Cmd.Rel W) (parseline lx fuel) (parseline lx' fuel) ∧
      Related R (Cmd.Rel W) (parsepipe lx fuel) (parsepipe lx' fuel) ∧
      Related R (Cmd.Rel W) (parseblock lx fuel) (parseblock lx' fuel) ∧
      Related R (Cmd.Rel W) (parseexec lx fuel) (parseexec lx' fuel) := by
  induction fuel with
  | zero => exact ⟨.throw _, .throw _, .throw _, .throw _⟩
  | succ fuel ih =>
    obtain ⟨hline, hpipe, hblock, hexec⟩ := ih
    refine ⟨?_, ?_, ?_, ?_⟩
    · refine hpipe.bind fun _ _ hc => (h.parsebacks fuel hc).bind fun _ _ hc => ?_
      refine h.look rfl (h.skipToken (hline.bind fun _ _ hd => ?_)) (.pure hc)
      exact .pure (.list hc hd)
    · refine hexec.bind fun _ _ hc => ?_
      refine h.look rfl (h.skipToken (hpipe.bind fun _ _ hd => ?_)) (.pure hc)
      exact .pure (.pipe hc hd)
    · refine h.look rfl (h.skipToken (hline.bind fun _ _ hc => ?_)) (.throw _)
      exact h.look rfl (h.skipToken (h.parseredirs fuel hc)) (.throw _)
    · refine h.look rfl hblock ?_
      exact (h.parseredirs fuel (.exec .nil)).bind fun _ _ => h.parseargs fuel 0

end

end Lexer.Rel

end Related

theorem lexer_rel (buf : List Char) :
    Lexer.Rel (At buf) (WordAt buf) (lexer buf (strlen buf)) tokens where
  peek _ htoks := peek_related htoks
  gettoken := gettoken_related

/-! ## The zeros after the words -/

/-- The positions where the words of a command end. -/
def Cmd.ends : Cmd (Nat × Nat) → List Nat
  | .exec argv => argv.map (·.2)
  | .redir cmd file _ _ => file.2 :: cmd.ends
  | .pipe left right => left.ends ++ right.ends
  | .list left right => left.ends ++ right.ends
  | .back cmd => cmd.ends

theorem charAt_set (buf : List Char) (i j : Nat) :
    charAt (buf.set j NUL) i = if i = j then NUL else charAt buf i := by
  simp only [charAt, List.getD_eq_getElem?_getD, List.getElem?_set]
  by_cases hij : j = i
  · subst hij
    split_ifs <;> rfl
  · rw [if_neg hij, if_neg (Ne.symm hij)]

theorem charAt_foldl (argv : List (Nat × Nat)) (buf : List Char) (i : Nat) :
    charAt (argv.foldl (fun buf w => buf.set w.2 NUL) buf) i =
      if i ∈ argv.map (·.2) then NUL else charAt buf i := by
  induction argv generalizing buf with
  | nil => rfl
  | cons w argv ih =>
    rw [List.foldl_cons, ih, charAt_set, List.map_cons]
    by_cases hmem : i ∈ argv.map (·.2)
    · simp [hmem]
    · by_cases hw : i = w.2 <;> simp [hmem, hw]

theorem charAt_nulterminate (cmd : Cmd (Nat × Nat)) (buf : List Char) (i : Nat) :
    charAt (nulterminate cmd buf) i = if i ∈ cmd.ends then NUL else charAt buf i := by
  induction cmd generalizing buf with
  | exec argv => exact charAt_foldl argv buf i
  | redir cmd file mode fd ih =>
    simp only [nulterminate, charAt_set, ih, Cmd.ends, List.mem_cons]
    split_ifs <;> simp_all
  | pipe left right ihl ihr | list left right ihl ihr =>
    simp only [nulterminate, ihr, ihl, Cmd.ends, List.mem_append]
    split_ifs <;> simp_all
  | back cmd ih => exact ih buf

/-- A NUL-terminated string stands at the position. -/
structure StringAt (buf : List Char) (q : Nat) (w : List Char) : Prop where
  text : ∀ i (h : i < w.length), charAt buf (q + i) = w[i]
  stop : charAt buf (q + w.length) = NUL
  noNul : NUL ∉ w

/-- The command is the tree, with pointers to strings for its words. -/
def Denotes (buf : List Char) (cmd : Cmd (Nat × Nat)) (tree : Cmd (List Char)) : Prop :=
  Cmd.Rel (fun x w => StringAt buf x.1 w) cmd tree

variable {buf' : List Char}

theorem WordAt.stringAt {x : Nat × Nat} {w : List Char} (h : WordAt buf x w) (hstop : charAt buf' x.2 = NUL)
    (hkeep : ∀ i, inWord (charAt buf i) → charAt buf' i = charAt buf i) : StringAt buf' x.1 w where
  text i hi := by
    rw [← h.text i hi]
    refine hkeep _ ?_
    rw [h.text i hi]
    exact h.word _ (List.getElem_mem hi)
  stop := h.stop ▸ hstop
  noNul hmem := (h.word _ hmem).2 rfl

section
variable (h : Cmd.Rel (WordAt buf) cmd tree)
include h

theorem Cmd.Rel.denotes (hends : ∀ e ∈ cmd.ends, charAt buf' e = NUL)
    (hkeep : ∀ i, inWord (charAt buf i) → charAt buf' i = charAt buf i) : Denotes buf' cmd tree := by
  induction h with
  | exec h =>
    refine .exec ?_
    induction h with
    | nil => exact .nil
    | cons hw _ ih =>
      refine .cons (hw.stringAt (hends _ List.mem_cons_self) hkeep) (ih fun e he => ?_)
      exact hends e (List.mem_cons_of_mem _ he)
  | redir _ hfile ih =>
    refine .redir (ih fun e he => hends e (List.mem_cons_of_mem _ he)) ?_
    exact hfile.stringAt (hends _ List.mem_cons_self) hkeep
  | pipe _ _ ihl ihr =>
    exact .pipe (ihl fun e he => hends e (List.mem_append_left _ he))
      (ihr fun e he => hends e (List.mem_append_right _ he))
  | list _ _ ihl ihr =>
    exact .list (ihl fun e he => hends e (List.mem_append_left _ he))
      (ihr fun e he => hends e (List.mem_append_right _ he))
  | back _ ih => exact .back (ih hends)

theorem Cmd.Rel.not_inWord : ∀ e ∈ cmd.ends, ¬ inWord (charAt buf e) := by
  induction h with
  | exec h =>
    induction h with
    | nil => exact fun e he => absurd he List.not_mem_nil
    | cons hw _ ih => exact List.forall_mem_cons.mpr ⟨hw.after, ih⟩
  | redir _ hfile ih => exact List.forall_mem_cons.mpr ⟨hfile.after, ih⟩
  | pipe _ _ ihl ihr | list _ _ ihl ihr => exact List.forall_mem_append.mpr ⟨ihl, ihr⟩
  | back _ ih => exact ih

theorem denotes_nulterminate : Denotes (nulterminate cmd buf) cmd tree := by
  refine h.denotes (fun e he => ?_) fun i hi => ?_
  · rw [charAt_nulterminate, if_pos he]
  · rw [charAt_nulterminate, if_neg fun he => h.not_inWord i he hi]

end

/-! ## The whole of `parsecmd` -/

/-- The tokens of the line in the buffer. -/
def lineTokens (buf : List Char) : List Tok := lex (cmdline buf)

theorem at_zero (buf : List Char) : At buf 0 (lineTokens buf) := ⟨Nat.zero_le _, rfl⟩

theorem fuel_enough (buf : List Char) : 4 * (lineTokens buf).length + 4 ≤ 4 * strlen buf + 4 := by
  have : (lineTokens buf).length ≤ strlen buf := length_lex_le _
  omega

theorem parsecmd_of_ok (h : parseline (lexer buf (strlen buf)) (4 * strlen buf + 4) 0 = .ok cmd s) :
    parsecmd buf = if skip buf (strlen buf) s = strlen buf then .ok (cmd, nulterminate cmd buf)
      else .error (.panic "syntax") := by
  have hpeek : peek buf (strlen buf) [] s = .ok _ (skip buf (strlen buf) s) := rfl
  unfold parsecmd
  simp only [bind_ok h, bind_ok hpeek, bind_ok (get_run _)]
  by_cases hend : skip buf (strlen buf) s = strlen buf
  · simp only [hend, ne_eq, not_true_eq_false, if_false, if_true, pure_run]
  · simp only [hend, ne_eq, not_false_eq_true, if_false, if_true, throw_run]

theorem parsecmd_of_error {e : Stop}
    (h : parseline (lexer buf (strlen buf)) (4 * strlen buf + 4) 0 = .error e s) :
    parsecmd buf = .error e := by
  unfold parsecmd
  simp only [bind_of_error h]

theorem At.end_iff {ts : List Tok} (h : At buf s ts) : skip buf (strlen buf) s = strlen buf ↔ ts = [] := by
  obtain ⟨rfl, hend⟩ | ⟨c, r, -, hdrop, rfl⟩ := h.next
  · simp [hend]
  · have hlt := (charAt_of_drop hdrop).2.2.1
    simp only [reduceCtorEq, iff_false]
    omega

theorem parsecmd_of_derives (h : Derives .line (lineTokens buf) tree) :
    ∃ cmd buf', parsecmd buf = .ok (cmd, buf') ∧ Denotes buf' cmd tree := by
  have hrun := (parseline_eq_ok_iff _ (fuel_enough buf) tree).mpr h
  obtain ⟨cmd, s, hcode, hcmd, hat⟩ := ((lexer_rel buf).parse _).1.ok (at_zero buf) hrun
  refine ⟨cmd, nulterminate cmd buf, ?_, denotes_nulterminate hcmd⟩
  rw [parsecmd_of_ok hcode, if_pos (hat.end_iff.mpr rfl)]

theorem parsecmd_of_not_derives
    (h : ∀ tree, ¬ Derives .line (lineTokens buf) tree) : ∃ msg, parsecmd buf = .error (.panic msg) := by
  have hsound := (parse_sound (4 * strlen buf + 4)).1 _ (fuel_enough buf)
  have hrel := ((lexer_rel buf).parse (4 * strlen buf + 4)).1
  cases hrun : parseline tokens (4 * strlen buf + 4) (lineTokens buf) with
  | ok c rest =>
    -- the parser came back, and tokens are left
    obtain ⟨cmd, s, hcode, -, hat⟩ := hrel.ok (at_zero buf) hrun
    refine ⟨"syntax", ?_⟩
    rw [parsecmd_of_ok hcode, if_neg]
    rw [hat.end_iff]
    rintro rfl
    exact h c ((parseline_eq_ok_iff _ (fuel_enough buf) c).mp hrun)
  | error e rest =>
    obtain ⟨msg, rfl⟩ := hsound.error rfl hrun
    obtain ⟨s, hcode⟩ := hrel.error (at_zero buf) hrun
    exact ⟨msg, parsecmd_of_error hcode⟩

/-- The parser ends, it returns a command exactly when the line is derivable and panics when it is not, and
the command is the tree of the derivation. -/
theorem parsecmd_grammar (buf : List Char) :
    parsecmd buf ≠ .error .outOfFuel ∧
    ((∃ cmd buf', parsecmd buf = .ok (cmd, buf')) ↔ ∃ tree, Derives .line (lineTokens buf) tree) ∧
    ((∀ tree, ¬ Derives .line (lineTokens buf) tree) → ∃ msg, parsecmd buf = .error (.panic msg)) ∧
    ∀ cmd buf' tree, parsecmd buf = .ok (cmd, buf') → Derives .line (lineTokens buf) tree →
      Denotes buf' cmd tree := by
  refine ⟨?_, ⟨?_, ?_⟩, parsecmd_of_not_derives, ?_⟩
  · by_cases h : ∃ tree, Derives .line (lineTokens buf) tree
    · obtain ⟨cmd, buf', hcmd, -⟩ := parsecmd_of_derives h.choose_spec
      rw [hcmd]
      rintro ⟨⟩
    · obtain ⟨msg, hpanic⟩ := parsecmd_of_not_derives fun tree ht => h ⟨tree, ht⟩
      rw [hpanic]
      rintro ⟨⟩
  · rintro ⟨cmd, buf', hcmd⟩
    by_contra hno
    obtain ⟨msg, hpanic⟩ := parsecmd_of_not_derives fun tree h => hno ⟨tree, h⟩
    rw [hcmd] at hpanic
    cases hpanic
  · rintro ⟨tree, h⟩
    obtain ⟨cmd, buf', hcmd, -⟩ := parsecmd_of_derives h
    exact ⟨cmd, buf', hcmd⟩
  · intro cmd buf' tree hcmd h
    obtain ⟨cmd₁, buf₁, hcmd₁, hdenotes⟩ := parsecmd_of_derives h
    rw [hcmd] at hcmd₁
    cases hcmd₁
    exact hdenotes

end Xv6.Sh
