import Mathlib.Data.List.Induction
import Xv6.Shell

/-!
# The grammar of the shell

The grammar says which lists of tokens are command lines and which tree each has. The parser over tokens
accepts exactly these: what it returns is derivable (`parseline_triple`, which also says that it never runs
out of fuel), and what is derivable it returns (`parseline_complete`). It has one token of lookahead, so it is
complete only before a token that may follow; `Follows` says which these are.
-/

namespace Xv6.Sh

open Hoare
open List (length_cons length_append append_assoc)

/-- The tokens of a command line, a word with its characters. -/
inductive Tok where
  | word (text : List Char)
  | bar
  | amp
  | semi
  | lparen
  | rparen
  | less
  | greater
  | append
deriving DecidableEq, Repr

/-- The three kinds of redirection. -/
inductive RedirOp where
  | less
  | greater
  | append
deriving DecidableEq, Repr

def RedirOp.tok : RedirOp → Tok
  | .less => .less
  | .greater => .greater
  | .append => .append

/-- What a redirection does to the command before it. -/
def RedirOp.apply : RedirOp → Cmd (List Char) → List Char → Cmd (List Char)
  | .less, cmd, file => .redir cmd file O_RDONLY 0
  | .greater, cmd, file => .redir cmd file (O_WRONLY ||| O_CREATE) 1
  | .append, cmd, file => .redir cmd file (O_WRONLY ||| O_CREATE) 1

/-! ## The grammar -/

/-- A redirection, with the word that names its file. -/
abbrev Redir := RedirOp × List Char

/-- `redirs := (('<'|'>'|'>>') word)*` -/
def redirTokens (rs : List Redir) : List Tok := rs.flatMap fun r => [r.1.tok, .word r.2]

/-- A command with redirections around it, the last one outermost. -/
def wrap (cmd : Cmd (List Char)) (rs : List Redir) : Cmd (List Char) :=
  rs.foldl (fun cmd r => r.1.apply cmd r.2) cmd

/-- `(word redirs)*` -/
def argTokens (args : List (List Char × List Redir)) : List Tok :=
  args.flatMap fun a => .word a.1 :: redirTokens a.2

/-- The redirections among the arguments. -/
def argRedirs (args : List (List Char × List Redir)) : List Redir := args.flatMap (·.2)

/-- A command in the background, and that again. -/
def backs : Nat → Cmd (List Char) → Cmd (List Char)
  | 0, cmd => cmd
  | n + 1, cmd => backs n (.back cmd)

inductive Nonterminal where
  | line
  | pipe
  | exec

/-- A nonterminal derives a list of tokens, and the derivation has a tree. -/
inductive Derives : Nonterminal → List Tok → Cmd (List Char) → Prop
  /-- `line := pipe '&'*` -/
  | line {ts c} (n : Nat) (hpipe : Derives .pipe ts c) :
      Derives .line (ts ++ List.replicate n .amp) (backs n c)
  /-- `line := pipe '&'* ';' line` -/
  | seq {ts c rest d} (n : Nat) (hpipe : Derives .pipe ts c) (hline : Derives .line rest d) :
      Derives .line (ts ++ (List.replicate n .amp ++ .semi :: rest)) (.list (backs n c) d)
  /-- `pipe := exec` -/
  | pipe {ts c} (hexec : Derives .exec ts c) : Derives .pipe ts c
  /-- `pipe := exec '|' pipe` -/
  | bar {ts c rest d} (hexec : Derives .exec ts c) (hpipe : Derives .pipe rest d) :
      Derives .pipe (ts ++ .bar :: rest) (.pipe c d)
  /-- `exec := '(' line ')' redirs` -/
  | block {ts c} (rs : List Redir) (hline : Derives .line ts c) :
      Derives .exec (.lparen :: ts ++ .rparen :: redirTokens rs) (wrap c rs)
  /-- `exec := redirs (word redirs)*`, with fewer than `MAXARGS` words -/
  | simple (rs : List Redir) (args : List (List Char × List Redir))
      (hargs : args.length ≤ MAXARGS - 1) : Derives .exec (redirTokens rs ++ argTokens args)
        (wrap (.exec (args.map (·.1))) (rs ++ argRedirs args))

/-! ## The parser over tokens -/

/-- The character a token starts with; that of a word is none of the symbols. -/
def Tok.first : Tok → Char
  | .word _ => 'a'
  | .bar => '|'
  | .amp => '&'
  | .semi => ';'
  | .lparen => '('
  | .rparen => ')'
  | .less => '<'
  | .greater => '>'
  | .append => '>'

/-- The kind `gettoken` returns for a token. -/
def Tok.kind : Tok → Char
  | .append => '+'
  | t => t.first

def Tok.text : Tok → List Char
  | .word w => w
  | _ => []

/-- The next token starts with one of `toks`. -/
def startsIn (toks : List Char) : List Tok → Bool
  | [] => false
  | t :: _ => toks.contains t.first

/-- Tokens in place of characters. -/
def tokens : Lexer (List Tok) (List Char) where
  peek toks := fun ts => .ok (startsIn toks ts) ts
  gettoken := fun
    | [] => .ok (NUL, []) []
    | t :: ts => .ok (t.kind, t.text) ts

theorem peek_tokens (toks : List Char) (ts : List Tok) :
    tokens.peek toks ts = .ok (startsIn toks ts) ts := rfl

theorem gettoken_cons (t : Tok) (ts : List Tok) : tokens.gettoken (t :: ts) = .ok (t.kind, t.text) ts := rfl

theorem gettoken_nil : tokens.gettoken [] = .ok (NUL, []) [] := rfl

/-- The tokens that are the only one to start with their character. -/
def Tok.isSymbol : Tok → Bool
  | .bar | .amp | .semi | .lparen | .rparen => true
  | _ => false

variable {ts rest mid : List Tok} {fuel : Nat} {c d : Cmd (List Char)}

theorem startsIn_symbol (t : Tok) (ht : t.isSymbol = true) :
    startsIn [t.first] ts = true ↔ ∃ rest, ts = t :: rest := by
  cases ts with
  | nil => simp [startsIn]
  | cons u rest => cases t <;> cases u <;> simp_all [startsIn, Tok.first, Tok.isSymbol]

/-! ### One round of each loop -/

section Rounds
variable (fuel : Nat) (cmd : Cmd (List Char))
variable {ts : List Tok}

theorem parseredirs_done (h : startsIn ['<', '>'] ts = false) :
    parseredirs tokens (fuel + 1) cmd ts = .ok cmd ts := by
  rw [parseredirs, bind_ok (peek_tokens _ _), h]
  rfl

theorem parseredirs_redir (op : RedirOp) (w : List Char) (ts : List Tok) :
    parseredirs tokens (fuel + 1) cmd (op.tok :: .word w :: ts) =
      parseredirs tokens fuel (op.apply cmd w) ts := by
  cases op <;> rfl

theorem parseredirs_missing (op : RedirOp) (h : ∀ w rest, ts ≠ .word w :: rest) :
    ∃ rest, parseredirs tokens (fuel + 1) cmd (op.tok :: ts) =
      .error (.panic "missing file for redirection") rest := by
  cases ts with
  | nil => cases op <;> exact ⟨_, rfl⟩
  | cons t ts =>
    cases t with
    | word w => exact absurd rfl (h w ts)
    | _ => cases op <;> exact ⟨_, rfl⟩

theorem parsebacks_done (h : startsIn ['&'] ts = false) :
    parsebacks tokens (fuel + 1) cmd ts = .ok cmd ts := by
  rw [parsebacks, bind_ok (peek_tokens _ _), h]
  rfl

theorem parsebacks_amp (ts : List Tok) :
    parsebacks tokens (fuel + 1) cmd (.amp :: ts) = parsebacks tokens fuel (.back cmd) ts := rfl

theorem parseargs_done (argc : Nat) (h : startsIn ['|', ')', '&', ';'] ts = true) :
    parseargs tokens (fuel + 1) argc cmd ts = .ok cmd ts := by
  rw [parseargs, bind_ok (peek_tokens _ _), h]
  rfl

theorem parseargs_nil (argc : Nat) : parseargs tokens (fuel + 1) argc cmd [] = .ok cmd [] := rfl

theorem parseargs_word {argc : Nat} (h : argc + 1 < MAXARGS) (w : List Char) (ts : List Tok) :
    parseargs tokens (fuel + 1) argc cmd (.word w :: ts) =
      (parseredirs tokens fuel (cmd.pushArg w) >>= parseargs tokens fuel (argc + 1)) ts := by
  rw [parseargs, bind_ok (peek_tokens _ _)]
  show (tokens.gettoken >>= _) (.word w :: ts) = _
  rw [bind_ok (gettoken_cons _ _)]
  rw [if_neg (Nat.not_le.mpr h)]
  rfl

theorem parseargs_full {argc : Nat} (h : MAXARGS ≤ argc + 1) (w : List Char) (ts : List Tok) :
    parseargs tokens (fuel + 1) argc cmd (.word w :: ts) = .error (.panic "too many args") ts := by
  rw [parseargs, bind_ok (peek_tokens _ _)]
  show (tokens.gettoken >>= _) (.word w :: ts) = _
  rw [bind_ok (gettoken_cons _ _)]
  rw [if_pos h]
  rfl

end Rounds

theorem redir_or_not (ts : List Tok) :
    startsIn ['<', '>'] ts = false ∨ ∃ (op : RedirOp) (rest : List Tok), ts = op.tok :: rest := by
  cases ts with
  | nil => exact .inl rfl
  | cons t rest =>
    cases t with
    | less => exact .inr ⟨.less, rest, rfl⟩
    | greater => exact .inr ⟨.greater, rest, rfl⟩
    | append => exact .inr ⟨.append, rest, rfl⟩
    | _ => exact .inl rfl

/-! ## What is returned is derivable

By induction on the fuel. Each statement takes a list of tokens and enough fuel for it, and says what
was consumed of the list; so it also says that the rest is no longer, which is what leaves enough fuel
for the call that comes next. -/

/-- The only way to stop is a panic. -/
def Panics : Stop → List Tok → Prop := fun e _ => ∃ msg, e = .panic msg

theorem parseredirs_triple (fuel : Nat) (cmd : Cmd (List Char)) (ts : List Tok) (hfuel : ts.length < fuel) :
    Triple (· = ts) (parseredirs tokens fuel cmd)
      (fun c rest => ∃ rs, ts = redirTokens rs ++ rest ∧ c = wrap cmd rs) Panics := by
  induction fuel generalizing cmd ts with
  | zero => omega
  | succ fuel ih =>
    refine .at_state ?_
    obtain hno | ⟨op, ts, rfl⟩ := redir_or_not ts
    · rw [parseredirs_done _ _ hno]
      exact ⟨[], rfl, rfl⟩
    · by_cases hw : ∃ w rest, ts = .word w :: rest
      · obtain ⟨w, rest, rfl⟩ := hw
        simp only [length_cons] at hfuel
        rw [parseredirs_redir]
        refine ((ih (op.apply cmd w) rest (by omega)).post ?_).run rest rfl
        rintro c rest' ⟨rs, rfl, rfl⟩
        exact ⟨(op, w) :: rs, rfl, rfl⟩
      · obtain ⟨rest, hrun⟩ := parseredirs_missing fuel cmd op
          (fun w rest h => hw ⟨w, rest, h⟩)
        rw [hrun]
        exact ⟨_, rfl⟩

theorem parsebacks_triple (fuel : Nat) (cmd : Cmd (List Char)) (ts : List Tok) (hfuel : ts.length < fuel) :
    Triple (· = ts) (parsebacks tokens fuel cmd)
      (fun c rest => ∃ n, ts = List.replicate n .amp ++ rest ∧ c = backs n cmd) Panics := by
  induction fuel generalizing cmd ts with
  | zero => omega
  | succ fuel ih =>
    refine .at_state ?_
    by_cases hamp : ∃ rest, ts = .amp :: rest
    · obtain ⟨rest, rfl⟩ := hamp
      simp only [length_cons] at hfuel
      rw [parsebacks_amp]
      refine ((ih (.back cmd) rest (by omega)).post ?_).run rest rfl
      rintro c rest' ⟨n, rfl, rfl⟩
      exact ⟨n + 1, rfl, rfl⟩
    · rw [← startsIn_symbol .amp rfl, Bool.not_eq_true] at hamp
      rw [parsebacks_done _ _ hamp]
      exact ⟨0, rfl, rfl⟩

theorem pushArg_wrap (argv : List (List Char)) (rs : List Redir) (w : List Char) :
    (wrap (.exec argv) rs).pushArg w = wrap (.exec (argv ++ [w])) rs := by
  induction rs using List.reverseRecOn with
  | nil => rfl
  | append_singleton rs r ih =>
    obtain ⟨op, file⟩ := r
    simp only [wrap, List.foldl_append, List.foldl_cons, List.foldl_nil] at ih ⊢
    cases op <;> exact congrArg (Cmd.redir · _ _ _) ih

theorem wrap_append (cmd : Cmd (List Char)) (rs rs' : List Redir) :
    wrap (wrap cmd rs) rs' = wrap cmd (rs ++ rs') := (List.foldl_append ..).symm

theorem parseargs_triple (fuel argc : Nat) (argv : List (List Char)) (rs : List Redir)
    (ts : List Tok) (hfuel : ts.length < fuel) (hargc : argc < MAXARGS) :
    Triple (· = ts) (parseargs tokens fuel argc (wrap (.exec argv) rs))
      (fun c rest => ∃ args, ts = argTokens args ++ rest ∧ argc + args.length < MAXARGS ∧
        c = wrap (.exec (argv ++ args.map (·.1))) (rs ++ argRedirs args)) Panics := by
  induction fuel generalizing argc argv rs ts with
  | zero => omega
  | succ fuel ih =>
    refine .at_state ?_
    have hdone : ∃ args : List (List Char × List Redir), ts = argTokens args ++ ts ∧
        argc + args.length < MAXARGS ∧
        wrap (.exec argv) rs = wrap (.exec (argv ++ args.map (·.1))) (rs ++ argRedirs args) :=
      ⟨[], rfl, hargc, by simp [argRedirs]⟩
    cases ts with
    | nil =>
      rw [parseargs_nil]
      exact hdone
    | cons t ts =>
      cases t with
      | word w =>
        by_cases hroom : argc + 1 < MAXARGS
        · simp only [length_cons] at hfuel
          rw [parseargs_word _ _ hroom, pushArg_wrap]
          refine (Triple.bind (parseredirs_triple fuel _ ts (by omega)) fun c => ⟨?_⟩).run ts rfl
          rintro _ ⟨rs', rfl, rfl⟩
          rw [wrap_append]
          simp only [length_append] at hfuel
          refine ((ih (argc + 1) _ _ _ (by omega) hroom).post ?_).run _ rfl
          rintro c rest ⟨args, rfl, hlen, rfl⟩
          refine ⟨(w, rs') :: args, ?_, by simp only [length_cons]; omega, ?_⟩
          · simp [argTokens]
          · simp [argRedirs]
        · rw [parseargs_full _ _ (Nat.not_lt.mp hroom)]
          exact ⟨_, rfl⟩
      | bar | amp | semi | rparen =>
        rw [parseargs_done]
        · exact hdone
        · rfl
      | lparen | less | greater | append => exact ⟨_, rfl⟩

/-- With enough fuel, the program panics or consumes what the nonterminal derives. -/
def Sound (nt : Nonterminal) (rank fuel : Nat) (m : EStateM Stop (List Tok) (Cmd (List Char))) :
    Prop :=
  ∀ ts : List Tok, 4 * ts.length + rank ≤ fuel →
    Triple (· = ts) m (fun c rest => ∃ pre, ts = pre ++ rest ∧ Derives nt pre c) Panics

theorem parsepipe_sound (hexec : Sound .exec 2 fuel (parseexec tokens fuel))
    (hpipe : Sound .pipe 3 fuel (parsepipe tokens fuel)) :
    Sound .pipe 3 (fuel + 1) (parsepipe tokens (fuel + 1)) := by
  intro ts hfuel
  rw [parsepipe]
  refine (hexec ts (by omega)).bind fun c => ⟨?_⟩
  rintro rest ⟨pre, rfl, hc⟩
  rw [bind_ok (peek_tokens _ _)]
  by_cases hbar : startsIn ['|'] rest = true
  · obtain ⟨rest, rfl⟩ := (startsIn_symbol .bar rfl).mp hbar
    simp only [length_append, length_cons] at hfuel
    refine (Triple.bind (hpipe rest (by omega)) fun d => .pure ?_).run rest rfl
    rintro rest' ⟨pre', rfl, hd⟩
    exact ⟨pre ++ .bar :: pre', by simp, hc.bar hd⟩
  · rw [if_neg hbar]
    exact ⟨pre, rfl, hc.pipe⟩

theorem parseline_sound (hpipe : Sound .pipe 3 fuel (parsepipe tokens fuel))
    (hline : Sound .line 4 fuel (parseline tokens fuel)) :
    Sound .line 4 (fuel + 1) (parseline tokens (fuel + 1)) := by
  intro ts hfuel
  rw [parseline]
  refine (hpipe ts (by omega)).bind fun c => ⟨?_⟩
  rintro rest ⟨pre, rfl, hc⟩
  simp only [length_append] at hfuel
  refine (Triple.bind (parsebacks_triple fuel c rest (by omega)) fun c' => ⟨?_⟩).run rest rfl
  rintro rest ⟨n, rfl, rfl⟩
  rw [bind_ok (peek_tokens _ _)]
  by_cases hsemi : startsIn [';'] rest = true
  · obtain ⟨rest, rfl⟩ := (startsIn_symbol .semi rfl).mp hsemi
    simp only [length_append, length_cons] at hfuel
    refine (Triple.bind (hline rest (by omega)) fun d => .pure ?_).run rest rfl
    rintro rest' ⟨pre', rfl, hd⟩
    exact ⟨pre ++ (List.replicate n .amp ++ .semi :: pre'), by simp, hc.seq n hd⟩
  · rw [if_neg hsemi]
    exact ⟨pre ++ List.replicate n .amp, by simp, hc.line n⟩

theorem parseblock_sound (hline : Sound .line 4 fuel (parseline tokens fuel)) :
    Sound .exec 1 (fuel + 1) (parseblock tokens (fuel + 1)) := by
  intro ts hfuel
  rw [parseblock]
  refine .at_state ?_
  rw [bind_ok (peek_tokens _ _)]
  by_cases hopen : startsIn ['('] ts = true
  · obtain ⟨ts, rfl⟩ := (startsIn_symbol .lparen rfl).mp hopen
    simp only [length_cons] at hfuel
    refine (Triple.bind (hline ts (by omega)) fun c => ⟨?_⟩).run ts rfl
    rintro rest ⟨pre, rfl, hc⟩
    rw [bind_ok (peek_tokens _ _)]
    by_cases hclose : startsIn [')'] rest = true
    · obtain ⟨rest, rfl⟩ := (startsIn_symbol .rparen rfl).mp hclose
      simp only [length_append, length_cons] at hfuel
      refine ((parseredirs_triple fuel c rest (by omega)).post ?_).run rest rfl
      rintro d rest' ⟨rs, rfl, rfl⟩
      exact ⟨.lparen :: pre ++ .rparen :: redirTokens rs, by simp, .block rs hc⟩
    · rw [if_neg hclose]
      exact ⟨_, rfl⟩
  · rw [if_neg hopen]
    exact ⟨_, rfl⟩

theorem parseexec_sound (hblock : Sound .exec 1 fuel (parseblock tokens fuel)) :
    Sound .exec 2 (fuel + 1) (parseexec tokens (fuel + 1)) := by
  intro ts hfuel
  rw [parseexec]
  refine .at_state ?_
  rw [bind_ok (peek_tokens _ _)]
  by_cases hopen : startsIn ['('] ts = true
  · rw [if_pos hopen]
    exact (hblock ts (by omega)).run ts rfl
  · rw [if_neg hopen]
    refine (Triple.bind (parseredirs_triple fuel _ ts (by omega)) fun c => ⟨?_⟩).run ts rfl
    rintro rest ⟨rs, rfl, rfl⟩
    simp only [length_append] at hfuel
    refine ((parseargs_triple fuel 0 [] rs rest (by omega) (by decide)).post ?_).run rest rfl
    rintro c rest' ⟨args, rfl, hlen, rfl⟩
    exact ⟨redirTokens rs ++ argTokens args, by simp, .simple rs args (by omega)⟩

theorem parse_sound (fuel : Nat) :
    Sound .line 4 fuel (parseline tokens fuel) ∧ Sound .pipe 3 fuel (parsepipe tokens fuel) ∧
      Sound .exec 2 fuel (parseexec tokens fuel) ∧ Sound .exec 1 fuel (parseblock tokens fuel) := by
  induction fuel with
  | zero => refine ⟨?_, ?_, ?_, ?_⟩ <;> exact fun ts h => absurd h (by omega)
  | succ fuel ih =>
    obtain ⟨hline, hpipe, hexec, hblock⟩ := ih
    exact ⟨parseline_sound hpipe hline, parsepipe_sound hexec hpipe, parseexec_sound hblock,
      parseblock_sound hline⟩

/-! ## What is derivable is returned

By induction on the derivation, for input that goes on after it with a token of the follow set. -/

/-- The characters a token starts with that may come after what the nonterminal derives. -/
def Nonterminal.follow : Nonterminal → List Char
  | .line => [')']
  | .pipe => [')', '&', ';']
  | .exec => ['|', ')', '&', ';']

def Follows (nt : Nonterminal) (ts : List Tok) : Prop := ts = [] ∨ startsIn nt.follow ts = true

namespace Follows

theorem nil (nt : Nonterminal) : Follows nt [] := .inl rfl

theorem startsIn_eq_false {nt : Nonterminal} {ts : List Tok} (h : Follows nt ts) {toks : List Char}
    (hdisj : toks.all (fun c => !nt.follow.contains c) = true) : startsIn toks ts = false := by
  cases ts with
  | nil => rfl
  | cons t rest =>
    obtain h | h := h
    · cases h
    · rw [startsIn] at h
      rw [startsIn, ← Bool.not_eq_true, List.contains_iff_mem]
      intro hmem
      have hnot := List.all_eq_true.mp hdisj _ hmem
      rw [h] at hnot
      cases hnot

end Follows

theorem parseredirs_complete (rs : List Redir)
    (hrest : startsIn ['<', '>'] rest = false) (fuel : Nat) (cmd : Cmd (List Char))
    (hfuel : (redirTokens rs).length < fuel) :
    parseredirs tokens fuel cmd (redirTokens rs ++ rest) = .ok (wrap cmd rs) rest := by
  induction rs generalizing fuel cmd with
  | nil =>
    obtain _ | fuel := fuel
    · omega
    exact parseredirs_done _ _ hrest
  | cons r rs ih =>
    have hlen : (redirTokens (r :: rs)).length = (redirTokens rs).length + 2 := by
      simp [redirTokens]
    obtain _ | fuel := fuel
    · omega
    exact (parseredirs_redir _ _ _ _ _).trans (ih fuel _ (by omega))

theorem parsebacks_complete (n : Nat) (hrest : startsIn ['&'] rest = false)
    (fuel : Nat) (cmd : Cmd (List Char)) (hfuel : n < fuel) :
    parsebacks tokens fuel cmd (List.replicate n .amp ++ rest) = .ok (backs n cmd) rest := by
  induction n generalizing fuel cmd with
  | zero =>
    obtain _ | fuel := fuel
    · omega
    exact parsebacks_done _ _ hrest
  | succ n ih =>
    obtain _ | fuel := fuel
    · omega
    exact (parsebacks_amp _ _ _).trans (ih fuel _ (by omega))

theorem startsIn_argTokens {toks : List Char} (htoks : 'a' ∉ toks)
    (args : List (List Char × List Redir)) (hrest : startsIn toks rest = false) :
    startsIn toks (argTokens args ++ rest) = false := by
  cases args with
  | nil => exact hrest
  | cons a args => simpa [argTokens, startsIn, Tok.first] using htoks

theorem parseargs_complete (args : List (List Char × List Redir))
    (hrest : Follows .exec rest) (fuel argc : Nat) (argv : List (List Char)) (rs : List Redir)
    (hfuel : (argTokens args).length < fuel) (hargc : argc + args.length < MAXARGS) :
    parseargs tokens fuel argc (wrap (.exec argv) rs) (argTokens args ++ rest) =
      .ok (wrap (.exec (argv ++ args.map (·.1))) (rs ++ argRedirs args)) rest := by
  induction args generalizing fuel argc argv rs with
  | nil =>
    obtain _ | fuel := fuel
    · omega
    obtain rfl | hstart := hrest
    · simp [argTokens, argRedirs, parseargs_nil]
    · simp [argTokens, argRedirs, parseargs_done _ _ _ hstart]
  | cons a args ih =>
    obtain ⟨w, rs'⟩ := a
    have hno : startsIn ['<', '>'] (argTokens args ++ rest) = false :=
      startsIn_argTokens (by decide) args (hrest.startsIn_eq_false rfl)
    have hsplit : argTokens ((w, rs') :: args) ++ rest =
        .word w :: (redirTokens rs' ++ (argTokens args ++ rest)) := by simp [argTokens]
    have hlen : (argTokens ((w, rs') :: args)).length =
        (redirTokens rs').length + (argTokens args).length + 1 := by
      simp [argTokens]
    simp only [length_cons] at hargc
    obtain _ | fuel := fuel
    · omega
    rw [hsplit, parseargs_word _ _ (by omega), pushArg_wrap,
      bind_ok (parseredirs_complete rs' hno fuel _ (by omega)), wrap_append,
      ih fuel (argc + 1) _ _ (by omega) (by omega)]
    simp [argRedirs]

/-- The parser of each nonterminal. -/
def parse : Nonterminal → Nat → EStateM Stop (List Tok) (Cmd (List Char))
  | .line => parseline tokens
  | .pipe => parsepipe tokens
  | .exec => parseexec tokens

/-- The fuel a nonterminal needs beyond four for each token. -/
def Nonterminal.rank : Nonterminal → Nat
  | .line => 4
  | .pipe => 3
  | .exec => 2

theorem parsepipe_last
    (hexec : parseexec tokens fuel ts = .ok c rest) (hrest : startsIn ['|'] rest = false) :
    parsepipe tokens (fuel + 1) ts = .ok c rest := by
  rw [parsepipe, bind_ok hexec, bind_ok (peek_tokens _ _), hrest]
  rfl

theorem parsepipe_bar (hexec : parseexec tokens fuel ts = .ok c (.bar :: mid))
    (hpipe : parsepipe tokens fuel mid = .ok d rest) :
    parsepipe tokens (fuel + 1) ts = .ok (.pipe c d) rest := by
  rw [parsepipe, bind_ok hexec, bind_ok (peek_tokens _ _)]
  show (tokens.gettoken >>= _) (.bar :: mid) = _
  rw [bind_ok (gettoken_cons _ _), bind_ok hpipe]
  rfl

theorem parseline_last (hpipe : parsepipe tokens fuel ts = .ok c mid)
    (hbacks : parsebacks tokens fuel c mid = .ok d rest) (hrest : startsIn [';'] rest = false) :
    parseline tokens (fuel + 1) ts = .ok d rest := by
  rw [parseline, bind_ok hpipe, bind_ok hbacks, bind_ok (peek_tokens _ _), hrest]
  rfl

theorem parseline_semi {mid' : List Tok} {e : Cmd (List Char)} (hpipe : parsepipe tokens fuel ts = .ok c mid)
    (hbacks : parsebacks tokens fuel c mid = .ok d (.semi :: mid'))
    (hline : parseline tokens fuel mid' = .ok e rest) :
    parseline tokens (fuel + 1) ts = .ok (.list d e) rest := by
  rw [parseline, bind_ok hpipe, bind_ok hbacks, bind_ok (peek_tokens _ _)]
  show (tokens.gettoken >>= _) (.semi :: mid') = _
  rw [bind_ok (gettoken_cons _ _), bind_ok hline]
  rfl

theorem parseexec_block (hline : parseline tokens fuel ts = .ok c (.rparen :: mid))
    (hredirs : parseredirs tokens fuel c mid = .ok d rest) :
    parseexec tokens (fuel + 2) (.lparen :: ts) = .ok d rest := by
  rw [parseexec, bind_ok (peek_tokens _ _)]
  show parseblock tokens (fuel + 1) (.lparen :: ts) = _
  rw [parseblock, bind_ok (peek_tokens _ _)]
  show (tokens.gettoken >>= _) (.lparen :: ts) = _
  rw [bind_ok (gettoken_cons _ _), bind_ok hline, bind_ok (peek_tokens _ _)]
  show (tokens.gettoken >>= _) (.rparen :: mid) = _
  exact hredirs

theorem parseexec_simple
    (hopen : startsIn ['('] ts = false)
    (hredirs : parseredirs tokens fuel (.exec []) ts = .ok c mid)
    (hargs : parseargs tokens fuel 0 c mid = .ok d rest) : parseexec tokens (fuel + 1) ts = .ok d rest := by
  rw [parseexec, bind_ok (peek_tokens _ _), hopen]
  show (parseredirs tokens fuel (.exec []) >>= _) ts = _
  rw [bind_ok hredirs]
  exact hargs

theorem startsIn_redirTokens {toks : List Char} (htoks : ∀ op : RedirOp, op.tok.first ∉ toks)
    (rs : List Redir) (hrest : startsIn toks rest = false) :
    startsIn toks (redirTokens rs ++ rest) = false := by
  cases rs with
  | nil => exact hrest
  | cons r rs => simpa [redirTokens, startsIn] using htoks r.1

theorem parse_complete {nt : Nonterminal}
    (h : Derives nt ts c) : ∀ (rest : List Tok) (fuel : Nat), Follows nt rest →
    4 * (ts ++ rest).length + nt.rank ≤ fuel → parse nt fuel (ts ++ rest) = .ok c rest := by
  induction h with
  | @line ts c n hpipe ih =>
    intro rest fuel hrest hfuel
    have hno : startsIn ['&'] rest = false := hrest.startsIn_eq_false rfl
    have hmid : Follows .pipe (List.replicate n .amp ++ rest) := by
      cases n with
      | zero =>
        obtain rfl | hstart := hrest
        · exact .nil _
        · obtain ⟨rest, rfl⟩ := (startsIn_symbol .rparen rfl).mp hstart
          exact .inr rfl
      | succ n => exact .inr rfl
    simp only [Nonterminal.rank, append_assoc, length_append, List.length_replicate] at hfuel ih ⊢
    obtain _ | fuel := fuel
    · omega
    exact parseline_last (ih _ fuel hmid (by simp; omega))
      (parsebacks_complete n hno fuel c (by omega)) (hrest.startsIn_eq_false rfl)
  | @seq ts c rest' d n hpipe hline ih ih' =>
    intro rest fuel hrest hfuel
    have hmid : Follows .pipe (List.replicate n .amp ++ .semi :: (rest' ++ rest)) := by
      cases n with
      | zero => exact .inr rfl
      | succ n => exact .inr rfl
    simp only [Nonterminal.rank, append_assoc, length_append, length_cons,
      List.length_replicate] at hfuel ih ih' ⊢
    obtain _ | fuel := fuel
    · omega
    exact parseline_semi (ih _ fuel hmid (by simp; omega))
      (parsebacks_complete n rfl fuel c (by omega)) (ih' rest fuel hrest (by omega))
  | @pipe ts c hexec ih =>
    intro rest fuel hrest hfuel
    simp only [Nonterminal.rank] at hfuel ih
    obtain _ | fuel := fuel
    · omega
    have hmid : Follows .exec rest := by
      obtain rfl | hstart := hrest
      · exact .nil _
      · refine .inr ?_
        cases rest with
        | nil => exact hstart
        | cons t rest => cases t <;> first | exact hstart | rfl
    exact parsepipe_last (ih rest fuel hmid (by omega)) (hrest.startsIn_eq_false rfl)
  | @bar ts c rest' d hexec hpipe ih ih' =>
    intro rest fuel hrest hfuel
    simp only [Nonterminal.rank, append_assoc, length_append, length_cons,
      List.cons_append] at hfuel ih ih' ⊢
    obtain _ | fuel := fuel
    · omega
    exact parsepipe_bar (ih _ fuel (.inr rfl) (by simp; omega)) (ih' rest fuel hrest (by omega))
  | @block ts c rs hline ih =>
    intro rest fuel hrest hfuel
    simp only [Nonterminal.rank, append_assoc, length_append, length_cons,
      List.cons_append] at hfuel ih ⊢
    obtain ⟨fuel, rfl⟩ : ∃ f, fuel = f + 2 := ⟨fuel - 2, by omega⟩
    exact parseexec_block (ih _ fuel (.inr rfl) (by simp; omega))
      (parseredirs_complete rs (hrest.startsIn_eq_false rfl) fuel c (by omega))
  | simple rs args hargs =>
    intro rest fuel hrest hfuel
    have hopen : startsIn ['('] (argTokens args ++ rest) = false :=
      startsIn_argTokens (by decide) args (hrest.startsIn_eq_false rfl)
    have hno : startsIn ['<', '>'] (argTokens args ++ rest) = false :=
      startsIn_argTokens (by decide) args (hrest.startsIn_eq_false rfl)
    simp only [Nonterminal.rank, append_assoc, length_append] at hfuel ⊢
    obtain _ | fuel := fuel
    · omega
    refine parseexec_simple (startsIn_redirTokens (fun op => ?_) rs hopen)
      (parseredirs_complete rs hno fuel _ (by omega))
      (parseargs_complete args hrest fuel 0 [] rs (by omega) ?_)
    · cases op <;> decide
    · have : MAXARGS = 10 := rfl
      omega

/-- The parser over tokens, with fuel for all of them: a tree and nothing left exactly when the line
is derivable. -/
theorem parseline_eq_ok_iff (ts : List Tok) (hfuel : 4 * ts.length + 4 ≤ fuel)
    (c : Cmd (List Char)) : parseline tokens fuel ts = .ok c [] ↔ Derives .line ts c := by
  constructor
  · intro hrun
    obtain ⟨pre, hts, hc⟩ := ((parse_sound fuel).1 ts hfuel).ok rfl hrun
    rw [hts, List.append_nil]
    exact hc
  · intro h
    have := parse_complete h [] fuel (.nil _) (by simpa [Nonterminal.rank] using hfuel)
    rwa [List.append_nil] at this

end Xv6.Sh
