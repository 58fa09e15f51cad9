import Mathlib.Logic.Function.Iterate
import PbsCow.ShellTokens

namespace PbsCow.Shell
set_option autoImplicit true

structure Redir where
  file : Nat
  efile : Nat
  mode : Nat
  fd : Nat

def Cmd.redir (cmd : Cmd) (r : Redir) : Cmd := .redircmd cmd r.file r.efile r.mode r.fd

/-- How a redirection symbol opens its file, and as which descriptor. -/
inductive Opens : Char → Nat → Nat → Prop
  | input : Opens '<' O_RDONLY 0
  | output : Opens '>' (O_WRONLY ||| O_CREATE ||| O_TRUNC) 1
  | append : Opens '+' (O_WRONLY ||| O_CREATE) 1

/-- `redir*`, where `redir ::= ('<' | '>' | '>>') word`. -/
inductive Redirs : List Token → List Redir → Prop
  | nil : Redirs [] []
  | cons (ho : Opens op.ret mode fd) (hw : w.ret = 'a') (hr : Redirs ts rs) :
      Redirs (op :: w :: ts) (⟨w.q, w.eq, mode, fd⟩ :: rs)

/-- `(word redir*)*`. -/
inductive Args : List Token → List (Nat × Nat) → List Redir → Prop
  | nil : Args [] [] []
  | cons (hw : w.ret = 'a') (hr : Redirs ts rs) (ha : Args us args rs') :
      Args (w :: (ts ++ us)) ((w.q, w.eq) :: args) (rs ++ rs')

inductive Nonterminal where
  | line
  | pipe
  | exec

/-- The grammar of the shell, with the command that each derivation stands for. -/
inductive Derives : Nonterminal → List Token → Cmd → Prop
  | line (hp : Derives .pipe ts c) (hb : ∀ b ∈ bs, b.ret = '&') :
      Derives .line (ts ++ bs) (Cmd.backcmd^[bs.length] c)
  | list (hp : Derives .pipe ts c) (hb : ∀ b ∈ bs, b.ret = '&') (hsemi : semi.ret = ';')
      (hl : Derives .line us d) :
      Derives .line (ts ++ bs ++ semi :: us) (.listcmd (Cmd.backcmd^[bs.length] c) d)
  | exec (he : Derives .exec ts c) : Derives .pipe ts c
  | pipe (he : Derives .exec ts c) (hbar : bar.ret = '|') (hp : Derives .pipe us d) :
      Derives .pipe (ts ++ bar :: us) (.pipecmd c d)
  | block (ho : opn.ret = '(') (hl : Derives .line ts c) (hc : cls.ret = ')') (hr : Redirs us rs) :
      Derives .exec (opn :: (ts ++ cls :: us)) (rs.foldl Cmd.redir c)
  | simple (hr : Redirs ts rs) (ha : Args us args rs') (hn : args.length < MAXARGS) :
      Derives .exec (ts ++ us) ((rs ++ rs').foldl Cmd.redir (.execcmd args))

theorem Opens.redirect (ho : Opens tok mode fd) (cmd : Cmd) (q eq : Nat) :
    redirect tok cmd q eq = cmd.redir ⟨q, eq, mode, fd⟩ := by
  cases ho <;> rfl

theorem Opens.of_first {t : Token} (h : t.first ∈ ['<', '>']) : ∃ mode fd, Opens t.ret mode fd := by
  rw [Token.first] at h
  by_cases hp : t.ret = '+'
  · rw [hp]
    exact ⟨_, _, .append⟩
  · rw [if_neg hp] at h
    simp only [List.mem_cons, List.not_mem_nil, or_false] at h
    rcases h with h | h
    · rw [h]
      exact ⟨_, _, .input⟩
    · rw [h]
      exact ⟨_, _, .output⟩

theorem Opens.first {t : Token} (ho : Opens t.ret mode fd) : t.first ∈ ['<', '>'] := by
  rw [Token.first]
  generalize t.ret = tok at ho
  cases ho <;> decide

theorem Token.first_of_ret {t : Token} (h : t.ret = c) (hc : c ≠ '+') : t.first = c := by
  rw [Token.first, if_neg (by rwa [h]), h]

theorem Token.ret_of_first {t : Token} (h : t.first = c) (hc : c ≠ '>') : t.ret = c := by
  by_cases hp : t.ret = '+'
  · rw [Token.first, if_pos hp] at h
    exact absurd h.symm hc
  · rwa [Token.first, if_neg hp] at h

theorem headIn_true {toks : List Char} {ts : List Token} (h : headIn toks ts = true) :
    ∃ t us, ts = t :: us ∧ t.first ∈ toks := by
  cases ts with
  | nil => cases h
  | cons t us => exact ⟨t, us, rfl, by simpa [headIn] using h⟩

theorem headIn_single {ts : List Token} (h : headIn [c] ts = true) (hc : c ≠ '>') :
    ∃ t us, ts = t :: us ∧ t.ret = c := by
  obtain ⟨t, us, rfl, ht⟩ := headIn_true h
  exact ⟨t, us, rfl, Token.ret_of_first (List.mem_singleton.1 ht) hc⟩

theorem Cmd.arg_redirs (rs : List Redir) (c : Cmd) (q eq : Nat) :
    (rs.foldl Cmd.redir c).arg q eq = rs.foldl Cmd.redir (c.arg q eq) := by
  induction rs generalizing c with
  | nil => rfl
  | cons r rs ih => exact ih (c.redir r)

def Cmd.args (c : Cmd) (args : List (Nat × Nat)) : Cmd := args.foldl (fun c w => c.arg w.1 w.2) c

theorem Cmd.args_redirs (rs : List Redir) (c : Cmd) (args : List (Nat × Nat)) :
    (rs.foldl Cmd.redir c).args args = rs.foldl Cmd.redir (c.args args) := by
  induction args generalizing c with
  | nil => rfl
  | cons w args ih =>
    rw [Cmd.args, List.foldl_cons, Cmd.arg_redirs]
    exact ih (c.arg w.1 w.2)

theorem Cmd.args_execcmd (argv args : List (Nat × Nat)) :
    (Cmd.execcmd argv).args args = .execcmd (argv ++ args) := by
  induction args generalizing argv with
  | nil => rw [List.append_nil]; rfl
  | cons w args ih =>
    rw [List.append_cons]
    exact ih (argv ++ [(w.1, w.2)])

end PbsCow.Shell
