import Mathlib.Data.List.Induction
import Xv6.Kernel.Fd
import Xv6.Sh.Print

/-!
# What `runcmd` runs

`runcmd` works on the descriptor table of its process and on those of the children that it forks;
`meaning` only knows where the input of a command comes from and where its output goes.  The two
agree (`runcmd_meaning`): at its `exec` a process has its input at 0, its output at 1, and else what
the shell had, so that no descriptor of a pipe is left open anywhere.

The result of a call may depend on what else happens in the system: `Env` tells it for each call by
its number.  What a process does in `exec` and after it does not matter here, nor when it runs.
-/

namespace Sh
open Ulib (Str)
open Lib Kernel

/-- the results of the calls of `fork`, `pipe` and `open` -/
structure Env where
  fork : Nat → Bool
  pipe : Nat → Bool
  openFile : Nat → Str → Nat → Bool

/-- a process at its `exec` -/
structure Started where
  argv : List Str
  fds : Fds

/-! ## the model -/

def closed (t : Fds) (fd : Nat) : Fds :=
  if h : fd < nofile then (close t ⟨fd, h⟩).getD t else t

def dupped (t : Fds) (fd : Fin nofile) : Fds := ((dup t fd).map Prod.fst).getD t

/-- `close(fd); open(file, mode)` in call `k`; `none` is the exit -/
def reopen (env : Env) (k : Nat) (t : Fds) (file : Str) (mode fd : Nat) : Option Fds :=
  if env.openFile k file mode then (fdalloc (closed t fd) (.node file mode)).map Prod.fst else none

/-- a child of the pipeline: an end of the pipe in place of `target` -/
def pipeEnd (t : Fds) (target p p0 p1 : Fin nofile) : Fds :=
  closed (closed (dupped (closed t target) p) p0) p1

/-- the processes that reach an `exec`, and the number of the next call -/
def runcmd (env : Env) : Cmd Str → Nat → Fds → List Started × Nat
  | .exec argv, k, t => (if argv = [] then [] else [⟨argv, t⟩], k)
  | .redir cmd file mode fd, k, t =>
    match reopen env k t file mode fd with
    | none => ([], k + 1)
    | some t => runcmd env cmd (k + 1) t
  | .list left right, k, t =>
    if env.fork k then
      let l := runcmd env left (k + 1) t
      let r := runcmd env right l.2 t
      (l.1 ++ r.1, r.2)
    else ([], k + 1)
  | .pipe left right, k, t =>
    match (if env.pipe k then pipe t k else none) with
    | none => ([], k + 1)
    | some (t, p0, p1) =>
      if env.fork (k + 1) then
        let l := runcmd env left (k + 2) (pipeEnd t 1 p1 p0 p1)
        if env.fork l.2 then
          let r := runcmd env right (l.2 + 1) (pipeEnd t 0 p0 p0 p1)
          (l.1 ++ r.1, r.2)
        else (l.1, l.2 + 1)
      else ([], k + 2)
  | .back cmd, k, t => if env.fork k then runcmd env cmd (k + 1) t else ([], k + 1)

/-- what `main` does with a line that is not `cd` -/
def runLine (env : Env) (buf : Str) (t : Fds) : List Started :=
  match parse buf with
  | .ok cmd => (runcmd env cmd 0 t).1
  | .error _ => []

/-! ## the meaning -/

/-- a program with its standard input and output -/
structure Job where
  argv : List Str
  stdin : File
  stdout : File

def meaning (env : Env) : Cmd Str → Nat → File → File → List Job × Nat
  | .exec argv, k, inp, out => (if argv = [] then [] else [⟨argv, inp, out⟩], k)
  | .redir cmd file mode fd, k, inp, out =>
    if env.openFile k file mode then
      if fd = 0 then meaning env cmd (k + 1) (.node file mode) out
      else meaning env cmd (k + 1) inp (.node file mode)
    else ([], k + 1)
  | .list left right, k, inp, out =>
    if env.fork k then
      let l := meaning env left (k + 1) inp out
      let r := meaning env right l.2 inp out
      (l.1 ++ r.1, r.2)
    else ([], k + 1)
  | .pipe left right, k, inp, out =>
    if env.pipe k then
      if env.fork (k + 1) then
        let l := meaning env left (k + 2) inp (.writeEnd k)
        if env.fork l.2 then
          let r := meaning env right (l.2 + 1) (.readEnd k) out
          (l.1 ++ r.1, r.2)
        else (l.1, l.2 + 1)
      else ([], k + 2)
    else ([], k + 1)
  | .back cmd, k, inp, out =>
    if env.fork k then meaning env cmd (k + 1) inp out else ([], k + 1)

def wired (t : Fds) (inp out : File) : Fds :=
  Function.update (Function.update t 0 (some inp)) 1 (some out)

def Job.started (t : Fds) (j : Job) : Started := ⟨j.argv, wired t j.stdin j.stdout⟩

/-! ## they agree -/

section
variable {env : Env} {buf : Str} {c : Cmd Str} {k : Nat} {t : Fds} {inp out f : File} {file : Str}
  {mode : Nat} {fd p0 p1 : Fin nofile}

theorem closed_open (h : t fd ≠ none) : closed t fd = t.release fd := by
  unfold closed
  rw [dif_pos fd.isLt]
  show (close t fd).getD t = _
  rw [close_of_open h]
  rfl

theorem wired_self (h0 : t 0 = some inp) (h1 : t 1 = some out) : wired t inp out = t := by
  unfold wired
  rw [← h0, Function.update_eq_self, ← h1, Function.update_eq_self]

theorem wired_zero : wired t inp out 0 = some inp := by
  unfold wired
  rw [Function.update_of_ne (by decide), Function.update_self]

theorem wired_one : wired t inp out 1 = some out := Function.update_self ..

theorem free_wired (h0 : t 0 ≠ none) (h1 : t 1 ≠ none) : (wired t inp out).free = t.free := by
  unfold wired
  rw [Slots.free_update_taken (by rwa [Function.update_of_ne (by decide)]),
    Slots.free_update_taken h0]

theorem update_zero : Function.update (wired t inp out) 0 (some f) = wired t f out := by
  unfold wired
  rw [Function.update_comm (by decide), Function.update_idem]

theorem update_one : Function.update (wired t inp out) 1 (some f) = wired t inp f :=
  Function.update_idem ..

theorem wired_ne : ∀ j ≤ (1 : Fin nofile), wired t inp out j ≠ none := by
  intro j hj
  have hle : (j : Nat) ≤ 1 := hj
  by_cases h : (j : Nat) = 0
  · obtain rfl : j = 0 := Fin.ext h
    rw [wired_zero]
    exact Option.some_ne_none _
  · obtain rfl : j = 1 := Fin.ext (show (j : Nat) = 1 by omega)
    rw [wired_one]
    exact Option.some_ne_none _

/-- a file that is opened takes the place of the descriptor that was closed -/
theorem fdalloc_closed {T : Fds} (h : ∀ j ≤ fd, T j ≠ none) :
    fdalloc (closed T fd) f = some (Function.update T fd (some f), fd) := by
  have hlow : ∀ j < fd, T.release fd j ≠ none := by
    intro j hj
    rw [show T.release fd j = T j from Function.update_of_ne (ne_of_lt hj) _ _]
    exact h j hj.le
  have hnone : T.release fd fd = none := Function.update_self ..
  rw [closed_open (h fd le_rfl)]
  show Slots.alloc (T.release fd) f = _
  rw [Slots.alloc_of_lowest hnone hlow, Slots.update_release]

/-- the end of the pipe takes the place of the descriptor, and its own descriptors are closed -/
theorem pipeEnd_eq {T : Fds} {target p : Fin nofile} {a b : File} (h : ∀ j ≤ target, T j ≠ none)
    (h0 : T p0 = none) (h1 : T p1 = none) (hne : p0 ≠ p1) (hp : p = p0 ∧ f = a ∨ p = p1 ∧ f = b) :
    pipeEnd (Function.update (Function.update T p0 (some a)) p1 (some b)) target p p0 p1 =
      Function.update T target (some f) := by
  set T' := Function.update (Function.update T p0 (some a)) p1 (some b) with hT'
  have hfree : ∀ q, T q = none → ∀ j ≤ target, j ≠ q := fun q hq j hj e => h j hj (e ▸ hq)
  have hsame : ∀ j ≤ target, T' j = T j := by
    intro j hj
    rw [hT', Function.update_of_ne (hfree p1 h1 j hj), Function.update_of_ne (hfree p0 h0 j hj)]
  have hf : T' p = some f := by
    obtain ⟨rfl, rfl⟩ | ⟨rfl, rfl⟩ := hp
    · rw [hT', Function.update_of_ne hne, Function.update_self]
    · exact Function.update_self ..
  have hpt : p ≠ target := by
    obtain ⟨rfl, -⟩ | ⟨rfl, -⟩ := hp
    · exact (hfree _ h0 _ le_rfl).symm
    · exact (hfree _ h1 _ le_rfl).symm
  have hdup : dupped (closed T' target) p = Function.update T' target (some f) := by
    rw [closed_open (by rw [hsame _ le_rfl]; exact h _ le_rfl)]
    unfold dupped
    rw [dup_release hf hpt fun j hj => by rw [hsame j hj.le]; exact h j hj.le]
    rfl
  have hopen0 : Function.update T' target (some f) p0 ≠ none := by
    rw [Function.update_of_ne (hfree _ h0 _ le_rfl).symm, hT', Function.update_of_ne hne,
      Function.update_self]
    exact Option.some_ne_none _
  have hopen1 : (Slots.release (Function.update T' target (some f)) p0) p1 ≠ none := by
    rw [show (Slots.release (Function.update T' target (some f)) p0) p1 =
      Function.update T' target (some f) p1 from Function.update_of_ne hne.symm _ _,
      Function.update_of_ne (hfree _ h1 _ le_rfl).symm, hT', Function.update_self]
    exact Option.some_ne_none _
  unfold pipeEnd
  rw [hdup, closed_open hopen0, closed_open hopen1]
  funext j
  unfold Slots.release
  by_cases hj1 : j = p1
  · subst hj1
    rw [Function.update_self, Function.update_of_ne (hfree _ h1 _ le_rfl).symm, h1]
  · rw [Function.update_of_ne hj1]
    by_cases hj0 : j = p0
    · subst hj0
      rw [Function.update_self, Function.update_of_ne (hfree _ h0 _ le_rfl).symm, h0]
    · rw [Function.update_of_ne hj0]
      by_cases hj : j = target
      · subst hj
        rw [Function.update_self, Function.update_self]
      · rw [Function.update_of_ne hj, Function.update_of_ne hj, hT', Function.update_of_ne hj1,
          Function.update_of_ne hj0]

theorem reopen_wired {op : Op} : reopen env k (wired t inp out) file op.mode op.fd =
    if env.openFile k file op.mode then
      if op.fd = 0 then some (wired t (.node file op.mode) out)
      else some (wired t inp (.node file op.mode))
    else none := by
  have hfd : op.fd = 0 ∨ op.fd = 1 := by cases op <;> decide
  unfold reopen
  split
  · obtain h | h := hfd
    · rw [h, if_pos rfl]
      show (fdalloc (closed _ (0 : Fin nofile)) _).map Prod.fst = _
      rw [fdalloc_closed fun j hj => wired_ne j (hj.trans (Fin.zero_le _)), update_zero]
      rfl
    · rw [h, if_neg (by decide)]
      show (fdalloc (closed _ (1 : Fin nofile)) _).map Prod.fst = _
      rw [fdalloc_closed wired_ne, update_one]
      rfl
  · rfl

/-- what `runcmd` starts is what the command means, on the table of the shell -/
theorem runcmd_wired (hc : c.Shaped) (h0 : t 0 ≠ none) (h1 : t 1 ≠ none) (hfree : 2 ≤ t.free) :
    runcmd env c k (wired t inp out) =
      ((meaning env c k inp out).1.map (Job.started t), (meaning env c k inp out).2) := by
  induction c generalizing k inp out with
  | exec argv =>
    unfold runcmd meaning
    split <;> rfl
  | redir c file mode fd ih =>
    obtain ⟨hc, op, rfl, rfl⟩ := hc
    unfold runcmd meaning
    rw [reopen_wired]
    by_cases hopen : env.openFile k file op.mode = true
    · rw [if_pos hopen, if_pos hopen]
      by_cases hfd : op.fd = 0
      · rw [if_pos hfd, if_pos hfd]
        exact ih hc
      · rw [if_neg hfd, if_neg hfd]
        exact ih hc
    · rw [if_neg hopen, if_neg hopen]
      rfl
  | pipe c d ih ih' =>
    have hroom : 2 ≤ (wired t inp out).free := by rwa [free_wired h0 h1]
    obtain ⟨⟨T, p0, p1⟩, hp⟩ := Option.isSome_iff_exists.mp (pipe_isSome_iff (k := k).mpr hroom)
    obtain ⟨hp0, hp1, hne, rfl⟩ := pipe_spec hp
    unfold runcmd meaning
    by_cases hpipe : env.pipe k = true
    · rw [if_pos hpipe, if_pos hpipe, hp]
      dsimp only
      rw [pipeEnd_eq wired_ne hp0 hp1 hne (.inr ⟨rfl, rfl⟩),
        pipeEnd_eq (fun j hj => wired_ne j (hj.trans (Fin.zero_le _))) hp0 hp1 hne
          (.inl ⟨rfl, rfl⟩), update_zero, update_one]
      split
      · rw [ih hc.1]
        dsimp only
        split
        · rw [ih' hc.2, List.map_append]
        · rfl
      · rfl
    · rw [if_neg hpipe, if_neg hpipe]
      rfl
  | list c d ih ih' =>
    unfold runcmd meaning
    split
    · dsimp only
      rw [ih hc.1, ih' hc.2, List.map_append]
    · rfl
  | back c ih =>
    unfold runcmd meaning
    split
    · exact ih hc
    · rfl

/-- the programs of a line -/
def lineMeaning (env : Env) (buf : Str) (inp out : File) : List Job :=
  match parse buf with
  | .ok cmd => (meaning env cmd 0 inp out).1
  | .error _ => []

/-- with two descriptors to spare, a line of any depth runs as it says, and each of its programs has
the shell's descriptors but for its input and output -/
theorem runLine_meaning (h0 : t 0 = some inp) (h1 : t 1 = some out) (hfree : 2 ≤ t.free) :
    runLine env buf t = (lineMeaning env buf inp out).map (Job.started t) := by
  unfold runLine lineMeaning
  cases hp : parse buf with
  | error e => rfl
  | ok c =>
    dsimp only
    conv_lhs => rw [← wired_self h0 h1]
    rw [runcmd_wired (typed_of_parse hp).shaped (by rw [h0]; exact Option.some_ne_none _)
      (by rw [h1]; exact Option.some_ne_none _) hfree]

def console : Fds := fun fd => if fd < 3 then some (.inherited fd) else none

def willing : Env := ⟨fun _ => true, fun _ => true, fun _ _ _ => true⟩

theorem runLine_meaning_pipe : runLine willing ['a', '|', 'b', '\n'] console =
    [⟨[['a']], wired console (.inherited 0) (.writeEnd 0)⟩,
      ⟨[['b']], wired console (.readEnd 0) (.inherited 1)⟩] :=
  (runLine_meaning rfl rfl (by decide)).trans rfl

/-! ## the order of redirections -/

/-- the first of the redirections of `fd` -/
def firstTo (fd : Nat) (rs : List (Op × Str)) (f : File) : File :=
  match rs.find? (fun r => r.1.fd = fd) with
  | some r => .node r.2 r.1.mode
  | none => f

/-- the files can be opened, in calls `k`, `k + 1`, … -/
def opens (env : Env) : Nat → List (Op × Str) → Bool
  | _, [] => true
  | k, r :: rs => env.openFile k r.2 r.1.mode && opens env (k + 1) rs

theorem firstTo_append {rs : List (Op × Str)} {r : Op × Str} {fd : Nat} :
    firstTo fd (rs ++ [r]) f = firstTo fd rs (if r.1.fd = fd then .node r.2 r.1.mode else f) := by
  unfold firstTo
  rw [List.find?_append]
  cases rs.find? (fun r => decide (r.1.fd = fd)) with
  | some r' => rfl
  | none =>
    rw [Option.none_or, List.find?_singleton]
    by_cases h : r.1.fd = fd
    · rw [if_pos h, if_pos (decide_eq_true h)]
    · rw [if_neg h, if_neg (by simpa using h)]

/-- redirections are made from the last to the first, so that the first of a descriptor counts -/
theorem meaning_redirect {argv : List Str} {rs : List (Op × Str)} (hne : argv ≠ []) :
    (meaning env (redirect (.exec argv) rs) k inp out).1 =
      if opens env k rs.reverse then [⟨argv, firstTo 0 rs inp, firstTo 1 rs out⟩] else [] := by
  induction rs using List.reverseRecOn generalizing k inp out with
  | nil =>
    show (if argv = [] then _ else _) = _
    rw [if_neg hne]
    rfl
  | append_singleton rs r ih =>
    obtain ⟨op, file⟩ := r
    have hopens : opens env k (rs ++ [(op, file)]).reverse =
        (env.openFile k file op.mode && opens env (k + 1) rs.reverse) := by
      rw [List.reverse_append]
      rfl
    rw [redirect_append, hopens, firstTo_append, firstTo_append]
    show (meaning env (.redir (redirect (.exec argv) rs) file op.mode op.fd) k inp out).1 = _
    unfold meaning
    by_cases hopen : env.openFile k file op.mode = true
    · rw [if_pos hopen, hopen, Bool.true_and]
      cases op
      · exact ih
      · exact ih
      · exact ih
    · rw [if_neg hopen, (Bool.not_eq_true _).mp hopen, Bool.false_and]
      rfl

/-- of the redirections of one descriptor in a simple command the first counts, wherever they
stand; the files of all of them are opened, the last one first, and a file that cannot be opened
keeps the command from running -/
theorem first_redirection_counts {rs : List (Op × Str)} {as : List (Str × List (Op × Str))}
    (hs : Spells (redirLexemes rs ++ argLexemes as) (Ulib.cstr buf)) (hmax : as.length < maxargs)
    (hne : as ≠ []) (h0 : t 0 = some inp) (h1 : t 1 = some out) (hfree : 2 ≤ t.free) :
    runLine env buf t =
      if opens env 0 (rs ++ as.flatMap Prod.snd).reverse then
        [⟨as.map Prod.fst, wired t (firstTo 0 (rs ++ as.flatMap Prod.snd) inp)
          (firstTo 1 (rs ++ as.flatMap Prod.snd) out)⟩]
      else [] := by
  have hp : parse buf = .ok (simple rs as) := by
    refine ((parse_iff buf).1 _).mpr ⟨_, hs, ?_⟩
    exact (Parses.simple rs as hmax).up (Nat.zero_le _)
  have hargs : as.map Prod.fst ≠ [] := fun e => hne (List.map_eq_nil_iff.mp e)
  rw [runLine_meaning h0 h1 hfree]
  unfold lineMeaning
  rw [hp]
  show (meaning env (redirect _ _) 0 inp out).1.map _ = _
  rw [meaning_redirect hargs]
  split <;> rfl

/-- in `a>x >y` the output goes to `x` -/
theorem first_redirection_counts_two : runLine willing ['a', '>', 'x', ' ', '>', 'y'] console =
    [⟨[['a']], wired console (.inherited 0) (.node ['x'] truncating)⟩] := by
  have hword : ∀ (a : Char) (rest : Str), letter a = true →
      (∀ c, rest.head? = some c → letter c = false) → (Lexeme.word [a]).Ends rest :=
    fun a rest ha hr => ⟨List.cons_ne_nil _ _, List.forall_mem_singleton.mpr ha, hr⟩
  have hy : Spells [.word ['y']] ['y'] :=
    .cons gap_nil (hword 'y' [] rfl fun c e => by cases e) (.nil gap_nil)
  have hyy : Spells [.sym '>', .word ['y']] [' ', '>', 'y'] :=
    .cons (show Gap [' '] from List.forall_mem_singleton.mpr (by decide)) ⟨by decide, by decide⟩ hy
  have hx : Spells [.word ['x'], .sym '>', .word ['y']] ['x', ' ', '>', 'y'] :=
    .cons gap_nil (hword 'x' _ rfl fun c e => by cases e; rfl) hyy
  have hxx : Spells [.sym '>', .word ['x'], .sym '>', .word ['y']] ['>', 'x', ' ', '>', 'y'] :=
    .cons gap_nil ⟨by decide, by decide⟩ hx
  have ha : Spells (redirLexemes [] ++
      argLexemes [(['a'], [(Op.output, ['x']), (Op.output, ['y'])])])
      (Ulib.cstr ['a', '>', 'x', ' ', '>', 'y']) :=
    .cons gap_nil (hword 'a' _ rfl fun c e => by cases e; rfl) hxx
  exact first_redirection_counts ha (by decide) (by decide) rfl rfl (by decide)

/-! ## the ends of a pipe -/

/-- the two files are not the ends of one pipe, and are of pipes before `k` -/
structure Apart (k : Nat) (inp out : File) : Prop where
  read : ∀ i, inp = .readEnd i → i < k
  write : ∀ i, out = .writeEnd i → i < k
  apart : ∀ i, inp = .readEnd i → out ≠ .writeEnd i
  inp : ∀ i, inp ≠ .writeEnd i
  out : ∀ i, out ≠ .readEnd i

theorem Apart.mono {m : Nat} (h : Apart k inp out) (hle : k ≤ m) : Apart m inp out :=
  ⟨fun i e => (h.read i e).trans_le hle, fun i e => (h.write i e).trans_le hle, h.apart, h.inp,
    h.out⟩

theorem meaning_le (env : Env) (c : Cmd Str) (k : Nat) (inp out : File) :
    k ≤ (meaning env c k inp out).2 := by
  induction c generalizing k inp out with
  | exec argv => exact le_rfl
  | redir c file mode fd ih =>
    unfold meaning
    split
    · split
      · exact (Nat.le_succ k).trans (ih _ _ _)
      · exact (Nat.le_succ k).trans (ih _ _ _)
    · exact Nat.le_succ k
  | pipe c d ih ih' =>
    unfold meaning
    split
    · split
      · dsimp only
        have h1 := ih (k + 2) inp (.writeEnd k)
        split
        · have h2 := ih' ((meaning env c (k + 2) inp (.writeEnd k)).2 + 1) (.readEnd k) out
          omega
        · omega
      · exact (Nat.le_succ k).trans (Nat.le_succ _)
    · exact Nat.le_succ k
  | list c d ih ih' =>
    unfold meaning
    split
    · exact ((Nat.le_succ k).trans (ih _ _ _)).trans (ih' _ _ _)
    · exact Nat.le_succ k
  | back c ih =>
    unfold meaning
    split
    · exact (Nat.le_succ k).trans (ih _ _ _)
    · exact Nat.le_succ k

/-- the ends that a command starts with are apart, and so are those of its programs -/
theorem meaning_apart (h : Apart k inp out) :
    ∀ j ∈ (meaning env c k inp out).1, ∃ m, Apart m j.stdin j.stdout := by
  have hnil : ∀ j : Job, j ∈ [] → ∃ m, Apart m j.stdin j.stdout :=
    fun j hj => absurd hj List.not_mem_nil
  induction c generalizing k inp out with
  | exec argv =>
    unfold meaning
    dsimp only
    split
    · exact hnil
    · intro j hj
      rw [List.mem_singleton.mp hj]
      exact ⟨k, h⟩
  | redir c file mode fd ih =>
    have h' := h.mono (Nat.le_succ k)
    unfold meaning
    split
    · split
      · exact ih ⟨(fun i e => by cases e), h'.write, (fun i e => by cases e),
          (fun i e => by cases e), h'.out⟩
      · exact ih ⟨h'.read, (fun i e => by cases e), (fun i _ e => by cases e), h'.inp,
          fun i e => by cases e⟩
    · exact hnil
  | pipe c d ih ih' =>
    have hk : k < (meaning env c (k + 2) inp (.writeEnd k)).2 :=
      Nat.lt_of_lt_of_le (by omega) (meaning_le env c (k + 2) inp _)
    have hl : Apart (k + 2) inp (.writeEnd k) := by
      refine ⟨fun i e => (h.read i e).trans (by omega), fun i e => ?_, fun i e e' => ?_, h.inp,
        fun i e => by cases e⟩
      · obtain rfl := File.writeEnd.inj e
        omega
      · obtain rfl := File.writeEnd.inj e'
        exact absurd (h.read _ e) (lt_irrefl _)
    have hr : Apart ((meaning env c (k + 2) inp (.writeEnd k)).2 + 1) (.readEnd k) out := by
      refine ⟨fun i e => ?_, fun i e => (h.write i e).trans (by omega), fun i e e' => ?_,
        (fun i e => by cases e), h.out⟩
      · obtain rfl := File.readEnd.inj e
        omega
      · obtain rfl := File.readEnd.inj e
        exact absurd (h.write _ e') (lt_irrefl _)
    unfold meaning
    split
    · split
      · dsimp only
        split
        · exact List.forall_mem_append.mpr ⟨ih hl, ih' hr⟩
        · exact ih hl
      · exact hnil
    · exact hnil
  | list c d ih ih' =>
    have h' := h.mono (Nat.le_succ k)
    unfold meaning
    split
    · exact List.forall_mem_append.mpr ⟨ih h', ih' (h'.mono (meaning_le env c _ inp out))⟩
    · exact hnil
  | back c ih =>
    unfold meaning
    split
    · exact ih (h.mono (Nat.le_succ k))
    · exact hnil

/-- no program has both ends of a pipe of its line, so that one that reads to the end of its input
does not wait for itself -/
theorem ends_apart {p : Started} (hp : p ∈ runLine env buf t) (h0 : t 0 = some inp)
    (h1 : t 1 = some out) (hfree : 2 ≤ t.free) (hread : ∀ i, ¬ Holds t (.readEnd i))
    (hwrite : ∀ i, ¬ Holds t (.writeEnd i)) (i : Nat) :
    ¬ (Holds p.fds (.readEnd i) ∧ Holds p.fds (.writeEnd i)) := by
  rw [runLine_meaning h0 h1 hfree] at hp
  obtain ⟨j, hj, rfl⟩ := List.mem_map.mp hp
  have hstart : Apart 0 inp out :=
    ⟨fun i e => absurd ⟨0, e ▸ h0⟩ (hread i), fun i e => absurd ⟨1, e ▸ h1⟩ (hwrite i),
      fun i e _ => hread i ⟨0, e ▸ h0⟩, fun i e => hwrite i ⟨0, e ▸ h0⟩,
      fun i e => hread i ⟨1, e ▸ h1⟩⟩
  have hapart : ∃ m, Apart m j.stdin j.stdout := by
    unfold lineMeaning at hj
    cases hc : parse buf with
    | error e =>
      rw [hc] at hj
      cases hj
    | ok c =>
      rw [hc] at hj
      exact meaning_apart hstart j hj
  obtain ⟨m, hm⟩ := hapart
  have hends : ∀ {f : File}, ¬ Holds t f → Holds (wired t j.stdin j.stdout) f →
      j.stdin = f ∨ j.stdout = f := by
    rintro f hno ⟨fd, hf⟩
    obtain ⟨-, h⟩ | hf := Slots.update_eq_some hf
    · exact .inr h
    · obtain ⟨-, h⟩ | hf := Slots.update_eq_some hf
      · exact .inl h
      · exact absurd ⟨fd, hf⟩ hno
  rintro ⟨hr, hw⟩
  obtain hr | hr := hends (hread i) hr
  · obtain hw | hw := hends (hwrite i) hw
    · exact hm.inp i hw
    · exact hm.apart i hr hw
  · exact hm.out i hr

theorem ends_apart_pipe : (runLine willing ['a', '|', 'b'] console).length = 2 ∧
    ∀ p ∈ runLine willing ['a', '|', 'b'] console, ∀ i,
      ¬ (Holds p.fds (.readEnd i) ∧ Holds p.fds (.writeEnd i)) := by
  refine ⟨by rfl, fun p hp i => ?_⟩
  refine ends_apart hp rfl rfl (by decide) (fun i => ?_) (fun i => ?_) i
  · rintro ⟨fd, h⟩
    unfold console at h
    split at h <;> cases h
  · rintro ⟨fd, h⟩
    unfold console at h
    split at h <;> cases h

end

end Sh
