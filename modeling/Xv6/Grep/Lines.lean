import Xv6.Grep.Match

/-!
# The lines that `grep` prints

`grep` reads into what is left of a buffer of 1024 bytes, scans it for lines and moves the rest to
its start.  The reads may cut the input anywhere.  A line that does not fit makes the next `read`
one of 0 bytes, so nothing behind it is seen.
-/

namespace Grep
open Ulib (Str cstr)

/-! ## the model -/

/-- `sizeof(buf)` -/
def bufSize : Nat := 1024

/-- `read(fd, p, k)`: the reads deliver the input in pieces, of which one may be cut -/
def read (k : Nat) : List Str → Str × List Str
  | [] => ([], [])
  | s :: reads => if s.length ≤ k then (s, reads) else (s.take k, s.drop k :: reads)

/-- `strchr(p, c)`, as an index; a NUL stands behind the bytes of `p` -/
def strchr (p : Str) (c : Char) : Option Nat :=
  if c ∈ cstr p then some ((cstr p).idxOf c) else none

/-- the loop over the lines: what is written, and the bytes behind the last line; each round takes a
byte -/
def scan (re : Str) : Nat → Str → Str × Str
  | 0, p => ([], p)
  | n + 1, p =>
    match strchr p '\n' with
    | none => ([], p)
    | some q =>
      let r := scan re n (p.drop (q + 1))
      (if match' re (p.take q) then p.take (q + 1) ++ r.1 else r.1, r.2)

/-- the loop of `grep` with the bytes `held` in the buffer; each round reads a byte -/
def grepLoop (re : Str) : Nat → Str → List Str → Option Str
  | 0, _, _ => none
  | n + 1, held, reads =>
    let r := read (bufSize - held.length - 1) reads
    if r.1 = [] then some []
    else
      let buf := held ++ r.1
      let s := scan re buf.length buf
      (grepLoop re n s.2 r.2).map (s.1 ++ ·)

def grep (re : Str) (reads : List Str) : Option Str :=
  grepLoop re (reads.flatten.length + 1) [] reads

/-! ## lines -/

def unlines (ls : List Str) : Str := ls.flatMap (· ++ ['\n'])

def printed (re : Str) (ls : List Str) : Str := unlines (ls.filter (match' re))

section
variable {re s t held rest p : Str} {ls : List Str} {reads : List Str} {n k : Nat} {l : Str}

theorem unlines_cons : unlines (l :: ls) = l ++ '\n' :: unlines ls := by
  unfold unlines
  rw [List.flatMap_cons, List.append_assoc]
  rfl

theorem unlines_append (ls ms : List Str) : unlines (ls ++ ms) = unlines ls ++ unlines ms :=
  List.flatMap_append ..

theorem printed_append (ls ms : List Str) :
    printed re (ls ++ ms) = printed re ls ++ printed re ms := by
  unfold printed
  rw [List.filter_append, unlines_append]

theorem printed_cons : printed re (l :: ls) =
    (if match' re l then l ++ ['\n'] else []) ++ printed re ls := by
  unfold printed
  rw [List.filter_cons]
  split
  · rw [unlines_cons, List.append_assoc]
    rfl
  · rfl

/-- the lines that end in the first part of a text -/
theorem split_lines (ht : '\n' ∉ t) (hls : ∀ l ∈ ls, '\n' ∉ l) (h : p ++ rest = unlines ls ++ t) :
    ∃ ls₁ ls₂ u, ls = ls₁ ++ ls₂ ∧ p = unlines ls₁ ++ u ∧ '\n' ∉ u ∧
      u ++ rest = unlines ls₂ ++ t := by
  induction ls generalizing p with
  | nil =>
    refine ⟨[], [], p, rfl, rfl, fun hp => ht ?_, h⟩
    have h' : p ++ rest = t := h
    rw [← h']
    exact List.mem_append_left _ hp
  | cons l ls ih =>
    rw [unlines_cons, List.append_assoc, List.cons_append] at h
    obtain ⟨m, hl, hrest⟩ | ⟨m, hp, hrest⟩ := List.append_eq_append_iff.mp h
    · refine ⟨[], l :: ls, p, rfl, rfl, fun hmem => hls l List.mem_cons_self ?_, ?_⟩
      · rw [hl]
        exact List.mem_append_left _ hmem
      · rw [unlines_cons, List.append_assoc, List.cons_append]
        exact h
    · cases m with
      | nil =>
        rw [List.append_nil] at hp
        refine ⟨[], l :: ls, p, rfl, rfl, hp ▸ hls l List.mem_cons_self, ?_⟩
        rw [unlines_cons, List.append_assoc, List.cons_append]
        exact h
      | cons c m =>
        obtain ⟨rfl, htail⟩ := List.cons.inj hrest
        obtain ⟨ls₁, ls₂, u, rfl, rfl, hu, heq⟩ :=
          ih (fun l hl => hls l (List.mem_cons_of_mem _ hl)) htail.symm
        refine ⟨l :: ls₁, ls₂, u, rfl, ?_, hu, heq⟩
        rw [hp, unlines_cons, List.append_assoc, List.cons_append]

/-! ## one buffer -/

theorem strchr_none (h : '\n' ∉ p) : strchr p '\n' = none := by
  refine if_neg (fun hmem => h ?_)
  exact (List.takeWhile_sublist _).subset hmem

theorem strchr_line (hl : '\n' ∉ l) (hnul : '\x00' ∉ l) :
    strchr (l ++ '\n' :: s) '\n' = some l.length := by
  have hcstr : cstr (l ++ '\n' :: s) = l ++ '\n' :: cstr s := by
    unfold cstr
    rw [List.takeWhile_append_of_pos]
    · rfl
    · intro c hc
      simpa using fun e : c = '\x00' => hnul (e ▸ hc)
  have hmem : '\n' ∈ cstr (l ++ '\n' :: s) := by
    rw [hcstr]
    exact List.mem_append_right _ List.mem_cons_self
  unfold strchr
  rw [if_pos hmem, hcstr, List.idxOf_append_of_notMem hl, List.idxOf_cons_self, Nat.add_zero]

theorem scan_eq (hls : ∀ l ∈ ls, '\n' ∉ l) (ht : '\n' ∉ t) (hnul : '\x00' ∉ unlines ls)
    (hn : (unlines ls).length ≤ n) : scan re n (unlines ls ++ t) = (printed re ls, t) := by
  induction ls generalizing n with
  | nil =>
    show scan re n t = ([], t)
    cases n with
    | zero => rfl
    | succ n =>
      unfold scan
      rw [strchr_none ht]
  | cons l ls ih =>
    rw [unlines_cons] at hnul hn ⊢
    rw [List.length_append, List.length_cons] at hn
    obtain ⟨n, rfl⟩ : ∃ m, n = m + 1 := ⟨n - 1, by omega⟩
    have hnul_l : '\x00' ∉ l := fun h => hnul (List.mem_append_left _ h)
    have hnul_ls : '\x00' ∉ unlines ls :=
      fun h => hnul (List.mem_append_right _ (List.mem_cons_of_mem _ h))
    have hrest := ih (fun l hl => hls l (List.mem_cons_of_mem _ hl)) hnul_ls
      (show (unlines ls).length ≤ n by omega)
    rw [List.append_assoc, List.cons_append, printed_cons]
    unfold scan
    rw [strchr_line (hls l List.mem_cons_self) hnul_l]
    dsimp only
    have hline : (l ++ '\n' :: (unlines ls ++ t)).take (l.length + 1) = l ++ ['\n'] := by
      rw [List.take_length_add_append]
      rfl
    have hbehind : (l ++ '\n' :: (unlines ls ++ t)).drop (l.length + 1) = unlines ls ++ t := by
      rw [List.drop_length_add_append]
      rfl
    rw [List.take_left, hline, hbehind, hrest]
    split
    · rfl
    · rfl

/-! ## the whole input -/

theorem read_cons : read k (s :: reads) =
    if s.length ≤ k then (s, reads) else (s.take k, s.drop k :: reads) := rfl

theorem read_append (k : Nat) (reads : List Str) :
    (read k reads).1 ++ (read k reads).2.flatten = reads.flatten := by
  cases reads with
  | nil => rfl
  | cons s reads =>
    rw [read_cons]
    split
    · rfl
    · rw [List.flatten_cons, List.flatten_cons, ← List.append_assoc, List.take_append_drop]

theorem read_length (k : Nat) (reads : List Str) : (read k reads).1.length ≤ k := by
  cases reads with
  | nil => exact Nat.zero_le k
  | cons s reads =>
    rw [read_cons]
    split
    · assumption
    · exact List.length_take_le ..

theorem read_ne_nil (h : [] ∉ reads) : [] ∉ (read k reads).2 := by
  cases reads with
  | nil => exact h
  | cons s reads =>
    rw [read_cons]
    split
    · exact fun hm => h (List.mem_cons_of_mem _ hm)
    · rename_i hk
      intro hm
      obtain hd | hm := List.mem_cons.mp hm
      · have hlen := congrArg List.length hd
        rw [List.length_drop, List.length_nil] at hlen
        omega
      · exact h (List.mem_cons_of_mem _ hm)

theorem read_nil (h : [] ∉ reads) (hk : (read k reads).1 = []) : reads = [] ∨ k = 0 := by
  cases reads with
  | nil => exact .inl rfl
  | cons s reads =>
    have hs : s ≠ [] := fun e => h (e ▸ List.mem_cons_self)
    rw [read_cons] at hk
    split at hk
    · exact absurd hk hs
    · exact .inr ((List.take_eq_nil_iff.mp hk).resolve_right hs)

theorem length_le_line (hheld : '\n' ∉ held) (h : held ++ rest = l ++ '\n' :: s) :
    held.length ≤ l.length := by
  obtain ⟨m, hl, -⟩ | ⟨m, hp, hrest⟩ := List.append_eq_append_iff.mp h
  · rw [hl, List.length_append]
    exact Nat.le_add_right ..
  · cases m with
    | nil => rw [hp, List.append_nil]
    | cons c m =>
      obtain ⟨rfl, -⟩ := List.cons.inj hrest
      exact absurd (hp ▸ List.mem_append_right _ List.mem_cons_self) hheld

/-- the lines that fit into the buffer, up to the first that does not -/
def fitting (ls : List Str) : List Str := ls.takeWhile (fun l => l.length + 1 < bufSize)

theorem fitting_append {ls₁ ls₂ : List Str} (h : (unlines ls₁).length < bufSize) :
    fitting (ls₁ ++ ls₂) = ls₁ ++ fitting ls₂ := by
  refine List.takeWhile_append_of_pos (fun l hl => decide_eq_true ?_)
  have hmem : l ++ ['\n'] ∈ ls₁.map (· ++ ['\n']) := List.mem_map_of_mem hl
  have hsub : (l ++ ['\n']).length ≤ (unlines ls₁).length := by
    unfold unlines
    rw [List.flatMap_def]
    exact (List.sublist_flatten_of_mem hmem).length_le
  rw [List.length_append, List.length_singleton] at hsub
  omega

theorem grepLoop_eq (hls : ∀ l ∈ ls, '\n' ∉ l) (ht : '\n' ∉ t) (hheld : '\n' ∉ held)
    (hlen : held.length < bufSize) (hreads : [] ∉ reads) (hnul : '\x00' ∉ held ++ reads.flatten)
    (hstream : held ++ reads.flatten = unlines ls ++ t) (hn : reads.flatten.length < n) :
    grepLoop re n held reads = some (printed re (fitting ls)) := by
  induction n generalizing held reads ls with
  | zero => exact absurd hn (Nat.not_lt_zero _)
  | succ n ih =>
    unfold grepLoop
    dsimp only
    split
    · rename_i hnil
      -- no line ends in `held`, and the first one does not fit
      have hnone : fitting ls = [] := by
        cases ls with
        | nil => rfl
        | cons l ls =>
          rw [unlines_cons, List.append_assoc, List.cons_append] at hstream
          obtain rfl | hfull := read_nil hreads hnil
          · rw [List.flatten_nil, List.append_nil] at hstream
            exact absurd (hstream ▸ List.mem_append_right _ List.mem_cons_self) hheld
          · have hle := length_le_line hheld hstream
            exact List.takeWhile_cons_of_neg (by
              rw [decide_eq_true_eq]
              omega)
      rw [hnone]
      rfl
    · rename_i hne
      have happ := read_append (bufSize - held.length - 1) reads
      have hshort := read_length (bufSize - held.length - 1) reads
      have hmore := read_ne_nil (k := bufSize - held.length - 1) hreads
      generalize read (bufSize - held.length - 1) reads = r at happ hshort hmore hne
      rw [← happ, ← List.append_assoc] at hstream hnul
      obtain ⟨ls₁, ls₂, u, rfl, hbuf, hu, hrest⟩ := split_lines ht hls hstream
      have hlong : (held ++ r.1).length < bufSize := by
        rw [List.length_append]
        omega
      rw [hbuf] at hlong hnul ⊢
      rw [List.length_append] at hlong
      have hscan : scan re (unlines ls₁ ++ u).length (unlines ls₁ ++ u) = (printed re ls₁, u) := by
        refine scan_eq (fun l hl => hls l (List.mem_append_left _ hl)) hu (fun hm => hnul ?_) ?_
        · exact List.mem_append_left _ (List.mem_append_left _ hm)
        · rw [List.length_append]
          exact Nat.le_add_right ..
      have hpos := List.length_pos_iff.mpr hne
      rw [← happ, List.length_append] at hn
      have hih := ih (fun l hl => hls l (List.mem_append_right _ hl)) hu (by omega) hmore
        (fun hm => hnul (by
          rw [List.append_assoc]
          exact List.mem_append_right _ hm)) hrest (by omega)
      rw [hscan]
      dsimp only
      rw [hih, fitting_append (by omega), printed_append]
      rfl

/-- `grep` prints the lines that match, in order, up to the first line of 1023 bytes or more, and
however the reads cut the input -/
theorem grep_prints (hls : ∀ l ∈ ls, '\n' ∉ l) (ht : '\n' ∉ t) (hreads : [] ∉ reads)
    (hnul : '\x00' ∉ reads.flatten) (hstream : reads.flatten = unlines ls ++ t) :
    grep re reads = some (printed re (fitting ls)) :=
  grepLoop_eq hls ht List.not_mem_nil (by decide) hreads hnul hstream (Nat.lt_succ_self _)

/-- `ab` in three reads that cut the lines; the last line has no newline -/
theorem grep_prints_cut : grep ['a', 'b'] [['x', 'a'], ['b', '\n', 'b', 'a', '\n', 'a'], ['b']] =
    some ['x', 'a', 'b', '\n'] :=
  grep_prints (show ∀ l ∈ [['x', 'a', 'b'], ['b', 'a']], '\n' ∉ l by decide)
    (show '\n' ∉ ['a', 'b'] by decide) (by decide) (by decide) rfl

end

end Grep
