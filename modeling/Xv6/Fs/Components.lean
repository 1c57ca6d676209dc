import Xv6.Fs.Dir
import Xv6.Lib.Runs

/-!
# The components of a path (`skipelem`, `namex`, `nameiparent`)

Each `skipelem` takes one maximal run of characters other than `'/'`, and what it leaves is empty
when no run is left.  So `namex` walks the list of the runs, for any path.
-/

namespace Fs
open Ulib Lib

/-- the components of a path: its runs of characters other than `'/'`, cut to `DIRSIZ` -/
def components (path : Str) : List Str := (runs '/' path).map (List.take dirsiz)

/-- where a path starts -/
def startOf (cwd : Nat) (path : Str) : Nat := if path.head? = some '/' then rootIno else cwd

/-- the directory that is reached by all components but the last, and the last one -/
def resolveParent (fs : Image) (ns : List Str) (d : Nat) : Option (Nat × Str) :=
  match ns.getLast? with
  | none => none
  | some name =>
    (resolve fs ns.dropLast d).bind (fun dp => (fs dp).map (fun _ => (dp, name)))

theorem skipelem_shorter {path rest name : Str} (h : skipelem path = some (rest, name)) :
    rest.length < path.length := by
  unfold skipelem at h
  dsimp only at h
  split at h
  · exact absurd h nofun
  · rename_i hne
    obtain ⟨rfl, -⟩ := Prod.mk.inj (Option.some.inj h)
    have h1 := (List.dropWhile_suffix (l := path) (· = '/')).length_le
    have h2 := (List.dropWhile_suffix (l := (path.dropWhile (· = '/')).dropWhile (· ≠ '/'))
      (· = '/')).length_le
    obtain ⟨c, s, hs⟩ := List.exists_cons_of_ne_nil hne
    have hc : c ≠ '/' := by
      intro hc
      have hnot := List.head_dropWhile_not (fun c : Char => decide (c = '/')) hne
      simp only [hs, List.head_cons] at hnot
      exact of_decide_eq_false hnot hc
    have h3 := (List.dropWhile_suffix (l := s) (· ≠ '/')).length_le
    rw [hs] at h1 h2 ⊢
    rw [List.dropWhile_cons_of_pos (by simpa using hc)] at h2 ⊢
    rw [List.length_cons] at h1
    omega

/-- `skipelem` until it returns 0: each element, and what it leaves -/
def elements (path : Str) : List (Str × Str) :=
  match h : skipelem path with
  | none => []
  | some (rest, name) => (name, rest) :: elements rest
termination_by path.length
decreasing_by exact skipelem_shorter h

section
variable {path rest name : Str} {fs : Image}

/-! ## one component -/

theorem skipelem_none (h : skipelem path = none) : components path = [] := by
  unfold skipelem at h
  dsimp only at h
  split at h
  · rename_i hnil
    unfold components
    rw [← runs_dropWhile, hnil, runs_nil]
    rfl
  · exact absurd h nofun

/-- `skipelem` takes the first component, and leaves nothing when it is the last -/
theorem skipelem_some (h : skipelem path = some (rest, name)) :
    components path = name :: components rest ∧ (rest = [] ↔ components rest = []) := by
  unfold skipelem at h
  dsimp only at h
  split at h
  · exact absurd h nofun
  · rename_i hne
    obtain ⟨hrest, hname⟩ := Prod.mk.inj (Option.some.inj h)
    obtain ⟨c, s, hs⟩ := List.exists_cons_of_ne_nil hne
    have hnot : ∀ t : Str, ∀ ht : t.dropWhile (· = '/') ≠ [],
        (t.dropWhile (· = '/')).head ht ≠ '/' := by
      intro t ht
      have hnot := List.head_dropWhile_not (fun c : Char => decide (c = '/')) ht
      exact of_decide_eq_false hnot
    have hc : c ≠ '/' := by
      have hnot := hnot path hne
      simp only [hs, List.head_cons] at hnot
      exact hnot
    constructor
    · unfold components
      rw [← runs_dropWhile path, hs, runs_cons_of_ne hc, List.map_cons, ← hrest, ← hname, hs,
        runs_dropWhile]
    · constructor
      · rintro rfl
        unfold components
        rw [runs_nil]
        rfl
      · intro hnil
        -- what is left does not start with a slash
        have hall := runs_eq_nil.mp (List.map_eq_nil_iff.mp hnil)
        subst hrest
        by_contra hno
        exact hnot _ hno (hall _ (List.head_mem hno))

/-! ## all components -/

theorem elements_none (h : skipelem path = none) : elements path = [] := by
  rw [elements]
  split
  · rfl
  · rename_i hs
    exact absurd (h.symm.trans hs) nofun

theorem elements_some (h : skipelem path = some (rest, name)) :
    elements path = (name, rest) :: elements rest := by
  rw [elements]
  split
  · rename_i hs
    exact absurd (h.symm.trans hs) nofun
  · rename_i hs
    obtain ⟨rfl, rfl⟩ := Prod.mk.inj (Option.some.inj (h.symm.trans hs))
    rfl

theorem elements_names (path : Str) : (elements path).map Prod.fst = components path := by
  induction hlen : path.length using Nat.strong_induction_on generalizing path with
  | _ n ih =>
    cases hs : skipelem path with
    | none =>
      rw [elements_none hs, skipelem_none hs]
      rfl
    | some r =>
      obtain ⟨rest, name⟩ := r
      rw [elements_some hs, (skipelem_some hs).1, List.map_cons,
        ih _ (hlen ▸ skipelem_shorter hs) rest rfl]

theorem elements_eq_nil : elements path = [] ↔ components path = [] := by
  rw [← elements_names, List.map_eq_nil_iff]

theorem elements_rest (path : Str) (i : Nat) (e : Str × Str) (h : (elements path)[i]? = some e) :
    e.2 = [] ↔ i + 1 = (elements path).length := by
  induction i generalizing path with
  | zero =>
    cases hs : skipelem path with
    | none =>
      rw [elements_none hs] at h
      exact absurd h nofun
    | some r =>
      obtain ⟨rest, name⟩ := r
      rw [elements_some hs] at h ⊢
      obtain rfl := Option.some.inj h
      show rest = [] ↔ _
      rw [(skipelem_some hs).2, ← elements_eq_nil, ← List.length_eq_zero_iff, List.length_cons]
      omega
  | succ i ih =>
    cases hs : skipelem path with
    | none =>
      rw [elements_none hs] at h
      exact absurd h nofun
    | some r =>
      obtain ⟨rest, name⟩ := r
      rw [elements_some hs] at h ⊢
      rw [ih rest h, List.length_cons]
      omega

/-! ## walking the components -/

theorem namexLoop_components {rounds : Nat} (hr : path.length < rounds) (d : Nat) (old : Str) :
    (namexLoop fs false rounds d path old).map Prod.fst = resolve fs (components path) d := by
  induction rounds generalizing path d old with
  | zero => exact absurd hr (Nat.not_lt_zero _)
  | succ rounds ih =>
    unfold namexLoop
    cases hs : skipelem path with
    | none =>
      rw [skipelem_none hs]
      rfl
    | some r =>
      obtain ⟨rest, name⟩ := r
      rw [(skipelem_some hs).1]
      unfold resolve
      dsimp only
      cases hd : fs d with
      | none => rfl
      | some es =>
        dsimp only
        rw [if_neg (by simp), Option.bind_some]
        cases hl : dirlookup es name with
        | none => rfl
        | some next =>
          have hlt := skipelem_shorter hs
          exact ih (by omega) next name

theorem resolveParent_cons {n : Str} {ns : List Str} (hne : ns ≠ []) (d : Nat) :
    resolveParent fs (n :: ns) d =
      ((fs d).bind (fun es => dirlookup es n)).bind (resolveParent fs ns) := by
  obtain ⟨m, ms, rfl⟩ := List.exists_cons_of_ne_nil hne
  unfold resolveParent
  rw [List.getLast?_cons_cons, List.dropLast_cons_cons]
  show (match (m :: ms).getLast? with
    | none => none
    | some name => (((fs d).bind (fun es => dirlookup es n)).bind
        (resolve fs (m :: ms).dropLast)).bind (fun dp => (fs dp).map (fun _ => (dp, name)))) = _
  cases (m :: ms).getLast? with
  | none =>
    dsimp only
    cases (fs d).bind (fun es => dirlookup es n) with
    | none => rfl
    | some next => rfl
  | some name =>
    dsimp only
    rw [Option.bind_assoc]

theorem namexLoop_parent {rounds : Nat} (hr : path.length < rounds) (d : Nat) (old : Str) :
    namexLoop fs true rounds d path old = resolveParent fs (components path) d := by
  induction rounds generalizing path d old with
  | zero => exact absurd hr (Nat.not_lt_zero _)
  | succ rounds ih =>
    unfold namexLoop
    cases hs : skipelem path with
    | none =>
      rw [skipelem_none hs]
      rfl
    | some r =>
      obtain ⟨rest, name⟩ := r
      obtain ⟨hcomp, hlast⟩ := skipelem_some hs
      rw [hcomp]
      dsimp only
      by_cases hrest : rest = []
      · rw [hlast.mp hrest]
        unfold resolveParent
        cases hd : fs d with
        | none => simp [resolve, hd]
        | some es => simp [resolve, hd, hrest]
      · rw [resolveParent_cons (fun e => hrest (hlast.mpr e))]
        cases hd : fs d with
        | none => rfl
        | some es =>
          dsimp only
          rw [if_neg (fun h => hrest h.2), Option.bind_some]
          cases hl : dirlookup es name with
          | none => rfl
          | some next =>
            have hlt := skipelem_shorter hs
            exact ih (by omega) next name

end

/-- a path is walked along its components, from the root or from the current directory -/
theorem namex_components (fs : Image) (cwd : Nat) (path : Str) :
    (elements path).map Prod.fst = components path ∧
    (∀ i e, (elements path)[i]? = some e → (e.2 = [] ↔ i + 1 = (elements path).length)) ∧
    namei fs cwd path = resolve fs (components path) (startOf cwd path) ∧
    namex fs cwd path true = resolveParent fs (components path) (startOf cwd path) := by
  refine ⟨elements_names path, elements_rest path, ?_, ?_⟩
  · exact namexLoop_components (Nat.lt_succ_self _) _ []
  · exact namexLoop_parent (Nat.lt_succ_self _) _ []

end Fs
