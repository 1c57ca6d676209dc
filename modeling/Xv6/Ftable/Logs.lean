import Xv6.Ftable.Calls

/-!
# The pages that calls on descriptors take and give back

`pipe` takes a page, and the last close of a pipe gives it back.  A call that returns -1 has given
back what it took.
-/

namespace Ftable
open Lib

/-- no page is taken, some may be given back, and no process comes or goes -/
structure Quiet (w w' : World) : Prop where
  state : w'.state = w.state
  allocs : w'.allocs = w.allocs
  frees : ∃ l, w'.frees = l ++ w.frees

section
variable {w w' w₁ : World} {f rf wf : Fin nfile} {p np : Fin nproc} {fd : Fin nofile} {pi : Nat}
  {r : Int}

theorem Quiet.same (hs : w'.state = w.state) (ha : w'.allocs = w.allocs) (hf : w'.frees = w.frees) :
    Quiet w w' := ⟨hs, ha, [], hf⟩

theorem Quiet.setFile (w : World) (f : Fin nfile) (x : File) : Quiet w (w.setFile f x) :=
  .same rfl rfl rfl

theorem Quiet.setFd (w : World) (p : Fin nproc) (fd : Fin nofile) (v : Option (Fin nfile)) :
    Quiet w (w.setFd p fd v) := .same rfl rfl rfl

theorem Quiet.trans (h : Quiet w w₁) (h' : Quiet w₁ w') : Quiet w w' := by
  obtain ⟨l, hl⟩ := h.frees
  obtain ⟨l', hl'⟩ := h'.frees
  refine ⟨h'.state.trans h.state, h'.allocs.trans h.allocs, l' ++ l, ?_⟩
  rw [hl', hl, List.append_assoc]

/-! ## files -/

theorem filealloc_cases (e : filealloc w = some (w', f)) :
    (w.ftable f).ref = 0 ∧ w' = w.setFile f { w.ftable f with ref := 1 } := by
  unfold filealloc at e
  obtain ⟨g, hg, e⟩ := Option.map_eq_some_iff.mp e
  obtain ⟨rfl, rfl⟩ := Prod.mk.inj e
  exact ⟨of_decide_eq_true (Fin.find?_eq_some_iff.mp hg).1, rfl⟩

theorem filedup_same (e : filedup w f = some w') :
    w'.state = w.state ∧ w'.allocs = w.allocs ∧ w'.frees = w.frees := by
  unfold filedup at e
  split at e
  · exact absurd e nofun
  · obtain rfl := Option.some.inj e
    exact ⟨rfl, rfl, rfl⟩

theorem pipeclose_quiet {b : Bool} (e : pipeclose w pi b = some w') : Quiet w w' := by
  unfold pipeclose at e
  split at e
  · exact absurd e nofun
  · dsimp only at e
    split at e
    · obtain rfl := Option.some.inj e
      exact ⟨rfl, rfl, [pi], rfl⟩
    · obtain rfl := Option.some.inj e
      exact .same rfl rfl rfl

theorem fileclose_quiet (e : fileclose w f = some w') : Quiet w w' := by
  unfold fileclose at e
  dsimp only at e
  split at e
  · exact absurd e nofun
  · split at e
    · obtain rfl := Option.some.inj e
      exact .same rfl rfl rfl
    · split at e
      · exact (Quiet.setFile w f _).trans (pipeclose_quiet e)
      · obtain rfl := Option.some.inj e
        exact .same rfl rfl rfl

theorem fileclose_plain (hf : (w.ftable f).type ≠ .pipe) (e : fileclose w f = some w') :
    ∃ x, w' = w.setFile f x := by
  unfold fileclose at e
  dsimp only at e
  rw [if_neg hf] at e
  split at e
  · exact absurd e nofun
  · split at e
    · exact ⟨_, (Option.some.inj e).symm⟩
    · exact ⟨_, (Option.some.inj e).symm⟩

theorem fileclose_end {b : Bool} (hr : (w.ftable f).ref = 1) (h : (w.ftable f).IsEnd pi b) :
    fileclose w f = pipeclose (w.setFile f { w.ftable f with ref := 0, type := .none }) pi b := by
  unfold fileclose
  dsimp only
  rw [hr, if_neg (by decide), if_neg (by decide), if_pos h.type, h.page, h.writes]

theorem fdalloc_quiet (e : fdalloc w p f = some (w', fd)) : Quiet w w' := by
  unfold fdalloc at e
  obtain ⟨t, -, e⟩ := Option.map_eq_some_iff.mp e
  obtain ⟨rfl, -⟩ := Prod.mk.inj e
  exact .same rfl rfl rfl

/-! ## `dup`, `close`, `open` -/

theorem sysDup_quiet {i : Int} (e : sysDup w p i = some (w', r)) : Quiet w w' := by
  unfold sysDup at e
  split at e
  · obtain ⟨rfl, -⟩ := Prod.mk.inj (Option.some.inj e)
    exact .same rfl rfl rfl
  · split at e
    · obtain ⟨rfl, -⟩ := Prod.mk.inj (Option.some.inj e)
      exact .same rfl rfl rfl
    · next hfd =>
      obtain ⟨u, hu, e⟩ := Option.map_eq_some_iff.mp e
      obtain ⟨rfl, -⟩ := Prod.mk.inj e
      obtain ⟨h1, h2, h3⟩ := filedup_same hu
      exact (fdalloc_quiet hfd).trans (.same h1 h2 h3)

theorem sysClose_quiet {i : Int} (e : sysClose w p i = some (w', r)) : Quiet w w' := by
  unfold sysClose at e
  split at e
  · obtain ⟨rfl, -⟩ := Prod.mk.inj (Option.some.inj e)
    exact .same rfl rfl rfl
  · obtain ⟨u, hu, e⟩ := Option.map_eq_some_iff.mp e
    obtain ⟨rfl, -⟩ := Prod.mk.inj e
    exact (Quiet.setFd w p _ none).trans (fileclose_quiet hu)

theorem sysOpen_quiet {omode : Nat} {node : Option Node}
    (e : sysOpen w p omode node = some (w', r)) : Quiet w w' := by
  have hsame : ∀ {u : World}, Quiet w u → some (u, (-1 : Int)) = some (w', r) → Quiet w w' := by
    intro u hu e
    obtain ⟨rfl, -⟩ := Prod.mk.inj (Option.some.inj e)
    exact hu
  cases node with
  | none => exact hsame (.same rfl rfl rfl) e
  | some ip =>
    unfold sysOpen at e
    dsimp only at e
    split at e
    · exact hsame (.same rfl rfl rfl) e
    · split at e
      · exact hsame (.same rfl rfl rfl) e
      · split at e
        · exact hsame (.same rfl rfl rfl) e
        · next w₁ f hf =>
          obtain ⟨-, rfl⟩ := filealloc_cases hf
          split at e
          · obtain ⟨u, hu, e⟩ := Option.map_eq_some_iff.mp e
            obtain ⟨rfl, -⟩ := Prod.mk.inj e
            exact (Quiet.setFile w f _).trans (fileclose_quiet hu)
          · next hfd =>
            obtain ⟨rfl, -⟩ := Prod.mk.inj (Option.some.inj e)
            exact ((Quiet.setFile w f _).trans (fdalloc_quiet hfd)).trans (Quiet.setFile _ f _)

/-! ## `pipe` -/

/-- both ends of the pipe in page `pi` are open, each with one reference -/
structure NewPipe (w : World) (rf wf : Fin nfile) (pi : Nat) : Prop where
  ne : rf ≠ wf
  read : (w.ftable rf).ref = 1 ∧ (w.ftable rf).IsEnd pi false
  write : (w.ftable wf).ref = 1 ∧ (w.ftable wf).IsEnd pi true
  page : w.pipes pi = some ⟨true, true⟩

theorem pipealloc_logs (hfree : ∀ f, (w.ftable f).ref = 0 → (w.ftable f).type = .none)
    {page : Option Nat} {o : Option (Fin nfile × Fin nfile)}
    (e : pipealloc w page = some (w', o)) :
    w'.state = w.state ∧ w'.frees = w.frees ∧ (o = none ∧ w'.allocs = w.allocs ∨
      ∃ rf wf pi, o = some (rf, wf) ∧ page = some pi ∧ w'.allocs = pi :: w.allocs ∧
        NewPipe w' rf wf pi) := by
  unfold pipealloc at e
  split at e
  · obtain ⟨rfl, rfl⟩ := Prod.mk.inj (Option.some.inj e)
    exact ⟨rfl, rfl, Or.inl ⟨rfl, rfl⟩⟩
  next f0 h0 =>
  obtain ⟨hr0, rfl⟩ := filealloc_cases h0
  -- an entry that was free is no pipe
  have hplain : ∀ g, (w.ftable g).ref = 0 → ∀ n, ({ w.ftable g with ref := n } : File).type ≠ .pipe :=
    fun g hg n => by
      show (w.ftable g).type ≠ .pipe
      rw [hfree g hg]
      nofun
  split at e
  · obtain ⟨u, hu, e⟩ := Option.map_eq_some_iff.mp e
    obtain ⟨rfl, rfl⟩ := Prod.mk.inj e
    obtain ⟨x, rfl⟩ := fileclose_plain (by rw [setFile_self]; exact hplain f0 hr0 1) hu
    exact ⟨rfl, rfl, Or.inl ⟨rfl, rfl⟩⟩
  next f1 h1 =>
  obtain ⟨hr1, rfl⟩ := filealloc_cases h1
  have hne : f1 ≠ f0 := by
    rintro rfl
    rw [setFile_self] at hr1
    exact absurd hr1 Nat.one_ne_zero
  rw [setFile_of_ne hne] at hr1 e
  split at e
  · obtain ⟨u, hu, e⟩ := Option.map_eq_some_iff.mp e
    obtain ⟨rfl, rfl⟩ := Prod.mk.inj e
    obtain ⟨v, hv, hu⟩ := Option.bind_eq_some_iff.mp hu
    obtain ⟨x, rfl⟩ := fileclose_plain (by
      rw [setFile_of_ne (Ne.symm hne), setFile_self]
      exact hplain f0 hr0 1) hv
    obtain ⟨y, rfl⟩ := fileclose_plain (by
      rw [setFile_of_ne hne, setFile_self]
      exact hplain f1 hr1 1) hu
    exact ⟨rfl, rfl, Or.inl ⟨rfl, rfl⟩⟩
  · next pi =>
    obtain ⟨rfl, rfl⟩ := Prod.mk.inj (Option.some.inj e)
    refine ⟨rfl, rfl, Or.inr ⟨f0, f1, pi, rfl, rfl, rfl, Ne.symm hne, ?_, ?_, ?_⟩⟩
    · rw [setFile_of_ne (Ne.symm hne), setFile_self]
      refine ⟨?_, rfl, rfl, rfl, rfl⟩
      show (((w.setFile f0 _).setFile f1 _).ftable f0).ref = 1
      rw [setFile_of_ne (Ne.symm hne), setFile_self]
    · rw [setFile_self]
      refine ⟨?_, rfl, rfl, rfl, rfl⟩
      rw [setFile_of_ne hne]
      show (((w.setFile f0 _).setFile f1 _).ftable f1).ref = 1
      rw [setFile_self]
    · exact Function.update_self ..

theorem NewPipe.close (h : NewPipe w rf wf pi)
    (e : (fileclose w rf).bind (fun w => fileclose w wf) = some w') :
    w'.state = w.state ∧ w'.allocs = w.allocs ∧ w'.frees = pi :: w.frees := by
  obtain ⟨hr, hrend⟩ := h.read
  obtain ⟨hw, hwend⟩ := h.write
  have h1 : ∃ u, fileclose w rf = some u ∧ u.ftable wf = w.ftable wf ∧
      u.pipes pi = some ⟨false, true⟩ ∧ u.state = w.state ∧ u.allocs = w.allocs ∧
      u.frees = w.frees := by
    rw [fileclose_end hr hrend]
    unfold pipeclose
    rw [show (w.setFile rf _).pipes pi = _ from h.page]
    exact ⟨_, rfl, setFile_of_ne (Ne.symm h.ne), Function.update_self .., rfl, rfl, rfl⟩
  obtain ⟨u, h1, hft, hpi, hs, ha, hf⟩ := h1
  rw [h1, Option.bind_some, fileclose_end (hft ▸ hw) (hft ▸ hwend)] at e
  unfold pipeclose at e
  rw [show (u.setFile wf _).pipes pi = _ from hpi] at e
  obtain rfl := Option.some.inj e
  exact ⟨hs, ha, congrArg (pi :: ·) hf⟩

theorem sysPipe_logs (hfree : ∀ f, (w.ftable f).ref = 0 → (w.ftable f).type = .none)
    {page : Option Nat} {out0 out1 : Bool} (e : sysPipe w p page out0 out1 = some (w', r)) :
    w'.state = w.state ∧ (r = -1 ∧ w'.allocs = w.allocs ∧ w'.frees = w.frees ∨
      ∃ pi, page = some pi ∧ w'.allocs = pi :: w.allocs ∧
        (r = -1 ∧ w'.frees = pi :: w.frees ∨ r = 0 ∧ w'.frees = w.frees)) := by
  unfold sysPipe at e
  split at e
  · exact absurd e nofun
  · next hp =>
    obtain ⟨hs, hf, ⟨-, ha⟩ | ⟨_, _, _, ho, -⟩⟩ := pipealloc_logs hfree hp
    · obtain ⟨rfl, rfl⟩ := Prod.mk.inj (Option.some.inj e)
      exact ⟨hs, Or.inl ⟨rfl, ha, hf⟩⟩
    · exact absurd ho nofun
  next u rf wf hp =>
  obtain ⟨hs, hf, ⟨ho, -⟩ | ⟨_, _, pi, ho, hpage, ha, hnew⟩⟩ := pipealloc_logs hfree hp
  · exact absurd ho nofun
  obtain ⟨rfl, rfl⟩ := Prod.mk.inj (Option.some.inj ho)
  -- a failure behind `pipealloc` closes both ends
  have hclose : ∀ {v : World}, ((fileclose v rf).bind (fun w => fileclose w wf)).map
      (fun w => (w, (-1 : Int))) = some (w', r) → NewPipe v rf wf pi → v.state = u.state →
      v.allocs = u.allocs → v.frees = u.frees →
      w'.state = w.state ∧ (r = -1 ∧ w'.allocs = w.allocs ∧ w'.frees = w.frees ∨
        ∃ pi, page = some pi ∧ w'.allocs = pi :: w.allocs ∧
          (r = -1 ∧ w'.frees = pi :: w.frees ∨ r = 0 ∧ w'.frees = w.frees)) := by
    intro v e hv h1 h2 h3
    obtain ⟨x, hx, e⟩ := Option.map_eq_some_iff.mp e
    obtain ⟨rfl, rfl⟩ := Prod.mk.inj e
    obtain ⟨h4, h5, h6⟩ := hv.close hx
    refine ⟨h4.trans (h1.trans hs), Or.inr ⟨pi, hpage, h5.trans (h2.trans ha), Or.inl ⟨rfl, ?_⟩⟩⟩
    rw [h6, h3, hf]
  split at e
  · exact hclose e hnew rfl rfl rfl
  next h0 =>
  obtain hn | ⟨fd0, -, e0⟩ := fdalloc_spec u p rf
  · exact absurd (hn.symm.trans h0) nofun
  obtain ⟨rfl, rfl⟩ := Prod.mk.inj (Option.some.inj (e0.symm.trans h0))
  split at e
  · exact hclose e ⟨hnew.ne, hnew.read, hnew.write, hnew.page⟩ rfl rfl rfl
  next h1 =>
  obtain hn | ⟨fd1, -, e1⟩ := fdalloc_spec (u.setFd p fd0 (some rf)) p wf
  · exact absurd (hn.symm.trans h1) nofun
  obtain ⟨rfl, rfl⟩ := Prod.mk.inj (Option.some.inj (e1.symm.trans h1))
  split at e
  · exact hclose e ⟨hnew.ne, hnew.read, hnew.write, hnew.page⟩ rfl rfl rfl
  · obtain ⟨rfl, rfl⟩ := Prod.mk.inj (Option.some.inj e)
    exact ⟨hs, Or.inr ⟨pi, hpage, ha, Or.inr ⟨rfl, hf⟩⟩⟩

/-! ## `fork`, `exit` -/

theorem copyFds_same {l : List (Fin nofile)} (e : copyFds p np w l = some w') :
    w'.state = w.state ∧ w'.allocs = w.allocs ∧ w'.frees = w.frees := by
  induction l generalizing w with
  | nil =>
    obtain rfl := Option.some.inj e
    exact ⟨rfl, rfl, rfl⟩
  | cons i l ih =>
    unfold copyFds at e
    split at e
    · exact ih e
    · obtain ⟨u, hu, e⟩ := Option.bind_eq_some_iff.mp e
      obtain ⟨h1, h2, h3⟩ := filedup_same hu
      obtain ⟨h4, h5, h6⟩ := ih e
      exact ⟨h4.trans h1, h5.trans h2, h6.trans h3⟩

theorem closeFds_quiet {l : List (Fin nofile)} (e : closeFds p w l = some w') : Quiet w w' := by
  induction l generalizing w with
  | nil =>
    obtain rfl := Option.some.inj e
    exact .same rfl rfl rfl
  | cons fd l ih =>
    unfold closeFds at e
    split at e
    · exact ih e
    · obtain ⟨u, hu, e⟩ := Option.bind_eq_some_iff.mp e
      have h1 := fileclose_quiet hu
      exact h1.trans ((Quiet.setFd u p fd none).trans (ih e))

theorem sysFork_logs {memory : Bool} (e : sysFork w p memory = some (w', r)) :
    w'.allocs = w.allocs ∧ w'.frees = w.frees ∧ (memory = false → w'.state = w.state) ∧
      ∀ np, memory = true → Fin.find? (fun q => decide (w.state q = .unused)) = some np →
        w'.state = Function.update w.state np .running := by
  unfold sysFork at e
  split at e
  · next hn =>
    obtain ⟨rfl, -⟩ := Prod.mk.inj (Option.some.inj e)
    exact ⟨rfl, rfl, fun _ => rfl, fun np _ hnp => absurd (hn.symm.trans hnp) nofun⟩
  · next np hnp =>
    dsimp only at e
    cases memory with
    | false =>
      obtain ⟨rfl, -⟩ := Prod.mk.inj (Option.some.inj e)
      exact ⟨rfl, rfl, fun _ => rfl, nofun⟩
    | true =>
      rw [if_neg nofun] at e
      obtain ⟨u, hu, e⟩ := Option.map_eq_some_iff.mp e
      obtain ⟨rfl, -⟩ := Prod.mk.inj e
      obtain ⟨h1, h2, h3⟩ := copyFds_same hu
      refine ⟨h2, h3, nofun, fun np' _ hnp' => ?_⟩
      obtain rfl := Option.some.inj (hnp.symm.trans hnp')
      exact congrArg (fun s => Function.update s np .running) h1

theorem sysExit_logs (e : sysExit w p = some w') :
    w'.allocs = w.allocs ∧ (∃ l, w'.frees = l ++ w.frees) ∧
      w'.state = Function.update w.state p .zombie := by
  unfold sysExit at e
  split at e
  · exact absurd e nofun
  · obtain ⟨u, hu, rfl⟩ := Option.map_eq_some_iff.mp e
    obtain ⟨h1, h2, h3⟩ := closeFds_quiet hu
    exact ⟨h2, h3, congrArg (fun s => Function.update s p .zombie) h1⟩

end

end Ftable
