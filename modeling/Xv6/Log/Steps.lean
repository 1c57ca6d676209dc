import Xv6.Log.Inv
import Mathlib.Data.List.Nodup

/-!
# What each step of the log does to the invariant

One lemma for each piece of `log.c` that writes: an iteration of `write_log`, the two header
writes, an iteration of `install_trans` in a commit and in a recovery, and `log_write`.  From the
recovery ones follows `recoverFromLog_content`: a reboot that is left alone finds the content `C`.
-/

namespace Log

variable {c : Config} {C V : Disk} {s : Sys} {tail b : Nat}

/-! ## the disk -/

theorem Durable.update_log {d : Disk} (hd : Durable c C d) (hclean : headBlocks (d c.start) = [])
    (hb : c.IsLog b) (hne : b ≠ c.start) (x : Block) : Durable c C (Function.update d b x) := by
  have e : headBlocks (Function.update d b x c.start) = [] := by
    rw [Function.update_of_ne hne.symm]
    exact hclean
  refine ⟨?_, ?_, ?_, ?_, ?_⟩
  · rw [e]
    exact List.nodup_nil
  · rw [e]
    exact fun _ ha => absurd ha List.not_mem_nil
  · rw [e]
    exact c.sizePos
  · rw [e]
    exact fun _ _ ha => absurd ha (by simp)
  · intro a ha _
    rw [Function.update_of_ne (ne_of_isLog hb ha).symm]
    exact hd.rest a ha (by rw [hclean]; exact List.not_mem_nil)

theorem Durable.update_home {d : Disk} (hd : Durable c C d) (hb : ¬ c.IsLog b) {x : Block}
    (hx : x = C b) : Durable c C (Function.update d b x) := by
  have hstart : Function.update d b x c.start = d c.start :=
    Function.update_of_ne (ne_of_isLog c.isLog_start hb) _ _
  refine ⟨?_, ?_, ?_, ?_, ?_⟩
  · rw [hstart]
    exact hd.nodup
  · rw [hstart]
    exact hd.home
  · rw [hstart]
    exact hd.fits
  · intro i a ha
    rw [hstart] at ha
    have hlt : i < (headBlocks (d c.start)).length := (List.getElem?_eq_some_iff.mp ha).1
    have hfits := hd.fits
    have hne := ne_of_isLog (c.isLog_add (i := i) (by omega)) hb
    rw [Function.update_of_ne hne]
    exact hd.logged i a ha
  · intro a ha hm
    rw [hstart] at hm
    by_cases hab : a = b
    · rw [hab, Function.update_self]
      exact hx
    · rw [Function.update_of_ne hab]
      exact hd.rest a ha hm

theorem Durable.clear (hd : Durable c C s.disk) (hi : Installed c C s s.lh.length) (x : Block) :
    Durable c C (Function.update s.disk c.start (putHead x [])) := by
  have e : headBlocks (Function.update s.disk c.start (putHead x []) c.start) = [] := by
    rw [Function.update_self]
    exact headBlocks_putHead x []
  refine ⟨?_, ?_, ?_, ?_, ?_⟩
  · rw [e]
    exact List.nodup_nil
  · rw [e]
    exact fun _ ha => absurd ha List.not_mem_nil
  · rw [e]
    exact c.sizePos
  · rw [e]
    exact fun _ _ ha => absurd ha (by simp)
  · intro a ha _
    rw [Function.update_of_ne (ne_of_isLog c.isLog_start ha).symm]
    by_cases hm : a ∈ s.lh
    · obtain ⟨i, hia⟩ := List.mem_iff_getElem?.mp hm
      exact hi.done i a (List.getElem?_eq_some_iff.mp hia).1 hia
    · exact hd.rest a ha (by rw [hi.head]; exact hm)

/-- the header of a group whose content is in the log area -/
theorem Durable.commit (hf : Filling c C V s) (hd : Durable c C s.disk)
    (hc : Copied c V s s.lh.length) (x : Block) :
    Durable c V (Function.update s.disk c.start (putHead x s.lh)) := by
  have e : headBlocks (Function.update s.disk c.start (putHead x s.lh) c.start) = s.lh := by
    rw [Function.update_self]
    exact headBlocks_putHead x s.lh
  refine ⟨?_, ?_, ?_, ?_, ?_⟩
  · rw [e]
    exact hf.nodup
  · rw [e]
    exact hf.home
  · rw [e]
    exact hf.fits
  · rw [e]
    intro i a ha
    rw [Function.update_of_ne (by omega)]
    exact hc.2 i a (List.getElem?_eq_some_iff.mp ha).1 ha
  · rw [e]
    intro a ha hm
    rw [Function.update_of_ne (ne_of_isLog c.isLog_start ha).symm, hf.same a ha hm]
    exact hd.rest a ha (by rw [hf.clean]; exact List.not_mem_nil)

/-! ## `write_log` and the commit -/

theorem Filling.bwrite_log (hf : Filling c C V s) (hb : c.IsLog b) (hne : b ≠ c.start)
    (x : Block) : Filling c C V (bwrite s b x) := by
  refine { hf with clean := ?_, pinned := fun a ha => (hf.pinned a ha).bwrite b x,
                   cache := hf.cache.bwrite_log hb x }
  rw [bwrite_disk, if_neg hne.symm]
  exact hf.clean

theorem writeLogOne_inv (hf : Filling c C V s) (hd : Durable c C s.disk) (hc : Copied c V s tail)
    (hlt : tail < s.lh.length) : Filling c C V (writeLogOne c s tail) ∧
      Durable c C (writeLogOne c s tail).disk ∧ Copied c V (writeLogOne c s tail) (tail + 1) := by
  have hfits := hf.fits
  have hlog : c.IsLog (c.start + tail + 1) := c.isLog_add (by omega)
  have hne : c.start + tail + 1 ≠ c.start := by omega
  have hget : s.lh[tail]? = some (s.lh.getD tail 0) := by simp [hlt]
  have hhome : ¬ c.IsLog (s.lh.getD tail 0) := hf.home _ (List.mem_of_getElem? hget)
  -- both buffers are read, then the log block is filled with what the operations see
  have hf2 := (hf.bread hd (c.start + tail + 1)).bread hd (s.lh.getD tail 0)
  have hx := hf2.cached_home hd hhome
  refine ⟨hf2.bwrite_log hlog hne _, hd.update_log hf.clean hlog hne _, hlt, ?_⟩
  intro i a hi ha
  show (bwrite _ (c.start + tail + 1) _).disk (c.start + i + 1) = V a
  rw [bwrite_disk]
  by_cases e : i = tail
  · rw [if_pos (by rw [e]), hx]
    rw [e] at ha
    rw [Option.some.inj (ha.symm.trans hget)]
  · rw [if_neg (by omega)]
    exact hc.2 i a (by omega) ha

theorem commit_inv (hf : Filling c C V s) (hd : Durable c C s.disk)
    (hc : Copied c V s s.lh.length) :
    Installing c V (writeHead c s) 0 ∧ Durable c V (writeHead c s).disk := by
  have hf1 := hf.bread hd c.start
  refine ⟨⟨⟨?_, Nat.zero_le _, fun i _ hi _ => absurd hi (Nat.not_lt_zero i)⟩, ?_, ?_⟩,
    Durable.commit hf hd hc _⟩
  · show headBlocks ((bwrite _ c.start _).disk c.start) = s.lh
    rw [bwrite_disk, if_pos rfl]
    exact headBlocks_putHead _ s.lh
  · intro i a _ ha
    exact (hf1.pinned a (List.mem_of_getElem? ha)).bwrite _ _
  · exact hf1.cache.bwrite_log c.isLog_start _

/-! ## `install_trans` -/

theorem Installed.bwrite (hi : Installed c C s tail) (hb : s.lh[tail]? = some b)
    (hhome : ¬ c.IsLog b) {x : Block} (hx : x = C b) :
    Installed c C (bwrite s b x) (tail + 1) := by
  refine ⟨?_, (List.getElem?_eq_some_iff.mp hb).1, fun i a hia ha => ?_⟩
  · rw [bwrite_disk, if_neg (ne_of_isLog c.isLog_start hhome)]
    exact hi.head
  · rw [bwrite_disk]
    by_cases e : a = b
    · rw [if_pos e, e, hx]
    · rw [if_neg e]
      have hit : i ≠ tail := by
        intro h
        rw [h] at ha
        exact e (Option.some.inj (ha.symm.trans hb))
      exact hi.done i a (by omega) ha

/-- the log block that `install_trans` reads, and the home block that it writes -/
theorem Installed.target (hi : Installed c C s tail) (hd : Durable c C s.disk)
    (hlt : tail < s.lh.length) : s.lh[tail]? = some (s.lh.getD tail 0) ∧
      ¬ c.IsLog (s.lh.getD tail 0) ∧ c.IsLog (c.start + tail + 1) ∧
      s.disk (c.start + tail + 1) = C (s.lh.getD tail 0) := by
  have hget : s.lh[tail]? = some (s.lh.getD tail 0) := by simp [hlt]
  have hfits := hd.fits
  have hh := hi.head
  rw [hh] at hfits
  refine ⟨hget, hd.home _ (by rw [hh]; exact List.mem_of_getElem? hget),
    c.isLog_add (by omega), hd.logged tail _ (by rw [hh]; exact hget)⟩

theorem installOne_commit (hi : Installing c C s tail) (hd : Durable c C s.disk)
    (hlt : tail < s.lh.length) : Installing c C (installOne c false s tail) (tail + 1) ∧
      Durable c C (installOne c false s tail).disk := by
  obtain ⟨hget, hhome, hlog, hx⟩ := hi.toInstalled.target hd hlt
  have hi2 := (hi.bread hd (c.start + tail + 1)).bread hd (s.lh.getD tail 0)
  have hx2 := (hi2.cache.cached_log hlog).trans hx
  have hnodup : s.lh.Nodup := hi.head ▸ hd.nodup
  have hdone := hi2.toInstalled.bwrite hget hhome hx2
  have hshow := hi2.cache.bwrite_home hhome hx2
  refine ⟨⟨⟨hdone.head, hdone.le, hdone.done⟩, fun i a hia ha => ?_, ⟨hshow.home, hshow.log⟩⟩,
    hd.update_home hhome hx2⟩
  -- the block that loses its pin is not among those still to come
  have hp := (hi2.pinned i a (by omega) ha).bwrite (s.lh.getD tail 0)
    ((bread (bread s (c.start + tail + 1)) (s.lh.getD tail 0)).cached (c.start + tail + 1))
  have hne : a ≠ s.lh.getD tail 0 := by
    intro e
    have hit := List.nodup_iff_getElem?_ne_getElem?.mp hnodup tail i (by omega)
      (List.getElem?_eq_some_iff.mp ha).1
    exact hit (hget.trans (e ▸ ha.symm))
  refine ⟨?_, hp.2⟩
  show Function.update s.pins (s.lh.getD tail 0) _ a ≠ 0
  rw [Function.update_of_ne hne]
  exact hp.1

theorem installOne_recover (hi : Recovering c C s tail) (hd : Durable c C s.disk)
    (hlt : tail < s.lh.length) : Recovering c C (installOne c true s tail) (tail + 1) ∧
      Durable c C (installOne c true s tail).disk := by
  obtain ⟨hget, hhome, hlog, hx⟩ := hi.toInstalled.target hd hlt
  have hi2 := (hi.bread (c.start + tail + 1)).bread (s.lh.getD tail 0)
  have hx2 := (hi2.cache.cached_log hlog).trans hx
  exact ⟨⟨hi2.toInstalled.bwrite hget hhome hx2, hi2.cache.bwrite_disk _ _⟩,
    hd.update_home hhome hx2⟩

/-! ## the header is emptied -/

theorem Shows.clear {X : Disk} (h : Shows c X s) (lh : List Nat) :
    Shows c X (writeHead c { s with lh := lh }) := by
  have h1 : Shows c X ({ s with lh := lh } : Sys) := ⟨h.home, h.log⟩
  exact (h1.bread (fun hn => absurd c.isLog_start hn)).bwrite_log c.isLog_start _

theorem clear_filling (hd : Durable c C s.disk) (hi : Installed c C s s.lh.length)
    (hcache : Shows c C s) : Filling c C C (writeHead c { s with lh := [] }) ∧
      Durable c C (writeHead c { s with lh := [] }).disk := by
  refine ⟨?_, hd.clear hi _⟩
  refine ⟨?_, List.nodup_nil, fun _ ha => absurd ha List.not_mem_nil, c.sizePos,
    fun _ _ _ => rfl, fun _ ha => absurd ha List.not_mem_nil, hcache.clear []⟩
  show headBlocks ((bwrite _ c.start _).disk c.start) = []
  rw [bwrite_disk, if_pos rfl]
  exact headBlocks_putHead _ []

/-! ## recovery -/

theorem readHead_recovering (hcache : Shows c s.disk s) : Recovering c C (readHead c s) 0 := by
  have h1 := hcache.bread (b := c.start) (fun _ => hcache.cached_disk c.start)
  refine ⟨⟨?_, Nat.zero_le _, fun i _ hi _ => absurd hi (Nat.not_lt_zero i)⟩, h1.home, h1.log⟩
  exact congrArg headBlocks (Shows.cached_disk (s := bread s c.start) h1 c.start).symm

theorem boot_shows (c : Config) (d : Disk) : Shows c (boot d).disk (boot d) :=
  ⟨fun _ _ _ e => absurd e (by simp [boot]), fun _ _ _ e => absurd e (by simp [boot])⟩

theorem Recovering.shows (hi : Recovering c C s s.lh.length) (hd : Durable c C s.disk) :
    Shows c C s := by
  refine ⟨fun b x hb e => (hi.cache.home b x hb e).trans ?_, hi.cache.log⟩
  by_cases hm : b ∈ s.lh
  · obtain ⟨i, hib⟩ := List.mem_iff_getElem?.mp hm
    exact hi.done i b (List.getElem?_eq_some_iff.mp hib).1 hib
  · exact hd.rest b hb (by rw [hi.head]; exact hm)

@[simp] theorem installOne_lh (recovering : Bool) : (installOne c recovering s tail).lh = s.lh := by
  unfold installOne
  cases recovering with
  | false => rfl
  | true => rfl

theorem installTrans_recovering (hi : Recovering c C s 0) (hd : Durable c C s.disk) :
    Recovering c C (installTrans c true s) s.lh.length ∧
      (installTrans c true s).lh = s.lh ∧ Durable c C (installTrans c true s).disk := by
  have key : ∀ k ≤ s.lh.length,
      Recovering c C ((List.range k).foldl (installOne c true) s) k ∧
      ((List.range k).foldl (installOne c true) s).lh = s.lh ∧
      Durable c C ((List.range k).foldl (installOne c true) s).disk := by
    intro k
    induction k with
    | zero => exact fun _ => ⟨hi, rfl, hd⟩
    | succ k ih =>
      intro hk
      obtain ⟨h1, h2, h3⟩ := ih (by omega)
      rw [List.range_succ, List.foldl_append, List.foldl_cons, List.foldl_nil]
      obtain ⟨h4, h5⟩ := installOne_recover h1 h3 (by rw [h2]; omega)
      exact ⟨h4, (installOne_lh true).trans h2, h5⟩
  exact key s.lh.length (Nat.le_refl _)

/-- recovery from a disk that holds `C` puts `C` into the home blocks -/
theorem recoverFromLog_content {d : Disk} (hd : Durable c C d) (hb : ¬ c.IsLog b) :
    recoverFromLog c d b = C b := by
  have h1 := readHead_recovering (C := C) (boot_shows c d)
  obtain ⟨h2, h3, h4⟩ := installTrans_recovering h1 hd
  rw [← h3] at h2
  obtain ⟨h5, h6⟩ := clear_filling h4 h2.toInstalled (h2.shows h4)
  exact h6.rest b hb (by rw [h5.clean]; exact List.not_mem_nil)

/-! ## `log_write` -/

theorem logWrite_inv {s' : Sys} {x : Block} (hf : Filling c C V s) (hb : ¬ c.IsLog b)
    (hw : logWrite c s b x = some s') : Filling c C (Function.update V b x) s' ∧
      s'.disk = s.disk ∧ s'.outstanding = s.outstanding ∧ s'.committing = s.committing ∧
      s'.phase = s.phase ∧ 0 < s.outstanding := by
  unfold logWrite at hw
  by_cases hfull : s.lh.length ≥ logSize ∨ s.lh.length ≥ c.size - 1
  · rw [if_pos hfull] at hw
    exact absurd hw (by simp)
  rw [if_neg hfull] at hw
  by_cases hout : s.outstanding < 1
  · rw [if_pos hout] at hw
    exact absurd hw (by simp)
  rw [if_neg hout] at hw
  dsimp only at hw
  have hfits : s.lh.length + 1 < c.size := by omega
  -- the cache now shows the new content of `b`
  have hshow : ∀ s1 : Sys, s1.disk = s.disk → s1.cache = Function.update s.cache b (some x) →
      Shows c (Function.update V b x) s1 := by
    intro s1 ed ec
    refine ⟨fun a y ha e => ?_, fun a y ha e => ?_⟩
    · rw [ec] at e
      by_cases hab : a = b
      · rw [hab, Function.update_self] at e ⊢
        exact (Option.some.inj e).symm
      · rw [Function.update_of_ne hab] at e ⊢
        exact hf.cache.home a y ha e
    · rw [ec, Function.update_of_ne (ne_of_isLog ha hb)] at e
      rw [ed]
      exact hf.cache.log a y ha e
  have hcached : ∀ a, s.cache a ≠ none → Function.update s.cache b (some x) a ≠ none := by
    intro a ha
    by_cases hab : a = b
    · rw [hab, Function.update_self]
      exact Option.some_ne_none x
    · rwa [Function.update_of_ne hab]
  by_cases hm : b ∈ s.lh
  · -- absorbed
    rw [if_pos hm] at hw
    rw [← Option.some.inj hw]
    refine ⟨⟨hf.clean, hf.nodup, hf.home, hf.fits, fun a ha hn => ?_, fun a ha => ?_,
      hshow _ rfl rfl⟩, rfl, rfl, rfl, rfl, by omega⟩
    · have hab : a ≠ b := fun e => hn (e ▸ hm)
      rw [Function.update_of_ne hab]
      exact hf.same a ha hn
    · exact ⟨(hf.pinned a ha).1, hcached a (hf.pinned a ha).2⟩
  · rw [if_neg hm] at hw
    rw [← Option.some.inj hw]
    refine ⟨⟨hf.clean, ?_, fun a ha => ?_, ?_, fun a ha hn => ?_, fun a ha => ?_,
      hshow _ rfl rfl⟩, rfl, rfl, rfl, rfl, by omega⟩
    · exact List.nodup_append.mpr ⟨hf.nodup, List.nodup_singleton b, fun y hy z hz e =>
        hm (by rw [← List.mem_singleton.mp hz, ← e]; exact hy)⟩
    · rcases List.mem_append.mp ha with h1 | h1
      · exact hf.home a h1
      · rw [List.mem_singleton.mp h1]
        exact hb
    · show (s.lh ++ [b]).length < c.size
      simpa using hfits
    · have hn' : a ∉ s.lh ++ [b] := hn
      rw [List.mem_append, List.mem_singleton, not_or] at hn'
      rw [Function.update_of_ne hn'.2]
      exact hf.same a ha hn'.1
    · by_cases hab : a = b
      · rw [hab]
        refine ⟨?_, ?_⟩
        · show Function.update s.pins b (s.pins b + 1) b ≠ 0
          rw [Function.update_self]
          exact Nat.succ_ne_zero _
        · show Function.update s.cache b (some x) b ≠ none
          rw [Function.update_self]
          exact Option.some_ne_none x
      · have ha' : a ∈ s.lh := by
          rcases List.mem_append.mp ha with h1 | h1
          · exact h1
          · exact absurd (List.mem_singleton.mp h1) hab
        refine ⟨?_, hcached a (hf.pinned a ha').2⟩
        show Function.update s.pins b (s.pins b + 1) a ≠ 0
        rw [Function.update_of_ne hab]
        exact (hf.pinned a ha').1

end Log
