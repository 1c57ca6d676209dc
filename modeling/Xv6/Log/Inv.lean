import Xv6.Log.Model

/-!
# What the disk, the log and the cache hold in each phase

`Durable c C d`: recovery from the disk `d` gives the content `C`, whatever the machine was doing.
It is the one fact that a crash leaves.  Above it stand the facts of a running machine: `Filling`
(operations write to the cache, or the log is being filled), `Installing` (the header is on disk,
the blocks go home) and `Recovering` (the same after a reboot, with a cache that mirrors the disk).
-/

namespace Log

variable {c : Config} {C V : Disk} {s : Sys}

/-- the header of `d` names home blocks whose new content is in the log; all others are home -/
structure Durable (c : Config) (C d : Disk) : Prop where
  nodup : (headBlocks (d c.start)).Nodup
  home : ∀ b ∈ headBlocks (d c.start), ¬ c.IsLog b
  fits : (headBlocks (d c.start)).length < c.size
  logged : ∀ i b, (headBlocks (d c.start))[i]? = some b → d (c.start + i + 1) = C b
  rest : ∀ b, ¬ c.IsLog b → b ∉ headBlocks (d c.start) → d b = C b

/-- what buffers hold: `X` for home blocks, the disk for blocks of the log -/
structure Shows (c : Config) (X : Disk) (s : Sys) : Prop where
  home : ∀ b x, ¬ c.IsLog b → s.cache b = some x → x = X b
  log : ∀ b x, c.IsLog b → s.cache b = some x → x = s.disk b

/-- `b` has a buffer that cannot be recycled -/
def Pinned (s : Sys) (b : Nat) : Prop := s.pins b ≠ 0 ∧ s.cache b ≠ none

/-- before the header write: `C` is on disk, `V` is what the operations see -/
structure Filling (c : Config) (C V : Disk) (s : Sys) : Prop where
  clean : headBlocks (s.disk c.start) = []
  nodup : s.lh.Nodup
  home : ∀ b ∈ s.lh, ¬ c.IsLog b
  fits : s.lh.length < c.size
  same : ∀ b, ¬ c.IsLog b → b ∉ s.lh → V b = C b
  pinned : ∀ b ∈ s.lh, Pinned s b
  cache : Shows c V s

def Copied (c : Config) (V : Disk) (s : Sys) (tail : Nat) : Prop :=
  tail ≤ s.lh.length ∧ ∀ i b, i < tail → s.lh[i]? = some b → s.disk (c.start + i + 1) = V b

/-- the header is on disk, and the first `tail` blocks of its group are home -/
structure Installed (c : Config) (C : Disk) (s : Sys) (tail : Nat) : Prop where
  head : headBlocks (s.disk c.start) = s.lh
  le : tail ≤ s.lh.length
  done : ∀ i b, i < tail → s.lh[i]? = some b → s.disk b = C b

/-- after the header write of a commit -/
structure Installing (c : Config) (C : Disk) (s : Sys) (tail : Nat) : Prop
    extends Installed c C s tail where
  pinned : ∀ i b, tail ≤ i → s.lh[i]? = some b → Pinned s b
  cache : Shows c C s

/-- the loop of `recover_from_log` -/
structure Recovering (c : Config) (C : Disk) (s : Sys) (tail : Nat) : Prop
    extends Installed c C s tail where
  cache : Shows c s.disk s

/-! ## the header block -/

theorem headBlocks_length (hb : Block) : (headBlocks hb).length = hb 0 := by
  unfold headBlocks
  rw [List.length_map, List.length_range]

theorem headBlocks_eq_nil {hb : Block} : headBlocks hb = [] ↔ hb 0 = 0 := by
  rw [← List.length_eq_zero_iff, headBlocks_length]

@[simp] theorem headBlocks_putHead (hb : Block) (lh : List Nat) :
    headBlocks (putHead hb lh) = lh := by
  apply List.ext_getElem
  · rw [headBlocks_length]
    rfl
  · intro i h1 h2
    simp [headBlocks, putHead, h2]

theorem Config.isLog_start (c : Config) : c.IsLog c.start := by
  have := c.sizePos
  exact ⟨by omega, by omega⟩

theorem Config.isLog_add (c : Config) {i : Nat} (h : i + 1 < c.size) :
    c.IsLog (c.start + i + 1) := ⟨by omega, by omega⟩

theorem ne_of_isLog {a b : Nat} (ha : c.IsLog a) (hb : ¬ c.IsLog b) : a ≠ b :=
  fun e => hb (e ▸ ha)

/-! ## buffers -/

@[simp] theorem bread_disk (b : Nat) : (bread s b).disk = s.disk := rfl
@[simp] theorem bread_lh (b : Nat) : (bread s b).lh = s.lh := rfl
@[simp] theorem bread_pins (b : Nat) : (bread s b).pins = s.pins := rfl
@[simp] theorem bwrite_lh (b : Nat) (x : Block) : (bwrite s b x).lh = s.lh := rfl
@[simp] theorem bwrite_pins (b : Nat) (x : Block) : (bwrite s b x).pins = s.pins := rfl

theorem bwrite_disk (b : Nat) (x : Block) (a : Nat) :
    (bwrite s b x).disk a = if a = b then x else s.disk a := by
  show Function.update s.disk b x a = _
  rw [Function.update_apply]

theorem bwrite_cache (b : Nat) (x : Block) (a : Nat) :
    (bwrite s b x).cache a = if a = b then some x else s.cache a := by
  show Function.update s.cache b (some x) a = _
  rw [Function.update_apply]

theorem bread_cache (b a : Nat) :
    (bread s b).cache a = if a = b then some (s.cached b) else s.cache a := by
  show Function.update s.cache b (some (s.cached b)) a = _
  rw [Function.update_apply]

@[simp] theorem bread_cached (b a : Nat) : (bread s b).cached a = s.cached a := by
  unfold Sys.cached
  rw [bread_cache]
  by_cases e : a = b
  · rw [if_pos e, e]
    rfl
  · rw [if_neg e]
    rfl

theorem cached_eq {b : Nat} {y : Block} (hc : ∀ x, s.cache b = some x → x = y)
    (hd : s.cache b = none → s.disk b = y) : s.cached b = y := by
  unfold Sys.cached
  cases e : s.cache b with
  | none => exact hd e
  | some x => exact hc x e

/-! ## reading a block -/

theorem Shows.cached_log {X : Disk} (h : Shows c X s) {b : Nat} (hb : c.IsLog b) :
    s.cached b = s.disk b := cached_eq (fun x => h.log b x hb) (fun _ => rfl)

theorem Shows.cached_disk (h : Shows c s.disk s) (b : Nat) : s.cached b = s.disk b := by
  by_cases hb : c.IsLog b
  · exact h.cached_log hb
  · exact cached_eq (fun x => h.home b x hb) (fun _ => rfl)

theorem Shows.bread {X : Disk} (h : Shows c X s) {b : Nat} (hb : ¬ c.IsLog b → s.cached b = X b) :
    Shows c X (bread s b) := by
  refine ⟨fun a x ha e => ?_, fun a x ha e => ?_⟩
  · rw [bread_cache] at e
    by_cases hab : a = b
    · rw [if_pos hab] at e
      rw [← Option.some.inj e, hab, hb (hab ▸ ha)]
    · rw [if_neg hab] at e
      exact h.home a x ha e
  · rw [bread_cache] at e
    by_cases hab : a = b
    · rw [if_pos hab] at e
      rw [← Option.some.inj e, ← hab, h.cached_log ha]
      rfl
    · rw [if_neg hab] at e
      exact h.log a x ha e

theorem Pinned.bread {a : Nat} (h : Pinned s a) (b : Nat) : Pinned (bread s b) a := by
  refine ⟨h.1, ?_⟩
  rw [bread_cache]
  by_cases hab : a = b
  · rw [if_pos hab]
    exact Option.some_ne_none _
  · rw [if_neg hab]
    exact h.2

theorem Filling.cached_home (h : Filling c C V s) (hd : Durable c C s.disk) {b : Nat}
    (hb : ¬ c.IsLog b) : s.cached b = V b := by
  refine cached_eq (fun x => h.cache.home b x hb) (fun e => ?_)
  have hnot : b ∉ s.lh := fun hm => (h.pinned b hm).2 e
  rw [h.same b hb hnot]
  refine hd.rest b hb ?_
  rw [h.clean]
  exact List.not_mem_nil

theorem Filling.bread (h : Filling c C V s) (hd : Durable c C s.disk) (b : Nat) :
    Filling c C V (bread s b) :=
  { h with
    pinned := fun a ha => (h.pinned a ha).bread b
    cache := h.cache.bread (h.cached_home hd) }

theorem Installing.cached_home {tail : Nat} (h : Installing c C s tail)
    (hd : Durable c C s.disk) {b : Nat} (hb : ¬ c.IsLog b) : s.cached b = C b := by
  refine cached_eq (fun x => h.cache.home b x hb) (fun e => ?_)
  by_cases hm : b ∈ s.lh
  · obtain ⟨i, hi⟩ := List.mem_iff_getElem?.mp hm
    by_cases hlt : i < tail
    · exact h.done i b hlt hi
    · exact absurd e (h.pinned i b (by omega) hi).2
  · exact hd.rest b hb (h.head ▸ hm)

theorem Installing.bread {tail : Nat} (h : Installing c C s tail) (hd : Durable c C s.disk)
    (b : Nat) : Installing c C (bread s b) tail :=
  { h with
    pinned := fun i a hi ha => (h.pinned i a hi ha).bread b
    cache := h.cache.bread (h.cached_home hd) }

theorem Recovering.bread {tail : Nat} (h : Recovering c C s tail) (b : Nat) :
    Recovering c C (bread s b) tail :=
  { h with cache := h.cache.bread (fun _ => h.cache.cached_disk b) }

/-! ## recycling a buffer -/

theorem evict_cache (b a : Nat) : (evict s b).cache a = if a = b then none else s.cache a := by
  show Function.update s.cache b none a = _
  rw [Function.update_apply]

theorem Shows.evict {X : Disk} (h : Shows c X s) (b : Nat) : Shows c X (evict s b) := by
  have hsub : ∀ a x, (Log.evict s b).cache a = some x → s.cache a = some x := by
    intro a x e
    rw [evict_cache] at e
    by_cases hab : a = b
    · rw [if_pos hab] at e
      exact absurd e (by simp)
    · rwa [if_neg hab] at e
  exact ⟨fun a x ha e => h.home a x ha (hsub a x e), fun a x ha e => h.log a x ha (hsub a x e)⟩

theorem Pinned.evict {a b : Nat} (h : Pinned s a) (hb : s.pins b = 0) : Pinned (evict s b) a := by
  have hab : a ≠ b := fun e => h.1 (e ▸ hb)
  refine ⟨h.1, ?_⟩
  rw [evict_cache, if_neg hab]
  exact h.2

theorem Filling.evict {b : Nat} (h : Filling c C V s) (hb : s.pins b = 0) :
    Filling c C V (evict s b) :=
  { h with
    pinned := fun a ha => (h.pinned a ha).evict hb
    cache := h.cache.evict b }

theorem Installing.evict {tail b : Nat} (h : Installing c C s tail) (hb : s.pins b = 0) :
    Installing c C (evict s b) tail :=
  { h with
    pinned := fun i a hi ha => (h.pinned i a hi ha).evict hb
    cache := h.cache.evict b }

theorem Recovering.evict {tail : Nat} (h : Recovering c C s tail) (b : Nat) :
    Recovering c C (evict s b) tail :=
  { h with cache := h.cache.evict b }

/-! ## writing a block -/

theorem Shows.bwrite_log {X : Disk} (h : Shows c X s) {b : Nat} (hb : c.IsLog b) (y : Block) :
    Shows c X (bwrite s b y) := by
  refine ⟨fun a x ha e => ?_, fun a x ha e => ?_⟩
  · rw [bwrite_cache, if_neg (ne_of_isLog hb ha).symm] at e
    exact h.home a x ha e
  · rw [bwrite_cache] at e
    rw [bwrite_disk]
    by_cases hab : a = b
    · rw [if_pos hab] at e ⊢
      exact (Option.some.inj e).symm
    · rw [if_neg hab] at e ⊢
      exact h.log a x ha e

theorem Shows.bwrite_home {X : Disk} (h : Shows c X s) {b : Nat} (hb : ¬ c.IsLog b) {y : Block}
    (hy : y = X b) : Shows c X (bwrite s b y) := by
  refine ⟨fun a x ha e => ?_, fun a x ha e => ?_⟩
  · rw [bwrite_cache] at e
    by_cases hab : a = b
    · rw [if_pos hab] at e
      rw [← Option.some.inj e, hy, hab]
    · rw [if_neg hab] at e
      exact h.home a x ha e
  · have hab : a ≠ b := ne_of_isLog ha hb
    rw [bwrite_cache, if_neg hab] at e
    rw [bwrite_disk, if_neg hab]
    exact h.log a x ha e

theorem Shows.bwrite_disk (h : Shows c s.disk s) (b : Nat) (y : Block) :
    Shows c (bwrite s b y).disk (bwrite s b y) := by
  have key : ∀ a x, (Log.bwrite s b y).cache a = some x → x = (Log.bwrite s b y).disk a := by
    intro a x e
    rw [bwrite_cache] at e
    rw [Log.bwrite_disk]
    by_cases hab : a = b
    · rw [if_pos hab] at e ⊢
      exact (Option.some.inj e).symm
    · rw [if_neg hab] at e ⊢
      by_cases ha : c.IsLog a
      · exact h.log a x ha e
      · exact h.home a x ha e
  exact ⟨fun a x _ e => key a x e, fun a x _ e => key a x e⟩

theorem Pinned.bwrite {a : Nat} (h : Pinned s a) (b : Nat) (y : Block) : Pinned (bwrite s b y) a := by
  refine ⟨h.1, ?_⟩
  rw [bwrite_cache]
  by_cases hab : a = b
  · rw [if_pos hab]
    exact Option.some_ne_none _
  · rw [if_neg hab]
    exact h.2

end Log
