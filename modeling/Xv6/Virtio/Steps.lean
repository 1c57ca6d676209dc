import Xv6.Virtio.Inv

/-!
# Every step of the driver and of the device keeps the invariant

No step panics, and the device finds a request behind every descriptor that it is given.
-/

namespace Virtio
open Lib

section
variable {T B S : Type} {s : State T B S} {g : Ghost T} {b : B} {p : T} {i j k n : Nat}
  {write : Bool}

/-! ## the device -/

theorem avail_head (h : Inv s g) (hne : s.avail.nread ≠ s.avail.nwrite) :
    ∃ A, g.avail = s.avail.data (s.avail.nread % num) :: A := by
  cases hA : g.avail with
  | nil => exact absurd ((h.avail.empty_iff (by decide)).mpr hA) hne
  | cons a A =>
    have hav := h.avail
    rw [hA] at hav
    exact ⟨A, by rw [hav.head]⟩

theorem used_head (h : Inv s g) (hne : s.used.nread ≠ s.used.nwrite) :
    ∃ U, g.used = s.used.data (s.used.nread % num) :: U := by
  cases hU : g.used with
  | nil => exact absurd ((h.used.empty_iff (by decide)).mpr hU) hne
  | cons a U =>
    have hus := h.used
    rw [hU] at hus
    exact ⟨U, by rw [hus.head]⟩

theorem fetch_inv (h : Inv s g) (hne : s.avail.nread ≠ s.avail.nwrite) :
    ∃ A, Inv { s with
      fetched := s.avail.data (s.avail.nread % num) :: s.fetched
      avail := s.avail.pop half } ⟨g.own, A, g.used⟩ := by
  obtain ⟨A, hA⟩ := avail_head h hne
  refine ⟨A, ?_⟩
  have hperm : (A ++ s.avail.data (s.avail.nread % num) :: s.fetched ++ g.used).Perm
      (g.queue s) := by
    unfold Ghost.queue
    rw [hA]
    exact List.perm_middle.append_right g.used
  have hav := h.avail
  rw [hA] at hav
  refine ⟨h.own, h.free, fun t b i ht => ?_, h.alone, h.block, hav.pop (by decide), h.used,
    hperm.nodup_iff.mpr h.nodup, fun n => hperm.mem_iff.trans (h.queue n), h.status⟩
  obtain ⟨j, k, hc, hown⟩ := h.waits t b i ht
  exact ⟨j, k, hc.congr (fun _ _ => rfl) rfl rfl rfl, hown⟩

theorem Chained.request (h : Chained s b i j k) : request s i = some (s.ops i, b, i) := by
  unfold Virtio.request
  rw [h.head]
  dsimp only
  rw [h.body]
  dsimp only
  rw [h.tail]
  exact if_pos ⟨rfl, rfl, rfl, rfl, rfl, rfl, rfl, rfl, rfl⟩

theorem transfer_fields [DecidableEq B] (s : State T B S) (op : Op) (b : B) :
    ∃ F D, transfer s op b = { s with buf := F, sectors := D } ∧
      ∀ c, (F c).blockno = (s.buf c).blockno ∧ (F c).disk = (s.buf c).disk := by
  unfold transfer
  split
  · exact ⟨s.buf, _, rfl, fun c => ⟨rfl, rfl⟩⟩
  · refine ⟨_, s.sectors, rfl, fun c => ?_⟩
    by_cases hc : c = b
    · rw [hc, Function.update_self]
      exact ⟨rfl, rfl⟩
    · rw [Function.update_of_ne hc]
      exact ⟨rfl, rfl⟩

theorem complete_inv {F : B → Buf S} {D : Nat → S} (h : Inv s g) (hi : i ∈ s.fetched)
    (hF : ∀ c, (F c).blockno = (s.buf c).blockno ∧ (F c).disk = (s.buf c).disk) :
    Inv { s with
      buf := F
      sectors := D
      info := Function.update s.info i { s.info i with status := 0 }
      fetched := s.fetched.erase i
      used := s.used.push half num i } ⟨g.own, g.avail, g.used ++ [i]⟩ := by
  have hmove : (s.fetched.erase i ++ (g.used ++ [i])).Perm (s.fetched ++ g.used) := by
    refine ((List.perm_append_singleton i g.used).append_left _).trans ?_
    exact List.perm_middle.trans ((List.perm_cons_erase hi).symm.append_right g.used)
  have hperm : (g.avail ++ s.fetched.erase i ++ (g.used ++ [i])).Perm (g.queue s) := by
    unfold Ghost.queue
    rw [List.append_assoc, List.append_assoc]
    exact hmove.append_left g.avail
  have hmem : i ∈ g.queue s :=
    List.mem_append_left _ (List.mem_append_right _ hi)
  obtain ⟨q, c, hq, hdisk⟩ := (h.queue i).mp hmem
  -- the ring has room: `i` itself is not in it
  have hroom : g.used.length < num := by
    have hsub : (g.queue s) ⊆ List.range num :=
      fun n hn => List.mem_range.mpr (h.owned_of_queue hn).1
    have hle := (h.nodup.subperm hsub).length_le
    unfold Ghost.queue at hle
    rw [List.length_range, List.length_append, List.length_append] at hle
    have hpos := List.length_pos_of_mem hi
    omega
  refine ⟨h.own, h.free, fun t b m ht => ?_, h.alone, fun t b ht => ?_, h.avail,
    h.used.push (by decide) hroom i, hperm.nodup_iff.mpr h.nodup, fun n => ?_, fun t b m ht => ?_⟩
  · obtain ⟨j, k, hc, hown⟩ := h.waits t b m ht
    refine ⟨j, k, hc.congr (fun _ _ => rfl) rfl (hF b).1 ?_, hown⟩
    show (Function.update s.info i _ m).b = _
    by_cases hm : m = i
    · rw [hm, Function.update_self]
    · rw [Function.update_of_ne hm]
  · rw [(hF b).1]
    exact h.block t b ht
  · refine (hperm.mem_iff.trans (h.queue n)).trans ?_
    refine exists_congr fun t => exists_congr fun b => and_congr_right fun _ => ?_
    rw [(hF b).2]
  · show (Function.update s.info i _ m).status = 0 ↔ m ∈ g.used ++ [i] ∨ (F b).disk = false
    rw [(hF b).2, List.mem_append, List.mem_singleton]
    by_cases hm : m = i
    · rw [hm, Function.update_self]
      exact iff_of_true rfl (.inl (.inr rfl))
    · rw [Function.update_of_ne hm, h.status t b m ht, or_iff_left hm]

/-! ## `virtio_disk_intr` -/

theorem intr_ok [DecidableEq B] (h : Inv s g) (hne : s.used.nread ≠ s.used.nwrite) :
    ∃ t b i U, s.thread t = .wait b i ∧ g.used = i :: U ∧ intr s = .ok { s with
      buf := Function.update s.buf b { s.buf b with disk := false }
      used := s.used.pop half } := by
  obtain ⟨U, hU⟩ := used_head h hne
  obtain ⟨t, b, ht, -⟩ := (h.queue (s.used.data (s.used.nread % num))).mp
    (List.mem_append_right _ (by rw [hU]; exact List.mem_cons_self))
  obtain ⟨j, k, hc, -⟩ := h.waits t b _ ht
  have hstatus := (h.status t b _ ht).mpr (.inl (by rw [hU]; exact List.mem_cons_self))
  refine ⟨t, b, _, U, ht, hU, ?_⟩
  unfold intr
  rw [if_neg hne]
  dsimp only
  rw [if_neg (not_not.mpr hstatus), hc.buf]

theorem intr_inv [DecidableEq B] {U : List Nat} (h : Inv s g) (hp : s.thread p = .wait b i)
    (hU : g.used = i :: U) : Inv { s with
      buf := Function.update s.buf b { s.buf b with disk := false }
      used := s.used.pop half } ⟨g.own, g.avail, U⟩ := by
  have hblock : ∀ c, (Function.update s.buf b { s.buf b with disk := false } c).blockno =
      (s.buf c).blockno := by
    intro c
    by_cases hc : c = b
    · rw [hc, Function.update_self]
    · rw [Function.update_of_ne hc]
  have hus := h.used
  rw [hU] at hus
  have hperm : (g.queue s).Perm (i :: (g.avail ++ s.fetched ++ U)) := by
    unfold Ghost.queue
    rw [hU]
    exact List.perm_middle
  have hnodup := List.nodup_cons.mp (hperm.nodup_iff.mp h.nodup)
  -- another process waits for another buffer
  have hother : ∀ t c m, s.thread t = .wait c m → m ≠ i →
      Function.update s.buf b { s.buf b with disk := false } c = s.buf c := by
    intro t c m ht hm
    refine Function.update_of_ne (fun e => hm ?_) ..
    have htp := h.alone t p b (by rw [ht, e]; rfl) (by rw [hp]; rfl)
    rw [htp, hp] at ht
    exact (Pc.wait.inj ht).2.symm
  refine ⟨h.own, h.free, fun t c m ht => ?_, h.alone, fun t c ht => ?_, h.avail,
    hus.pop (by decide), hnodup.2, fun n => ?_, fun t c m ht => ?_⟩
  · obtain ⟨j, k, hc, hown⟩ := h.waits t c m ht
    exact ⟨j, k, hc.congr (fun _ _ => rfl) rfl (hblock c) rfl, hown⟩
  · rw [hblock c]
    exact h.block t c ht
  · show n ∈ g.avail ++ s.fetched ++ U ↔ _
    by_cases hn : n = i
    · rw [hn]
      refine iff_of_false hnodup.1 ?_
      rintro ⟨t, c, ht, hdisk⟩
      obtain rfl := h.thread_of_head hp ht
      obtain ⟨rfl, -⟩ := Pc.wait.inj (hp.symm.trans ht)
      change (Function.update s.buf b _ b).disk = true at hdisk
      rw [Function.update_self] at hdisk
      cases hdisk
    · have hq : n ∈ g.avail ++ s.fetched ++ U ↔ n ∈ g.queue s := by
        rw [hperm.mem_iff, List.mem_cons, or_iff_right hn]
      rw [hq, h.queue n]
      refine exists_congr fun t => exists_congr fun c => and_congr_right fun ht => ?_
      show (s.buf c).disk = true ↔ (Function.update s.buf b _ c).disk = true
      rw [hother t c n ht hn]
  · show (s.info m).status = 0 ↔ m ∈ U ∨ (Function.update s.buf b _ c).disk = false
    rw [h.status t c m ht, hU, List.mem_cons]
    by_cases hm : m = i
    · subst hm
      obtain rfl := h.thread_of_head hp ht
      obtain ⟨rfl, -⟩ := Pc.wait.inj (hp.symm.trans ht)
      rw [Function.update_self]
      exact iff_of_true (.inl (.inl rfl)) (.inr rfl)
    · rw [or_iff_right hm, hother t c m ht hm]

/-! ## `virtio_disk_rw` -/

theorem alloc_inv [DecidableEq T] {D : Nat → Desc B} (h : Inv s g)
    (hp : ∀ c i, s.thread p ≠ .wait c i) (hD : ∀ n, s.free n = false → D n = s.desc n)
    (halone : ∀ t, t ≠ p → (s.thread t).buf ≠ some b) (hblock : (s.buf b).blockno * 2 < word) :
    Inv { s with desc := D, thread := Function.update s.thread p (.alloc b write) } g := by
  have hwait : ∀ t c i, Function.update s.thread p (.alloc b write) t = .wait c i ↔
      s.thread t = .wait c i := by
    intro t c i
    by_cases ht : t = p
    · rw [ht, Function.update_self]
      exact iff_of_false (fun e => by cases e) (hp c i)
    · rw [Function.update_of_ne ht]
  have hbuf : ∀ t c, (Function.update s.thread p (.alloc b write) t).buf = some c →
      t = p ∧ c = b ∨ t ≠ p ∧ (s.thread t).buf = some c := by
    intro t c ht
    by_cases htp : t = p
    · rw [htp, Function.update_self] at ht
      exact .inl ⟨htp, (Option.some.inj ht).symm⟩
    · rw [Function.update_of_ne htp] at ht
      exact .inr ⟨htp, ht⟩
  refine ⟨fun n t hn => ?_, h.free, fun t c i ht => ?_, fun t t' c ht ht' => ?_, fun t c ht => ?_,
    h.avail, h.used, h.nodup, fun n => ?_, fun t c i ht => ?_⟩
  · obtain ⟨hlt, hfree, c, i, ht⟩ := h.own n t hn
    exact ⟨hlt, hfree, c, i, (hwait t c i).mpr ht⟩
  · obtain ⟨j, k, hc, hown⟩ := h.waits t c i ((hwait t c i).mp ht)
    refine ⟨j, k, hc.congr (fun n hn => ?_) rfl rfl rfl, hown⟩
    exact hD n (h.own n t ((hown n).mpr hn)).2.1
  · obtain ⟨rfl, rfl⟩ | ⟨htp, hold⟩ := hbuf t c ht
    · obtain ⟨rfl, -⟩ | ⟨htp', hold'⟩ := hbuf t' c ht'
      · rfl
      · exact absurd hold' (halone t' htp')
    · obtain ⟨-, rfl⟩ | ⟨-, hold'⟩ := hbuf t' c ht'
      · exact absurd hold (halone t htp)
      · exact h.alone t t' c hold hold'
  · obtain ⟨-, rfl⟩ | ⟨-, hold⟩ := hbuf t c ht
    · exact hblock
    · exact h.block t c hold
  · refine (h.queue n).trans (exists_congr fun t => exists_congr fun c => ?_)
    exact and_congr_left fun _ => (hwait t c n).symm
  · exact h.status t c i ((hwait t c i).mp ht)

theorem update_three {α : Type} {f : Nat → α} {x y z : α} (hn : ¬ (n = i ∨ n = j ∨ n = k)) :
    Function.update (Function.update (Function.update f i x) j y) k z n = f n := by
  rw [Function.update_of_ne (fun e => hn (.inr (.inr e))),
    Function.update_of_ne (fun e => hn (.inr (.inl e))),
    Function.update_of_ne (fun e => hn (.inl e))]

theorem update_three_const {α : Type} {f : Nat → α} {x : α} (hn : n = i ∨ n = j ∨ n = k) :
    Function.update (Function.update (Function.update f i x) j x) k x n = x := by
  by_cases hk : n = k
  · rw [hk, Function.update_self]
  · rw [Function.update_of_ne hk]
    by_cases hj : n = j
    · rw [hj, Function.update_self]
    · rw [Function.update_of_ne hj, hn.resolve_right (fun e => e.elim hj hk), Function.update_self]

theorem submit_chained [DecidableEq T] [DecidableEq B] (hblock : (s.buf b).blockno * 2 < word)
    (hij : i ≠ j) (hik : i ≠ k) (hjk : j ≠ k) :
    Chained (submit (s.take i j k) p b write i j k) b i j k where
  head := by
    show Function.update (Function.update (Function.update s.desc i _) j _) k _ i = _
    rw [Function.update_of_ne hik, Function.update_of_ne hij, Function.update_self]
  body := by
    show Function.update (Function.update (Function.update s.desc i _) j _) k _ j =
      ⟨.data b, bsize, !(Function.update s.ops i _ i).out, true, k⟩
    rw [Function.update_of_ne hjk, Function.update_self, Function.update_self]
  tail := Function.update_self ..
  sector := by
    show (Function.update s.ops i ⟨write, (s.buf b).blockno * 2 % word⟩ i).sector =
      (Function.update s.buf b { s.buf b with disk := true } b).blockno * 2
    rw [Function.update_self, Function.update_self]
    exact Nat.mod_eq_of_lt hblock
  buf := by
    show (Function.update s.info i ⟨some b, 0xff⟩ i).b = some b
    rw [Function.update_self]
  ne := ⟨hij, hik, hjk⟩

theorem submit_inv [DecidableEq T] [DecidableEq B] (h : Inv s g)
    (hp : ∀ c i, s.thread p ≠ .wait c i)
    (halone : ∀ t, t ≠ p → (s.thread t).buf ≠ some b) (hblock : (s.buf b).blockno * 2 < word)
    (hij : i ≠ j) (hik : i ≠ k) (hjk : j ≠ k)
    (hfree : ∀ n, n = i ∨ n = j ∨ n = k → n < num ∧ s.free n = true) :
    Inv (submit (s.take i j k) p b write i j k)
      ⟨fun n => if n = i ∨ n = j ∨ n = k then some p else g.own n, g.avail ++ [i], g.used⟩ := by
  have hnot : ∀ n t, g.own n = some t → ¬ (n = i ∨ n = j ∨ n = k) := by
    intro n t hn hmem
    cases (hfree n hmem).2.symm.trans (h.own n t hn).2.1
  have hne : ∀ n t, g.own n = some t → t ≠ p := by
    intro n t hn e
    obtain ⟨-, -, c, m, ht⟩ := h.own n t hn
    exact hp c m (e ▸ ht)
  have hthread : ∀ t, t ≠ p → Function.update s.thread p (.wait b i) t = s.thread t :=
    fun t ht => Function.update_of_ne ht ..
  have hbuf : ∀ c, c ≠ b → (submit (s.take i j k) p b write i j k).buf c = s.buf c :=
    fun c hc => Function.update_of_ne hc ..
  have hdone : (submit (s.take i j k) p b write i j k).buf b = { s.buf b with disk := true } :=
    Function.update_self ..
  have hother : ∀ t c m, t ≠ p → s.thread t = .wait c m → c ≠ b := by
    intro t c m htp ht e
    exact halone t htp (by rw [ht, e]; rfl)
  have hiq : i ∉ g.queue s := by
    intro hm
    cases (hfree i (.inl rfl)).2.symm.trans (h.owned_of_queue hm).2
  have hroom : g.avail.length < num := by
    have hlen := h.room (hfree i (.inl rfl)).1 (hfree i (.inl rfl)).2
    unfold Ghost.queue at hlen
    rw [List.length_append, List.length_append] at hlen
    omega
  have hperm : (g.avail ++ [i] ++ s.fetched ++ g.used).Perm (i :: g.queue s) := by
    unfold Ghost.queue
    rw [List.append_assoc, List.append_assoc, List.append_assoc]
    exact List.perm_middle
  -- a process that waits now is this one, or did so before
  have hcases : ∀ t c m, Function.update s.thread p (.wait b i) t = .wait c m →
      t = p ∧ c = b ∧ m = i ∨ t ≠ p ∧ s.thread t = .wait c m := by
    intro t c m ht
    by_cases htp : t = p
    · rw [htp, Function.update_self] at ht
      obtain ⟨rfl, rfl⟩ := Pc.wait.inj ht
      exact .inl ⟨htp, rfl, rfl⟩
    · rw [hthread t htp] at ht
      exact .inr ⟨htp, ht⟩
  have hcalls : ∀ t c, (Function.update s.thread p (.wait b i) t).buf = some c →
      t = p ∧ c = b ∨ t ≠ p ∧ (s.thread t).buf = some c := by
    intro t c ht
    by_cases htp : t = p
    · rw [htp, Function.update_self] at ht
      exact .inl ⟨htp, (Option.some.inj ht).symm⟩
    · rw [hthread t htp] at ht
      exact .inr ⟨htp, ht⟩
  have hblocks : ∀ c, ((submit (s.take i j k) p b write i j k).buf c).blockno =
      (s.buf c).blockno := by
    intro c
    by_cases hc : c = b
    · rw [hc, hdone]
    · rw [hbuf c hc]
  refine ⟨fun n t hn => ?_, fun n hn hnone => ?_, fun t c m ht => ?_, fun t t' c ht ht' => ?_,
    fun t c ht => ?_, h.avail.push (by decide) hroom i, h.used, ?_, fun n => ?_, fun t c m ht => ?_⟩
  · dsimp only at hn
    split at hn
    · rename_i hmem
      obtain rfl := Option.some.inj hn
      exact ⟨(hfree n hmem).1, update_three_const hmem, b, i, Function.update_self ..⟩
    · rename_i hmem
      obtain ⟨hlt, hf, c, m, ht⟩ := h.own n t hn
      exact ⟨hlt, (update_three hmem).trans hf, c, m, (hthread t (hne n t hn)).trans ht⟩
  · dsimp only at hnone
    split at hnone
    · cases hnone
    · rename_i hmem
      exact (update_three hmem).trans (h.free n hn hnone)
  · obtain ⟨rfl, rfl, rfl⟩ | ⟨htp, hold⟩ := hcases t c m ht
    · refine ⟨j, k, submit_chained hblock hij hik hjk, fun n => ?_⟩
      dsimp only
      split
      · rename_i hmem
        exact iff_of_true rfl hmem
      · rename_i hmem
        exact iff_of_false (fun e => hne n t e rfl) hmem
    · obtain ⟨j', k', hc, hown⟩ := h.waits t c m hold
      refine ⟨j', k', hc.congr (fun n hn => ?_) ?_ (hblocks c) ?_, fun n => ?_⟩
      · exact update_three (hnot n t ((hown n).mpr hn))
      · refine Function.update_of_ne ?_ ..
        rintro rfl
        exact hnot m t (h.head hold) (.inl rfl)
      · refine congrArg Info.b (Function.update_of_ne ?_ ..)
        rintro rfl
        exact hnot m t (h.head hold) (.inl rfl)
      · rw [← hown n]
        dsimp only
        split
        · rename_i hmem
          refine iff_of_false (fun e => htp (Option.some.inj e).symm) (fun e => hnot n t e hmem)
        · exact Iff.rfl
  · obtain ⟨rfl, rfl⟩ | ⟨htp, hold⟩ := hcalls t c ht
    · obtain ⟨rfl, -⟩ | ⟨htp', hold'⟩ := hcalls t' c ht'
      · rfl
      · exact absurd hold' (halone t' htp')
    · obtain ⟨-, rfl⟩ | ⟨-, hold'⟩ := hcalls t' c ht'
      · exact absurd hold (halone t htp)
      · exact h.alone t t' c hold hold'
  · rw [hblocks c]
    obtain ⟨-, rfl⟩ | ⟨-, hold⟩ := hcalls t c ht
    · exact hblock
    · exact h.block t c hold
  · exact hperm.nodup_iff.mpr (List.nodup_cons.mpr ⟨hiq, h.nodup⟩)
  · refine hperm.mem_iff.trans ?_
    rw [List.mem_cons]
    constructor
    · rintro (rfl | hn)
      · refine ⟨p, b, Function.update_self .., ?_⟩
        rw [hdone]
      · obtain ⟨t, c, ht, hdisk⟩ := (h.queue n).mp hn
        have htp : t ≠ p := fun e => hp c n (e ▸ ht)
        refine ⟨t, c, (hthread t htp).trans ht, ?_⟩
        rw [hbuf c (hother t c n htp ht)]
        exact hdisk
    · rintro ⟨t, c, ht, hdisk⟩
      obtain ⟨-, -, rfl⟩ | ⟨htp, hold⟩ := hcases t c n ht
      · exact .inl rfl
      · rw [hbuf c (hother t c n htp hold)] at hdisk
        exact .inr ((h.queue n).mpr ⟨t, c, hold, hdisk⟩)
  · show (Function.update s.info i _ m).status = 0 ↔
      m ∈ g.used ∨ ((submit (s.take i j k) p b write i j k).buf c).disk = false
    obtain ⟨rfl, rfl, rfl⟩ | ⟨htp, hold⟩ := hcases t c m ht
    · rw [Function.update_self, hdone]
      have hff : (0xff : UInt8) ≠ 0 := by decide
      refine iff_of_false hff ?_
      rintro (hm | hm)
      · exact hiq (List.mem_append_right _ hm)
      · cases hm
    · have hmi : m ≠ i := by
        rintro rfl
        exact hnot m t (h.head hold) (.inl rfl)
      rw [Function.update_of_ne hmi, hbuf c (hother t c m htp hold)]
      exact h.status t c m hold

theorem enter_inv [DecidableEq T] [DecidableEq B] (write : Bool) (h : Inv s g)
    (hp : ∀ c i, s.thread p ≠ .wait c i)
    (halone : ∀ t, t ≠ p → (s.thread t).buf ≠ some b) (hblock : (s.buf b).blockno * 2 < word) :
    ∃ t g', enter s p b write = .ok t ∧ Inv t g' ∧ ((∃ D, t = { s with
        desc := D, thread := Function.update s.thread p (.alloc b write) }) ∨
      ∃ i j k, (∀ n, s.free n = false → n ≠ i) ∧ t = submit (s.take i j k) p b write i j k) := by
  unfold enter
  obtain ⟨D, hno, hD⟩ | ⟨i, j, k, hsome, hij, hik, hjk, hfree⟩ := alloc3Desc_ok s
  · rw [hno]
    exact ⟨{ s with desc := D, thread := Function.update s.thread p (.alloc b write) }, g, rfl,
      alloc_inv h hp hD halone hblock, .inl ⟨D, rfl⟩⟩
  · rw [hsome]
    refine ⟨_, _, rfl, submit_inv h hp halone hblock hij hik hjk hfree, .inr ⟨i, j, k, ?_, rfl⟩⟩
    rintro n hn rfl
    cases hn.symm.trans (hfree n (.inl rfl)).2

theorem finish_ok [DecidableEq T] (h : Inv s g) (hp : s.thread p = .wait b i) :
    ∃ j k, (∀ n, g.own n = some p ↔ n = i ∨ n = j ∨ n = k) ∧ finish s p i = .ok { s with
      info := Function.update s.info i { s.info i with b := none }
      desc := Function.update (Function.update (Function.update s.desc i zeroDesc) j zeroDesc) k
        zeroDesc
      free := Function.update (Function.update (Function.update s.free i true) j true) k true
      thread := Function.update s.thread p .out } := by
  obtain ⟨j, k, hc, hown⟩ := h.waits p b i hp
  refine ⟨j, k, hown, ?_⟩
  unfold finish
  have hfree : ∀ n, n = i ∨ n = j ∨ n = k → n < num ∧ s.free n = false := by
    intro n hn
    obtain ⟨hlt, hf, -⟩ := h.own n p ((hown n).mpr hn)
    exact ⟨hlt, hf⟩
  rw [freeChain_ok (s := { s with info := Function.update s.info i { s.info i with b := none } })
    hc.ne.1 hc.ne.2.1 hc.ne.2.2 hfree (by rw [hc.head]; exact ⟨rfl, rfl⟩)
    (by rw [hc.body]; exact ⟨rfl, rfl⟩) (by rw [hc.tail])]
  rfl

theorem finish_inv [DecidableEq T] (h : Inv s g) (hp : s.thread p = .wait b i)
    (hdisk : (s.buf b).disk = false) (hown : ∀ n, g.own n = some p ↔ n = i ∨ n = j ∨ n = k) :
    Inv { s with
      info := Function.update s.info i { s.info i with b := none }
      desc := Function.update (Function.update (Function.update s.desc i zeroDesc) j zeroDesc) k
        zeroDesc
      free := Function.update (Function.update (Function.update s.free i true) j true) k true
      thread := Function.update s.thread p .out }
      ⟨fun n => if n = i ∨ n = j ∨ n = k then none else g.own n, g.avail, g.used⟩ := by
  have hthread : ∀ t c m, Function.update s.thread p .out t = .wait c m ↔
      t ≠ p ∧ s.thread t = .wait c m := by
    intro t c m
    by_cases ht : t = p
    · rw [ht, Function.update_self]
      exact iff_of_false (fun e => by cases e) (fun e => e.1 rfl)
    · rw [Function.update_of_ne ht]
      exact (and_iff_right ht).symm
  have hcall : ∀ t c, (Function.update s.thread p .out t).buf = some c →
      (s.thread t).buf = some c := by
    intro t c ht
    by_cases htp : t = p
    · rw [htp, Function.update_self] at ht
      cases ht
    · rw [Function.update_of_ne htp] at ht
      exact ht
  -- the chains of the others
  have hnot : ∀ n t, t ≠ p → g.own n = some t → ¬ (n = i ∨ n = j ∨ n = k) := by
    intro n t htp hn hmem
    exact htp (Option.some.inj (hn.symm.trans ((hown n).mpr hmem)))
  refine ⟨fun n t hn => ?_, fun n hn hnone => ?_, fun t c m ht => ?_, fun t t' c ht ht' => ?_,
    fun t c ht => h.block t c (hcall t c ht), h.avail, h.used, h.nodup, fun n => ?_,
    fun t c m ht => ?_⟩
  · dsimp only at hn
    split at hn
    · cases hn
    · rename_i hmem
      obtain ⟨hlt, hf, c, m, ht⟩ := h.own n t hn
      refine ⟨hlt, (update_three hmem).trans hf, c, m, (hthread t c m).mpr ⟨?_, ht⟩⟩
      rintro rfl
      exact hmem ((hown n).mp hn)
  · dsimp only at hnone
    split at hnone
    · rename_i hmem
      exact update_three_const hmem
    · rename_i hmem
      exact (update_three hmem).trans (h.free n hn hnone)
  · obtain ⟨htp, hold⟩ := (hthread t c m).mp ht
    obtain ⟨j', k', hc, hown'⟩ := h.waits t c m hold
    have hm : m ≠ i := by
      rintro rfl
      exact hnot m t htp (h.head hold) (.inl rfl)
    refine ⟨j', k', hc.congr (fun n hn => ?_) rfl rfl ?_, fun n => ?_⟩
    · exact update_three (hnot n t htp ((hown' n).mpr hn))
    · exact congrArg Info.b (Function.update_of_ne hm ..)
    · rw [← hown' n]
      dsimp only
      split
      · rename_i hmem
        exact iff_of_false (fun e => by cases e) (fun e => hnot n t htp e hmem)
      · exact Iff.rfl
  · exact h.alone t t' c (hcall t c ht) (hcall t' c ht')
  · refine (h.queue n).trans (exists_congr fun t => exists_congr fun c => ?_)
    constructor
    · intro ⟨ht, hd⟩
      refine ⟨(hthread t c n).mpr ⟨?_, ht⟩, hd⟩
      rintro rfl
      obtain ⟨rfl, -⟩ := Pc.wait.inj (hp.symm.trans ht)
      cases hdisk.symm.trans hd
    · intro ⟨ht, hd⟩
      exact ⟨((hthread t c n).mp ht).2, hd⟩
  · obtain ⟨htp, hold⟩ := (hthread t c m).mp ht
    have hm : m ≠ i := by
      rintro rfl
      exact hnot m t htp (h.head hold) (.inl rfl)
    show (Function.update s.info i _ m).status = 0 ↔ _
    rw [Function.update_of_ne hm]
    exact h.status t c m hold

theorem store_inv [DecidableEq B] {x : Buf S} (h : Inv s g)
    (hno : ∀ t, (s.thread t).buf ≠ some b) :
    Inv { s with buf := Function.update s.buf b x } g := by
  have hbuf : ∀ t c, (s.thread t).buf = some c → Function.update s.buf b x c = s.buf c := by
    intro t c ht
    refine Function.update_of_ne ?_ ..
    rintro rfl
    exact hno t ht
  have hwait : ∀ t c m, s.thread t = .wait c m → Function.update s.buf b x c = s.buf c :=
    fun t c m ht => hbuf t c (by rw [ht]; rfl)
  refine ⟨h.own, h.free, fun t c m ht => ?_, h.alone, fun t c ht => ?_, h.avail, h.used, h.nodup,
    fun n => ?_, fun t c m ht => ?_⟩
  · obtain ⟨j, k, hc, hown⟩ := h.waits t c m ht
    exact ⟨j, k, hc.congr (fun _ _ => rfl) rfl (congrArg Buf.blockno (hwait t c m ht)) rfl, hown⟩
  · show (Function.update s.buf b x c).blockno * 2 < word
    rw [hbuf t c ht]
    exact h.block t c ht
  · refine (h.queue n).trans (exists_congr fun t => exists_congr fun c => ?_)
    refine and_congr_right fun ht => ?_
    show _ ↔ (Function.update s.buf b x c).disk = true
    rw [hwait t c n ht]
  · show _ ↔ m ∈ g.used ∨ (Function.update s.buf b x c).disk = false
    rw [hwait t c m ht]
    exact h.status t c m ht

end

end Virtio
