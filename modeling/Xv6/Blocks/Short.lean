import Xv6.Blocks.Later

/-!
# Short writes

A `writei` that meets a page that is not mapped has copied the bytes before it, as far as they are
in the same piece, into the buffer of the block.  They are not counted, the block is not logged, and
nothing takes them back.
-/

namespace Blocks
open Lib Fs

/-- where the piece starts that has the first byte that cannot be read, `k` bytes behind `off` -/
def pieceStart (off k : Nat) : Nat := max off ((off + k) / bsize * bsize)

/-- all of the source can be read, or the bytes that are copied in vain are those of the file -/
def Vain (src : Source) (size off n : Nat) (content : Nat → UInt8) : Prop :=
  reach src 0 n = n ∨ ∀ p < size, pieceStart off (reach src 0 n) ≤ p → p < off + reach src 0 n →
    src (p - off) = some (content p)

/-- the write is refused, or changes nothing by what it copies in vain -/
def Harmless (src : Source) (size off n : Nat) (content : Nat → UInt8) : Prop :=
  (size < off ∨ (off + n) % 2 ^ 32 < off) ∨ maxfile * bsize < (off + n) % 2 ^ 32 ∨
  Vain src size off n content

/-- every later `readi` sees `content`, other bytes at most in the `r` positions from `off` on -/
def Clean (sb : Superblock) (t : State) (i size off r : Nat) (content : Nat → UInt8) : Prop :=
  ∀ u, Later sb i t u → ∃ size' content', Holds sb u i size' content' ∧ size ≤ size' ∧
    size' ≤ max size (off + r) ∧ ∀ p < size, p < off ∨ off + r ≤ p → content' p = content p

/-- a write of `m` bytes that stops behind `r`: a block is missing, or a page is not mapped -/
structure Stops (i : Nat) (src : Source) (size off tot m r : Nat) (s t : State) : Prop where
  le : r ≤ m
  logged : ∀ p, off ≤ p → p < off + r → t.ref i (slotOf (p / bsize)) ∈ t.log
  start : r < m → r = 0 ∨ (off + r) % bsize = 0
  readable : r ≤ reach src tot m
  rest : r < m → size ≤ off + r ∨ reach src tot m < r + min (m - r) (bsize - (off + r) % bsize) ∧
    ∀ p < size, off + r ≤ p → t.byte i p =
      if p < off + reach src tot m then (src (tot + (p - off))).getD 0 else s.byte i p

section
variable {sb : Superblock} {s t u : State} {a b i j k m n off tot fuel p r size : Nat}
  {src : Source} {content : Nat → UInt8}

/-! ## the bytes that can be read -/

theorem reach_succ (src : Source) (tot m : Nat) : reach src tot (m + 1) =
    match src tot with
    | none => 0
    | some _ => reach src (tot + 1) m + 1 := rfl

theorem reach_add (src : Source) (tot k m : Nat) : reach src tot (k + m) =
    if reach src tot k = k then k + reach src (tot + k) m else reach src tot k := by
  induction k generalizing tot with
  | zero =>
    rw [Nat.zero_add, Nat.add_zero]
    exact (Nat.zero_add _).symm
  | succ k ih =>
    rw [Nat.succ_add, reach_succ, reach_succ]
    cases src tot with
    | none => rfl
    | some b =>
      dsimp only
      rw [ih (tot + 1), Nat.add_right_comm tot 1 k]
      by_cases h : reach src (tot + 1) k = k
      · rw [if_pos h, if_pos (congrArg Nat.succ h), Nat.add_right_comm, Nat.add_assoc tot k 1]
      · rw [if_neg h, if_neg (fun e => h (Nat.succ.inj e))]

theorem isSome_of_lt_reach (h : k < reach src tot m) : (src (tot + k)).isSome = true := by
  induction m generalizing tot k with
  | zero => exact absurd h (Nat.not_lt_zero k)
  | succ m ih =>
    unfold reach at h
    cases e : src tot with
    | none =>
      rw [e] at h
      exact absurd h (Nat.not_lt_zero k)
    | some b =>
      rw [e] at h
      cases k with
      | zero => exact Option.isSome_iff_exists.mpr ⟨b, e⟩
      | succ k =>
        have hk := ih (Nat.lt_of_succ_lt_succ h)
        rwa [Nat.add_right_comm] at hk

/-! ## the loop -/

theorem bmap_byte {bn : Nat} (h : Owned sb s 0) (hout : s.outstanding ≠ 0) (hbn : bn < maxfile)
    (e : bmap sb s i bn = some (t, a)) (hp : s.ref i (slotOf (p / bsize)) ≠ 0) :
    t.byte i p = s.byte i p := by
  obtain ⟨u, c, e', hfile, -⟩ := bmap_spec h hout i hbn
  obtain ⟨d, ok, hd, hm, -⟩ := Fs.bmap_spec (d := s.file sb i) hbn
  obtain ⟨rfl, rfl⟩ := Prod.mk.inj (Option.some.inj (e'.symm.trans e))
  obtain ⟨rfl, -⟩ := Prod.mk.inj (Option.some.inj (hfile.symm.trans hd))
  exact hm.data p (decide_eq_true hp)

theorem piece_byte (hu : Owned sb u 0) (ha : u.ref i (slotOf (off / bsize)) = a) (ha0 : a ≠ 0)
    (hm : m ≤ bsize - off % bsize) (hinode : t.inode = u.inode) (hcache : t.cache =
      Function.update u.cache a (copyin src m (off % bsize) tot (u.cache a)).1)
    (hdisk : t.disk = u.disk) (hout : t.outstanding = u.outstanding)
    (hlog : ∃ k, t.log = k ++ u.log) :
    Follows sb i u t ∧ t.ref = u.ref ∧ ∀ p, t.byte i p =
      if off ≤ p ∧ p < off + reach src tot m then (src (tot + (p - off))).getD 0
      else u.byte i p := by
  have href : u.ref i (slotOf (off / bsize)) ≠ 0 := by rwa [ha]
  have hother : ∀ c, c ≠ u.ref i (slotOf (off / bsize)) → t.cache c = u.cache c := by
    intro c hc
    rw [ha] at hc
    rw [hcache, Function.update_of_ne hc]
  obtain ⟨hf, hsame, hfile⟩ := follows_data hu href hinode hother hdisk hout hlog
  refine ⟨hf, hsame, fun p => ?_⟩
  have hdata : t.byte i p = _ := congrFun (congrArg Disk.data hfile) p
  have hcopy := congrFun (congrArg Prod.fst (copyin_block src tot hm href)) p
  rw [copyin_eq src m off tot, ha] at hcopy
  dsimp only at hdata hcopy
  rw [hcopy, hdata, ha, hcache, Function.update_self]

theorem Stops.none (hsize : size ≤ off) : Stops i src size off tot m 0 s t :=
  ⟨Nat.zero_le m, fun p h1 h2 => absurd h2 (by omega), fun _ => Or.inl rfl, Nat.zero_le _,
    fun _ => Or.inl hsize⟩

theorem Stops.piece (hk : k = min m (bsize - off % bsize)) (hlt : reach src tot k < k)
    (hb : ∀ p < size, t.byte i p =
      if off ≤ p ∧ p < off + reach src tot k then (src (tot + (p - off))).getD 0 else s.byte i p) :
    Stops i src size off tot m 0 s t := by
  have hreach : reach src tot m = reach src tot k := by
    have hadd := reach_add src tot k (m - k)
    rwa [if_neg hlt.ne, Nat.add_sub_cancel' (by omega)] at hadd
  refine ⟨Nat.zero_le m, fun p h1 h2 => absurd h2 (by omega), fun _ => Or.inl rfl, Nat.zero_le _,
    fun _ => Or.inr ⟨?_, fun p hp hle => ?_⟩⟩
  · rw [hreach, Nat.sub_zero, Nat.add_zero, ← hk]
    omega
  · rw [hreach, hb p hp]
    exact if_congr (and_iff_right hle) rfl rfl

theorem Stops.cons (hk : k = min m (bsize - off % bsize)) (hpos : 0 < m)
    (hread : reach src tot k = k) (hin : u.ref i (slotOf (off / bsize)) ∈ u.log)
    (hf : Follows sb i u t)
    (hin0 : u.ref i (slotOf (off / bsize)) ≠ 0)
    (hb : ∀ p < size, off + k ≤ p → u.byte i p = s.byte i p)
    (h : Stops i src size (off + k) (tot + k) (m - k) r u t) :
    Stops i src size off tot m (k + r) s t := by
  obtain ⟨hkpos, hkle⟩ := piece_le m off hpos
  rw [← hk] at hkpos hkle
  have hreach : reach src tot m = k + reach src (tot + k) (m - k) := by
    have hadd := reach_add src tot k (m - k)
    rwa [if_pos hread, Nat.add_sub_cancel' hkle] at hadd
  have hle := h.le
  refine ⟨by omega, fun p h1 h2 => ?_, fun hlt => Or.inr ?_, ?_, fun hlt => ?_⟩
  · by_cases hp : p < off + k
    · -- a block of this piece
      have hdiv : p / bsize = off / bsize := by
        have hpd : (off + (p - off)) / bsize = off / bsize := piece_div (n := m) (by omega)
        rwa [Nat.add_sub_cancel' h1] at hpd
      rw [hdiv, hf.keep i _ hin0]
      exact hf.mem_log hin
    · exact h.logged p (by omega) (by omega)
  · rcases h.start (by omega) with h0 | hmod
    · -- the piece goes to the end of its block
      have hb := Nat.mod_lt off (show 0 < bsize by decide)
      have hoff := Nat.div_add_mod' off bsize
      have hend : off + k = (off / bsize + 1) * bsize := by
        rw [Nat.add_mul]
        omega
      rw [h0, Nat.add_zero, hend, Nat.mul_mod_left]
    · rwa [← Nat.add_assoc]
  · rw [hreach]
    have := h.readable
    omega
  · rcases h.rest (by omega) with hsize | ⟨hshort, hbytes⟩
    · exact Or.inl (by omega)
    · refine Or.inr ⟨?_, fun p hp hle => ?_⟩
      · rw [hreach, ← Nat.add_assoc, ← Nat.sub_sub]
        omega
      · rw [hbytes p hp (by omega), hb p hp (by omega), hreach, ← Nat.add_assoc]
        have hsub : tot + k + (p - (off + k)) = tot + (p - off) := by omega
        rw [hsub]

theorem Stops.nil (h0 : m = 0) : Stops i src size off tot m 0 s t := by
  rw [h0]
  exact ⟨le_rfl, fun p h1 h2 => absurd h2 (by omega), fun hlt => absurd hlt (by omega),
    Nat.zero_le _, fun hlt => absurd hlt (by omega)⟩

theorem writeiLoop_stops (src : Source) (h : Owned sb s 0) (hout : s.outstanding ≠ 0)
    (hfuel : n - tot ≤ fuel) (hmax : off + (n - tot) ≤ maxfile * bsize)
    (hm : ∀ p < size, s.ref i (slotOf (p / bsize)) ≠ 0) :
    ∃ t r, writeiLoop sb i src n fuel s off tot = some (t, off + r, tot + r) ∧
      Follows sb i s t ∧ Stops i src size off tot (n - tot) r s t := by
  induction fuel generalizing s off tot with
  | zero => exact ⟨s, 0, rfl, Follows.refl h i, Stops.nil (by omega)⟩
  | succ fuel ih =>
    unfold writeiLoop
    by_cases hlt : tot < n
    · have hbn : off / bsize < maxfile := by
        rw [Nat.div_lt_iff_lt_mul (by decide)]
        omega
      obtain ⟨u, a, e, -, hfol, hself⟩ := bmap_spec h hout i hbn
      have hbyte : ∀ p < size, u.byte i p = s.byte i p := fun p hp =>
        bmap_byte h hout hbn e (hm p hp)
      rw [if_pos hlt, e]
      dsimp only
      by_cases ha : a = 0
      · -- the block is not there, so it is not one of the file
        rw [if_pos ha]
        refine ⟨u, 0, rfl, hfol, Stops.none ?_⟩
        by_contra hsize
        have href := hm off (by omega)
        rw [hfol.keep i _ href] at hself
        exact href (hself.trans ha)
      · rw [if_neg ha]
        obtain ⟨hkpos, hkle⟩ := piece_le (n - tot) off (by omega)
        have hnext : min (n - tot) (bsize - off % bsize) < n - tot →
            (off + min (n - tot) (bsize - off % bsize)) / bsize = off / bsize + 1 := piece_next
        generalize hk : min (n - tot) (bsize - off % bsize) = k at hkpos hkle hnext ⊢
        have hkb : k ≤ bsize - off % bsize := hk ▸ Nat.min_le_right _ _
        have hcopy := copyin_eq src k (off % bsize) tot (u.cache a)
        generalize hc : copyin src k (off % bsize) tot (u.cache a) = c at hcopy ⊢
        have hdata : c.1 = (copyin src k (off % bsize) tot (u.cache a)).1 := by rw [hc]
        have hok : c.2 = decide (reach src tot k = k) := congrArg Prod.snd hcopy
        obtain ⟨blk, ok⟩ := c
        cases ok with
        | false =>
          have hne : reach src tot k ≠ k := of_decide_eq_false hok.symm
          have hle := reach_le src tot k
          obtain ⟨hf, -, hb⟩ := piece_byte (t := u.setBlock a blk) hfol.owned hself ha hkb rfl
            (congrArg (Function.update u.cache a) hdata) rfl rfl ⟨[], rfl⟩
          refine ⟨_, 0, rfl, hfol.trans hf, Stops.piece hk.symm (by omega) (fun p hp => ?_)⟩
          rw [hb p, hbyte p hp]
        | true =>
          have hread : reach src tot k = k := of_decide_eq_true hok.symm
          have houtu : u.outstanding ≠ 0 := by
            rw [hfol.outstanding]
            exact hout
          obtain ⟨hf, hsame, hb⟩ := piece_byte (t := u.write a blk) hfol.owned hself ha hkb rfl
            (congrArg (Function.update u.cache a) hdata) rfl rfl ⟨[a], rfl⟩
          have hm' : ∀ p < size, (u.write a blk).ref i (slotOf (p / bsize)) ≠ 0 := by
            intro p hp
            rw [hsame, hfol.keep i _ (hm p hp)]
            exact hm p hp
          have hself' : (u.write a blk).ref i (slotOf (off / bsize)) = a := by rw [hsame, hself]
          have hrest : n - (tot + k) = n - tot - k := by omega
          have hmax' : off + k + (n - (tot + k)) ≤ maxfile * bsize := by omega
          obtain ⟨t, r, e', hft, hst⟩ := ih (s := u.write a blk) hf.owned houtu (by omega) hmax' hm'
          rw [hrest] at hst
          dsimp only
          rw [write_eq houtu]
          dsimp only
          refine ⟨t, k + r, ?_, (hfol.trans hf).trans hft,
            hst.cons hk.symm (by omega) hread ?_ hft ?_ ?_⟩
          · rw [e', Nat.add_assoc, Nat.add_assoc]
          · rw [hself']
            exact List.mem_cons_self
          · rwa [hself']
          · intro p hp hle
            rw [hb p, hread, if_neg (by omega), hbyte p hp]
    · rw [if_neg hlt]
      exact ⟨s, 0, rfl, Follows.refl h i, Stops.nil (by omega)⟩

/-! ## `writei` -/

theorem le_pieceStart (h : r = 0 ∨ (off + r) % bsize = 0) (hk : r ≤ k) :
    off + r ≤ pieceStart off k := by
  unfold pieceStart
  rcases h with rfl | h0
  · exact le_max_left off _
  · refine le_trans ?_ (le_max_right off _)
    have hdiv := Nat.div_add_mod' (off + r) bsize
    have hle : (off + r) / bsize ≤ (off + k) / bsize := Nat.div_le_div_right (by omega)
    have hmul := Nat.mul_le_mul_right bsize hle
    omega

theorem pieceStart_le (hk : k < r + (bsize - (off + r) % bsize)) (hr : r ≤ k) :
    pieceStart off k ≤ off + r := by
  have hdiv := Nat.div_add_mod' (off + r) bsize
  have hb := Nat.mod_lt (off + r) (show 0 < bsize by decide)
  have hsame : (off + k) / bsize = (off + r) / bsize := div_eq_iff.mpr ⟨by omega, by omega⟩
  unfold pieceStart
  rw [hsame]
  exact max_le (Nat.le_add_right off r) (Nat.div_mul_le_self _ _)

/-- a write that is not refused -/
theorem writei_stops (src : Source) (hg : Good sb s) (hi : (s.inode i).type ≠ 0)
    (hout : s.outstanding ≠ 0) (h1 : ¬ ((s.inode i).size < off ∨ (off + n) % 2 ^ 32 < off))
    (h2 : ¬ maxfile * bsize < (off + n) % 2 ^ 32) (hn : n < 2 ^ 32) :
    ∃ (t : State) (r : Nat), writei sb s i src off n = some (t, (r : Int)) ∧ Good sb t ∧
      Follows sb i s t ∧ Written (s.file sb i) (t.file sb i) src off n r ∧
      Stops i src (s.inode i).size off 0 n r s t := by
  have hmax : off + (n - 0) ≤ maxfile * bsize := by
    have hlim : maxfile * bsize < 2 ^ 32 := by decide
    have hsize := hg.whole.size i hi
    rw [not_or, Nat.not_lt, Nat.not_lt] at h1
    omega
  obtain ⟨u, r, e, hfu, hst⟩ := writeiLoop_stops src hg.whole.owned hout
    (Nat.sub_le n 0) hmax (fun p hp => (hg.whole.noHoles i hi).mapped hp)
  have houtu : u.outstanding ≠ 0 := by
    rw [hfu.outstanding]
    exact hout
  -- the size and the log come last
  have ew : writei sb s i src off n = some (u.resize sb i
      (if (u.inode i).size < off + r then off + r else (u.inode i).size),
      ((0 + r : Nat) : Int)) := by
    unfold writei
    rw [if_neg h1, if_neg h2, e]
    dsimp only
    unfold State.iupdate
    rw [logWrite_eq (show (u.setInode _ _).outstanding ≠ 0 from houtu)]
    rfl
  rw [Nat.zero_add] at ew
  rcases writei_cases hg.whole hout hi hn src off with e' | ⟨hoff, hmax', t, r', e', hf, hwr, -⟩
  · have hneg := (Prod.mk.inj (Option.some.inj (e'.symm.trans ew))).2
    exact absurd hneg (by omega)
  · obtain ⟨ht, hr⟩ := Prod.mk.inj (Option.some.inj (e'.symm.trans ew))
    obtain rfl : r' = r := by omega
    have hgood : Good sb t := ⟨hf.whole hg.whole hi hwr hoff hmax', hf.changes.coherent hg.coherent⟩
    refine ⟨t, r', e', hgood, hf, hwr, ?_⟩
    have href : t.ref = u.ref := by
      rw [ht]
      exact resize_ref sb u i _
    have hbyte : t.byte i = u.byte i := by
      funext p
      unfold State.byte
      rw [href, ht]
      rfl
    refine ⟨hst.le, fun p hp1 hp2 => ?_, hst.start, hst.readable, fun hlt => ?_⟩
    · rw [href, ht]
      exact List.mem_cons_of_mem _ (hst.logged p hp1 hp2)
    · rw [hbyte]
      exact hst.rest hlt

theorem Clean.vain (ht : Good sb t) (hi : (t.inode i).type ≠ 0)
    (hst : Stops i src size off 0 n r s t) (hlt : r < n) (h : Clean sb t i size off r content) :
    Vain src size off n content := by
  obtain ⟨size', content', hold, hle, -, hsame⟩ := h t (Later.refl sb i t)
  refine Or.inr (fun p hp hlow hhigh => ?_)
  have hstart := le_pieceStart (hst.start hlt) hst.readable
  have hkeep := hsame p hp (Or.inr (by omega))
  rcases hst.rest hlt with hsize | ⟨-, hbytes⟩
  · exact absurd hp (by omega)
  · have hbyte := hbytes p hp (by omega)
    rw [if_pos hhigh, hold.byte ht hi (by omega), hkeep, Nat.zero_add] at hbyte
    have hsome : (src (0 + (p - off))).isSome = true := isSome_of_lt_reach (m := n) (by omega)
    rw [Nat.zero_add] at hsome
    obtain ⟨b, hb⟩ := Option.isSome_iff_exists.mp hsome
    rw [hb] at hbyte ⊢
    rw [hbyte]
    rfl

theorem Vain.byte (h : Vain src size off n content) (hst : Stops i src size off 0 n r s t)
    (hlt : r < n) (hold : ∀ p < size, s.byte i p = content p) (hp : p < size) (hle : off + r ≤ p) :
    t.byte i p = content p := by
  rcases hst.rest hlt with hsize | ⟨hshort, hbytes⟩
  · exact absurd hp (by omega)
  · have hr := hst.readable
    rw [hbytes p hp hle]
    split
    · next hhigh =>
      have hstart : pieceStart off (reach src 0 n) ≤ off + r := pieceStart_le (by omega) hr
      rcases h with hall | hvain
      · exact absurd hshort (by omega)
      · rw [Nat.zero_add, hvain p hp (by omega) hhigh]
        rfl
    · exact hold p hp

theorem Vain.clean (h : Vain src size off n content) (hset : Settled s i size content)
    (hg : Good sb s) (ht : Good sb t) (hf : Follows sb i s t)
    (hwr : Written (s.file sb i) (t.file sb i) src off n r) (hst : Stops i src size off 0 n r s t)
    (hlt : r < n) (hoff : off ≤ size) : Clean sb t i size off r content := by
  have hno := hg.whole.noHoles i hset.type
  have hsize : (t.inode i).size = max size (off + r) := hset.size_eq ▸ hwr.size
  have hit : (t.inode i).type ≠ 0 := (hf.type i).trans_ne hset.type
  have hkeep : ∀ p < size, p < off ∨ off + r ≤ p → t.byte i p = content p := by
    intro p hp hout
    rcases hout with hout | hout
    · have hps : p < (s.file sb i).size := by
        show p < (s.inode i).size
        rwa [hset.size_eq]
      exact (hwr.outside p hps (Or.inl hout)).trans (hset.byte p hp)
    · exact h.byte hst hlt hset.byte hp hout
  have hnew : Settled t i (max size (off + r)) (t.byte i) := by
    refine ⟨hit, hsize, fun _ _ => rfl, fun p hp => ?_⟩
    by_cases hin : off ≤ p ∧ p < off + r
    · exact Or.inl (hst.logged p hin.1 hin.2)
    · -- the byte and its block are those from before
      have hp' : p < size := by omega
      have href : s.ref i (slotOf (p / bsize)) ≠ 0 := hno.mapped (by rwa [hset.size_eq])
      rw [hf.keep i _ href, hkeep p hp' (by omega), hf.disk]
      exact (hset.disk p hp').imp_left hf.mem_log
  intro u hu
  exact ⟨_, t.byte i, (shows_iff ht hit).mpr hnew u hu, le_max_left _ _, le_rfl, hkeep⟩

/-- a short write is clean exactly if what is copied in vain changes nothing -/
theorem writei_short_iff {r : Int} (hg : Good sb s) (hi : (s.inode i).type ≠ 0)
    (hout : s.outstanding ≠ 0) (hn : n < 2 ^ 32) (hs : Shows sb s i size content)
    (e : writei sb s i src off n = some (t, r)) (hr : r < n) :
    Clean sb t i size off r.toNat content ↔ Harmless src size off n content := by
  have hset := (shows_iff hg hi).mp hs
  have hsize := hset.size_eq
  -- a write that is refused
  have hrefused : writei sb s i src off n = some (s, -1) →
      Clean sb t i size off r.toNat content := by
    intro e'
    obtain ⟨rfl, -⟩ := Prod.mk.inj (Option.some.inj (e'.symm.trans e))
    exact fun u hu => ⟨size, content, hs u hu, le_rfl, le_max_left _ _, fun _ _ _ => rfl⟩
  unfold Harmless
  by_cases h1 : size < off ∨ (off + n) % 2 ^ 32 < off
  · refine iff_of_true (hrefused ?_) (Or.inl h1)
    rw [← hsize] at h1
    exact if_pos h1
  · rw [or_iff_right h1]
    rw [← hsize] at h1
    by_cases h2 : maxfile * bsize < (off + n) % 2 ^ 32
    · refine iff_of_true (hrefused ?_) (Or.inl h2)
      unfold writei
      rw [if_neg h1, if_pos h2]
    · rw [or_iff_right h2]
      obtain ⟨u, k, e', hu, hf, hwr, hst⟩ := writei_stops src hg hi hout h1 h2 hn
      obtain ⟨rfl, rfl⟩ := Prod.mk.inj (Option.some.inj (e'.symm.trans e))
      rw [Int.toNat_natCast]
      have hlt : k < n := by omega
      rw [hsize] at hst h1
      constructor
      · exact fun hclean => hclean.vain hu ((hf.type i).trans_ne hi) hst hlt
      · intro hvain
        exact hvain.clean hset hg hu hf hwr hst hlt (by omega)

end

def oneBitmap : Block := fun k => if k < 5 then 255 else if k = 5 then 127 else 0

def oneByte : State where
  inode i := if i = 1 then ⟨1, 0, fun _ => 0⟩
    else if i = 2 then ⟨2, 1, fun k => if k = 0 then 46 else 0⟩ else ⟨0, 0, fun _ => 0⟩
  cache b := if b = 45 then oneBitmap else if b = 46 then fun _ => 97 else fun _ => 0
  disk b := if b = 45 then oneBitmap else if b = 46 then fun _ => 97 else fun _ => 0
  log := []
  outstanding := 1

theorem oneByte_inode (i : Nat) : (oneByte.inode i).size = (if i = 2 then 1 else 0) ∧
    ∀ k, (oneByte.inode i).addrs k = if i = 2 ∧ k = 0 then 46 else 0 := by
  unfold oneByte
  dsimp only
  by_cases h1 : i = 1
  · rw [if_pos h1, h1]
    exact ⟨rfl, fun _ => rfl⟩
  · rw [if_neg h1]
    by_cases h2 : i = 2
    · rw [if_pos h2, if_pos h2]
      exact ⟨rfl, fun k => if_congr (and_iff_right h2).symm rfl rfl⟩
    · rw [if_neg h2, if_neg h2]
      exact ⟨rfl, fun k => (if_neg (fun h => h2 h.1)).symm⟩

theorem oneByte_ref (i : Nat) (l : Slot) :
    oneByte.ref i l = if i = 2 ∧ l = .addr 0 then 46 else 0 := by
  obtain ⟨-, haddr⟩ := oneByte_inode i
  cases l with
  | addr k =>
    by_cases hk : k ≤ ndirect
    · rw [ref_addr hk, haddr]
      refine if_congr ?_ rfl rfl
      rw [Slot.addr.injEq]
    · have hk0 : k ≠ 0 := by omega
      rw [if_neg (fun h => hk0 (Slot.addr.inj h.2))]
      exact if_neg hk
  | entry j =>
    have hp : oneByte.ref i (.addr ndirect) = 0 := by
      rw [ref_addr le_rfl, haddr]
      exact if_neg (fun h => absurd h.2 (by decide))
    rw [ref_entry_none hp, if_neg (fun h => Slot.noConfusion h.2)]

theorem oneByte_used : ∀ b < 2000, smallDisk.Used oneByte b ↔ b < 47 := by
  have h : ∀ b < 2000, bit (oneByte.cache (smallDisk.bblock b)) (b % bpb) = decide (b < 47) := by
    decide +kernel
  intro b hb
  unfold Superblock.Used
  rw [h b hb, decide_eq_true_eq]

theorem good_oneByte : Good smallDisk oneByte := by
  have hdata : smallDisk.data = 46 := rfl
  have hsize : smallDisk.size = 2000 := rfl
  have hone : ∀ {i l}, oneByte.ref i l ≠ 0 → i = 2 ∧ l = .addr 0 := by
    intro i l h
    by_contra hno
    exact h ((oneByte_ref i l).trans (if_neg hno))
  have hblock : oneByte.ref 2 (.addr 0) = 46 := rfl
  refine ⟨⟨⟨fun b hb => ?_, fun i k h => ?_, fun i k j l h e => ?_, fun b hb hlt => ?_,
    fun h => absurd rfl h⟩, fun i hi k => ?_, fun i _ => ?_, fun i _ bn hbn => ?_⟩,
    fun _ _ => Or.inr rfl⟩
  · exact (oneByte_used b (by omega)).mpr (by omega)
  · obtain ⟨rfl, rfl⟩ := hone h
    rw [hblock]
    omega
  · obtain ⟨rfl, rfl⟩ := hone h
    obtain ⟨rfl, rfl⟩ := hone (e ▸ h)
    exact ⟨rfl, rfl⟩
  · rw [oneByte_used b hlt]
    constructor
    · intro h
      exact Or.inr ⟨2, .addr 0, by omega⟩
    · rintro (e | ⟨i, k, e⟩)
      · omega
      · rw [oneByte_ref] at e
        split at e
        · omega
        · omega
  · by_contra h
    obtain ⟨rfl, -⟩ := hone h
    exact absurd hi (by decide)
  · rw [(oneByte_inode i).1]
    split
    · decide
    · exact Nat.zero_le _
  · rw [(oneByte_inode i).1] at hbn
    split at hbn
    · next e =>
      have hzero : bn = 0 := by
        unfold bsize at hbn
        omega
      rw [e, hzero]
      exact hblock.trans_ne (by decide)
    · exact absurd hbn (Nat.not_lt_zero _)

theorem shows_oneByte : Shows smallDisk oneByte 2 1 (fun _ => 97) := by
  refine (shows_iff good_oneByte (by decide)).mpr ⟨by decide, rfl, fun p hp => ?_, fun p hp => ?_⟩
  · obtain rfl : p = 0 := by omega
    rfl
  · obtain rfl : p = 0 := by omega
    exact Or.inr rfl

def lastByte (b : UInt8) : Source := fun j => if j = 0 then some b else none

/-- two bytes from the end of a page: one is copied, and none is written -/
theorem writei_oneByte (b : UInt8) : ∃ t,
    writei smallDisk oneByte 2 (lastByte b) 0 2 = some (t, 0) ∧ Good smallDisk t ∧
    (t.inode 2).type ≠ 0 ∧ Stops 2 (lastByte b) 1 0 0 2 0 oneByte t := by
  have h1 : ¬ ((oneByte.inode 2).size < 0 ∨ (0 + 2) % 2 ^ 32 < 0) := by decide
  obtain ⟨t, r, e, ht, hf, -, hst⟩ := writei_stops (lastByte b) good_oneByte (by decide) (by decide)
    h1 (by decide) (by decide)
  have hread : reach (lastByte b) 0 2 = 1 := rfl
  have hr := hst.readable
  obtain rfl : r = 0 := by
    rcases hst.start (by omega) with h0 | hmod
    · exact h0
    · unfold bsize at hmod
      omega
  exact ⟨t, e, ht, (hf.type 2).trans_ne (by decide), hst⟩

/-- the byte 98 is seen, with the result 0 -/
theorem writei_short_seen : ∃ t, writei smallDisk oneByte 2 (lastByte 98) 0 2 = some (t, 0) ∧
    Shows smallDisk oneByte 2 1 (fun _ => 97) ∧ ¬ Clean smallDisk t 2 1 0 0 (fun _ => 97) := by
  obtain ⟨t, e, ht, hi, hst⟩ := writei_oneByte 98
  refine ⟨t, e, shows_oneByte, fun hclean => ?_⟩
  rcases hclean.vain ht hi hst (by decide) with hall | hvain
  · exact absurd hall (by decide)
  · exact absurd (hvain 0 (by decide) (by decide) (by decide)) (by decide)

/-- the byte that is there already -/
theorem writei_short_same : ∃ t, writei smallDisk oneByte 2 (lastByte 97) 0 2 = some (t, 0) ∧
    Clean smallDisk t 2 1 0 0 (fun _ => 97) := by
  obtain ⟨t, e, -⟩ := writei_oneByte 97
  refine ⟨t, e, (writei_short_iff good_oneByte (by decide) (by decide) (by decide) shows_oneByte e
    (by decide)).mpr (Or.inr (Or.inr (Or.inr fun p hp _ _ => ?_)))⟩
  obtain rfl : p = 0 := Nat.lt_one_iff.mp hp
  rfl

end Blocks
