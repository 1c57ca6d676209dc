import Xv6.Virtio.Refine

/-!
# No descriptor is lost

Each descriptor that is in use is in the chain of one process that waits, so none is freed twice,
and a process waits for descriptors only as long as others have theirs.
-/

namespace Virtio
open Lib

section
variable {T B S : Type} {s t : State T B S} {g : Ghost T} {b : B} {p q : T} {i j k : Nat}
  {write : Bool}

/-- the descriptors of a chain, as the list goes -/
def State.chain (s : State T B S) (i : Nat) : List Nat :=
  [i, (s.desc i).next, (s.desc (s.desc i).next).next]

theorem Chained.chain_eq (h : Chained s b i j k) : s.chain i = [i, j, k] := by
  unfold State.chain
  rw [h.head]
  dsimp only
  rw [h.body]

theorem Inv.chain (h : Inv s g) (hp : s.thread p = .wait b i) :
    (s.chain i).Nodup ∧ ∀ n, n ∈ s.chain i ↔ g.own n = some p := by
  obtain ⟨j, k, hc, hown⟩ := h.waits p b i hp
  obtain ⟨hij, hik, hjk⟩ := hc.ne
  rw [hc.chain_eq]
  refine ⟨by simp [hij, hik, hjk], fun n => ?_⟩
  rw [hown n]
  simp

theorem Inv.in_use (h : Inv s g) {n : Nat} (hn : n < num) :
    s.free n = false ↔ ∃ p b i, s.thread p = .wait b i ∧ n ∈ s.chain i := by
  constructor
  · intro hfree
    cases hown : g.own n with
    | none => cases hfree.symm.trans (h.free n hn hown)
    | some p =>
      obtain ⟨-, -, b, i, hp⟩ := h.own n p hown
      exact ⟨p, b, i, hp, ((h.chain hp).2 n).mpr hown⟩
  · rintro ⟨p, b, i, hp, hmem⟩
    exact (h.own n p (((h.chain hp).2 n).mp hmem)).2.1

/-- when three descriptors are not to be had, at most two are free -/
theorem alloc3Desc_fails {r : State T B S} (h : alloc3Desc s = .ok (r, none)) :
    ∃ i j, ∀ n < num, s.free n = true → n = i ∨ n = j := by
  unfold alloc3Desc at h
  cases h₁ : allocDesc s with
  | none =>
    refine ⟨0, 0, fun n hn hfree => ?_⟩
    cases hfree.symm.trans (allocDesc_none h₁ hn)
  | some r₁ =>
    obtain ⟨i, s₁⟩ := r₁
    obtain ⟨-, -, rfl⟩ := allocDesc_some h₁
    rw [h₁] at h
    dsimp only at h
    cases h₂ : allocDesc { s with free := Function.update s.free i false } with
    | none =>
      refine ⟨i, i, fun n hn hfree => ?_⟩
      by_contra hne
      have hni : n ≠ i := fun e => hne (.inl e)
      have hnot := allocDesc_none h₂ hn
      change Function.update s.free i false n = false at hnot
      rw [Function.update_of_ne hni] at hnot
      cases hfree.symm.trans hnot
    | some r₂ =>
      obtain ⟨j, s₂⟩ := r₂
      obtain ⟨-, -, rfl⟩ := allocDesc_some h₂
      rw [h₂] at h
      dsimp only at h
      cases h₃ : allocDesc { s with
          free := Function.update (Function.update s.free i false) j false } with
      | none =>
        refine ⟨i, j, fun n hn hfree => ?_⟩
        by_contra hne
        have hnot := allocDesc_none h₃ hn
        change Function.update (Function.update s.free i false) j false n = false at hnot
        rw [Function.update_of_ne (fun e => hne (.inr e)),
          Function.update_of_ne (fun e => hne (.inl e))] at hnot
        cases hfree.symm.trans hnot
      | some r₃ =>
        rw [h₃] at h
        cases h

variable [DecidableEq T] [DecidableEq B]

/-- no panic of the driver is reached and the device finds a request wherever it looks; a descriptor
is in use exactly when it is in the chain of a process that waits, and in one chain only -/
theorem descriptors_accounted {buf : B → Buf S} {D : Nat → S} {l : List (Act T B S)}
    (h : Run (guarded Promised Step) (start buf D) l s) :
    (∀ a e, Promised s a → step s a = .error e → e = .undefined) ∧
      (∀ p b i, s.thread p = .wait b i → (s.chain i).Nodup ∧ ∀ n ∈ s.chain i, n < num) ∧
      (∀ p q b c i j, s.thread p = .wait b i → s.thread q = .wait c j → p ≠ q →
        (s.chain i).Disjoint (s.chain j)) ∧
      ∀ n < num, s.free n = false ↔ ∃ p b i, s.thread p = .wait b i ∧ n ∈ s.chain i := by
  obtain ⟨⟨g, hg⟩, -⟩ := run_refines h
  refine ⟨fun a e hp he => ?_, fun p b i hp => ?_, fun p q b c i j hp hq hne n hn hn' => ?_,
    fun n hn => hg.in_use hn⟩
  · obtain ⟨t, -, -, ht, -⟩ | herr := step_refines hg hp
    · cases ht.symm.trans he
    · exact Except.error.inj (he.symm.trans herr)
  · exact ⟨(hg.chain hp).1, fun n hn => (hg.own n p (((hg.chain hp).2 n).mp hn)).1⟩
  · have hpn := ((hg.chain hp).2 n).mp hn
    exact hne (Option.some.inj (hpn.symm.trans (((hg.chain hq).2 n).mp hn')))

theorem descriptors_accounted_first : ∃ s : State Unit Unit Nat, s.thread () = .wait () 0 ∧
    ∀ n < num, s.free n = false ↔ ∃ p b i, s.thread p = .wait b i ∧ n ∈ s.chain i :=
  have hrun : ∃ s : State Unit Unit Nat, Run (guarded Promised Step)
      (start (fun _ => ⟨5, false, 0, 0⟩) (fun n => n + 100)) [.call () () false] s ∧
      s.thread () = .wait () 0 :=
    ⟨_, .single ⟨⟨fun _ => (Option.some_ne_none ()).symm, by decide⟩, rfl⟩, rfl⟩
  have ⟨s, hs, hwait⟩ := hrun
  ⟨s, hwait, (descriptors_accounted hs).2.2.2⟩

/-! ## who waits for descriptors -/

/-- a call sleeps on `disk.free` only while two other processes wait for their requests -/
theorem sleeps_behind_two {buf : B → Buf S} {D : Nat → S} {l : List (Act T B S)}
    (h : Run (guarded Promised Step) (start buf D) l s) (ht : enter s p b write = .ok t)
    (hsleep : t.thread p = .alloc b write) :
    ∃ q r c d m n, q ≠ r ∧ s.thread q = .wait c m ∧ s.thread r = .wait d n := by
  obtain ⟨i, j, htwo⟩ : ∃ i j, ∀ n < num, s.free n = true → n = i ∨ n = j := by
    unfold enter at ht
    obtain ⟨E, hno, -⟩ | ⟨i, j, k, hsome, -⟩ := alloc3Desc_ok s
    · exact alloc3Desc_fails hno
    · rw [hsome] at ht
      obtain rfl := Except.ok.inj ht
      change Function.update s.thread p (.wait b i) p = _ at hsleep
      rw [Function.update_self] at hsleep
      cases hsleep
  obtain ⟨⟨g, hg⟩, -⟩ := run_refines h
  have hused := fun n hn => hg.in_use (n := n) hn
  by_contra hno
  -- one chain and two free descriptors are less than all
  have hfew : ∃ L : List Nat, L.length ≤ 3 ∧ List.range num ⊆ [i, j] ++ L := by
    by_cases hex : ∃ q c m, s.thread q = .wait c m
    · obtain ⟨q, c, m, hq⟩ := hex
      refine ⟨s.chain m, le_rfl, fun n hn => ?_⟩
      have hlt := List.mem_range.mp hn
      cases hfree : s.free n with
      | true => exact List.mem_append_left _ (by simpa using htwo n hlt hfree)
      | false =>
        obtain ⟨r, d, m', hr, hmem⟩ := (hused n hlt).mp hfree
        by_cases hqr : q = r
        · obtain ⟨-, rfl⟩ := Pc.wait.inj (hq.symm.trans (hqr ▸ hr))
          exact List.mem_append_right _ hmem
        · exact absurd ⟨q, r, c, d, m, m', hqr, hq, hr⟩ hno
    · refine ⟨[], by simp, fun n hn => ?_⟩
      have hlt := List.mem_range.mp hn
      cases hfree : s.free n with
      | true => exact List.mem_append_left _ (by simpa using htwo n hlt hfree)
      | false =>
        obtain ⟨r, d, m', hr, -⟩ := (hused n hlt).mp hfree
        exact absurd ⟨r, d, m', hr⟩ hex
  obtain ⟨L, hL, hsub⟩ := hfew
  have hle := (List.nodup_range.subperm hsub).length_le
  rw [List.length_range, List.length_append] at hle
  change 8 ≤ 2 + L.length at hle
  omega

/-- the third call sleeps -/
theorem sleeps_behind_two_third : ∃ s : State (Option Bool) (Option Bool) Nat,
    (∃ t, enter s none none false = .ok t ∧ t.thread none = .alloc none false) ∧
      ∃ q r c d m n, q ≠ r ∧ s.thread q = .wait c m ∧ s.thread r = .wait d n := by
  obtain ⟨s, hs, t, ht, hsleep⟩ : ∃ s : State (Option Bool) (Option Bool) Nat,
      Run (guarded Promised Step) (start (fun _ => ⟨1, false, 0, 0⟩) (fun n => n))
        [.call (some false) (some false) false, .call (some true) (some true) true] s ∧
      ∃ t, enter s none none false = .ok t ∧ t.thread none = .alloc none false := by
    refine ⟨_, .cons ⟨⟨fun _ => (Option.some_ne_none _).symm, by decide⟩, rfl⟩
      (.single ⟨⟨fun q => ?_, by decide⟩, rfl⟩), _, rfl, rfl⟩
    cases q with
    | none => exact (Option.some_ne_none _).symm
    | some q =>
      cases q with
      | false => exact fun e => by cases e
      | true => exact (Option.some_ne_none _).symm
  exact ⟨s, ⟨t, ht, hsleep⟩, sleeps_behind_two hs ht hsleep⟩

end

end Virtio
