import Mathlib.Data.List.Basic
import Xv6.Lib.Argv
import Xv6.Vm.Words

/-!
# The arguments of `exec` (`sys_exec`, `fetchaddr`, `fetchstr`, and the stack in `exec`)

`sys_exec` fetches the argument vector from the memory of its caller, and `exec` builds one on the
stack of the new program.  Both are `Argv` of what the process can read.
-/

namespace Args
open Lib Copy Words
open Vm hiding Mem copyout walk walkaddr

/-! ## the model -/

abbrev maxarg : Nat := 32

/-- the byte that the process has at an address -/
def readable (t : UserTable) (m : Mem) (va : Nat) : Option UInt8 :=
  (byteAddr t.walkaddr va).map m

/-- `fetchaddr`; `sz` is `p->sz` -/
def fetchaddr (t : UserTable) (m : Mem) (sz addr : UInt64) : Option UInt64 :=
  if addr ≥ sz ∨ addr + 8 > sz then none
  else
    match copyin t.walkaddr m addr 8 with
    | (bytes, ret) => if ret ≠ 0 then none else some (UInt64.ofNat (leValue bytes))

/-- `fetchstr`: the string in `buf` -/
def fetchstr (t : UserTable) (m : Mem) (addr max : UInt64) : Option (List UInt8) :=
  match copyinstr t.walkaddr m addr max with
  | (bytes, ret) => if ret < 0 then none else some (bytes.takeWhile (· ≠ 0))

/-- the loop of `sys_exec`, with room for `n` more arguments; `kalloc i` is whether the `i`-th call
gets a page -/
def fetchArgs (t : UserTable) (m : Mem) (sz uargv : UInt64) (kalloc : Nat → Bool) :
    Nat → Nat → Option (List (List UInt8))
  | 0, _ => none
  | n + 1, i =>
    match fetchaddr t m sz (uargv + 8 * UInt64.ofNat i) with
    | none => none
    | some uarg =>
      if uarg = 0 then some []
      else if kalloc i then
        match fetchstr t m uarg 4096 with
        | none => none
        | some s => (fetchArgs t m sz uargv kalloc n (i + 1)).map (s :: ·)
      else none

/-- `sp -= n; sp -= sp % 16` -/
def down (sp n : UInt64) : UInt64 := sp - n - (sp - n) % 16

/-- the loop of `exec` over the arguments -/
def pushArgs (t : UserTable) (stackbase : UInt64) : List (List UInt8) → List UInt64 → Mem → UInt64 →
    Option (Mem × UInt64 × List UInt64)
  | [], ustack, m, sp => some (m, sp, ustack)
  | s :: argv, ustack, m, sp =>
    if ustack.length ≥ maxarg then none
    else
      let sp := down sp (UInt64.ofNat s.length + 1)
      if sp < stackbase then none
      else
        match copyout t.walkaddr m sp (fun i => (s ++ [0]).getD i 0)
          (UInt64.ofNat s.length + 1) with
        | (m, ret) => if ret < 0 then none else pushArgs t stackbase argv (ustack ++ [sp]) m sp

/-- the stack of the new program: `sp`, which is also `argv`, and `argc` -/
def pushStack (t : UserTable) (sz : UInt64) (argv : List (List UInt8)) (m : Mem) :
    Option (Mem × UInt64 × Nat) :=
  let stackbase := sz - 4096
  match pushArgs t stackbase argv [] m sz with
  | none => none
  | some (m, sp, ustack) =>
    let argc := ustack.length
    let sp := down sp (8 * (UInt64.ofNat argc + 1))
    if sp < stackbase then none
    else
      match copyout t.walkaddr m sp (fun i => (pointers (ustack.map UInt64.toNat)).getD i 0)
        (8 * (UInt64.ofNat argc + 1)) with
      | (m, ret) => if ret < 0 then none else some (m, sp, argc)

/-! ## what the process reads -/

section
variable {t : UserTable} {m m' : Mem} {va n i : Nat} {addr max sz : UInt64} {l s : List UInt8}

theorem readable_of_mapped (h : Mapped t va) : readable t m va = some (m (phys t va)) := by
  unfold readable
  rw [byteAddr_of_mapped h]
  rfl

theorem mapped_of_readable {b : UInt8} (h : readable t m va = some b) :
    Mapped t va ∧ m (phys t va) = b := by
  obtain ⟨pa, hpa, rfl⟩ := Option.map_eq_some_iff.mp h
  obtain ⟨hm, rfl⟩ := byteAddr_eq_some hpa
  exact ⟨hm, rfl⟩

/-- a range of mapped bytes does not wrap -/
theorem user_eq (h : ∀ j < n, Mapped t (user addr j)) (hi : i < n) :
    user addr i = addr.toNat + i := by
  have hlt := addr.toNat_lt
  unfold user
  refine Nat.mod_eq_of_lt ?_
  by_contra hge
  have hj : 2 ^ 64 - 1 - addr.toNat < n := by omega
  have h1 := (h _ hj).1
  unfold user at h1
  rw [show addr.toNat + (2 ^ 64 - 1 - addr.toNat) = 2 ^ 64 - 1 by omega,
    Nat.mod_eq_of_lt (by norm_num)] at h1
  exact absurd h1 (by decide)

theorem placed_of_mapped (h : ∀ j < n, Mapped t (user addr j)) :
    Placed (readable t m) addr.toNat
      ((List.range n).map fun i => m (phys t (user addr i))) := by
  intro i b hb
  rw [List.getElem?_map] at hb
  obtain ⟨j, hj, rfl⟩ := Option.map_eq_some_iff.mp hb
  obtain ⟨hlt, rfl⟩ := List.getElem?_eq_some_iff.mp hj
  rw [List.length_range] at hlt
  rw [List.getElem_range, user_eq h hlt]
  exact readable_of_mapped (user_eq h hlt ▸ h _ hlt)

theorem mapped_of_placed (h : Placed (readable t m) addr.toNat l)
    (hno : addr.toNat + l.length ≤ 2 ^ 64) : ∀ j < l.length, Mapped t (user addr j) := by
  intro j hj
  have h1 := (mapped_of_readable (h j _ (List.getElem?_eq_getElem hj))).1
  unfold user
  rwa [Nat.mod_eq_of_lt (by omega)]

theorem leValue_lt : leValue l < 256 ^ l.length := by
  induction l with
  | nil => exact Nat.one_pos
  | cons b l ih =>
    have h : b.toNat < 256 := b.toNat_lt
    show b.toNat + 256 * leValue l < 256 ^ (l.length + 1)
    rw [pow_succ]
    omega

/-- `fetchaddr` gives the word at the address, if it is below `sz` and can be read -/
theorem fetchaddr_iff {v : UInt64} (hsz : sz.toNat ≤ maxva) : fetchaddr t m sz addr = some v ↔
    addr.toNat + 8 ≤ sz.toNat ∧ Placed (readable t m) addr.toNat (leBytes 8 v.toNat) := by
  have hspec := copyin_exact t m addr 8
  have h8 : (8 : UInt64).toNat = 8 := rfl
  have hmax : maxva ≤ 2 ^ 63 := by decide
  unfold fetchaddr
  by_cases hb : addr.toNat + 8 ≤ sz.toNat
  · have hguard : ¬ (addr ≥ sz ∨ addr + 8 > sz) := by
      have h1 : (addr + 8).toNat = addr.toNat + 8 := by
        rw [UInt64.toNat_add, h8, Nat.mod_eq_of_lt (by omega)]
      rintro (h | h)
      · have := UInt64.le_iff_toNat_le.mp h
        omega
      · have := UInt64.lt_iff_toNat_lt.mp h
        omega
    rw [if_neg hguard]
    dsimp only
    constructor
    · intro h
      split at h
      · cases h
      · rename_i hret
        have hok := Decidable.not_not.mp hret
        have hbytes := hspec.bytes hok
        have hmap := hspec.ok.mp hok
        rw [h8] at hbytes hmap
        have hlen : (copyin t.walkaddr m addr 8).1.length = 8 := by
          rw [hbytes, List.length_map, List.length_range]
        obtain rfl := Option.some.inj h
        have hlt : leValue (copyin t.walkaddr m addr 8).1 < 2 ^ 64 := by
          have h1 := leValue_lt (l := (copyin t.walkaddr m addr 8).1)
          rw [hlen] at h1
          exact lt_of_lt_of_eq h1 (by norm_num)
        refine ⟨hb, ?_⟩
        rw [UInt64.toNat_ofNat_of_lt' hlt]
        have h2 := leBytes_leValue (l := (copyin t.walkaddr m addr 8).1)
        rw [hlen] at h2
        rw [h2, hbytes]
        exact placed_of_mapped hmap
    · rintro ⟨-, h⟩
      have hmap := mapped_of_placed h (by rw [length_leBytes]; omega)
      rw [length_leBytes] at hmap
      have hok := hspec.ok.mpr hmap
      have hbytes := hspec.bytes hok
      rw [h8] at hbytes
      have h1 := h.unique (hbytes ▸ placed_of_mapped hmap) (by
        rw [hbytes, length_leBytes, List.length_map, List.length_range])
      rw [if_neg (not_not_intro hok), ← h1, leValue_leBytes, Nat.mod_eq_of_lt
        (lt_of_lt_of_eq v.toNat_lt (by norm_num))]
      exact congrArg some (UInt64.ofNat_toNat ..)
  · have hguard : addr ≥ sz ∨ addr + 8 > sz := by
      by_cases hge : sz ≤ addr
      · exact .inl hge
      · refine .inr (UInt64.lt_iff_toNat_lt.mpr ?_)
        have h1 : addr.toNat < sz.toNat :=
          Nat.lt_of_not_le fun h => hge (UInt64.le_iff_toNat_le.mpr h)
        rw [UInt64.toNat_add, h8, Nat.mod_eq_of_lt (by omega)]
        omega
    rw [if_pos hguard]
    exact iff_of_false (fun e => by cases e) fun h => hb h.1

theorem takeWhile_nul (h : 0 ∉ s) : (s ++ [0]).takeWhile (· ≠ 0) = s := by
  induction s with
  | nil => rfl
  | cons b s ih =>
    rw [List.mem_cons, not_or] at h
    rw [List.cons_append, List.takeWhile_cons_of_pos (by simpa using Ne.symm h.1), ih h.2]

theorem cstr_of_bytes (hmap : ∀ j ≤ i, Mapped t (user addr j)) (hz : m (phys t (user addr i)) = 0)
    (hne : ∀ j < i, m (phys t (user addr j)) ≠ 0) :
    CStr (readable t m) addr.toNat ((List.range i).map fun j => m (phys t (user addr j))) ∧
      (List.range (i + 1)).map (fun j => m (phys t (user addr j))) =
        (List.range i).map (fun j => m (phys t (user addr j))) ++ [0] := by
  have hlast : (List.range (i + 1)).map (fun j => m (phys t (user addr j))) =
      (List.range i).map (fun j => m (phys t (user addr j))) ++ [0] := by
    rw [List.range_succ, List.map_append, List.map_singleton, hz]
  refine ⟨⟨fun h => ?_, ?_⟩, hlast⟩
  · obtain ⟨j, hj, e⟩ := List.mem_map.mp h
    exact hne j (List.mem_range.mp hj) e
  · rw [← hlast]
    exact placed_of_mapped fun j hj => hmap j (Nat.le_of_lt_succ hj)

theorem fetchstr_iff : fetchstr t m addr max = some s ↔
    CStr (readable t m) addr.toNat s ∧ s.length < max.toNat := by
  have hspec := copyinstr_exact t m addr max
  unfold fetchstr
  dsimp only
  constructor
  · intro h
    split at h
    · cases h
    · rename_i hret
      have hok : (copyinstr t.walkaddr m addr max).2 = 0 := by
        obtain h | h := hspec.ret
        · exact h
        · exact absurd (h ▸ by decide) hret
      obtain ⟨k, hk, hkz, hkmap⟩ := hspec.ok.mp hok
      have hex : ∃ i, m (phys t (user addr i)) = 0 := ⟨k, hkz⟩
      have hle := Nat.find_min' hex hkz
      have hne : ∀ j < Nat.find hex, m (phys t (user addr j)) ≠ 0 := fun j hj => Nat.find_min hex hj
      obtain ⟨hs, hlast⟩ :=
        cstr_of_bytes (fun j hj => hkmap j (hj.trans hle)) (Nat.find_spec hex) hne
      rw [hspec.bytes hok _ (Nat.find_spec hex) hne, hlast, takeWhile_nul hs.1] at h
      obtain rfl := Option.some.inj h
      refine ⟨hs, ?_⟩
      rw [List.length_map, List.length_range]
      exact Nat.lt_of_le_of_lt hle hk
  · rintro ⟨hs, hlen⟩
    have hend := (mapped_of_readable hs.nul).1.1
    have hmax : maxva ≤ 2 ^ 63 := by decide
    have hl : (s ++ [0]).length = s.length + 1 := List.length_append
    have hmap := mapped_of_placed hs.2 (by rw [hl]; omega)
    rw [hl] at hmap
    have hat : ∀ j b, (s ++ [0])[j]? = some b → m (phys t (user addr j)) = b := by
      intro j b hj
      have hlt := (List.getElem?_eq_some_iff.mp hj).1
      rw [hl] at hlt
      rw [user_eq hmap hlt]
      exact (mapped_of_readable (hs.2 j b hj)).2
    have hz : m (phys t (user addr s.length)) = 0 := hat _ _ (by simp)
    have hne : ∀ j < s.length, m (phys t (user addr j)) ≠ 0 := by
      intro j hj e
      have h1 := hat j _ (by rw [List.getElem?_append_left hj]; exact List.getElem?_eq_getElem hj)
      exact hs.1 (e ▸ h1 ▸ List.getElem_mem hj)
    have hok := hspec.ok.mpr ⟨s.length, hlen, hz, fun j hj => hmap j (Nat.lt_succ_of_le hj)⟩
    obtain ⟨hs', hlast⟩ := cstr_of_bytes (fun j hj => hmap j (Nat.lt_succ_of_le hj)) hz hne
    rw [if_neg (by rw [hok]; decide), hspec.bytes hok _ hz hne, hlast, takeWhile_nul hs'.1,
      hs'.unique hs]

theorem next_pointer {uargv : UInt64} (hi : i + (n + 1) ≤ maxarg) :
    uargv + 8 * UInt64.ofNat (i + 1) = uargv + 8 * UInt64.ofNat i + 8 := by
  have hi' : i + (n + 1) ≤ 32 := hi
  rw [← UInt64.toNat_inj]
  simp only [UInt64.toNat_add, UInt64.toNat_mul, UInt64.toNat_ofNat',
    show (8 : UInt64).toNat = 8 from rfl]
  omega

/-- what `sys_exec` fetches is the vector of its caller, if that is complete below `sz`, has at most
31 strings of less than a page, and there are pages for them -/
theorem fetchArgs_iff {uargv : UInt64} {kalloc : Nat → Bool} {args : List (List UInt8)}
    (hsz : sz.toNat ≤ maxva) (hi : i + n ≤ maxarg) :
    fetchArgs t m sz uargv kalloc n i = some args ↔
      Argv (readable t m) (uargv + 8 * UInt64.ofNat i).toNat args ∧
      (uargv + 8 * UInt64.ofNat i).toNat + 8 * (args.length + 1) ≤ sz.toNat ∧ args.length < n ∧
      (∀ s ∈ args, s.length < 4096) ∧ ∀ k, i ≤ k → k < i + args.length → kalloc k = true := by
  induction n generalizing i args with
  | zero => exact iff_of_false (fun e => by cases e) fun h => absurd h.2.2.1 (Nat.not_lt_zero _)
  | succ n ih =>
    have hmax : maxva ≤ 2 ^ 63 := by decide
    have ih' := @ih (i + 1)
    rw [next_pointer hi] at ih'
    unfold fetchArgs
    generalize uargv + 8 * UInt64.ofNat i = a at ih' ⊢
    cases hf : fetchaddr t m sz a with
    | none =>
      refine iff_of_false (fun e => by cases e) ?_
      rintro ⟨h, hle, -⟩
      obtain ⟨p, hp, hword⟩ := h.head
      rw [← UInt64.toNat_ofNat_of_lt' hp] at hword
      rw [(fetchaddr_iff hsz).mpr ⟨by omega, hword⟩] at hf
      cases hf
    | some uarg =>
      obtain ⟨hle, hword⟩ := (fetchaddr_iff hsz).mp hf
      dsimp only
      by_cases h0 : uarg = 0
      · rw [if_pos h0, argv_null_iff (by rw [h0] at hword; exact hword)]
        constructor
        · intro e
          obtain rfl := Option.some.inj e
          exact ⟨rfl, hle, Nat.succ_pos n, fun s hs => absurd hs List.not_mem_nil, fun k h1 h2 => by
            rw [List.length_nil] at h2
            omega⟩
        · rintro ⟨rfl, -⟩
          rfl
      · have hne : uarg.toNat ≠ 0 := fun e => h0 (UInt64.toNat_inj.mp e)
        have h8 : (a + 8).toNat = a.toNat + 8 := by
          rw [UInt64.toNat_add, show (8 : UInt64).toNat = 8 from rfl, Nat.mod_eq_of_lt (by omega)]
        rw [if_neg h0, argv_pointer_iff hword uarg.toNat_lt hne]
        by_cases hk : kalloc i = true
        · rw [if_pos hk]
          have hi' : i + 1 + n ≤ maxarg := by omega
          cases hs : fetchstr t m uarg 4096 with
          | none =>
            refine iff_of_false (fun e => by cases e) ?_
            rintro ⟨⟨s, args', rfl, hs', -⟩, -, -, hlen, -⟩
            have hlt : s.length < (4096 : UInt64).toNat := hlen s List.mem_cons_self
            rw [fetchstr_iff.mpr ⟨hs', hlt⟩] at hs
            cases hs
          | some s =>
            obtain ⟨hs, hlt⟩ := fetchstr_iff.mp hs
            dsimp only
            rw [Option.map_eq_some_iff]
            constructor
            · rintro ⟨args', h, rfl⟩
              obtain ⟨h1, h2, h3, h4, h5⟩ := (ih' hi').mp h
              rw [h8] at h1 h2
              refine ⟨⟨s, args', rfl, hs, h1⟩, ?_, Nat.succ_lt_succ h3,
                List.forall_mem_cons.mpr ⟨hlt, h4⟩, fun k hk1 hk2 => ?_⟩
              · rw [List.length_cons]
                omega
              · rw [List.length_cons] at hk2
                by_cases hki : k = i
                · rw [hki]
                  exact hk
                · exact h5 k (by omega) (by omega)
            · rintro ⟨⟨s', args', rfl, hs', h1⟩, h2, h3, h4, h5⟩
              obtain rfl := hs.unique hs'
              rw [List.length_cons] at h2 h3 h5
              refine ⟨args', (ih' hi').mpr ?_, rfl⟩
              rw [h8]
              exact ⟨h1, by omega, by omega, (List.forall_mem_cons.mp h4).2,
                fun k hk1 hk2 => h5 k (by omega) (by omega)⟩
        · rw [if_neg hk]
          refine iff_of_false (fun e => by cases e) ?_
          rintro ⟨⟨s, args', rfl, -⟩, -, -, -, h⟩
          exact hk (h i (le_refl i) (by rw [List.length_cons]; omega))

/-! ## the stack -/

/-- `n` with the padding that follows it -/
def padded (n : Nat) : Nat := (n + 15) / 16 * 16

/-- what the strings of an argument vector take -/
def stringNeed (argv : List (List UInt8)) : Nat := (argv.map fun s => padded (s.length + 1)).sum

/-- what the strings and the array of pointers take -/
def stackNeed (argv : List (List UInt8)) : Nat :=
  stringNeed argv + padded (8 * (argv.length + 1))

theorem down_eq {sp k : UInt64} (h : k.toNat ≤ sp.toNat) :
    (down sp k).toNat = sp.toNat - k.toNat - (sp.toNat - k.toNat) % 16 := by
  have h1 : (sp - k).toNat = sp.toNat - k.toNat :=
    UInt64.toNat_sub_of_le _ _ (UInt64.le_iff_toNat_le.mpr h)
  have h2 : ((sp - k) % 16).toNat = (sp.toNat - k.toNat) % 16 := by
    rw [UInt64.toNat_mod, h1]
    rfl
  have h3 : (sp - k) % 16 ≤ sp - k := by
    rw [UInt64.le_iff_toNat_le, h1, h2]
    exact Nat.mod_le _ _
  unfold down
  rw [UInt64.toNat_sub_of_le _ _ h3, h1, h2]

theorem down_toNat {sp k : UInt64} (h : k.toNat ≤ sp.toNat) (h16 : sp.toNat % 16 = 0) :
    (down sp k).toNat = sp.toNat - padded k.toNat := by
  rw [down_eq h]
  unfold padded
  omega

theorem phys_page (base : Nat) (hbase : base % pgsize = 0) (h1 : base ≤ va)
    (h2 : va < base + pgsize) : phys t va = t.walkaddr base + (va - base) := by
  have h : pgrounddown va = base := by
    unfold pgrounddown pgsize at *
    omega
  unfold phys
  rw [h]
  unfold pgsize at *
  omega

theorem mapped_page (base : Nat) (hbase : base % pgsize = 0) (h1 : base ≤ va)
    (h2 : va < base + pgsize) : Mapped t va ↔ Mapped t base := by
  have h : pgrounddown va = base := by
    unfold pgrounddown pgsize at *
    omega
  have h' : pgrounddown base = base := Nat.div_mul_cancel (Nat.dvd_of_mod_eq_zero hbase)
  rw [← walkaddr_ne_zero, ← walkaddr_ne_zero, h, h']

theorem copyout_page {base : Nat} {sp len : UInt64} (src : Nat → UInt8) (hbase : base % pgsize = 0)
    (hmap : Mapped t base) (h1 : base ≤ sp.toNat) (h2 : sp.toNat + len.toNat ≤ base + pgsize) :
    (copyout t.walkaddr m sp src len).2 = 0 ∧
      (∀ i < len.toNat, readable t (copyout t.walkaddr m sp src len).1 (sp.toNat + i) =
        some (src i)) ∧
      ∀ x, base ≤ x → x < base + pgsize → x < sp.toNat ∨ sp.toNat + len.toNat ≤ x →
        readable t (copyout t.walkaddr m sp src len).1 x = readable t m x := by
  have hspec := copyout_exact t m sp src len
  have hlt : base + pgsize ≤ 2 ^ 63 := by
    have h3 : base < maxva := hmap.1
    unfold maxva at h3
    unfold pgsize at *
    omega
  have huser : ∀ i < len.toNat, user sp i = sp.toNat + i := by
    intro i hi
    unfold user
    exact Nat.mod_eq_of_lt (by omega)
  have hin : ∀ x, base ≤ x → x < base + pgsize → Mapped t x :=
    fun x hx hx' => (mapped_page base hbase hx hx').mpr hmap
  have hok : (copyout t.walkaddr m sp src len).2 = 0 := by
    refine hspec.ok.mpr fun i hi => ?_
    rw [huser i hi]
    exact hin _ (by omega) (by omega)
  refine ⟨hok, fun i hi => ?_, fun x hx hx' hout => ?_⟩
  · rw [readable_of_mapped (hin _ (by omega) (by omega)), ← huser i hi]
    refine congrArg some (hspec.bytes hok i hi fun j hij hj e => ?_)
    rw [huser i hi, huser j hj, phys_page base hbase (by omega) (by omega),
      phys_page base hbase (by omega) (by omega)] at e
    omega
  · have hx1 := hin x hx hx'
    rw [readable_of_mapped hx1, readable_of_mapped hx1]
    refine congrArg some (hspec.frame _ fun i hi _ e => ?_)
    rw [huser i hi, phys_page base hbase (by omega) (by omega), phys_page base hbase hx hx'] at e
    omega

/-- a text that is copied into the page, with what is above it kept -/
theorem copyout_placed {base : Nat} (m : Mem) (sp len : UInt64) (hbase : base % pgsize = 0)
    (hmap : Mapped t base) (h1 : base ≤ sp.toNat) (h2 : sp.toNat + len.toNat ≤ base + pgsize)
    (hlen : l.length = len.toNat) :
    ∃ m', copyout t.walkaddr m sp (fun i => l.getD i 0) len = (m', 0) ∧
      Placed (readable t m') sp.toNat l ∧
      ∀ x, sp.toNat + len.toNat ≤ x → x < base + pgsize → readable t m' x = readable t m x := by
  obtain ⟨hok, hbytes, hframe⟩ :=
    copyout_page (m := m) (fun i => l.getD i 0) hbase hmap h1 h2
  refine ⟨_, Prod.ext rfl hok, fun i b hb => ?_, fun x hx hx' => ?_⟩
  · have hi := (List.getElem?_eq_some_iff.mp hb).1
    rw [hbytes i (hlen ▸ hi)]
    show some (l.getD i 0) = some b
    rw [List.getD_eq_getElem?_getD, hb]
    rfl
  · exact hframe x (by omega) hx' (.inr hx)

theorem stringNeed_cons {argv : List (List UInt8)} :
    stringNeed (s :: argv) = padded (s.length + 1) + stringNeed argv := List.sum_cons

/-- a string as `fetchstr` gives it -/
def IsArg (s : List UInt8) : Prop := 0 ∉ s ∧ s.length < 4096

section
variable {base : Nat} {stackbase sp : UInt64} {argv : List (List UInt8)} {ustack : List UInt64}

theorem arg_length (h : IsArg s) : (UInt64.ofNat s.length + 1).toNat = s.length + 1 := by
  have hlt := h.2
  rw [UInt64.toNat_add, UInt64.toNat_ofNat_of_lt' (hlt.trans (by decide)),
    show (1 : UInt64).toNat = 1 from rfl]
  exact Nat.mod_eq_of_lt (by omega)

theorem le_padded : n ≤ padded n := by
  unfold padded
  omega

theorem le_stringNeed (h : s ∈ argv) : padded (s.length + 1) ≤ stringNeed argv := by
  induction argv with
  | nil => exact absurd h List.not_mem_nil
  | cons s' argv ih =>
    rw [stringNeed_cons]
    obtain rfl | h := List.mem_cons.mp h
    · exact Nat.le_add_right _ _
    · exact (ih h).trans (Nat.le_add_left _ _)

theorem stringNeed_mod (argv : List (List UInt8)) : stringNeed argv % 16 = 0 := by
  induction argv with
  | nil => rfl
  | cons s argv ih =>
    rw [stringNeed_cons, Nat.add_mod, ih]
    unfold padded
    omega

theorem pushArgs_cons (hs : IsArg s) (hpage : 4096 ≤ stackbase.toNat)
    (hsp : stackbase.toNat ≤ sp.toNat) (h16 : sp.toNat % 16 = 0) :
    (down sp (UInt64.ofNat s.length + 1)).toNat = sp.toNat - padded (s.length + 1) ∧
    (down sp (UInt64.ofNat s.length + 1) < stackbase ↔
      sp.toNat < stackbase.toNat + padded (s.length + 1)) := by
  have hlen := arg_length hs
  have hlt := hs.2
  have h1 : (down sp (UInt64.ofNat s.length + 1)).toNat = sp.toNat - padded (s.length + 1) := by
    rw [down_toNat (by rw [hlen]; omega) h16, hlen]
  refine ⟨h1, ?_⟩
  have h2 : padded (s.length + 1) ≤ 4096 := by
    unfold padded
    omega
  rw [UInt64.lt_iff_toNat_lt, h1]
  omega

/-- strings that fit are pushed, each below the one before it -/
theorem pushArgs_fits (m : Mem) (sp : UInt64) (ustack : List UInt64)
    (hbase : stackbase.toNat % pgsize = 0) (hmap : Mapped t stackbase.toNat)
    (hpage : 4096 ≤ stackbase.toNat) (htop : sp.toNat ≤ stackbase.toNat + pgsize)
    (h16 : sp.toNat % 16 = 0) (hargs : ∀ s ∈ argv, IsArg s)
    (hmax : ustack.length + argv.length ≤ maxarg)
    (hfit : stackbase.toNat + stringNeed argv ≤ sp.toNat) :
    ∃ m' sp' ps, pushArgs t stackbase argv ustack m sp = some (m', sp', ustack ++ ps) ∧
      sp'.toNat = sp.toNat - stringNeed argv ∧
      List.Forall₂ (fun p s => sp'.toNat ≤ UInt64.toNat p ∧ p.toNat + s.length < sp.toNat ∧
        CStr (readable t m') p.toNat s) ps argv ∧
      ∀ x, sp.toNat ≤ x → x < stackbase.toNat + pgsize → readable t m' x = readable t m x := by
  induction argv generalizing ustack m sp with
  | nil => exact ⟨m, sp, [], by rw [List.append_nil]; rfl, rfl, .nil, fun _ _ _ => rfl⟩
  | cons s argv ih =>
    obtain ⟨hs, hargs⟩ := List.forall_mem_cons.mp hargs
    rw [stringNeed_cons] at hfit
    rw [List.length_cons] at hmax
    have hroom : ustack.length < maxarg := by omega
    have hmax' : ∀ p : UInt64, (ustack ++ [p]).length + argv.length ≤ maxarg := by
      intro p
      rw [List.length_append, List.length_singleton]
      omega
    obtain ⟨hdown, hguard⟩ := pushArgs_cons hs hpage (by omega) h16
    have hlen := arg_length hs
    have hle := le_padded (n := s.length + 1)
    unfold pushArgs
    rw [if_neg (Nat.not_le.mpr hroom)]
    dsimp only
    rw [if_neg (by rw [hguard]; omega)]
    generalize down sp (UInt64.ofNat s.length + 1) = sp1 at hdown
    obtain ⟨m1, hcopy, hplaced, hframe⟩ := copyout_placed (l := s ++ [0]) m sp1
      (UInt64.ofNat s.length + 1) hbase hmap (by omega) (by omega)
      (by rw [hlen]; exact List.length_append)
    rw [hcopy]
    dsimp only
    rw [if_neg (by decide)]
    obtain ⟨m', sp', ps, hpush, hsp', hall, hframe'⟩ := ih m1 sp1 (ustack ++ [sp1]) (by omega)
      (by unfold padded at hdown; omega) hargs (hmax' sp1) (by omega)
    refine ⟨m', sp', sp1 :: ps, ?_, ?_, .cons ⟨by omega, by omega, ?_⟩ (hall.imp ?_),
      fun x hx hx' => ?_⟩
    · rw [hpush, List.append_assoc]
      rfl
    · rw [stringNeed_cons]
      omega
    · refine CStr.congr ⟨hs.1, hplaced⟩ fun x hx hx' => ?_
      exact (hframe' x hx (by omega)).symm
    · exact fun p s hp => ⟨hp.1, by omega, hp.2.2⟩
    · exact (hframe' x (by omega) hx').trans (hframe x (by omega) hx')

theorem pushArgs_none (hbase : stackbase.toNat % pgsize = 0) (hmap : Mapped t stackbase.toNat)
    (hpage : 4096 ≤ stackbase.toNat) (htop : sp.toNat ≤ stackbase.toNat + pgsize)
    (hsp : stackbase.toNat ≤ sp.toNat) (h16 : sp.toNat % 16 = 0) (hargs : ∀ s ∈ argv, IsArg s)
    (hfit : sp.toNat < stackbase.toNat + stringNeed argv) :
    pushArgs t stackbase argv ustack m sp = none := by
  induction argv generalizing ustack m sp with
  | nil =>
    have h0 : stringNeed [] = 0 := rfl
    omega
  | cons s argv ih =>
    obtain ⟨hs, hargs⟩ := List.forall_mem_cons.mp hargs
    rw [stringNeed_cons] at hfit
    obtain ⟨hdown, hguard⟩ := pushArgs_cons hs hpage hsp h16
    have hlen := arg_length hs
    have hle := le_padded (n := s.length + 1)
    unfold pushArgs
    split
    · rfl
    · dsimp only
      by_cases hfirst : sp.toNat < stackbase.toNat + padded (s.length + 1)
      · rw [if_pos (hguard.mpr hfirst)]
      · rw [if_neg (fun h => hfirst (hguard.mp h))]
        generalize down sp (UInt64.ofNat s.length + 1) = sp1 at hdown
        obtain ⟨m1, hcopy, -, -⟩ := copyout_placed (l := s ++ [0]) m sp1
          (UInt64.ofNat s.length + 1) hbase hmap (by omega) (by omega)
          (by rw [hlen]; exact List.length_append)
        rw [hcopy]
        dsimp only
        rw [if_neg (by decide)]
        exact ih (by omega) (by omega) (by unfold padded at hdown; omega) hargs (by omega)

/-- the page that `exec` has the stack in -/
structure StackPage (t : UserTable) (sz : UInt64) : Prop where
  aligned : sz.toNat % pgsize = 0
  /-- the page of the stack, and the guard page below it -/
  room : 2 * pgsize ≤ sz.toNat
  mapped : Mapped t (sz.toNat - pgsize)

theorem StackPage.bottom (h : StackPage t sz) : (sz - 4096).toNat = sz.toNat - pgsize := by
  have hroom := h.room
  exact UInt64.toNat_sub_of_le _ _ (UInt64.le_iff_toNat_le.mpr
    (show pgsize ≤ sz.toNat by omega))

theorem pointer_length (h : argv.length < maxarg) :
    (8 * (UInt64.ofNat argv.length + 1)).toNat = 8 * (argv.length + 1) := by
  have hlt : argv.length < 32 := h
  simp only [UInt64.toNat_mul, UInt64.toNat_add, UInt64.toNat_ofNat',
    show (8 : UInt64).toNat = 8 from rfl, show (1 : UInt64).toNat = 1 from rfl]
  omega

/-- a vector that fits is on the stack of the new program -/
theorem pushStack_fits (hstack : StackPage t sz) (hargs : ∀ s ∈ argv, IsArg s)
    (hmax : argv.length < maxarg) (hfit : stackNeed argv ≤ pgsize) :
    ∃ m' sp, pushStack t sz argv m = some (m', sp, argv.length) ∧
      sp.toNat = sz.toNat - stackNeed argv ∧ Argv (readable t m') sp.toNat argv := by
  have hbase := hstack.bottom
  have haligned : sz.toNat % 4096 = 0 := hstack.aligned
  have hroom : 2 * 4096 ≤ sz.toNat := hstack.room
  have hpg : pgsize = 4096 := rfl
  have hfit' : stringNeed argv + padded (8 * (argv.length + 1)) ≤ 4096 := hfit
  unfold pushStack
  dsimp only
  generalize sz - 4096 = stackbase at hbase
  have hmod : stackbase.toNat % pgsize = 0 := by
    show stackbase.toNat % 4096 = 0
    omega
  have hmap : Mapped t stackbase.toNat := hbase ▸ hstack.mapped
  obtain ⟨m1, sp1, ps, hpush, hsp1, hall, -⟩ := pushArgs_fits m sz [] hmod hmap (by omega)
    (by omega) (by omega) hargs (by simpa using hmax.le) (by omega)
  have hps : ps.length = argv.length := hall.length_eq
  have hlen := pointer_length hmax
  have hdown : (down sp1 (8 * (UInt64.ofNat argv.length + 1))).toNat =
      sp1.toNat - padded (8 * (argv.length + 1)) := by
    have hle := le_padded (n := 8 * (argv.length + 1))
    have h16 := stringNeed_mod argv
    rw [down_toNat (by omega) (by omega), hlen]
  rw [hpush]
  dsimp only
  rw [List.nil_append, hps]
  generalize down sp1 (8 * (UInt64.ofNat argv.length + 1)) = sp at hdown
  have hneed : stackNeed argv = stringNeed argv + padded (8 * (argv.length + 1)) := rfl
  have hle := le_padded (n := 8 * (argv.length + 1))
  rw [if_neg (by rw [UInt64.lt_iff_toNat_lt]; omega)]
  have hplen : (pointers (ps.map UInt64.toNat)).length = 8 * (argv.length + 1) := by
    rw [length_pointers, List.length_map, hps]
  obtain ⟨m', hcopy, hplaced, hframe⟩ := copyout_placed m1 sp
    (8 * (UInt64.ofNat argv.length + 1)) hmod hmap (by omega) (by omega) (hplen.trans hlen.symm)
  rw [hcopy]
  dsimp only
  rw [if_neg (by decide)]
  refine ⟨m', sp, rfl, by omega, argv_of_pointers hplaced ?_⟩
  -- the strings are above the pointers
  rw [List.forall₂_map_left_iff]
  refine hall.imp fun p s hp => ⟨by omega, p.toNat_lt, hp.2.2.congr fun x hx hx' => ?_⟩
  exact (hframe x (by omega) (by omega)).symm

theorem pushStack_none (hstack : StackPage t sz) (hargs : ∀ s ∈ argv, IsArg s)
    (hmax : argv.length < maxarg) (hfit : pgsize < stackNeed argv) :
    pushStack t sz argv m = none := by
  have hbase := hstack.bottom
  have haligned : sz.toNat % 4096 = 0 := hstack.aligned
  have hroom : 2 * 4096 ≤ sz.toNat := hstack.room
  have hpg : pgsize = 4096 := rfl
  have hfit' : 4096 < stringNeed argv + padded (8 * (argv.length + 1)) := hfit
  unfold pushStack
  dsimp only
  generalize sz - 4096 = stackbase at hbase
  have hmod : stackbase.toNat % pgsize = 0 := by
    show stackbase.toNat % 4096 = 0
    omega
  have hmap : Mapped t stackbase.toNat := hbase ▸ hstack.mapped
  by_cases hstrings : stringNeed argv ≤ pgsize
  · obtain ⟨m1, sp1, ps, hpush, hsp1, hall, -⟩ := pushArgs_fits m sz [] hmod hmap (by omega)
      (by omega) (by omega) hargs (by simpa using hmax.le) (by omega)
    have h16 := stringNeed_mod argv
    have hlen := pointer_length hmax
    have hmax' : argv.length < 32 := hmax
    have hdown : (down sp1 (8 * (UInt64.ofNat argv.length + 1))).toNat =
        sp1.toNat - padded (8 * (argv.length + 1)) := by
      rw [down_toNat (by omega) (by omega), hlen]
    rw [hpush]
    dsimp only
    rw [List.nil_append, hall.length_eq]
    refine if_pos ?_
    rw [UInt64.lt_iff_toNat_lt, hdown]
    omega
  · rw [pushArgs_none hmod hmap (by omega) (by omega) (by omega) (by omega) hargs (by omega)]

end

/-! ## a caller and a new program -/

/-- the page-table pages of a process that has page `k` only -/
def ptesAt (k : Nat) (pte : UInt64) (page i : Nat) : UInt64 :=
  if page = 4096 ∧ i = 0 then 2049
  else if page = 8192 ∧ i = 0 then 3073
  else if page = 12288 ∧ i = k then pte
  else 0

theorem ptesAt_nonzero {k : Nat} {pte : UInt64} (hpte : pte2pa pte ≠ 0) (page i : Nat)
    (h : ptesAt k pte page i &&& pteV ≠ 0) : pte2pa (ptesAt k pte page i) ≠ 0 := by
  unfold ptesAt at h ⊢
  split_ifs with h1 h2 h3
  · decide
  · decide
  · exact hpte
  · rw [if_neg h1, if_neg h2, if_neg h3] at h
    exact absurd rfl h

def tableAt (k : Nat) (pte : UInt64) (hpte : pte2pa pte ≠ 0) : UserTable where
  ptes := ptesAt k pte
  pagetable := 4096
  nonzero _ page i _ h _ := ptesAt_nonzero hpte page i h

theorem callerPte : pte2pa 5143 ≠ 0 := by decide

def caller : UserTable := tableAt 0 5143 callerPte

theorem newPte : pte2pa 6167 ≠ 0 := by decide

def newProgram : UserTable := tableAt 1 6167 newPte

def callerMem (pa : Nat) : UInt8 :=
  if pa = 20480 then 16 else if pa = 20496 then 97 else 0

theorem caller_reads (h : va < 4096) :
    readable caller callerMem va = some (callerMem (20480 + va)) := by
  have hmap : Mapped caller 0 := ⟨by decide, 12288, 0, by decide, by decide, by decide⟩
  have hpage : Mapped caller va := (mapped_page 0 rfl (Nat.zero_le va) (by
    rw [Nat.zero_add]
    exact h)).mpr hmap
  have haddr : caller.walkaddr 0 = 20480 := by decide
  rw [readable_of_mapped hpage, phys_page 0 rfl (Nat.zero_le va) (by
    rw [Nat.zero_add]
    exact h), haddr, Nat.sub_zero]

theorem newProgram_stack : StackPage newProgram 8192 where
  aligned := by decide
  room := by decide
  mapped := ⟨by decide, 12288, 1, by decide, by decide, by decide⟩

theorem caller_placed {a : Nat} (h : a + l.length ≤ 4096)
    (hl : ∀ i : Fin l.length, callerMem (20480 + (a + i)) = l.get i) :
    Placed (readable caller callerMem) a l := by
  intro i b hb
  obtain ⟨hi, rfl⟩ := List.getElem?_eq_some_iff.mp hb
  rw [caller_reads (by omega)]
  exact congrArg some (hl ⟨i, hi⟩)

theorem caller_argv : Argv (readable caller callerMem) 0 [[97]] :=
  ⟨16, by decide, by decide, caller_placed (by decide) (by decide),
    ⟨by decide, caller_placed (by decide) (by decide)⟩, caller_placed (by decide) (by decide)⟩

/-! ## from the caller to the new program -/

/-- the arguments on their way: `sys_exec` fetches them from its caller (`t`, `m`, `sz`), `exec`
pushes them on the stack of the new program (`t'`, `m'`, `sz'`) -/
def execArgs (t : UserTable) (m : Mem) (sz uargv : UInt64) (kalloc : Nat → Bool) (t' : UserTable)
    (m' : Mem) (sz' : UInt64) : Option (Mem × UInt64 × Nat) :=
  (fetchArgs t m sz uargv kalloc maxarg 0).bind fun argv => pushStack t' sz' argv m'

section
variable {t' : UserTable} {m' m'' : Mem} {sz' uargv sp : UInt64} {kalloc : Nat → Bool} {argc : Nat}
  {args : List (List UInt8)}

theorem isArg_of_argv (h : Argv (readable t m) va args) (hlen : ∀ s ∈ args, s.length < 4096) :
    ∀ s ∈ args, IsArg s := by
  induction args generalizing va with
  | nil => exact fun s hs => absurd hs List.not_mem_nil
  | cons s args ih =>
    obtain ⟨p, -, -, -, hs, htail⟩ := h
    obtain ⟨hlen1, hlen2⟩ := List.forall_mem_cons.mp hlen
    exact List.forall_mem_cons.mpr ⟨⟨hs.1, hlen1⟩, ih htail hlen2⟩

theorem fetched (hsz : sz.toNat ≤ maxva) : fetchArgs t m sz uargv kalloc maxarg 0 = some args ↔
    Argv (readable t m) uargv.toNat args ∧ uargv.toNat + 8 * (args.length + 1) ≤ sz.toNat ∧
      args.length < maxarg ∧ (∀ s ∈ args, s.length < 4096) ∧
      ∀ k < args.length, kalloc k = true := by
  rw [fetchArgs_iff hsz (Nat.le_refl maxarg), show uargv + 8 * UInt64.ofNat 0 = uargv by simp,
    Nat.zero_add]
  simp only [Nat.zero_le, true_implies]

theorem length_of_stackNeed (h : stackNeed args ≤ pgsize) : ∀ s ∈ args, s.length < 4096 := by
  intro s hs
  have h1 := le_stringNeed hs
  have h2 := le_padded (n := s.length + 1)
  have h3 : stringNeed args + padded (8 * (args.length + 1)) ≤ 4096 := h
  omega

theorem execArgs_fits (hsz : sz.toNat ≤ maxva) (hstack : StackPage t' sz')
    (hargv : Argv (readable t m) uargv.toNat args)
    (hle : uargv.toNat + 8 * (args.length + 1) ≤ sz.toNat) (hmax : args.length < maxarg)
    (hfit : stackNeed args ≤ pgsize) (hk : ∀ k < args.length, kalloc k = true) :
    ∃ r, execArgs t m sz uargv kalloc t' m' sz' = some r := by
  have hlen := length_of_stackNeed hfit
  obtain ⟨m'', sp, hpush, -⟩ := pushStack_fits (m := m') hstack (isArg_of_argv hargv hlen) hmax hfit
  have hfetch := (fetched hsz).mpr ⟨hargv, hle, hmax, hlen, hk⟩
  exact ⟨_, Option.bind_eq_some_iff.mpr ⟨args, hfetch, hpush⟩⟩

/-- the arguments get to the new program if the caller has a vector of at most 31 strings below
`sz`, there are pages to fetch them to, and the stack has room for them -/
theorem exec_args_iff (hsz : sz.toNat ≤ maxva) (hstack : StackPage t' sz') :
    (∃ r, execArgs t m sz uargv kalloc t' m' sz' = some r) ↔
      ∃ args, Argv (readable t m) uargv.toNat args ∧
        uargv.toNat + 8 * (args.length + 1) ≤ sz.toNat ∧ args.length < maxarg ∧
        stackNeed args ≤ pgsize ∧ ∀ k < args.length, kalloc k = true := by
  constructor
  · rintro ⟨r, h⟩
    obtain ⟨args, hfetch, hpush⟩ := Option.bind_eq_some_iff.mp h
    obtain ⟨hargv, hle, hmax, hlen, hk⟩ := (fetched hsz).mp hfetch
    refine ⟨args, hargv, hle, hmax, ?_, hk⟩
    by_contra hfit
    rw [pushStack_none hstack (isArg_of_argv hargv hlen) hmax (Nat.lt_of_not_le hfit)] at hpush
    cases hpush
  · rintro ⟨args, hargv, hle, hmax, hfit, hk⟩
    exact execArgs_fits hsz hstack hargv hle hmax hfit hk

/-- one argument of one byte -/
theorem exec_args_iff_one : StackPage newProgram 8192 ∧
    ∃ r, execArgs caller callerMem 4096 0 (fun _ => true) newProgram (fun _ => 0) 8192 = some r :=
  ⟨newProgram_stack, (exec_args_iff (by decide) newProgram_stack).mpr
    ⟨[[97]], caller_argv, by decide, by decide, by decide, fun _ _ => rfl⟩⟩

/-- what the new program has as its `argv` is what the caller has at `uargv` -/
theorem exec_args_same (hsz : sz.toNat ≤ maxva) (hstack : StackPage t' sz')
    (h : execArgs t m sz uargv kalloc t' m' sz' = some (m'', sp, argc)) :
    sp.toNat % 16 = 0 ∧ sz'.toNat ≤ sp.toNat + pgsize ∧ sp.toNat < sz'.toNat ∧
      ∀ args, (Argv (readable t' m'') sp.toNat args ↔ Argv (readable t m) uargv.toNat args) ∧
        (Argv (readable t m) uargv.toNat args →
          argc = args.length ∧ sp.toNat = sz'.toNat - stackNeed args) := by
  obtain ⟨args, hfetch, hpush⟩ := Option.bind_eq_some_iff.mp h
  obtain ⟨hargv, -, hmax, hlen, -⟩ := (fetched hsz).mp hfetch
  have hargs := isArg_of_argv hargv hlen
  have hfit : stackNeed args ≤ pgsize := by
    by_contra hfit
    rw [pushStack_none hstack hargs hmax (Nat.lt_of_not_le hfit)] at hpush
    cases hpush
  obtain ⟨m1, sp1, hpush', hsp, hnew⟩ := pushStack_fits (m := m') hstack hargs hmax hfit
  obtain ⟨rfl, rfl, rfl⟩ : m1 = m'' ∧ sp1 = sp ∧ args.length = argc := by
    rw [hpush'] at hpush
    simpa using hpush
  have h16 := stringNeed_mod args
  have hneed : stackNeed args = stringNeed args + padded (8 * (args.length + 1)) := rfl
  have hpos := le_padded (n := 8 * (args.length + 1))
  have haligned : sz'.toNat % 4096 = 0 := hstack.aligned
  have hroom : 2 * 4096 ≤ sz'.toNat := hstack.room
  have hfit' : stackNeed args ≤ 4096 := hfit
  have hpg : pgsize = 4096 := rfl
  refine ⟨?_, by omega, by omega, fun args' => ⟨⟨fun h' => ?_, fun h' => ?_⟩, fun h' => ?_⟩⟩
  · unfold padded at hneed
    omega
  · rw [h'.unique hnew]
    exact hargv
  · rw [h'.unique hargv]
    exact hnew
  · rw [h'.unique hargv]
    exact ⟨rfl, hsp⟩

/-- the new program finds the byte at 8160 -/
theorem exec_args_same_one : StackPage newProgram 8192 ∧ ∃ m'' sp argc,
    execArgs caller callerMem 4096 0 (fun _ => true) newProgram (fun _ => 0) 8192 =
      some (m'', sp, argc) ∧
    argc = 1 ∧ UInt64.toNat sp = 8160 ∧ Argv (readable newProgram m'') sp.toNat [[97]] := by
  obtain ⟨⟨m'', sp, argc⟩, hrun⟩ : ∃ r, execArgs caller callerMem 4096 0 (fun _ => true) newProgram
      (fun _ => 0) 8192 = some r :=
    execArgs_fits (by decide) newProgram_stack caller_argv (by decide) (by decide) (by decide)
      (fun _ _ => rfl)
  obtain ⟨-, -, -, h⟩ := exec_args_same (by decide) newProgram_stack hrun
  obtain ⟨hsame, hwhere⟩ := h [[97]]
  obtain ⟨hargc, hsp⟩ := hwhere caller_argv
  exact ⟨newProgram_stack, m'', sp, argc, hrun, hargc, hsp, hsame.mpr caller_argv⟩

end

end

end Args
