import Xv6.Ftable.Inv

/-!
# The calls on descriptors keep the counts

`Inv` holds between calls.  Each call returns from every state where it does, whatever fails inside,
and leads to a state where it does again.
-/

namespace Ftable
open Lib

structure Inv (w : World) : Prop where
  held : Held w []
  /-- a process that does not run has no descriptors -/
  dead : ∀ p, w.state p ≠ .running → ∀ fd, w.ofile p fd = none

section
variable {w w' : World} {f g : Fin nfile} {held : List (Fin nfile)} {p q np : Fin nproc}
  {fd : Fin nofile} {pi : Nat}

theorem Inv.of (h : Inv w) (hp : w.state p = .running) (hh : Held w' []) (hs : w'.state = w.state)
    (ho : ∀ q ≠ p, w'.ofile q = w.ofile q) : Inv w' := by
  refine ⟨hh, fun q hq fd => ?_⟩
  rw [hs] at hq
  have hne : q ≠ p := by
    rintro rfl
    exact hq hp
  rw [ho q hne]
  exact h.dead q hq fd

theorem setFd_of_ne (h : q ≠ p) (v : Option (Fin nfile)) : (w.setFd p fd v).ofile q = w.ofile q :=
  Function.update_of_ne h _ _

theorem setFd_self (v : Option (Fin nfile)) :
    (w.setFd p fd v).ofile p = Function.update (w.ofile p) fd v := Function.update_self ..

theorem argfd_spec {i : Int} (h : argfd w p i = some (fd, f)) : w.ofile p fd = some f := by
  unfold argfd at h
  split at h
  · obtain ⟨f', hf, e⟩ := Option.map_eq_some_iff.mp h
    obtain ⟨rfl, rfl⟩ := Prod.mk.inj e
    exact hf
  · exact absurd h nofun

theorem fdalloc_spec (w : World) (p : Fin nproc) (f : Fin nfile) : fdalloc w p f = none ∨
    ∃ fd, w.ofile p fd = none ∧ fdalloc w p f = some (w.setFd p fd (some f), fd) := by
  unfold fdalloc
  cases h : (w.ofile p).alloc f with
  | none => exact Or.inl rfl
  | some t =>
    obtain ⟨h1, -, h2⟩ := Slots.alloc_spec (show _ = some (t.1, t.2) from h)
    refine Or.inr ⟨t.2, h1, ?_⟩
    rw [Option.map_some, h2]
    rfl

/-! ## `dup`, `close`, `open` -/

theorem sysDup_spec (h : Inv w) (hp : w.state p = .running) (i : Int) :
    ∃ w' r, sysDup w p i = some (w', r) ∧ Inv w' := by
  unfold sysDup
  cases ha : argfd w p i with
  | none => exact ⟨w, -1, rfl, h⟩
  | some x =>
    obtain ⟨fd0, f⟩ := x
    have hf := argfd_spec ha
    dsimp only
    rcases fdalloc_spec w p f with hn | ⟨fd, hfd, hs⟩
    · rw [hn]
      exact ⟨w, -1, rfl, h⟩
    · rw [hs]
      dsimp only
      have hpos := h.held.pos (Or.inr ⟨(p, fd0), hf⟩)
      -- the descriptor comes first; the two changes are to different tables
      obtain ⟨w1, h1, hheld, ho, hst⟩ := filedup_spec h.held hpos
      have hdup : filedup (w.setFd p fd (some f)) f = some (w1.setFd p fd (some f)) := by
        unfold filedup at h1 ⊢
        rw [if_neg (by omega)] at h1
        obtain rfl := Option.some.inj h1
        exact if_neg (by show ¬ (w.ftable f).ref < 1; omega)
      rw [hdup]
      refine ⟨_, _, rfl, h.of hp (hheld.give (ho ▸ hfd)) hst (fun q hq => ?_)⟩
      rw [setFd_of_ne hq, ho]

theorem sysClose_spec (h : Inv w) (hp : w.state p = .running) (i : Int) :
    ∃ w' r, sysClose w p i = some (w', r) ∧ Inv w' := by
  unfold sysClose
  cases ha : argfd w p i with
  | none => exact ⟨w, -1, rfl, h⟩
  | some x =>
    obtain ⟨fd, f⟩ := x
    dsimp only
    obtain ⟨w1, h1, hheld, ho, hst, -⟩ := fileclose_spec (h.held.clear (argfd_spec ha))
    rw [h1]
    refine ⟨_, _, rfl, h.of hp hheld hst (fun q hq => ?_)⟩
    rw [ho, setFd_of_ne hq]

theorem Held.setPlain {x : File} (h : Held w held) (hf : (w.ftable f).type ≠ .pipe)
    (hx : x.type ≠ .pipe) (hr : x.ref = (w.ftable f).ref) (hpos : x.ref ≠ 0) :
    Held (w.setFile f x) held :=
  ⟨h.setRef (hr.trans (h.ref f)) (fun _ _ => rfl), h.pipe.setPlain hf hx (fun h0 => absurd h0 hpos)⟩

theorem sysOpen_spec (h : Inv w) (hp : w.state p = .running) (omode : Nat) (node : Option Node) :
    ∃ w' r, sysOpen w p omode node = some (w', r) ∧ Inv w' := by
  unfold sysOpen
  cases node with
  | none => exact ⟨w, -1, rfl, h⟩
  | some ip =>
    dsimp only
    split
    · exact ⟨w, -1, rfl, h⟩
    · split
      · exact ⟨w, -1, rfl, h⟩
      · rcases filealloc_spec h.held with hn | ⟨f, w1, h1, hheld, htype, ho, hst, -⟩
        · rw [hn]
          exact ⟨w, -1, rfl, h⟩
        · rw [h1]
          dsimp only
          rcases fdalloc_spec w1 p f with hn | ⟨fd, hfd, hs⟩
          · rw [hn]
            obtain ⟨w2, h2, hheld2, ho2, hst2, -⟩ := fileclose_spec hheld
            dsimp only
            rw [h2]
            refine ⟨_, _, rfl, h.of hp hheld2 (hst2.trans hst) (fun q _ => ?_)⟩
            rw [ho2, ho]
          · rw [hs]
            dsimp only
            have hplain : (w1.ftable f).type ≠ .pipe := by
              rw [htype]
              exact nofun
            have hpos := (hheld.pos (Or.inl List.mem_cons_self)).ne'
            refine ⟨_, _, rfl, h.of hp ((hheld.give hfd).setPlain hplain ?_ ?_ ?_) hst
              (fun q hq => ?_)⟩
            · split <;> exact nofun
            · split <;> rfl
            · split <;> exact hpos
            · show (w1.setFd p fd (some f)).ofile q = w.ofile q
              rw [setFd_of_ne hq, ho]

/-! ## `pipe` -/

def World.openPipe (w : World) (f0 f1 : Fin nfile) (pi : Nat) : World :=
  ({ w with
    pipes := Function.update w.pipes pi (some ⟨true, true⟩)
    allocs := pi :: w.allocs }.setFile f0
      { w.ftable f0 with type := .pipe, readable := true, writable := false, pipe := pi }).setFile f1
      { w.ftable f1 with type := .pipe, readable := false, writable := true, pipe := pi }

theorem openPipe_file {f0 f1 : Fin nfile} (hne : f0 ≠ f1) (g : Fin nfile) :
    (w.openPipe f0 f1 pi).ftable g =
      if g = f0 then
        { w.ftable f0 with type := .pipe, readable := true, writable := false, pipe := pi }
      else if g = f1 then
        { w.ftable f1 with type := .pipe, readable := false, writable := true, pipe := pi }
      else w.ftable g := by
  unfold World.openPipe
  by_cases h1 : g = f1
  · subst h1
    rw [setFile_self, if_neg (Ne.symm hne), if_pos rfl]
  · rw [setFile_of_ne h1]
    by_cases h0 : g = f0
    · subst h0
      rw [setFile_self, if_pos rfl]
    · rw [setFile_of_ne h0, if_neg h0, if_neg h1]

theorem PipeInv.openPipe (h : PipeInv w) {f0 f1 : Fin nfile} (hne : f0 ≠ f1)
    (h0 : (w.ftable f0).type = .none) (h1 : (w.ftable f1).type = .none)
    (hr0 : (w.ftable f0).ref ≠ 0) (hr1 : (w.ftable f1).ref ≠ 0) (hpi : w.pipes pi = none) :
    PipeInv (w.openPipe f0 f1 pi) := by
  -- the ends are those there were, and the two new ones
  have hends : ∀ g pi' b, ((w.openPipe f0 f1 pi).ftable g).IsEnd pi' b ↔
      (w.ftable g).IsEnd pi' b ∨ (pi' = pi ∧ g = if b then f1 else f0) := by
    intro g pi' b
    rw [openPipe_file hne]
    by_cases hg0 : g = f0
    · subst hg0
      rw [if_pos rfl]
      constructor
      · intro he
        have hb : b = false := he.writes.symm
        subst hb
        exact Or.inr ⟨he.page.symm, rfl⟩
      · rintro (he | ⟨rfl, he⟩)
        · exact absurd (h0.symm.trans he.type) nofun
        · cases b with
          | false => exact ⟨rfl, rfl, rfl, rfl⟩
          | true => exact absurd he hne
    · rw [if_neg hg0]
      by_cases hg1 : g = f1
      · subst hg1
        rw [if_pos rfl]
        constructor
        · intro he
          have hb : b = true := he.writes.symm
          subst hb
          exact Or.inr ⟨he.page.symm, rfl⟩
        · rintro (he | ⟨rfl, he⟩)
          · exact absurd (h1.symm.trans he.type) nofun
          · cases b with
            | false => exact absurd he hg0
            | true => exact ⟨rfl, rfl, rfl, rfl⟩
      · rw [if_neg hg1]
        refine ⟨Or.inl, ?_⟩
        rintro (he | ⟨rfl, he⟩)
        · exact he
        · cases b with
          | false => exact absurd he hg0
          | true => exact absurd he hg1
  have hold : ∀ g b, ¬ (w.ftable g).IsEnd pi b := by
    intro g b he
    obtain ⟨e, h2, -⟩ := h.page g he.type
    rw [he.page, hpi] at h2
    exact absurd h2 nofun
  have hpipe : ∀ g, ((w.openPipe f0 f1 pi).ftable g).type = .pipe → ∃ pi' b,
      ((w.openPipe f0 f1 pi).ftable g).IsEnd pi' b := by
    intro g hg
    rw [openPipe_file hne] at hg
    by_cases hg0 : g = f0
    · exact ⟨pi, false, (hends g pi false).mpr (Or.inr ⟨rfl, hg0⟩)⟩
    · by_cases hg1 : g = f1
      · exact ⟨pi, true, (hends g pi true).mpr (Or.inr ⟨rfl, hg1⟩)⟩
      · rw [if_neg hg0, if_neg hg1] at hg
        obtain ⟨e, -, -, he⟩ := h.page g hg
        exact ⟨_, _, (hends g _ _).mpr (Or.inl he)⟩
  refine ⟨fun g hg => ?_, fun g hg => ?_, fun g g' pi' b hb hb' => ?_, fun pi' e b he ho => ?_,
    fun pi' e he => ?_, fun k => ?_⟩
  · rw [openPipe_file hne] at hg ⊢
    by_cases hg0 : g = f0
    · rw [if_pos hg0] at hg
      exact absurd hg hr0
    · rw [if_neg hg0] at hg ⊢
      by_cases hg1 : g = f1
      · rw [if_pos hg1] at hg
        exact absurd hg hr1
      · rw [if_neg hg1] at hg ⊢
        exact h.free g hg
  · obtain ⟨pi', b, he⟩ := hpipe g hg
    rw [he.page, he.writes]
    rcases (hends g pi' b).mp he with he' | ⟨rfl, -⟩
    · obtain ⟨e, h2, h3, -⟩ := h.page g he'.type
      rw [he'.page] at h2
      rw [he'.writes] at h3
      have hpne : pi' ≠ pi := by
        rintro rfl
        exact absurd (hpi.symm.trans h2) nofun
      exact ⟨e, (Function.update_of_ne hpne _ _).trans h2, h3, he⟩
    · exact ⟨_, Function.update_self .., by cases b <;> rfl, he⟩
  · rcases (hends g pi' b).mp hb with h2 | ⟨rfl, h2⟩
    · rcases (hends g' pi' b).mp hb' with h3 | ⟨rfl, -⟩
      · exact h.unique g g' pi' b h2 h3
      · exact absurd h2 (hold g b)
    · rcases (hends g' pi' b).mp hb' with h3 | ⟨-, h3⟩
      · exact absurd h3 (hold g' b)
      · exact h2.trans h3.symm
  · change Function.update w.pipes pi (some ⟨true, true⟩) pi' = some e at he
    by_cases hp : pi' = pi
    · subst hp
      exact ⟨_, (hends _ pi' b).mpr (Or.inr ⟨rfl, rfl⟩)⟩
    · rw [Function.update_of_ne hp] at he
      obtain ⟨g, hg⟩ := h.back pi' e b he ho
      exact ⟨g, (hends g pi' b).mpr (Or.inl hg)⟩
  · change Function.update w.pipes pi (some ⟨true, true⟩) pi' = some e at he
    by_cases hp : pi' = pi
    · subst hp
      rw [Function.update_self] at he
      obtain rfl := Option.some.inj he
      exact ⟨true, rfl⟩
    · rw [Function.update_of_ne hp] at he
      exact h.used pi' e he
  · show (pi :: w.allocs).count k = w.frees.count k +
      if (Function.update w.pipes pi (some ⟨true, true⟩) k).isSome then 1 else 0
    have hc := h.count k
    by_cases hk : k = pi
    · subst hk
      rw [hpi] at hc
      rw [Function.update_self, List.count_cons_self, hc]
      rfl
    · rw [Function.update_of_ne hk, List.count_cons_of_ne (Ne.symm hk)]
      exact hc

theorem Held.openPipe {f0 f1 : Fin nfile} (h : Held w held) (hne : f0 ≠ f1) (h0 : f0 ∈ held)
    (h1 : f1 ∈ held) (ht0 : (w.ftable f0).type = .none) (ht1 : (w.ftable f1).type = .none)
    (hpi : w.pipes pi = none) : Held (w.openPipe f0 f1 pi) held := by
  refine ⟨fun g => ?_, h.pipe.openPipe hne ht0 ht1 (h.pos (Or.inl h0)).ne' (h.pos (Or.inl h1)).ne' hpi⟩
  show ((w.openPipe f0 f1 pi).ftable g).ref = refs w.slots g + held.count g
  rw [openPipe_file hne]
  by_cases hg0 : g = f0
  · subst hg0
    rw [if_pos rfl]
    exact h.ref g
  · rw [if_neg hg0]
    by_cases hg1 : g = f1
    · subst hg1
      rw [if_pos rfl]
      exact h.ref g
    · rw [if_neg hg1]
      exact h.ref g

/-- `pipealloc` takes both entries and the page, or nothing -/
theorem pipealloc_spec (h : Held w []) {page : Option Nat} (hpage : ∀ pi ∈ page, w.pipes pi = none) :
    ∃ w', w'.ofile = w.ofile ∧ w'.state = w.state ∧
      ((pipealloc w page = some (w', none) ∧ Held w' []) ∨
        ∃ f0 f1, pipealloc w page = some (w', some (f0, f1)) ∧ Held w' [f1, f0]) := by
  unfold pipealloc
  rcases filealloc_spec h with hn | ⟨f0, w1, e1, h1, ht0, ho1, hs1, hp1, -, -⟩
  · rw [hn]
    exact ⟨w, rfl, rfl, Or.inl ⟨rfl, h⟩⟩
  · rw [e1]
    dsimp only
    rcases filealloc_spec h1 with hn | ⟨f1, w2, e2, h2, ht1, ho2, hs2, hp2, hnot, hsame⟩
    · rw [hn]
      obtain ⟨w3, e3, h3, ho3, hs3, -⟩ := fileclose_spec h1
      dsimp only
      rw [e3]
      exact ⟨w3, ho3.trans ho1, hs3.trans hs1, Or.inl ⟨rfl, h3⟩⟩
    · rw [e2]
      dsimp only
      have hne : f0 ≠ f1 := fun e => hnot (e ▸ List.mem_cons_self)
      cases page with
      | none =>
        have h2' : Held w2 (f0 :: [f1]) :=
          ⟨fun g => by rw [(List.Perm.swap f1 f0 []).count_eq]; exact h2.ref g, h2.pipe⟩
        obtain ⟨w3, e3, h3, ho3, hs3, -⟩ := fileclose_spec h2'
        obtain ⟨w4, e4, h4, ho4, hs4, -⟩ := fileclose_spec h3
        dsimp only
        rw [e3, Option.bind_some, e4]
        exact ⟨w4, (ho4.trans ho3).trans (ho2.trans ho1), (hs4.trans hs3).trans (hs2.trans hs1),
          Or.inl ⟨rfl, h4⟩⟩
      | some pi =>
        have hpi : w2.pipes pi = none := by
          rw [hp2, hp1]
          exact hpage pi rfl
        have ht0' : (w2.ftable f0).type = .none := by
          rw [hsame f0 hne]
          exact ht0
        refine ⟨w2.openPipe f0 f1 pi, ho2.trans ho1, hs2.trans hs1, Or.inr ⟨f0, f1, ?_,
          h2.openPipe hne (by simp) (by simp) ht0' ht1 hpi⟩⟩
        dsimp only
        unfold World.openPipe
        rw [setFile_of_ne (Ne.symm hne)]

theorem closeBoth_spec (h : Held w [g, f]) : ∃ w',
    (fileclose w f).bind (fun w => fileclose w g) = some w' ∧ Held w' [] ∧ w'.ofile = w.ofile ∧
      w'.state = w.state := by
  have h' : Held w (f :: [g]) :=
    ⟨fun k => by rw [(List.Perm.swap g f []).count_eq]; exact h.ref k, h.pipe⟩
  obtain ⟨w1, e1, h1, ho1, hs1, -⟩ := fileclose_spec h'
  obtain ⟨w2, e2, h2, ho2, hs2, -⟩ := fileclose_spec h1
  rw [e1, Option.bind_some]
  exact ⟨w2, e2, h2, ho2.trans ho1, hs2.trans hs1⟩

theorem sysPipe_spec (h : Inv w) (hp : w.state p = .running) {page : Option Nat}
    (hpage : ∀ pi ∈ page, w.pipes pi = none) (out0 out1 : Bool) :
    ∃ w' r, sysPipe w p page out0 out1 = some (w', r) ∧ Inv w' := by
  unfold sysPipe
  obtain ⟨w1, ho1, hs1, ⟨e1, h1⟩ | ⟨rf, wf, e1, h1⟩⟩ := pipealloc_spec h.held hpage
  · rw [e1]
    exact ⟨_, _, rfl, h.of hp h1 hs1 (fun q _ => by rw [ho1])⟩
  · rw [e1]
    dsimp only
    rcases fdalloc_spec w1 p rf with hn | ⟨fd0, hfd0, e2⟩
    · rw [hn]
      dsimp only
      obtain ⟨w2, e3, h3, ho3, hs3⟩ := closeBoth_spec h1
      rw [e3]
      exact ⟨_, _, rfl, h.of hp h3 (hs3.trans hs1) (fun q _ => by rw [ho3, ho1])⟩
    · rw [e2]
      dsimp only
      have hcancel : (w1.setFd p fd0 (some rf)).setFd p fd0 none = w1.setFd p fd0 none := by
        unfold World.setFd
        simp
      have hback : w1.setFd p fd0 none = w1 := by
        unfold World.setFd
        rw [← hfd0, Function.update_eq_self, Function.update_eq_self]
      rcases fdalloc_spec (w1.setFd p fd0 (some rf)) p wf with hn | ⟨fd1, hfd1, e3⟩
      · rw [hn]
        dsimp only
        rw [hcancel, hback]
        obtain ⟨w2, e3, h3, ho3, hs3⟩ := closeBoth_spec h1
        rw [e3]
        exact ⟨_, _, rfl, h.of hp h3 (hs3.trans hs1) (fun q _ => by rw [ho3, ho1])⟩
      · rw [e3]
        dsimp only
        have hne : fd1 ≠ fd0 := by
          rintro rfl
          rw [setFd_self, Function.update_self] at hfd1
          exact absurd hfd1 nofun
        have hfree : w1.ofile p fd1 = none := by
          rwa [setFd_self, Function.update_of_ne hne] at hfd1
        split
        · -- the numbers cannot be copied out: both descriptors are cleared again
          have hundo : (((w1.setFd p fd0 (some rf)).setFd p fd1 (some wf)).setFd p fd0 none).setFd
              p fd1 none = w1 := by
            unfold World.setFd
            simp only [Function.update_self, Function.update_idem]
            have e : Function.update (Function.update (Function.update (Function.update (w1.ofile p)
                fd0 (some rf)) fd1 (some wf)) fd0 none) fd1 none = w1.ofile p := by
              funext j
              by_cases h0 : j = fd0
              · subst h0
                simp [hne.symm, hfd0]
              · by_cases h1 : j = fd1
                · subst h1
                  simp [hfree]
                · simp [h0, h1]
            rw [e, Function.update_eq_self]
          rw [hundo]
          obtain ⟨w2, e4, h4, ho4, hs4⟩ := closeBoth_spec h1
          rw [e4]
          exact ⟨_, _, rfl, h.of hp h4 (hs4.trans hs1) (fun q _ => by rw [ho4, ho1])⟩
        · have h1' : Held w1 (rf :: [wf]) :=
            ⟨fun k => by rw [(List.Perm.swap wf rf []).count_eq]; exact h1.ref k, h1.pipe⟩
          refine ⟨_, _, rfl, h.of hp ((h1'.give hfd0).give hfd1) hs1 (fun q hq => ?_)⟩
          rw [setFd_of_ne hq, setFd_of_ne hq, ho1]

/-! ## `fork`, `exit`, `wait` -/

theorem copyFds_spec (h : Held w held) {l : List (Fin nofile)} (hl : l.Nodup)
    (hnp : ∀ i ∈ l, w.ofile np i = none) : ∃ w', copyFds p np w l = some w' ∧ Held w' held ∧
      w'.state = w.state ∧ ∀ q ≠ np, w'.ofile q = w.ofile q := by
  induction l generalizing w with
  | nil => exact ⟨w, rfl, h, rfl, fun _ _ => rfl⟩
  | cons i l ih =>
    obtain ⟨hi, hl⟩ := List.nodup_cons.mp hl
    have hrest : ∀ j ∈ l, w.ofile np j = none := fun j hj => hnp j (List.mem_cons_of_mem _ hj)
    unfold copyFds
    cases hf : w.ofile p i with
    | none => exact ih h hl hrest
    | some f =>
      dsimp only
      obtain ⟨w1, e1, h1, ho1, hs1⟩ := filedup_spec h (h.pos (Or.inr ⟨(p, i), hf⟩))
      rw [e1, Option.bind_some]
      have hfree : w1.ofile np i = none := by
        rw [ho1]
        exact hnp i List.mem_cons_self
      have hnp' : ∀ j ∈ l, (w1.setFd np i (some f)).ofile np j = none := by
        intro j hj
        have hji : j ≠ i := by
          rintro rfl
          exact hi hj
        rw [setFd_self, Function.update_of_ne hji, ho1]
        exact hrest j hj
      obtain ⟨w2, e2, h2, hs2, ho2⟩ := ih (h1.give hfree) hl hnp'
      refine ⟨w2, e2, h2, hs2.trans hs1, fun q hq => ?_⟩
      rw [ho2 q hq, setFd_of_ne hq, ho1]

theorem sysFork_spec (h : Inv w) (hp : w.state p = .running) (memory : Bool) :
    ∃ w' r, sysFork w p memory = some (w', r) ∧ Inv w' := by
  unfold sysFork
  cases hfind : Fin.find? (fun q => decide (w.state q = .unused)) with
  | none => exact ⟨w, -1, rfl, h⟩
  | some np =>
    dsimp only
    have hun : w.state np = .unused := by
      rw [Fin.find?_eq_some_iff] at hfind
      exact of_decide_eq_true hfind.1
    have hnone : ∀ i, w.ofile np i = none := h.dead np (fun e => absurd (hun.symm.trans e) nofun)
    split
    · exact ⟨_, _, rfl, h.of hp (h.held.congr rfl rfl rfl rfl rfl) rfl (fun _ _ => rfl)⟩
    · have h0 : Held { w with nextpid := w.nextpid + 1, pid := Function.update w.pid np w.nextpid } [] :=
        h.held.congr rfl rfl rfl rfl rfl
      obtain ⟨w1, e1, h1, hs1, ho1⟩ := copyFds_spec (p := p) h0 (List.nodup_finRange nofile)
        (fun i _ => hnone i)
      rw [e1]
      refine ⟨_, _, rfl, ⟨h1.congr rfl rfl rfl rfl rfl, fun q hq fd => ?_⟩⟩
      change Function.update w1.state np .running q ≠ .running at hq
      have hqn : q ≠ np := by
        rintro rfl
        rw [Function.update_self] at hq
        exact hq rfl
      rw [Function.update_of_ne hqn, hs1] at hq
      show w1.ofile q fd = none
      rw [ho1 q hqn]
      exact h.dead q hq fd

theorem pipeclose_setFd (v : Option (Fin nfile)) (b : Bool) :
    pipeclose (w.setFd p fd v) pi b = (pipeclose w pi b).map (fun w => w.setFd p fd v) := by
  unfold pipeclose
  rw [show (w.setFd p fd v).pipes = w.pipes from rfl]
  cases w.pipes pi with
  | none => rfl
  | some e =>
    dsimp only
    by_cases h : (e.close b).readopen = false ∧ (e.close b).writeopen = false
    · rw [if_pos h, if_pos h]
      rfl
    · rw [if_neg h, if_neg h]
      rfl

theorem fileclose_setFd (v : Option (Fin nfile)) :
    fileclose (w.setFd p fd v) f = (fileclose w f).map (fun w => w.setFd p fd v) := by
  unfold fileclose
  rw [show (w.setFd p fd v).ftable = w.ftable from rfl]
  dsimp only
  by_cases h1 : (w.ftable f).ref < 1
  · rw [if_pos h1, if_pos h1]
    rfl
  · rw [if_neg h1, if_neg h1]
    by_cases h2 : (w.ftable f).ref - 1 > 0
    · rw [if_pos h2, if_pos h2]
      rfl
    · rw [if_neg h2, if_neg h2]
      by_cases h3 : (w.ftable f).type = .pipe
      · rw [if_pos h3, if_pos h3, ← pipeclose_setFd]
        rfl
      · rw [if_neg h3, if_neg h3]
        rfl

theorem closeFds_spec (h : Held w []) (l : List (Fin nofile)) : ∃ w', closeFds p w l = some w' ∧
    Held w' [] ∧ w'.state = w.state ∧ (∀ q ≠ p, w'.ofile q = w.ofile q) ∧
    ∀ i, i ∈ l ∨ w.ofile p i = none → w'.ofile p i = none := by
  induction l generalizing w with
  | nil => exact ⟨w, rfl, h, rfl, fun _ _ => rfl, fun i hi => hi.resolve_left List.not_mem_nil⟩
  | cons fd l ih =>
    unfold closeFds
    cases hf : w.ofile p fd with
    | none =>
      obtain ⟨w1, e1, h1, hs1, ho1, hn1⟩ := ih h
      refine ⟨w1, e1, h1, hs1, ho1, fun i hi => hn1 i ?_⟩
      rcases hi with hi | hi
      · rcases List.mem_cons.mp hi with rfl | hi
        · exact Or.inr hf
        · exact Or.inl hi
      · exact Or.inr hi
    | some f =>
      dsimp only
      obtain ⟨w2, e2, h2, ho2, hs2, -⟩ := fileclose_spec (h.clear hf)
      rw [fileclose_setFd] at e2
      obtain ⟨w1, e1, rfl⟩ := Option.map_eq_some_iff.mp e2
      rw [e1, Option.bind_some]
      obtain ⟨w3, e3, h3, hs3, ho3, hn3⟩ := ih h2
      refine ⟨w3, e3, h3, hs3.trans hs2, fun q hq => ?_, fun i hi => hn3 i ?_⟩
      · rw [ho3 q hq, ho2, setFd_of_ne hq]
      · by_cases hil : i ∈ l
        · exact Or.inl hil
        · refine Or.inr ?_
          rw [ho2, setFd_self]
          by_cases hifd : i = fd
          · subst hifd
            rw [Function.update_self]
          · rw [Function.update_of_ne hifd]
            rcases hi with hi | hi
            · rcases List.mem_cons.mp hi with e | hi
              · exact absurd e hifd
              · exact absurd hi hil
            · exact hi

theorem sysExit_spec (h : Inv w) (hp : p ≠ initproc) : ∃ w', sysExit w p = some w' ∧ Inv w' := by
  unfold sysExit
  rw [if_neg hp]
  obtain ⟨w1, e1, h1, hs1, ho1, hn1⟩ := closeFds_spec (p := p) h.held (List.finRange nofile)
  rw [e1]
  refine ⟨_, rfl, ⟨h1.congr rfl rfl rfl rfl rfl, fun q hq fd => ?_⟩⟩
  change Function.update w1.state p .zombie q ≠ .running at hq
  show w1.ofile q fd = none
  by_cases hqp : q = p
  · subst hqp
    exact hn1 fd (Or.inl (List.mem_finRange fd))
  · rw [Function.update_of_ne hqp, hs1] at hq
    rw [ho1 q hqp]
    exact h.dead q hq fd

theorem reap_inv (h : Inv w) (hq : w.state q = .zombie) : Inv (reap w q) := by
  refine ⟨h.held.congr rfl rfl rfl rfl rfl, fun r hr fd => ?_⟩
  change Function.update w.state q .unused r ≠ .running at hr
  show w.ofile r fd = none
  by_cases hrq : r = q
  · subst hrq
    exact h.dead r (fun e => absurd (hq.symm.trans e) nofun) fd
  · rw [Function.update_of_ne hrq] at hr
    exact h.dead r hr fd

/-! ## all calls -/

/-- no call panics or touches a page that is not a pipe, and all keep the counts -/
theorem call_spec (h : Inv w) {c : Call} (hl : Legal w (p, c)) :
    ∃ w', call w p c = some w' ∧ Inv w' := by
  have hp : w.state p = .running := hl.1
  have hc := hl.2
  have hmap : ∀ {x : Option (World × Int)}, (∃ w' r, x = some (w', r) ∧ Inv w') →
      ∃ w', x.map Prod.fst = some w' ∧ Inv w' := by
    rintro x ⟨w', r, rfl, h'⟩
    exact ⟨w', rfl, h'⟩
  cases c with
  | dup i => exact hmap (sysDup_spec h hp i)
  | close i => exact hmap (sysClose_spec h hp i)
  | «open» omode node => exact hmap (sysOpen_spec h hp omode node)
  | pipe page out0 out1 =>
    have hpage : ∀ pi ∈ page, w.pipes pi = none := by
      rintro pi rfl
      exact Option.isNone_iff_eq_none.mp hc
    obtain ⟨w', r, hrun, h'⟩ := sysPipe_spec h hp hpage out0 out1
    refine ⟨w', ?_, h'⟩
    show (sysPipe w p page out0 out1).map Prod.fst = some w'
    rw [hrun]
    rfl
  | fork memory => exact hmap (sysFork_spec h hp memory)
  | exit => exact sysExit_spec h hc
  | wait q => exact ⟨_, rfl, reap_inv h hc⟩

theorem start_inv : Inv start := by
  refine ⟨⟨fun f => ?_, fun _ _ => rfl, nofun, fun f g pi b hf => ?_, nofun, nofun, fun _ => rfl⟩,
    fun _ _ _ => rfl⟩
  · rw [show start.slots = fun _ => none from rfl, refs_empty]
    rfl
  · exact absurd hf.type nofun

end

/-- between the calls of any processes: the counts are the descriptors, a pipe's flags are the
entries of its ends, each page is given back once, and no call fails in the kernel -/
theorem refs_exact (l : List (Fin nproc × Call)) (w : World) (hrun : Run Step start l w) :
    (∀ f, (w.ftable f).ref = refs w.slots f) ∧
      (∀ f, ((w.ftable f).ref = 0 ↔ ∀ p fd, w.ofile p fd ≠ some f) ∧
        ((w.ftable f).ref = 0 → (w.ftable f).type = .none)) ∧
      (∀ pi e, w.pipes pi = some e → ∀ b, (e.isOpen b = true ↔
        ∃ f p fd, (w.ftable f).IsEnd pi b ∧ w.ofile p fd = some f)) ∧
      (∀ f p fd, w.ofile p fd = some f → (w.ftable f).type = .pipe →
        ∃ e, w.pipes (w.ftable f).pipe = some e) ∧
      (∀ pi, w.allocs.count pi = w.frees.count pi + if (w.pipes pi).isSome then 1 else 0) ∧
      ∀ e, Legal w e → ∃ w', Step w e w' := by
  have hstep : ∀ (w : World) (e : Fin nproc × Call) (w' : World), Inv w → Step w e w' → Inv w' := by
    rintro w ⟨p, c⟩ w' hi ⟨hl, hrun⟩
    obtain ⟨w1, hw, hi'⟩ := call_spec hi hl
    obtain rfl := Option.some.inj (hw.symm.trans hrun)
    exact hi'
  have h : Inv w := hrun.invariant hstep start_inv
  have href : ∀ f, (w.ftable f).ref = refs w.slots f := by
    intro f
    have hf := h.held.ref f
    rwa [List.count_nil, Nat.add_zero] at hf
  have hzero : ∀ f, (w.ftable f).ref = 0 ↔ ∀ p fd, w.ofile p fd ≠ some f := by
    intro f
    rw [href f, refs_eq_zero_iff]
    exact ⟨fun hn p fd => hn (p, fd), fun hn i => hn i.1 i.2⟩
  refine ⟨href, fun f => ⟨hzero f, h.held.pipe.free f⟩, fun pi e he b => ⟨fun ho => ?_, ?_⟩,
    fun f p fd hf ht => ?_, h.held.pipe.count, fun e hl => ?_⟩
  · obtain ⟨f, hf⟩ := h.held.pipe.back pi e b he ho
    have hpos : (w.ftable f).ref ≠ 0 := by
      intro h0
      exact absurd ((h.held.pipe.free f h0).symm.trans hf.type) nofun
    by_contra hno
    exact hpos ((hzero f).mpr (fun p fd hpf => hno ⟨f, p, fd, hf, hpf⟩))
  · rintro ⟨f, p, fd, hf, -⟩
    obtain ⟨e', h1, h2, -⟩ := h.held.pipe.page f hf.type
    rw [hf.page] at h1
    rw [hf.writes] at h2
    obtain rfl := Option.some.inj (he.symm.trans h1)
    exact h2
  · obtain ⟨e, he, -⟩ := h.held.pipe.page f ht
    exact ⟨e, he⟩
  · obtain ⟨p, c⟩ := e
    obtain ⟨w', hw, -⟩ := call_spec h hl
    exact ⟨w', hl, hw⟩

theorem next_sound (w : World) (e : Fin nproc × Call) (w' : World) (h : next w e = some w') :
    Step w e w' := by
  unfold next at h
  by_cases hl : Legal w e
  · rw [if_pos hl] at h
    exact ⟨hl, h⟩
  · rw [if_neg hl] at h
    exact absurd h nofun

def sharedPipe : List (Fin nproc × Call) :=
  [(0, .pipe (some 7) true true), (0, .fork true), (1, .exit), (0, .close 0), (0, .close 1)]

theorem refs_sharedPipe : ∃ w, Run Step start sharedPipe w ∧ w.allocs = [7] ∧ w.frees = [7] ∧
    ∀ f, (w.ftable f).ref = refs w.slots f := by
  have hsome : (exec next start sharedPipe).map (fun w => (w.allocs, w.frees)) = some ([7], [7]) := by
    decide +kernel
  obtain ⟨w, hw, he⟩ := Option.map_eq_some_iff.mp hsome
  obtain ⟨h1, h2⟩ := Prod.mk.inj he
  have hrun := Run.of_exec next_sound hw
  exact ⟨w, hrun, h1, h2, (refs_exact _ w hrun).1⟩

end Ftable
