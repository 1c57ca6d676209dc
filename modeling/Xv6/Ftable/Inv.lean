import Mathlib.Data.Fintype.Prod
import Xv6.Ftable.Model

/-!
# Reference counts and pipe pages

`Held w held`: the counts are right when the files of `held` have a reference each from a local
variable of the call.  `PipeInv` ties the pages that are pipes to the entries of the file table.
Each function on files has one lemma that says what it does to them.
-/

namespace Ftable
open Lib

def World.slots (w : World) : Fin nproc × Fin nofile → Option (Fin nfile) := fun x => w.ofile x.1 x.2

def Ends.isOpen (e : Ends) (writable : Bool) : Bool := if writable then e.writeopen else e.readopen

/-- entry `f` is the end `writable` of the pipe in page `pi` -/
structure File.IsEnd (f : File) (pi : Nat) (writable : Bool) : Prop where
  type : f.type = .pipe
  page : f.pipe = pi
  writes : f.writable = writable
  reads : f.readable = !writable

structure PipeInv (w : World) : Prop where
  /-- a free entry is of no type -/
  free : ∀ f, (w.ftable f).ref = 0 → (w.ftable f).type = .none
  /-- an entry that is a pipe is an end that is open -/
  page : ∀ f, (w.ftable f).type = .pipe → ∃ e, w.pipes (w.ftable f).pipe = some e ∧
    e.isOpen (w.ftable f).writable = true ∧
    (w.ftable f).IsEnd (w.ftable f).pipe (w.ftable f).writable
  unique : ∀ f g pi b, (w.ftable f).IsEnd pi b → (w.ftable g).IsEnd pi b → f = g
  /-- an end that is open has its entry -/
  back : ∀ pi e b, w.pipes pi = some e → e.isOpen b = true → ∃ f, (w.ftable f).IsEnd pi b
  /-- a page is a pipe as long as an end is open -/
  used : ∀ pi e, w.pipes pi = some e → ∃ b, e.isOpen b = true
  /-- each page that was taken is in use or was given back -/
  count : ∀ pi, w.allocs.count pi = w.frees.count pi + if (w.pipes pi).isSome then 1 else 0

structure Held (w : World) (held : List (Fin nfile)) : Prop where
  ref : ∀ f, (w.ftable f).ref = refs w.slots f + held.count f
  pipe : PipeInv w

section
variable {w w' : World} {f g : Fin nfile} {held : List (Fin nfile)} {p q : Fin nproc}
  {fd : Fin nofile} {x : File} {pi : Nat}

@[simp] theorem setFile_self : (w.setFile f x).ftable f = x := Function.update_self ..

theorem setFile_of_ne (h : g ≠ f) : (w.setFile f x).ftable g = w.ftable g :=
  Function.update_of_ne h _ _

theorem slots_setFd (v : Option (Fin nfile)) :
    (w.setFd p fd v).slots = Function.update w.slots (p, fd) v := by
  funext y
  obtain ⟨q, j⟩ := y
  show Function.update w.ofile p (Function.update (w.ofile p) fd v) q j = _
  by_cases hq : q = p
  · subst hq
    rw [Function.update_self]
    by_cases hj : j = fd
    · subst hj
      rw [Function.update_self, Function.update_self]
    · rw [Function.update_of_ne hj, Function.update_of_ne (fun e => hj (Prod.mk.inj e).2)]
      rfl
  · rw [Function.update_of_ne hq, Function.update_of_ne (fun e => hq (Prod.mk.inj e).1)]
    rfl

/-! ## pages -/

theorem isOpen_close (e : Ends) (b b' : Bool) :
    (e.close b).isOpen b' = if b' = b then false else e.isOpen b' := by
  cases b <;> cases b' <;> rfl

theorem closed_iff (e : Ends) :
    (e.readopen = false ∧ e.writeopen = false) ↔ ∀ b, e.isOpen b = false := by
  constructor
  · intro h b
    cases b with
    | false => exact h.1
    | true => exact h.2
  · exact fun h => ⟨h false, h true⟩

theorem PipeInv.congr (h : PipeInv w) (hp : w'.pipes = w.pipes) (ha : w'.allocs = w.allocs)
    (hf : w'.frees = w.frees)
    (hfree : ∀ f, (w'.ftable f).ref = 0 → (w'.ftable f).type = .none)
    (hpage : ∀ f, (w'.ftable f).type = .pipe → (w.ftable f).type = .pipe ∧
      (w'.ftable f).pipe = (w.ftable f).pipe ∧ (w'.ftable f).writable = (w.ftable f).writable ∧
      (w'.ftable f).readable = (w.ftable f).readable)
    (hback : ∀ f pi b, (w.ftable f).IsEnd pi b → (w'.ftable f).IsEnd pi b) : PipeInv w' := by
  have hend : ∀ f pi b, (w'.ftable f).IsEnd pi b → (w.ftable f).IsEnd pi b := by
    intro f pi b he
    obtain ⟨h1, h2, h3, h4⟩ := hpage f he.type
    exact ⟨h1, h2 ▸ he.page, h3 ▸ he.writes, h4 ▸ he.reads⟩
  refine ⟨hfree, fun f ht => ?_, fun f g pi b hfe hge => h.unique f g pi b (hend f pi b hfe)
    (hend g pi b hge), fun pi e b he ho => ?_, fun pi e he => h.used pi e (hp ▸ he), ?_⟩
  · obtain ⟨h1, h2, h3, h4⟩ := hpage f ht
    obtain ⟨e, he, ho, hi⟩ := h.page f h1
    rw [hp, h2, h3]
    exact ⟨e, he, ho, hback f _ _ hi⟩
  · obtain ⟨f, hfe⟩ := h.back pi e b (hp ▸ he) ho
    exact ⟨f, hback f pi b hfe⟩
  · rw [ha, hf, hp]
    exact h.count

theorem PipeInv.setRef (h : PipeInv w) {r : Nat} (hr : r ≠ 0) :
    PipeInv (w.setFile f { w.ftable f with ref := r }) := by
  have hsame : ∀ g, ((w.setFile f { w.ftable f with ref := r }).ftable g).type = (w.ftable g).type ∧
      ((w.setFile f { w.ftable f with ref := r }).ftable g).pipe = (w.ftable g).pipe ∧
      ((w.setFile f { w.ftable f with ref := r }).ftable g).writable = (w.ftable g).writable ∧
      ((w.setFile f { w.ftable f with ref := r }).ftable g).readable = (w.ftable g).readable := by
    intro g
    by_cases hg : g = f
    · subst hg
      rw [setFile_self]
      exact ⟨rfl, rfl, rfl, rfl⟩
    · rw [setFile_of_ne hg]
      exact ⟨rfl, rfl, rfl, rfl⟩
  refine h.congr rfl rfl rfl (fun g hg => ?_) (fun g ht => ?_) (fun g pi b he => ?_)
  · by_cases hgf : g = f
    · subst hgf
      rw [setFile_self] at hg
      exact absurd hg hr
    · rw [setFile_of_ne hgf] at hg ⊢
      exact h.free g hg
  · obtain ⟨h1, h2, h3, h4⟩ := hsame g
    exact ⟨h1 ▸ ht, h2, h3, h4⟩
  · obtain ⟨h1, h2, h3, h4⟩ := hsame g
    exact ⟨h1.trans he.type, h2.trans he.page, h3.trans he.writes, h4.trans he.reads⟩

theorem PipeInv.setPlain (h : PipeInv w) (hf : (w.ftable f).type ≠ .pipe) (hx : x.type ≠ .pipe)
    (hfree : x.ref = 0 → x.type = .none) : PipeInv (w.setFile f x) := by
  refine h.congr rfl rfl rfl (fun g hg => ?_) (fun g ht => ?_) (fun g pi b he => ?_)
  · by_cases hgf : g = f
    · subst hgf
      rw [setFile_self] at hg ⊢
      exact hfree hg
    · rw [setFile_of_ne hgf] at hg ⊢
      exact h.free g hg
  · by_cases hgf : g = f
    · subst hgf
      rw [setFile_self] at ht
      exact absurd ht hx
    · rw [setFile_of_ne hgf] at ht ⊢
      exact ⟨ht, rfl, rfl, rfl⟩
  · by_cases hgf : g = f
    · subst hgf
      exact absurd he.type hf
    · rw [setFile_of_ne hgf]
      exact he

/-- what `pipeclose` makes of the page: a pipe as long as an end is open -/
theorem pipeclose_eq {e : Ends} (he : w.pipes pi = some e) (b : Bool) : ∃ v frees,
    pipeclose w pi b = some { w with pipes := Function.update w.pipes pi v, frees := frees } ∧
      (∀ e', v = some e' → e' = e.close b ∧ ∃ b', e'.isOpen b' = true) ∧
      (∀ b', (e.close b).isOpen b' = true → v = some (e.close b)) ∧
      ∀ k, frees.count k + (if k = pi ∧ v.isSome = true then 1 else 0)
        = w.frees.count k + if k = pi then 1 else 0 := by
  unfold pipeclose
  rw [he]
  dsimp only
  by_cases hclosed : (e.close b).readopen = false ∧ (e.close b).writeopen = false
  · rw [if_pos hclosed]
    refine ⟨none, pi :: w.frees, rfl, nofun, fun b' hb => ?_, fun k => ?_⟩
    · exact absurd (hb.symm.trans ((closed_iff _).mp hclosed b')) nofun
    · by_cases hk : k = pi
      · subst hk
        simp
      · simp [hk, List.count_cons_of_ne (Ne.symm hk)]
  · rw [if_neg hclosed]
    refine ⟨some (e.close b), w.frees, rfl, fun e' h => ?_, fun b' _ => rfl, fun k => ?_⟩
    · obtain rfl := Option.some.inj h
      refine ⟨rfl, ?_⟩
      by_contra hno
      apply hclosed
      rw [closed_iff]
      intro b'
      by_contra hb'
      exact hno ⟨b', by simpa using hb'⟩
    · simp

/-- the last reference to an end of a pipe goes: the end is closed, and the page is given back when
the other one is closed too -/
theorem PipeInv.closeEnd (h : PipeInv w) (ht : (w.ftable f).type = .pipe) (hx : x.type = .none) :
    ∃ w', pipeclose (w.setFile f x) (w.ftable f).pipe (w.ftable f).writable = some w' ∧
      PipeInv w' ∧ w'.ftable = (w.setFile f x).ftable ∧ w'.ofile = w.ofile ∧ w'.state = w.state := by
  obtain ⟨e, he, ho, hend⟩ := h.page f ht
  generalize (w.ftable f).pipe = pi at he hend ⊢
  generalize (w.ftable f).writable = b at ho hend ⊢
  obtain ⟨v, frees, hrun, hv, hopen, hcount⟩ :=
    pipeclose_eq (show (w.setFile f x).pipes pi = some e from he) b
  have hne : ∀ g, ((w.setFile f x).ftable g).type = .pipe → g ≠ f := by
    rintro g hg rfl
    rw [setFile_self] at hg
    exact absurd (hx.symm.trans hg) nofun
  -- the entries that are ends now are those that were, but for this one
  have hends : ∀ g pi' b', ((w.setFile f x).ftable g).IsEnd pi' b' ↔
      (w.ftable g).IsEnd pi' b' ∧ ¬ (pi' = pi ∧ b' = b) := by
    intro g pi' b'
    constructor
    · intro hg
      have hgf := hne g hg.type
      rw [setFile_of_ne hgf] at hg
      refine ⟨hg, ?_⟩
      rintro ⟨rfl, rfl⟩
      exact hgf (h.unique g f _ _ hg hend)
    · rintro ⟨hg, hn⟩
      have hgf : g ≠ f := by
        rintro rfl
        exact hn ⟨hg.page.symm.trans hend.page, hg.writes.symm.trans hend.writes⟩
      rw [setFile_of_ne hgf]
      exact hg
  refine ⟨_, hrun, ⟨fun g hg => ?_, fun g hg => ?_, fun g g' pi' b' h1 h2 => ?_,
    fun pi' e' b' h1 h2 => ?_, fun pi' e' h1 => ?_, fun k => ?_⟩, rfl, rfl, rfl⟩
  · by_cases hgf : g = f
    · subst hgf
      show ((w.setFile g x).ftable g).type = .none
      rw [setFile_self]
      exact hx
    · change ((w.setFile f x).ftable g).ref = 0 at hg
      show ((w.setFile f x).ftable g).type = .none
      rw [setFile_of_ne hgf] at hg ⊢
      exact h.free g hg
  · have hgf := hne g hg
    change ((w.setFile f x).ftable g).type = .pipe at hg
    show ∃ e'', Function.update w.pipes pi v ((w.setFile f x).ftable g).pipe = some e'' ∧
      e''.isOpen ((w.setFile f x).ftable g).writable = true ∧
      ((w.setFile f x).ftable g).IsEnd ((w.setFile f x).ftable g).pipe
        ((w.setFile f x).ftable g).writable
    rw [setFile_of_ne hgf] at hg ⊢
    obtain ⟨e', h1, h2, h3⟩ := h.page g hg
    by_cases hp : (w.ftable g).pipe = pi
    · rw [hp, he] at h1
      obtain rfl := Option.some.inj h1
      have hb' : (w.ftable g).writable ≠ b := by
        intro hb'
        rw [hp, hb'] at h3
        exact hgf (h.unique g f _ _ h3 hend)
      have ho' : (e.close b).isOpen (w.ftable g).writable = true := by
        rw [isOpen_close, if_neg hb']
        exact h2
      rw [hp] at h3 ⊢
      rw [Function.update_self]
      exact ⟨_, hopen _ ho', ho', h3⟩
    · rw [Function.update_of_ne hp]
      exact ⟨e', h1, h2, h3⟩
  · exact h.unique g g' pi' b' ((hends g pi' b').mp h1).1 ((hends g' pi' b').mp h2).1
  · change Function.update w.pipes pi v pi' = some e' at h1
    by_cases hp : pi' = pi
    · subst hp
      rw [Function.update_self] at h1
      obtain ⟨rfl, -⟩ := hv e' h1
      rw [isOpen_close] at h2
      by_cases hb' : b' = b
      · rw [if_pos hb'] at h2
        exact absurd h2 nofun
      · rw [if_neg hb'] at h2
        obtain ⟨g, hg⟩ := h.back pi' e b' he h2
        exact ⟨g, (hends g pi' b').mpr ⟨hg, fun hn => hb' hn.2⟩⟩
    · rw [Function.update_of_ne hp] at h1
      obtain ⟨g, hg⟩ := h.back pi' e' b' h1 h2
      exact ⟨g, (hends g pi' b').mpr ⟨hg, fun hn => hp hn.1⟩⟩
  · change Function.update w.pipes pi v pi' = some e' at h1
    by_cases hp : pi' = pi
    · subst hp
      rw [Function.update_self] at h1
      exact (hv e' h1).2
    · rw [Function.update_of_ne hp] at h1
      exact h.used pi' e' h1
  · show w.allocs.count k = frees.count k +
      if (Function.update w.pipes pi v k).isSome then 1 else 0
    have hc := h.count k
    have hc' := hcount k
    by_cases hk : k = pi
    · subst hk
      rw [he] at hc
      rw [Function.update_self]
      simp only [Option.isSome_some, if_true, true_and] at hc hc'
      exact hc.trans hc'.symm
    · rw [Function.update_of_ne hk]
      rw [if_neg (fun hn => hk hn.1), if_neg hk] at hc'
      rw [Nat.add_right_cancel hc']
      exact hc

/-! ## files -/

theorem Held.congr (h : Held w held) (hf : w'.ftable = w.ftable) (ho : w'.ofile = w.ofile)
    (hp : w'.pipes = w.pipes) (ha : w'.allocs = w.allocs) (hr : w'.frees = w.frees) :
    Held w' held := by
  constructor
  · unfold World.slots
    rw [hf, ho]
    exact h.ref
  · refine h.pipe.congr hp ha hr ?_ ?_ ?_ <;> rw [hf]
    · exact h.pipe.free
    · exact fun f ht => ⟨ht, rfl, rfl, rfl⟩
    · exact fun _ _ _ he => he

theorem Held.pos (h : Held w held) (hf : f ∈ held ∨ ∃ i, w.slots i = some f) :
    0 < (w.ftable f).ref := by
  rw [h.ref f]
  rcases hf with hf | ⟨i, hi⟩
  · have := List.count_pos_iff.mpr hf
    omega
  · have : refs w.slots f ≠ 0 := fun h0 => refs_eq_zero_iff.mp h0 i hi
    omega

theorem Held.setRef (h : Held w held) {held' : List (Fin nfile)} {x : File}
    (hr : x.ref = refs w.slots f + held'.count f) (hc : ∀ g, g ≠ f → held'.count g = held.count g)
    (g : Fin nfile) :
    ((w.setFile f x).ftable g).ref = refs (w.setFile f x).slots g + held'.count g := by
  by_cases hg : g = f
  · subst hg
    rw [setFile_self]
    exact hr
  · rw [setFile_of_ne hg, hc g hg]
    exact h.ref g

theorem filealloc_spec (h : Held w held) : filealloc w = none ∨ ∃ f w', filealloc w = some (w', f) ∧
    Held w' (f :: held) ∧ (w'.ftable f).type = .none ∧ w'.ofile = w.ofile ∧ w'.state = w.state ∧
    w'.pipes = w.pipes ∧ f ∉ held ∧ ∀ g ≠ f, w'.ftable g = w.ftable g := by
  unfold filealloc
  cases hfind : Fin.find? (fun f => decide ((w.ftable f).ref = 0)) with
  | none => exact Or.inl rfl
  | some f =>
    have h0 : (w.ftable f).ref = 0 := by
      rw [Fin.find?_eq_some_iff] at hfind
      exact of_decide_eq_true hfind.1
    have hrefs := h.ref f
    have hplain : (w.ftable f).type ≠ .pipe := by
      rw [h.pipe.free f h0]
      exact nofun
    have hnot : f ∉ held := by
      rw [← List.count_eq_zero]
      omega
    refine Or.inr ⟨f, _, rfl, ⟨h.setRef ?_ ?_, h.pipe.setRef (by decide)⟩, ?_, rfl, rfl, rfl, hnot,
      fun g hg => setFile_of_ne hg⟩
    · rw [List.count_cons_self]
      show 1 = _
      omega
    · exact fun g hg => List.count_cons_of_ne (Ne.symm hg)
    · rw [setFile_self]
      exact h.pipe.free f h0

/-- a reference more, for a file that has some -/
theorem filedup_spec (h : Held w held) (hf : 0 < (w.ftable f).ref) : ∃ w', filedup w f = some w' ∧
    Held w' (f :: held) ∧ w'.ofile = w.ofile ∧ w'.state = w.state := by
  unfold filedup
  rw [if_neg (by omega)]
  refine ⟨_, rfl, ⟨h.setRef ?_ ?_, h.pipe.setRef (Nat.succ_ne_zero _)⟩, rfl, rfl⟩
  · rw [List.count_cons_self]
    show (w.ftable f).ref + 1 = _
    rw [h.ref f]
    omega
  · exact fun g hg => List.count_cons_of_ne (Ne.symm hg)

theorem fileclose_spec (h : Held w (f :: held)) : ∃ w', fileclose w f = some w' ∧ Held w' held ∧
    w'.ofile = w.ofile ∧ w'.state = w.state ∧
    ((w.ftable f).type ≠ .pipe → w'.pipes = w.pipes ∧ ∀ g ≠ f, w'.ftable g = w.ftable g) := by
  have hpos := h.pos (Or.inl List.mem_cons_self)
  have hrefs := h.ref f
  rw [List.count_cons_self] at hrefs
  have hcount : ∀ g, g ≠ f → held.count g = (f :: held).count g :=
    fun g hg => (List.count_cons_of_ne (Ne.symm hg)).symm
  unfold fileclose
  dsimp only
  rw [if_neg (by omega)]
  by_cases hlast : (w.ftable f).ref - 1 > 0
  · rw [if_pos hlast]
    refine ⟨_, rfl, ⟨h.setRef ?_ hcount, h.pipe.setRef (by omega)⟩, rfl, rfl,
      fun _ => ⟨rfl, fun g hg => setFile_of_ne hg⟩⟩
    show (w.ftable f).ref - 1 = _
    omega
  · rw [if_neg hlast]
    have hzero : refs w.slots f + held.count f = 0 := by omega
    by_cases ht : (w.ftable f).type = .pipe
    · rw [if_pos ht]
      obtain ⟨w', hrun, hinv, hft, hof, hst⟩ := h.pipe.closeEnd ht
        (show ({ w.ftable f with ref := 0, type := .none } : File).type = .none from rfl)
      refine ⟨w', hrun, ⟨fun g => ?_, hinv⟩, hof, hst, fun hn => absurd ht hn⟩
      unfold World.slots
      rw [hft, hof]
      exact h.setRef (x := { w.ftable f with ref := 0, type := .none }) hzero.symm hcount g
    · rw [if_neg ht]
      exact ⟨_, rfl, ⟨h.setRef hzero.symm hcount, h.pipe.setPlain ht nofun (fun _ => rfl)⟩, rfl, rfl,
        fun _ => ⟨rfl, fun g hg => setFile_of_ne hg⟩⟩

/-! ## descriptors -/

theorem Held.give (h : Held w (f :: held)) (hfd : w.ofile p fd = none) :
    Held (w.setFd p fd (some f)) held := by
  refine ⟨fun g => ?_, h.pipe.congr rfl rfl rfl h.pipe.free (fun _ ht => ⟨ht, rfl, rfl, rfl⟩)
    (fun _ _ _ he => he)⟩
  rw [slots_setFd, refs_add (show w.slots (p, fd) = none from hfd)]
  have hg := h.ref g
  rw [List.count_cons] at hg
  show (w.ftable g).ref = _
  rw [hg]
  by_cases e : g = f
  · subst e
    simp
    omega
  · simp [e, Ne.symm e]

theorem Held.clear (h : Held w held) (hfd : w.ofile p fd = some f) :
    Held (w.setFd p fd none) (f :: held) := by
  refine ⟨fun g => ?_, h.pipe.congr rfl rfl rfl h.pipe.free (fun _ ht => ⟨ht, rfl, rfl, rfl⟩)
    (fun _ _ _ he => he)⟩
  have hdrop := refs_drop (a := g) (show w.slots (p, fd) = some f from hfd)
  rw [slots_setFd, List.count_cons]
  show (w.ftable g).ref = _
  rw [h.ref g, ← hdrop]
  by_cases e : g = f
  · subst e
    simp
    omega
  · simp [e, Ne.symm e]

end

end Ftable
