import Mathlib.Data.List.Basic
import Mathlib.Data.List.Nodup

/-!
# Linked lists as pointer maps

A link field of a heap is a function `nxt` from nodes to nodes.  `Seg nxt a l z`: following `nxt`
from `a` visits exactly the nodes of `l` and arrives at `z`.  A NULL-terminated list is a segment
that ends in the null node (`Chain`), a circular list is a segment that ends where it began.
`Dll` puts a forward and a backward chain together; `Dll.snoc`, `Dll.insert` and `Dll.remove` are
the updates of a doubly linked list.
-/

namespace Lib

section
variable {α : Type*}

/-- following `nxt` from `a` visits the nodes `l` and arrives at `z` -/
def Seg (nxt : α → α) : α → List α → α → Prop
  | a, [], z => a = z
  | a, x :: l, z => a = x ∧ Seg nxt (nxt x) l z

variable {nxt nxt' : α → α} {a z x y : α} {l k : List α}

@[simp] theorem seg_nil : Seg nxt a [] z ↔ a = z := Iff.rfl

@[simp] theorem seg_cons : Seg nxt a (x :: l) z ↔ a = x ∧ Seg nxt (nxt x) l z := Iff.rfl

theorem seg_append : Seg nxt a (l ++ k) z ↔ ∃ m, Seg nxt a l m ∧ Seg nxt m k z := by
  induction l generalizing a with
  | nil => simp
  | cons x l ih => simp only [List.cons_append, seg_cons, ih, and_assoc, exists_and_left]

theorem seg_snoc : Seg nxt a (l ++ [x]) z ↔ Seg nxt a l x ∧ nxt x = z := by
  rw [seg_append]
  constructor
  · rintro ⟨m, hl, rfl, hz⟩
    exact ⟨hl, hz⟩
  · rintro ⟨hl, hz⟩
    exact ⟨x, hl, rfl, hz⟩

/-- a segment survives any change of the links of other nodes -/
theorem Seg.congr (h : Seg nxt a l z) (e : ∀ x ∈ l, nxt' x = nxt x) : Seg nxt' a l z := by
  induction l generalizing a with
  | nil => exact h
  | cons x l ih =>
    obtain ⟨rfl, hl⟩ := h
    refine ⟨rfl, ?_⟩
    rw [e a (List.mem_cons_self ..)]
    exact ih hl (fun y hy => e y (List.mem_cons_of_mem _ hy))

/-- the links of a list whose last node now points to `y` -/
theorem Seg.redirect (h : Seg nxt a (l ++ [x]) z) (e : ∀ y ∈ l, nxt' y = nxt y)
    (hy : nxt' x = y) : Seg nxt' a (l ++ [x]) y := by
  obtain ⟨hl, _⟩ := seg_snoc.mp h
  exact seg_snoc.mpr ⟨hl.congr e, hy⟩

end

section
variable {α : Type*} (null : α)

/-- a NULL-terminated list: the nodes `l` from the head `a` on -/
def Chain (nxt : α → α) (a : α) (l : List α) : Prop := null ∉ l ∧ Seg nxt a l null

variable {null} {nxt nxt' prv prv' : α → α} {a b t x : α} {l k : List α}

theorem Chain.congr (h : Chain null nxt a l) (e : ∀ x ∈ l, nxt' x = nxt x) :
    Chain null nxt' a l := ⟨h.1, h.2.congr e⟩

theorem chain_nil : Chain null nxt a [] ↔ a = null := by simp [Chain]

theorem chain_cons : Chain null nxt a (x :: l) ↔ a = x ∧ x ≠ null ∧ Chain null nxt (nxt x) l := by
  simp only [Chain, List.mem_cons, not_or, seg_cons]
  constructor
  · rintro ⟨⟨h1, h2⟩, rfl, h3⟩
    exact ⟨rfl, Ne.symm h1, h2, h3⟩
  · rintro ⟨rfl, h1, h2, h3⟩
    exact ⟨⟨Ne.symm h1, h2⟩, rfl, h3⟩

/-- the head pointer is NULL exactly when the list is empty -/
theorem Chain.head_eq_null_iff (h : Chain null nxt a l) : a = null ↔ l = [] := by
  cases l with
  | nil => simpa using chain_nil.mp h
  | cons x l =>
    obtain ⟨rfl, hne, _⟩ := chain_cons.mp h
    simp [hne]

/-- a doubly linked list: forwards from `a` by `nxt`, backwards from `t` by `prv` -/
structure Dll (null : α) (nxt prv : α → α) (a t : α) (l : List α) : Prop where
  nodup : l.Nodup
  fwd : Chain null nxt a l
  bwd : Chain null prv t l.reverse

theorem Dll.empty : Dll null nxt prv null null [] :=
  ⟨List.nodup_nil, chain_nil.mpr rfl, chain_nil.mpr rfl⟩

theorem Dll.congr (h : Dll null nxt prv a t l) (en : ∀ x ∈ l, nxt' x = nxt x)
    (ep : ∀ x ∈ l, prv' x = prv x) : Dll null nxt' prv' a t l :=
  ⟨h.nodup, h.fwd.congr en, h.bwd.congr (fun x hx => ep x (List.mem_reverse.mp hx))⟩

theorem Dll.singleton (hb : b ≠ null) (hn : nxt b = null) (hp : prv b = null) :
    Dll null nxt prv b b [b] := by
  refine ⟨List.nodup_singleton b, ?_, ?_⟩
  · exact chain_cons.mpr ⟨rfl, hb, chain_nil.mpr hn⟩
  · exact chain_cons.mpr ⟨rfl, hb, chain_nil.mpr hp⟩

theorem Dll.tail_eq (h : Dll null nxt prv a t (l ++ [x])) : t = x := by
  have hb := h.bwd
  rw [List.reverse_append] at hb
  exact (chain_cons.mp hb).1

/-- append `b` at the tail: the old tail points forward to `b` and `b` points back to it -/
theorem Dll.snoc (h : Dll null nxt prv a t (l ++ [x])) (hb : b ≠ null) (hnew : b ∉ l ++ [x])
    (en : ∀ y ∈ l, nxt' y = nxt y) (ep : ∀ y ∈ l ++ [x], prv' y = prv y)
    (hx : nxt' x = b) (hbn : nxt' b = null) (hbp : prv' b = t) :
    Dll null nxt' prv' a b (l ++ [x] ++ [b]) := by
  refine ⟨?_, ⟨?_, ?_⟩, ?_⟩
  · refine List.nodup_append.mpr ⟨h.nodup, List.nodup_singleton b, ?_⟩
    intro y hy z hz e
    rw [List.mem_singleton] at hz
    exact hnew (hz ▸ e ▸ hy)
  · intro hm
    rcases List.mem_append.mp hm with h1 | h1
    · exact h.fwd.1 h1
    · exact hb (List.mem_singleton.mp h1).symm
  · exact seg_snoc.mpr ⟨h.fwd.2.redirect en hx, hbn⟩
  · rw [List.reverse_append, List.reverse_singleton, List.singleton_append]
    refine chain_cons.mpr ⟨rfl, hb, ?_⟩
    rw [hbp]
    exact h.bwd.congr (fun y hy => ep y (List.mem_reverse.mp hy))

/-- take the node `x` out of a segment: the node before it, or the start, now points past it -/
theorem Seg.splice {l₁ l₂ : List α} (h : Seg nxt a (l₁ ++ x :: l₂) t) (hd : (l₁ ++ x :: l₂).Nodup)
    (a' : α) (ha : l₁ = [] → a' = nxt x) (ha' : l₁ ≠ [] → a' = a)
    (hpred : ∀ p q, l₁ = p ++ [q] → nxt' q = nxt x)
    (e : ∀ y ∈ l₁ ++ l₂, (∀ p, l₁ ≠ p ++ [y]) → nxt' y = nxt y) : Seg nxt' a' (l₁ ++ l₂) t := by
  obtain ⟨m, h1, rfl, h2⟩ := seg_append.mp h
  have hdis := List.nodup_append.mp hd
  have h2' : Seg nxt' (nxt m) l₂ t := by
    refine h2.congr (fun y hy => e y (List.mem_append_right _ hy) (fun p hp => ?_))
    have hyl : y ∈ l₁ := by rw [hp]; simp
    exact hdis.2.2 y hyl y (List.mem_cons_of_mem _ hy) rfl
  rcases List.eq_nil_or_concat l₁ with hl | ⟨p, q, hl⟩
  · rw [hl, List.nil_append, ha hl]
    exact h2'
  · rw [List.concat_eq_append] at hl
    have hq : q ∉ p := by
      have hn := hdis.1
      rw [hl] at hn
      exact fun hm => (List.nodup_append.mp hn).2.2 q hm q (List.mem_singleton_self q) rfl
    refine seg_append.mpr ⟨nxt m, ?_, h2'⟩
    rw [ha' (by simp [hl])]
    rw [hl] at h1 ⊢
    refine h1.redirect (fun y hy => ?_) (hpred p q hl)
    refine e y (by simp [hl, hy]) (fun p' hp' => ?_)
    have : q = y := by
      have e1 := hl.symm.trans hp'
      simpa using (List.append_inj' e1 rfl).2
    exact hq (this ▸ hy)

/-- put the node `b` behind `x`: `x` points to `b`, and `b` where `x` pointed -/
theorem Seg.insert {l₁ l₂ : List α} (h : Seg nxt a (l₁ ++ x :: l₂) t)
    (e : ∀ y ∈ l₁ ++ l₂, nxt' y = nxt y) (hx : nxt' x = b) (hb : nxt' b = nxt x) :
    Seg nxt' a (l₁ ++ x :: b :: l₂) t := by
  obtain ⟨m, h1, rfl, h2⟩ := seg_append.mp h
  refine seg_append.mpr ⟨m, h1.congr (fun y hy => e y (List.mem_append_left _ hy)), rfl, ?_⟩
  rw [hx]
  refine ⟨rfl, ?_⟩
  rw [hb]
  exact h2.congr (fun y hy => e y (List.mem_append_right _ hy))

theorem Dll.reverse (h : Dll null nxt prv a t l) : Dll null prv nxt t a l.reverse := by
  refine ⟨List.nodup_reverse.mpr h.nodup, h.bwd, ?_⟩
  rw [List.reverse_reverse]
  exact h.fwd

/-- put `b` behind a node that is not the last one -/
theorem Dll.insert {y : α} {l₁ l₂ : List α} (h : Dll null nxt prv a t (l₁ ++ x :: y :: l₂))
    (hb : b ≠ null)
    (hnew : b ∉ l₁ ++ x :: y :: l₂) (en : ∀ z ∈ l₁ ++ y :: l₂, nxt' z = nxt z) (hx : nxt' x = b)
    (hbn : nxt' b = nxt x) (ep : ∀ z ∈ l₁ ++ x :: l₂, prv' z = prv z) (hy : prv' y = b)
    (hbp : prv' b = x) : Dll null nxt' prv' a t (l₁ ++ x :: b :: y :: l₂) := by
  have hperm : (l₁ ++ x :: b :: y :: l₂).Perm (b :: (l₁ ++ x :: y :: l₂)) := by
    have hmid : (l₁ ++ [x] ++ b :: (y :: l₂)).Perm (b :: (l₁ ++ [x] ++ (y :: l₂))) :=
      List.perm_middle
    simpa using hmid
  have hnull : null ∉ l₁ ++ x :: b :: y :: l₂ := fun hm => by
    rcases List.mem_cons.mp (hperm.mem_iff.mp hm) with h1 | h1
    · exact hb h1.symm
    · exact h.fwd.1 h1
  have hback : prv y = x := by
    have hr := h.reverse.fwd.2
    rw [List.reverse_append, List.reverse_cons, List.reverse_cons, List.append_assoc,
      List.append_assoc] at hr
    obtain ⟨_, _, rfl, h2⟩ := seg_append.mp hr
    exact (seg_cons.mp h2).1
  refine ⟨?_, ⟨hnull, h.fwd.2.insert en hx hbn⟩, fun hm => hnull (List.mem_reverse.mp hm), ?_⟩
  · exact hperm.nodup_iff.mpr (List.nodup_cons.mpr ⟨hnew, h.nodup⟩)
  · have hr : Seg prv t (l₂.reverse ++ y :: (x :: l₁.reverse)) null := by
      have hb := h.bwd.2
      simpa using hb
    have hi : Seg prv' t (l₂.reverse ++ y :: b :: (x :: l₁.reverse)) null := by
      refine hr.insert (fun z hz => ep z ?_) hy (hbp.trans hback.symm)
      simp only [List.mem_append, List.mem_reverse, List.mem_cons] at hz ⊢
      tauto
    simpa using hi

section
variable {r a' t' : α} {l₁ l₂ : List α} (h : Dll null nxt prv a t (l₁ ++ r :: l₂))
include h

theorem Dll.next : Chain null nxt (nxt r) l₂ := by
  obtain ⟨m, _, rfl, h2⟩ := seg_append.mp h.fwd.2
  exact ⟨fun hm => h.fwd.1 (List.mem_append_right _ (List.mem_cons_of_mem _ hm)), h2⟩

theorem Dll.prev : Chain null prv (prv r) l₁.reverse := by
  have hr := h.reverse
  rw [List.reverse_append, List.reverse_cons, List.append_assoc, List.singleton_append] at hr
  exact hr.next

theorem Dll.head_eq_iff : a = r ↔ l₁ = [] := by
  cases l₁ with
  | nil => simpa using (chain_cons.mp h.fwd).1
  | cons y l =>
    have ha : a = y := (chain_cons.mp h.fwd).1
    have hne : y ≠ r := by
      intro e
      have hn := h.nodup
      rw [List.cons_append, List.nodup_cons, e] at hn
      exact hn.1 (by simp)
    simp [ha, hne]

theorem Dll.prev_eq_iff {y : α} (hy : y ∈ l₁ ++ l₂) : y = prv r ↔ ∃ p, l₁ = p ++ [y] := by
  have hp := Dll.prev h
  have hynull : y ≠ null := fun e => h.fwd.1 (by
    rw [← e]
    rcases List.mem_append.mp hy with h1 | h1 <;> simp [h1])
  rcases List.eq_nil_or_concat l₁ with hl | ⟨p, q, hl⟩
  · rw [hl, List.reverse_nil, chain_nil] at hp
    simp [hl, hp, hynull]
  · rw [List.concat_eq_append] at hl
    rw [hl, List.reverse_append, List.reverse_singleton, List.singleton_append] at hp
    rw [(chain_cons.mp hp).1, hl]
    constructor
    · rintro rfl
      exact ⟨p, rfl⟩
    · rintro ⟨p', hp'⟩
      simpa using (List.append_inj' hp' rfl).2.symm

variable [DecidableEq α]

theorem Dll.remove_fwd (ha : a' = if a = r then nxt r else a)
    (en : ∀ y ∈ l₁ ++ l₂, nxt' y = if y = prv r then nxt r else nxt y) :
    Chain null nxt' a' (l₁ ++ l₂) := by
  refine ⟨fun hm => h.fwd.1 ?_, h.fwd.2.splice h.nodup a' ?_ ?_ ?_ ?_⟩
  · rcases List.mem_append.mp hm with h1 | h1 <;> simp [h1]
  · intro hl
    rw [ha, if_pos ((Dll.head_eq_iff h).mpr hl)]
  · intro hl
    rw [ha, if_neg (fun e => hl ((Dll.head_eq_iff h).mp e))]
  · intro p q hl
    have hq : q ∈ l₁ ++ l₂ := by simp [hl]
    rw [en q hq, if_pos ((Dll.prev_eq_iff h hq).mpr ⟨p, hl⟩)]
  · intro y hy hne
    rw [en y hy, if_neg (fun e => ?_)]
    obtain ⟨p, hp⟩ := (Dll.prev_eq_iff h hy).mp e
    exact hne p hp

/-- take `r` out: its neighbours are linked to each other, and the end pointers move past it -/
theorem Dll.remove (ha : a' = if a = r then nxt r else a) (ht : t' = if t = r then prv r else t)
    (en : ∀ y ∈ l₁ ++ l₂, nxt' y = if y = prv r then nxt r else nxt y)
    (ep : ∀ y ∈ l₁ ++ l₂, prv' y = if y = nxt r then prv r else prv y) :
    Dll null nxt' prv' a' t' (l₁ ++ l₂) := by
  have hr := h.reverse
  rw [List.reverse_append, List.reverse_cons, List.append_assoc, List.singleton_append] at hr
  refine ⟨h.nodup.sublist (by simp), Dll.remove_fwd h ha en, ?_⟩
  rw [List.reverse_append]
  refine Dll.remove_fwd hr ht (fun y hy => ep y ?_)
  rcases List.mem_append.mp hy with h1 | h1
  · exact List.mem_append_right _ (List.mem_reverse.mp h1)
  · exact List.mem_append_left _ (List.mem_reverse.mp h1)

end

end

end Lib
