import Mathlib.Data.Finset.Card
import Mathlib.Data.List.Chain
import Mathlib.Logic.Relation

/-!
# Chains of a relation without cycles

Where nothing is related to itself by any number of steps, a chain never comes back, so among
finitely many elements it is short; a cycle has chains of every length.
-/

namespace Lib
open Relation

section
variable {α : Type*} {r : α → α → Prop} {a b : α} {l : List α}

theorem nodup_of_isChain (h : ∀ a, ¬ TransGen r a a) (hl : l.IsChain r) : l.Nodup := by
  have hchain : l.IsChain (TransGen r) := hl.imp (fun _ _ => TransGen.single)
  refine hchain.pairwise.imp (fun {x y} hxy e => ?_)
  rw [e] at hxy
  exact h y hxy

theorem length_le_of_isChain [DecidableEq α] (h : ∀ a, ¬ TransGen r a a) (hl : l.IsChain r)
    {s : Finset α} (hs : ∀ x ∈ l, x ∈ s) : l.length ≤ s.card := by
  rw [← List.toFinset_card_of_nodup (nodup_of_isChain h hl)]
  exact Finset.card_le_card (fun x hx => hs x (List.mem_toFinset.mp hx))

/-- from an element that everything it leads to leads back to, a step can always be taken -/
theorem exists_chain_of_transGen (h : TransGen r a a) (n : Nat) :
    ∃ l, l.length = n ∧ (a :: l).IsChain r := by
  have hstep : ∀ b, TransGen r b a → ∃ c, r b c ∧ TransGen r c a := by
    intro b hb
    obtain ⟨c, hc, hrest⟩ := TransGen.head'_iff.mp hb
    rcases reflTransGen_iff_eq_or_transGen.mp hrest with rfl | hrest
    · exact ⟨_, hc, h⟩
    · exact ⟨c, hc, hrest⟩
  have hall : ∀ n b, TransGen r b a → ∃ l, l.length = n ∧ (b :: l).IsChain r := by
    intro n
    induction n with
    | zero => exact fun b _ => ⟨[], rfl, List.isChain_singleton b⟩
    | succ n ih =>
      intro b hb
      obtain ⟨c, hc, hca⟩ := hstep b hb
      obtain ⟨l, hlen, hl⟩ := ih c hca
      exact ⟨c :: l, congrArg (· + 1) hlen, List.isChain_cons_cons.mpr ⟨hc, hl⟩⟩
  exact hall n a h

end

end Lib
