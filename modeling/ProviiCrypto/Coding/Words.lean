import Mathlib.Algebra.BigOperators.Group.Finset.Basic
import Mathlib.Algebra.Order.BigOperators.Group.Finset
import Mathlib.Data.Fintype.BigOperators
import Mathlib.Data.Fintype.Powerset

/-!
# Words with few letters

How many words of a length use only a few letters of a large alphabet.
-/

namespace ProviiCrypto.Coding

variable {α : Type} [Fintype α] [DecidableEq α]

/-- The words over a set of letters. -/
theorem card_words_over (k : ℕ) (s : Finset α) :
    (Finset.univ.filter fun w : Fin k → α => ∀ i, w i ∈ s).card = s.card ^ k := by
  have hpi : (Finset.univ.filter fun w : Fin k → α => ∀ i, w i ∈ s) =
      Fintype.piFinset fun _ => s := by
    ext w
    simp
  rw [hpi, Fintype.card_piFinset_const]

/-- **Few letters**: of the words of length `k` at most `m ^ k` for each choice of `m` letters have no
more than `m` letters. -/
theorem card_few_letters_le (k m : ℕ) (hm : m ≤ Fintype.card α) :
    (Finset.univ.filter fun w : Fin k → α => (Finset.univ.image w).card ≤ m).card ≤
      (Fintype.card α).choose m * m ^ k := by
  have hcover : (Finset.univ.filter fun w : Fin k → α => (Finset.univ.image w).card ≤ m) ⊆
      (Finset.univ.powersetCard m).biUnion fun s => Finset.univ.filter fun w => ∀ i, w i ∈ s := by
    intro w hw
    obtain ⟨s, hsub, -, hcard⟩ := Finset.exists_subsuperset_card_eq
      (Finset.subset_univ (Finset.univ.image w)) (Finset.mem_filter.mp hw).2 hm
    refine Finset.mem_biUnion.mpr ⟨s, Finset.mem_powersetCard.mpr ⟨Finset.subset_univ s, hcard⟩, ?_⟩
    exact Finset.mem_filter.mpr ⟨Finset.mem_univ w, fun i =>
      hsub (Finset.mem_image_of_mem w (Finset.mem_univ i))⟩
  calc _ ≤ _ := Finset.card_le_card hcover
    _ ≤ ∑ s ∈ Finset.univ.powersetCard m,
          (Finset.univ.filter fun w : Fin k → α => ∀ i, w i ∈ s).card := Finset.card_biUnion_le
    _ = ((Finset.univ : Finset α).powersetCard m).card * m ^ k := by
        refine Finset.sum_const_nat fun s hs => ?_
        rw [card_words_over, (Finset.mem_powersetCard.mp hs).2]
    _ = (Fintype.card α).choose m * m ^ k := by rw [Finset.card_powersetCard, Finset.card_univ]

end ProviiCrypto.Coding
