import Mathlib.Data.List.Sort

/-!
# Stable insertion

`List.orderedInsert r x l` puts `x` before the first element that `r` places
after it. When that element comes before all that stood behind it, so does `x`,
and the list stays in order: with ties going behind, a queue keeps equal elements
in the order they came. The order need not be transitive.
-/

namespace Lib

variable {β : Type} {r R : β → β → Prop} [DecidableRel r]

theorem pairwise_orderedInsert {x : β} {l : List β}
    (htrans : ∀ y ∈ l, ∀ z ∈ l, r x y → R y z → R x z) (hbefore : ∀ y ∈ l, r x y → R x y)
    (hafter : ∀ y ∈ l, ¬ r x y → R y x) (hl : l.Pairwise R) :
    (l.orderedInsert r x).Pairwise R := by
  induction l with
  | nil => exact List.pairwise_singleton R x
  | cons y l ih =>
    have hy : ∀ z ∈ l, R y z := fun z hz => List.rel_of_pairwise_cons hl hz
    have htail := List.Pairwise.of_cons hl
    rw [List.orderedInsert_cons]
    split
    next hr =>
      apply List.Pairwise.cons ?_ hl
      intro z hz
      rcases List.mem_cons.mp hz with rfl | hz
      · exact hbefore z List.mem_cons_self hr
      · exact htrans y List.mem_cons_self z (List.mem_cons_of_mem y hz) hr (hy z hz)
    next hr =>
      apply List.Pairwise.cons
      · intro z hz
        rcases (List.mem_orderedInsert r).mp hz with rfl | hz
        · exact hafter y List.mem_cons_self hr
        · exact hy z hz
      · apply ih _ _ _ htail
        · exact fun z hz w hw => htrans z (List.mem_cons_of_mem y hz) w (List.mem_cons_of_mem y hw)
        · exact fun z hz => hbefore z (List.mem_cons_of_mem y hz)
        · exact fun z hz => hafter z (List.mem_cons_of_mem y hz)

end Lib
