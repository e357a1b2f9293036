import Mathlib.Data.List.Basic
import Mathlib.Data.List.Infix
import Mathlib.Data.List.Nodup
import Mathlib.Tactic.Common

/-!
# Walks with a memory

A walk visits the elements of a list one after the other and gets an answer for
each, which may depend on the visits before it; some answers end the walk. What
it has seen is the list of its visits.
-/

namespace Lib.Walk

variable {ε ρ : Type} {ask : List (ε × ρ) → ε → ρ} {ends : ρ → Bool} {seen : List (ε × ρ)}
  {es : List ε}

/-- The visits of a walk along the elements, behind those that have been `seen`. -/
def walk (ask : List (ε × ρ) → ε → ρ) (ends : ρ → Bool) (seen : List (ε × ρ)) :
    List ε → List (ε × ρ)
  | [] => []
  | e :: es =>
    (e, ask seen e) ::
      if ends (ask seen e) then [] else walk ask ends (seen ++ [(e, ask seen e)]) es

/-- One of the visits ends the walk. -/
def ended (ends : ρ → Bool) (visits : List (ε × ρ)) : Bool := visits.any fun v => ends v.2

@[simp] theorem ended_nil : ended ends ([] : List (ε × ρ)) = false := rfl

@[simp] theorem ended_cons (v : ε × ρ) (vs : List (ε × ρ)) :
    ended ends (v :: vs) = (ends v.2 || ended ends vs) := rfl

@[simp] theorem ended_append (vs ws : List (ε × ρ)) :
    ended ends (vs ++ ws) = (ended ends vs || ended ends ws) := List.any_append

theorem walk_append (xs ys : List ε) : walk ask ends seen (xs ++ ys) =
    walk ask ends seen xs ++
      if ended ends (walk ask ends seen xs) then []
      else walk ask ends (seen ++ walk ask ends seen xs) ys := by
  induction xs generalizing seen with
  | nil => simp [walk]
  | cons x xs ih =>
    rw [List.cons_append, walk, walk]
    cases hends : ends (ask seen x) with
    | true => simp [hends]
    | false => simp [hends, ih]

/-- A walk keeps to the order of the elements. -/
theorem fst_isPrefix : (walk ask ends seen es).map Prod.fst <+: es := by
  induction es generalizing seen with
  | nil => exact List.prefix_refl []
  | cons e es ih =>
    rw [walk, List.map_cons, List.prefix_cons_inj]
    split
    · exact List.nil_prefix
    · exact ih

theorem length_walk_le : (walk ask ends seen es).length ≤ es.length := by
  have hle := (fst_isPrefix : (walk ask ends seen es).map Prod.fst <+: es).length_le
  rwa [List.length_map] at hle

theorem mem_of_mem_walk {v : ε × ρ} (h : v ∈ walk ask ends seen es) : v.1 ∈ es :=
  fst_isPrefix.subset (List.mem_map_of_mem h)

/-- Without an end it visits them all. -/
theorem fst_eq (h : ended ends (walk ask ends seen es) = false) :
    (walk ask ends seen es).map Prod.fst = es := by
  induction es generalizing seen with
  | nil => rfl
  | cons e es ih =>
    rw [walk] at h ⊢
    cases hends : ends (ask seen e) with
    | true => simp [hends] at h
    | false =>
      simp only [hends, Bool.false_eq_true, if_false, ended_cons, Bool.false_or] at h ⊢
      rw [List.map_cons, ih h]

/-- Only the last visit can end a walk. -/
theorem ended_iff : ended ends (walk ask ends seen es) = true ↔
    ∃ vs v, walk ask ends seen es = vs ++ [v] ∧ ends v.2 = true ∧ ended ends vs = false := by
  induction es generalizing seen with
  | nil => simp [walk]
  | cons e es ih =>
    rw [walk]
    cases hends : ends (ask seen e) with
    | true => exact iff_of_true (by simp [hends]) ⟨[], (e, ask seen e), by simp, hends, rfl⟩
    | false =>
      simp only [Bool.false_eq_true, if_false, ended_cons, hends, Bool.false_or]
      rw [ih]
      constructor
      · rintro ⟨vs, v, hvs, hv, hnone⟩
        exact ⟨(e, ask seen e) :: vs, v, by rw [hvs, List.cons_append], hv, by simp [hends, hnone]⟩
      · rintro ⟨vs, v, hvs, hv, hnone⟩
        cases vs with
        | nil =>
          obtain ⟨rfl, -⟩ := List.cons.inj hvs
          exact absurd (hends.symm.trans hv) Bool.false_ne_true
        | cons w vs =>
          rw [List.cons_append] at hvs
          obtain ⟨rfl, htail⟩ := List.cons.inj hvs
          rw [ended_cons, hends, Bool.false_or] at hnone
          exact ⟨vs, v, htail, hv, hnone⟩

/-- Before its last visit nothing ends a walk. -/
theorem not_ends_of_mem_dropLast {v : ε × ρ} (h : v ∈ (walk ask ends seen es).dropLast) :
    ends v.2 = false := by
  cases hended : ended ends (walk ask ends seen es) with
  | true =>
    obtain ⟨vs, w, hvs, -, hnone⟩ := ended_iff.mp hended
    rw [hvs, List.dropLast_concat] at h
    exact Bool.eq_false_iff.mpr (List.any_eq_false.mp hnone v h)
  | false => exact Bool.eq_false_iff.mpr (List.any_eq_false.mp hended v (List.mem_of_mem_dropLast h))

end Lib.Walk
