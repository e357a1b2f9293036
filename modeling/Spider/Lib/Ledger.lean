import Mathlib.Data.Multiset.Count
import Mathlib.Algebra.Order.Group.Multiset
import Mathlib.Logic.Function.Basic
import Mathlib.Tactic.Common

/-!
# Ledgers of references

Reference counting in its own terms. `cnt a` is the counter of object `a`, and
`none` when there is no such object; `R` is the multiset of all outstanding
references. The counters agree with the references when each counter is the
number of references to its object, no object is without one, and no reference
dangles. Every operation of a reference-counting scheme is one of the four laws
below; none of them looks at who holds a reference.
-/

namespace Lib.Ledger

variable {A : Type} [DecidableEq A]

/-- The counters `cnt` agree with the outstanding references `R`. -/
structure Agrees (cnt : A → Option Int) (R : Multiset A) : Prop where
  count : ∀ {a n}, cnt a = some n → n = R.count a ∧ 0 < n
  live : ∀ {a}, a ∈ R → (cnt a).isSome

variable {cnt : A → Option Int} {R : Multiset A} {a : A} {n : Int}

theorem agrees_empty : Agrees (fun _ : A => none) 0 where
  count h := by cases h
  live h := absurd h (Multiset.notMem_zero _)

theorem Agrees.notMem_of_none (h : Agrees cnt R) (ha : cnt a = none) : a ∉ R := by
  intro hmem
  have := h.live hmem
  simp [ha] at this

/-- An object is live exactly when some reference to it is outstanding. -/
theorem Agrees.mem_iff (h : Agrees cnt R) : a ∈ R ↔ (cnt a).isSome := by
  constructor
  · exact h.live
  · intro hs
    obtain ⟨n, hn⟩ := Option.isSome_iff_exists.mp hs
    have := h.count hn
    exact Multiset.count_pos.mp (by omega)

/-- A new object starts with one reference. -/
theorem Agrees.alloc (h : Agrees cnt R) (ha : cnt a = none) :
    Agrees (Function.update cnt a (some 1)) (a ::ₘ R) := by
  have hnot := h.notMem_of_none ha
  refine ⟨?_, ?_⟩
  · intro b n hb
    by_cases he : b = a
    · subst he
      have h1 : n = 1 := by simpa using hb.symm
      simp [h1, Multiset.count_eq_zero_of_notMem hnot]
    · rw [Function.update_of_ne he] at hb
      rw [Multiset.count_cons_of_ne he]
      exact h.count hb
  · intro b hb
    by_cases he : b = a
    · subst he; simp
    · rw [Function.update_of_ne he]
      exact h.live ((Multiset.mem_cons.mp hb).resolve_left he)

/-- Taking a reference raises one counter. -/
theorem Agrees.acquire (h : Agrees cnt R) (ha : cnt a = some n) :
    Agrees (Function.update cnt a (some (n + 1))) (a ::ₘ R) := by
  obtain ⟨hn, hpos⟩ := h.count ha
  refine ⟨?_, ?_⟩
  · intro b k hb
    by_cases he : b = a
    · subst he
      have hk : k = n + 1 := by simpa using hb.symm
      rw [Multiset.count_cons_self]
      omega
    · rw [Function.update_of_ne he] at hb
      rw [Multiset.count_cons_of_ne he]
      exact h.count hb
  · intro b hb
    by_cases he : b = a
    · subst he; simp
    · rw [Function.update_of_ne he]
      exact h.live ((Multiset.mem_cons.mp hb).resolve_left he)

/-- Dropping a reference that is not the last lowers one counter. -/
theorem Agrees.release (h : Agrees cnt (a ::ₘ R)) (ha : cnt a = some n) (hn : 1 < n) :
    Agrees (Function.update cnt a (some (n - 1))) R := by
  obtain ⟨hc, -⟩ := h.count ha
  rw [Multiset.count_cons_self] at hc
  refine ⟨?_, ?_⟩
  · intro b k hb
    by_cases he : b = a
    · subst he
      have hk : k = n - 1 := by simpa using hb.symm
      omega
    · rw [Function.update_of_ne he] at hb
      have := h.count hb
      rwa [Multiset.count_cons_of_ne he] at this
  · intro b hb
    by_cases he : b = a
    · subst he; simp
    · rw [Function.update_of_ne he]
      exact h.live (Multiset.mem_cons_of_mem hb)

/-- Dropping the last reference leaves an object nobody refers to. -/
theorem Agrees.releaseLast (h : Agrees cnt (a ::ₘ R)) (ha : cnt a = some 1) :
    Agrees (Function.update cnt a none) R ∧ a ∉ R := by
  obtain ⟨hc, -⟩ := h.count ha
  rw [Multiset.count_cons_self] at hc
  have hnot : a ∉ R := by
    rw [← Multiset.count_eq_zero]
    omega
  refine ⟨⟨?_, ?_⟩, hnot⟩
  · intro b k hb
    by_cases he : b = a
    · subst he; simp at hb
    · rw [Function.update_of_ne he] at hb
      have := h.count hb
      rwa [Multiset.count_cons_of_ne he] at this
  · intro b hb
    have he : b ≠ a := by
      rintro rfl
      exact hnot hb
    rw [Function.update_of_ne he]
    exact h.live (Multiset.mem_cons_of_mem hb)

end Lib.Ledger
