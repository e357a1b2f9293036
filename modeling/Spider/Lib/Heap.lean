import Mathlib.Data.Finmap
import Mathlib.Algebra.BigOperators.Group.Finset.Basic
import Mathlib.Algebra.BigOperators.Group.Finset.Piecewise
import Mathlib.Data.Finset.SDiff

/-!
# Finite heaps

A heap is a finite map from addresses to cells. `Heap.total` adds a quantity up
over all allocated cells outside a set of addresses; its laws say how one write,
one allocation and one release change the sum, which is what a conservation
argument over a heap needs.
-/

namespace Lib

/-- A heap of cells of type `β`, addressed by natural numbers. -/
abbrev Heap (β : Type) := Finmap (fun _ : Nat => β)

namespace Heap

variable {β M : Type}

/-- The cell at `a`, when `a` is allocated. -/
def get (h : Heap β) (a : Nat) : Option β := h.lookup a

/-- Store `b` at `a`. -/
def set (h : Heap β) (a : Nat) (b : β) : Heap β := h.insert a b

/-- Release `a`. -/
def free (h : Heap β) (a : Nat) : Heap β := h.erase a

/-- The allocated addresses. -/
def dom (h : Heap β) : Finset Nat := h.keys

theorem mem_dom {h : Heap β} {a : Nat} : a ∈ h.dom ↔ ∃ b, h.get a = some b := by
  rw [dom, Finmap.mem_keys, Finmap.mem_iff, get]

theorem mem_dom_of_get {h : Heap β} {a : Nat} {b : β} (hb : h.get a = some b) : a ∈ h.dom :=
  mem_dom.mpr ⟨b, hb⟩

theorem get_eq_none {h : Heap β} {a : Nat} : h.get a = none ↔ a ∉ h.dom := by
  rw [get, Finmap.lookup_eq_none, dom, Finmap.mem_keys]

@[simp] theorem get_empty (a : Nat) : get (∅ : Heap β) a = none := Finmap.lookup_empty a

@[simp] theorem dom_empty : dom (∅ : Heap β) = ∅ := Finmap.keys_empty

@[simp] theorem get_set_self (h : Heap β) (a : Nat) (b : β) : (h.set a b).get a = some b :=
  Finmap.lookup_insert h

theorem get_set_of_ne (h : Heap β) {a a' : Nat} (b : β) (hne : a' ≠ a) :
    (h.set a b).get a' = h.get a' := Finmap.lookup_insert_of_ne h hne

@[simp] theorem get_free_self (h : Heap β) (a : Nat) : (h.free a).get a = none :=
  Finmap.lookup_erase a h

theorem get_free_of_ne (h : Heap β) {a a' : Nat} (hne : a' ≠ a) :
    (h.free a).get a' = h.get a' := Finmap.lookup_erase_ne hne

@[simp] theorem dom_set (h : Heap β) (a : Nat) (b : β) : (h.set a b).dom = insert a h.dom := by
  ext x
  rw [dom, Finmap.mem_keys, set, Finmap.mem_insert, Finset.mem_insert, dom, Finmap.mem_keys]

theorem dom_set_of_mem {h : Heap β} {a : Nat} (b : β) (ha : a ∈ h.dom) :
    (h.set a b).dom = h.dom := by
  rw [dom_set, Finset.insert_eq_of_mem ha]

@[simp] theorem dom_free (h : Heap β) (a : Nat) : (h.free a).dom = h.dom.erase a :=
  Finmap.keys_erase a h

@[simp] theorem free_set (h : Heap β) (a : Nat) (b : β) : (h.set a b).free a = h.free a := by
  apply Finmap.ext_lookup
  intro x
  by_cases hx : x = a
  · subst hx
    rw [free, free, Finmap.lookup_erase, Finmap.lookup_erase]
  · rw [free, free, Finmap.lookup_erase_ne hx, Finmap.lookup_erase_ne hx, set,
      Finmap.lookup_insert_of_ne _ hx]

variable [AddCommMonoid M]

/-- The sum of `f` over the allocated cells outside `Z`. -/
def total (h : Heap β) (Z : Finset Nat) (f : β → M) : M :=
  ∑ a ∈ h.dom \ Z, ((h.get a).map f).getD 0

theorem total_congr {h h' : Heap β} {Z Z' : Finset Nat} {f : β → M}
    (hd : h.dom \ Z = h'.dom \ Z')
    (hf : ∀ a ∈ h.dom \ Z, (h.get a).map f = (h'.get a).map f) : h.total Z f = h'.total Z' f := by
  unfold total
  rw [← hd]
  exact Finset.sum_congr rfl fun a ha => by rw [hf a ha]

/-- Overwriting an excluded cell changes nothing. -/
theorem total_set_of_mem {h : Heap β} {Z : Finset Nat} {f : β → M} {a : Nat} (b : β)
    (ha : a ∈ Z) : (h.set a b).total Z f = h.total Z f := by
  apply total_congr
  · rw [dom_set, Finset.insert_sdiff_of_mem _ ha]
  · intro x hx
    have hne : x ≠ a := by
      rintro rfl
      exact (Finset.mem_sdiff.mp hx).2 ha
    rw [get_set_of_ne h b hne]

/-- Overwriting a cell by one of the same weight changes nothing. -/
theorem total_set_of_eq {h : Heap β} {Z : Finset Nat} {f : β → M} {a : Nat} {b b' : β}
    (hb : h.get a = some b) (hf : f b' = f b) : (h.set a b').total Z f = h.total Z f := by
  apply total_congr
  · rw [dom_set_of_mem b' (mem_dom_of_get hb)]
  · intro x _
    by_cases he : x = a
    · subst he; simp [hb, hf]
    · rw [get_set_of_ne h b' he]

/-- A cell outside `Z` contributes its own weight and the rest. -/
theorem total_insert {h : Heap β} {Z : Finset Nat} {f : β → M} {a : Nat} {b : β}
    (hb : h.get a = some b) (ha : a ∉ Z) : h.total Z f = f b + h.total (insert a Z) f := by
  have hmem : a ∈ h.dom \ Z := Finset.mem_sdiff.mpr ⟨mem_dom_of_get hb, ha⟩
  unfold total
  rw [← Finset.add_sum_erase _ _ hmem, hb, Finset.sdiff_insert]
  simp

/-- Overwriting a cell exchanges its weight. -/
theorem total_set {h : Heap β} {Z : Finset Nat} {f : β → M} {a : Nat} (b' : β) (ha : a ∉ Z) :
    (h.set a b').total Z f = f b' + h.total (insert a Z) f := by
  rw [total_insert (get_set_self h a b') ha, total_set_of_mem b' (Finset.mem_insert_self a Z)]

/-- A new cell adds its weight. -/
theorem total_alloc {h : Heap β} {Z : Finset Nat} {f : β → M} {a : Nat} (b : β)
    (hd : a ∉ h.dom) (ha : a ∉ Z) : (h.set a b).total Z f = f b + h.total Z f := by
  rw [total_insert (get_set_self h a b) ha, total_set_of_mem b (Finset.mem_insert_self a Z)]
  congr 1
  apply total_congr
  · rw [Finset.sdiff_insert, Finset.erase_eq_of_notMem]
    simp [hd]
  · intro x _; rfl

/-- Releasing an excluded cell, which then need not be excluded any more. -/
theorem total_free {h : Heap β} {Z : Finset Nat} {f : β → M} {a : Nat} :
    (h.free a).total (Z.erase a) f = h.total (insert a Z) f := by
  apply total_congr
  · ext x
    simp only [dom_free, Finset.mem_sdiff, Finset.mem_erase, Finset.mem_insert]
    tauto
  · intro x hx
    have hne : x ≠ a := by
      rintro rfl
      simp at hx
    rw [get_free_of_ne h hne]

end Heap

end Lib
