import Mathlib.Data.List.Nodup
import Mathlib.Logic.Function.Basic

/-!
# Chains of nodes with a tail pointer

A node of type `ι` has a `next` field that holds a node or null. `Seg next p xs q`
says that following `next` from `p` visits `xs` and arrives at `q`. A chain is a
segment that ends in null, together with a pointer to its last node. The lemmas
say what one write of a `next` field makes of a chain.
-/

namespace Lib

variable {ι : Type} {next next' : ι → Option ι} {p q first last : Option ι} {x y : ι}
  {xs ys zs : List ι}

/-- Following `next` from `p` visits `xs` and arrives at `q`. -/
def Seg (next : ι → Option ι) : Option ι → List ι → Option ι → Prop
  | p, [], q => p = q
  | p, x :: xs, q => p = some x ∧ Seg next (next x) xs q

namespace Seg

@[simp] theorem nil_iff : Seg next p [] q ↔ p = q := Iff.rfl

@[simp] theorem cons_iff : Seg next p (x :: xs) q ↔ p = some x ∧ Seg next (next x) xs q := Iff.rfl

theorem append_iff : Seg next p (xs ++ ys) q ↔ ∃ r, Seg next p xs r ∧ Seg next r ys q := by
  induction xs generalizing p with
  | nil => simp
  | cons x xs ih => simp [ih, and_assoc]

/-- Only the fields of the nodes visited matter. -/
theorem congr (h : Seg next p xs q) (hsame : ∀ x ∈ xs, next' x = next x) : Seg next' p xs q := by
  induction xs generalizing p with
  | nil => exact h
  | cons x xs ih =>
    obtain ⟨hp, hrest⟩ := h
    refine ⟨hp, ?_⟩
    rw [hsame x (by simp)]
    exact ih hrest fun y hy => hsame y (List.mem_cons_of_mem x hy)

theorem eq_head? (h : Seg next p xs none) : p = xs.head? := by
  cases xs with
  | nil => exact h
  | cons x xs => exact h.1

/-- The nodes visited follow each other, and null follows the last. -/
theorem getElem?_bind (h : Seg next p xs none) (n : Nat) : xs[n]?.bind next = xs[n + 1]? := by
  induction xs generalizing p n with
  | nil => rfl
  | cons x xs ih =>
    cases n with
    | zero => exact h.2.eq_head?.trans List.head?_eq_getElem?
    | succ n => exact ih h.2 n

variable [DecidableEq ι]

instance decidable : ∀ (p : Option ι) (xs : List ι) (q : Option ι), Decidable (Seg next p xs q)
  | p, [], q => inferInstanceAs (Decidable (p = q))
  | p, x :: xs, q =>
    have := decidable (next x) xs q
    inferInstanceAs (Decidable (p = some x ∧ Seg next (next x) xs q))

/-- A write to a node that is not visited. -/
theorem update (h : Seg next p xs q) (hx : x ∉ xs) (v : Option ι) :
    Seg (Function.update next x v) p xs q := by
  apply h.congr
  intro y hy
  apply Function.update_of_ne
  rintro rfl
  exact hx hy

/-- The last node of a segment is made to point to `r`. -/
theorem redirect (h : Seg next p (xs ++ [x]) q) (hx : x ∉ xs) (r : Option ι) :
    Seg (Function.update next x r) p (xs ++ [x]) r := by
  obtain ⟨m, hxs, hm, -⟩ := append_iff.mp h
  exact append_iff.mpr ⟨m, hxs.update hx r, hm, by rw [Function.update_self]; rfl⟩

end Seg

/-- A chain of distinct nodes `xs` from `first` to null, whose last node is `last`. -/
structure Chain (next : ι → Option ι) (first last : Option ι) (xs : List ι) : Prop where
  seg : Seg next first xs none
  last : last = xs.getLast?
  nodup : xs.Nodup

namespace Chain

theorem nil : Chain next none none ([] : List ι) := ⟨rfl, rfl, List.nodup_nil⟩

theorem first_eq (h : Chain next first last xs) : first = xs.head? := h.seg.eq_head?

theorem first_eq_none (h : Chain next first last xs) : first = none ↔ xs = [] := by
  rw [h.first_eq, List.head?_eq_none_iff]

theorem last_eq_none (h : Chain next first last xs) : last = none ↔ xs = [] := by
  rw [h.last, List.getLast?_eq_none_iff]

theorem last_eq_some (h : Chain next first (some x) xs) : ∃ ys, xs = ys ++ [x] := by
  have hlast := h.last.symm
  exact ⟨xs.dropLast, (List.dropLast_append_getLast? x hlast).symm⟩

theorem congr (h : Chain next first last xs) (hsame : ∀ x ∈ xs, next' x = next x) :
    Chain next' first last xs := ⟨h.seg.congr hsame, h.last, h.nodup⟩

theorem notMem_split (h : Chain next first last (xs ++ x :: zs)) : x ∉ xs ∧ x ∉ zs := by
  have hnodup := h.nodup
  rw [List.nodup_append, List.nodup_cons] at hnodup
  exact ⟨fun hx => hnodup.2.2 x hx x (by simp) rfl, hnodup.2.1.1⟩

variable [DecidableEq ι]

instance decidable : Decidable (Chain next first last xs) :=
  decidable_of_iff (Seg next first xs none ∧ last = xs.getLast? ∧ xs.Nodup)
    ⟨fun h => ⟨h.1, h.2.1, h.2.2⟩, fun h => ⟨h.seg, h.last, h.nodup⟩⟩

/-- The tail of a chain. -/
theorem tail (h : Chain next first last (x :: xs)) :
    Chain next (next x) (if last = some x then none else last) xs := by
  refine ⟨h.seg.2, ?_, (List.nodup_cons.mp h.nodup).2⟩
  rw [h.last]
  cases xs with
  | nil => simp
  | cons y ys =>
    rw [List.getLast?_cons_cons]
    split
    · next heq =>
      exact absurd (List.mem_of_getLast? heq) (List.nodup_cons.mp h.nodup).1
    · rfl

theorem update (h : Chain next first last xs) (hx : x ∉ xs) (v : Option ι) :
    Chain (Function.update next x v) first last xs := ⟨h.seg.update hx v, h.last, h.nodup⟩

/-- A node in front. -/
theorem cons (h : Chain next first last xs) (hx : x ∉ xs) :
    Chain (Function.update next x first) (some x) (if last = none then some x else last)
      (x :: xs) := by
  refine ⟨⟨rfl, ?_⟩, ?_, List.nodup_cons.mpr ⟨hx, h.nodup⟩⟩
  · rw [Function.update_self]
    exact h.seg.update hx first
  · rw [h.last]
    cases xs with
    | nil => rfl
    | cons y ys => simp [List.getLast?_cons_cons]

/-- A chain behind another one. -/
theorem append {first' last' : Option ι} (h : Chain next first (some x) xs)
    (h' : Chain next first' last' ys) (hys : ys ≠ []) (hdisj : xs.Disjoint ys) :
    Chain (Function.update next x first') first last' (xs ++ ys) := by
  obtain ⟨zs, rfl⟩ := h.last_eq_some
  have hx : x ∉ zs := by
    have hnodup := h.nodup
    rw [List.nodup_append] at hnodup
    intro hmem
    exact hnodup.2.2 x hmem x (by simp) rfl
  have hxy : x ∉ ys := fun hmem => hdisj (by simp) hmem
  refine ⟨Seg.append_iff.mpr ⟨first', h.seg.redirect hx first', h'.seg.update hxy first'⟩, ?_,
    List.nodup_append'.mpr ⟨h.nodup, h'.nodup, hdisj⟩⟩
  rw [List.getLast?_append_of_ne_nil _ hys, h'.last]

/-- A chain in the middle of another one, behind its node `x`. -/
theorem insert {first' : Option ι} (h : Chain next first last (xs ++ x :: zs))
    (h' : Chain next first' (some y) ys) (hdisj : (xs ++ x :: zs).Disjoint ys) :
    Chain (Function.update (Function.update next y (next x)) x first') first
      (if last = some x then some y else last) (xs ++ x :: (ys ++ zs)) := by
  obtain ⟨ws, rfl⟩ := h'.last_eq_some
  obtain ⟨hxs, hxz⟩ := h.notMem_split
  have hy : y ∉ xs ++ x :: zs := fun hmem => hdisj hmem (by simp)
  have hyw := h'.notMem_split.1
  have hxy : x ∉ ws ++ [y] := fun hmem => hdisj (by simp) hmem
  obtain ⟨r, hseg, rfl, hrest⟩ := Seg.append_iff.mp h.seg
  refine ⟨Seg.append_iff.mpr ⟨some x, ?_, rfl, Seg.append_iff.mpr ⟨next x, ?_, ?_⟩⟩, ?_, ?_⟩
  · exact (hseg.update (fun hmem => hy (by simp [hmem])) _).update hxs _
  · rw [Function.update_self]
    exact (h'.seg.redirect hyw _).update hxy _
  · exact (hrest.update (fun hmem => hy (by simp [hmem])) _).update hxz _
  · rw [h.last]
    cases zs with
    | nil =>
      rw [List.append_nil, ← List.cons_append, ← List.append_assoc]
      simp only [List.getLast?_concat, if_true]
    | cons z zs =>
      have hne : ¬ (xs ++ x :: z :: zs).getLast? = some x := by
        intro heq
        rw [List.getLast?_append_of_ne_nil _ (by simp), List.getLast?_cons_cons] at heq
        exact hxz (List.mem_of_getLast? heq)
      rw [if_neg hne, List.getLast?_append_of_ne_nil _ (by simp), List.getLast?_cons_cons,
        List.getLast?_append_of_ne_nil _ (by simp), ← List.cons_append,
        List.getLast?_append_of_ne_nil _ (by simp)]
  · have hperm : (xs ++ x :: (ws ++ [y] ++ zs)).Perm ((xs ++ x :: zs) ++ (ws ++ [y])) := by
      rw [List.append_assoc xs, List.cons_append]
      exact (List.Perm.cons x List.perm_append_comm).append_left xs
    exact hperm.nodup_iff.mpr (List.nodup_append'.mpr ⟨h.nodup, h'.nodup, hdisj⟩)

/-- The node behind `x` is taken out. -/
theorem remove (h : Chain next first last (xs ++ x :: y :: zs)) :
    Chain (Function.update next x (next y)) first (if last = some y then some x else last)
      (xs ++ x :: zs) := by
  obtain ⟨hxs, hx⟩ := h.notMem_split
  have hxz : x ∉ zs := fun hmem => hx (List.mem_cons_of_mem y hmem)
  have hyz : y ∉ zs := by
    have hsplit : xs ++ x :: y :: zs = (xs ++ [x]) ++ y :: zs := by simp
    exact (hsplit ▸ h).notMem_split.2
  obtain ⟨r, hseg, rfl, -, hrest⟩ := Seg.append_iff.mp h.seg
  refine ⟨Seg.append_iff.mpr ⟨some x, hseg.update hxs _, rfl, ?_⟩, ?_, ?_⟩
  · rw [Function.update_self]
    exact hrest.update hxz _
  · rw [h.last]
    cases zs with
    | nil => simp
    | cons z zs =>
      have hne : ¬ (xs ++ x :: y :: z :: zs).getLast? = some y := by
        intro heq
        rw [List.getLast?_append_of_ne_nil _ (by simp), List.getLast?_cons_cons,
          List.getLast?_cons_cons] at heq
        exact hyz (List.mem_of_getLast? heq)
      rw [if_neg hne, List.getLast?_append_of_ne_nil _ (by simp), List.getLast?_cons_cons,
        List.getLast?_cons_cons, List.getLast?_append_of_ne_nil _ (by simp),
        List.getLast?_cons_cons]
  · have hsub : (xs ++ x :: zs).Sublist (xs ++ x :: y :: zs) :=
      ((List.sublist_cons_self y zs).cons_cons x).append_left xs
    exact h.nodup.sublist hsub

omit [DecidableEq ι] in
/-- The first node is taken out, and the last pointer is written when no other is left. -/
theorem unlink_first (h : Chain next first last (x :: zs)) :
    Chain next zs.head? (if zs.head? = none then none else last) zs := by
  refine ⟨h.seg.2.eq_head? ▸ h.seg.2, ?_, (List.nodup_cons.mp h.nodup).2⟩
  rw [h.last]
  cases zs with
  | nil => rfl
  | cons z zs => rw [List.getLast?_cons_cons, if_neg (by simp)]

/-- The node behind `x` is taken out, and the last pointer is written when none follows. -/
theorem unlink (h : Chain next first last (xs ++ x :: y :: zs)) :
    Chain (Function.update next x zs.head?) first (if zs.head? = none then some x else last)
      (xs ++ x :: zs) := by
  have hnext : next y = zs.head? := by
    obtain ⟨_, -, -, -, hrest⟩ := Seg.append_iff.mp h.seg
    exact hrest.eq_head?
  have hremoved := hnext ▸ h.remove
  refine ⟨hremoved.seg, ?_, hremoved.nodup⟩
  rw [h.last]
  cases zs with
  | nil => simp
  | cons z zs =>
    rw [if_neg (by simp), List.getLast?_append_of_ne_nil _ (by simp), List.getLast?_cons_cons,
      List.getLast?_cons_cons, List.getLast?_append_of_ne_nil _ (by simp), List.getLast?_cons_cons]

/-- The first node is replaced by one with the same successor. -/
theorem replace_head (h : Chain next first last (x :: zs)) (hy : y ∉ x :: zs)
    (hnext : next y = next x) :
    Chain next (some y) (if last = some x then some y else last) (y :: zs) := by
  rw [List.mem_cons, not_or] at hy
  have hx := (List.nodup_cons.mp h.nodup).1
  refine ⟨⟨rfl, hnext ▸ h.seg.2⟩, ?_,
    List.nodup_cons.mpr ⟨hy.2, (List.nodup_cons.mp h.nodup).2⟩⟩
  rw [h.last]
  cases zs with
  | nil => simp
  | cons z zs =>
    rw [List.getLast?_cons_cons, List.getLast?_cons_cons]
    exact if_neg fun heq => hx (List.mem_of_getLast? heq)

/-- The node behind `x` is replaced by one with the same successor. -/
theorem replace {w : ι} (h : Chain next first last (xs ++ x :: y :: zs))
    (hw : w ∉ xs ++ x :: y :: zs) (hnext : next w = next y) :
    Chain (Function.update next x (some w)) first (if last = some y then some w else last)
      (xs ++ x :: w :: zs) := by
  obtain ⟨hxs, hx⟩ := h.notMem_split
  have hxz : x ∉ zs := fun hmem => hx (List.mem_cons_of_mem y hmem)
  have hsplit : xs ++ x :: y :: zs = (xs ++ [x]) ++ y :: zs := by simp
  have hyz : y ∉ zs := (hsplit ▸ h).notMem_split.2
  have hwx : w ≠ x := by
    rintro rfl
    simp at hw
  obtain ⟨r, hseg, rfl, -, hrest⟩ := Seg.append_iff.mp h.seg
  refine ⟨Seg.append_iff.mpr ⟨some x, hseg.update hxs _, rfl, ?_, ?_⟩, ?_, ?_⟩
  · exact Function.update_self x _ next
  · rw [Function.update_of_ne hwx, hnext]
    exact hrest.update hxz _
  · rw [h.last, hsplit, List.getLast?_append_of_ne_nil _ (by simp),
      List.getLast?_append_of_ne_nil _ (by simp), List.getLast?_cons_cons]
    cases zs with
    | nil => simp
    | cons z zs =>
      rw [List.getLast?_cons_cons, List.getLast?_cons_cons]
      exact if_neg fun heq => hyz (List.mem_of_getLast? heq)
  · have hnodup := h.nodup
    simp only [List.nodup_append, List.nodup_cons, List.mem_append, List.mem_cons] at hnodup hw ⊢
    grind

end Chain

end Lib
