import Mathlib.Data.List.Basic
import Mathlib.Data.List.Perm.Basic
import Mathlib.Tactic.Common

/-!
# Tables of buckets

A table is a list of buckets, each a list. The lemmas say what a change of one
bucket does to the table read from end to end (`List.flatten`): up to order it
gains or loses the element that the bucket gained or lost.
-/

namespace Lib.Buckets

variable {β : Type} {bs : List (List β)} {i : Nat} {b pre post : List β} {x : β}

theorem split_at (hb : bs[i]? = some b) :
    ∃ l r, l.length = i ∧ bs = l ++ b :: r ∧
      ∀ f : List β → List β, bs.modify i f = l ++ f b :: r := by
  obtain ⟨hi, hb⟩ := List.getElem?_eq_some_iff.mp hb
  refine ⟨bs.take i, bs.drop (i + 1), List.length_take_of_le (Nat.le_of_lt hi), ?_, fun f => ?_⟩
  · rw [← hb, ← List.drop_eq_getElem_cons hi, List.take_append_drop]
  · rw [List.modify_eq_take_cons_drop hi, hb]

/-- An element added at the end of a bucket. -/
theorem perm_insert (hb : bs[i]? = some b) :
    (bs.modify i (· ++ [x])).flatten.Perm (x :: bs.flatten) := by
  obtain ⟨l, r, -, hbs, hmod⟩ := split_at hb
  rw [hmod, hbs]
  simp only [List.flatten_append, List.flatten_cons, List.append_assoc, List.singleton_append]
  exact (List.perm_middle.append_left _).trans List.perm_middle

/-- An element taken out of a bucket. -/
theorem perm_remove (hb : bs[i]? = some (pre ++ x :: post)) {f : List β → List β}
    (hf : f (pre ++ x :: post) = pre ++ post) :
    bs.flatten.Perm (x :: (bs.modify i f).flatten) := by
  obtain ⟨l, r, -, hbs, hmod⟩ := split_at hb
  rw [hmod, hf, hbs]
  simp only [List.flatten_append, List.flatten_cons, List.append_assoc, List.cons_append]
  exact (List.perm_middle.append_left _).trans List.perm_middle

/-- A bucket's elements are in the table. -/
theorem mem_flatten (hb : bs[i]? = some b) (hx : x ∈ b) : x ∈ bs.flatten :=
  List.mem_flatten.mpr ⟨b, List.mem_of_getElem? hb, hx⟩

/-- Taking out the only element with the key of `x`. -/
theorem eraseP_eq {κ : Type} [DecidableEq κ] {key : β → κ}
    (hd : ((pre ++ x :: post).map key).Nodup) :
    (pre ++ x :: post).eraseP (fun y => key y = key x) = pre ++ post := by
  have hpre : ∀ y ∈ pre, ¬ key y = key x := by
    intro y hy he
    rw [List.map_append, List.map_cons, List.nodup_append] at hd
    exact hd.2.2 (key y) (List.mem_map_of_mem hy) (key x) (by simp) he
  rw [List.eraseP_append_right _ (by simpa using hpre), List.eraseP_cons_of_pos (by simp)]

/-- A filter that every element of the table passes. -/
theorem map_filter_eq {keep : β → Bool} (h : ∀ y ∈ bs.flatten, keep y = true) :
    bs.map (·.filter keep) = bs := by
  conv_rhs => rw [← List.map_id bs]
  refine List.map_congr_left fun b hb => ?_
  exact List.filter_eq_self.mpr fun y hy => h y (List.mem_flatten.mpr ⟨b, hb, hy⟩)

/-- Taking the only element of the table with its key out of its bucket. -/
theorem modify_eraseP {κ : Type} [DecidableEq κ] {key : β → κ} (hd : (bs.flatten.map key).Nodup)
    (hb : bs[i]? = some (pre ++ x :: post)) :
    bs.modify i (·.eraseP fun y => key y = key x) = bs.map (·.filter fun y => key y ≠ key x) := by
  have herase : (pre ++ x :: post).eraseP (fun y => key y = key x) = pre ++ post :=
    eraseP_eq (hd.sublist ((List.sublist_flatten_of_mem (List.mem_of_getElem? hb)).map key))
  obtain ⟨l, r, -, rfl, hmod⟩ := split_at hb
  simp only [List.flatten_append, List.flatten_cons, List.map_append, List.map_cons,
    List.nodup_append, List.mem_append, List.mem_cons, List.mem_map] at hd
  obtain ⟨-, ⟨hbucket, -, hright⟩, hleft⟩ := hd
  have hl : ∀ y ∈ l.flatten, decide (key y ≠ key x) = true := fun y hy =>
    decide_eq_true (hleft _ ⟨y, hy, rfl⟩ _ (.inl (.inr (.inl rfl))))
  have hr : ∀ y ∈ r.flatten, decide (key y ≠ key x) = true := fun y hy =>
    decide_eq_true (hright _ (.inr (.inl rfl)) _ ⟨y, hy, rfl⟩).symm
  have hpre : ∀ y ∈ pre, decide (key y ≠ key x) = true := fun y hy =>
    decide_eq_true (hbucket.2.2 _ ⟨y, hy, rfl⟩ _ (.inl rfl))
  have hpost : ∀ y ∈ post, decide (key y ≠ key x) = true := fun y hy =>
    decide_eq_true fun he => (List.nodup_cons.mp hbucket.2.1).1 (he ▸ List.mem_map_of_mem hy)
  have hfilter : (pre ++ x :: post).filter (fun y => key y ≠ key x) = pre ++ post := by
    rw [List.filter_append, List.filter_cons_of_neg (by simp), List.filter_eq_self.mpr hpre,
      List.filter_eq_self.mpr hpost]
  rw [hmod, List.map_append, List.map_cons, map_filter_eq hl, map_filter_eq hr, herase, hfilter]

end Lib.Buckets
