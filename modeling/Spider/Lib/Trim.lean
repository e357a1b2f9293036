import Mathlib.Data.List.DropRight

/-!
# Trimming

`trim p l` takes the elements with `p` off both ends of `l`. It is characterised
by what it leaves: whatever is put around a trimmed list comes off again.
-/

namespace Lib

variable {β : Type} {p : β → Bool} {l s u v : List β}

/-- `l` without the elements with `p` at its ends. -/
def trim (p : β → Bool) (l : List β) : List β := (l.dropWhile p).rdropWhile p

/-- No element with `p` is at an end. -/
structure Trimmed (p : β → Bool) (l : List β) : Prop where
  head : ∀ a ∈ l.head?, p a = false
  last : ∀ a ∈ l.getLast?, p a = false

theorem dropWhile_append_of_all (hu : ∀ a ∈ u, p a = true) (s : List β) :
    (u ++ s).dropWhile p = s.dropWhile p := by
  induction u with
  | nil => rfl
  | cons a u ih =>
    rw [List.cons_append, List.dropWhile_cons_of_pos (hu a List.mem_cons_self)]
    exact ih fun b hb => hu b (List.mem_cons_of_mem a hb)

theorem dropWhile_eq_self (h : ∀ a ∈ s.head?, p a = false) : s.dropWhile p = s := by
  cases s with
  | nil => rfl
  | cons a s =>
    apply List.dropWhile_cons_of_neg
    rw [h a rfl]
    exact Bool.false_ne_true

theorem rdropWhile_append_of_all (hv : ∀ a ∈ v, p a = true) (s : List β) :
    (s ++ v).rdropWhile p = s.rdropWhile p := by
  unfold List.rdropWhile
  rw [List.reverse_append, dropWhile_append_of_all fun a ha => hv a (List.mem_reverse.mp ha)]

theorem rdropWhile_eq_self (h : ∀ a ∈ s.getLast?, p a = false) : s.rdropWhile p = s := by
  unfold List.rdropWhile
  rw [dropWhile_eq_self, List.reverse_reverse]
  rw [List.head?_reverse]
  exact h

theorem head_dropWhile (p : β → Bool) (l : List β) : ∀ a ∈ (l.dropWhile p).head?, p a = false := by
  intro a ha
  have hnot := List.head?_dropWhile_not p l
  rw [ha] at hnot
  exact hnot

/-- What is taken off are elements with `p`, and what is left is trimmed. -/
theorem exists_trim (p : β → Bool) (l : List β) : ∃ u v, l = u ++ trim p l ++ v ∧
    (∀ a ∈ u, p a = true) ∧ (∀ a ∈ v, p a = true) ∧ Trimmed p (trim p l) := by
  generalize hm : l.dropWhile p = m
  have hl : l = l.takeWhile p ++ m := hm ▸ (List.takeWhile_append_dropWhile).symm
  have hm' : m = m.rdropWhile p ++ (m.reverse.takeWhile p).reverse := by
    rw [List.rdropWhile, ← List.reverse_append, List.takeWhile_append_dropWhile,
      List.reverse_reverse]
  have htrim : trim p l = m.rdropWhile p := by rw [trim, hm]
  rw [htrim]
  refine ⟨l.takeWhile p, (m.reverse.takeWhile p).reverse, ?_, ?_, ?_, ?_, ?_⟩
  · rw [List.append_assoc, ← hm']
    exact hl
  · exact fun a ha => List.mem_takeWhile_imp ha
  · exact fun a ha => List.mem_takeWhile_imp (List.mem_reverse.mp ha)
  · intro a ha
    have hhead := head_dropWhile p l
    rw [hm, hm', List.head?_append, Option.mem_def.mp ha] at hhead
    exact hhead a rfl
  · intro a ha
    rw [List.rdropWhile, List.getLast?_reverse] at ha
    exact head_dropWhile p m.reverse a ha

theorem trim_of_all (h : ∀ a ∈ l, p a = true) : trim p l = [] := by
  have hdrop : l.dropWhile p = [] := List.dropWhile_eq_nil_iff.mpr h
  rw [trim, hdrop]
  rfl

/-- What is put around a trimmed list comes off again. -/
theorem trim_append (hs : Trimmed p s) (hu : ∀ a ∈ u, p a = true) (hv : ∀ a ∈ v, p a = true) :
    trim p (u ++ s ++ v) = s := by
  cases s with
  | nil =>
    apply trim_of_all
    intro a ha
    rw [List.append_nil] at ha
    exact (List.mem_append.mp ha).elim (hu a) (hv a)
  | cons a s =>
    have hhead : ∀ b ∈ (a :: s ++ v).head?, p b = false := by
      intro b hb
      exact hs.head b hb
    rw [trim, List.append_assoc, dropWhile_append_of_all hu, dropWhile_eq_self hhead,
      rdropWhile_append_of_all hv, rdropWhile_eq_self hs.last]

theorem Trimmed.trim_eq (hs : Trimmed p s) : trim p s = s := by
  rw [trim, dropWhile_eq_self hs.head, rdropWhile_eq_self hs.last]

/-- Elements with `p` at the end make no difference. -/
theorem trim_append_right (hv : ∀ a ∈ v, p a = true) (l : List β) : trim p (l ++ v) = trim p l := by
  rcases exists_trim p l with ⟨u, w, hl, hu, hw, hs⟩
  have hwv : ∀ a ∈ w ++ v, p a = true := by
    intro a ha
    exact (List.mem_append.mp ha).elim (hw a) (hv a)
  have happend := trim_append hs hu hwv
  rw [← List.append_assoc, ← hl] at happend
  exact happend

theorem trim_trimmed (p : β → Bool) (l : List β) : Trimmed p (trim p l) := by
  rcases exists_trim p l with ⟨u, v, -, -, -, hs⟩
  exact hs

theorem mem_of_mem_trim {a : β} (h : a ∈ trim p l) : a ∈ l :=
  (List.dropWhile_sublist p).subset ((List.rdropWhile_prefix p _).subset h)

end Lib
