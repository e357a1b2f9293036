/-!
# Items written one behind the other

A decoder that takes one item off the front of a text, and an encoder that writes
one. When each undoes the other, a text is a list of items in one way at most, and
to take them off until nothing is left gives what was written.
-/

namespace Lib.Items

variable {α β : Type}

/-- Take items off until nothing is left; `n` bounds their number. -/
def many (one : List β → Option (α × List β)) : Nat → List β → Option (List α)
  | _, [] => some []
  | 0, _ :: _ => none
  | n + 1, b :: bs =>
    match one (b :: bs) with
    | some (a, rest) => (many one n rest).map (a :: ·)
    | none => none

/-- What is written is taken off again, and only what could have been written is. -/
structure Codec (one : List β → Option (α × List β)) (enc : α → List β) (Valid : α → Prop) :
    Prop where
  one_enc : ∀ a rest, Valid a → one (enc a ++ rest) = some (a, rest)
  enc_of_one : ∀ bs a rest, one bs = some (a, rest) → Valid a ∧ bs = enc a ++ rest
  enc_ne_nil : ∀ a, enc a ≠ []

variable {one : List β → Option (α × List β)} {enc : α → List β} {Valid : α → Prop}

@[simp] theorem many_nil (n : Nat) : many one n [] = some [] := by
  cases n <;> rfl

theorem Codec.many_append (h : Codec one enc Valid) {n : Nat} {a : α} (ha : Valid a)
    (rest : List β) : many one (n + 1) (enc a ++ rest) = (many one n rest).map (a :: ·) := by
  cases henc : enc a with
  | nil => exact absurd henc (h.enc_ne_nil a)
  | cons b bs =>
    have hone := h.one_enc a rest ha
    rw [henc] at hone
    rw [List.cons_append, many, ← List.cons_append, hone]

/-- Lists of items and the texts they are written as correspond to each other. -/
theorem Codec.many_eq_some_iff (h : Codec one enc Valid) {n : Nat} {bs : List β} {as : List α} :
    many one n bs = some as ↔
      (∀ a ∈ as, Valid a) ∧ as.length ≤ n ∧ bs = as.flatMap enc := by
  constructor
  · intro hmany
    induction n generalizing bs as with
    | zero =>
      cases bs with
      | nil =>
        rw [many_nil] at hmany
        obtain rfl := Option.some.inj hmany
        exact ⟨fun a ha => absurd ha List.not_mem_nil, Nat.le_refl 0, rfl⟩
      | cons b bs => cases hmany
    | succ n ih =>
      cases bs with
      | nil =>
        rw [many_nil] at hmany
        obtain rfl := Option.some.inj hmany
        exact ⟨fun a ha => absurd ha List.not_mem_nil, Nat.zero_le _, rfl⟩
      | cons b bs =>
        rw [many] at hmany
        cases hone : one (b :: bs) with
        | none =>
          rw [hone] at hmany
          cases hmany
        | some p =>
          obtain ⟨a, rest⟩ := p
          rw [hone] at hmany
          obtain ⟨as', hrest, rfl⟩ := Option.map_eq_some_iff.mp hmany
          obtain ⟨ha, hbs⟩ := h.enc_of_one _ _ _ hone
          obtain ⟨hvalid, hlength, rfl⟩ := ih hrest
          refine ⟨List.forall_mem_cons.mpr ⟨ha, hvalid⟩, Nat.succ_le_succ hlength, ?_⟩
          rw [List.flatMap_cons, hbs]
  · rintro ⟨hvalid, hlength, rfl⟩
    induction as generalizing n with
    | nil => exact many_nil n
    | cons a as ih =>
      obtain ⟨ha, hrest⟩ := List.forall_mem_cons.mp hvalid
      cases n with
      | zero => exact absurd hlength (Nat.not_succ_le_zero _)
      | succ n =>
        rw [List.flatMap_cons, h.many_append ha, ih hrest (Nat.le_of_succ_le_succ hlength)]
        rfl

end Lib.Items
