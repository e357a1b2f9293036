import Mathlib.Data.List.Nodup
import Mathlib.Data.List.Perm.Basic
import Mathlib.Tactic.Common

/-!
# Tables with longest-prefix lookup

A table is a list of keys with their values, each key at most once. `longest`
gives the value of the longest prefix of a word that is a key.
-/

namespace Lib.Longest

variable {α β : Type} [BEq α]

/-- The longest prefix that is a key, among those of at most `n` letters. -/
def upTo (table : List (List α × β)) (word : List α) : Nat → Option β
  | 0 => table.lookup []
  | n + 1 => (table.lookup (word.take (n + 1))).or (upTo table word n)

/-- The value of the longest prefix of the word that is a key. -/
def longest (table : List (List α × β)) (word : List α) : Option β :=
  upTo table word word.length

/-- Each key stands in the table once. -/
def Keys (table : List (List α × β)) : Prop := (table.map Prod.fst).Nodup

section

variable {table table' : List (List α × β)} {word key : List α} {b : β} {n k : Nat}

omit [BEq α] in
theorem Keys.of_sublist (h : Keys table) (hs : table'.Sublist table) : Keys table' :=
  h.sublist (hs.map Prod.fst)

theorem lookup_eq_none_iff [LawfulBEq α] : table.lookup key = none ↔ ∀ b, (key, b) ∉ table := by
  rw [List.lookup_eq_none_iff]
  constructor
  · intro h b hmem
    exact absurd (h (key, b) hmem) (by simp)
  · rintro h ⟨k, b⟩ hmem
    rw [bne_iff_ne]
    rintro rfl
    exact h b hmem

theorem lookup_eq_some_iff [LawfulBEq α] (h : Keys table) : table.lookup key = some b ↔ (key, b) ∈ table := by
  induction table with
  | nil => simp
  | cons e table ih =>
    have hnodup := List.nodup_cons.mp h
    rw [List.lookup_cons, List.mem_cons]
    by_cases heq : key = e.1
    · subst heq
      rw [beq_self_eq_true]
      dsimp only
      constructor
      · intro hb
        exact Or.inl (Prod.ext rfl (Option.some.inj hb).symm)
      · rintro (hb | hb)
        · exact congrArg some (congrArg Prod.snd hb).symm
        · exact absurd (List.mem_map_of_mem hb) hnodup.1
    · rw [beq_eq_false_iff_ne.mpr heq]
      dsimp only
      rw [ih hnodup.2]
      constructor
      · exact Or.inr
      · rintro (hb | hb)
        · exact absurd (congrArg Prod.fst hb) heq
        · exact hb

theorem upTo_eq_some (hn : k ≤ n) (hkey : table.lookup (word.take k) = some b)
    (hmost : ∀ j, k < j → j ≤ n → table.lookup (word.take j) = none) :
    upTo table word n = some b := by
  induction n with
  | zero =>
    obtain rfl := Nat.le_zero.mp hn
    rwa [List.take_zero] at hkey
  | succ n ih =>
    rw [upTo]
    rcases Nat.eq_or_lt_of_le hn with rfl | hlt
    · rw [hkey]
      rfl
    · rw [hmost (n + 1) hlt (Nat.le_refl _), Option.none_or]
      exact ih (Nat.le_of_lt_succ hlt) fun j hj hjn => hmost j hj (Nat.le_succ_of_le hjn)

theorem upTo_eq_none (h : ∀ j ≤ n, table.lookup (word.take j) = none) :
    upTo table word n = none := by
  induction n with
  | zero => exact h 0 (Nat.le_refl 0)
  | succ n ih =>
    rw [upTo, h (n + 1) (Nat.le_refl _), Option.none_or]
    exact ih fun j hj => h j (Nat.le_succ_of_le hj)

/-- A key that is a prefix of the word is the one that is found when no longer one is. -/
theorem longest_eq_some (hk : k ≤ word.length) (hkey : table.lookup (word.take k) = some b)
    (hmost : ∀ j, k < j → j ≤ word.length → table.lookup (word.take j) = none) :
    longest table word = some b :=
  upTo_eq_some hk hkey hmost

theorem longest_eq_none (h : ∀ j ≤ word.length, table.lookup (word.take j) = none) :
    longest table word = none :=
  upTo_eq_none h

end

end Lib.Longest
