import Spider.Lib.Chain
import Spider.Lib.Heap
import Spider.Lib.Outcome

/-!
# Linked lists in a heap

Cells of any type with one field that holds an address or null. `Linked` says
that the cells at `xs` are allocated and form a chain; the lemmas say what a
write or a release makes of it. `walk` is the loop that searches a chain for a
cell, `walk_eq` what it finds.
-/

namespace Lib

variable {β : Type} (next : β → Option Nat)

/-- The link field as a function of the address. -/
def linkOf (h : Heap β) (a : Nat) : Option Nat := (h.get a).bind next

/-- The chain from `first` to `last` visits the allocated cells `xs`. -/
structure Linked (h : Heap β) (first last : Option Nat) (xs : List Nat) : Prop where
  chain : Chain (linkOf next h) first last xs
  alloc : ∀ a ∈ xs, a ∈ h.dom

/-- The loop `for(prev = NULL, p = first; p; prev = p, p = p->next) if(test) break;`: `prev`
    and `p` afterwards. -/
def walk (h : Heap β) (test : Nat → β → Bool) :
    Nat → Option Nat → Option Nat → Outcome (Option Nat × Option Nat)
  | 0, _, _ => .timeout
  | _ + 1, prev, none => .ok (prev, none)
  | fuel + 1, prev, some a =>
    match h.get a with
    | none => .fault
    | some v => if test a v then .ok (prev, some a) else walk h test fuel (some a) (next v)

variable {next} {h h' : Heap β} {first last : Option Nat} {xs ys pre post : List Nat} {a b : Nat}
  {v : β}

theorem linkOf_of_get (hv : h.get a = some v) : linkOf next h a = next v := by
  rw [linkOf, hv, Option.bind_some]

theorem linkOf_set (h : Heap β) (a : Nat) (v : β) :
    linkOf next (h.set a v) = Function.update (linkOf next h) a (next v) := by
  funext b
  by_cases hb : b = a
  · subst hb
    simp [linkOf]
  · rw [Function.update_of_ne hb, linkOf, linkOf, Heap.get_set_of_ne _ _ hb]

namespace Linked

theorem nil (h : Heap β) : Linked next h none none [] := ⟨Chain.nil, by simp⟩

/-- Cells elsewhere do not matter. -/
theorem frame (hl : Linked next h first last xs) (hsame : ∀ a ∈ xs, h'.get a = h.get a) :
    Linked next h' first last xs := by
  constructor
  · apply hl.chain.congr
    intro a ha
    rw [linkOf, linkOf, hsame a ha]
  · intro a ha
    obtain ⟨v, hv⟩ := Heap.mem_dom.mp (hl.alloc a ha)
    exact Heap.mem_dom_of_get ((hsame a ha).trans hv)

theorem free (hl : Linked next h first last xs) (ha : a ∉ xs) :
    Linked next (h.free a) first last xs := by
  apply hl.frame
  rintro b hb
  apply Heap.get_free_of_ne
  rintro rfl
  exact ha hb

theorem alloc_cell (hl : Linked next h first last xs) (ha : a ∉ xs) (v : β) :
    Linked next (h.set a v) first last xs := by
  apply hl.frame
  rintro b hb
  apply Heap.get_set_of_ne
  rintro rfl
  exact ha hb

theorem get (hl : Linked next h first last xs) (ha : a ∈ xs) : ∃ v, h.get a = some v :=
  Heap.mem_dom.mp (hl.alloc a ha)

/-- A chain is no longer than the heap. -/
theorem length_le (hl : Linked next h first last xs) : xs.length ≤ h.dom.card := by
  rw [← List.toFinset_card_of_nodup hl.chain.nodup]
  apply Finset.card_le_card
  intro a ha
  exact hl.alloc a (List.mem_toFinset.mp ha)

/-- The successor of a cell. -/
theorem linkOf_eq (hl : Linked next h first last (pre ++ a :: post)) :
    linkOf next h a = post.head? := by
  obtain ⟨r, -, -, hrest⟩ := Seg.append_iff.mp hl.chain.seg
  exact hrest.eq_head?

theorem next_eq (hl : Linked next h first last (pre ++ a :: post)) (hv : h.get a = some v) :
    next v = post.head? := (linkOf_of_get hv).symm.trans hl.linkOf_eq

/-- A cell put behind the last one. -/
theorem append (hl : Linked next h first (some a) xs) (hb : b ∉ xs) (hbd : b ∈ h.dom)
    (hnull : linkOf next h b = none) (hv : next v = some b) :
    Linked next (h.set a v) first (some b) (xs ++ [b]) := by
  have hmem : a ∈ xs := by
    obtain ⟨ys, rfl⟩ := hl.chain.last_eq_some
    simp
  have hone : Chain (linkOf next h) (some b) (some b) [b] := ⟨⟨rfl, hnull⟩, rfl, by simp⟩
  constructor
  · rw [linkOf_set, hv]
    apply hl.chain.append hone (by simp)
    simpa using hb
  · intro c hc
    rw [Heap.dom_set_of_mem _ (hl.alloc a hmem)]
    rcases List.mem_append.mp hc with hin | hin
    · exact hl.alloc c hin
    · exact List.mem_singleton.mp hin ▸ hbd

/-- The only cell of a chain. -/
theorem single (hbd : b ∈ h.dom) (hnull : linkOf next h b = none) :
    Linked next h (some b) (some b) [b] := by
  constructor
  · exact ⟨⟨rfl, hnull⟩, rfl, by simp⟩
  · intro c hc
    exact List.mem_singleton.mp hc ▸ hbd

/-- The first cell is unlinked. -/
theorem tail (hl : Linked next h first last (a :: xs)) :
    Linked next h (linkOf next h a) (if last = some a then none else last) xs :=
  ⟨hl.chain.tail, fun b hb => hl.alloc b (List.mem_cons_of_mem a hb)⟩

/-- The cell behind `a` is unlinked. -/
theorem remove (hl : Linked next h first last (pre ++ a :: b :: post))
    (hv : next v = linkOf next h b) :
    Linked next (h.set a v) first (if last = some b then some a else last)
      (pre ++ a :: post) := by
  constructor
  · rw [linkOf_set, hv]
    exact hl.chain.remove
  · intro c hc
    rw [Heap.dom_set_of_mem _ (hl.alloc a (by simp))]
    apply hl.alloc
    simp only [List.mem_append, List.mem_cons] at hc ⊢
    tauto

/-- A cell that is written without touching its link. -/
theorem set_same (hl : Linked next h first last xs) (ha : a ∈ h.dom)
    (hv : next v = linkOf next h a) : Linked next (h.set a v) first last xs := by
  constructor
  · apply hl.chain.congr
    intro b _
    rw [linkOf_set, hv, Function.update_eq_self]
  · intro b hb
    rw [Heap.dom_set_of_mem _ ha]
    exact hl.alloc b hb

/-- A search splits the chain in front of the first cell that passes the test. -/
theorem walk_eq (hl : Linked next h first last (pre ++ post)) (test : Nat → β → Bool)
    (prev : Option Nat) {k : Nat} (hk : post.length < k) :
    ∃ as bs, post = as ++ bs ∧ (∀ a ∈ as, ∀ v, h.get a = some v → test a v = false) ∧
      (∀ b ∈ bs.head?, ∃ v, h.get b = some v ∧ test b v = true) ∧
      walk next h test k prev post.head? = .ok (as.getLast?.or prev, bs.head?) := by
  induction post generalizing pre prev k with
  | nil =>
    obtain ⟨k, rfl⟩ : ∃ j, k = j + 1 := ⟨k - 1, by omega⟩
    exact ⟨[], [], rfl, by simp, by simp, rfl⟩
  | cons a post ih =>
    obtain ⟨k, rfl⟩ : ∃ j, k = j + 1 := ⟨k - 1, by omega⟩
    obtain ⟨v, hv⟩ := hl.get (a := a) (by simp)
    rw [List.head?_cons, walk, hv]
    cases ht : test a v with
    | true =>
      refine ⟨[], a :: post, rfl, by simp, ?_, by simp [ht]⟩
      intro b hb
      obtain rfl := Option.some.inj hb
      exact ⟨v, hv, ht⟩
    | false =>
      have hl' : Linked next h first last (pre ++ [a] ++ post) := by simpa using hl
      obtain ⟨as, bs, rfl, hmiss, hhit, hwalk⟩ := ih hl' (some a) (by simpa using hk)
      refine ⟨a :: as, bs, rfl, ?_, hhit, ?_⟩
      · intro b hb w hw
        rcases List.mem_cons.mp hb with rfl | hin
        · obtain rfl := Option.some.inj (hv.symm.trans hw)
          exact ht
        · exact hmiss b hin w hw
      · simp only [ht, Bool.false_eq_true, if_false]
        rw [hl.next_eq hv, hwalk, List.getLast?_cons, ← Option.or_some]
        cases as.getLast? <;> rfl

/-- The search of a whole chain. -/
theorem walk_first (hl : Linked next h first last xs) (test : Nat → β → Bool) {k : Nat}
    (hk : xs.length < k) :
    ∃ as bs, xs = as ++ bs ∧ (∀ a ∈ as, ∀ v, h.get a = some v → test a v = false) ∧
      (∀ b ∈ bs.head?, ∃ v, h.get b = some v ∧ test b v = true) ∧
      walk next h test k none first = .ok (as.getLast?, bs.head?) := by
  have hnil : Linked next h first last ([] ++ xs) := hl
  obtain ⟨as, bs, hsplit, hmiss, hhit, hwalk⟩ := hnil.walk_eq test none hk
  rw [← hl.chain.first_eq, Option.or_none] at hwalk
  exact ⟨as, bs, hsplit, hmiss, hhit, hwalk⟩

/-- The cell where the chain is split is the first one that passes. -/
theorem find?_split {test : Nat → β → Bool}
    (hmiss : ∀ a ∈ xs, ∀ v, h.get a = some v → test a v = false)
    (hhit : ∀ b ∈ ys.head?, ∃ v, h.get b = some v ∧ test b v = true) :
    (xs ++ ys).find? (fun a => (h.get a).any (test a)) = ys.head? := by
  have hnone : xs.find? (fun a => (h.get a).any (test a)) = none := by
    rw [List.find?_eq_none]
    intro a ha
    cases hv : h.get a with
    | none => simp
    | some v => simp [hmiss a ha v hv]
  rw [List.find?_append, hnone, Option.none_or]
  cases ys with
  | nil => rfl
  | cons b ys =>
    obtain ⟨v, hv, ht⟩ := hhit b rfl
    rw [List.find?_cons_of_pos (by simp [hv, ht]), List.head?_cons]

end Linked

end Lib
