import Spider.Lib.CString
import Spider.Lib.Insertion
import Spider.LinkedList

/-!
# Sorted insertion

`SPD_LIST_INSERT_SORTALPHA` puts a node before the first whose string is not less
than its own, through three of the other macros.
-/

namespace Spider.LinkedList

open Lib Outcome CString

variable {κ ι : Type} [DecidableEq κ] [DecidableEq ι]

/-- The loop of `SPD_LIST_INSERT_SORTALPHA`: `prev` and `cur` behind it. -/
def sortFrom (m : Mem κ ι) (sortfield : ι → CString) (elm : ι) :
    Nat → Option ι → Option ι → Outcome (Option ι × Option ι)
  | 0, _, _ => .timeout
  | _ + 1, prev, none => .ok (prev, none)
  | fuel + 1, prev, some cur =>
    if strcmp (sortfield cur) (sortfield elm) < 0 then
      sortFrom m sortfield elm fuel (some cur) (m.next cur)
    else .ok (prev, some cur)

/-- `SPD_LIST_INSERT_SORTALPHA` (`linkedlist.h:733-751`). -/
def spdListInsertSortalpha (fuel : Nat) (m : Mem κ ι) (head : κ) (sortfield : ι → CString)
    (elm : ι) : Outcome (Mem κ ι) :=
  if (m.head head).first = none then
    .ok ((m.setFirst head (some elm)).setLast head (some elm))
  else do
    match ← sortFrom m sortfield elm fuel none (m.head head).first with
    | (none, _) => .ok (spdListInsertHead m head elm)
    | (some _, none) => spdListInsertTail m head elm
    | (some prev, some _) => .ok (spdListInsertAfter m head prev elm)

/-- The node `y` is not before a new node `x`. -/
def NotLess (sortfield : ι → CString) (x y : ι) : Prop :=
  ¬ strcmp (sortfield y) (sortfield x) < 0

instance (sortfield : ι → CString) : DecidableRel (NotLess sortfield) :=
  fun _ _ => inferInstanceAs (Decidable (¬ _))

/-- The nodes that the loop passes. -/
def isLess (sortfield : ι → CString) (x y : ι) : Bool :=
  strcmp (sortfield y) (sortfield x) < 0

section

variable {m : Mem κ ι} {ls : Lists κ ι} {h : κ} {x : ι} {xs : List ι}

omit [DecidableEq κ] [DecidableEq ι] in
/-- The loop splits the list in front of the first node that is not less. -/
theorem sortFrom_eq (sortfield : ι → CString) (x : ι) {fuel : Nat} {prev p : Option ι}
    (hseg : Seg m.next p xs none) (hfuel : xs.length < fuel) :
    sortFrom m sortfield x fuel prev p =
      .ok ((xs.takeWhile (isLess sortfield x)).getLast?.or prev,
        (xs.dropWhile (isLess sortfield x)).head?) := by
  induction xs generalizing prev p fuel with
  | nil =>
    obtain ⟨fuel, rfl⟩ : ∃ n, fuel = n + 1 := ⟨fuel - 1, by omega⟩
    obtain rfl : p = none := hseg
    rfl
  | cons y xs ih =>
    obtain ⟨fuel, rfl⟩ : ∃ n, fuel = n + 1 := ⟨fuel - 1, by omega⟩
    obtain ⟨rfl, hrest⟩ := hseg
    rw [sortFrom]
    by_cases hless : strcmp (sortfield y) (sortfield x) < 0
    · have hless' : isLess sortfield x y = true := decide_eq_true hless
      rw [if_pos hless, ih hrest (by simpa using hfuel), List.takeWhile_cons_of_pos hless',
        List.dropWhile_cons_of_pos hless', List.getLast?_cons, ← Option.or_some]
      cases (xs.takeWhile (isLess sortfield x)).getLast? <;> rfl
    · have hless' : ¬ isLess sortfield x y = true := by simpa [isLess] using hless
      rw [if_neg hless, List.takeWhile_cons_of_neg hless', List.dropWhile_cons_of_neg hless']
      rfl

omit [DecidableEq ι] in
theorem orderedInsert_eq (sortfield : ι → CString) (x : ι) (xs : List ι) :
    xs.orderedInsert (NotLess sortfield) x =
      xs.takeWhile (isLess sortfield x) ++ x :: xs.dropWhile (isLess sortfield x) := by
  have hsame : (fun y => decide ¬ NotLess sortfield x y) = isLess sortfield x := by
    funext y
    simp [NotLess, isLess]
  rw [List.orderedInsert_eq_take_drop, hsame]

/-- The node is inserted in order. -/
theorem Represents.insertSortalpha (hr : Represents m ls) (sortfield : ι → CString)
    (hx : Free ls x) (hnull : m.next x = none) {fuel : Nat} (hfuel : (ls h).length < fuel) :
    ∃ m', spdListInsertSortalpha fuel m h sortfield x = .ok m' ∧
      Represents m' (Function.update ls h ((ls h).orderedInsert (NotLess sortfield) x)) := by
  have hchain := hr.chain h
  unfold spdListInsertSortalpha
  rw [orderedInsert_eq]
  by_cases hempty : (m.head h).first = none
  · rw [if_pos hempty]
    obtain ⟨m', hm, htail⟩ := hr.insertTail (h := h) hx hnull
    rw [spdListInsertTail, if_pos hempty] at hm
    rw [hchain.first_eq_none.mp hempty] at htail ⊢
    exact ⟨m', hm, htail⟩
  · rw [if_neg hempty, sortFrom_eq sortfield x hchain.seg hfuel, ok_bind, Option.or_none]
    have hsplit := List.takeWhile_append_dropWhile (p := isLess sortfield x) (l := ls h)
    rcases List.eq_nil_or_concat' ((ls h).takeWhile (isLess sortfield x)) with
      hpre | ⟨pre, prev, hpre⟩
    · -- no node is less
      rw [hpre, List.nil_append] at hsplit
      rw [hpre, List.getLast?_nil, hsplit]
      exact ⟨_, rfl, hr.insertHead hx⟩
    · rw [hpre] at hsplit
      rw [hpre, List.getLast?_concat]
      cases hpost : (ls h).dropWhile (isLess sortfield x) with
      | nil =>
        -- every node is less
        rw [hpost, List.append_nil] at hsplit
        rw [hsplit]
        exact hr.insertTail hx hnull
      | cons cur post =>
        rw [hpost, List.append_assoc, List.singleton_append] at hsplit
        have hprev : prev ∈ ls h := by
          rw [← hsplit]
          simp
        have hnot : prev ∉ pre := by
          rw [← hsplit] at hchain
          exact hchain.notMem_split.1
        have hafter := hr.insertAfter hprev hx hnull
        rw [← hsplit, insertBehind_append hnot] at hafter
        refine ⟨_, rfl, ?_⟩
        rw [List.append_assoc]
        exact hafter

end

end Spider.LinkedList
