import Spider.Lib.CInt
import Spider.Strings

/-!
# The array of completions

`spd_cli_completion_matches` collects what the generator returns in an array
that doubles when it is full, with entry 0 left free for the prefix that all
matches share. The matches are counted in an `int`, which is also the index.
-/

namespace Spider.Cli

open Lib Outcome CInt CString Strings

/-- An element of `match_list`: not written yet, null, or a string. -/
inductive Elem where
  | unset
  | null
  | str (s : CString)
  deriving DecidableEq, Repr

/-- `toupper` in the C locale. -/
def toupper (c : UInt8) : UInt8 := if 97 ≤ c ∧ c ≤ 122 then c - 32 else c

/-- `spd_realloc` of an array to `n` elements; null is the empty array. -/
def reallocElems (l : List Elem) (n : Nat) : List Elem :=
  l.take n ++ List.replicate (n - l.length) .unset

/-- `match_list[i] = e`. -/
def storeElem (l : List Elem) (i : Nat) (e : Elem) : Outcome (List Elem) :=
  if i < l.length then .ok (l.set i e) else .fault

/-- The loop that collects the matches (`cli.c:462-469`); `none` is its return without memory.
    `alloc` tells whether there is memory for so many elements. -/
def collectLoop (gen : Nat → Option CString) (alloc : Nat → Bool) :
    Nat → Nat → Nat → List Elem → Outcome (Option (Nat × Nat × List Elem))
  | 0, _, _, _ => .timeout
  | fuel + 1, matches_, len, list =>
    match gen matches_ with
    | none => .ok (some (matches_, len, list))
    | some retstr => do
      let matches_ ← intSucc matches_
      if matches_ ≥ len then
        if ¬ alloc (2 * len) then .ok none
        else
          let list ← storeElem (reallocElems list (2 * len)) matches_ (.str retstr)
          collectLoop gen alloc fuel matches_ (2 * len) list
      else
        let list ← storeElem list matches_ (.str retstr)
        collectLoop gen alloc fuel matches_ len list

/-- How far two strings are the same in any case, up to `n` bytes (`cli.c:480`). -/
def equalLoop : Nat → CString → CString → Nat
  | n + 1, c :: s, d :: t => if toupper c = toupper d then equalLoop n s t + 1 else 0
  | _, _, _ => 0

/-- The loop over the matches from number `which` on, `n` of them (`cli.c:479-483`). -/
def maxEqual (prevstr : CString) (list : List Elem) : Nat → Nat → Nat → Outcome Nat
  | 0, _, max => .ok max
  | n + 1, which, max =>
    match list[which]? with
    | some (.str s) => maxEqual prevstr list n (which + 1) (equalLoop max prevstr s)
    | _ => .fault

/-- The entry in front and the null behind (`cli.c:471-498`). -/
def finishList (alloc : Nat → Bool) (matches_ len : Nat) (list : List Elem) :
    Outcome (Option (List Elem)) :=
  if list.isEmpty then .ok none
  else match list[(1 : Nat)]? with
    | some (.str prevstr) => do
      let max ← maxEqual prevstr list (matches_ - 1) 2 prevstr.length
      if ¬ alloc (max + 1) then .ok none
      else
        let retstr ← spdCopyString prevstr (max + 1)
        let list ← storeElem list 0 (.str retstr)
        let last ← intSucc matches_
        if last ≥ len then
          if ¬ alloc (len + 1) then .ok none
          else
            let list ← storeElem (reallocElems list (len + 1)) last .null
            .ok (some list)
        else
          let list ← storeElem list last .null
          .ok (some list)
    | _ => .fault

/-- `spd_cli_completion_matches` (`cli.c:454-499`), for a generator that is called with the number
    of matches so far. -/
def spdCliCompletionMatches (fuel : Nat) (gen : Nat → Option CString) (alloc : Nat → Bool) :
    Outcome (Option (List Elem)) := do
  match ← collectLoop gen alloc fuel 0 1 [] with
  | none => .ok none
  | some (matches_, len, list) => finishList alloc matches_ len list

/-- All of the matches begin with the first `n` bytes of the first, in any case. -/
def Shared (first : CString) (ms : List CString) (n : Nat) : Prop :=
  n ≤ first.length ∧ ∀ s ∈ ms, lower (first.take n) <+: lower s

/-- So far the matches go together, and no further. -/
def Longest (first : CString) (ms : List CString) (n : Nat) : Prop :=
  Shared first ms n ∧ ∀ k, Shared first ms k → k ≤ n

/-! ## The prefix that is shared -/

theorem toupper_eq_iff (c d : UInt8) : toupper c = toupper d ↔ tolower c = tolower d := by
  have hup : ∀ n < 256, toupper (tolower (UInt8.ofNat n)) = toupper (UInt8.ofNat n) := by
    decide +kernel
  have hlow : ∀ n < 256, tolower (toupper (UInt8.ofNat n)) = tolower (UInt8.ofNat n) := by
    decide +kernel
  have hup' : ∀ c, toupper (tolower c) = toupper c := fun c => by
    simpa using hup c.toNat c.toNat_lt
  have hlow' : ∀ c, tolower (toupper c) = tolower c := fun c => by
    simpa using hlow c.toNat c.toNat_lt
  constructor
  · intro h
    rw [← hlow' c, h, hlow']
  · intro h
    rw [← hup' c, h, hup']

section

variable {first s : CString} {done rest : List CString} {n max len fuel : Nat} {top : Elem}
  {list : List Elem} {gen : Nat → Option CString} {alloc : Nat → Bool}

theorem le_equalLoop_iff : n ≤ equalLoop max first s ↔
    n ≤ max ∧ n ≤ first.length ∧ lower (first.take n) <+: lower s := by
  induction max generalizing n first s with
  | zero =>
    cases n with
    | zero => simp [lower]
    | succ n => simp [equalLoop]
  | succ max ih =>
    cases n with
    | zero => simp [lower]
    | succ n =>
      cases first with
      | nil => simp [equalLoop]
      | cons c first =>
        cases s with
        | nil => simp [equalLoop, lower]
        | cons d s =>
          have hcons : lower ((c :: first).take (n + 1)) <+: lower (d :: s) ↔
              tolower c = tolower d ∧ lower (first.take n) <+: lower s := by
            simp only [lower, List.take_succ_cons, List.map_cons, List.cons_prefix_cons]
          rw [hcons, equalLoop, List.length_cons]
          by_cases heq : toupper c = toupper d
          · have hlower := (toupper_eq_iff c d).mp heq
            rw [if_pos heq, Nat.succ_le_succ_iff, ih]
            simp only [hlower, true_and, Nat.succ_le_succ_iff]
          · have hlower := mt (toupper_eq_iff c d).mpr heq
            simp [heq, hlower]

/-- The loop comes to the longest prefix that the matches seen share. -/
theorem maxEqual_spec {before : List Elem} {behind : List Elem}
    (hlist : list = before ++ rest.map .str ++ behind) (hmax : max ≤ first.length) :
    ∃ r, maxEqual first list rest.length before.length max = .ok r ∧
      ∀ n, n ≤ r ↔ n ≤ max ∧ ∀ s ∈ rest, lower (first.take n) <+: lower s := by
  induction rest generalizing before max with
  | nil => exact ⟨max, rfl, by simp⟩
  | cons s rest ih =>
    have hget : list[before.length]? = some (.str s) := by
      rw [hlist]
      simp
    have hlist' : list = (before ++ [.str s]) ++ rest.map .str ++ behind := by
      rw [hlist]
      simp
    have hle := (le_equalLoop_iff.mp (Nat.le_refl (equalLoop max first s))).2.1
    obtain ⟨r, hr, hiff⟩ := ih hlist' hle
    rw [List.length_append, List.length_singleton] at hr
    refine ⟨r, ?_, fun n => ?_⟩
    · rw [List.length_cons, maxEqual, hget]
      exact hr
    · rw [hiff, le_equalLoop_iff, List.forall_mem_cons]
      constructor
      · rintro ⟨⟨hn, -, hs⟩, hrest⟩
        exact ⟨hn, hs, hrest⟩
      · rintro ⟨hn, hs, hrest⟩
        exact ⟨⟨hn, Nat.le_trans hn hmax, hs⟩, hrest⟩

/-! ## The array -/

/-- The array with entry 0, the matches, and what has not been written. -/
def layout (top : Elem) (done : List CString) (len : Nat) : List Elem :=
  top :: done.map .str ++ List.replicate (len - (done.length + 1)) .unset

/-- The array holds the matches so far; it is null before the first. -/
structure Holds (done : List CString) (len : Nat) (list : List Elem) : Prop where
  room : done.length + 1 ≤ len
  list : list = layout .unset done len ∨ done = [] ∧ list = [] ∧ len = 1

@[simp] theorem length_layout (h : done.length + 1 ≤ len) : (layout top done len).length = len := by
  simp only [layout, List.cons_append, List.length_cons, List.length_append, List.length_map,
    List.length_replicate]
  omega

/-- The entry behind the matches is written. -/
theorem store_layout (h : done.length + 1 < len) (e : Elem) :
    storeElem (layout top done len) (done.length + 1) e = .ok (top :: done.map .str ++
      e :: List.replicate (len - (done.length + 2)) .unset) := by
  rw [storeElem, if_pos (by rw [length_layout (Nat.le_of_lt h)]; exact h), layout]
  obtain ⟨k, hk⟩ : ∃ k, len - (done.length + 1) = k + 1 := ⟨len - (done.length + 2), by omega⟩
  have hk' : len - (done.length + 2) = k := by omega
  rw [hk, hk', List.replicate_succ, List.set_append_right _ _ (by simp)]
  simp

theorem store_layout_str (h : done.length + 1 < len) (s : CString) :
    storeElem (layout top done len) (done.length + 1) (.str s) =
      .ok (layout top (done ++ [s]) len) := by
  rw [store_layout h, layout]
  simp [Nat.add_assoc]

/-- A full array gets more elements. -/
theorem realloc_layout (h : done.length + 1 ≤ len) {n : Nat} (hn : len ≤ n) :
    reallocElems (layout top done len) n = layout top done n := by
  rw [reallocElems, length_layout h, List.take_of_length_le (by rw [length_layout h]; exact hn)]
  simp only [layout, List.append_assoc, List.replicate_append_replicate]
  congr 3
  omega

/-- The matches are collected, within the array allocated at each time. -/
theorem collectLoop_spec (halloc : ∀ n, alloc n = true) (h : Holds done len list)
    (hgen : ∀ i, done.length ≤ i → i ≤ (done ++ rest).length → gen i = (done ++ rest)[i]?)
    (hint : (done ++ rest).length < 2 ^ 31) (hfuel : rest.length < fuel) :
    ∃ len' list', collectLoop gen alloc fuel done.length len list =
      .ok (some ((done ++ rest).length, len', list')) ∧ Holds (done ++ rest) len' list' := by
  induction rest generalizing done len list fuel with
  | nil =>
    obtain ⟨fuel, rfl⟩ : ∃ n, fuel = n + 1 := ⟨fuel - 1, by simp at hfuel; omega⟩
    have hnull := hgen done.length (Nat.le_refl _) (by simp)
    rw [List.append_nil] at hnull ⊢
    rw [collectLoop, hnull, List.getElem?_eq_none (Nat.le_refl _)]
    exact ⟨len, list, rfl, h⟩
  | cons s rest ih =>
    obtain ⟨fuel, rfl⟩ : ∃ n, fuel = n + 1 := ⟨fuel - 1, by simp at hfuel; omega⟩
    have hsplit : done ++ s :: rest = done ++ [s] ++ rest := by simp
    have hnext := hgen done.length (Nat.le_refl _) (by simp)
    have hlen : (done ++ s :: rest).length = done.length + rest.length + 1 := by simp; omega
    have hroom := h.room
    have hsucc : intSucc done.length = .ok (done.length + 1) := intSucc_eq (by omega)
    have hgrown : ∀ {len' list'}, list' = layout .unset done len' → done.length + 1 < len' →
        ∃ len'' list'', (storeElem list' (done.length + 1) (.str s) >>= fun list =>
            collectLoop gen alloc fuel (done.length + 1) len' list) =
          .ok (some ((done ++ s :: rest).length, len'', list'')) ∧
          Holds (done ++ s :: rest) len'' list'' := by
      rintro len' list' rfl hlt
      have hnew : Holds (done ++ [s]) len' (layout .unset (done ++ [s]) len') :=
        ⟨by simp only [List.length_append, List.length_singleton]; omega, .inl rfl⟩
      rw [store_layout_str hlt, ok_bind, hsplit]
      have hdone : (done ++ [s]).length = done.length + 1 := by simp
      rw [hsplit] at hgen hint
      rw [← hdone]
      exact ih hnew (fun i hi => hgen i (by omega)) hint (by simpa using hfuel)
    rw [collectLoop, hnext, List.getElem?_append_right (Nat.le_refl _), Nat.sub_self,
      List.getElem?_cons_zero]
    dsimp only
    rw [hsucc, ok_bind]
    by_cases hfull : done.length + 1 ≥ len
    · rw [if_pos hfull, if_neg (by simp [halloc])]
      refine hgrown ?_ (by omega)
      rcases h.list with rfl | ⟨rfl, rfl, rfl⟩
      · exact realloc_layout hroom (by omega)
      · rfl
    · rw [if_neg hfull]
      refine hgrown ?_ (by omega)
      rcases h.list with hlist | ⟨-, -, rfl⟩
      · exact hlist
      · omega

/-- The array of the matches that were collected is finished, if they can be counted. -/
theorem finishList_spec (halloc : ∀ n, alloc n = true) (h : Holds (first :: rest) len list) :
    ∃ n, Longest first (first :: rest) n ∧ ∃ unwritten,
      finishList alloc (rest.length + 1) len list = intSucc (rest.length + 1) >>= fun _ =>
        .ok (some (.str (first.take n) :: (first :: rest).map .str ++
          .null :: List.replicate unwritten .unset)) := by
  have hroom := h.room
  rw [List.length_cons] at hroom
  obtain rfl : list = layout .unset (first :: rest) len := by
    rcases h.list with hlist | ⟨hnil, -, -⟩
    · exact hlist
    · exact absurd hnil (List.cons_ne_nil _ _)
  have hsplit : layout .unset (first :: rest) len = [.unset, .str first] ++ rest.map .str ++
      List.replicate (len - (rest.length + 2)) .unset := rfl
  obtain ⟨r, hr, hiff⟩ := maxEqual_spec hsplit (Nat.le_refl first.length)
  have hlongest : Longest first (first :: rest) r := by
    have hself : ∀ n, lower (first.take n) <+: lower first := fun n =>
      (List.take_prefix n first).map tolower
    constructor
    · have hr' := (hiff r).mp (Nat.le_refl r)
      exact ⟨hr'.1, List.forall_mem_cons.mpr ⟨hself r, hr'.2⟩⟩
    · exact fun k hk => (hiff k).mpr ⟨hk.1, (List.forall_mem_cons.mp hk.2).2⟩
  have hstore : storeElem (layout .unset (first :: rest) len) 0 (.str (first.take r)) =
      .ok (layout (.str (first.take r)) (first :: rest) len) := by
    rw [storeElem, if_pos (by rw [length_layout (by simpa using hroom)]; omega)]
    rfl
  have hget : (layout .unset (first :: rest) len)[(1 : Nat)]? = some (.str first) := rfl
  have hempty : (layout .unset (first :: rest) len).isEmpty = false := rfl
  have hcopy : spdCopyString first (r + 1) = .ok (first.take r) := spdCopyString_eq first r.succ_pos
  have hstored : ∀ {k}, rest.length + 2 < k →
      storeElem (layout (.str (first.take r)) (first :: rest) k) (rest.length + 2) .null =
        .ok (.str (first.take r) :: (first :: rest).map .str ++
          .null :: List.replicate (k - (rest.length + 3)) .unset) := fun hk =>
    by simpa using @store_layout (first :: rest) _ _ hk .null
  rw [finishList, hempty, if_neg Bool.false_ne_true, hget]
  dsimp only
  rw [Nat.add_sub_cancel, show (2 : Nat) = ([Elem.unset, .str first]).length from rfl, hr, ok_bind,
    if_neg (by simp [halloc]), hcopy, ok_bind, hstore, ok_bind]
  refine ⟨r, hlongest, if rest.length + 2 ≥ len then len + 1 - (rest.length + 3)
    else len - (rest.length + 3), ?_⟩
  unfold intSucc
  split
  · rw [ok_bind, ok_bind]
    by_cases hfull : rest.length + 1 + 1 ≥ len
    · rw [if_pos hfull, if_neg (by simp [halloc]), realloc_layout (by simpa using hroom) (by omega),
        if_pos hfull]
      rw [hstored (by omega)]
      rfl
    · rw [if_neg hfull, if_neg hfull]
      rw [hstored (by omega)]
      rfl
  · rfl

/-- What there is to complete with: null without a match, and else the array of the matches with
    the longest prefix they share in front and null behind. -/
def Completes (ms : List CString) : Outcome (Option (List Elem)) → Prop
  | .ok none => ms = []
  | .ok (some list) => ∃ first n rest, ms.head? = some first ∧ Longest first ms n ∧
      list = .str (first.take n) :: ms.map .str ++ .null :: rest
  | _ => False

/-- The generator returns the matches in order, and then null. -/
def Generates (gen : Nat → Option CString) (ms : List CString) : Prop :=
  ∀ i ≤ ms.length, gen i = ms[i]?

/-- The whole call, up to where the matches are counted for the last time. -/
theorem completionMatches_eq {ms : List CString} (halloc : ∀ n, alloc n = true)
    (hgen : Generates gen ms) (hint : ms.length < 2 ^ 31) (hfuel : ms.length < fuel) :
    ∃ list, Completes ms (.ok list) ∧ spdCliCompletionMatches fuel gen alloc =
      if ms = [] then .ok list else intSucc ms.length >>= fun _ => .ok list := by
  have hstart : Holds [] 1 [] := ⟨Nat.le_refl 1, .inr ⟨rfl, rfl, rfl⟩⟩
  obtain ⟨len, list, hcollect, hholds⟩ := collectLoop_spec halloc hstart
    (fun i _ hi => hgen i hi) hint hfuel
  rw [List.nil_append] at hcollect hholds
  have hrun : spdCliCompletionMatches fuel gen alloc = finishList alloc ms.length len list := by
    rw [spdCliCompletionMatches, List.length_nil] at *
    rw [hcollect, ok_bind]
  cases ms with
  | nil =>
    -- nothing has been allocated
    have hnull : spdCliCompletionMatches fuel gen alloc = .ok none := by
      obtain ⟨fuel, rfl⟩ : ∃ n, fuel = n + 1 := ⟨fuel - 1, by simp at hfuel; omega⟩
      rw [spdCliCompletionMatches, collectLoop, hgen 0 (Nat.le_refl _)]
      rfl
    exact ⟨none, rfl, hnull⟩
  | cons first rest =>
    obtain ⟨n, hlongest, unwritten, hfinish⟩ := finishList_spec halloc hholds
    refine ⟨some (.str (first.take n) :: (first :: rest).map .str ++
      .null :: List.replicate unwritten .unset), ⟨first, n, _, rfl, hlongest, rfl⟩, ?_⟩
    rw [if_neg (List.cons_ne_nil _ _), hrun, List.length_cons, hfinish]

/-- Fewer matches than an `int` can count go into the array, in order. -/
theorem spdCliCompletionMatches_completes {ms : List CString} (halloc : ∀ n, alloc n = true)
    (hgen : Generates gen ms) (hint : ms.length + 1 < 2 ^ 31) (hfuel : ms.length < fuel) :
    Completes ms (spdCliCompletionMatches fuel gen alloc) := by
  obtain ⟨list, hlist, hrun⟩ := completionMatches_eq halloc hgen (Nat.lt_of_succ_lt hint) hfuel
  rw [hrun, intSucc_eq hint]
  by_cases hnil : ms = []
  · rw [if_pos hnil]
    exact hlist
  · rw [if_neg hnil]
    exact hlist

theorem completes_two : Completes [lit "list", lit "Lift"]
    (spdCliCompletionMatches 3 ([lit "list", lit "Lift"][·]?) fun _ => true) :=
  spdCliCompletionMatches_completes (fun _ => rfl) (fun _ _ => rfl) (by decide) (by decide)

/-- With one match more the index of the null behind them overflows. -/
theorem spdCliCompletionMatches_overflow : ∃ ms : List CString, ∃ fuel, ms.length < fuel ∧
    spdCliCompletionMatches fuel (ms[·]?) (fun _ => true) = .overflow ∧
    ¬ Completes ms (spdCliCompletionMatches fuel (ms[·]?) fun _ => true) := by
  refine ⟨List.replicate (2 ^ 31 - 1) [], 2 ^ 31, by rw [List.length_replicate]; decide, ?_⟩
  generalize hms : List.replicate (2 ^ 31 - 1) ([] : CString) = ms
  have hlen : ms.length = 2 ^ 31 - 1 := by rw [← hms, List.length_replicate]
  have hgen : Generates (ms[·]?) ms := fun _ _ => rfl
  have hfuel : ms.length < 2 ^ 31 := by rw [hlen]; decide
  have hnil : ms ≠ [] := by
    rw [← List.length_pos_iff, hlen]
    decide
  have halloc : ∀ n, (fun _ : Nat => true) n = true := fun _ => rfl
  obtain ⟨list, -, hrun⟩ := completionMatches_eq halloc hgen hfuel hfuel
  rw [hrun, if_neg hnil, hlen]
  exact ⟨rfl, id⟩

end

end Spider.Cli
