import Spider.InternalDb.Tree

/-!
# Which records are deleted

`spd_db_deltree` with the ways in which its calls of SQLite end. What it selects
with `LIKE` is compared with the paths of a key.
-/

namespace Spider.InternalDb

open Lib Outcome CString Strings

/-- The connection: the content of `spd_db`, and what `sqlite3_changes` gives, the number of records
    that the last `INSERT`, `UPDATE` or `DELETE` to be completed has changed. -/
structure Connection where
  table : Table
  changes : Nat

/-- `spd_db_deltree` (`internal_db.c:331-364`) with the results of `sqlite3_bind_text` and of
    `sqlite3_step`; a statement that fails changes nothing. -/
def spdDbDeltreeOn (like : CString → CString → Bool) (c : Connection) (table key : Option CString)
    (bindOk stepOk : Bool) : Outcome (Int × Connection) := do
  let pre :=
    if !spdStrlenZero table then
      if !spdStrlenZero key then treePrefix (table.getD []) (key.getD [])
      else familyPrefix (table.getD [])
    else []
  let (_, c) ←
    if !spdStrlenZero (some pre) ∧ !bindOk then .ok ((-1 : Int), c)
    else if !stepOk then .ok (-1, c)
    else if !spdStrlenZero (some pre) then do
      let rows ← selectWhere like c.table pre
      .ok (0, ⟨c.table.restrict fun r => !selects like pre r, rows.length⟩)
    else .ok (0, ⟨c.table.restrict fun _ => false, c.table.rows.length⟩)
  -- the `res` of the branches is overwritten
  let res : Int := c.changes
  .ok (res, c)

/-- The prefix that a table and a key compose, as long as it fits into the buffer. -/
def subtree (table key : CString) : CString :=
  if key = [] then lit "/" ++ table else fullkey table key

/-- Exactly the records are deleted that have the prefix itself among their paths, and they are
    counted; when a statement fails, the result is -1 and nothing changes. -/
structure DeletesSubtree (like : CString → CString → Bool) (c : Connection) (table : CString)
    (key : Option CString) (bindOk stepOk : Bool) : Prop where
  done : bindOk = true → stepOk = true →
    ∃ n c', spdDbDeltreeOn like c (some table) key bindOk stepOk = .ok (n, c') ∧
      (∀ r, r ∈ c'.table.rows ↔ r ∈ c.table.rows ∧ ¬ IsPath (subtree table (key.getD [])) r.key) ∧
      c'.table.rows.Sublist c.table.rows ∧ n = c.table.rows.length - c'.table.rows.length
  failed : ¬ (bindOk = true ∧ stepOk = true) →
    ∃ c', spdDbDeltreeOn like c (some table) key bindOk stepOk = .ok (-1, c') ∧ c'.table = c.table

/-- Of each record, read as a pattern the prefix matches one of the paths exactly if it is one of
    them. -/
def MatchesSubtree (like : CString → CString → Bool) (t : Table) (pre : CString) : Prop :=
  ∀ r ∈ t.rows, NoNul r.key ∧
    (∀ path, IsPath path r.key → like pre path = true → IsPath pre r.key) ∧
    (IsPath pre r.key → ∃ path, IsPath path r.key ∧ like pre path = true)

section

variable {like : CString → CString → Bool} {c c' : Connection} {table path k pre : CString}
  {key : Option CString} {bindOk stepOk : Bool} {n : Int}

theorem matchesSubtree_iff {t : Table} :
    MatchesSubtree Like.like t pre ↔
      ∀ r ∈ t.rows, NoNul r.key ∧ (selects Like.like pre r = true ↔ IsPath pre r.key) := by
  refine forall₂_congr fun r _ => and_congr_right fun _ => ?_
  rw [selects_iff]
  constructor
  · rintro ⟨hmatch, hown⟩
    exact ⟨fun ⟨path, hpath, h⟩ => hmatch path hpath h, hown⟩
  · intro hiff
    exact ⟨fun path hpath h => hiff.mp ⟨path, hpath, h⟩, hiff.mpr⟩

theorem subtree_ne_nil (table k : CString) : subtree table k ≠ [] := by
  rw [subtree]
  split
  · exact List.cons_ne_nil _ _
  · exact List.cons_ne_nil _ _

/-- The buffer holds the whole prefix. -/
theorem prefix_eq (htable : table ≠ []) (hlen : (subtree table (key.getD [])).length < 256) :
    (if !spdStrlenZero (some table) then
      if !spdStrlenZero key then treePrefix ((some table).getD []) (key.getD [])
      else familyPrefix ((some table).getD [])
    else []) = subtree table (key.getD []) := by
  obtain ⟨a, s, rfl⟩ := List.exists_cons_of_ne_nil htable
  have hsome : spdStrlenZero (some (a :: s)) = false := rfl
  rw [subtree] at hlen ⊢
  rw [hsome]
  rcases key with _ | _ | ⟨b, k⟩
  · exact List.take_of_length_le (Nat.le_of_lt_succ hlen)
  · exact List.take_of_length_le (Nat.le_of_lt_succ hlen)
  · exact List.take_of_length_le (Nat.le_of_lt_succ hlen)

/-- What the function does, by what becomes of its calls. -/
theorem deltreeOn_eq (like : CString → CString → Bool) (c : Connection) (bindOk stepOk : Bool)
    (htable : table ≠ [])
    (hlen : (subtree table (key.getD [])).length < 256) :
    spdDbDeltreeOn like c (some table) key bindOk stepOk =
      if bindOk = true ∧ stepOk = true then
        selectWhere like c.table (subtree table (key.getD [])) >>= fun rows =>
          .ok ((rows.length : Int),
            ⟨c.table.restrict fun r => !selects like (subtree table (key.getD [])) r, rows.length⟩)
      else .ok ((c.changes : Int), c) := by
  have hsome : spdStrlenZero (some (subtree table (key.getD []))) = false := by
    obtain ⟨a, s, heq⟩ := List.exists_cons_of_ne_nil (subtree_ne_nil table (key.getD []))
    rw [heq]
    rfl
  unfold spdDbDeltreeOn
  dsimp only
  rw [prefix_eq htable hlen, hsome]
  cases bindOk with
  | false => rfl
  | true =>
    cases stepOk with
    | false => rfl
    | true =>
      cases hrows : selectWhere like c.table (subtree table (key.getD [])) <;> simp

/-- When no statement fails, this is the function on the table alone. -/
theorem deltreeOn_done (like : CString → CString → Bool) (c : Connection)
    (table key : Option CString) :
    spdDbDeltreeOn like c table key true true =
      spdDbDeltree like c.table table key >>= fun r => .ok (r.1, ⟨r.2, r.1.toNat⟩) := by
  unfold spdDbDeltreeOn spdDbDeltree
  dsimp only
  generalize (if !spdStrlenZero table then
      if !spdStrlenZero key then treePrefix (table.getD []) (key.getD [])
      else familyPrefix (table.getD [])
    else []) = pre
  cases spdStrlenZero (some pre) with
  | false => cases hrows : selectWhere like c.table pre <;> simp
  | true => simp

/-- A statement that fails leaves the number of records that were changed before, which is not -1. -/
theorem not_deletesSubtree (c : Connection) (htable : table ≠ [])
    (hlen : (subtree table (key.getD [])).length < 256) (hfails : ¬ (bindOk = true ∧ stepOk = true)) :
    ¬ DeletesSubtree like c table key bindOk stepOk := by
  intro hdeletes
  obtain ⟨c', hcall, -⟩ := hdeletes.failed hfails
  rw [deltreeOn_eq like c bindOk stepOk htable hlen, if_neg hfails] at hcall
  have hres := (Prod.mk.inj (Outcome.ok.inj hcall)).1
  omega

/-- When no statement fails, the records are those whose keys match. -/
theorem deletesSubtree_done (c : Connection) (htable : table ≠ [])
    (hlen : (subtree table (key.getD [])).length < 256) :
    DeletesSubtree Like.like c table key true true ↔
      MatchesSubtree Like.like c.table (subtree table (key.getD [])) := by
  have hrun := deltreeOn_eq Like.like c true true htable hlen
  rw [if_pos ⟨rfl, rfl⟩] at hrun
  rw [matchesSubtree_iff]
  constructor
  · intro hdeletes
    obtain ⟨n, c', hcall, hrows, -⟩ := hdeletes.done rfl rfl
    rw [hrun] at hcall
    obtain ⟨rows, hselect, hend⟩ := bind_eq_ok.mp hcall
    obtain ⟨-, rfl⟩ := Prod.mk.inj (Outcome.ok.inj hend)
    rw [selectWhere] at hselect
    split at hselect
    · next hnul =>
      intro r hr
      have hkept := hrows r
      simp only [Table.restrict, List.mem_filter, hr, true_and, Bool.not_eq_eq_eq_not,
        Bool.not_true, ← Bool.not_eq_true] at hkept
      exact ⟨hnul r hr, not_iff_not.mp hkept⟩
    · cases hselect
  · intro hall
    have hselect : selectWhere Like.like c.table (subtree table (key.getD [])) =
        .ok (c.table.rows.filter (selects Like.like (subtree table (key.getD [])))) :=
      if_pos fun r hr => (hall r hr).1
    rw [hselect] at hrun
    refine ⟨fun _ _ => ⟨_, _, hrun, fun r => ?_, List.filter_sublist, ?_⟩,
      fun hnot => absurd ⟨rfl, rfl⟩ hnot⟩
    · simp only [Table.restrict, List.mem_filter, Bool.not_eq_eq_eq_not, Bool.not_true,
        ← Bool.not_eq_true]
      exact and_congr_right fun hr => not_congr (hall r hr).2
    · have hsum := List.length_eq_length_filter_add
        (selects Like.like (subtree table (key.getD []))) (l := c.table.rows)
      dsimp only [Table.restrict]
      omega

/-- The records of a subtree are deleted, and counted, exactly if no statement fails and `LIKE`
    matches the prefix with paths of its own records only. -/
theorem deletesSubtree_iff (c : Connection) (table : CString) (key : Option CString)
    (bindOk stepOk : Bool) (htable : table ≠ [])
    (hlen : (subtree table (key.getD [])).length < 256) :
    DeletesSubtree Like.like c table key bindOk stepOk ↔
      (bindOk = true ∧ stepOk = true) ∧
        MatchesSubtree Like.like c.table (subtree table (key.getD [])) := by
  by_cases hok : bindOk = true ∧ stepOk = true
  · obtain ⟨rfl, rfl⟩ := hok
    rw [deletesSubtree_done c htable hlen]
    simp
  · constructor
    · intro hdeletes
      exact absurd hdeletes (not_deletesSubtree c htable hlen hok)
    · rintro ⟨hok', -⟩
      exact absurd hok' hok

end

/-- Two records of a family, one of another, and one whose name begins alike. -/
def family : Connection :=
  ⟨⟨[⟨lit "/t/k", some (lit "1")⟩, ⟨lit "/t/K/x", some (lit "2")⟩, ⟨lit "/tt/k", none⟩,
    ⟨lit "/t", none⟩], by decide +kernel⟩, 0⟩

theorem deletesSubtree_iff_family :
    DeletesSubtree Like.like family (lit "t") none true true :=
  (deletesSubtree_iff family (lit "t") none true true (by decide) (by decide)).mpr
    ⟨⟨rfl, rfl⟩, matchesSubtree_iff.mpr (by decide +kernel)⟩

/-- The key `k` names its record with `K` too, and a call that fails reports the records that an
    earlier one has changed. -/
theorem deltree_deletes_others :
    ¬ DeletesSubtree Like.like family (lit "t") (some (lit "k")) true true ∧
    spdDbDeltreeOn Like.like ⟨family.table, 5⟩ (some (lit "t")) (some (lit "k")) true false =
      .ok (5, ⟨family.table, 5⟩) ∧
    ¬ DeletesSubtree Like.like ⟨family.table, 5⟩ (lit "t") (some (lit "k")) true false := by
  refine ⟨fun hdeletes => ?_, ?_, not_deletesSubtree _ (by decide) (by decide) (by decide)⟩
  · have hmatches := matchesSubtree_iff.mp
      ((deletesSubtree_done family (by decide) (by decide)).mp hdeletes)
    revert hmatches
    decide +kernel
  · exact (deltreeOn_eq Like.like _ true false (by decide) (by decide)).trans (if_neg nofun)

end Spider.InternalDb
