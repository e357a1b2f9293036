import Mathlib.Data.List.Nodup
import Spider.InternalDb.Table
import Spider.Lib.Like

/-!
# Reading and deleting a subtree

`spd_db_gettree` and `spd_db_deltree` build a prefix from a table and a key and
bind it to the statements whose condition is `key || '/' LIKE ? || '/' || '%'`.
The operator `LIKE` of SQLite is the parameter `like`, a pattern and a text to a
truth value. A result of `LIKE` on a text with a null byte in it is not defined.
What the condition selects, with SQLite's own `LIKE`, is told by the paths of a key:
those of its beginnings that a slash ends, and the key itself.
-/

namespace Spider.InternalDb

open Lib Outcome CString Strings

/-- `struct spd_db_entry` (`internal_db.h:23-27`) of the list returned. -/
structure Entry where
  key : CString
  data : CString
  deriving DecidableEq, Repr

/-- The database, and whether an earlier call bound the parameter of `gettree_stmt`. What it
    bound is its own buffer, which is gone (`SQLITE_STATIC`). -/
structure Db where
  table : Table
  gettreeBound : Bool

section Tree

variable (like : CString → CString → Bool)

/-- `key || '/' LIKE ? || '/' || '%'` with `pre` bound. -/
def selects (pre : CString) (r : Row) : Bool := like (pre ++ lit "/" ++ lit "%") (r.key ++ lit "/")

/-- The records for which the condition is true. -/
def selectWhere (t : Table) (pre : CString) : Outcome (List Row) :=
  if ∀ r ∈ t.rows, NoNul r.key then .ok (t.rows.filter (selects like pre)) else .fault

/-- `ORDER BY key`. -/
def orderByKey (rows : List Row) : List Row := rows.mergeSort fun r r' => decide (r.key ≤ r'.key)

/-- The loop over the rows of a result (`internal_db.c:305-325`); a null value ends it. -/
def collect : List Row → List Entry
  | [] => []
  | r :: rows =>
    match r.value with
    | none => []
    | some value => ⟨cut r.key, cut value⟩ :: collect rows

/-- The prefix `/table/key` in its buffer. -/
def treePrefix (table key : CString) : CString := (snprintf 256 (fullkey table key)).1

/-- The prefix `/table` in its buffer. -/
def familyPrefix (table : CString) : CString := (snprintf 256 (lit "/" ++ table)).1

/-- `spd_db_gettree` (`internal_db.c:275-329`). The second test is of `table` again, and the
    statement for an empty table is `gettree_stmt` too. -/
def spdDbGettree (db : Db) (table key : Option CString) : Outcome (List Entry × Db) := do
  let pre ←
    if !spdStrlenZero table then
      if !spdStrlenZero table then
        match key with
        | some key => .ok (treePrefix (table.getD []) key)
        | none => .fault
      else .ok (familyPrefix (table.getD []))
    else .ok []
  if !spdStrlenZero (some pre) then
    let rows ← selectWhere like db.table pre
    .ok (collect (orderByKey rows), { db with gettreeBound := true })
  else if db.gettreeBound then .fault
  -- the parameter is null, and so is the condition on every record
  else .ok (collect (orderByKey []), db)

/-- `spd_db_deltree` (`internal_db.c:331-364`): the number of records deleted, and the table
    afterwards. -/
def spdDbDeltree (t : Table) (table key : Option CString) : Outcome (Int × Table) := do
  let pre :=
    if !spdStrlenZero table then
      if !spdStrlenZero key then treePrefix (table.getD []) (key.getD [])
      else familyPrefix (table.getD [])
    else []
  if !spdStrlenZero (some pre) then
    let rows ← selectWhere like t pre
    .ok (rows.length, t.restrict fun r => !selects like pre r)
  else .ok (t.rows.length, t.restrict fun _ => false)

/-- The keys of the entries returned are the keys of the records that would be deleted, and they
    ascend. -/
def Agree (db : Db) (table key : Option CString) : Prop :=
  ∃ entries db' n t', spdDbGettree like db table key = .ok (entries, db') ∧
    spdDbDeltree like db.table table key = .ok (n, t') ∧
    (∀ k, k ∈ entries.map Entry.key ↔ ∃ r ∈ db.table.rows, r.key = k ∧ r ∉ t'.rows) ∧
    (entries.map Entry.key).Pairwise (· < ·)

/-- The prefix of `spd_db_deltree` for a table. -/
def deltreePrefix (table key : CString) : CString :=
  if key.isEmpty then familyPrefix table else treePrefix table key

end Tree

/-! ## Rows in order -/

theorem mem_orderByKey {rows : List Row} {r : Row} : r ∈ orderByKey rows ↔ r ∈ rows :=
  List.mem_mergeSort

/-- Rows with different keys ascend strictly. -/
theorem pairwise_orderByKey {rows : List Row} (h : (rows.map Row.key).Nodup) :
    (orderByKey rows).Pairwise fun r r' => r.key < r'.key := by
  have hle : (orderByKey rows).Pairwise fun r r' => decide (r.key ≤ r'.key) = true := by
    apply List.pairwise_mergeSort
    · intro a b c hab hbc
      exact decide_eq_true (Std.le_trans (of_decide_eq_true hab) (of_decide_eq_true hbc))
    · intro a b
      rw [Bool.or_eq_true, decide_eq_true_eq, decide_eq_true_eq]
      exact Std.le_total
  have hne : (orderByKey rows).Pairwise fun r r' => r.key ≠ r'.key := by
    have hperm : (orderByKey rows).Perm rows := List.mergeSort_perm _ _
    exact List.pairwise_map.mp ((hperm.map Row.key).nodup_iff.mpr h)
  refine (hle.and hne).imp ?_
  rintro r r' ⟨hle, hne⟩
  exact Std.lt_of_le_of_ne (of_decide_eq_true hle) hne

theorem collect_cons_of_some {r : Row} {value : CString} (h : r.value = some value)
    (rows : List Row) : collect (r :: rows) = ⟨cut r.key, cut value⟩ :: collect rows := by
  rw [collect, h]

theorem collect_cons_of_none {r : Row} (h : r.value = none) (rows : List Row) :
    collect (r :: rows) = [] := by
  rw [collect, h]

/-- The keys collected are those of the rows up to which no value is null. -/
theorem mem_collect {rows : List Row} (hsorted : rows.Pairwise fun r r' => r.key < r'.key)
    (hnul : ∀ r ∈ rows, NoNul r.key) (k : CString) :
    k ∈ (collect rows).map Entry.key ↔
      ∃ r ∈ rows, r.key = k ∧ ∀ r' ∈ rows, r'.key ≤ r.key → r'.value ≠ none := by
  induction rows with
  | nil => simp [collect]
  | cons r0 rows ih =>
    obtain ⟨hfirst, hsorted⟩ := List.pairwise_cons.mp hsorted
    have ih := ih hsorted (fun r hr => hnul r (List.mem_cons_of_mem r0 hr))
    have hcut : cut r0.key = r0.key := cut_of_noNul (hnul r0 List.mem_cons_self)
    cases hvalue : r0.value with
    | none =>
      rw [collect_cons_of_none hvalue]
      constructor
      · exact fun h => absurd h List.not_mem_nil
      · rintro ⟨r, hr, -, hall⟩
        have hle : r0.key ≤ r.key := by
          rcases List.mem_cons.mp hr with rfl | hr
          · exact Std.le_refl _
          · exact Std.le_of_lt (hfirst r hr)
        exact absurd hvalue (hall r0 List.mem_cons_self hle)
    | some value =>
      rw [collect_cons_of_some hvalue, List.map_cons, List.mem_cons, ih, hcut]
      constructor
      · rintro (rfl | ⟨r, hr, rfl, hall⟩)
        · refine ⟨r0, List.mem_cons_self, rfl, ?_⟩
          intro r' hr' hle
          rcases List.mem_cons.mp hr' with rfl | hr'
          · rw [hvalue]
            exact Option.some_ne_none value
          · exact absurd hle (Std.not_le.mpr (hfirst r' hr'))
        · refine ⟨r, List.mem_cons_of_mem r0 hr, rfl, ?_⟩
          intro r' hr' hle
          rcases List.mem_cons.mp hr' with rfl | hr'
          · rw [hvalue]
            exact Option.some_ne_none value
          · exact hall r' hr' hle
      · rintro ⟨r, hr, rfl, hall⟩
        rcases List.mem_cons.mp hr with rfl | hr
        · exact Or.inl rfl
        · exact Or.inr ⟨r, hr, rfl, fun r' hr' => hall r' (List.mem_cons_of_mem r0 hr')⟩

/-- The keys collected ascend. -/
theorem pairwise_collect {rows : List Row} (hsorted : rows.Pairwise fun r r' => r.key < r'.key)
    (hnul : ∀ r ∈ rows, NoNul r.key) : ((collect rows).map Entry.key).Pairwise (· < ·) := by
  induction rows with
  | nil => exact List.Pairwise.nil
  | cons r0 rows ih =>
    obtain ⟨hfirst, hsorted⟩ := List.pairwise_cons.mp hsorted
    have hrest : ∀ r ∈ rows, NoNul r.key := fun r hr => hnul r (List.mem_cons_of_mem r0 hr)
    have hcut : cut r0.key = r0.key := cut_of_noNul (hnul r0 List.mem_cons_self)
    cases hvalue : r0.value with
    | none =>
      rw [collect_cons_of_none hvalue]
      exact List.Pairwise.nil
    | some value =>
      rw [collect_cons_of_some hvalue, List.map_cons, hcut]
      refine List.pairwise_cons.mpr ⟨?_, ih hsorted hrest⟩
      intro k hk
      obtain ⟨r, hr, rfl, -⟩ := (mem_collect hsorted hrest k).mp hk
      exact hfirst r hr

/-! ## What the two functions select -/

section Select

variable {like : CString → CString → Bool}

theorem gettree_family {db : Db} {table : CString} (h : table ≠ []) (key : Option CString) :
    spdDbGettree like db (some table) key = (match key with
      | none => .fault
      | some k => do
        let rows ← selectWhere like db.table (treePrefix table k)
        .ok (collect (orderByKey rows), { db with gettreeBound := true })) := by
  obtain ⟨c, s, rfl⟩ := List.exists_cons_of_ne_nil h
  cases key <;> rfl

theorem deltree_family {t : Table} {table : CString} (h : table ≠ []) (k : CString) :
    spdDbDeltree like t (some table) (some k) = (do
      let rows ← selectWhere like t (deltreePrefix table k)
      .ok ((rows.length : Int), t.restrict fun r => !selects like (deltreePrefix table k) r)) := by
  obtain ⟨c, s, rfl⟩ := List.exists_cons_of_ne_nil h
  cases k <;> rfl

theorem gettree_all {db : Db} {table key : Option CString} (h : spdStrlenZero table = true) :
    spdDbGettree like db table key = if db.gettreeBound then .fault else .ok ([], db) := by
  unfold spdDbGettree
  rw [h]
  have hnil : collect (orderByKey []) = [] := by rw [orderByKey, List.mergeSort_nil, collect]
  rw [hnil]
  rfl

theorem deltree_all {t : Table} {table key : Option CString} (h : spdStrlenZero table = true) :
    spdDbDeltree like t table key = .ok (t.rows.length, t.restrict fun _ => false) := by
  unfold spdDbDeltree
  rw [h]
  rfl

/-- The records a restriction drops. -/
theorem dropped_iff {t : Table} {keep : Row → Bool} {k : CString} :
    (∃ r ∈ t.rows, r.key = k ∧ r ∉ (t.restrict keep).rows) ↔
      ∃ r ∈ t.rows, r.key = k ∧ keep r = false := by
  constructor
  · rintro ⟨r, hr, hk, hdrop⟩
    refine ⟨r, hr, hk, ?_⟩
    by_contra hkeep
    exact hdrop (List.mem_filter.mpr ⟨hr, Bool.of_not_eq_false hkeep⟩)
  · rintro ⟨r, hr, hk, hkeep⟩
    refine ⟨r, hr, hk, ?_⟩
    intro hmem
    rw [(List.mem_filter.mp hmem).2] at hkeep
    exact Bool.noConfusion hkeep

/-- Two records of a table with one key are the same. -/
theorem eq_of_key {t : Table} {r r' : Row} (hr : r ∈ t.rows) (hr' : r' ∈ t.rows)
    (h : r.key = r'.key) : r = r' :=
  List.inj_on_of_nodup_map t.primaryKey hr hr' h

/-- The keys of the entries that `spd_db_gettree` collects for the prefix `pre`. -/
theorem mem_selected {t : Table} (hnul : ∀ r ∈ t.rows, NoNul r.key) (pre k : CString) :
    k ∈ (collect (orderByKey (t.rows.filter (selects like pre)))).map Entry.key ↔
      ∃ r ∈ t.rows, r.key = k ∧ selects like pre r = true ∧
        ∀ r' ∈ t.rows, selects like pre r' = true → r'.key ≤ r.key → r'.value ≠ none := by
  have hsorted : (orderByKey (t.rows.filter (selects like pre))).Pairwise
      fun r r' => r.key < r'.key := pairwise_orderByKey (t.restrict _).primaryKey
  have hkeys : ∀ r ∈ orderByKey (t.rows.filter (selects like pre)), NoNul r.key := by
    intro r hr
    exact hnul r (List.mem_filter.mp (mem_orderByKey.mp hr)).1
  rw [mem_collect hsorted hkeys]
  simp only [mem_orderByKey, List.mem_filter]
  constructor
  · rintro ⟨r, ⟨hr, hsel⟩, hk, hall⟩
    exact ⟨r, hr, hk, hsel, fun r' hr' hsel' => hall r' ⟨hr', hsel'⟩⟩
  · rintro ⟨r, hr, hk, hsel, hall⟩
    exact ⟨r, ⟨hr, hsel⟩, hk, fun r' hr' => hall r' hr'.1 hr'.2⟩

/-- With a table and a key, the two functions select with their two prefixes. -/
theorem agree_family_key {db : Db} {table k : CString} (h : table ≠ []) :
    Agree like db (some table) (some k) ↔ ∀ r ∈ db.table.rows, NoNul r.key ∧
      (selects like (deltreePrefix table k) r = true ↔ selects like (treePrefix table k) r = true ∧
        ∀ r' ∈ db.table.rows, selects like (treePrefix table k) r' = true →
          r'.key ≤ r.key → r'.value ≠ none) := by
  rw [Agree, gettree_family h, deltree_family h]
  by_cases hnul : ∀ r ∈ db.table.rows, NoNul r.key
  · have hselect : ∀ pre, selectWhere like db.table pre =
        .ok (db.table.rows.filter (selects like pre)) := fun pre => if_pos hnul
    simp only [hselect, ok_bind]
    constructor
    · rintro ⟨entries, db', n, t', hget, hdel, hmem, -⟩ r hr
      obtain rfl := (Prod.mk.inj (Outcome.ok.inj hget)).1
      obtain rfl := (Prod.mk.inj (Outcome.ok.inj hdel)).2
      have hkey := hmem r.key
      rw [mem_selected hnul, dropped_iff] at hkey
      refine ⟨hnul r hr, ?_⟩
      constructor
      · intro hsel
        obtain ⟨r', hr', hk, hsel', hall⟩ := hkey.mpr ⟨r, hr, rfl, by rw [hsel]; rfl⟩
        obtain rfl := eq_of_key hr' hr hk
        exact ⟨hsel', hall⟩
      · rintro ⟨hsel, hall⟩
        obtain ⟨r', hr', hk, hdrop⟩ := hkey.mp ⟨r, hr, rfl, hsel, hall⟩
        obtain rfl := eq_of_key hr' hr hk
        simpa using hdrop
    · intro hall
      refine ⟨_, _, _, _, rfl, rfl, ?_, ?_⟩
      · intro k'
        rw [mem_selected hnul, dropped_iff]
        constructor
        · rintro ⟨r, hr, hk, hsel⟩
          exact ⟨r, hr, hk, by rw [(hall r hr).2.mpr hsel]; rfl⟩
        · rintro ⟨r, hr, hk, hdrop⟩
          exact ⟨r, hr, hk, (hall r hr).2.mp (by simpa using hdrop)⟩
      · apply pairwise_collect
        · exact pairwise_orderByKey (db.table.restrict _).primaryKey
        · intro r hr
          exact hnul r (List.mem_filter.mp (mem_orderByKey.mp hr)).1
  · have hselect : ∀ pre, selectWhere like db.table pre = .fault := fun pre => if_neg hnul
    simp only [hselect, fault_bind]
    constructor
    · rintro ⟨entries, db', n, t', hget, -⟩
      exact absurd hget nofun
    · intro hall
      exact absurd (fun r hr => (hall r hr).1) hnul

theorem agree_family {db : Db} {table : CString} {key : Option CString} (h : table ≠ []) :
    Agree like db (some table) key ↔ ∃ k, key = some k ∧ ∀ r ∈ db.table.rows, NoNul r.key ∧
      (selects like (deltreePrefix table k) r = true ↔ selects like (treePrefix table k) r = true ∧
        ∀ r' ∈ db.table.rows, selects like (treePrefix table k) r' = true →
          r'.key ≤ r.key → r'.value ≠ none) := by
  cases key with
  | none =>
    rw [Agree, gettree_family h]
    constructor
    · rintro ⟨entries, db', n, t', hget, -⟩
      exact absurd hget nofun
    · rintro ⟨k, hk, -⟩
      exact absurd hk nofun
  | some k =>
    rw [agree_family_key h]
    constructor
    · intro hall
      exact ⟨k, rfl, hall⟩
    · rintro ⟨k', hk, hall⟩
      obtain rfl := Option.some.inj hk
      exact hall

end Select

/-! ## The paths of a key -/

/-- The paths of a key: the key itself, and what stands in front of one of its slashes. -/
def IsPath (path key : CString) : Prop := key = path ∨ path ++ lit "/" <+: key

instance (path key : CString) : Decidable (IsPath path key) := inferInstanceAs (Decidable (_ ∨ _))

section

variable {path k pre : CString} {r : Row}

theorem isPath_iff : IsPath path k ↔ ∃ rest, k ++ lit "/" = path ++ ch '/' :: rest := by
  constructor
  · rintro (rfl | ⟨rest, rfl⟩)
    · exact ⟨[], rfl⟩
    · exact ⟨rest ++ lit "/", by simp [lit]⟩
  · rintro ⟨rest, hrest⟩
    rcases List.eq_nil_or_concat rest with rfl | ⟨rest, d, rfl⟩
    · exact .inl (List.append_cancel_right hrest)
    · have hsplit : k ++ [ch '/'] = (path ++ ch '/' :: rest) ++ [d] := by
        rw [List.append_assoc, List.cons_append]
        rwa [List.concat_eq_append] at hrest
      have hk := (List.append_inj' hsplit rfl).1
      exact .inr ⟨rest, by rw [hk, List.append_assoc]; rfl⟩

theorem IsPath.of_slash (h : IsPath (path ++ lit "/") k) : IsPath path k := by
  rcases h with rfl | hpre
  · exact .inr (List.prefix_refl _)
  · exact .inr ((List.prefix_append _ _).trans hpre)

/-- A record is selected if the prefix matches one of its paths. -/
theorem selects_iff :
    selects Like.like pre r = true ↔ ∃ path, IsPath path r.key ∧ Like.like pre path = true := by
  have hpattern : pre ++ lit "/" ++ lit "%" = pre ++ ch '/' :: [ch '%'] := by simp [lit]
  have hall : ∀ t, Like.like [ch '%'] t = true := by
    intro t
    refine Like.like_percent.mpr ⟨[], Like.mem_ends.mpr ⟨List.nil_suffix, ?_⟩, Like.like_nil.mpr rfl⟩
    intro c hc
    cases hc
  rw [selects, hpattern, Like.like_append (by decide) (by decide)]
  constructor
  · rintro ⟨u, v, hkey, hu, -⟩
    exact ⟨u, isPath_iff.mpr ⟨v, hkey⟩, hu⟩
  · rintro ⟨path, hpath, hmatch⟩
    obtain ⟨rest, hkey⟩ := isPath_iff.mp hpath
    exact ⟨path, rest, hkey, hmatch, hall rest⟩

/-- With a slash behind the prefix, two slashes are to stand behind the path, or one at the end. -/
theorem selects_slash_iff : selects Like.like (pre ++ lit "/") r = true ↔
    ∃ path, IsPath (path ++ lit "/") r.key ∧ Like.like pre path = true := by
  have hslash : ∀ path, Like.like (pre ++ lit "/") path = true ↔
      ∃ u, path = u ++ lit "/" ∧ Like.like pre u = true := by
    intro path
    have happend : pre ++ lit "/" = pre ++ ch '/' :: [] := rfl
    rw [happend, Like.like_append (by decide) (by decide)]
    constructor
    · rintro ⟨u, v, hpath, hu, hv⟩
      rw [Like.like_nil.mp hv] at hpath
      exact ⟨u, hpath, hu⟩
    · rintro ⟨u, hpath, hu⟩
      exact ⟨u, [], hpath, hu, Like.like_nil.mpr rfl⟩
  rw [selects_iff]
  constructor
  · rintro ⟨path, hpath, hmatch⟩
    obtain ⟨u, rfl, hu⟩ := (hslash path).mp hmatch
    exact ⟨u, hpath, hu⟩
  · rintro ⟨u, hpath, hu⟩
    exact ⟨u ++ lit "/", hpath, (hslash _).mpr ⟨u, rfl, hu⟩⟩

/-! ## When the two agree -/

/-- What the two functions look for: the same, but for an empty key `spd_db_gettree` puts a slash
    behind it if there is room. -/
theorem treePrefix_eq (table k : CString) : treePrefix table k =
    if k = [] ∧ table.length < 254 then deltreePrefix table k ++ lit "/"
    else deltreePrefix table k := by
  have hlen : (lit "/" ++ table).length = table.length + 1 := by simp [lit]
  cases k with
  | cons c k =>
    rw [if_neg fun h => absurd h.1 (List.cons_ne_nil c k)]
    rfl
  | nil =>
    have htree : treePrefix table [] = (lit "/" ++ table ++ lit "/").take 255 := by
      rw [treePrefix, snprintf, fullkey, List.append_nil]
    have hfamily : deltreePrefix table [] = (lit "/" ++ table).take 255 := rfl
    rw [htree, hfamily]
    by_cases hroom : table.length < 254
    · rw [if_pos ⟨rfl, hroom⟩, List.take_of_length_le (l := lit "/" ++ table) (by omega)]
      apply List.take_of_length_le
      rw [List.length_append, hlen]
      exact Nat.add_le_add_right hroom 1
    · rw [if_neg fun h => hroom h.2, List.take_append_of_le_length (by omega)]

end

/-- For a table: a key is given, and of no key in the database a null byte is part. Of each record
    of which the prefix of `spd_db_deltree`, read as a pattern, matches a path, the value is not
    null; and for an empty key, unless the buffer is full, it matches one that has another slash
    behind its own, or ends the key with it. Without a table: the database is empty and
    `gettree_stmt` has never been bound. -/
def ReadsTree (db : Db) (table key : Option CString) : Prop :=
  if spdStrlenZero table then db.table.rows = [] ∧ db.gettreeBound = false
  else ∃ k, key = some k ∧ ∀ r ∈ db.table.rows, NoNul r.key ∧
    ((∃ path, IsPath path r.key ∧ Like.like (deltreePrefix (table.getD []) k) path = true) →
      r.value ≠ none ∧ (k = [] ∧ (table.getD []).length < 254 →
        ∃ path, IsPath (path ++ lit "/") r.key ∧
          Like.like (deltreePrefix (table.getD []) k) path = true))

/-- `spd_db_gettree` selects no record that `spd_db_deltree` does not select. -/
theorem selects_deltreePrefix {table k : CString} {r : Row}
    (h : selects Like.like (treePrefix table k) r = true) :
    selects Like.like (deltreePrefix table k) r = true := by
  rw [treePrefix_eq] at h
  split at h
  · obtain ⟨path, hpath, hmatch⟩ := selects_slash_iff.mp h
    exact selects_iff.mpr ⟨path, hpath.of_slash, hmatch⟩
  · exact h

/-- That it selects the same, and reads up to the last of them, is a condition on each record. -/
theorem same_iff {t : Table} {table k : CString} :
    (∀ r ∈ t.rows, NoNul r.key ∧
      (selects Like.like (deltreePrefix table k) r = true ↔
        selects Like.like (treePrefix table k) r = true ∧
        ∀ r' ∈ t.rows, selects Like.like (treePrefix table k) r' = true →
          r'.key ≤ r.key → r'.value ≠ none)) ↔
      ∀ r ∈ t.rows, NoNul r.key ∧ (selects Like.like (deltreePrefix table k) r = true →
        r.value ≠ none ∧ selects Like.like (treePrefix table k) r = true) := by
  constructor
  · intro h r hr
    refine ⟨(h r hr).1, fun hsel => ?_⟩
    obtain ⟨htree, hvalues⟩ := (h r hr).2.mp hsel
    exact ⟨hvalues r hr htree (Std.le_refl _), htree⟩
  · intro h r hr
    refine ⟨(h r hr).1, fun hsel => ⟨((h r hr).2 hsel).2, ?_⟩, fun hboth => ?_⟩
    · exact fun r' hr' hsel' _ => ((h r' hr').2 (selects_deltreePrefix hsel')).1
    · exact selects_deltreePrefix hboth.1

/-- The paths are those that are selected. -/
theorem readsTree_iff {db : Db} {table k : CString} (h : table ≠ []) :
    ReadsTree db (some table) (some k) ↔ ∀ r ∈ db.table.rows, NoNul r.key ∧
      (selects Like.like (deltreePrefix table k) r = true →
        r.value ≠ none ∧ selects Like.like (treePrefix table k) r = true) := by
  obtain ⟨c, s, rfl⟩ := List.exists_cons_of_ne_nil h
  have hkey : ReadsTree db (some (c :: s)) (some k) ↔ ∀ r ∈ db.table.rows, NoNul r.key ∧
      ((∃ path, IsPath path r.key ∧ Like.like (deltreePrefix (c :: s) k) path = true) →
        r.value ≠ none ∧ (k = [] ∧ (c :: s).length < 254 →
          ∃ path, IsPath (path ++ lit "/") r.key ∧
            Like.like (deltreePrefix (c :: s) k) path = true)) := by
    constructor
    · rintro ⟨k', hk', hall⟩
      obtain rfl := Option.some.inj hk'
      exact hall
    · exact fun hall => ⟨k, rfl, hall⟩
  rw [hkey]
  refine forall₂_congr fun r _ => and_congr_right fun _ => ?_
  rw [selects_iff]
  refine imp_congr_right fun hpath => and_congr_right fun _ => ?_
  rw [treePrefix_eq]
  by_cases hk : k = [] ∧ (c :: s).length < 254
  · rw [if_pos hk, selects_slash_iff]
    exact ⟨fun h => h hk, fun h _ => h⟩
  · rw [if_neg hk]
    exact ⟨fun _ => selects_iff.mpr hpath, fun _ h => absurd h hk⟩

/-- With SQLite's `LIKE`, `spd_db_gettree` returns what `spd_db_deltree` deletes exactly in the
    cases of `ReadsTree`. -/
theorem gettree_agrees_iff (db : Db) (table key : Option CString) :
    Agree Like.like db table key ↔ ReadsTree db table key := by
  by_cases htable : spdStrlenZero table = true
  · rw [ReadsTree, if_pos htable, Agree, gettree_all htable, deltree_all htable]
    constructor
    · rintro ⟨entries, db', n, t', hget, hdel, hmem, -⟩
      obtain rfl := (Prod.mk.inj (Outcome.ok.inj hdel)).2
      cases hbound : db.gettreeBound with
      | true =>
        rw [hbound] at hget
        exact absurd hget nofun
      | false =>
        rw [hbound] at hget
        obtain rfl := (Prod.mk.inj (Outcome.ok.inj hget)).1
        refine ⟨List.eq_nil_iff_forall_not_mem.mpr ?_, rfl⟩
        intro r hr
        exact absurd ((hmem r.key).mpr (dropped_iff.mpr ⟨r, hr, rfl, rfl⟩)) List.not_mem_nil
    · rintro ⟨hrows, hbound⟩
      rw [hbound]
      refine ⟨[], db, _, _, rfl, rfl, ?_, List.Pairwise.nil⟩
      intro k
      rw [hrows]
      simp
  · cases table with
    | none => exact absurd rfl htable
    | some table =>
      have hne : table ≠ [] := by
        rintro rfl
        exact htable rfl
      rw [agree_family hne]
      constructor
      · rintro ⟨k, rfl, hall⟩
        exact (readsTree_iff hne).mpr (same_iff.mp hall)
      · intro h
        cases key with
        | none =>
          rw [ReadsTree, if_neg htable] at h
          obtain ⟨k, hk, -⟩ := h
          cases hk
        | some k => exact ⟨k, rfl, same_iff.mpr ((readsTree_iff hne).mp h)⟩

/-- Records in two families, one of them without a value. -/
def twoFamilies : Db :=
  ⟨⟨[⟨lit "/t/k/b", some (lit "2")⟩, ⟨lit "/u/k", none⟩, ⟨lit "/t/k", some (lit "1")⟩,
    ⟨lit "/v//x", some (lit "3")⟩], by decide +kernel⟩, false⟩

/-- The two agree on the key `k` of the family `t`, and on the family `v`, whose record has two
    slashes; not on the record without a value, nor on the family `t`. -/
theorem gettree_agrees_iff_twoFamilies :
    Agree Like.like twoFamilies (some (lit "t")) (some (lit "k")) ∧
    Agree Like.like twoFamilies (some (lit "v")) (some []) ∧
    ¬ Agree Like.like twoFamilies (some (lit "u")) (some (lit "k")) ∧
    ¬ Agree Like.like twoFamilies (some (lit "t")) (some []) := by
  simp only [gettree_agrees_iff]
  refine ⟨(readsTree_iff ?_).mpr ?_, (readsTree_iff ?_).mpr ?_,
    fun h => absurd ((readsTree_iff ?_).mp h) ?_, fun h => absurd ((readsTree_iff ?_).mp h) ?_⟩
  all_goals decide +kernel

/-- One record, in the family `t`, and statements not used yet. -/
def oneRecord : Db := ⟨⟨[⟨lit "/t/k", some (lit "v")⟩], by decide⟩, false⟩

/-- Nothing is returned for the family and for the whole database, and the record is deleted. -/
theorem gettree_differs :
    spdDbGettree Like.like oneRecord (some (lit "t")) (some []) =
        .ok ([], { oneRecord with gettreeBound := true }) ∧
      spdDbGettree Like.like oneRecord none none = .ok ([], oneRecord) ∧
      ¬ Agree Like.like oneRecord (some (lit "t")) (some []) ∧
      ¬ Agree Like.like oneRecord none none := by
  have hselect : selectWhere Like.like oneRecord.table (treePrefix (lit "t") []) = .ok [] := by
    decide +kernel
  have hget : spdDbGettree Like.like oneRecord (some (lit "t")) (some []) =
      .ok ([], { oneRecord with gettreeBound := true }) := by
    rw [gettree_family (by decide)]
    simp only [hselect, ok_bind, orderByKey, List.mergeSort_nil, collect]
  have hall : spdDbGettree Like.like oneRecord none none = .ok ([], oneRecord) := gettree_all rfl
  have hdrop : ∀ keep, keep ⟨lit "/t/k", some (lit "v")⟩ = false →
      ∃ r ∈ oneRecord.table.rows, r.key = lit "/t/k" ∧ r ∉ (oneRecord.table.restrict keep).rows := by
    intro keep hkeep
    exact dropped_iff.mpr ⟨_, List.mem_singleton_self _, rfl, hkeep⟩
  refine ⟨hget, hall, ?_, ?_⟩
  · rintro ⟨entries, db', n, t', hget', hdel, hkeys, -⟩
    obtain rfl := (Prod.mk.inj (Outcome.ok.inj (hget.symm.trans hget'))).1
    have hselect : selectWhere Like.like oneRecord.table (deltreePrefix (lit "t") []) =
        .ok oneRecord.table.rows := by decide +kernel
    rw [deltree_family (by decide), hselect, ok_bind] at hdel
    obtain rfl := (Prod.mk.inj (Outcome.ok.inj hdel)).2
    have hkeep : (!selects Like.like (deltreePrefix (lit "t") [])
        ⟨lit "/t/k", some (lit "v")⟩) = false := by decide +kernel
    have hlost := hdrop (fun r => !selects Like.like (deltreePrefix (lit "t") []) r) hkeep
    exact List.not_mem_nil ((hkeys (lit "/t/k")).mpr hlost)
  · rintro ⟨entries, db', n, t', hget', hdel, hkeys, -⟩
    obtain rfl := (Prod.mk.inj (Outcome.ok.inj (hall.symm.trans hget'))).1
    rw [deltree_all rfl] at hdel
    obtain rfl := (Prod.mk.inj (Outcome.ok.inj hdel)).2
    exact List.not_mem_nil ((hkeys (lit "/t/k")).mpr (hdrop (fun _ => false) rfl))

end Spider.InternalDb
