import Spider.Strings

/-!
# The table of the internal database

`spd_db` has the columns `key`, its primary key, and `value`. `spd_db_put`,
`spd_db_del` and `spd_db_get` form the key `/table/key` in a buffer of 256
bytes and bind as many bytes of the buffer as `snprintf` says the key has.
-/

namespace Spider.InternalDb

open Lib Outcome CString Strings

/-- A record; a null value is `none`. -/
structure Row where
  key : CString
  value : Option CString
  deriving DecidableEq, Repr

/-- The content of `spd_db`. -/
structure Table where
  rows : List Row
  primaryKey : (rows.map Row.key).Nodup

/-- The records that `keep` holds of. -/
def Table.restrict (t : Table) (keep : Row → Bool) : Table where
  rows := t.rows.filter keep
  primaryKey := t.primaryKey.sublist (List.filter_sublist.map _)

/-- `DELETE FROM spd_db WHERE key=?`. -/
def Table.delete (t : Table) (key : CString) : Table := t.restrict fun r => r.key != key

/-- `INSERT OR REPLACE INTO spd_db (key, value) VALUES (?, ?)`. -/
def Table.replace (t : Table) (r : Row) : Table where
  rows := r :: (t.delete r.key).rows
  primaryKey := by
    refine List.nodup_cons.mpr ⟨?_, (t.delete r.key).primaryKey⟩
    intro hmem
    obtain ⟨r', hr', heq⟩ := List.mem_map.mp hmem
    exact bne_iff_ne.mp (List.mem_filter.mp hr').2 heq

/-- `SELECT value FROM spd_db WHERE key =?`. -/
def Table.find (t : Table) (key : CString) : Option Row := t.rows.find? fun r => r.key == key

/-- The text of the format `"/%s/%s"`. -/
def fullkey (table key : CString) : CString := lit "/" ++ table ++ lit "/" ++ key

/-- `sqlite3_bind_text(stmt, 1, buf, len, SQLITE_STATIC)`: the bytes bound, when `buf` holds the
    string `buf` and its null byte and nothing known behind it. -/
def bindText (buf : CString) (len : Nat) : Outcome CString :=
  if len ≤ buf.length + 1 then .ok ((buf ++ [0]).take len) else .fault

/-- `strncpy(buf, src, len)`. -/
def strncpy (src : CString) (len : Nat) : List UInt8 :=
  src.take len ++ List.replicate (len - src.length) 0

/-- The test of `spd_db_get` on the lengths (`internal_db.c:184`). -/
def getRefuses (table key : CString) : Bool := decide (table.length + key.length + 2 > 256 - 1)

/-- The test of `spd_db_put` (`internal_db.c:217`). -/
def putRefuses (table key : CString) : Bool := decide (table.length + key.length + 2 > 256)

/-- The test of `spd_db_del` (`internal_db.c:251`). -/
def delRefuses (table key : CString) : Bool := decide (table.length + key.length + 2 > 256)

/-- `spd_db_get` (`internal_db.c:177-209`): the result, and the bytes of `buf` it writes. -/
def spdDbGet (t : Table) (table key : CString) (len : Nat) : Outcome (Int × Option (List UInt8)) :=
  if getRefuses table key then .ok (-1, none)
  else do
    let (buf, fullkeyLen) := snprintf 256 (fullkey table key)
    let bound ← bindText buf fullkeyLen
    match t.find bound with
    | none => .ok (-1, none)
    | some r =>
      match r.value with
      | none => .ok (-1, none)
      | some result => .ok (0, some (strncpy (cut result) len))

/-- `spd_db_put` (`internal_db.c:211-243`). With `done` SQLite binds the parameters and executes
    the statement, without it one of the calls fails and the table stays as it is. -/
def spdDbPut (t : Table) (table key : CString) (buf : Option CString) (done : Bool) :
    Outcome (Int × Table) :=
  if putRefuses table key then .ok (-1, t)
  else do
    let (full, fullkeyLen) := snprintf 256 (fullkey table key)
    let bound ← bindText full fullkeyLen
    if done then .ok (0, t.replace ⟨bound, buf⟩) else .ok (-1, t)

/-- `spd_db_del` (`internal_db.c:245-273`). -/
def spdDbDel (t : Table) (table key : CString) (done : Bool) : Outcome (Int × Table) :=
  if delRefuses table key then .ok (-1, t)
  else do
    let (full, fullkeyLen) := snprintf 256 (fullkey table key)
    let bound ← bindText full fullkeyLen
    if done then .ok (0, t.delete bound) else .ok (-1, t)

/-! ## The statements on the table -/

theorem find_delete_of_ne {t : Table} {k k' : CString} (h : k' ≠ k) :
    (t.delete k).find k' = t.find k' := by
  rw [Table.find, Table.find, Table.delete, Table.restrict, List.find?_filter]
  congr 1
  funext r
  by_cases hr : r.key = k'
  · simp [hr, h]
  · simp [hr]

theorem find_replace_self (t : Table) (r : Row) : (t.replace r).find r.key = some r :=
  List.find?_cons_of_pos (beq_self_eq_true r.key)

theorem find_replace_of_ne {t : Table} {r : Row} {k : CString} (h : k ≠ r.key) :
    (t.replace r).find k = t.find k := by
  have hne : ¬ (r.key == k) = true := fun he => h (beq_iff_eq.mp he).symm
  calc (t.replace r).find k
      = (t.delete r.key).find k := List.find?_cons_of_neg hne
    _ = t.find k := find_delete_of_ne h

/-! ## The keys bound -/

/-- The bytes that the calls bind for `table` and `key`. A key of 256 bytes loses its last one
    to the null byte of the buffer, and that null byte is bound. -/
def bound (table key : CString) : CString :=
  if (fullkey table key).length ≤ 255 then fullkey table key
  else (fullkey table key).take 255 ++ [0]

theorem length_fullkey (table key : CString) :
    (fullkey table key).length = table.length + key.length + 2 := by
  simp only [fullkey, List.length_append]
  show 1 + table.length + 1 + key.length = _
  omega

theorem bindText_fullkey {table key : CString} (h : table.length + key.length + 2 ≤ 256) :
    bindText (snprintf 256 (fullkey table key)).1 (snprintf 256 (fullkey table key)).2 =
      .ok (bound table key) := by
  rw [← length_fullkey] at h
  show bindText ((fullkey table key).take 255) (fullkey table key).length = _
  rw [bindText, bound]
  by_cases hle : (fullkey table key).length ≤ 255
  · rw [if_pos hle, List.take_of_length_le hle, if_pos (Nat.le_succ _), List.take_left]
  · have hlen : ((fullkey table key).take 255).length = 255 := by
      rw [List.length_take]
      omega
    rw [if_neg hle, hlen, if_pos h, List.take_of_length_le]
    rw [List.length_append, hlen]
    show 255 + 1 ≤ _
    omega

/-- A table name and a key: the name has no slash. -/
structure Names (table key : CString) : Prop where
  slash : ch '/' ∉ table
  table : NoNul table
  key : NoNul key

theorem noNul_fullkey {table key : CString} (h : Names table key) :
    NoNul (fullkey table key) := by
  intro c hc
  simp only [fullkey, List.mem_append] at hc
  rcases hc with ((hc | hc) | hc) | hc
  · exact List.mem_singleton.mp hc ▸ by decide
  · exact h.table c hc
  · exact List.mem_singleton.mp hc ▸ by decide
  · exact h.key c hc

/-- A name without a slash ends at the second slash of the key. -/
theorem fullkey_inj {table key table' key' : CString} (h : ch '/' ∉ table) (h' : ch '/' ∉ table')
    (heq : fullkey table key = fullkey table' key') : table = table' ∧ key = key' := by
  have hrest : table ++ ch '/' :: key = table' ++ ch '/' :: key' := by
    simpa [fullkey, lit] using heq
  clear heq
  induction table generalizing table' with
  | nil =>
    cases table' with
    | nil => exact ⟨rfl, (List.cons.inj hrest).2⟩
    | cons c table' =>
      rw [List.nil_append, List.cons_append] at hrest
      have hc := (List.cons.inj hrest).1
      exact absurd (hc ▸ List.mem_cons_self) h'
  | cons c table ih =>
    cases table' with
    | nil =>
      rw [List.nil_append, List.cons_append] at hrest
      have hc := (List.cons.inj hrest).1
      exact absurd (hc ▸ List.mem_cons_self) h
    | cons c' table' =>
      rw [List.cons_append, List.cons_append] at hrest
      obtain ⟨hc, hrest⟩ := List.cons.inj hrest
      have hih := ih (fun hmem => h (List.mem_cons_of_mem c hmem))
        (fun hmem => h' (List.mem_cons_of_mem c' hmem)) hrest
      exact ⟨by rw [hc, hih.1], hih.2⟩

/-- No other pair has the bound bytes of a pair that `spd_db_get` accepts. -/
theorem bound_inj {table key table' key' : CString} (h : Names table key)
    (h' : Names table' key') (hlen : table.length + key.length + 2 ≤ 255)
    (heq : bound table key = bound table' key') : table = table' ∧ key = key' := by
  rw [← length_fullkey] at hlen
  rw [bound, if_pos hlen, bound] at heq
  split at heq
  · exact fullkey_inj h.slash h'.slash heq
  · have hmem : (0 : UInt8) ∈ fullkey table key := by
      rw [heq]
      exact List.mem_append_right _ (List.mem_singleton_self 0)
    exact absurd rfl (noNul_fullkey h 0 hmem)

/-! ## What the calls do -/

section Calls

variable {t t' : Table} {table key : CString}

theorem put_eq (t : Table) (table key : CString) (value : Option CString) (done : Bool) :
    spdDbPut t table key value done =
      .ok (if putRefuses table key ∨ done = false then (-1, t)
        else (0, t.replace ⟨bound table key, value⟩)) := by
  unfold spdDbPut
  cases h : putRefuses table key with
  | true => rfl
  | false =>
    rw [putRefuses, decide_eq_false_iff_not] at h
    have hbind := bindText_fullkey (Nat.not_lt.mp h)
    dsimp only at hbind ⊢
    rw [if_neg Bool.false_ne_true, hbind, ok_bind]
    cases done <;> rfl

theorem del_eq (t : Table) (table key : CString) (done : Bool) :
    spdDbDel t table key done =
      .ok (if delRefuses table key ∨ done = false then (-1, t)
        else (0, t.delete (bound table key))) := by
  unfold spdDbDel
  cases h : delRefuses table key with
  | true => rfl
  | false =>
    rw [delRefuses, decide_eq_false_iff_not] at h
    have hbind := bindText_fullkey (Nat.not_lt.mp h)
    dsimp only at hbind ⊢
    rw [if_neg Bool.false_ne_true, hbind, ok_bind]
    cases done <;> rfl

/-- What `spd_db_get` makes of the record found. -/
def answer (found : Option Row) (len : Nat) : Int × Option (List UInt8) :=
  match found.bind Row.value with
  | none => (-1, none)
  | some value => (0, some (strncpy (cut value) len))

theorem get_eq (t : Table) (table key : CString) (len : Nat) :
    spdDbGet t table key len =
      .ok (if getRefuses table key then (-1, none) else answer (t.find (bound table key)) len) := by
  unfold spdDbGet
  cases h : getRefuses table key with
  | true => rfl
  | false =>
    rw [getRefuses, decide_eq_false_iff_not] at h
    have hbind := bindText_fullkey (Nat.le_succ_of_le (Nat.not_lt.mp h))
    dsimp only at hbind ⊢
    rw [if_neg Bool.false_ne_true, hbind, ok_bind, if_neg Bool.false_ne_true]
    cases hfind : t.find (bound table key) with
    | none => rfl
    | some r => cases hvalue : r.value <;> simp [answer, hvalue]

end Calls

/-! ## Sequences of calls -/

/-- A call. -/
inductive Op where
  | put (table key value : CString) (done : Bool)
  | del (table key : CString) (done : Bool)
  | get (table key : CString) (len : Nat)

/-- The result of a call, and the table after it. -/
def perform (t : Table) : Op → Outcome (Int × Table)
  | .put table key value done => spdDbPut t table key (some value) done
  | .del table key done => spdDbDel t table key done
  | .get table key len => do
    let (res, _) ← spdDbGet t table key len
    .ok (res, t)

/-- The results of the calls in order, and the table after them. -/
def trace : Table → List Op → Outcome (List Int × Table)
  | t, [] => .ok ([], t)
  | t, o :: os => do
    let (res, t) ← perform t o
    let (rs, t) ← trace t os
    .ok (res :: rs, t)

/-- The names the call is given. -/
def Op.Named : Op → Prop
  | .put table key _ _ | .del table key _ | .get table key _ => Names table key

/-- The call is a put or a del on the pair. -/
def Op.Writes (table key : CString) : Op → Prop
  | .put table' key' _ _ | .del table' key' _ => table' = table ∧ key' = key
  | .get _ _ _ => False

/-- The laws of a map at the pair `table`, `key`. -/
structure MapLaws (table key : CString) : Prop where
  /-- What was put is got as long as no put or del on the pair has succeeded since. -/
  get_put : ∀ (t t1 : Table) (value : CString) (done : Bool), NoNul value →
    spdDbPut t table key (some value) done = .ok (0, t1) → ∀ ops : List Op,
    (∀ o ∈ ops, o.Named) → ∃ rs t2, trace t1 ops = .ok (rs, t2) ∧
      ((∀ p ∈ ops.zip rs, p.2 = 0 → ¬ p.1.Writes table key) → ∀ len, value.length < len →
        ∃ buf, spdDbGet t2 table key len = .ok (0, some buf) ∧ cut buf = value)
  /-- A put or del on the pair changes no other pair. -/
  frame : ∀ (t t1 : Table) (o : Op) (res : Int), o.Writes table key →
    perform t o = .ok (res, t1) → ∀ table' key', Names table' key' →
    ¬ (table' = table ∧ key' = key) → ∀ len, spdDbGet t1 table' key' len = spdDbGet t table' key' len
  /-- The three calls accept the pair or refuse it alike. -/
  accept : getRefuses table key = putRefuses table key ∧
    delRefuses table key = putRefuses table key

section Laws

variable {t t1 : Table} {table key : CString}

/-- Writing another pair leaves the record of an accepted pair alone. -/
theorem find_write {table' key' : CString} (h : Names table key) (h' : Names table' key')
    (hlen : table.length + key.length + 2 ≤ 255) (hne : ¬ (table' = table ∧ key' = key)) :
    bound table key ≠ bound table' key' := by
  intro heq
  have hsame := bound_inj h h' hlen heq
  exact hne ⟨hsame.1.symm, hsame.2.symm⟩

/-- One step: only a put or del on the pair that succeeds changes its record. -/
theorem find_perform (h : Names table key) (hlen : table.length + key.length + 2 ≤ 255) {o : Op}
    {res : Int} (ho : o.Named) (hstep : perform t o = .ok (res, t1))
    (hw : res = 0 → ¬ o.Writes table key) :
    t1.find (bound table key) = t.find (bound table key) := by
  cases o with
  | put table' key' value done =>
    rw [perform, put_eq] at hstep
    have hres := Outcome.ok.inj hstep
    split at hres
    · rw [← (Prod.mk.inj hres).2]
    · obtain ⟨rfl, rfl⟩ := Prod.mk.inj hres
      exact find_replace_of_ne (find_write h ho hlen (hw rfl))
  | del table' key' done =>
    rw [perform, del_eq] at hstep
    have hres := Outcome.ok.inj hstep
    split at hres
    · rw [← (Prod.mk.inj hres).2]
    · obtain ⟨rfl, rfl⟩ := Prod.mk.inj hres
      exact find_delete_of_ne (find_write h ho hlen (hw rfl))
  | get table' key' len =>
    rw [perform, get_eq, ok_bind] at hstep
    rw [← (Prod.mk.inj (Outcome.ok.inj hstep)).2]

theorem perform_ok (t : Table) (o : Op) : ∃ res t1, perform t o = .ok (res, t1) := by
  cases o with
  | put table key value done => exact ⟨_, _, put_eq t table key (some value) done⟩
  | del table key done => exact ⟨_, _, del_eq t table key done⟩
  | get table key len =>
    rw [perform, get_eq, ok_bind]
    exact ⟨_, _, rfl⟩

/-- A whole sequence: the record stays as long as no put or del on the pair succeeds. -/
theorem find_trace (h : Names table key) (hlen : table.length + key.length + 2 ≤ 255)
    (ops : List Op) (ho : ∀ o ∈ ops, o.Named) (t : Table) :
    ∃ rs t2, trace t ops = .ok (rs, t2) ∧
      ((∀ p ∈ ops.zip rs, p.2 = 0 → ¬ p.1.Writes table key) →
        t2.find (bound table key) = t.find (bound table key)) := by
  induction ops generalizing t with
  | nil => exact ⟨[], t, rfl, fun _ => rfl⟩
  | cons o ops ih =>
    obtain ⟨res, t1, hstep⟩ := perform_ok t o
    obtain ⟨rs, t2, htrace, hfind⟩ := ih (fun o' h' => ho o' (List.mem_cons_of_mem o h')) t1
    refine ⟨res :: rs, t2, ?_, ?_⟩
    · rw [trace, hstep, ok_bind]
      dsimp only
      rw [htrace]
      rfl
    · intro hw
      rw [List.zip_cons_cons] at hw
      have hfirst := hw (o, res) List.mem_cons_self
      have hrest := hfind (fun p hp => hw p (List.mem_cons_of_mem _ hp))
      exact hrest.trans (find_perform h hlen (ho o List.mem_cons_self) hstep hfirst)

/-- A buffer longer than the value holds the value. -/
theorem cut_strncpy {value : CString} (h : NoNul value) {len : Nat} (hlen : value.length < len) :
    cut (strncpy (cut value) len) = value := by
  rw [cut_of_noNul h, strncpy, List.take_of_length_le (Nat.le_of_lt hlen)]
  exact cut_append_replicate h _

/-- The internal database is a map at every pair except those whose lengths add up to 254:
    such a key has 256 bytes, which `spd_db_put` and `spd_db_del` accept and `spd_db_get`
    refuses. -/
theorem mapLaws_iff {table key : CString} (h : Names table key) :
    MapLaws table key ↔ table.length + key.length ≠ 254 := by
  constructor
  · intro hlaws hlen
    have haccept := hlaws.accept.1
    rw [getRefuses, putRefuses, hlen] at haccept
    exact absurd haccept (by decide)
  · intro hlen
    refine ⟨?_, ?_, ?_, rfl⟩
    · intro t t1 value done hvalue hput ops hops
      rw [put_eq] at hput
      have hres := Outcome.ok.inj hput
      split at hres
      next => exact absurd (Prod.mk.inj hres).1 (by decide)
      next hdone =>
        have hput := (not_or.mp hdone).1
        rw [putRefuses, decide_eq_true_eq] at hput
        have hget : getRefuses table key = false := by
          rw [getRefuses, decide_eq_false_iff_not]
          omega
        have hle : table.length + key.length + 2 ≤ 255 := by omega
        obtain ⟨rs, t2, htrace, hfind⟩ := find_trace h hle ops hops t1
        refine ⟨rs, t2, htrace, fun hw len hlong => ?_⟩
        have hstored : t2.find (bound table key) = some ⟨bound table key, some value⟩ := by
          rw [hfind hw, ← (Prod.mk.inj hres).2]
          exact find_replace_self t _
        rw [get_eq, hget, hstored]
        exact ⟨_, rfl, cut_strncpy hvalue hlong⟩
    · intro t t1 o res hwrites hstep table' key' h' hne len
      rw [get_eq, get_eq]
      cases hget : getRefuses table' key' with
      | true => rfl
      | false =>
        rw [getRefuses, decide_eq_false_iff_not] at hget
        have ho : o.Named := by
          cases o with
          | put _ _ _ _ => exact hwrites.1 ▸ hwrites.2 ▸ h
          | del _ _ _ => exact hwrites.1 ▸ hwrites.2 ▸ h
          | get _ _ _ => exact hwrites.elim
        have hother : ¬ o.Writes table' key' := by
          intro hw
          cases o with
          | put _ _ _ _ => exact hne ⟨hw.1.symm.trans hwrites.1, hw.2.symm.trans hwrites.2⟩
          | del _ _ _ => exact hne ⟨hw.1.symm.trans hwrites.1, hw.2.symm.trans hwrites.2⟩
          | get _ _ _ => exact hw
        rw [find_perform h' (Nat.not_lt.mp hget) ho hstep (fun _ => hother)]
    · rw [getRefuses, putRefuses, decide_eq_decide]
      omega

end Laws

/-- A key that fills the buffer: it is put, and cannot be got. -/
def longKey : CString := List.replicate 253 (ch 'k')

theorem mapLaws_longKey : Names (lit "t") longKey ∧
    (∀ t value, spdDbPut t (lit "t") longKey (some value) true =
      .ok (0, t.replace ⟨bound (lit "t") longKey, some value⟩)) ∧
    (∀ t len, spdDbGet t (lit "t") longKey len = .ok (-1, none)) ∧
    ¬ MapLaws (lit "t") longKey := by
  have hput : putRefuses (lit "t") longKey = false := by
    rw [putRefuses, longKey, List.length_replicate]
    decide
  have hget : getRefuses (lit "t") longKey = true := by
    rw [getRefuses, longKey, List.length_replicate]
    decide
  refine ⟨⟨by decide +kernel, by decide +kernel, ?_⟩, ?_, ?_, ?_⟩
  · intro c hc
    rw [(List.mem_replicate.mp hc).2]
    decide
  · intro t value
    rw [put_eq, hput]
    rfl
  · intro t len
    rw [get_eq, hget]
    rfl
  · intro hlaws
    have haccept := hlaws.accept.1
    rw [hget, hput] at haccept
    exact absurd haccept (by decide)

theorem mapLaws_short : MapLaws (lit "family") (lit "key") :=
  (mapLaws_iff ⟨by decide +kernel, by decide +kernel, by decide +kernel⟩).mpr (by decide)

end Spider.InternalDb
