import Spider.ObjModel.Link

/-!
# The exact effect of single calls

Where `RefCount` and `Link` say what a call keeps, the lemmas here say what it
computes: the store after `obj_ref`, `obj_link`, `obj_find` and `obj_unlink`, field by
field. A search is followed up to the first entry that matches; what the calls append
to the trace is left open.
-/

namespace Spider.ObjModel

open Lib Outcome

variable {α : Type} {m : Machine} {st : State α} {a c o e : Addr} {p q : Obj α}
  {cont : ObjContainer α} {v : Int32}

theorem internalObj_of_get (ha : a ≠ NULL) (hp : st.objs.get a = some p) :
    internalObj st a = .ok (some p) := by
  rw [internalObj, if_neg ha, hp]

/-- `obj_ref(a, 1)` overwrites the counter. -/
theorem objRef_inc_eq (ha : a ≠ NULL) (hp : st.objs.get a = some p)
    (hv : spdAtomicFetchaddInt m p.refCounter 1 = .ok v) (hpos : ¬ v ≤ 0) :
    objRef m st a 1 = .ok (p.refCounter, st.setObj a { p with refCounter := v }) := by
  have hne : ¬ (1 : Int32) = 0 := by decide
  simp only [objRef, internalObjRef, internalObj_of_get ha hp, ok_bind, if_neg hne, hv, if_neg hpos]

/-- `obj_ref(a, -1)` overwrites the counter while references remain. -/
theorem objRef_dec_eq (ha : a ≠ NULL) (hp : st.objs.get a = some p)
    (hv : spdAtomicFetchaddInt m p.refCounter (-1) = .ok v) (hpos : ¬ v ≤ 0) :
    objRef m st a (-1) = .ok (p.refCounter, st.setObj a { p with refCounter := v }) := by
  have hne : ¬ (-1 : Int32) = 0 := by decide
  simp only [objRef, internalObjRef, internalObj_of_get ha hp, ok_bind, if_neg hne, hv, if_neg hpos]

/-- `obj_ref(a, -1)` runs the destructor and frees the object when none remain. -/
theorem objRef_last_eq (ha : a ≠ NULL) (hp : st.objs.get a = some p)
    (hv : spdAtomicFetchaddInt m p.refCounter (-1) = .ok v) (hle : v ≤ 0) {st' : State α}
    (hd : runDestructor (internalObjRef m st.objs.dom.card) m
      ((st.setObj a { p with refCounter := v }).emit (.destruct p.serial)) a p.destructorFn
        = .ok st') :
    objRef m st a (-1) = .ok (p.refCounter, st'.freeObj a) := by
  have hne : ¬ (-1 : Int32) = 0 := by decide
  simp only [objRef, internalObjRef, internalObj_of_get ha hp, ok_bind, if_neg hne, hv,
    if_pos hle, hd]

/-- `obj_link` puts a new entry at the end of its bucket and raises the counter of the
    object. -/
theorem objLink_eq (flags : SearchFlags) (hc : c ≠ NULL) (ho : o ≠ NULL) (hp : st.objs.get c = some p)
    (hu : p.userData = .container cont) (hq : st.objs.get o = some q) (hne : o ≠ c)
    (he : m.calloc st.callocs cont.entryAddrs = some e) (henull : e ≠ NULL)
    (hf : flags.notAndNolock = false) {ptr : Ptr α} (hptr : externalObj st o = .ok ptr)
    {i : Int32} {k : Nat} (hi : linkIndex cont ptr = .ok i)
    (hk : bucketIndex cont i.toInt = .ok k) {version elements : Int32}
    (hver : spdAtomicFetchaddInt m cont.version 1 = .ok version)
    (hel : spdAtomicFetchaddInt m cont.elements 1 = .ok elements)
    (hv : spdAtomicFetchaddInt m q.refCounter 1 = .ok v) (hpos : ¬ v ≤ 0) :
    objLink m st c o flags = .ok (e, { st with
      objs := (st.objs.set c { p with userData := .container { cont.insertTail k
        ⟨e, cont.version, o⟩ with version := version, elements := elements } }).set o
          { q with refCounter := v }
      callocs := st.callocs + 1
      trace := st.trace ++ [.bucketWrite c] }) := by
  have hcalloc : spdCalloc m st cont.entryAddrs = (e, { st with callocs := st.callocs + 1 }) := by
    rw [spdCalloc, he, Option.getD_some]
  have hp1 : ({ st with callocs := st.callocs + 1 } : State α).objs.get c = some p := hp
  have hptr1 : externalObj ({ st with callocs := st.callocs + 1 } : State α) o = .ok ptr := hptr
  have hel' : spdAtomicFetchaddInt m (cont.insertTail k ⟨e, cont.version, o⟩).elements 1
      = .ok elements := hel
  have hlink : internalObjLink m st c o flags = .ok (e, (setContainer
      { st with callocs := st.callocs + 1 } c p { cont.insertTail k ⟨e, cont.version, o⟩ with
        version := version, elements := elements }).emit (.bucketWrite c)) := by
    simp only [internalObjLink, internalObj_of_get ho hq, internalObj_of_get hc hp, ok_bind,
      containerAt_of_get hp hu, hcalloc, if_neg henull, hptr1, hf, lockIf, Bool.false_eq_true,
      if_false, hi, hk, hver, hel', containerAt_of_get hp1 hu]
  have hq1 : ((setContainer { st with callocs := st.callocs + 1 } c p
      { cont.insertTail k ⟨e, cont.version, o⟩ with
        version := version, elements := elements }).emit (.bucketWrite c)).objs.get o = some q :=
    (Heap.get_set_of_ne _ _ hne).trans hq
  simp only [objLink, Open.objLink, hlink, ok_bind, if_neg henull, objRef_inc_eq ho hq1 hv hpos,
    unlockIf, hf, Bool.false_eq_true, if_false]
  rfl

theorem spdAtomicFetchaddInt_inc (m : Machine) {x : Int32} (h : 0 ≤ x.toInt)
    (hlt : x.toInt + 1 < 2 ^ 31) : spdAtomicFetchaddInt m x 1 = .ok (x + 1) ∧ ¬ x + 1 ≤ 0 := by
  have hmax : x ≠ Int32.maxValue := by
    rintro rfl
    exact absurd hlt (by decide)
  have hadd := CInt.toInt_add_one hmax
  constructor
  · rw [spdAtomicFetchaddInt]
    cases m.counters with
    | wrap => rfl
    | checked => exact if_pos hadd
  · rw [Int32.le_iff_toInt_le, hadd]
    simp only [Int32.toInt_zero]
    omega

/-! ## The search for one object -/

/-- The store with more events. -/
def State.log (st : State α) (t : List Event) : State α := { st with trace := st.trace ++ t }

@[simp] theorem State.objs_log (st : State α) (t : List Event) : (st.log t).objs = st.objs := rfl

@[simp] theorem State.log_log (st : State α) (t t' : List Event) :
    (st.log t).log t' = st.log (t ++ t') := by
  simp [State.log]

theorem State.emit_eq_log (st : State α) (e : Event) : st.emit e = st.log [e] := rfl

@[simp] theorem State.log_nil (st : State α) : st.log [] = st := by
  simp [State.log]

@[simp] theorem externalObj_log (st : State α) (t : List Event) (a : Addr) :
    externalObj (st.log t) a = externalObj st a := rfl

@[simp] theorem containerAt_log (st : State α) (t : List Event) (a : Addr) :
    containerAt (st.log t) a = containerAt st a := rfl

/-- The callback reports a match (`CMP_MATCH`). -/
def hit (f : Ptr α → Int32) (ptr : BucketEntry → Ptr α) (e : BucketEntry) : Bool :=
  f (ptr e) &&& CMP_MATCH != 0

/-- What the search is run with: `cb` computes `f`, which stops only at a match, on the
    objects `ptr` of the entries `es`. -/
structure Searchable (st : State α) (cb : Callback α) (f : Ptr α → Int32)
    (ptr : BucketEntry → Ptr α) (es : List BucketEntry) : Prop where
  pure : ∀ st p, cb st p = .ok (f p, st)
  stop : ∀ e ∈ es, (CMP_MATCH ||| CMP_STOP) &&& f (ptr e) ≠ CMP_STOP
  live : ∀ e ∈ es, externalObj st e.pobj = .ok (ptr e)

section Search

variable {cb : Callback α} {f : Ptr α → Int32} {ptr : BucketEntry → Ptr α}
  {es pre post : List BucketEntry} {cur : BucketEntry} {flags : SearchFlags}
  {ref : State α → Addr → Int32 → Outcome (Int32 × State α)} {multi : Option Addr}

theorem Searchable.mono (h : Searchable st cb f ptr es) {es' : List BucketEntry}
    (hsub : ∀ e ∈ es', e ∈ es) : Searchable st cb f ptr es' :=
  ⟨h.pure, fun e he => h.stop e (hsub e he), fun e he => h.live e (hsub e he)⟩

theorem Searchable.log (h : Searchable st cb f ptr es) (t : List Event) :
    Searchable (st.log t) cb f ptr es := ⟨h.pure, h.stop, h.live⟩

/-- No match and no stop: the traversal goes on. -/
theorem match_eq_zero {r : Int32} (hstop : (CMP_MATCH ||| CMP_STOP) &&& r ≠ CMP_STOP)
    (hmatch : (r &&& CMP_MATCH != 0) = false) : (CMP_MATCH ||| CMP_STOP) &&& r = 0 := by
  have hlow : ∀ n : Nat, 3 &&& n = n % 4 := fun n => by
    rw [Nat.and_comm]
    exact Nat.and_two_pow_sub_one_eq_mod n 2
  have hmatch' := congrArg (fun x => x.toBitVec.toNat) (bne_eq_false_iff_eq.mp hmatch)
  have hstop' : ¬ ((CMP_MATCH ||| CMP_STOP) &&& r).toBitVec.toNat = 2 := fun h =>
    hstop (Int32.toBitVec_inj.mp (BitVec.eq_of_toNat_eq h))
  apply Int32.toBitVec_inj.mp
  apply BitVec.eq_of_toNat_eq
  simp only [Int32.toBitVec_and, BitVec.toNat_and] at *
  -- the flags are the two lowest bits
  change _ &&& 1 = 0 at hmatch'
  change ¬ 3 &&& _ = 2 at hstop'
  change 3 &&& _ = 0
  rw [Nat.and_one_is_mod] at hmatch'
  rw [hlow] at hstop' ⊢
  omega

theorem match_ne_zero {r : Int32} (hmatch : (r &&& CMP_MATCH != 0) = true) :
    (CMP_MATCH ||| CMP_STOP) &&& r ≠ 0 := by
  intro h
  have hand : r &&& CMP_MATCH = 0 := by
    have hand' := congrArg (· &&& CMP_MATCH) h
    simp only [Int32.zero_and] at hand'
    rw [← hand', Int32.and_comm _ r, Int32.and_assoc]
    rfl
  simp [hand] at hmatch

variable (m c flags ref multi) in
/-- The traversal of a bucket without a match. -/
theorem traverseBucket_miss (h : Searchable st cb f ptr es) (hmiss : ∀ e ∈ es, hit f ptr e = false)
    (i : Nat) (ret : Addr) :
    ∃ t, Open.traverseBucket ref m c flags cb multi i es ret st = .ok (false, ret, st.log t) := by
  induction es generalizing st with
  | nil => exact ⟨[], by simp [Open.traverseBucket]⟩
  | cons e es ih =>
    have hzero := match_eq_zero (h.stop e (by simp)) (hmiss e (by simp))
    have hrest : Searchable (st.log [.callback e.addr]) cb f ptr es :=
      (h.mono fun _ he => List.mem_cons_of_mem _ he).log _
    obtain ⟨t, ht⟩ := ih hrest fun e he => hmiss e (List.mem_cons_of_mem _ he)
    refine ⟨[.callback e.addr] ++ t, ?_⟩
    rw [Open.traverseBucket, h.live e (by simp), ok_bind, h.pure, ok_bind]
    simp only [hzero, if_true, State.emit_eq_log, ht, State.log_log]

variable (m c ref multi) in
/-- The traversal of a bucket up to its first match. -/
theorem traverseBucket_hit (h : Searchable st cb f ptr (pre ++ cur :: post))
    (hpre : ∀ e ∈ pre, hit f ptr e = false) (hcur : hit f ptr cur = true)
    (hm : flags.multiple = false) (i : Nat) (ret : Addr) :
    ∃ t, Open.traverseBucket ref m c flags cb multi i (pre ++ cur :: post) ret st
      = (Open.takeMatch ref m (st.log t) flags multi cur ret >>= fun r =>
          Open.unlinkCurrent ref m r.2 c flags i cur >>= fun st => .ok (true, r.1, st)) := by
  induction pre generalizing st with
  | nil =>
    refine ⟨[.callback cur.addr], ?_⟩
    have hne := match_ne_zero hcur
    have hstop := h.stop cur (by simp)
    rw [List.nil_append, Open.traverseBucket, h.live cur (by simp), ok_bind, h.pure, ok_bind]
    simp only [hne, hstop, if_false, hm, Bool.not_false, Bool.or_true, if_true,
      State.emit_eq_log]
  | cons e pre ih =>
    have hzero := match_eq_zero (h.stop e (by simp)) (hpre e (by simp))
    have hrest : Searchable (st.log [.callback e.addr]) cb f ptr (pre ++ cur :: post) :=
      (h.mono fun _ he => by simp only [List.cons_append]; exact List.mem_cons_of_mem _ he).log _
    obtain ⟨t, ht⟩ := ih hrest fun e he => hpre e (List.mem_cons_of_mem _ he)
    refine ⟨[.callback e.addr] ++ t, ?_⟩
    rw [List.cons_append, Open.traverseBucket, h.live e (by simp), ok_bind, h.pure, ok_bind]
    simp only [hzero, if_true, State.emit_eq_log, ht, State.log_log]

/-- The bucket at index `k`, once `c` is known to be the container `cont`. -/
theorem bucketIndex_natCast {k : Nat} (hk : k < cont.buckets.length) :
    bucketIndex cont (k : Int) = .ok k := by
  have hpos : (0 : Int) ≤ (k : Int) := Int.natCast_nonneg k
  exact if_pos ⟨hpos, by simpa using hk⟩

variable (m ref multi) in
/-- The loop over buckets without a match. -/
theorem bucketLoop_miss (h : Searchable st cb f ptr cont.buckets.flatten)
    (hcont : containerAt st c = .ok (p, cont)) (hcontinue : flags.continue_ = false)
    {last : Nat} (hlast : last ≤ cont.buckets.length) (start : Int) {fuel i : Nat}
    (hfuel : last - i < fuel)
    (hmiss : ∀ k es, i ≤ k → k < last → cont.buckets[k]? = some es → ∀ e ∈ es, hit f ptr e = false) :
    ∃ t, Open.bucketLoop ref m c flags cb multi start fuel i last NULL st = .ok (NULL, st.log t) := by
  induction fuel generalizing i st with
  | zero => omega
  | succ fuel ih =>
    by_cases hi : i < last
    · have hlt := Nat.lt_of_lt_of_le hi hlast
      have hb := List.getElem?_eq_getElem hlt
      have hbucket : Searchable st cb f ptr cont.buckets[i] :=
        h.mono fun e he => Buckets.mem_flatten hb he
      obtain ⟨t, ht⟩ := traverseBucket_miss m c flags ref multi hbucket
        (hmiss i _ le_rfl hi hb) i NULL
      obtain ⟨t', ht'⟩ := ih (h.log t) (hcont : containerAt (st.log t) c = _)
        (i := i + 1) (by omega) fun k es hk => hmiss k es (by omega)
      refine ⟨t ++ t', ?_⟩
      have hlt' : (i : Int) < last := by omega
      rw [Open.bucketLoop, if_pos hlt', hcont, ok_bind]
      simp only [bucketIndex_natCast hlt, ok_bind, hb, Option.getD_some, ht, hcontinue,
        Bool.false_eq_true, and_false, if_false, ne_eq, not_true_eq_false]
      rw [Int.natCast_succ] at ht'
      rw [ht', State.log_log]
    · have hge : ¬ (i : Int) < last := by omega
      exact ⟨[], by rw [Open.bucketLoop, if_neg hge, State.log_nil]⟩

variable (m ref multi) in
/-- The loop over buckets up to the first match, in bucket `k`. -/
theorem bucketLoop_hit (h : Searchable st cb f ptr cont.buckets.flatten)
    (hcont : containerAt st c = .ok (p, cont)) (hcontinue : flags.continue_ = false)
    (hm : flags.multiple = false) {last k : Nat} (hlast : k < last) (start : Int) {fuel i : Nat}
    (hfuel : last - i < fuel) (hi : i ≤ k)
    (hmiss : ∀ j es, i ≤ j → j < k → cont.buckets[j]? = some es → ∀ e ∈ es, hit f ptr e = false)
    (hk : cont.buckets[k]? = some (pre ++ cur :: post))
    (hpre : ∀ e ∈ pre, hit f ptr e = false) (hcur : hit f ptr cur = true) :
    ∃ t, Open.bucketLoop ref m c flags cb multi start fuel i last NULL st
      = (Open.takeMatch ref m (st.log t) flags multi cur NULL >>= fun r =>
          Open.unlinkCurrent ref m r.2 c flags k cur >>= fun st => .ok (r.1, st)) := by
  induction fuel generalizing i st with
  | zero => omega
  | succ fuel ih =>
    have hlen := (List.getElem?_eq_some_iff.mp hk).1
    have hlt' : (i : Int) < last := by omega
    rcases Nat.lt_or_eq_of_le hi with hlt | rfl
    · have hb := List.getElem?_eq_getElem (hlt.trans hlen)
      have hbucket : Searchable st cb f ptr cont.buckets[i] :=
        h.mono fun e he => Buckets.mem_flatten hb he
      obtain ⟨t, ht⟩ := traverseBucket_miss m c flags ref multi hbucket
        (hmiss i _ le_rfl hlt hb) i NULL
      obtain ⟨t', ht'⟩ := ih (h.log t) (hcont : containerAt (st.log t) c = _)
        (i := i + 1) (by omega) hlt fun j es hj => hmiss j es (by omega)
      refine ⟨t ++ t', ?_⟩
      rw [Open.bucketLoop, if_pos hlt', hcont, ok_bind]
      simp only [bucketIndex_natCast (hlt.trans hlen), ok_bind, hb, Option.getD_some, ht,
        hcontinue, Bool.false_eq_true, and_false, if_false, ne_eq, not_true_eq_false]
      rw [Int.natCast_succ] at ht'
      rw [ht', State.log_log]
    · have hbucket : Searchable st cb f ptr (pre ++ cur :: post) :=
        h.mono fun e he => Buckets.mem_flatten hk he
      obtain ⟨t, ht⟩ := traverseBucket_hit m c ref multi hbucket hpre hcur hm i NULL
      refine ⟨t, ?_⟩
      rw [Open.bucketLoop, if_pos hlt', hcont, ok_bind]
      simp only [bucketIndex_natCast hlen, ok_bind, hk, Option.getD_some, ht, Outcome.bind_assoc,
        hcontinue, Bool.false_eq_true, and_false, if_false, if_true]
      congr 1
      funext r
      congr 1
      funext st'
      -- the loop was left by `i = last`
      by_cases hret : r.1 = NULL
      · obtain ⟨fuel, rfl⟩ : ∃ n, fuel = n + 1 := ⟨fuel - 1, by omega⟩
        have hge : ¬ (last : Int) + 1 < last := by omega
        simp only [hret, ne_eq, not_true_eq_false, if_false, Open.bucketLoop, hge]
      · simp only [ne_eq, hret, not_false_eq_true, if_true]

/-- The loop is over. -/
theorem bucketLoop_done (ref : State α → Addr → Int32 → Outcome (Int32 × State α))
    (m : Machine) (c : Addr) (flags : SearchFlags) (cb : Callback α) (multi : Option Addr)
    (start : Int) (fuel : Nat) {i last : Int} (h : ¬ i < last) (ret : Addr) (st : State α) :
    Open.bucketLoop ref m c flags cb multi start (fuel + 1) i last ret st = .ok (ret, st) := by
  unfold Open.bucketLoop
  rw [if_neg h]

theorem lockIf_log (st : State α) (hc : c ≠ NULL) (hp : st.objs.get c = some p) (b : Bool) :
    ∃ t, lockIf b st c = .ok (st.log t) := by
  cases b with
  | false => exact ⟨[], by simp [lockIf]⟩
  | true => exact ⟨[.lock c], by simp [lockIf, objLock, internalObj_of_get hc hp, State.emit_eq_log]⟩

theorem unlockIf_log (st : State α) (hc : c ≠ NULL) (hp : st.objs.get c = some p) (b : Bool) :
    ∃ t, unlockIf b st c = .ok (st.log t) := by
  cases b with
  | false => exact ⟨[], by simp [unlockIf]⟩
  | true =>
    exact ⟨[.unlock c], by simp [unlockIf, objUnlock, internalObj_of_get hc hp, State.emit_eq_log]⟩

/-- A search of the container `c` for at most one object, from bucket `start` up to
    bucket `last`. -/
structure SearchAt (st : State α) (c : Addr) (p : Obj α) (cont : ObjContainer α)
    (flags : SearchFlags) (arg : Ptr α) (start last : Nat) : Prop where
  null : c ≠ NULL
  get : st.objs.get c = some p
  userData : p.userData = .container cont
  multiple : flags.multiple = false
  continue_ : flags.continue_ = false
  bounds : Open.searchBounds cont flags arg = .ok ((start : Int), (last : Int))
  last_le : last ≤ cont.buckets.length
  fuel : last - start < Open.loopFuel cont

variable {arg : Ptr α} {start last k : Nat} {cbFn : Option (Callback α)}

theorem SearchAt.containerAt (h : SearchAt st c p cont flags arg start last) :
    containerAt st c = .ok (p, cont) := containerAt_of_get h.get h.userData

/-- `internal_obj_callback` when nothing matches. -/
theorem internalObjCallback_miss (h : SearchAt st c p cont flags arg start last)
    (hs : Searchable st (cbFn.getD cbTrue) f ptr cont.buckets.flatten)
    (hmiss : ∀ k es, start ≤ k → k < last → cont.buckets[k]? = some es →
      ∀ e ∈ es, hit f ptr e = false) :
    ∃ t, Open.internalObjCallback ref m st c flags cbFn arg = .ok (.obj NULL, st.log t) := by
  obtain ⟨t1, hlock⟩ := lockIf_log st h.null h.get (!flags.nolock)
  obtain ⟨t2, hloop⟩ := bucketLoop_miss m ref none (hs.log t1)
    (h.containerAt : ObjModel.containerAt (st.log t1) c = _)
    h.continue_ h.last_le start h.fuel hmiss
  rw [State.log_log] at hloop
  obtain ⟨t3, hunlock⟩ := unlockIf_log (st.log (t1 ++ t2)) h.null h.get (!flags.nolock)
  refine ⟨t1 ++ t2 ++ t3, ?_⟩
  unfold Open.internalObjCallback Open.search
  simp only [internalObj_of_get h.null h.get, ok_bind, h.multiple, Bool.false_and,
    Bool.false_eq_true, if_false, h.containerAt, h.bounds, hlock, hloop, hunlock, State.log_log]

variable (m ref) in
/-- `internal_obj_callback` when the first match is `cur`, in bucket `k`. -/
theorem internalObjCallback_hit (h : SearchAt st c p cont flags arg start last)
    (hs : Searchable st (cbFn.getD cbTrue) f ptr cont.buckets.flatten)
    (hstart : start ≤ k) (hlast : k < last)
    (hmiss : ∀ j es, start ≤ j → j < k → cont.buckets[j]? = some es →
      ∀ e ∈ es, hit f ptr e = false)
    (hk : cont.buckets[k]? = some (pre ++ cur :: post))
    (hpre : ∀ e ∈ pre, hit f ptr e = false) (hcur : hit f ptr cur = true) :
    ∃ t, Open.internalObjCallback ref m st c flags cbFn arg
      = (Open.takeMatch ref m (st.log t) flags none cur NULL >>= fun r =>
          Open.unlinkCurrent ref m r.2 c flags k cur >>= fun st =>
            unlockIf (!flags.nolock) st c >>= fun st => .ok (.obj r.1, st)) := by
  obtain ⟨t1, hlock⟩ := lockIf_log st h.null h.get (!flags.nolock)
  obtain ⟨t2, hloop⟩ := bucketLoop_hit m ref none (hs.log t1)
    (h.containerAt : ObjModel.containerAt (st.log t1) c = _)
    h.continue_ h.multiple hlast start h.fuel hstart hmiss hk hpre hcur
  refine ⟨t1 ++ t2, ?_⟩
  unfold Open.internalObjCallback Open.search
  simp only [internalObj_of_get h.null h.get, ok_bind, h.multiple, Bool.false_and,
    Bool.false_eq_true, if_false, h.containerAt, h.bounds, hlock, hloop, State.log_log,
    Outcome.bind_assoc]

end Search

/-- The match function of `obj_find`, with its other arguments fixed. -/
def ObjContainer.cmp (cont : ObjContainer α) (arg : Ptr α) (flags : SearchFlags) (p : Ptr α) :
    Int32 :=
  match cont.cmpFn with
  | some cmpFn => cmpFn p arg flags
  | none => CMP_MATCH

theorem ObjContainer.cmp_pure (cont : ObjContainer α) (arg : Ptr α) (flags : SearchFlags)
    (st : State α) (p : Ptr α) :
    (cont.cmpFn.map (pureCallback · arg flags)).getD cbTrue st p
      = .ok (cont.cmp arg flags p, st) := by
  unfold ObjContainer.cmp
  cases cont.cmpFn with
  | none => rfl
  | some cmpFn => rfl

section Find

variable {ptr : BucketEntry → Ptr α} {pre post : List BucketEntry} {cur : BucketEntry}
  {flags : SearchFlags} {arg : Ptr α} {start last k : Nat}

/-- What `obj_find` needs of the entries: their objects are live, and the match function
    stops only at a match. -/
structure Findable (st : State α) (cont : ObjContainer α) (arg : Ptr α) (flags : SearchFlags)
    (ptr : BucketEntry → Ptr α) : Prop where
  stop : ∀ e ∈ cont.buckets.flatten,
    (CMP_MATCH ||| CMP_STOP) &&& cont.cmp arg flags (ptr e) ≠ CMP_STOP
  live : ∀ e ∈ cont.buckets.flatten, externalObj st e.pobj = .ok (ptr e)

theorem Findable.searchable (h : Findable st cont arg flags ptr) :
    Searchable st ((cont.cmpFn.map (pureCallback · arg flags)).getD cbTrue)
      (cont.cmp arg flags) ptr cont.buckets.flatten :=
  ⟨cont.cmp_pure arg flags, h.stop, h.live⟩

/-- `obj_find` when nothing matches. -/
theorem objFind_miss (h : SearchAt st c p cont flags arg start last)
    (hf : Findable st cont arg flags ptr)
    (hmiss : ∀ k es, start ≤ k → k < last → cont.buckets[k]? = some es →
      ∀ e ∈ es, hit (cont.cmp arg flags) ptr e = false) :
    ∃ t, objFind m st c arg flags = .ok (.obj NULL, st.log t) := by
  unfold objFind objCallback
  rw [h.containerAt, ok_bind]
  exact internalObjCallback_miss h hf.searchable hmiss

/-- `obj_find` returns the first object that matches, with whatever `obj_ref` does to it. -/
theorem objFind_ref (h : SearchAt st c p cont flags arg start last)
    (hf : Findable st cont arg flags ptr) (hnodata : flags.nodata = false)
    (hunlink : flags.unlink = false) (hstart : start ≤ k) (hlast : k < last)
    (hmiss : ∀ j es, start ≤ j → j < k → cont.buckets[j]? = some es →
      ∀ e ∈ es, hit (cont.cmp arg flags) ptr e = false)
    (hk : cont.buckets[k]? = some (pre ++ cur :: post))
    (hpre : ∀ e ∈ pre, hit (cont.cmp arg flags) ptr e = false)
    (hcur : hit (cont.cmp arg flags) ptr cur = true) {P : State α → Prop}
    (href : ∀ t, ∃ old st' p', objRef m (st.log t) cur.pobj 1 = .ok (old, st') ∧
      st'.objs.get c = some p' ∧ P st') :
    ∃ st' t, objFind m st c arg flags = .ok (.obj cur.pobj, st'.log t) ∧ P st' := by
  obtain ⟨t, ht⟩ := internalObjCallback_hit m (objRef m) h hf.searchable hstart hlast hmiss hk hpre hcur
  obtain ⟨old, st', p', hinc, hp', hP⟩ := href t
  obtain ⟨t', hunlock⟩ := unlockIf_log st' h.null hp' (!flags.nolock)
  refine ⟨st', t', ?_, hP⟩
  unfold objFind objCallback
  simp only [h.containerAt, ok_bind, ht, Open.takeMatch, Open.refMatch, Open.unlinkCurrent, hnodata, hunlink, h.multiple,
    Bool.false_eq_true, if_false, Bool.or_self, hinc, hunlock]

/-- `obj_find` takes a reference to the first object that matches. -/
theorem objFind_hit (h : SearchAt st c p cont flags arg start last)
    (hf : Findable st cont arg flags ptr) (hnodata : flags.nodata = false)
    (hunlink : flags.unlink = false) (hstart : start ≤ k) (hlast : k < last)
    (hmiss : ∀ j es, start ≤ j → j < k → cont.buckets[j]? = some es →
      ∀ e ∈ es, hit (cont.cmp arg flags) ptr e = false)
    (hk : cont.buckets[k]? = some (pre ++ cur :: post))
    (hpre : ∀ e ∈ pre, hit (cont.cmp arg flags) ptr e = false)
    (hcur : hit (cont.cmp arg flags) ptr cur = true)
    (hnull : cur.pobj ≠ NULL) (hq : st.objs.get cur.pobj = some q)
    (hv : spdAtomicFetchaddInt m q.refCounter 1 = .ok v) (hpos : ¬ v ≤ 0) :
    ∃ t, objFind m st c arg flags
      = .ok (.obj cur.pobj, (st.setObj cur.pobj { q with refCounter := v }).log t) := by
  have href : ∀ t, ∃ old st' p', objRef m (st.log t) cur.pobj 1 = .ok (old, st') ∧
      st'.objs.get c = some p' ∧
      ∃ t, st' = (st.setObj cur.pobj { q with refCounter := v }).log t := by
    intro t
    have hinc : objRef m (st.log t) cur.pobj 1 = _ := objRef_inc_eq hnull hq hv hpos
    have hp' : ∃ p', ((st.log t).setObj cur.pobj { q with refCounter := v }).objs.get c
        = some p' := by
      by_cases hc : c = cur.pobj
      · exact ⟨_, by rw [hc]; exact Heap.get_set_self _ _ _⟩
      · exact ⟨p, (Heap.get_set_of_ne _ _ hc).trans h.get⟩
    obtain ⟨p', hp'⟩ := hp'
    exact ⟨_, _, p', hinc, hp', t, rfl⟩
  obtain ⟨st', t', hfind, t, rfl⟩ :=
    objFind_ref h hf hnodata hunlink hstart hlast hmiss hk hpre hcur href
  refine ⟨t ++ t', ?_⟩
  rw [hfind, State.log_log]

end Find

end Spider.ObjModel
