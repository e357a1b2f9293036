import Spider.ObjModel.System

/-!
# Hash lookup and full scan

`obj_link` reduces `abs(hash)` modulo the number of buckets, `obj_find` with
`OBJ_POINTER` the signed hash, and falls back to a scan when the remainder is
negative. Both reductions agree wherever an object can be linked, so the lookup
finds what the scan of every bucket finds.
-/

namespace Spider.ObjModel

open Lib Outcome

variable {α : Type} {m : Machine} {st : State α} {c : Addr} {p q : Obj α}
  {cont : ObjContainer α} {data : Addr → Option α} {e cur : BucketEntry} {k : Nat}

/-- A container that `obj_link` and `obj_unlink` made of a fresh one; `data` tells what
    the object of each entry held when it was linked. -/
inductive Linked : (Addr → Option α) → ObjContainer α → Prop where
  | fresh {hashFn : Ptr α → SearchFlags → Int32}
      {cmpFn : Option (Ptr α → Ptr α → SearchFlags → Int32)} {nBuckets : UInt32}
      (h : 0 < nBuckets.toInt32.toInt) :
      Linked (fun _ => none)
        ⟨hashFn, cmpFn, nBuckets.toInt32, 0, 1, List.replicate nBuckets.toNat []⟩
  | link {data : Addr → Option α} {cont : ObjContainer α} {i : Int32} {k : Nat}
      {e : BucketEntry} {d : Option α} (h : Linked data cont)
      (hi : linkIndex cont ⟨e.pobj, d⟩ = .ok i) (hk : bucketIndex cont i.toInt = .ok k)
      (hfresh : e.addr ∉ cont.entryAddrs) (version elements : Int32) :
      Linked (Function.update data e.addr d)
        { cont.insertTail k e with version := version, elements := elements }
  | unlink {data : Addr → Option α} {cont : ObjContainer α} {k : Nat}
      {pre post : List BucketEntry} {e : BucketEntry} (h : Linked data cont)
      (hb : cont.buckets[k]? = some (pre ++ e :: post)) (version elements : Int32) :
      Linked data { cont.removeEntry k e.addr with version := version, elements := elements }

/-- Every change of a container is one of these. -/
theorem Linked.mod {cont' : ObjContainer α} (h : Linked data cont) (hm : ContMod cont cont') :
    ∃ data', Linked data' cont' := by
  cases hm with
  | link hi hk hfresh => exact ⟨_, h.link hi hk hfresh _ _⟩
  | unlink hb => exact ⟨_, h.unlink hb _ _⟩

theorem Linked.nBuckets (h : Linked data cont) :
    0 < cont.nBuckets.toInt ∧ cont.nBuckets.toInt = cont.buckets.length := by
  induction h with
  | fresh hpos =>
    have hlen := CInt.toNat_toUInt32 hpos.le
    rw [UInt32.toUInt32_toInt32] at hlen
    exact ⟨hpos, by simpa using hlen.symm⟩
  | link _ _ _ _ _ _ ih => simpa [ObjContainer.insertTail] using ih
  | unlink _ _ _ _ ih => simpa [ObjContainer.removeEntry] using ih

/-- The object of an entry, as it was linked. -/
def entryPtr (data : Addr → Option α) (e : BucketEntry) : Ptr α := ⟨e.pobj, data e.addr⟩

/-- An entry is in the bucket that `obj_link` picks for its object. -/
theorem Linked.located (h : Linked data cont) (hin : InBucket cont.buckets k e) :
    ∃ i, linkIndex cont (entryPtr data e) = .ok i ∧ i.toInt = k := by
  induction h generalizing k with
  | fresh =>
    have hmem := hin.mem_flatten
    simp at hmem
  | @link data cont i k' e' d _ hi hk hfresh _ _ ih =>
    rcases inBucket_insert hin with hold | ⟨rfl, rfl⟩
    · have hne : e.addr ≠ e'.addr := by
        rintro heq
        rw [ObjContainer.entryAddrs, List.mem_toFinset, ← heq] at hfresh
        exact hfresh (List.mem_map_of_mem hold.mem_flatten)
      rw [entryPtr, Function.update_of_ne hne]
      exact ih hold
    · rw [entryPtr, Function.update_self]
      refine ⟨i, hi, ?_⟩
      unfold bucketIndex at hk
      split at hk
      · next hcond =>
        obtain rfl := Outcome.ok.inj hk
        exact (Int.toNat_of_nonneg hcond.1).symm
      · cases hk
  | unlink _ _ _ _ ih => exact ih (inBucket_erase hin)

/-! ## The two reductions -/

/-- Where `abs(x) % n` is an index, `x % n` is the same one, or negative. -/
theorem mod_eq_abs_mod (x n : Int32) (h : 0 ≤ (cAbs x % n).toInt) :
    (x % n).toInt < 0 ∨ (x % n).toInt = (cAbs x % n).toInt := by
  by_cases hmin : x = Int32.minValue
  · right
    subst hmin
    rfl
  · unfold cAbs at h ⊢
    split at h
    · next hle => rw [if_pos hle]; exact Or.inr rfl
    · next hle =>
      rw [if_neg hle]
      rw [Int32.toInt_mod, CInt.toInt_neg hmin, Int.neg_tmod] at h
      rw [Int32.toInt_mod, Int32.toInt_mod, CInt.toInt_neg hmin, Int.neg_tmod]
      omega

/-- `obj_link` picks a bucket there is exactly when the hash is not `INT_MIN`, or the
    number of buckets divides 2^31. -/
theorem linkIndex_range (hpos : 0 < cont.nBuckets.toInt) (ptr : Ptr α) :
    (∃ i, linkIndex cont ptr = .ok i ∧ 0 ≤ i.toInt ∧ i.toInt < cont.nBuckets.toInt) ↔
      cont.hashFn ptr OBJ_POINTER ≠ Int32.minValue ∨ cont.nBuckets.toInt ∣ 2 ^ 31 := by
  have hlt := Int.tmod_lt_of_pos (cAbs (cont.hashFn ptr OBJ_POINTER)).toInt hpos
  have hindex : linkIndex cont ptr
      = .ok (cAbs (cont.hashFn ptr OBJ_POINTER) % cont.nBuckets) := cMod_eq _ hpos
  rw [hindex]
  simp only [Outcome.ok.injEq, exists_eq_left', Int32.toInt_mod, hlt, and_true]
  by_cases hmin : cont.hashFn ptr OBJ_POINTER = Int32.minValue
  · have habs : (cAbs Int32.minValue).toInt = -2 ^ 31 := by decide
    rw [hmin, habs, Int.neg_tmod, Int.dvd_iff_tmod_eq_zero]
    have hge : 0 ≤ ((2 : Int) ^ 31).tmod cont.nBuckets.toInt := Int.tmod_nonneg _ (by decide)
    constructor
    · intro h
      exact Or.inr (by omega)
    · rintro (h | h)
      · exact absurd rfl h
      · omega
  · exact ⟨fun _ => Or.inl hmin, fun _ => Int.tmod_nonneg _ (cAbs_nonneg hmin)⟩

/-! ## `obj_find` -/

/-- The linked objects are live, hold what they held when they were linked, and can take
    one more reference. -/
def Live (st : State α) (data : Addr → Option α) (cont : ObjContainer α) : Prop :=
  ∀ e ∈ cont.buckets.flatten, e.pobj ≠ NULL ∧ ∃ q, st.objs.get e.pobj = some q ∧
    q.data = data e.addr ∧ 0 ≤ q.refCounter.toInt ∧ q.refCounter.toInt + 1 < 2 ^ 31

/-- A compare function as lookups rely on it: objects that match have the hash of the
    argument, a search stops only at a match, and it makes no difference to a match whether
    the argument is a pointer. -/
structure Comparable (cont : ObjContainer α) (arg : Ptr α) : Prop where
  hash : ∀ p flags, (cont.cmp arg flags p &&& CMP_MATCH != 0) = true →
    cont.hashFn p OBJ_POINTER = cont.hashFn arg OBJ_POINTER
  stop : ∀ p flags, (CMP_MATCH ||| CMP_STOP) &&& cont.cmp arg flags p ≠ CMP_STOP
  flags : ∀ p, cont.cmp arg OBJ_POINTER p &&& CMP_MATCH = cont.cmp arg {} p &&& CMP_MATCH

/-- The boundaries of a search for one object contain the bucket where the argument would be
    linked. -/
theorem searchBounds_linkIndex (arg : Ptr α) (flags : SearchFlags)
    (hpos : 0 < cont.nBuckets.toInt) (hlen : cont.nBuckets.toInt = cont.buckets.length)
    (hf : flags.continue_ = false) :
    ∃ start last : Nat, Open.searchBounds cont flags arg = .ok ((start : Int), (last : Int)) ∧
      last ≤ cont.buckets.length ∧ ∀ i (k : Nat), linkIndex cont arg = .ok i → i.toInt = (k : Int) →
        k < cont.buckets.length → start ≤ k ∧ k < last := by
  have hmod : cMod (cont.hashFn arg OBJ_POINTER) cont.nBuckets
      = .ok (cont.hashFn arg OBJ_POINTER % cont.nBuckets) := cMod_eq _ hpos
  have hall : Open.searchBounds cont flags arg = .ok (0, cont.nBuckets.toInt) →
      ∃ start last : Nat, Open.searchBounds cont flags arg = .ok ((start : Int), (last : Int)) ∧
        last ≤ cont.buckets.length ∧ ∀ i (k : Nat), linkIndex cont arg = .ok i → i.toInt = (k : Int) →
          k < cont.buckets.length → start ≤ k ∧ k < last := by
    intro h
    exact ⟨0, cont.buckets.length, by rw [h, hlen]; rfl, le_refl _,
      fun _ k _ _ hk => ⟨Nat.zero_le k, hk⟩⟩
  cases hp : flags.pointer with
  | false =>
    apply hall
    simp only [Open.searchBounds, Open.hashedBucket, hp, Bool.false_eq_true, if_false, ok_bind]
    rfl
  | true =>
    by_cases hneg : (cont.hashFn arg OBJ_POINTER % cont.nBuckets).toInt < 0
    · apply hall
      simp only [Open.searchBounds, Open.hashedBucket, hp, if_true, hmod, ok_bind, if_pos hneg]
    · obtain ⟨start, hstart⟩ := Int.eq_ofNat_of_zero_le (Int.not_lt.mp hneg)
      have hlt := Int.tmod_lt_of_pos (cont.hashFn arg OBJ_POINTER).toInt hpos
      rw [← Int32.toInt_mod] at hlt
      refine ⟨start, start + 1, ?_, by omega, fun i k hi hik _ => ?_⟩
      · rw [hstart] at hneg
        simp only [Open.searchBounds, Open.hashedBucket, hp, if_true, hmod, ok_bind, hstart,
          if_neg hneg, hf, Bool.false_eq_true, if_false]
        rfl
      · have hlink : linkIndex cont arg
            = .ok (cAbs (cont.hashFn arg OBJ_POINTER) % cont.nBuckets) := cMod_eq _ hpos
        obtain rfl := Outcome.ok.inj (hlink.symm.trans hi)
        have hnonneg : 0 ≤ (cAbs (cont.hashFn arg OBJ_POINTER) % cont.nBuckets).toInt := by
          rw [hik]
          exact Int.natCast_nonneg k
        rcases mod_eq_abs_mod _ _ hnonneg with h | h
        · exact absurd h hneg
        · omega

/-- A search for one object in a container made by linking and unlinking: an object whose hash is
    that of the argument is within its boundaries. -/
theorem Linked.searchAt (h : Linked data cont) (arg : Ptr α) (flags : SearchFlags) (hc : c ≠ NULL)
    (hp : st.objs.get c = some p) (hu : p.userData = .container cont)
    (hmultiple : flags.multiple = false) (hcontinue : flags.continue_ = false) :
    ∃ start last : Nat, SearchAt st c p cont flags arg start last ∧
      ∀ k e, InBucket cont.buckets k e →
        cont.hashFn (entryPtr data e) OBJ_POINTER = cont.hashFn arg OBJ_POINTER →
          start ≤ k ∧ k < last := by
  obtain ⟨hpos, hlen⟩ := h.nBuckets
  obtain ⟨start, last, hbounds, hlast, hin⟩ := searchBounds_linkIndex arg
    flags hpos hlen hcontinue
  refine ⟨start, last, ?_, fun k e he hsame => ?_⟩
  · exact ⟨hc, hp, hu, hmultiple, hcontinue, hbounds, hlast, by unfold Open.loopFuel; omega⟩
  · obtain ⟨i, hi, hik⟩ := h.located he
    obtain ⟨es, hes, -⟩ := he
    refine hin i k ?_ hik (List.getElem?_eq_some_iff.mp hes).1
    rw [← hi, linkIndex, linkIndex, hsame]

/-- The linked objects are in the store and hold what they held when they were linked. -/
def Loaded (st : State α) (data : Addr → Option α) (cont : ObjContainer α) : Prop :=
  ∀ e ∈ cont.buckets.flatten, e.pobj ≠ NULL ∧
    ∃ q, st.objs.get e.pobj = some q ∧ q.data = data e.addr

theorem Live.loaded (h : Live st data cont) : Loaded st data cont := by
  intro e he
  obtain ⟨hnull, q, hq, hdata, -⟩ := h e he
  exact ⟨hnull, q, hq, hdata⟩

theorem Loaded.externalObj (h : Loaded st data cont) :
    ∀ e ∈ cont.buckets.flatten, externalObj st e.pobj = .ok (entryPtr data e) := by
  intro e he
  obtain ⟨-, q, hq, hdata⟩ := h e he
  rw [externalObj_eq hq, hdata, entryPtr]

theorem Loaded.findable (h : Loaded st data cont) {arg : Ptr α} (hcmp : Comparable cont arg)
    (flags : SearchFlags) : Findable st cont arg flags (entryPtr data) :=
  ⟨fun _ _ => hcmp.stop _ _, h.externalObj⟩

/-- The first match lies where the argument would be linked. -/
theorem Linked.firstMatch (h : Linked data cont) {f : Ptr α → Int32} (arg : Ptr α)
    (flags : SearchFlags) (hc : c ≠ NULL) (hp : st.objs.get c = some p)
    (hu : p.userData = .container cont) (hmultiple : flags.multiple = false)
    (hcontinue : flags.continue_ = false)
    (hfind : cont.buckets.flatten.find? (hit f (entryPtr data)) = some cur)
    (hsame : cont.hashFn (entryPtr data cur) OBJ_POINTER = cont.hashFn arg OBJ_POINTER) :
    ∃ (start last k : Nat) (pre post : List BucketEntry), SearchAt st c p cont flags arg start last ∧
      start ≤ k ∧ k < last ∧
      (∀ j es, start ≤ j → j < k → cont.buckets[j]? = some es →
        ∀ e ∈ es, hit f (entryPtr data) e = false) ∧
      cont.buckets[k]? = some (pre ++ cur :: post) ∧
      (∀ e ∈ pre, hit f (entryPtr data) e = false) ∧ hit f (entryPtr data) cur = true := by
  obtain ⟨start, last, hsearch, hin⟩ := h.searchAt arg flags hc hp hu hmultiple hcontinue
  obtain ⟨hcur, before, pre, post, after, hbuckets, hbefore, hpre⟩ :=
    List.find?_flatten_eq_some_iff.mp hfind
  have hk : cont.buckets[before.length]? = some (pre ++ cur :: post) := by
    rw [hbuckets]
    simp
  have hloc := hin before.length cur ⟨_, hk, by simp⟩ hsame
  refine ⟨start, last, before.length, pre, post, hsearch, hloc.1, hloc.2, ?_, hk,
    fun e he => by simpa using hpre e he, hcur⟩
  intro j es _ hj hes e he
  rw [hbuckets, List.getElem?_append_left hj] at hes
  simpa using hbefore es (List.mem_of_getElem? hes) e he

/-- `obj_find` returns null when no entry matches. -/
theorem Linked.objFind_none {arg : Ptr α} (h : Linked data cont) (m : Machine)
    (flags : SearchFlags) (hc : c ≠ NULL) (hp : st.objs.get c = some p)
    (hu : p.userData = .container cont) (hloaded : Loaded st data cont) (hcmp : Comparable cont arg)
    (hmultiple : flags.multiple = false) (hcontinue : flags.continue_ = false)
    (hfind : cont.buckets.flatten.find? (hit (cont.cmp arg flags) (entryPtr data)) = none) :
    ∃ t, ObjModel.objFind m st c arg flags = .ok (.obj NULL, st.log t) := by
  obtain ⟨start, last, hsearch, -⟩ := h.searchAt arg flags hc hp hu hmultiple hcontinue
  apply objFind_miss hsearch (hloaded.findable hcmp flags)
  intro k es _ _ hes e he
  simpa using List.find?_eq_none.mp hfind e (Buckets.mem_flatten hes he)

/-- `obj_find` returns the object of the first match in the order of the buckets, whatever the
    boundaries of its search, with whatever `obj_ref` does to it. -/
theorem Linked.objFind_ref {arg : Ptr α} (h : Linked data cont) (m : Machine)
    (flags : SearchFlags) (hc : c ≠ NULL) (hp : st.objs.get c = some p)
    (hu : p.userData = .container cont) (hloaded : Loaded st data cont) (hcmp : Comparable cont arg)
    (hnodata : flags.nodata = false) (hunlink : flags.unlink = false)
    (hmultiple : flags.multiple = false) (hcontinue : flags.continue_ = false)
    (hfind : cont.buckets.flatten.find? (hit (cont.cmp arg flags) (entryPtr data)) = some cur)
    {P : State α → Prop} (href : ∀ t, ∃ old st' p', objRef m (st.log t) cur.pobj 1 = .ok (old, st') ∧
      st'.objs.get c = some p' ∧ P st') :
    ∃ st' t, ObjModel.objFind m st c arg flags = .ok (.obj cur.pobj, st'.log t) ∧ P st' := by
  have hsame := hcmp.hash _ _ (List.find?_eq_some_iff_append.mp hfind).1
  obtain ⟨start, last, k, pre, post, hsearch, hstart, hlast, hmiss, hk, hpre, hcur⟩ :=
    h.firstMatch arg flags hc hp hu hmultiple hcontinue hfind hsame
  exact ObjModel.objFind_ref hsearch (hloaded.findable hcmp flags) hnodata hunlink hstart hlast
    hmiss hk hpre hcur href

/-- `obj_find` takes a reference to the object of the first match. -/
theorem Linked.objFind_some {arg : Ptr α} (h : Linked data cont) (m : Machine)
    (flags : SearchFlags) (hc : c ≠ NULL) (hp : st.objs.get c = some p)
    (hu : p.userData = .container cont) (hloaded : Loaded st data cont) (hcmp : Comparable cont arg)
    (hnodata : flags.nodata = false) (hunlink : flags.unlink = false)
    (hmultiple : flags.multiple = false) (hcontinue : flags.continue_ = false)
    (hfind : cont.buckets.flatten.find? (hit (cont.cmp arg flags) (entryPtr data)) = some cur)
    (hq : st.objs.get cur.pobj = some q) (hge : 0 ≤ q.refCounter.toInt)
    (hroom : q.refCounter.toInt + 1 < 2 ^ 31) :
    ∃ t, ObjModel.objFind m st c arg flags =
      .ok (.obj cur.pobj, (st.setObj cur.pobj { q with refCounter := q.refCounter + 1 }).log t) := by
  have hsame := hcmp.hash _ _ (List.find?_eq_some_iff_append.mp hfind).1
  obtain ⟨start, last, k, pre, post, hsearch, hstart, hlast, hmiss, hk, hpre, hcur⟩ :=
    h.firstMatch arg flags hc hp hu hmultiple hcontinue hfind hsame
  obtain ⟨hnull, -⟩ := hloaded cur (List.mem_of_find?_eq_some hfind)
  obtain ⟨hv, hvpos⟩ := spdAtomicFetchaddInt_inc m hge hroom
  exact objFind_hit hsearch (hloaded.findable hcmp flags) hnodata hunlink hstart hlast hmiss hk hpre
    hcur hnull hq hv hvpos

/-- `obj_find` finds the first match in the order of the buckets, whatever the boundaries of
    its search. -/
theorem Linked.objFind {arg : Ptr α} (h : Linked data cont) (m : Machine)
    (flags : SearchFlags) (hc : c ≠ NULL) (hp : st.objs.get c = some p) (hu : p.userData = .container cont)
    (hlive : Live st data cont) (hcmp : Comparable cont arg) (hnodata : flags.nodata = false)
    (hunlink : flags.unlink = false) (hmultiple : flags.multiple = false)
    (hcontinue : flags.continue_ = false) :
    ∃ st', ObjModel.objFind m st c arg flags = .ok (.obj
      ((cont.buckets.flatten.find? (hit (cont.cmp arg flags) (entryPtr data))).elim NULL
        BucketEntry.pobj), st') := by
  cases hfind : cont.buckets.flatten.find? (hit (cont.cmp arg flags) (entryPtr data)) with
  | none =>
    obtain ⟨t, ht⟩ := h.objFind_none m flags hc hp hu hlive.loaded hcmp hmultiple hcontinue hfind
    exact ⟨_, ht⟩
  | some cur =>
    obtain ⟨-, q, hq, -, hge, hroom⟩ := hlive cur (List.mem_of_find?_eq_some hfind)
    obtain ⟨t, ht⟩ := h.objFind_some m flags hc hp hu hlive.loaded hcmp hnodata hunlink hmultiple
      hcontinue hfind hq hge hroom
    exact ⟨_, ht⟩

/-- `obj_unlink` takes the entry of the object out and drops the reference of the container. -/
theorem Linked.objUnlink_eq (h : Linked data cont) (hc : c ≠ NULL) (hp : st.objs.get c = some p)
    (hu : p.userData = .container cont) (hloaded : Loaded st data cont)
    (hmem : cur ∈ cont.buckets.flatten)
    (hunique : ∀ e ∈ cont.buckets.flatten, e.pobj = cur.pobj → e = cur) (hne : cur.pobj ≠ c)
    (hq : st.objs.get cur.pobj = some q) {version elements v : Int32}
    (hver : spdAtomicFetchaddInt m cont.version 1 = .ok version)
    (hel : spdAtomicFetchaddInt m cont.elements (-1) = .ok elements)
    (hv : spdAtomicFetchaddInt m q.refCounter (-1) = .ok v) (hpos : ¬ v ≤ 0) :
    ∃ k pre post t, cont.buckets[k]? = some (pre ++ cur :: post) ∧
      objUnlink m st c cur.pobj {} = .ok (({ st with
        objs := (st.objs.set c { p with userData := .container { cont.removeEntry k cur.addr with
          version := version, elements := elements } }).set cur.pobj
            { q with refCounter := v } } : State α).log t) := by
  obtain ⟨hnull, q', hq', hdata⟩ := hloaded cur hmem
  cases hq.symm.trans hq'
  have hptr := externalObj_eq hq
  generalize harg : (⟨cur.pobj, q.data⟩ : Ptr α) = arg at hptr
  generalize hflags : ({ unlink := true, nodata := true, pointer := true } : SearchFlags) = flags
  have hhit : ∀ e, hit (fun p => objMatchByAddr p arg flags) (entryPtr data) e = true ↔
      e.pobj = cur.pobj := by
    intro e
    rw [hit, objMatchByAddr, ← harg, entryPtr]
    dsimp only
    split
    next heq => exact iff_of_true (by decide) heq
    next hne => exact iff_of_false (by decide) hne
  have hsearchable : Searchable st ((some (pureCallback objMatchByAddr arg flags)).getD cbTrue)
      (fun p => objMatchByAddr p arg flags) (entryPtr data) cont.buckets.flatten := by
    refine ⟨fun _ _ => rfl, fun e _ => ?_, hloaded.externalObj⟩
    rw [objMatchByAddr]
    split
    · decide
    · decide
  have hfind : cont.buckets.flatten.find?
      (hit (fun p => objMatchByAddr p arg flags) (entryPtr data)) = some cur := by
    cases hfind : cont.buckets.flatten.find?
        (hit (fun p => objMatchByAddr p arg flags) (entryPtr data)) with
    | none => exact absurd ((hhit cur).mpr rfl) (List.find?_eq_none.mp hfind cur hmem)
    | some e =>
      have he := (hhit e).mp (List.find?_eq_some_iff_append.mp hfind).1
      rw [hunique e (List.mem_of_find?_eq_some hfind) he]
  have hsame : entryPtr data cur = arg := by
    rw [← harg, entryPtr, hdata]
  obtain ⟨start, last, k, pre, post, hsearch, hstart, hlast, hmiss, hk, hpre, hcur⟩ :=
    h.firstMatch arg flags hc hp hu (by rw [← hflags]) (by rw [← hflags]) hfind (by rw [hsame])
  obtain ⟨t, ht⟩ := internalObjCallback_hit m (objRef m) hsearch hsearchable hstart hlast hmiss hk
    hpre hcur
  have hcont : containerAt (st.log t) c = .ok (p, cont) := containerAt_of_get hp hu
  generalize hst1 : (setContainer (st.log t) c p { cont.removeEntry k cur.addr with
    version := version, elements := elements }).emit (.bucketWrite c) = st1
  have hq1 : st1.objs.get cur.pobj = some q := by
    rw [← hst1]
    exact (Heap.get_set_of_ne _ _ hne).trans hq
  have hdec := objRef_dec_eq hnull hq1 hv hpos
  obtain ⟨t', hunlock⟩ := unlockIf_log (st1.setObj cur.pobj { q with refCounter := v }) hc
    (show _ = some _ by
      rw [State.objs_setObj, Heap.get_set_of_ne _ _ hne.symm, ← hst1]
      exact Heap.get_set_self _ _ _) true
  have hcall : objUnlink m st c cur.pobj {} =
      Open.internalObjCallback (objRef m) m st c flags
        (some (pureCallback objMatchByAddr arg flags)) arg >>= fun r => .ok r.2 := by
    rw [← hflags]
    simp only [objUnlink, internalObj_of_get hnull hq, ok_bind, hptr]
    rfl
  refine ⟨k, pre, post, t ++ [.bucketWrite c] ++ t', hk, ?_⟩
  rw [hcall, ht, ← hflags]
  simp only [Open.takeMatch, Open.refMatch, Open.unlinkCurrent, if_true, ok_bind, hcont, hver, hel,
    hst1, Bool.true_or, hdec, Bool.not_false, hunlock]
  rw [← hst1]
  simp [setContainer, State.setObj, State.emit, State.log]

/-- Hash lookup agrees with a full scan: `obj_link` picks a bucket there is, for every hash
    but `INT_MIN`, and in every container made by linking and unlinking `obj_find` with
    `OBJ_POINTER` returns what `obj_find` without it returns. -/
theorem objFind_pointer_eq_scan {arg : Ptr α} (m : Machine) (h : Linked data cont)
    (hc : c ≠ NULL) (hp : st.objs.get c = some p) (hu : p.userData = .container cont)
    (hlive : Live st data cont) (hcmp : Comparable cont arg) :
    (∀ ptr, cont.hashFn ptr OBJ_POINTER ≠ Int32.minValue →
      ∃ i, linkIndex cont ptr = .ok i ∧ 0 ≤ i.toInt ∧ i.toInt < cont.nBuckets.toInt) ∧
    ∃ ret st₁ st₂, objFind m st c arg OBJ_POINTER = .ok (.obj ret, st₁) ∧
      objFind m st c arg {} = .ok (.obj ret, st₂) := by
  refine ⟨fun ptr hmin => (linkIndex_range h.nBuckets.1 ptr).mpr (Or.inl hmin), ?_⟩
  obtain ⟨st₁, h₁⟩ := h.objFind m OBJ_POINTER hc hp hu hlive hcmp rfl rfl rfl rfl
  obtain ⟨st₂, h₂⟩ := h.objFind m {} hc hp hu hlive hcmp rfl rfl rfl rfl
  have hhit : hit (cont.cmp arg OBJ_POINTER) (entryPtr data)
      = hit (cont.cmp arg {}) (entryPtr data) := by
    funext e
    rw [hit, hit, hcmp.flags]
  rw [hhit] at h₁
  exact ⟨_, st₁, st₂, h₁, h₂⟩

/-! ## Fixed containers -/

/-- Two objects are linked into a container of two buckets, which is then searched for the
    second. -/
def findSecond (cmpFn : Ptr Nat → Ptr Nat → SearchFlags → Int32) (flags : SearchFlags) :
    Outcome CallbackRet := do
  let s ← Run.run (exec bumpMachine.toWrap) {} [.objAlloc 0 none, .objAlloc 1 none,
    .objContainerAlloc 2 (some fun p _ => if p.data = some 1 then 1 else 0) (some cmpFn),
    .objLink 3 1 {}, .objLink 3 2 {}]
  let (ret, _) ← objFind bumpMachine.toWrap s.st 3 ⟨NULL, some 1⟩ flags
  .ok ret

/-- The object at 1, with the given counter, linked into a container at 2. -/
def linkedState (refCounter nBuckets : Int32) (bs : List (List BucketEntry)) : State Unit where
  objs := (Heap.set ∅ 1 ⟨refCounter, none, .data (), 0⟩).set 2 ⟨1, some .containerDestruct,
    .container ⟨fun _ _ => 0, none, nBuckets, 1, 2, [⟨7, 1, 1⟩] :: bs⟩, 1⟩

/-- A container of three buckets that hashes an object by the number it holds. -/
def hashedContainer (elements version : Int32) (bs : List (List BucketEntry)) :
    ObjContainer Int32 where
  hashFn := fun p _ => p.data.getD 0
  cmpFn := some fun p arg _ => if p.data = arg.data then CMP_MATCH else 0
  nBuckets := 3
  elements := elements
  version := version
  buckets := bs

/-- Objects with the numbers 4, 7, -5 and 3 were linked, the first two to the same bucket, and the
    last one unlinked. -/
def hashedEntries : List (List BucketEntry) := [[], [⟨101, 1, 11⟩, ⟨102, 2, 12⟩], [⟨103, 3, 13⟩]]

@[inherit_doc hashedEntries] def hashedState : State Int32 where
  objs := ((((Heap.set ∅ 11 ⟨2, none, .data 4, 0⟩).set 12 ⟨2, none, .data 7, 0⟩).set 13
    ⟨2, none, .data (-5), 0⟩).set 14 ⟨1, none, .data 3, 0⟩).set 2 ⟨1, some .containerDestruct,
      .container (hashedContainer 3 6 hashedEntries), 1⟩

/-- What the objects of the entries held. -/
def hashedData : Addr → Option Int32 :=
  Function.update (Function.update (Function.update (Function.update (fun _ => none)
    101 (some 4)) 102 (some 7)) 103 (some (-5))) 104 (some 3)

theorem linked_hashedEntries : Linked hashedData (hashedContainer 3 6 hashedEntries) := by
  have h0 : Linked (fun _ => none) (hashedContainer 0 1 [[], [], []]) :=
    .fresh (show 0 < (3 : UInt32).toInt32.toInt by decide)
  have h1 : Linked _ (hashedContainer 1 2 [[], [⟨101, 1, 11⟩], []]) :=
    h0.link (i := 1) (k := 1) (e := ⟨101, 1, 11⟩) (d := some 4) rfl rfl (by decide) 2 1
  have h2 : Linked _ (hashedContainer 2 3 [[], [⟨101, 1, 11⟩, ⟨102, 2, 12⟩], []]) :=
    h1.link (i := 1) (k := 1) (e := ⟨102, 2, 12⟩) (d := some 7) rfl rfl (by decide) 3 2
  have h3 : Linked _ (hashedContainer 3 4 hashedEntries) :=
    h2.link (i := 2) (k := 2) (e := ⟨103, 3, 13⟩) (d := some (-5)) rfl rfl (by decide) 4 3
  have h4 : Linked hashedData (hashedContainer 4 5
      [[⟨104, 4, 14⟩], [⟨101, 1, 11⟩, ⟨102, 2, 12⟩], [⟨103, 3, 13⟩]]) :=
    h3.link (i := 0) (k := 0) (e := ⟨104, 4, 14⟩) (d := some 3) rfl rfl (by decide) 5 4
  have hb : (hashedContainer 4 5 [[⟨104, 4, 14⟩], [⟨101, 1, 11⟩, ⟨102, 2, 12⟩],
      [⟨103, 3, 13⟩]]).buckets[0]? = some ([] ++ ⟨104, 4, 14⟩ :: []) := rfl
  exact h4.unlink hb 6 3

theorem live_hashedState : Live hashedState hashedData (hashedContainer 3 6 hashedEntries) := by
  intro e he
  have hmem : e = ⟨101, 1, 11⟩ ∨ e = ⟨102, 2, 12⟩ ∨ e = ⟨103, 3, 13⟩ := by
    simpa [hashedContainer, hashedEntries] using he
  rcases hmem with rfl | rfl | rfl
  · exact ⟨by decide, _, rfl, rfl, by decide, by decide⟩
  · exact ⟨by decide, _, rfl, rfl, by decide, by decide⟩
  · exact ⟨by decide, _, rfl, rfl, by decide, by decide⟩

theorem comparable_hashedContainer (arg : Ptr Int32) :
    Comparable (hashedContainer 3 6 hashedEntries) arg := by
  have hcmp : ∀ p flags, (hashedContainer 3 6 hashedEntries).cmp arg flags p
      = if p.data = arg.data then CMP_MATCH else 0 := fun _ _ => rfl
  constructor
  case hash =>
    intro p flags h
    rw [hcmp] at h
    split at h
    · exact congrArg (·.getD 0) ‹p.data = arg.data›
    · cases h
  case stop =>
    intro p flags
    rw [hcmp]
    split <;> decide
  case flags => exact fun p => rfl

/-- Lookup and scan for a number return the same object. -/
def FindBoth (v : Int32) (ret : Addr) : Prop :=
  ∃ st₁ st₂, objFind bumpMachine hashedState 2 ⟨NULL, some v⟩ OBJ_POINTER = .ok (.obj ret, st₁) ∧
    objFind bumpMachine hashedState 2 ⟨NULL, some v⟩ {} = .ok (.obj ret, st₂)

/-- The object of 7 is the second of its bucket. The remainder of -5 is negative, so that the lookup
    scans, too; the bucket of 10 has no match, and 3 was unlinked. -/
theorem objFind_pointer_eq_scan_hashedState :
    FindBoth 7 12 ∧ FindBoth (-5) 13 ∧ FindBoth 10 NULL ∧ FindBoth 3 NULL := by
  have hboth : ∀ v, ∃ ret, FindBoth v ret := fun v =>
    (objFind_pointer_eq_scan bumpMachine linked_hashedEntries (by decide)
      rfl rfl live_hashedState (comparable_hashedContainer _)).2
  have hfind : ∀ v ret st, objFind bumpMachine hashedState 2 ⟨NULL, some v⟩ OBJ_POINTER
      = .ok (.obj ret, st) → FindBoth v ret := by
    intro v ret st h
    obtain ⟨ret', hret⟩ := hboth v
    have hlookup := hret
    obtain ⟨st₁, -, h₁, -⟩ := hlookup
    rw [h] at h₁
    cases h₁
    exact hret
  exact ⟨hfind 7 12 _ (by with_unfolding_all rfl), hfind (-5) 13 _ (by with_unfolding_all rfl),
    hfind 10 NULL _ (by with_unfolding_all rfl), hfind 3 NULL _ (by with_unfolding_all rfl)⟩

/-- A container whose bucket count is negative as an `int` is not scanned. -/
theorem objFind_neg (m : Machine) (hc : c ≠ NULL) (hp : st.objs.get c = some p)
    (hu : p.userData = .container cont) (hneg : cont.nBuckets.toInt < 0) (arg : Ptr α) :
    ∃ st', objFind m st c arg {} = .ok (.obj NULL, st') := by
  have hbounds : Open.searchBounds cont {} arg = .ok (0, cont.nBuckets.toInt) := rfl
  have hdone : ¬ (0 : Int) < cont.nBuckets.toInt := by omega
  obtain ⟨t, hlock⟩ := lockIf_log st hc hp true
  obtain ⟨t', hunlock⟩ := unlockIf_log (st.log t) hc hp true
  unfold objFind objCallback Open.internalObjCallback Open.search
  simp only [internalObj_of_get hc hp, containerAt_of_get hp hu, ok_bind, Bool.false_and,
    Bool.false_eq_true, if_false, hbounds, Bool.not_false, hlock, Open.loopFuel,
    bucketLoop_done (objRef m) m c _ _ _ _ _ hdone, hunlock]
  exact ⟨_, rfl⟩

/-- The lookup in a container whose bucket count is negative as an `int` does find. -/
theorem objFind_linkedState_neg {bs : List (List BucketEntry)} (hempty : bs.flatten = []) :
    ∃ st', objFind bumpMachine.toWrap (linkedState 1 Int32.minValue bs) 2 ⟨NULL, none⟩ OBJ_POINTER
      = .ok (.obj 1, st') := by
  have hmod : cMod 0 Int32.minValue = .ok 0 := by decide +kernel
  have hsearch : SearchAt (linkedState 1 Int32.minValue bs) 2 ⟨1, some .containerDestruct,
        .container ⟨fun _ _ => 0, none, Int32.minValue, 1, 2, [⟨7, 1, 1⟩] :: bs⟩, 1⟩
      ⟨fun _ _ => 0, none, Int32.minValue, 1, 2, [⟨7, 1, 1⟩] :: bs⟩ OBJ_POINTER ⟨NULL, none⟩
      0 1 := by
    refine ⟨by decide, rfl, rfl, rfl, rfl, ?_, by simp, ?_⟩
    · simp only [Open.searchBounds, Open.hashedBucket, OBJ_POINTER, if_true, hmod, ok_bind]
      rfl
    · change 1 < 2 * Int32.minValue.toInt.toNat + 2
      omega
  have hfindable : Findable (linkedState 1 Int32.minValue bs)
      ⟨fun _ _ => 0, none, Int32.minValue, 1, 2, [⟨7, 1, 1⟩] :: bs⟩ ⟨NULL, none⟩ OBJ_POINTER
      (entryPtr fun _ => some ()) := by
    have hmatch : (CMP_MATCH ||| CMP_STOP) &&& CMP_MATCH ≠ CMP_STOP := by decide
    refine ⟨fun _ _ => hmatch, fun e he => ?_⟩
    obtain rfl : e = ⟨7, 1, 1⟩ := by simpa [hempty] using he
    rfl
  obtain ⟨hv, hpos⟩ := spdAtomicFetchaddInt_inc bumpMachine.toWrap (x := 1) (by decide) (by decide)
  have hk : ([⟨7, 1, 1⟩] :: bs)[0]? = some ([] ++ (⟨7, 1, 1⟩ : BucketEntry) :: []) := rfl
  obtain ⟨t, ht⟩ := objFind_hit hsearch hfindable rfl rfl le_rfl Nat.one_pos
    (fun j es _ hj => by omega) hk (by simp)
    (by decide : (CMP_MATCH &&& CMP_MATCH != 0) = true) (by decide) rfl hv hpos
  exact ⟨_, ht⟩

/-- Where lookup and scan part: with a hash of `INT_MIN` there may be no bucket to link
    into; a compare function may stop a scan early, or depend on `OBJ_POINTER`; from 2^31
    buckets on nothing is scanned; and past the largest `int` the reference taken by
    `obj_find` destroys the object it returns. -/
theorem objFind_pointer_limits :
    linkIndex (⟨fun _ _ => Int32.minValue, none, 3, 0, 1, [[], [], []]⟩ : ObjContainer Nat)
        ⟨1, none⟩ = .ok (-2) ∧
      (findSecond (fun p arg _ => if p.data = arg.data then CMP_MATCH else CMP_STOP) OBJ_POINTER
          = .ok (.obj 2) ∧
        findSecond (fun p arg _ => if p.data = arg.data then CMP_MATCH else CMP_STOP) {}
          = .ok (.obj NULL)) ∧
      (findSecond (fun p arg f => if p.data = arg.data ∧ f.pointer then CMP_MATCH else 0)
          OBJ_POINTER = .ok (.obj 2) ∧
        findSecond (fun p arg f => if p.data = arg.data ∧ f.pointer then CMP_MATCH else 0) {}
          = .ok (.obj NULL)) ∧
      (∃ st₁ st₂, objFind bumpMachine.toWrap (linkedState 1 (2 ^ 31 : UInt32).toInt32
          (List.replicate (2 ^ 31 - 1) [])) 2 ⟨NULL, none⟩ OBJ_POINTER = .ok (.obj 1, st₁) ∧
        objFind bumpMachine.toWrap (linkedState 1 (2 ^ 31 : UInt32).toInt32
          (List.replicate (2 ^ 31 - 1) [])) 2 ⟨NULL, none⟩ {} = .ok (.obj NULL, st₂)) ∧
      ∃ st', objFind bumpMachine.toWrap (linkedState Int32.maxValue 1 []) 2 ⟨NULL, none⟩ {}
        = .ok (.obj 1, st') ∧ st'.objs.get 1 = none := by
  refine ⟨by with_unfolding_all rfl, ⟨by with_unfolding_all rfl, by with_unfolding_all rfl⟩,
    ⟨by with_unfolding_all rfl, by with_unfolding_all rfl⟩, ?_,
    ⟨_, by with_unfolding_all rfl, by with_unfolding_all rfl⟩⟩
  have hneg : (2 ^ 31 : UInt32).toInt32 = Int32.minValue := by decide +kernel
  have hempty : (List.replicate (2 ^ 31 - 1) ([] : List BucketEntry)).flatten = [] :=
    List.flatten_replicate_nil
  rw [hneg]
  generalize List.replicate (2 ^ 31 - 1) ([] : List BucketEntry) = bs at hempty ⊢
  obtain ⟨st₁, h₁⟩ := objFind_linkedState_neg hempty
  obtain ⟨st₂, h₂⟩ := objFind_neg bumpMachine.toWrap (by decide : (2 : Addr) ≠ NULL)
    (rfl : (linkedState 1 Int32.minValue bs).objs.get 2 = some _) rfl
    (by decide : Int32.minValue.toInt < 0) ⟨NULL, none⟩
  exact ⟨st₁, st₂, h₁, h₂⟩

end Spider.ObjModel
