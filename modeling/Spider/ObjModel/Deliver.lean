import Spider.ObjModel.Once

/-!
# Searches for several results

The objects of the matches are linked into a container of one bucket, which only
the returned iterator refers to. Each `obj_iterator_next` scans that bucket from
its start, finds the first entry, and takes it out together with its reference.
-/

namespace Spider.ObjModel

open Lib Outcome Walk

variable {α : Type}

/-- `obj_iterator_next` until it gives null. -/
def drain (m : Machine) : Nat → State α → ObjIterator →
    Outcome (List Addr × ObjIterator × State α)
  | 0, _, _ => .timeout
  | fuel + 1, st, a => do
    let (ret, a, st) ← objIteratorNext m st a
    if ret = NULL then .ok ([], a, st)
    else do
      let (rets, a, st) ← drain m fuel st a
      .ok (ret :: rets, a, st)

/-- The iterator over the results, between its steps. -/
structure OverResults (mu : Addr) (it : ObjIterator) : Prop where
  c : it.c = mu
  dontlock : it.flags.dontlock = true
  unlink : it.flags.unlink = true
  bucket : it.bucket = 0
  version : it.version = 0
  obj : it.obj = NULL

theorem overResults (mu : Addr) : OverResults mu (resultsIterator mu) :=
  ⟨rfl, rfl, rfl, rfl, rfl, rfl⟩

section

variable {m : Machine} {rs : Multiset Addr} {c mu o : Addr} {objs : List Addr}
  {flags : SearchFlags} {cont : ObjContainer α} {st : State α} {it : ObjIterator}

/-! ## Draining the results -/

/-- The scan finds the first entry of the bucket. -/
theorem scan_results {e : BucketEntry} {es : List BucketEntry} (hw : ContWf cont)
    (hbuckets : cont.buckets = [e :: es]) (hversion : 0 < e.version.toInt) :
    cont.scan 0 0 = (some e, 0, 0) := by
  have hlen : cont.nBuckets.toInt.toNat = 1 := by
    rw [hw.nBuckets, hbuckets]
    rfl
  have hlt : (0 : UInt32) < e.version.toUInt32 := by
    rw [UInt32.lt_iff_toNat_lt]
    have hnat := CInt.toNat_toUInt32 hversion.le
    have hzero : (0 : UInt32).toNat = 0 := rfl
    omega
  rw [ObjContainer.scan, hlen, hbuckets, List.take_one, List.drop_zero]
  simp [scanBuckets, hlt]

/-- The iterator comes to the first of the results. -/
theorem OverResults.advance (hit : OverResults mu it) (cont : ObjContainer α) :
    it.advance cont = .ok ((cont.scan 0 0).1,
      { it with bucket := (cont.scan 0 0).2.1, version := (cont.scan 0 0).2.2 }) := by
  unfold ObjIterator.advance
  rw [if_neg fun hobj => hobj.2 hit.obj, hit.bucket, hit.version]

/-- The first of the results is delivered, with the reference of its entry. -/
theorem objIteratorNext_first (h : Inv st ∅ rs) (hit : OverResults mu it)
    (hg : Gathered st mu (o :: objs)) :
    (objIteratorNext m.toChecked st it).Sat fun x =>
      x.1 = o ∧ o ≠ NULL ∧ OverResults mu x.2.1 ∧ Inv x.2.2 ∅ (o ::ₘ rs) ∧
      Gathered x.2.2 mu objs ∧ ∀ b, b ≠ mu → x.2.2.objs.get b = st.objs.get b := by
  obtain ⟨cont, es, ⟨p, hp, hu⟩, hbuckets, hhash, hobjs, hversions⟩ := hg
  obtain ⟨e, es, rfl, rfl, rfl⟩ := List.map_eq_cons_iff.mp hobjs
  have hw : ContWf cont := Counted.contWf h ⟨p, hp, hu⟩ (Finset.notMem_empty mu)
  have hb : cont.buckets[0]? = some ([] ++ e :: es) := by rw [hbuckets]; rfl
  have hentry : e ∈ p.entries := by
    rw [Obj.entries, hu]
    exact Buckets.mem_flatten hb (by simp)
  obtain ⟨-, q, hq⟩ := h.get_pobj hp (Finset.notMem_empty mu) hentry
  have hadvance := hit.advance cont
  rw [scan_results hw hbuckets (hversions e List.mem_cons_self)] at hadvance
  unfold objIteratorNext internalObjIteratorNext
  simp only [hit.c, h.wf.internalObj hp, ok_bind, hit.dontlock, Bool.not_true, lockIf,
    Bool.false_eq_true, if_false, containerAt_of_get hp hu, hadvance, hit.unlink, if_true,
    Outcome.bind_assoc]
  refine spdAtomicFetchaddInt_checked.bind fun version hx => ?_
  obtain ⟨hv, hvint⟩ := hx
  refine spdAtomicFetchaddInt_checked.bind fun elements hx => ?_
  obtain ⟨hel, helint⟩ := hx
  have heq : { cont.removeEntry 0 e.addr with version := version, elements := elements } =
      cont.unlinked 0 e.addr := by rw [hv, hel, ObjContainer.unlinked]
  rw [hv] at hvint
  rw [hel] at helint
  obtain ⟨hinv, -⟩ := h.unlinked hp hu hb hvint helint
  simp only [heq, ok_bind, refIf, Bool.false_eq_true, if_false, unlockIf, sat_ok]
  have hcont : HasCont ((setContainer st mu p (cont.unlinked 0 e.addr)).emit (.bucketWrite mu)) mu
      (cont.unlinked 0 e.addr) := ⟨_, Heap.get_set_self _ _ _, rfl⟩
  refine ⟨trivial, h.wf.ne_null hq, ⟨rfl, hit.dontlock, hit.unlink, rfl, rfl, rfl⟩, hinv, ?_, ?_⟩
  · refine ⟨_, es, hcont, ?_, ?_, rfl, fun e' he' => hversions e' (List.mem_cons_of_mem e he')⟩
    · rw [ObjContainer.buckets_unlinked, hbuckets]
      simp
    · rw [ObjContainer.hashFn_unlinked, hhash]
  · exact fun b hb => Heap.get_set_of_ne _ _ hb

/-- Behind the last one there is nothing. -/
theorem objIteratorNext_empty (h : Inv st ∅ rs) (hit : OverResults mu it)
    (hg : Gathered st mu []) :
    ∃ it', objIteratorNext m st it = .ok (NULL, it', st) ∧ it'.c = mu := by
  obtain ⟨cont, es, ⟨p, hp, hu⟩, hbuckets, hhash, hobjs, -⟩ := hg
  obtain rfl := List.map_eq_nil_iff.mp hobjs
  have hw : ContWf cont := Counted.contWf h ⟨p, hp, hu⟩ (Finset.notMem_empty mu)
  have hlen : cont.nBuckets.toInt.toNat = 1 := by
    rw [hw.nBuckets, hbuckets]
    rfl
  have hscan : cont.scan 0 0 = (none, 1, 0) := by
    rw [ObjContainer.scan, hlen, hbuckets]
    rfl
  have hadvance := hit.advance cont
  rw [hscan] at hadvance
  unfold objIteratorNext internalObjIteratorNext
  simp only [hit.c, h.wf.internalObj hp, ok_bind, hit.dontlock, Bool.not_true, lockIf,
    Bool.false_eq_true, if_false, containerAt_of_get hp hu, hadvance, refIf, unlockIf]
  exact ⟨_, rfl, rfl⟩

/-- All of the results are delivered, in their order, with one reference each. -/
theorem drain_gathered (h : Inv st ∅ rs) (hit : OverResults mu it) (hg : Gathered st mu objs)
    {fuel : Nat} (hfuel : objs.length < fuel) : (drain m.toChecked fuel st it).Sat fun x =>
      x.1 = objs ∧ x.2.1.c = mu ∧ Inv x.2.2 ∅ ((objs : Multiset Addr) + rs) ∧
      ∀ b, b ≠ mu → x.2.2.objs.get b = st.objs.get b := by
  induction objs generalizing st it rs fuel with
  | nil =>
    obtain ⟨fuel, rfl⟩ : ∃ k, fuel = k + 1 := ⟨fuel - 1, by simp at hfuel; omega⟩
    obtain ⟨it', hnext, hc⟩ := objIteratorNext_empty (m := m.toChecked) h hit hg
    simp only [drain, hnext, ok_bind, if_true, sat_ok]
    exact ⟨trivial, hc, by simpa using h, fun _ _ => trivial⟩
  | cons o objs ih =>
    obtain ⟨fuel, rfl⟩ : ∃ k, fuel = k + 1 := ⟨fuel - 1, by simp at hfuel; omega⟩
    rw [drain]
    refine (objIteratorNext_first h hit hg).bind fun x hx => ?_
    obtain ⟨ret, it1, st1⟩ := x
    obtain ⟨rfl, hne, hit1, hinv1, hg1, hget1⟩ := hx
    simp only at hit1 hinv1 hg1 hget1 hne
    have hfuel' : objs.length < fuel := by simpa using hfuel
    dsimp only
    rw [if_neg hne]
    refine (ih hinv1 hit1 hg1 hfuel').bind fun x hx => ?_
    obtain ⟨rets, it2, st2⟩ := x
    obtain ⟨rfl, hc2, hinv2, hget2⟩ := hx
    refine ⟨rfl, hc2, ?_, fun b hb => (hget2 b hb).trans (hget1 b hb)⟩
    rw [Multiset.add_cons] at hinv2
    rwa [← Multiset.cons_coe, Multiset.cons_add]

/-! ## The search -/

/-- The entries between the boundaries of a search. -/
def ObjContainer.searched (cont : ObjContainer α) (flags : SearchFlags) (arg : Ptr α) :
    List BucketEntry :=
  ((cont.buckets.take (cont.lastBucket flags arg)).drop (cont.startBucket flags arg)).flatten

section

variable {g : List MatchCall → BucketEntry → Int32} {bs : List (List BucketEntry)}
  {start i last : Nat} {calls : List MatchCall}

/-- Without `OBJ_CONTINUE` the loop comes to its end. -/
theorem loopWalk_isSome (hf : flags.continue_ = false) {fuel : Nat} (hfuel : last - i < fuel) :
    ∃ calls', loopWalk flags g bs start fuel i last calls = some calls' := by
  induction fuel generalizing i calls with
  | zero => omega
  | succ fuel ih =>
    rw [loopWalk]
    by_cases hlt : i < last
    · have hnext : ∀ j, i ≤ j → last - (j + 1) < fuel := by omega
      rw [if_pos hlt]
      dsimp only
      split
      · exact ⟨_, rfl⟩
      · rw [if_neg (by simp [hf])]
        refine ih (hnext _ ?_)
        split <;> omega
    · exact ⟨calls, if_neg hlt⟩

/-- Without `OBJ_CONTINUE` the calls are a walk along the entries between the boundaries. -/
theorem loopWalk_of_not_continue (hd : (bs.flatten.map BucketEntry.addr).Nodup)
    (hf : flags.continue_ = false) (hlast : last ≤ bs.length) (hi : i < last) {fuel : Nat}
    (hfuel : last - i < fuel) : loopWalk flags g bs start fuel i last [] =
      some (walk g flags.ends [] ((bs.take last).drop i).flatten) := by
  obtain ⟨calls', hcalls⟩ : ∃ calls', loopWalk flags g bs start fuel i last [] = some calls' :=
    loopWalk_isSome hf hfuel
  obtain ⟨n, hn⟩ := loopWalk_pass (g := g) start hd hlast hi
    (result_nil : result flags [] = NULL) rfl
  have hpass := hn fuel
  rw [loopWalk_mono hcalls n, left_nil, List.nil_append] at hpass
  simp only [hf, Bool.false_eq_true, and_false, if_false, ite_self] at hpass
  rw [hcalls, hpass]

end

theorem ends_of_multiple (hm : flags.multiple = true) : flags.ends = stops := by
  funext r
  simp [SearchFlags.ends, hm]

theorem ObjContainer.startBucket_lt_lastBucket (hw : ContWf cont) (arg : Ptr α) :
    cont.startBucket flags arg < cont.lastBucket flags arg := by
  have hlt := startBucket_lt flags hw arg
  unfold lastBucket
  split <;> omega

/-- With memory there is a container for the results. -/
theorem starved_eq_false (halloc : ∀ n live, m.calloc n live ≠ none) (flags : SearchFlags) :
    starved m st flags = false := by
  have hcalloc : ∀ (st : State α) live, (spdCalloc m st live).1 ≠ NULL := fun st live hnull =>
    halloc _ _ (spdCalloc_eq_null hnull)
  have hmulti : (objContainerAlloc m st 1 none none).1 ≠ NULL := by
    unfold objContainerAlloc internalObjAlloc
    dsimp only
    rw [if_neg (hcalloc _ _)]
    exact hcalloc _ _
  simp [starved, hmulti, hcalloc]

/-! ## On the wrapping machine -/

namespace Open

variable {ref ref' : State α → Addr → Int32 → Outcome (Int32 × State α)} (m)
  (href : ∀ st a d, (ref st a d).Refines (ref' st a d))

include href

theorem traverseCalls_refines (c : Addr) (flags : SearchFlags) (f : MatchFn α)
    (multi : Option Addr) (i : Nat) (es : List BucketEntry) (ret : Addr) (calls : List MatchCall)
    (st : State α) :
    (traverseCalls ref m.toChecked c flags f multi i es ret calls st).Refines
      (traverseCalls ref' m.toWrap c flags f multi i es ret calls st) := by
  induction es generalizing ret calls st with
  | nil => exact .refl _
  | cons cur rest ih =>
    unfold traverseCalls
    refine .bind (.refl _) fun ptr => .ite (ih _ _ _) (.ite (.refl _) ?_)
    refine .bind (takeMatch_refines m href _ _ _ _ _) fun x => ?_
    refine .bind (unlinkCurrent_refines m href _ _ _ _ _) fun st => ?_
    exact .ite (.refl _) (ih _ _ _)

theorem loopCalls_refines (c : Addr) (flags : SearchFlags) (f : MatchFn α) (multi : Option Addr)
    (start : Int) (fuel : Nat) (i last : Int) (ret : Addr) (calls : List MatchCall)
    (st : State α) :
    (loopCalls ref m.toChecked c flags f multi start fuel i last ret calls st).Refines
      (loopCalls ref' m.toWrap c flags f multi start fuel i last ret calls st) := by
  induction fuel generalizing i last ret calls st with
  | zero => exact .refl _
  | succ fuel ih =>
    unfold loopCalls
    refine .ite (.bind (.refl _) fun _ => .bind (.refl _) fun _ => ?_) (.refl _)
    refine .bind (traverseCalls_refines m href c flags f _ _ _ _ _ _) fun x => ?_
    exact .ite (.refl _) (.ite (ih _ _ _ _ _) (ih _ _ _ _ _))

theorem searchCalls_refines (fuel : ObjContainer α → Nat) (st : State α) (c : Addr)
    (flags : SearchFlags) (f : MatchFn α) (arg : Ptr α) (multi : Option Addr) :
    (searchCalls ref m.toChecked fuel st c flags f arg multi).Refines
      (searchCalls ref' m.toWrap fuel st c flags f arg multi) := by
  unfold searchCalls
  refine .bind (.refl _) fun _ => .bind (.refl _) fun _ => .bind (.refl _) fun _ => ?_
  refine .bind (loopCalls_refines m href c flags f _ _ _ _ _ _ _ _) fun _ => ?_
  exact .bind (.refl _) fun _ => .refl _

theorem callbackCalls_refines (fuel : ObjContainer α → Nat) (st : State α) (c : Addr)
    (flags : SearchFlags) (cbFn : Option (MatchFn α)) (arg : Ptr α) :
    (callbackCalls ref m.toChecked fuel st c flags cbFn arg).Refines
      (callbackCalls ref' m.toWrap fuel st c flags cbFn arg) := by
  unfold callbackCalls
  refine .bind (.refl _) fun o => ?_
  cases o with
  | none => exact .refl _
  | some _ =>
    refine .ite (.ite (.refl _) (.ite (.bind (href _ _ _) fun _ => .refl _) ?_)) ?_
    · refine .bind (searchCalls_refines m href fuel _ c flags _ arg _) fun _ => ?_
      refine .bind (objIteratorInit_refines href _ _ _) fun _ => ?_
      exact .bind (href _ _ _) fun _ => .refl _
    · exact .bind (searchCalls_refines m href fuel _ c flags _ arg _) fun _ => .refl _

end Open

theorem drain_refines (fuel : Nat) (st : State α) (a : ObjIterator) :
    (drain m.toChecked fuel st a).Refines (drain m.toWrap fuel st a) := by
  induction fuel generalizing st a with
  | zero => exact .refl _
  | succ fuel ih =>
    unfold drain
    refine .bind (objIteratorNext_refines m st a) fun x => .ite (.refl _) ?_
    exact .bind (ih _ _) fun _ => .refl _

/-- A search for several results, the iterator being used until it gives null: the container of
    the results, the calls of the match function, and the objects delivered. -/
def searchAll (m : Machine) (fuel : Nat) (st : State α) (c : Addr) (flags : SearchFlags)
    (cbFn : Option (MatchFn α)) (arg : Ptr α) :
    Outcome (Addr × List MatchCall × List Addr × State α) := do
  let (ret, calls, st) ← Open.callbackCalls (objRef m) m Open.loopFuel st c flags cbFn arg
  match ret with
  | .obj _ => .ok (NULL, calls, [], st)
  | .iter it => do
    let (rets, it, st) ← drain m fuel st it
    .ok (it.c, calls, rets, st)

theorem searchAll_refines (fuel : Nat) (st : State α) (c : Addr) (flags : SearchFlags)
    (cbFn : Option (MatchFn α)) (arg : Ptr α) :
    (searchAll m.toChecked fuel st c flags cbFn arg).Refines
      (searchAll m.toWrap fuel st c flags cbFn arg) := by
  unfold searchAll
  refine .bind (Open.callbackCalls_refines m (objRef_refines m) _ _ _ _ _ _) fun x => ?_
  obtain ⟨ret, calls, st⟩ := x
  cases ret with
  | obj _ => exact .refl _
  | iter it => exact .bind (drain_refines fuel st it) fun _ => .refl _

/-- On the checked machine the search and the iterator come to an end, or a counter passes its
    limit. -/
theorem searchAll_sat (h : Inv st ∅ rs) (hc : c ∈ rs) (hcont : HasCont st c cont)
    (hmultiple : flags.multiple = true) (hnodata : flags.nodata = false)
    (hcontinue : flags.continue_ = false) (halloc : ∀ n live, m.calloc n live ≠ none)
    (cbFn : Option (MatchFn α)) (arg : Ptr α) {fuel : Nat}
    (hfuel : (cont.searched flags arg).length < fuel) :
    (searchAll m.toChecked fuel st c flags cbFn arg).Sat fun x =>
      x.2.1 = walk (ask (cbFn.getD fun _ _ => CMP_MATCH) (matchPtr st)) stops []
        (cont.searched flags arg) ∧
      x.2.2.1 = matched x.2.1 ∧
      Inv x.2.2.2 ∅ ((x.2.2.1 : Multiset Addr) + x.1 ::ₘ rs) ∧
      ∃ cont', HasCont x.2.2.2 c cont' ∧ cont'.buckets = cont.buckets.map (left flags x.2.1) := by
  have hw : ContWf cont := Counted.contWf h hcont (Finset.notMem_empty c)
  have hstarved : starved m st flags = false := starved_eq_false halloc flags
  have hlast := ObjContainer.lastBucket_le flags hw arg
  have hloop : cont.lastBucket flags arg - cont.startBucket flags arg < Open.loopFuel cont := by
    have hn := hw.nBuckets
    unfold Open.loopFuel
    omega
  have hmirrors := callbackCalls_mirrors (m := m) hc h hcont flags Open.loopFuel cbFn arg
  rw [hstarved, if_neg Bool.false_ne_true, loopWalk_of_not_continue hw.addrs hcontinue hlast
    (ObjContainer.startBucket_lt_lastBucket hw arg) hloop, ends_of_multiple hmultiple] at hmirrors
  unfold searchAll
  refine Sat.bind hmirrors ?_
  rintro ⟨ret, calls, st1⟩ ⟨hcalls, hcalled⟩
  simp only at hcalls hcalled
  obtain ⟨mu, rfl, hne, hg⟩ := hcalled.iter hmultiple hnodata halloc hstarved
  have hinv := hcalled.inv
  rw [CallbackRet.refs, Multiset.singleton_add] at hinv
  have hmatched : (matched calls).length < fuel := by
    have hwalked : calls.length ≤ (cont.searched flags arg).length := by
      rw [hcalls]
      exact length_walk_le
    have hreports : (matched calls).length ≤ calls.length := by
      rw [matched, List.length_map]
      exact List.length_filter_le _ _
    omega
  rw [← hcalls] at hg
  refine (drain_gathered hinv (overResults mu) hg hmatched).bind ?_
  rintro ⟨rets, it, st2⟩ ⟨rfl, hit, hinv2, hget2⟩
  simp only at hit hinv2 hget2
  obtain ⟨cont', ⟨p, hp, hu⟩, hbuckets⟩ := hcalled.cont
  refine ⟨hcalls, rfl, ?_, cont', ⟨p, (hget2 c (Ne.symm hne)).trans hp, hu⟩, ?_⟩
  · simp only [hit]
    exact hinv2
  · rw [hcalls]
    exact hbuckets

/-- A search for several results calls the match function for the entries between its boundaries,
    up to the first stop, and the iterator it returns delivers the objects of the matches, in the
    order of the calls and with one reference each, if no counter passes its limit; the container
    holds what it held, without the matches if they were to be unlinked. -/
theorem search_delivers (h : Inv st ∅ rs) (hc : c ∈ rs) (hcont : HasCont st c cont)
    (hmultiple : flags.multiple = true) (hnodata : flags.nodata = false)
    (hcontinue : flags.continue_ = false) (halloc : ∀ n live, m.calloc n live ≠ none)
    (cbFn : Option (MatchFn α)) (arg : Ptr α) {fuel : Nat}
    (hfuel : (cont.searched flags arg).length < fuel)
    (hroom : searchAll m.toChecked fuel st c flags cbFn arg ≠ .overflow) :
    ∃ mu calls st' cont',
      searchAll m.toWrap fuel st c flags cbFn arg = .ok (mu, calls, matched calls, st') ∧
      calls = walk (ask (cbFn.getD fun _ _ => CMP_MATCH) (matchPtr st)) stops []
        (cont.searched flags arg) ∧
      Inv st' ∅ ((matched calls : Multiset Addr) + mu ::ₘ rs) ∧
      HasCont st' c cont' ∧ cont'.buckets = cont.buckets.map (left flags calls) := by
  obtain ⟨⟨mu, calls, rets, st'⟩, hrun, hcalls, hrets, hinv, cont', hcont', hbuckets⟩ :=
    (searchAll_sat (m := m) h hc hcont hmultiple hnodata hcontinue halloc cbFn arg hfuel).returns
      hroom
  simp only at hcalls hrets hinv hcont' hbuckets
  subst hrets
  exact ⟨mu, calls, st', cont', searchAll_refines fuel st c flags cbFn arg _ hrun, hcalls, hinv,
    hcont', hbuckets⟩

end

/-- Of the objects of `roundState` those with odd numbers match, and the search is to stop at the
    fourth call. -/
def matchOdd : MatchFn Nat := fun calls p =>
  if calls.length = 3 then CMP_STOP
  else if p.data.any (· % 2 = 1) then CMP_MATCH else 0

/-- They are to be unlinked. -/
def oddFlags : SearchFlags := { multiple := true, unlink := true }

/-- Two objects of different buckets are delivered, and the others stay linked. -/
theorem search_delivers_roundState : ∃ mu calls st' cont',
    searchAll bumpMachine.toWrap 5 roundState 5 oddFlags (some matchOdd) ⟨NULL, none⟩ =
      .ok (mu, calls, [2, 1], st') ∧
    Inv st' ∅ (([2, 1] : List Addr) + mu ::ₘ {5, 4, 3, 2, 1}) ∧ HasCont st' 5 cont' ∧
    cont'.buckets = [[], [⟨3, 3, 3⟩], [⟨4, 4, 4⟩]] := by
  have hok : ∃ x, searchAll bumpMachine.toChecked 5 roundState 5 oddFlags (some matchOdd)
      ⟨NULL, none⟩ = .ok x ∧ x.2.1 = [(⟨2, 2, 2⟩, CMP_MATCH), (⟨1, 1, 1⟩, CMP_MATCH),
        (⟨3, 3, 3⟩, 0), (⟨4, 4, 4⟩, CMP_STOP)] :=
    ⟨_, by with_unfolding_all rfl, by decide +kernel⟩
  obtain ⟨x, hx, hcalls⟩ := hok
  obtain ⟨mu, calls, st', cont', hrun, -, hinv, hcont', hbuckets⟩ :=
    search_delivers (m := bumpMachine) roundState_inv (by decide)
      roundState_cont rfl rfl rfl (fun _ _ => Option.some_ne_none _) (some matchOdd) ⟨NULL, none⟩
      (show 4 < 5 by decide) (by rw [hx]; simp)
  have hsame := hrun.symm.trans (searchAll_refines 5 roundState 5 oddFlags _ _ x hx)
  obtain rfl : calls = x.2.1 := congrArg (fun y => y.2.1) (Outcome.ok.inj hsame)
  have hmatched : matched x.2.1 = [2, 1] := by rw [hcalls]; decide
  rw [hmatched] at hrun hinv
  refine ⟨mu, _, st', cont', hrun, hinv, hcont', ?_⟩
  rw [hbuckets, hcalls]
  decide

/-! ## References at their limit -/

/-- `wrapState` when the client has taken more references to the object. -/
def wrapWith (v : Int32) : State Unit := wrapState.setObj 1 ⟨v, none, .data (), 0⟩

theorem wrapWith_setObj (v w : Int32) :
    (wrapWith v).setObj 1 ⟨w, none, .data (), 0⟩ = wrapWith w := by
  have hset : ∀ h : Heap (Obj Unit), (h.set 1 ⟨v, none, .data (), 0⟩).set 1 ⟨w, none, .data (), 0⟩
      = h.set 1 ⟨w, none, .data (), 0⟩ := fun h => Finmap.insert_insert ..
  simp only [wrapWith, State.setObj, hset]

/-- References are taken up to the largest `int`. -/
theorem wrapWith_refs {k : Nat} {v : Int32} (hv : 0 < v.toInt) (hk : v.toInt + k = 2 ^ 31 - 1)
    (owned : Multiset Addr) :
    Run.Legal (exec bumpMachine.toWrap) Enabled ⟨wrapWith v, owned, []⟩
        (List.replicate k (.objRef 1)) ∧
      ∃ owned', Run.run (exec bumpMachine.toWrap) ⟨wrapWith v, owned, []⟩
        (List.replicate k (.objRef 1)) = .ok ⟨wrapWith Int32.maxValue, owned', []⟩ ∧
        owned ⊆ owned' := by
  induction k generalizing v owned with
  | zero =>
    have hmax : v = Int32.maxValue := Int32.toInt_inj.mp (by rw [Int32.toInt_maxValue]; omega)
    subst hmax
    exact ⟨trivial, owned, rfl, Multiset.Subset.refl owned⟩
  | succ k ih =>
    have hne : v ≠ Int32.maxValue := by
      rintro rfl
      rw [Int32.toInt_maxValue] at hk
      omega
    have hv1 := CInt.toInt_add_one hne
    have hnot : ¬ v + 1 ≤ 0 := by
      rw [Int32.le_iff_toInt_le, hv1, Int32.toInt_zero]
      omega
    have hget : (wrapWith v).objs.get 1 = some ⟨v, none, .data (), 0⟩ := Heap.get_set_self _ _ _
    have hexec := exec_objRef_data (m := bumpMachine) (s := ⟨wrapWith v, owned, []⟩) (by decide)
      hget rfl
    simp only [hnot, if_false, wrapWith_setObj] at hexec
    obtain ⟨hlegal, owned', hrun, hsub⟩ := ih (v := v + 1) (by omega) (by omega) (1 ::ₘ owned)
    have hmem : Enabled (⟨wrapWith v, owned, []⟩ : Sys Unit) (.objRef 1) :=
      Heap.mem_dom_of_get hget
    rw [List.replicate_succ, Run.run_cons_of_ok hexec]
    exact ⟨Run.legal_cons_of_ok hexec hmem hlegal, owned', hrun,
      fun _ ha => hsub (Multiset.mem_cons_of_mem ha)⟩

/-- An object is linked, and `k` references are taken to it. -/
def fullOps (k : Nat) : List (Op Unit) := wrapOps ++ List.replicate k (.objRef 1)

theorem fullOps_run {k : Nat} (hk : 2 + k = 2 ^ 31 - 1) :
    Run.Legal (exec bumpMachine.toWrap) Enabled {} (fullOps k) ∧
      ∃ owned, Run.run (exec bumpMachine.toWrap) {} (fullOps k) =
        .ok ⟨wrapWith Int32.maxValue, owned, []⟩ ∧ 1 ∈ owned := by
  have hwrap : wrapState = wrapWith 2 := by with_unfolding_all rfl
  have htwo : (2 : Int32).toInt = 2 := by decide
  obtain ⟨hlegal, owned, hrun, hsub⟩ := wrapWith_refs (k := k) (v := 2) (by decide) (by omega) {2, 1}
  rw [← hwrap] at hlegal hrun
  refine ⟨Run.legal_append_iff.mpr ⟨wrapOps_legal, ?_⟩, owned, ?_, hsub (by decide)⟩
  · intro s' hs'
    obtain rfl := Outcome.ok.inj (wrapOps_run.symm.trans hs')
    exact hlegal
  · rw [fullOps, Run.run_append, wrapOps_run]
    exact hrun

/-- With the counter of its only match at the largest `int` the search takes another reference to
    the object, which destroys it; its address is delivered. -/
theorem search_destroys :
    Run.Legal (exec bumpMachine.toWrap) Enabled {} (fullOps (2 ^ 31 - 3)) ∧
      ∃ s, Run.run (exec bumpMachine.toWrap) {} (fullOps (2 ^ 31 - 3)) = .ok s ∧ 1 ∈ s.owned ∧
      ∃ mu calls st', searchAll bumpMachine.toWrap 2 s.st 2 { multiple := true } none
        ⟨NULL, none⟩ = .ok (mu, calls, [1], st') ∧ 1 ∉ st'.objs.dom := by
  have hdestroyed : ∃ mu calls st', searchAll bumpMachine.toWrap 2 (wrapWith Int32.maxValue) 2
      { multiple := true } none ⟨NULL, none⟩ = .ok (mu, calls, [1], st') ∧ 1 ∉ st'.objs.dom :=
    ⟨_, _, _, by with_unfolding_all rfl, by decide +kernel⟩
  obtain ⟨hlegal, owned, hrun, howned⟩ := fullOps_run (k := 2 ^ 31 - 3) (by omega)
  exact ⟨hlegal, ⟨wrapWith Int32.maxValue, owned, []⟩, hrun, howned, hdestroyed⟩

end Spider.ObjModel
