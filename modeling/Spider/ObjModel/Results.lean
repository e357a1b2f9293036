import Spider.ObjModel.Calls

/-!
# The result of a search

`internal_obj_callback` from its first line to its last, with the calls of the
match function on record: it makes the calls of `loopWalk` between its search
boundaries, returns the object of the call that ends the search, or an iterator
over a container with the objects of all matches, and leaves the container
without the entries it has unlinked.
-/

namespace Spider.ObjModel

open Lib Outcome Walk

variable {α : Type}

/-! ## The search boundaries -/

/-- The remainder of the hash value, which is negative for a negative hash value. -/
def ObjContainer.hashRem (cont : ObjContainer α) (arg : Ptr α) : Int :=
  (cont.hashFn arg OBJ_POINTER % cont.nBuckets).toInt

/-- The bucket a search starts at. Without a hash value, and for a negative remainder, all buckets
    are scanned from the first one on. -/
def ObjContainer.startBucket (cont : ObjContainer α) (flags : SearchFlags) (arg : Ptr α) : Nat :=
  if flags.pointer then (cont.hashRem arg).toNat else 0

/-- The bucket behind the last one, as far as there is no wrap. -/
def ObjContainer.lastBucket (cont : ObjContainer α) (flags : SearchFlags) (arg : Ptr α) : Nat :=
  if flags.pointer && !flags.continue_ && 0 ≤ cont.hashRem arg then cont.startBucket flags arg + 1
  else cont.buckets.length

section

variable {m : Machine} {rs : Multiset Addr} {a c : Addr} {flags : SearchFlags}
  {multi : Option Addr} {cont : ObjContainer α} {ptr : BucketEntry → Ptr α} {calls : List MatchCall}
  {st st' : State α}

theorem ObjContainer.startBucket_lt (flags : SearchFlags) (hw : ContWf cont) (arg : Ptr α) :
    cont.startBucket flags arg < cont.buckets.length := by
  have hpos := hw.pos
  have hlen := hw.nBuckets
  have hlt := Int.tmod_lt_of_pos (cont.hashFn arg OBJ_POINTER).toInt hpos
  rw [← Int32.toInt_mod] at hlt
  unfold startBucket hashRem
  split <;> omega

theorem ObjContainer.lastBucket_le (flags : SearchFlags) (hw : ContWf cont) (arg : Ptr α) :
    cont.lastBucket flags arg ≤ cont.buckets.length := by
  have hlt := startBucket_lt flags hw arg
  unfold lastBucket
  split <;> omega

/-- A search with `OBJ_CONTINUE` goes on to the last bucket. -/
theorem ObjContainer.lastBucket_of_continue (hf : flags.continue_ = true) (arg : Ptr α) :
    cont.lastBucket flags arg = cont.buckets.length := by
  simp [lastBucket, hf]

theorem searchBounds_eq (hw : ContWf cont) (arg : Ptr α) : Open.searchBounds cont flags arg =
    .ok ((cont.startBucket flags arg : Int), (cont.lastBucket flags arg : Int)) := by
  have hpos := hw.pos
  have hlen := hw.nBuckets
  unfold Open.searchBounds Open.hashedBucket ObjContainer.lastBucket ObjContainer.startBucket
  cases hp : flags.pointer with
  | false =>
    simp only [Bool.false_eq_true, if_false, ok_bind, Bool.false_and]
    rw [if_pos (by decide : (-1 : Int) < 0), hlen]
    rfl
  | true =>
    have hrem : (cont.hashFn arg OBJ_POINTER % cont.nBuckets).toInt = cont.hashRem arg := rfl
    simp only [if_true, cMod_eq _ hpos, ok_bind, Bool.true_and, hrem]
    by_cases hneg : cont.hashRem arg < 0
    · have hnot : ¬ 0 ≤ cont.hashRem arg := by omega
      have hzero : (cont.hashRem arg).toNat = 0 := by omega
      simp only [if_pos hneg, decide_eq_false hnot, Bool.and_false, Bool.false_eq_true, if_false,
        hzero, hlen]
      rfl
    · have hle : 0 ≤ cont.hashRem arg := by omega
      have hcast : ((cont.hashRem arg).toNat : Int) = cont.hashRem arg := Int.toNat_of_nonneg hle
      simp only [if_neg hneg, decide_eq_true hle, Bool.and_true]
      cases flags.continue_ with
      | true => simp [hcast, hlen]
      | false => simp [hcast]

/-! ## The search -/

variable (f : MatchFn α)

/-- The search makes the calls of `loopWalk`. -/
theorem searchCalls_mirrors (hc : c ∈ rs) (hcont : HasCont st c cont)
    (h : Searching m rs c flags multi cont.nBuckets cont.buckets ptr [] st)
    (fuel : ObjContainer α → Nat) (arg : Ptr α) :
    (Open.searchCalls (objRef m.toChecked) m.toChecked fuel st c flags f arg multi).Mirrors
      (loopWalk flags (ask f ptr) cont.buckets (cont.startBucket flags arg) (fuel cont)
        (cont.startBucket flags arg) (cont.lastBucket flags arg) []) fun x calls =>
      x.2.1 = calls ∧ x.1 = result flags calls ∧ Keeps rs st x.2.2 ∧
        Searching m (retRef x.1 + rs) c flags multi cont.nBuckets cont.buckets ptr calls x.2.2 := by
  have hw : ContWf cont := Counted.contWf h.inv hcont (Finset.notMem_empty c)
  obtain ⟨p, hp, hu⟩ := hcont
  obtain ⟨st1, hst1, hobj1, hcount1⟩ := h.inv.wf.lockIf hp (!flags.nolock)
  have h1 := h.of_objs (.of_counted hobj1 (hcount1 _ h.inv)) hobj1
  unfold Open.searchCalls
  simp only [containerAt_of_get hp hu, ok_bind, searchBounds_eq hw, hst1]
  refine (loopCalls_mirrors f hc (ObjContainer.startBucket_lt flags hw arg).le _ _
    (ObjContainer.lastBucket_le flags hw arg) h1 result_nil).bind_sat
    fun ⟨ret, calls', st2⟩ calls _ hx => ?_
  obtain ⟨hcalls, hret, hkeep2, h2⟩ := hx
  simp only at hcalls hret hkeep2 h2
  obtain ⟨-, q, hq⟩ := h2.inv.get_of_mem (Multiset.mem_add.mpr (Or.inr hc))
  obtain ⟨st3, hst3, hobj3, hcount3⟩ := h2.inv.wf.unlockIf hq (!flags.nolock)
  simp only [hst3, ok_bind, sat_ok]
  have hkeep : Keeps rs st st3 := (Keeps.trans (.of_objs hobj1) hkeep2).trans (.of_objs hobj3)
  exact ⟨hcalls, hret, hkeep, h2.of_objs (.of_counted hobj3 (hcount3 _ h2.inv)) hobj3⟩

end

/-! ## The result -/

/-- There is no memory for the container of several results, or for its iterator. -/
def starved (m : Machine) (st : State α) (flags : SearchFlags) : Bool :=
  flags.multiple && !flags.nodata &&
    ((objContainerAlloc m st 1 none none).1 = NULL ||
      (spdCalloc m (objContainerAlloc m st 1 none none).2 ∅).1 = NULL)

/-- The object that a search returns. -/
def CallbackRet.object : CallbackRet → Addr
  | .obj a => a
  | .iter _ => NULL

/-- The iterator over several results. -/
def resultsIterator (multi : Addr) : ObjIterator :=
  { c := multi, flags := { dontlock := true, mallocd := true, unlink := true } }

/-- What a search of the container `c` with contents `cont` leaves behind with these calls. -/
structure Called (m : Machine) (rs : Multiset Addr) (c : Addr) (flags : SearchFlags)
    (cont : ObjContainer α) (st : State α) (ret : CallbackRet) (calls : List MatchCall)
    (st' : State α) : Prop where
  inv : Inv st' ∅ (ret.refs + rs)
  keeps : Keeps rs st st'
  cont : ∃ cont', HasCont st' c cont' ∧ cont'.buckets = cont.buckets.map (left flags calls)
  object : ret.object = result flags calls
  iter : flags.multiple = true → flags.nodata = false → (∀ n live, m.calloc n live ≠ none) →
    starved m st flags = false → ∃ mu, ret = .iter (resultsIterator mu) ∧ mu ≠ c ∧
      Gathered st' mu (matched calls)

section

variable {m : Machine} {rs : Multiset Addr} {a c : Addr} {flags : SearchFlags}
  {multi : Option Addr} {cont : ObjContainer α} {ptr : BucketEntry → Ptr α} {calls : List MatchCall}
  {st st' : State α}

/-- A new object is the only change. -/
theorem internalObjAlloc_cases {d : Option DestructorFn} {u : UserData α}
    (h : internalObjAlloc m st d u = (a, st')) : a = NULL ∧ st'.objs = st.objs ∨
      a ≠ NULL ∧ st'.objs = st.objs.set a ⟨1, d, u, st.serials⟩ := by
  unfold internalObjAlloc at h
  dsimp only at h
  split at h
  · obtain ⟨rfl, rfl⟩ := Prod.ext_iff.mp h
    exact .inl ⟨rfl, rfl⟩
  next hne =>
    obtain ⟨rfl, rfl⟩ := Prod.ext_iff.mp h
    exact .inr ⟨hne, rfl⟩

/-- Nothing is returned for several results, and none without `OBJ_NODATA` by a call that is no
    match. -/
theorem result_of_multiple (hm : flags.multiple = true) (calls : List MatchCall) :
    result flags calls = NULL := by
  unfold result
  split
  · simp [SearchFlags.returns, hm]
  · rfl

/-- The container for several results, before the search. -/
theorem objContainerAlloc_results (h : Inv st ∅ rs) : ∃ mu st',
    objContainerAlloc m st 1 none none = (mu, st') ∧ Inv st' ∅ (retRef mu + rs) ∧
      Keeps rs st st' ∧ (∀ b ∈ st.objs.dom, st'.objs.get b = st.objs.get b) ∧
      (mu ≠ NULL → mu ∉ st.objs.dom ∧ Gathered st' mu []) := by
  obtain ⟨mu, st', heq, hinv, hkeep, hnew⟩ := objContainerAlloc_inv (m := m) h 1 none none
    (by simp) (by simp)
  refine ⟨mu, st', heq, hinv, hkeep, ?_⟩
  rcases internalObjAlloc_cases heq with ⟨hnull, hobjs⟩ | ⟨hne, hobjs⟩
  · exact ⟨fun b _ => by rw [hobjs], fun hne => absurd hnull hne⟩
  · have hmu := (hnew hne).1
    have hget := Heap.get_set_self st.objs mu ⟨1, some .containerDestruct, .container {
      hashFn := hashZero, cmpFn := none, nBuckets := 1, elements := 0, version := 1,
      buckets := [[]] }, st.serials⟩
    refine ⟨fun b hb => ?_, fun _ => ⟨hmu, _, [], ⟨_, hobjs ▸ hget, rfl⟩, rfl, rfl, rfl, nofun⟩⟩
    rw [hobjs, Heap.get_set_of_ne _ _ fun hbmu : b = mu => hmu (hbmu ▸ hb)]

/-- What the match function is given for an entry. -/
def matchPtr (st : State α) (e : BucketEntry) : Ptr α :=
  ⟨e.pobj, (st.objs.get e.pobj).bind Obj.data⟩

theorem externalObj_matchPtr (h : Inv st ∅ rs) (hcont : HasCont st c cont) {e : BucketEntry}
    (he : e ∈ cont.buckets.flatten) : externalObj st e.pobj = .ok (matchPtr st e) := by
  obtain ⟨p, hp, hu⟩ := hcont
  have hentry : e ∈ p.entries := by
    rw [Obj.entries, hu]
    exact he
  obtain ⟨-, q, hq⟩ := h.get_pobj hp (Finset.notMem_empty c) hentry
  rw [externalObj_eq hq, matchPtr, hq, Option.bind_some]

theorem Gathered.of_frame {mu : Addr} {objs : List Addr} {Z : Finset Addr}
    (h : Gathered st mu objs) (hf : Frame Z st st') (hi : Inv st' Z rs) (hmu : mu ∈ rs) :
    Gathered st' mu objs := by
  obtain ⟨k, es, hk, hrest⟩ := h
  exact ⟨k, es, hk.of_frame hf hi hmu, hrest⟩

/-- Before the first call. -/
theorem Searching.start (h : Inv st ∅ rs) (hcont : HasCont st c cont)
    (hm : MultiOk st c rs flags multi)
    (hptr : ∀ e ∈ cont.buckets.flatten, externalObj st e.pobj = .ok (ptr e))
    (hg : ∀ mu, multi = some mu → Gathered st mu []) :
    Searching m rs c flags multi cont.nBuckets cont.buckets ptr [] st := by
  have hleft : cont.buckets.map (left flags []) = cont.buckets :=
    List.map_id'' left_nil cont.buckets
  refine ⟨h, ⟨cont, hcont, hleft.symm, rfl⟩, hm, ?_, fun mu hmu _ => hg mu hmu⟩
  rw [hleft]
  exact hptr

/-- Without the memory for the results no search takes place. -/
theorem called_nothing (hinv : Inv st' ∅ rs) (hkeep : Keeps rs st st') (hcont : HasCont st' c cont)
    (hfail : starved m st flags = true) : Called m rs c flags cont st (.obj NULL) [] st' := by
  have hleft : cont.buckets.map (left flags []) = cont.buckets :=
    List.map_id'' left_nil cont.buckets
  refine ⟨by simpa [CallbackRet.refs] using hinv, hkeep, ⟨cont, hcont, hleft.symm⟩, rfl, ?_⟩
  exact fun _ _ _ hnot => absurd (hfail.symm.trans hnot) Bool.noConfusion

/-- Behind a search for several results their container goes to an iterator. -/
theorem results_called {mu : Addr} (hc : c ∈ rs) (hne : mu ≠ c) (hmultiple : flags.multiple = true)
    (hkeep : Keeps rs st st')
    (h : Searching m (mu ::ₘ rs) c flags (some mu) cont.nBuckets cont.buckets ptr calls st') :
    (Open.objIteratorInit (objRef m.toChecked) st' mu
        { dontlock := true, mallocd := true, unlink := true } >>= fun x =>
      objRef m.toChecked x.2 mu (-1) >>= fun y => .ok (CallbackRet.iter x.1, calls, y.2)).Sat
      fun y => y.2.1 = calls ∧ Called m rs c flags cont st y.1 calls y.2.2 := by
  have hmem := Multiset.mem_cons_self mu rs
  have hc' : c ∈ mu ::ₘ rs := Multiset.mem_cons_of_mem hc
  obtain ⟨-, q, hq⟩ := h.inv.get_of_mem hmem
  unfold Open.objIteratorInit
  simp only [Outcome.bind_assoc, ok_bind]
  refine (objRef_inc_ext h.inv (Heap.mem_dom_of_get hq)).bind fun ⟨_, st1⟩ ⟨hinv1, hframe1⟩ => ?_
  refine (objRef_dec hinv1).bind fun ⟨_, st2⟩ ⟨hinv2, hframe2⟩ => ?_
  have hkeep1 := (hframe1.keeps hinv1).mono (Multiset.subset_cons (mu ::ₘ rs) mu)
  have hkeep2 := hkeep1.trans (hframe2.keeps hinv2)
  refine ⟨rfl, by simpa [CallbackRet.refs] using hinv2, ?_, ?_, ?_, ?_⟩
  · exact hkeep.trans (hkeep2.mono (Multiset.subset_cons rs mu))
  · obtain ⟨cont', hcont', hbuckets, -⟩ := h.cont
    have hcont1 := hcont'.of_frame hframe1 hinv1 (Multiset.mem_cons_of_mem hc')
    exact ⟨cont', hcont1.of_frame hframe2 hinv2 hc', hbuckets⟩
  · exact (result_of_multiple hmultiple calls).symm
  · intro _ _ hall _
    have hg := (h.gathered mu rfl hall).of_frame hframe1 hinv1 (Multiset.mem_cons_of_mem hmem)
    exact ⟨mu, rfl, hne, hg.of_frame hframe2 hinv2 hmem⟩

/-- An allocation does not change what the match function is given. -/
theorem matchPtr_kept (h : Inv st ∅ rs) (hcont : HasCont st c cont)
    (hget : ∀ b ∈ st.objs.dom, st'.objs.get b = st.objs.get b) :
    ∀ e ∈ cont.buckets.flatten, externalObj st' e.pobj = .ok (matchPtr st e) := by
  intro e he
  have hptr := externalObj_matchPtr h hcont he
  obtain ⟨p, hp, hu⟩ := hcont
  have hentry : e ∈ p.entries := by
    rw [Obj.entries, hu]
    exact he
  obtain ⟨-, q, hq⟩ := h.get_pobj hp (Finset.notMem_empty c) hentry
  rw [externalObj, hget _ (Heap.mem_dom_of_get hq)]
  exact hptr

/-- Which of the two allocations fails. -/
theorem starved_eq {mu : Addr} (hmult : (flags.multiple && !flags.nodata) = true)
    (halloc : objContainerAlloc m.toChecked st 1 none none = (mu, st')) :
    starved m st flags =
      (decide (mu = NULL) || decide ((spdCalloc m.toChecked st' ∅).1 = NULL)) := by
  have halloc' : objContainerAlloc m st 1 none none = (mu, st') := halloc
  unfold starved
  rw [halloc', hmult, Bool.true_and]
  rfl

/-- The search for several results, and what becomes of their container. -/
theorem searchCalls_results {mu : Addr} (hc : c ∈ rs) (h : Inv st ∅ rs) (hcont : HasCont st c cont)
    (hmult : (flags.multiple && !flags.nodata) = true) (hmu : mu ∉ st.objs.dom)
    (hinv : Inv st' ∅ (mu ::ₘ rs)) (hkeep : Keeps rs st st')
    (hget : ∀ b ∈ st.objs.dom, st'.objs.get b = st.objs.get b) (hg : Gathered st' mu [])
    (fuel : ObjContainer α → Nat) (f : MatchFn α) (arg : Ptr α) :
    (Open.searchCalls (objRef m.toChecked) m.toChecked fuel st' c flags f arg (some mu) >>= fun x =>
      Open.objIteratorInit (objRef m.toChecked) x.2.2 mu
          { dontlock := true, mallocd := true, unlink := true } >>= fun y =>
        objRef m.toChecked y.2 mu (-1) >>= fun z =>
          .ok (CallbackRet.iter y.1, x.2.1, z.2)).Mirrors
      (loopWalk flags (ask f (matchPtr st)) cont.buckets (cont.startBucket flags arg) (fuel cont)
        (cont.startBucket flags arg) (cont.lastBucket flags arg) []) fun x calls =>
      x.2.1 = calls ∧ Called m rs c flags cont st x.1 calls x.2.2 := by
  obtain ⟨p, hp, hu⟩ := hcont
  have hcdom : c ∈ st.objs.dom := Heap.mem_dom_of_get hp
  have hcont' : HasCont st' c cont := ⟨p, (hget c hcdom).trans hp, hu⟩
  have hne : mu ≠ c := fun heq => hmu (heq ▸ hcdom)
  have hmultiOk : MultiOk st' c (mu ::ₘ rs) flags (some mu) := by
    refine ⟨hmult.symm, ?_⟩
    intro mu' hmu'
    obtain rfl := Option.some.inj hmu'
    obtain ⟨kmu, -, hkmu, -⟩ := hg
    exact ⟨Multiset.mem_cons_self _ _, hne, kmu, hkmu⟩
  have hsearch : Searching m (mu ::ₘ rs) c flags (some mu) cont.nBuckets cont.buckets
      (matchPtr st) [] st' :=
    .start hinv hcont' hmultiOk (matchPtr_kept h ⟨p, hp, hu⟩ hget) fun mu' hmu' =>
      Option.some.inj hmu' ▸ hg
  have hmultiple : flags.multiple = true := (Bool.and_eq_true_iff.mp hmult).1
  refine (searchCalls_mirrors f (Multiset.mem_cons_of_mem hc) hcont' hsearch fuel arg).bind_sat ?_
  rintro ⟨ret, calls', st3⟩ calls - ⟨hcalls, hret, hkeep3, h3⟩
  dsimp only at hcalls hret hkeep3 h3 ⊢
  rw [result_of_multiple hmultiple] at hret
  rw [hret, retRef_null, zero_add] at h3
  rw [hcalls]
  exact results_called hc hne hmultiple (hkeep.trans (hkeep3.mono (Multiset.subset_cons rs mu))) h3

/-- The search for one result. -/
theorem searchCalls_one (hc : c ∈ rs) (h : Inv st ∅ rs) (hcont : HasCont st c cont)
    (hmult : ¬ (flags.multiple && !flags.nodata) = true) (fuel : ObjContainer α → Nat)
    (f : MatchFn α) (arg : Ptr α) :
    (Open.searchCalls (objRef m.toChecked) m.toChecked fuel st c flags f arg none >>= fun x =>
      .ok (CallbackRet.obj x.1, x.2.1, x.2.2)).Mirrors
      (loopWalk flags (ask f (matchPtr st)) cont.buckets (cont.startBucket flags arg) (fuel cont)
        (cont.startBucket flags arg) (cont.lastBucket flags arg) []) fun x calls =>
      x.2.1 = calls ∧ Called m rs c flags cont st x.1 calls x.2.2 := by
  have hmultiOk : MultiOk st c rs flags none :=
    ⟨by simpa using hmult, fun mu hmu => by cases hmu⟩
  have hsearch : Searching m rs c flags none cont.nBuckets cont.buckets (matchPtr st) [] st := by
    refine .start h hcont hmultiOk (fun e he => externalObj_matchPtr h hcont he) ?_
    intro mu hmu
    cases hmu
  refine (searchCalls_mirrors f hc hcont hsearch fuel arg).bind_sat ?_
  rintro ⟨ret, calls', st1⟩ calls - ⟨hcalls, hret, hkeep, h1⟩
  obtain ⟨cont', hcont', hbuckets, -⟩ := h1.cont
  refine ⟨hcalls, h1.inv, hkeep, ⟨cont', hcont', hbuckets⟩, hret, ?_⟩
  intro hmultiple hnodata
  exact absurd (by rw [hmultiple, hnodata]; rfl) hmult

/-- The whole function. -/
theorem callbackCalls_mirrors (hc : c ∈ rs) (h : Inv st ∅ rs) (hcont : HasCont st c cont)
    (flags : SearchFlags) (fuel : ObjContainer α → Nat) (cbFn : Option (MatchFn α)) (arg : Ptr α) :
    (Open.callbackCalls (objRef m.toChecked) m.toChecked fuel st c flags cbFn arg).Mirrors
      (if starved m st flags then some []
        else loopWalk flags (ask (cbFn.getD fun _ _ => CMP_MATCH) (matchPtr st)) cont.buckets
          (cont.startBucket flags arg) (fuel cont) (cont.startBucket flags arg)
          (cont.lastBucket flags arg) []) fun x calls =>
      x.2.1 = calls ∧ Called m rs c flags cont st x.1 calls x.2.2 := by
  obtain ⟨p, hp, hu⟩ := hcont
  unfold Open.callbackCalls
  simp only [h.wf.internalObj hp, ok_bind]
  by_cases hmult : (flags.multiple && !flags.nodata) = true
  · obtain ⟨mu, st1, halloc, hinv1, hkeep1, hget1, hnew⟩ :=
      objContainerAlloc_results (m := m.toChecked) h
    have hstarved := starved_eq hmult halloc
    have hcont1 : HasCont st1 c cont := ⟨p, (hget1 c (Heap.mem_dom_of_get hp)).trans hp, hu⟩
    rw [if_pos hmult]
    simp only [halloc]
    by_cases hnull : mu = NULL
    · have hfail : starved m st flags = true := by
        rw [hstarved, decide_eq_true hnull, Bool.true_or]
      rw [if_pos hfail, if_pos hnull]
      rw [hnull, retRef_null, zero_add] at hinv1
      exact ⟨rfl, called_nothing hinv1 hkeep1 hcont1 hfail⟩
    rw [if_neg hnull]
    rw [decide_eq_false hnull, Bool.false_or] at hstarved
    obtain ⟨hmu, hg⟩ := hnew hnull
    rw [retRef_of_ne hnull, Multiset.singleton_add] at hinv1
    have hinv2 : Inv (spdCalloc m.toChecked st1 ∅).2 ∅ (mu ::ₘ rs) := hinv1.callocs _
    have hobj2 : (spdCalloc m.toChecked st1 ∅).2.objs = st1.objs := rfl
    generalize spdCalloc m.toChecked st1 ∅ = r at hinv2 hobj2 hstarved ⊢
    obtain ⟨e, st2⟩ := r
    simp only at hinv2 hobj2 hstarved ⊢
    have hkeep2 : Keeps rs st st2 := hkeep1.trans (.of_objs hobj2)
    by_cases he : e = NULL
    · have hfail : starved m st flags = true := by rw [hstarved, decide_eq_true he]
      rw [if_pos hfail, if_pos he]
      refine (objRef_dec hinv2).bind fun x hx => ?_
      obtain ⟨_, st3⟩ := x
      obtain ⟨hinv3, hframe⟩ := hx
      exact ⟨rfl, called_nothing hinv3 (hkeep2.trans (hframe.keeps hinv3))
        ((hcont1.of_objs hobj2).of_frame hframe hinv3 hc) hfail⟩
    · have hroom : starved m st flags = false := by rw [hstarved, decide_eq_false he]
      rw [if_neg he, hroom, if_neg Bool.false_ne_true]
      exact searchCalls_results hc h ⟨p, hp, hu⟩ hmult hmu hinv2 hkeep2 (hobj2 ▸ hget1)
        (hg.of_objs hobj2) fuel _ arg
  · have hroom : starved m st flags = false := by
      rw [starved, Bool.eq_false_iff.mpr hmult, Bool.false_and]
    rw [if_neg hmult, hroom, if_neg Bool.false_ne_true]
    exact searchCalls_one hc h ⟨p, hp, hu⟩ hmult fuel _ arg

end

end Spider.ObjModel
