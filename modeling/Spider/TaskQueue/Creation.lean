import Spider.ObjModel.Locking
import Spider.TaskQueue.Lifetime

/-!
# The creation of a task queue

`spd_taskqueue_get` with the fields of the queue that it creates: what it has
filled in when a step fails is what `tps_taskqueue_destroy` finds. The
destructor joins whatever is in `poll_thread`.
-/

namespace Spider.TaskQueue.Creation

open Lib Outcome CString ObjModel Singletons

/-- The values of `poll_thread`: what `calloc` left there, `SPD_PTHREADT_NULL`, or a thread that
    `pthread_create` has started. -/
inductive Thread where
  | zero
  | null
  | started (n : Nat)
  deriving DecidableEq, Repr

/-- `struct spd_taskqueue`, as far as its creation fills it. -/
structure Fields where
  stats : Bool := false
  name : Option CString := none
  pollThreadRun : Int32 := 0
  pollThread : Thread := .zero
  deriving DecidableEq, Repr

/-- The store, the number of threads that have been started, the joins, and the number of blocks
    of `spd_calloc` and `spd_strdup` that have not been freed. -/
structure World where
  st : State Tps
  threads : Nat
  joins : List Thread
  blocks : Nat

/-- `tps_taskqueue_destroy` (`taskqueue.c:193-216`). -/
def tpsTaskqueueDestroy (w : World) (tps : Fields) : World :=
  { w with
    joins := w.joins ++ [tps.pollThread]
    blocks := w.blocks - (if tps.stats then 1 else 0) - (if tps.name.isSome then 1 else 0) }

/-- A branch of failure: `obj_unlock(tps_singletons); obj_ref(p, -1); return NULL;`. -/
def giveUp (m : Machine) (w : World) (tpsSingletons p : Addr) (tps : Fields) :
    Outcome (Addr × World) := do
  let st ← objUnlock w.st tpsSingletons
  let (old, st) ← objRef m st p (-1)
  let w := { w with st := st }
  .ok (NULL, if old + -1 ≤ 0 then tpsTaskqueueDestroy w tps else w)

/-- The rest of `spd_taskqueue_get` when the object has been allocated (`taskqueue.c:291-325`). -/
def create (m : Machine) (w : World) (tpsSingletons p : Addr) (tmp : Tps) (answers : Answers) :
    Outcome (Addr × World) :=
  let tps : Fields := {}
  if answers.stats = false then giveUp m w tpsSingletons p tps
  else
    let tps := { tps with stats := true }
    let w := { w with blocks := w.blocks + 1 }
    if answers.name = false then giveUp m w tpsSingletons p tps
    else
      let tps := { tps with name := some tmp.name, pollThreadRun := -1, pollThread := .null }
      let w := { w with blocks := w.blocks + 1 }
      let (tps, w) :=
        if answers.thread = 0 then
          ({ tps with pollThread := .started w.threads }, { w with threads := w.threads + 1 })
        else (tps, w)
      if answers.thread < 0 then giveUp m w tpsSingletons p tps
      else do
        let (entry, st) ← objLink m w.st tpsSingletons p {}
        let w := { w with st := st }
        if entry = NULL then giveUp m w tpsSingletons p tps
        else do
          let st ← objUnlock w.st tpsSingletons
          .ok (p, { w with st := st })

/-- `spd_taskqueue_get` (`taskqueue.c:260-326`). `tmp` is `tmp_tps`. -/
def spdTaskqueueGet (m : Machine) (w : World) (tpsSingletons : Addr) (tmp : Tps) (ifExists : Bool)
    (answers : Answers) : Outcome (Addr × World) :=
  if tmp.name = [] then .ok (NULL, w)
  else do
    let st ← objLock w.st tpsSingletons
    match ← objFind m st tpsSingletons ⟨NULL, some tmp⟩ OBJ_POINTER with
    | (.iter _, _) => .fault
    | (.obj p, st) =>
      if p ≠ NULL then do
        let st ← objUnlock st tpsSingletons
        .ok (p, { w with st := st })
      else if ifExists then do
        let st ← objUnlock st tpsSingletons
        .ok (NULL, { w with st := st })
      else
        let (p, st) := objAlloc m st tmp (some .user)
        if p = NULL then do
          let st ← objUnlock st tpsSingletons
          .ok (NULL, { w with st := st })
        else create m { w with st := st } tpsSingletons p tmp answers

/-! ## What a failure should leave -/

/-- The call returned null and left the store as it was, the lock is released, and whatever was
    joined and freed is what the call itself had started and allocated. -/
structure NoTrace (w : World) (tpsSingletons : Addr) (r : Addr × World) : Prop where
  null : r.1 = NULL
  registry : ∀ a, r.2.st.objs.get a = w.st.objs.get a
  released : ∃ tr, r.2.st.trace = w.st.trace ++ tr ∧ Guarded tpsSingletons tr
  joined : ∃ joins, r.2.joins = w.joins ++ joins ∧
    ∀ t ∈ joins, ∃ n, w.threads ≤ n ∧ n < r.2.threads ∧ t = .started n
  freed : r.2.blocks = w.blocks

/-- `obj_alloc` gets no memory. -/
def ObjFails (m : Machine) (s : Sys) : Prop := m.calloc s.st.callocs s.st.objs.dom = none

/-- The entries of the container. -/
def registryEntries (s : Sys) : Finset Addr :=
  (s.st.objs.get s.tpsSingletons).elim ∅ fun p => (p.entries.map BucketEntry.addr).toFinset

/-- `obj_link` gets no memory for its entry, which is the request after that for the object. -/
def LinkFails (m : Machine) (s : Sys) : Prop :=
  m.calloc (s.st.callocs + 1) (registryEntries s) = none

/-- Some step of the creation fails. `pthread_create` answers with an error number. -/
def Fails (m : Machine) (s : Sys) (answers : Answers) : Prop :=
  ObjFails m s ∨ answers.stats = false ∨ answers.name = false ∨ answers.thread ≠ 0 ∨ LinkFails m s

section

variable {m : Machine} {s : Sys} {queues : List Queue} {w : World} {tmp : Tps} {answers : Answers}
  {st : State Tps} {c a : Addr}

/-! ## The store -/

/-- A search leaves the locks as they are. -/
theorem objFind_quiet {arg : Ptr Tps} {ret : CallbackRet} {t : List Event}
    (h : objFind m st c arg OBJ_POINTER = .ok (ret, st.log t)) (b : Addr) (d : Nat) :
    depthAfter b d t = some d := by
  obtain ⟨⟨ob, cont⟩, -, hcall⟩ := bind_eq_ok.mp h
  have hcb : ∀ st p, (((cont.cmpFn.map (pureCallback · arg OBJ_POINTER)).getD cbTrue) st p).Ensures
      fun r => Effect [] [] st r.2 := by
    intro st p
    cases cont.cmpFn with
    | none => exact .ok (.refl st)
    | some f => exact pureCallback_effect f arg OBJ_POINTER st p
  have hensures : (objCallback m st c OBJ_POINTER cont.cmpFn arg).Ensures
      fun r => Effect [] [c] st r.2 :=
    Open.internalObjCallback_effect (objRef_effect m) st c rfl arg hcb
  have heffect : Effect [] [c] st (st.log t) := hensures (ret, st.log t) hcall
  obtain ⟨tr, htr, hout, -, -⟩ := heffect.trace
  have heq : t = tr := List.append_cancel_left htr
  rw [heq]
  exact hout b List.not_mem_nil d

theorem objLock_eq {p : Obj Tps} (hc : c ≠ NULL) (hp : st.objs.get c = some p) :
    objLock st c = .ok (st.log [.lock c]) := by
  rw [objLock, internalObj_of_get hc hp]
  rfl

theorem objUnlock_eq {p : Obj Tps} (hc : c ≠ NULL) (hp : st.objs.get c = some p) :
    objUnlock st c = .ok (st.log [.unlock c]) := by
  rw [objUnlock, internalObj_of_get hc hp]
  rfl

/-- The new object, not yet in the container. -/
structure Fresh (s : Sys) (st : State Tps) (a : Addr) (tmp : Tps) : Prop where
  null : a ≠ NULL
  fresh : a ∉ s.st.objs.dom
  objs : st.objs = s.st.objs.set a ⟨1, some .user, .data tmp, s.st.serials⟩

/-- The object is released, and the store is as it was. -/
theorem Fresh.release (h : Fresh s st a tmp) {st' : State Tps} (hobjs : st'.objs = st.objs) :
    ∃ st'', objRef m.toWrap st' a (-1) = .ok (1, st'') ∧
      (∀ b, st''.objs.get b = s.st.objs.get b) ∧
      st''.trace = st'.trace ++ [.destruct s.st.serials] := by
  have hget : st'.objs.get a = some ⟨1, some .user, .data tmp, s.st.serials⟩ := by
    rw [hobjs, h.objs]
    exact Heap.get_set_self _ _ _
  refine ⟨_, objRef_last_eq h.null hget (spdAtomicFetchaddInt_wrap m 1 (-1)) (by decide) rfl,
    ?_, rfl⟩
  intro b
  by_cases hb : b = a
  · subst hb
    have hnone : s.st.objs.get b = none := Heap.get_eq_none.mpr h.fresh
    rw [hnone]
    exact Heap.get_free_self _ b
  · rw [State.objs_freeObj, State.objs_emit, State.objs_setObj, Heap.get_free_of_ne _ hb,
      Heap.get_set_of_ne _ _ hb, hobjs, h.objs, Heap.get_set_of_ne _ _ hb]

theorem Fresh.log (h : Fresh s st a tmp) (t : List Event) : Fresh s (st.log t) a tmp :=
  ⟨h.null, h.fresh, h.objs⟩

theorem Fresh.container (h : Fresh s st a tmp) {p : Obj Tps}
    (hp : s.st.objs.get s.tpsSingletons = some p) :
    st.objs.get s.tpsSingletons = some p ∧ a ≠ s.tpsSingletons := by
  have hne : s.tpsSingletons ≠ a := by
    intro heq
    exact h.fresh (heq ▸ Heap.mem_dom_of_get hp)
  refine ⟨?_, hne.symm⟩
  rw [h.objs, Heap.get_set_of_ne _ _ hne]
  exact hp

/-- A branch of failure unlocks the container, and has the destructor run on what there is. -/
theorem Fresh.giveUp_eq (h : Fresh s w.st a tmp) (hinv : Inv s queues) (tps : Fields) :
    ∃ w', giveUp m.toWrap w s.tpsSingletons a tps = .ok (NULL, w') ∧
      (∀ b, w'.st.objs.get b = s.st.objs.get b) ∧
      w'.st.trace = w.st.trace ++ [.unlock s.tpsSingletons, .destruct s.st.serials] ∧
      w'.joins = w.joins ++ [tps.pollThread] ∧ w'.threads = w.threads ∧
      w'.blocks = (tpsTaskqueueDestroy w tps).blocks := by
  rcases hinv.holds.container with ⟨p, -, -, hp, -⟩
  have hunlock := objUnlock_eq hinv.holds.null (h.container hp).1
  rcases (h.log [.unlock s.tpsSingletons]).release (m := m) rfl with ⟨st', href, hobjs, htrace⟩
  refine ⟨tpsTaskqueueDestroy { w with st := st' } tps, ?_, hobjs, ?_, rfl, rfl, rfl⟩
  · rw [giveUp, hunlock, ok_bind, href, ok_bind]
    dsimp only
    rw [if_pos (by decide)]
  · show st'.trace = _
    rw [htrace]
    exact List.append_assoc _ _ _

/-! ## Linking -/

section

variable {p o : Obj Tps} {cont : ObjContainer Tps}

/-- Without memory for the entry nothing is linked. -/
theorem objLink_fails (hc : c ≠ NULL) (ha : a ≠ NULL) (hp : st.objs.get c = some p)
    (hu : p.userData = .container cont) (ho : st.objs.get a = some o)
    (hfail : m.calloc st.callocs cont.entryAddrs = none) :
    objLink m st c a {} = .ok (NULL, { st with callocs := st.callocs + 1 }) := by
  have hcalloc : spdCalloc m st cont.entryAddrs = (NULL, { st with callocs := st.callocs + 1 }) := by
    rw [spdCalloc, hfail]
    rfl
  have hlink : internalObjLink m st c a {} = .ok (NULL, { st with callocs := st.callocs + 1 }) := by
    simp only [internalObjLink, internalObj_of_get ha ho, internalObj_of_get hc hp, ok_bind,
      containerAt_of_get hp hu, hcalloc, if_true]
  rw [objLink, Open.objLink, hlink, ok_bind]
  rfl

/-- With memory for it a call that returns gives back the entry. -/
theorem objLink_entry (hc : c ≠ NULL) (ha : a ≠ NULL) (hp : st.objs.get c = some p)
    (hu : p.userData = .container cont) (ho : st.objs.get a = some o)
    (hmem : m.calloc st.callocs cont.entryAddrs ≠ none) :
    (objLink m st c a {}).Ensures fun r => r.1 ≠ NULL := by
  rcases Option.ne_none_iff_exists'.mp hmem with ⟨e, he⟩
  have hnull := (m.calloc_fresh he).2
  have hcalloc : spdCalloc m st cont.entryAddrs = (e, { st with callocs := st.callocs + 1 }) := by
    rw [spdCalloc, he, Option.getD_some]
  have hlink : (internalObjLink m st c a {}).Ensures fun r => r.1 = e := by
    unfold internalObjLink
    rw [internalObj_of_get ha ho, ok_bind]
    dsimp only
    rw [internalObj_of_get hc hp, ok_bind]
    dsimp only
    rw [containerAt_of_get hp hu, ok_bind]
    dsimp only
    rw [hcalloc]
    dsimp only
    rw [if_neg hnull]
    refine .bind (.any _) fun _ _ => .bind (.any _) fun _ _ => .bind (.any _) fun _ _ => ?_
    refine .bind (.any _) fun _ _ => .bind (.any _) fun _ _ => .bind (.any _) fun _ _ => ?_
    exact .bind (.any _) fun _ _ => .ok rfl
  unfold objLink Open.objLink
  refine .bind hlink ?_
  rintro ⟨b, st'⟩ hb
  dsimp only at hb ⊢
  rw [if_neg (hb ▸ hnull)]
  refine .bind (.any _) fun _ _ => .bind (.any _) fun _ _ => .ok ?_
  exact hb ▸ hnull

end

/-! ## The call -/

/-- The call up to the allocation: no queue of the name is found, and the lock is held. -/
theorem spdTaskqueueGet_absent (h : Inv s queues) (hw : w.st = s.st)
    (hkey : ∀ q ∈ queues, q.tps.key ≠ tmp.key) (hname : tmp.name ≠ []) (answers : Answers) :
    ∃ t, depthAfter s.tpsSingletons 0 t = some 1 ∧
      spdTaskqueueGet m w s.tpsSingletons tmp false answers =
        if (objAlloc m (s.st.log t) tmp (some .user)).1 = NULL then do
          let st ← objUnlock (objAlloc m (s.st.log t) tmp (some .user)).2 s.tpsSingletons
          .ok (NULL, { w with st := st })
        else create m { w with st := (objAlloc m (s.st.log t) tmp (some .user)).2 } s.tpsSingletons
          (objAlloc m (s.st.log t) tmp (some .user)).1 tmp answers := by
  rcases @find_absent m tmp s queues h hkey with ⟨t1, t2, hlock, hfound⟩
  rcases h.holds.container with ⟨p, -, -, hp, -⟩
  have hlocked := objLock_eq h.holds.null hp
  have ht1 : t1 = [.lock s.tpsSingletons] :=
    List.append_cancel_left (congrArg State.trace (Outcome.ok.inj (hlock.symm.trans hlocked)))
  refine ⟨t1 ++ t2, ?_, ?_⟩
  · have hone : depthAfter s.tpsSingletons 0 [.lock s.tpsSingletons] = some 1 := if_pos rfl
    rw [depthAfter_append, ht1, hone, Option.bind_some]
    exact objFind_quiet hfound s.tpsSingletons 1
  · rw [spdTaskqueueGet, if_neg hname, hw, hlock, ok_bind, hfound, ok_bind]
    dsimp only
    rw [if_neg (not_not.mpr rfl), if_neg nofun, State.log_log]

theorem objAlloc_fails (hfail : ObjFails m s) (t : List Event) :
    objAlloc m (s.st.log t) tmp (some .user) =
      (NULL, { s.st.log t with callocs := s.st.callocs + 1 }) := by
  have hcalloc : spdCalloc m (s.st.log t) (s.st.log t).objs.dom =
      (NULL, { s.st.log t with callocs := s.st.callocs + 1 }) := by
    show ((m.calloc s.st.callocs s.st.objs.dom).getD NULL, _) = _
    rw [hfail]
    rfl
  rw [objAlloc, internalObjAlloc, hcalloc]
  rfl

theorem objAlloc_fresh (hfail : ¬ ObjFails m s) (t : List Event) :
    ∃ a st, objAlloc m (s.st.log t) tmp (some .user) = (a, st) ∧ Fresh s st a tmp ∧
      st.trace = s.st.trace ++ t ∧ st.callocs = s.st.callocs + 1 := by
  rcases Option.ne_none_iff_exists'.mp hfail with ⟨a, ha⟩
  have hfresh := m.calloc_fresh ha
  have hcalloc : spdCalloc m (s.st.log t) (s.st.log t).objs.dom =
      (a, { s.st.log t with callocs := s.st.callocs + 1 }) := by
    show ((m.calloc s.st.callocs s.st.objs.dom).getD NULL, _) = _
    rw [ha]
    rfl
  refine ⟨a, { ({ s.st.log t with callocs := s.st.callocs + 1 } : State Tps).setObj a
    ⟨1, some .user, .data tmp, s.st.serials⟩ with serials := s.st.serials + 1 }, ?_,
    ⟨hfresh.2, hfresh.1, rfl⟩, rfl, rfl⟩
  rw [objAlloc, internalObjAlloc, hcalloc]
  dsimp only
  rw [if_neg hfresh.2]
  rfl

/-- Where nothing but the link can fail, the store is as in `Spider.TaskQueue.Singletons`. -/
theorem create_st (hstats : answers.stats = true) (hnamed : answers.name = true)
    (hthread : 0 ≤ answers.thread) :
    (create m w c a tmp answers >>= fun r => Outcome.ok (r.1, r.2.st)) =
      (objLink m w.st c a {} >>= fun (entry, st) => objUnlock st c >>= fun st =>
        if entry = NULL then objRef m st a (-1) >>= fun (_, st) => .ok (NULL, st)
        else .ok (a, st)) := by
  have hgive : ∀ (w : World) (tps : Fields),
      (giveUp m w c a tps >>= fun r => Outcome.ok (r.1, r.2.st)) =
        (objUnlock w.st c >>= fun st => objRef m st a (-1) >>= fun (_, st) => .ok (NULL, st)) := by
    intro w tps
    rw [giveUp, Outcome.bind_assoc]
    refine congrArg (objUnlock w.st c >>= ·) (funext fun st => ?_)
    rw [Outcome.bind_assoc]
    refine congrArg (objRef m st a (-1) >>= ·) (funext fun ⟨old, st'⟩ => ?_)
    dsimp only
    rw [ok_bind]
    split
    · rfl
    · rfl
  have hlink : ∀ (w : World) (tps : Fields),
      ((objLink m w.st c a {} >>= fun (entry, st) =>
        if entry = NULL then giveUp m { w with st := st } c a tps
        else objUnlock st c >>= fun st => .ok (a, { w with st := st })) >>=
          fun r => Outcome.ok (r.1, r.2.st)) =
      (objLink m w.st c a {} >>= fun (entry, st) => objUnlock st c >>= fun st =>
        if entry = NULL then objRef m st a (-1) >>= fun (_, st) => .ok (NULL, st)
        else .ok (a, st)) := by
    intro w tps
    rw [Outcome.bind_assoc]
    refine congrArg (objLink m w.st c a {} >>= ·) (funext fun ⟨entry, st⟩ => ?_)
    dsimp only
    by_cases hentry : entry = NULL
    · rw [if_pos hentry, hgive]
      simp only [if_pos hentry]
    · rw [if_neg hentry, Outcome.bind_assoc]
      simp only [if_neg hentry]
      rfl
  unfold create
  dsimp only
  rw [if_neg (by rw [hstats]; exact nofun), if_neg (by rw [hnamed]; exact nofun)]
  by_cases hzero : answers.thread = 0
  · rw [if_pos hzero]
    dsimp only
    rw [if_neg (not_lt.mpr hthread)]
    exact hlink ⟨w.st, w.threads + 1, w.joins, w.blocks + 1 + 1⟩ _
  · rw [if_neg hzero]
    dsimp only
    rw [if_neg (not_lt.mpr hthread)]
    exact hlink ⟨w.st, w.threads, w.joins, w.blocks + 1 + 1⟩ _

theorem spdTaskqueueGet_st (hstats : answers.stats = true) (hnamed : answers.name = true)
    (hthread : 0 ≤ answers.thread) (ifExists : Bool) :
    (spdTaskqueueGet m w c tmp ifExists answers >>= fun r => Outcome.ok (r.1, r.2.st)) =
      Singletons.spdTaskqueueGet m w.st c tmp ifExists answers := by
  have hno : ¬ (answers.stats = false ∨ answers.name = false ∨ answers.thread < 0) := by
    rintro (hno | hno | hno)
    · exact absurd (hstats.symm.trans hno) nofun
    · exact absurd (hnamed.symm.trans hno) nofun
    · exact absurd hthread (not_le.mpr hno)
  unfold spdTaskqueueGet Singletons.spdTaskqueueGet
  by_cases hname : tmp.name = []
  · rw [if_pos hname, if_pos hname]
    rfl
  · rw [if_neg hname, if_neg hname, Outcome.bind_assoc]
    refine congrArg (objLock w.st c >>= ·) (funext fun st => ?_)
    rw [Outcome.bind_assoc]
    refine congrArg (objFind m st c ⟨NULL, some tmp⟩ OBJ_POINTER >>= ·) (funext fun ⟨ret, st⟩ => ?_)
    cases ret with
    | iter it => rfl
    | obj p =>
      dsimp only
      by_cases hp : p ≠ NULL
      · rw [if_pos hp, if_pos hp, Outcome.bind_assoc]
        rfl
      · rw [if_neg hp, if_neg hp]
        cases ifExists with
        | true =>
          rw [if_pos rfl, if_pos rfl, Outcome.bind_assoc]
          rfl
        | false =>
          rw [if_neg Bool.false_ne_true, if_neg Bool.false_ne_true]
          generalize objAlloc m st tmp (some .user) = alloc
          obtain ⟨a, st⟩ := alloc
          dsimp only
          by_cases ha : a = NULL
          · rw [if_pos ha, if_pos ha, Outcome.bind_assoc]
            rfl
          · rw [if_neg ha, if_neg ha, if_neg hno]
            exact create_st hstats hnamed hthread

/-- The destructor has joined what was no thread. -/
theorem not_noTrace_of_join {r : Addr × World} {t : Thread} (hjoins : r.2.joins = w.joins ++ [t])
    (ht : ∀ n, t ≠ .started n) : ¬ NoTrace w c r := by
  intro h
  obtain ⟨joins, hr, hall⟩ := h.joined
  have heq : [t] = joins := List.append_cancel_left (hjoins.symm.trans hr)
  obtain ⟨n, -, -, hn⟩ := hall t (heq ▸ List.mem_singleton_self t)
  exact ht n hn

theorem giveUp_spoiled {tps : Fields} {r : Addr × World}
    (hr : giveUp m.toWrap w s.tpsSingletons a tps = .ok r) (h : Fresh s w.st a tmp)
    (hinv : Inv s queues) (htps : tps.pollThread = .zero ∨ tps.pollThread = .null) {w0 : World}
    (hjoins : w.joins = w0.joins) : ¬ NoTrace w0 c r := by
  rcases h.giveUp_eq (m := m) hinv tps with ⟨w', hw', -, -, hjoin, -⟩
  obtain rfl := Outcome.ok.inj (hw'.symm.trans hr)
  refine not_noTrace_of_join (hjoins ▸ hjoin) ?_
  rcases htps with htps | htps
  · rw [htps]
    exact nofun
  · rw [htps]
    exact nofun

theorem registryEntries_eq {p : Obj Tps} {cont : ObjContainer Tps}
    (hp : s.st.objs.get s.tpsSingletons = some p) (hu : p.userData = .container cont) :
    registryEntries s = cont.entryAddrs := by
  rw [registryEntries, hp, Option.elim_some, Obj.entries, hu]
  rfl

/-- Only a thread that runs makes the rest of the creation safe to undo. -/
theorem create_spoiled (h : Fresh s w.st a tmp) (hinv : Inv s queues)
    (hbad : ¬ (answers.stats = true ∧ answers.name = true ∧ answers.thread = 0)) {w0 : World}
    (hjoins : w.joins = w0.joins) {r : Addr × World}
    (hr : create m.toWrap w s.tpsSingletons a tmp answers = .ok r) :
    ¬ NoTrace w0 s.tpsSingletons r := by
  unfold create at hr
  dsimp only at hr
  by_cases hstats : answers.stats = false
  · rw [if_pos hstats] at hr
    exact giveUp_spoiled hr h hinv (Or.inl rfl) hjoins
  rw [if_neg hstats] at hr
  by_cases hnamed : answers.name = false
  · rw [if_pos hnamed] at hr
    exact giveUp_spoiled hr h hinv (Or.inl rfl) hjoins
  rw [if_neg hnamed] at hr
  have hthread : answers.thread ≠ 0 := by
    intro hthread
    exact hbad ⟨Bool.eq_true_of_not_eq_false hstats, Bool.eq_true_of_not_eq_false hnamed, hthread⟩
  rw [if_neg hthread] at hr
  dsimp only at hr
  by_cases hneg : answers.thread < 0
  · rw [if_pos hneg] at hr
    exact giveUp_spoiled hr h hinv (Or.inr rfl) hjoins
  rw [if_neg hneg] at hr
  -- the queue is registered without a thread, or the destructor joins `SPD_PTHREADT_NULL`
  rcases hinv.holds.container with ⟨p, cont, -, hp, hu, -⟩
  have hget : w.st.objs.get a = some ⟨1, some .user, .data tmp, s.st.serials⟩ := by
    rw [h.objs]
    exact Heap.get_set_self _ _ _
  have hcont := (h.container hp).1
  by_cases hlink : m.toWrap.calloc w.st.callocs cont.entryAddrs = none
  · rw [objLink_fails hinv.holds.null h.null hcont hu hget hlink, ok_bind] at hr
    dsimp only at hr
    rw [if_pos rfl] at hr
    exact giveUp_spoiled hr ⟨h.null, h.fresh, h.objs⟩ hinv (Or.inr rfl) hjoins
  · obtain ⟨⟨entry, st'⟩, hentry, hr⟩ := bind_eq_ok.mp hr
    have hnull := objLink_entry hinv.holds.null h.null hcont hu hget hlink _ hentry
    dsimp only at hr hnull
    rw [if_neg hnull] at hr
    obtain ⟨st'', -, hr⟩ := bind_eq_ok.mp hr
    obtain rfl := Outcome.ok.inj hr
    exact fun hno => h.null hno.null

/-- Where only the entry is missing, the thread is joined and all is undone. -/
theorem create_undone (h : Fresh s w.st a tmp) (hinv : Inv s queues)
    (hgood : answers.stats = true ∧ answers.name = true ∧ answers.thread = 0)
    (hcallocs : w.st.callocs = s.st.callocs + 1) (hlink : LinkFails m s) {t : List Event}
    (htrace : w.st.trace = s.st.trace ++ t) (hheld : depthAfter s.tpsSingletons 0 t = some 1) :
    ∃ r, create m.toWrap w s.tpsSingletons a tmp answers = .ok r ∧
      NoTrace { w with st := s.st } s.tpsSingletons r := by
  obtain ⟨hstats, hnamed, hthread⟩ := hgood
  rcases hinv.holds.container with ⟨p, cont, -, hp, hu, -⟩
  have hget : w.st.objs.get a = some ⟨1, some .user, .data tmp, s.st.serials⟩ := by
    rw [h.objs]
    exact Heap.get_set_self _ _ _
  have hfail : m.toWrap.calloc w.st.callocs cont.entryAddrs = none := by
    rw [hcallocs, ← registryEntries_eq hp hu]
    exact hlink
  let tps : Fields := ⟨true, some tmp.name, -1, .started w.threads⟩
  let w' : World :=
    ⟨{ w.st with callocs := w.st.callocs + 1 }, w.threads + 1, w.joins, w.blocks + 1 + 1⟩
  have hfresh : Fresh s w'.st a tmp := ⟨h.null, h.fresh, h.objs⟩
  rcases hfresh.giveUp_eq (m := m) hinv tps with
    ⟨w'', hgive, hobjs, htrace', hjoins, hthreads, hblocks⟩
  refine ⟨(NULL, w''), ?_, rfl, hobjs, ⟨t ++ [.unlock s.tpsSingletons, .destruct s.st.serials],
    ?_, ?_⟩, ⟨[.started w.threads], hjoins, ?_⟩, hblocks⟩
  · have hlinked := objLink_fails hinv.holds.null h.null (h.container hp).1 hu hget hfail
    have hcreate : create m.toWrap w s.tpsSingletons a tmp answers =
        giveUp m.toWrap w' s.tpsSingletons a tps := by
      unfold create
      dsimp only
      rw [if_neg (by rw [hstats]; exact nofun), if_neg (by rw [hnamed]; exact nofun), if_pos hthread]
      dsimp only
      rw [if_neg (by rw [hthread]; decide), hlinked, ok_bind]
      dsimp only
      rw [if_pos rfl]
    exact hcreate.trans hgive
  · show w''.st.trace = s.st.trace ++ _
    rw [htrace', ← List.append_assoc, ← htrace]
  · rw [Guarded, depthAfter_append, hheld, Option.bind_some]
    show (if s.tpsSingletons = s.tpsSingletons then some 0 else _) = _
    rw [if_pos rfl]
  · intro thread hthread
    rw [List.mem_singleton.mp hthread]
    refine ⟨w.threads, Nat.le_refl _, ?_, rfl⟩
    show w.threads < w''.threads
    rw [hthreads]
    exact Nat.lt_succ_self _

/-- A creation that fails leaves no trace exactly when it is the object that there is no memory
    for, or when nothing fails up to the link. -/
theorem spdTaskqueueGet_noTrace_iff (h : Inv s queues) (hw : w.st = s.st)
    (hkey : ∀ q ∈ queues, q.tps.key ≠ tmp.key) (hname : tmp.name ≠ [])
    (hfails : Fails m s answers) :
    (∃ r, spdTaskqueueGet m.toWrap w s.tpsSingletons tmp false answers = .ok r ∧
      NoTrace w s.tpsSingletons r) ↔
    ObjFails m s ∨ answers.stats = true ∧ answers.name = true ∧ answers.thread = 0 := by
  rcases spdTaskqueueGet_absent (m := m.toWrap) h hw hkey hname answers with ⟨t, hheld, hget⟩
  rcases h.holds.container with ⟨p, -, -, hp, -⟩
  rw [hget]
  by_cases hobj : ObjFails m s
  · have halloc := @objAlloc_fails m.toWrap s tmp hobj t
    have hunlock : objUnlock ({ s.st.log t with callocs := s.st.callocs + 1 } : State Tps)
        s.tpsSingletons = .ok (({ s.st.log t with callocs := s.st.callocs + 1 } : State Tps).log
          [.unlock s.tpsSingletons]) := objUnlock_eq h.holds.null hp
    rw [halloc, if_pos rfl, hunlock, ok_bind]
    refine iff_of_true ⟨_, rfl, rfl, fun b => ?_, ⟨t ++ [.unlock s.tpsSingletons], ?_, ?_⟩,
      ⟨[], (List.append_nil _).symm, fun _ ht => absurd ht List.not_mem_nil⟩, rfl⟩ (Or.inl hobj)
    · rw [hw]
      rfl
    · rw [hw]
      exact List.append_assoc _ _ _
    · rw [Guarded, depthAfter_append, hheld, Option.bind_some]
      show (if s.tpsSingletons = s.tpsSingletons then some 0 else _) = _
      rw [if_pos rfl]
  · rcases @objAlloc_fresh m.toWrap s tmp hobj t with
      ⟨a, st, halloc, hfresh, htrace, hcallocs⟩
    rw [halloc]
    dsimp only
    rw [if_neg hfresh.null]
    by_cases hgood : answers.stats = true ∧ answers.name = true ∧ answers.thread = 0
    · refine iff_of_true ?_ (Or.inr hgood)
      have hlink : LinkFails m s := by
        rcases hfails with hfail | hfail | hfail | hfail | hfail
        · exact absurd hfail hobj
        · exact absurd (hgood.1.symm.trans hfail) nofun
        · exact absurd (hgood.2.1.symm.trans hfail) nofun
        · exact absurd hgood.2.2 hfail
        · exact hfail
      have hw' : { w with st := s.st } = w := by rw [← hw]
      rcases create_undone (w := { w with st := st }) hfresh h hgood hcallocs hlink htrace hheld with
        ⟨r, hr, hno⟩
      exact ⟨r, hr, hw' ▸ hno⟩
    · refine iff_of_false ?_ (not_or.mpr ⟨hobj, hgood⟩)
      rintro ⟨r, hr, hno⟩
      have hjoins : ({ w with st := st } : World).joins = w.joins := rfl
      exact create_spoiled (w := { w with st := st }) hfresh h hgood hjoins hr hno

end

/-! ## Examples -/

/-- A machine without memory for the fifth block. -/
def linkless : Machine where
  calloc n live := if n = 4 then none else some (live.sup id + 1)
  calloc_fresh {n live _} h := by
    split at h
    · cases h
    · exact bumpMachine.calloc_fresh (n := n) h
  counters := .wrap

/-- Another queue, `r`. -/
def otherQ : Tps := ⟨[114], by decide +kernel⟩

/-- The registry as `spd_taskqueue_init` makes it. -/
def emptyRegistry : Sys := start bumpMachine.toWrap

def emptyWorld : World := ⟨emptyRegistry.st, 0, [], 0⟩

theorem inv_emptyRegistry : Inv emptyRegistry [] :=
  inv_start fun _ _ => Option.some_ne_none _

/-- With one queue in the registry there is no memory to link another one, whose thread has been
    started: it is stopped and joined, and nothing is left of it. -/
theorem spdTaskqueueGet_noTrace_link : ∃ s,
    step bumpMachine.toWrap emptyRegistry (.get lowerQ false answered) = .ok s ∧
    s.registered.length = 1 ∧ ∃ r,
      spdTaskqueueGet linkless.toWrap ⟨s.st, 1, [], 2⟩ s.tpsSingletons otherQ false answered =
        .ok r ∧ NoTrace ⟨s.st, 1, [], 2⟩ s.tpsSingletons r := by
  have hmade : ∃ s, step bumpMachine.toWrap emptyRegistry (.get lowerQ false answered) = .ok s ∧
      s.st.callocs = 3 ∧ s.registered.length = 1 :=
    ⟨_, by with_unfolding_all rfl, by with_unfolding_all rfl, by with_unfolding_all rfl⟩
  obtain ⟨s, hstep, hcallocs, hlength⟩ := hmade
  have hget : ∃ s' q, step bumpMachine.toWrap emptyRegistry (.get lowerQ false answered) = .ok s' ∧
      q.tps = lowerQ ∧ s'.clients = q.addr ::ₘ emptyRegistry.clients ∧ Inv s' [q] :=
    get_create (fun _ _ => Option.some_ne_none _) inv_emptyRegistry
      (fun q hq => absurd hq List.not_mem_nil) (by decide) (by decide +kernel) succeeds_answered
  obtain ⟨s', q, hstep', hq, -, hinv⟩ := hget
  obtain rfl := Outcome.ok.inj (hstep.symm.trans hstep')
  have hkey : ∀ q' ∈ [q], q'.tps.key ≠ otherQ.key := by
    intro q' hq'
    rw [List.mem_singleton.mp hq', hq]
    decide +kernel
  have hlink : LinkFails linkless s := by
    rw [LinkFails, hcallocs]
    rfl
  exact ⟨s, hstep, hlength, (spdTaskqueueGet_noTrace_iff (m := linkless) (w := ⟨s.st, 1, [], 2⟩)
    hinv rfl hkey (by decide) (Or.inr (Or.inr (Or.inr (Or.inr hlink))))).mpr
      (Or.inr ⟨rfl, rfl, rfl⟩)⟩

/-- Without memory for the statistics the destructor joins the zero that `calloc` left. -/
theorem spdTaskqueueGet_trace : ∃ r,
    spdTaskqueueGet bumpMachine.toWrap emptyWorld emptyRegistry.tpsSingletons lowerQ false
      ⟨false, true, 0⟩ = .ok r ∧ r.2.joins = [.zero] ∧
    ¬ NoTrace emptyWorld emptyRegistry.tpsSingletons r := by
  have hobj : ¬ ObjFails bumpMachine.toWrap emptyRegistry := Option.some_ne_none _
  rcases @spdTaskqueueGet_absent bumpMachine.toWrap emptyRegistry [] emptyWorld lowerQ
    inv_emptyRegistry rfl (fun _ hq => absurd hq List.not_mem_nil) (by decide) ⟨false, true, 0⟩ with
    ⟨t, -, hget⟩
  rcases @objAlloc_fresh bumpMachine.toWrap emptyRegistry lowerQ hobj t with
    ⟨a, st, halloc, hfresh, -, -⟩
  let w : World := { emptyWorld with st := st }
  have hw : Fresh emptyRegistry w.st a lowerQ := hfresh
  rcases hw.giveUp_eq (m := bumpMachine) inv_emptyRegistry {} with ⟨w', hgive, -, -, hjoins, -, -⟩
  have hcreate : create bumpMachine.toWrap w emptyRegistry.tpsSingletons a lowerQ ⟨false, true, 0⟩ =
      giveUp bumpMachine.toWrap w emptyRegistry.tpsSingletons a {} := rfl
  refine ⟨(NULL, w'), ?_, hjoins, ?_⟩
  · rw [hget, halloc]
    dsimp only
    rw [if_neg hfresh.null]
    exact hcreate.trans hgive
  · exact not_noTrace_of_join (t := .zero) hjoins fun _ => nofun

end Spider.TaskQueue.Creation
