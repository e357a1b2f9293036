import Spider.ObjModel.System

/-!
# Who holds the lock of a container

The calls emit an event for every lock and unlock and for every change of a
bucket. `depthAfter` reads a sequence of events as one thread's nesting of the
recursive lock of a container; a change of a bucket outside the lock and a
release of a lock that is not held are errors. `Effect` says what a step of a
call does to all containers at once, so that it covers the containers a call
destroys on its way.
-/

namespace Spider.ObjModel

open Lib Outcome

variable {α : Type}

/-- How deep the lock of `c` is held after the events, when it was held `d` deep before. -/
def depthAfter (c : Addr) : Nat → List Event → Option Nat
  | d, [] => some d
  | d, .lock a :: tr => if a = c then depthAfter c (d + 1) tr else depthAfter c d tr
  | d, .unlock a :: tr =>
    if a = c then
      match d with
      | 0 => none
      | d + 1 => depthAfter c d tr
    else depthAfter c d tr
  | d, .bucketWrite a :: tr => if a = c ∧ d = 0 then none else depthAfter c d tr
  | d, .destruct _ :: tr => depthAfter c d tr
  | d, .callback _ :: tr => depthAfter c d tr

/-- The buckets of `c` change only under its lock, and it is released as often as it is
    taken. -/
def Guarded (c : Addr) (tr : List Event) : Prop := depthAfter c 0 tr = some 0

/-- The lock of `c` is left alone. -/
def LeavesLock (c : Addr) (tr : List Event) : Prop := ∀ e ∈ tr, e ≠ .lock c ∧ e ≠ .unlock c

/-- What a call on `c` owes: with locking its changes are guarded, without it the lock is left
    alone. -/
def LockRule (c : Addr) (nolock : Bool) (tr : List Event) : Prop :=
  if nolock then LeavesLock c tr else Guarded c tr

theorem depthAfter_append (c : Addr) (d : Nat) (tr tr' : List Event) :
    depthAfter c d (tr ++ tr') = (depthAfter c d tr).bind fun d => depthAfter c d tr' := by
  induction tr generalizing d with
  | nil => rfl
  | cons e tr ih =>
    cases e with
    | destruct _ => exact ih d
    | callback _ => exact ih d
    | lock a =>
      simp only [List.cons_append, depthAfter]
      split
      · exact ih (d + 1)
      · exact ih d
    | unlock a =>
      simp only [List.cons_append, depthAfter]
      split
      · cases d with
        | zero => rfl
        | succ d => exact ih d
      · exact ih d
    | bucketWrite a =>
      simp only [List.cons_append, depthAfter]
      split
      · rfl
      · exact ih d

/-- What a step does: no object appears; the lock of a container is as deep after it as before,
    for those in `W` if it was held before; and of the containers there afterwards only those
    in `L` had their lock touched. -/
structure Effect (W L : List Addr) (st st' : State α) : Prop where
  dom : st'.objs.dom ⊆ st.objs.dom
  trace : ∃ tr, st'.trace = st.trace ++ tr ∧
    (∀ c, c ∉ W → ∀ d, depthAfter c d tr = some d) ∧
    (∀ c d, depthAfter c (d + 1) tr = some (d + 1)) ∧
    ∀ c ∈ st'.objs.dom, c ∉ L → LeavesLock c tr

namespace Effect

variable {W L : List Addr} {st st1 st2 : State α}

theorem refl (st : State α) : Effect W L st st where
  dom := subset_rfl
  trace := ⟨[], (List.append_nil _).symm, fun _ _ _ => rfl, fun _ _ => rfl,
    fun _ _ _ _ he => absurd he List.not_mem_nil⟩

theorem trans (h : Effect W L st st1) (h' : Effect W L st1 st2) : Effect W L st st2 := by
  obtain ⟨tr, htr, hout, hin, hlock⟩ := h.trace
  obtain ⟨tr', htr', hout', hin', hlock'⟩ := h'.trace
  refine ⟨h'.dom.trans h.dom, tr ++ tr', ?_, ?_, ?_, ?_⟩
  · rw [htr', htr, List.append_assoc]
  · intro c hc d
    rw [depthAfter_append, hout c hc d]
    exact hout' c hc d
  · intro c d
    rw [depthAfter_append, hin c d]
    exact hin' c d
  · intro c hc hL e he
    rcases List.mem_append.mp he with he | he
    · exact hlock c (h'.dom hc) hL e he
    · exact hlock' c hc hL e he

theorem mono {W' L' : List Addr} (h : Effect W L st st1) (hW : W ⊆ W') (hL : L ⊆ L') :
    Effect W' L' st st1 := by
  obtain ⟨tr, htr, hout, hin, hlock⟩ := h.trace
  refine ⟨h.dom, tr, htr, ?_, hin, ?_⟩
  · exact fun c hc => hout c (fun hmem => hc (hW hmem))
  · exact fun c hc hmem => hlock c hc (fun h => hmem (hL h))

/-- A step that emits nothing. -/
theorem silent (hdom : st1.objs.dom ⊆ st.objs.dom) (htr : st1.trace = st.trace) :
    Effect W L st st1 where
  dom := hdom
  trace := ⟨[], by rw [htr, List.append_nil], fun _ _ _ => rfl, fun _ _ => rfl,
    fun _ _ _ _ he => absurd he List.not_mem_nil⟩

theorem setObj {a : Addr} (h : a ∈ st.objs.dom) (p : Obj α) : Effect W L st (st.setObj a p) :=
  silent (Heap.dom_set_of_mem p h).subset rfl

theorem callback (st : State α) (e : Addr) : Effect W L st (st.emit (.callback e)) where
  dom := subset_rfl
  trace := ⟨[.callback e], rfl, fun _ _ _ => rfl, fun _ _ => rfl, by
    intro c _ _ e' he
    rw [List.mem_singleton.mp he]
    exact ⟨nofun, nofun⟩⟩

theorem destruct (st : State α) (n : Nat) : Effect W L st (st.emit (.destruct n)) where
  dom := subset_rfl
  trace := ⟨[.destruct n], rfl, fun _ _ _ => rfl, fun _ _ => rfl, by
    intro c _ _ e' he
    rw [List.mem_singleton.mp he]
    exact ⟨nofun, nofun⟩⟩

/-- The change of a bucket of `c`. -/
theorem bucketWrite {c : Addr} (hc : c ∈ W) (hdom : c ∈ st.objs.dom) (p : Obj α)
    (cont : ObjContainer α) : Effect W L st ((setContainer st c p cont).emit (.bucketWrite c)) where
  dom := (Heap.dom_set_of_mem _ hdom).subset
  trace := by
    refine ⟨[.bucketWrite c], rfl, ?_, ?_, ?_⟩
    · intro x hx d
      have hne : ¬ (c = x ∧ d = 0) := fun h => hx (h.1 ▸ hc)
      rw [depthAfter, if_neg hne, depthAfter]
    · intro x d
      rw [depthAfter, if_neg (fun h => absurd h.2 (Nat.succ_ne_zero d)), depthAfter]
    · intro x _ _ e he
      rw [List.mem_singleton.mp he]
      exact ⟨nofun, nofun⟩

/-- What happens between the lock and the unlock of `c`. -/
theorem locked {c : Addr} (h : Effect (c :: W) [] (st.emit (.lock c)) st1) :
    Effect W [c] st (st1.emit (.unlock c)) := by
  obtain ⟨tr, htr, hout, hin, hlock⟩ := h.trace
  have hdepth : ∀ x, x ∉ W → ∀ d, depthAfter x d (.lock c :: tr ++ [.unlock c]) = some d := by
    intro x hx d
    rw [depthAfter_append, depthAfter]
    by_cases hxc : c = x
    · subst hxc
      rw [if_pos rfl, hin c d]
      exact if_pos rfl
    · have hmem : x ∉ c :: W := by
        intro hmem
        rcases List.mem_cons.mp hmem with rfl | hmem
        · exact hxc rfl
        · exact hx hmem
      rw [if_neg hxc, hout x hmem d]
      exact if_neg hxc
  refine ⟨h.dom, .lock c :: tr ++ [.unlock c], ?_, hdepth, ?_, ?_⟩
  · rw [State.trace_emit, htr, State.trace_emit]
    simp only [List.append_assoc, List.cons_append, List.nil_append]
  · intro x d
    rw [depthAfter_append, depthAfter]
    by_cases hxc : c = x
    · subst hxc
      rw [if_pos rfl, hin c (d + 1)]
      exact if_pos rfl
    · rw [if_neg hxc, hin x d]
      exact if_neg hxc
  · intro x hx hxL e he
    have hne : c ≠ x := by
      rintro rfl
      exact hxL (List.mem_singleton_self c)
    rcases List.mem_append.mp he with he | he
    · rcases List.mem_cons.mp he with rfl | he
      · exact ⟨fun h => hne (Event.lock.inj h), nofun⟩
      · exact hlock x hx List.not_mem_nil e he
    · rw [List.mem_singleton.mp he]
      exact ⟨nofun, fun h => hne (Event.unlock.inj h)⟩

/-- A container that is freed need not be in `L`. -/
theorem freeObj {a : Addr} (h : Effect W [a] st st1) : Effect W [] st (st1.freeObj a) := by
  obtain ⟨tr, htr, hout, hin, hlock⟩ := h.trace
  have hsub : (st1.freeObj a).objs.dom ⊆ st1.objs.dom := by
    rw [State.objs_freeObj, Heap.dom_free]
    exact Finset.erase_subset _ _
  refine ⟨hsub.trans h.dom, tr, htr, hout, hin, ?_⟩
  intro c hc _
  refine hlock c (hsub hc) ?_
  intro hmem
  rw [List.mem_singleton.mp hmem, State.objs_freeObj, Heap.dom_free] at hc
  exact absurd rfl (Finset.mem_erase.mp hc).1

end Effect

/-! ## The parts of the calls -/

theorem internalObj_ensures (st : State α) (a : Addr) :
    (internalObj st a).Ensures fun o => o.isSome → a ≠ NULL ∧ a ∈ st.objs.dom := by
  unfold internalObj
  refine .ite (fun _ => .ok nofun) (fun hne => ?_)
  split
  next p hget => exact .ok fun _ => ⟨hne, Heap.mem_dom_of_get hget⟩
  next => exact .fault

theorem internalObj_isSome (st : State α) (a : Addr) :
    (internalObj st a).Ensures fun o => o.isSome = decide (a ≠ NULL) := by
  unfold internalObj
  refine .ite (fun h => .ok ?_) (fun h => ?_)
  · rw [decide_eq_false (not_not.mpr h)]
    rfl
  · rw [decide_eq_true h]
    split
    next => exact .ok rfl
    next => exact .fault

theorem containerAt_ensures (st : State α) (c : Addr) :
    (containerAt st c).Ensures fun _ => c ∈ st.objs.dom := by
  unfold containerAt
  split
  next p hget =>
    split
    next => exact .ok (Heap.mem_dom_of_get hget)
    next => exact .fault
  next => exact .fault

theorem objLock_ensures {st : State α} {c : Addr} (hc : c ≠ NULL) :
    (objLock st c).Ensures fun st' => st' = st.emit (.lock c) := by
  unfold objLock internalObj
  rw [if_neg hc]
  cases st.objs.get c with
  | none => exact .fault
  | some _ => exact .ok rfl

theorem objUnlock_ensures {st : State α} {c : Addr} (hc : c ≠ NULL) :
    (objUnlock st c).Ensures fun st' => st' = st.emit (.unlock c) := by
  unfold objUnlock internalObj
  rw [if_neg hc]
  cases st.objs.get c with
  | none => exact .fault
  | some _ => exact .ok rfl

/-- `!flags & OBJ_NOLOCK` is never true. -/
theorem notAndNolock_eq_false (flags : SearchFlags) : flags.notAndNolock = false := by
  unfold SearchFlags.notAndNolock
  split <;> rfl

theorem internalObjLink_effect (m : Machine) (st : State α) (c userData : Addr)
    (flags : SearchFlags) : (internalObjLink m st c userData flags).Ensures fun r =>
      Effect [c] [] st r.2 := by
  unfold internalObjLink
  refine .bind (.any _) fun o _ => ?_
  cases o with
  | none => exact .ok (.refl st)
  | some _ =>
    refine .bind (internalObj_ensures st c) fun o hc => ?_
    cases o with
    | none => exact .ok (.refl st)
    | some _ =>
      have hc : c ∈ st.objs.dom := (hc rfl).2
      refine .bind (.any _) fun ⟨_, cont⟩ _ => ?_
      have hcalloc : Effect [c] [] st (spdCalloc m st cont.entryAddrs).2 :=
        .silent subset_rfl rfl
      refine .ite (fun _ => .ok hcalloc) (fun _ => ?_)
      refine .bind (.any _) fun _ _ => ?_
      simp only [notAndNolock_eq_false, lockIf, Bool.false_eq_true, if_false, ok_bind]
      refine .bind (.any _) fun _ _ => .bind (.any _) fun _ _ => .bind (.any _) fun _ _ => ?_
      refine .bind (.any _) fun _ _ => .bind (.any _) fun _ _ => .ok ?_
      have hc1 : c ∈ (spdCalloc m st cont.entryAddrs).2.objs.dom := hc
      exact hcalloc.trans (.bucketWrite (List.mem_singleton_self c) hc1 _ _)

namespace Open

section Parts

variable {objRef : State α → Addr → Int32 → Outcome (Int32 × State α)} {m : Machine}
  (href : ∀ st a d, (objRef st a d).Ensures fun r => Effect [] [] st r.2)

include href

theorem objRef_effect (st : State α) (a : Addr) (d : Int32) (W : List Addr) :
    (objRef st a d).Ensures fun r => Effect W [] st r.2 :=
  (href st a d).mono fun _ h => h.mono (List.nil_subset W) (List.nil_subset [])

theorem objLink_effect (st : State α) (c userData : Addr) (flags : SearchFlags) :
    (objLink objRef m st c userData flags).Ensures fun r => Effect [c] [] st r.2 := by
  unfold objLink
  refine .bind (internalObjLink_effect m st c userData flags) fun ⟨p, st1⟩ h1 => ?_
  refine .ite (fun _ => .ok h1) (fun _ => ?_)
  refine .bind (objRef_effect href st1 userData 1 [c]) fun ⟨_, st2⟩ h2 => ?_
  simp only [notAndNolock_eq_false, unlockIf, Bool.false_eq_true, if_false, ok_bind]
  exact .ok (h1.trans h2)

theorem unlinkCurrent_effect (st : State α) (c : Addr) (flags : SearchFlags) (i : Nat)
    (cur : BucketEntry) {W : List Addr} (hc : c ∈ W) :
    (unlinkCurrent objRef m st c flags i cur).Ensures fun st' => Effect W [] st st' := by
  unfold unlinkCurrent
  refine .ite (fun _ => ?_) (fun _ => .ok (.refl st))
  refine .bind (containerAt_ensures st c) fun ⟨ob, cont⟩ hdom => ?_
  refine .bind (.any _) fun _ _ => .bind (.any _) fun _ _ => ?_
  refine .ite (fun _ => ?_) (fun _ => .ok (.bucketWrite hc hdom _ _))
  refine .bind (objRef_effect href _ cur.pobj (-1) W) fun ⟨_, st2⟩ h2 => .ok ?_
  exact (Effect.bucketWrite hc hdom _ _).trans h2

theorem refMatch_effect (st : State α) (flags : SearchFlags) (cur : BucketEntry) (ret : Addr)
    (W : List Addr) : (refMatch objRef st flags cur ret).Ensures fun r => Effect W [] st r.2 := by
  unfold refMatch
  refine .ite (fun _ => .ok (.refl st)) (fun _ => ?_)
  refine .ite (fun _ => .ok (.refl st)) (fun _ => ?_)
  exact .bind (objRef_effect href st cur.pobj 1 W) fun _ h => .ok h

theorem takeMatch_effect (st : State α) (flags : SearchFlags) (multi : Option Addr)
    (cur : BucketEntry) (ret : Addr) {W : List Addr} (hm : ∀ a ∈ multi, a ∈ W) :
    (takeMatch objRef m st flags multi cur ret).Ensures fun r => Effect W [] st r.2 := by
  unfold takeMatch
  refine .bind (refMatch_effect href st flags cur ret W) fun ⟨ret, st1⟩ h1 => ?_
  cases multi with
  | none => exact .ok h1
  | some multi =>
    refine .ite (fun _ => .ok h1) (fun _ => ?_)
    refine .bind (objLink_effect href st1 multi ret flags) fun ⟨_, st2⟩ h2 => .ok ?_
    have hsub : [multi] ⊆ W := List.cons_subset.mpr ⟨hm multi rfl, List.nil_subset W⟩
    exact h1.trans (h2.mono hsub (List.nil_subset []))

theorem traverseBucket_effect (c : Addr) (flags : SearchFlags) {cb : Callback α}
    (multi : Option Addr) (i : Nat) (es : List BucketEntry) (ret : Addr) (st : State α)
    {W : List Addr} (hc : c ∈ W) (hm : ∀ a ∈ multi, a ∈ W)
    (hcb : ∀ st p, (cb st p).Ensures fun r => Effect W [] st r.2) :
    (traverseBucket objRef m c flags cb multi i es ret st).Ensures fun r =>
      Effect W [] st r.2.2 := by
  induction es generalizing ret st with
  | nil => exact .ok (.refl st)
  | cons cur rest ih =>
    unfold traverseBucket
    refine .bind (.any _) fun ptr _ => .bind (hcb _ _) fun x h1 => ?_
    obtain ⟨r, st1⟩ := x
    have h1 : Effect W [] st st1 := (Effect.callback st cur.addr).trans h1
    refine .ite (fun _ => ?_) (fun _ => .ite (fun _ => .ok h1) (fun _ => ?_))
    · exact (ih ret st1).mono fun _ h => h1.trans h
    · refine .bind (takeMatch_effect href st1 flags multi cur ret hm) ?_
      rintro ⟨ret, st2⟩ h2
      refine .bind (unlinkCurrent_effect href st2 c flags i cur hc) fun st3 h3 => ?_
      have h3 : Effect W [] st st3 := (h1.trans h2).trans h3
      refine .ite (fun _ => .ok h3) (fun _ => ?_)
      exact (ih ret st3).mono fun _ h => h3.trans h

theorem bucketLoop_effect (c : Addr) (flags : SearchFlags) {cb : Callback α}
    (multi : Option Addr) (start : Int) (fuel : Nat) (i last : Int) (ret : Addr) (st : State α)
    {W : List Addr} (hc : c ∈ W) (hm : ∀ a ∈ multi, a ∈ W)
    (hcb : ∀ st p, (cb st p).Ensures fun r => Effect W [] st r.2) :
    (bucketLoop objRef m c flags cb multi start fuel i last ret st).Ensures fun r =>
      Effect W [] st r.2 := by
  induction fuel generalizing i last ret st with
  | zero => exact .timeout
  | succ fuel ih =>
    unfold bucketLoop
    refine .ite (fun _ => ?_) (fun _ => .ok (.refl st))
    refine .bind (.any _) fun _ _ => .bind (.any _) fun k _ => ?_
    refine .bind (traverseBucket_effect href c flags multi k _ ret st hc hm hcb) fun x h1 => ?_
    obtain ⟨stop, ret, st1⟩ := x
    refine .ite (fun _ => .ok h1) (fun _ => .ite (fun _ => ?_) (fun _ => ?_))
    · exact (ih _ _ ret st1).mono fun _ h => h1.trans h
    · exact (ih _ _ ret st1).mono fun _ h => h1.trans h

/-- A search with locking changes `c` under its lock. -/
theorem search_effect_locked (st : State α) (c : Addr) (hc : c ≠ NULL) {flags : SearchFlags}
    (hflags : flags.nolock = false) {cb : Callback α} (arg : Ptr α) (multi : Option Addr)
    {W : List Addr} (hm : ∀ a ∈ multi, a ∈ W)
    (hcb : ∀ st p, (cb st p).Ensures fun r => Effect [] [] st r.2) :
    (search objRef m st c flags cb arg multi).Ensures fun r => Effect W [c] st r.2 := by
  unfold search
  rw [hflags]
  refine .bind (.any _) fun ⟨_, cont⟩ _ => .bind (.any _) fun ⟨start, last⟩ _ => ?_
  refine .bind (objLock_ensures hc) fun st1 hst1 => ?_
  subst hst1
  refine .bind (bucketLoop_effect href c flags multi start _ _ _ _ _
    List.mem_cons_self (fun a ha => List.mem_cons_of_mem c (hm a ha))
    (fun st p => (hcb st p).mono fun _ h => h.mono (List.nil_subset (c :: W)) (List.nil_subset [])))
    fun ⟨ret, st2⟩ h2 => ?_
  refine .bind (objUnlock_ensures hc) fun st3 hst3 => .ok ?_
  subst hst3
  exact h2.locked

theorem search_effect_nolock (st : State α) (c : Addr) {flags : SearchFlags}
    (hflags : flags.nolock = true) {cb : Callback α} (arg : Ptr α) (multi : Option Addr)
    {W : List Addr} (hm : ∀ a ∈ multi, a ∈ W)
    (hcb : ∀ st p, (cb st p).Ensures fun r => Effect [] [] st r.2) :
    (search objRef m st c flags cb arg multi).Ensures fun r => Effect (c :: W) [] st r.2 := by
  unfold search
  rw [hflags]
  refine .bind (.any _) ?_
  rintro ⟨_, cont⟩ -
  refine .bind (.any _) ?_
  rintro ⟨start, last⟩ -
  simp only [Bool.not_true, lockIf, unlockIf, Bool.false_eq_true, if_false, ok_bind]
  refine .bind (bucketLoop_effect href c flags multi start _ _ _ _ _
    List.mem_cons_self (fun a ha => List.mem_cons_of_mem c (hm a ha))
    (fun st p => (hcb st p).mono fun _ h => h.mono (List.nil_subset (c :: W)) (List.nil_subset [])))
    ?_
  rintro ⟨ret, st2⟩ h2
  exact .ok h2

theorem cdCb_effect (st : State α) (p : Ptr α) :
    (cdCb objRef st p).Ensures fun r => Effect [] [] st r.2 := by
  unfold cdCb
  exact .bind (href st p.addr (-1)) fun _ h => .ok h

/-- A call that gives back no list of results. -/
theorem internalObjCallback_effect (st : State α) (c : Addr) {flags : SearchFlags}
    (hflags : (flags.multiple && !flags.nodata) = false) {cbFn : Option (Callback α)}
    (arg : Ptr α) (hcb : ∀ st p, ((cbFn.getD cbTrue) st p).Ensures fun r => Effect [] [] st r.2) :
    (internalObjCallback objRef m st c flags cbFn arg).Ensures fun r =>
      if flags.nolock then Effect [c] [] st r.2 else Effect [] [c] st r.2 := by
  have hrefl : if flags.nolock then Effect [c] [] st st else Effect [] [c] st st := by
    split
    · exact .refl st
    · exact .refl st
  have hnone : ∀ a ∈ (none : Option Addr), a ∈ ([] : List Addr) := by
    intro a ha
    cases ha
  unfold internalObjCallback
  by_cases hc : c = NULL
  · rw [internalObj, if_pos hc, ok_bind]
    exact .ok hrefl
  · refine .bind (.any _) fun o _ => ?_
    cases o with
    | none => exact .ok hrefl
    | some _ =>
      dsimp only
      rw [hflags, if_neg Bool.false_ne_true]
      cases hnolock : flags.nolock with
      | true =>
        refine .bind (search_effect_nolock href st c hnolock arg none hnone hcb) fun x h1 => ?_
        obtain ⟨_, st1⟩ := x
        exact .ok h1
      | false =>
        refine .bind (search_effect_locked href st c hc hnolock arg none hnone hcb) fun x h1 => ?_
        obtain ⟨_, st1⟩ := x
        exact .ok h1

/-- The destructor of a container works on it under its lock. -/
theorem containerDestruct_effect (st : State α) (c : Addr) :
    (containerDestruct objRef m st c).Ensures fun st' => Effect [] [c] st st' := by
  unfold containerDestruct
  refine .bind (internalObjCallback_effect href st c rfl _ (cdCb_effect href))
    fun ⟨_, st1⟩ h1 => ?_
  refine .bind (containerAt_ensures st1 c) fun ⟨ob, cont⟩ hdom => .ok ?_
  exact h1.trans (.setObj hdom _)

end Parts

end Open

variable (m : Machine)

theorem runDestructor_effect {ref : State α → Addr → Int32 → Outcome (Int32 × State α)}
    (href : ∀ st a d, (ref st a d).Ensures fun r => Effect [] [] st r.2) (st : State α) (a : Addr)
    (f : Option DestructorFn) :
    (runDestructor ref m st a f).Ensures fun st' => Effect [] [a] st st' := by
  cases f with
  | none => exact .ok (.refl st)
  | some f =>
    cases f with
    | user => exact .ok (.refl st)
    | containerDestruct => exact Open.containerDestruct_effect href st a

/-- Dropping or taking a reference, with all the destructions that follow. -/
theorem internalObjRef_effect (fuel : Nat) (st : State α) (a : Addr) (d : Int32) :
    (internalObjRef m fuel st a d).Ensures fun r => Effect [] [] st r.2 := by
  induction fuel generalizing st a d with
  | zero => exact .timeout
  | succ fuel ih =>
    unfold internalObjRef
    refine .bind (internalObj_ensures st a) fun o ho => ?_
    cases o with
    | none => exact .ok (.refl st)
    | some p =>
      have hdom : a ∈ st.objs.dom := (ho rfl).2
      refine .ite (fun _ => .ok (.refl st)) (fun _ => .bind (.any _) fun v _ => ?_)
      have hset : Effect [] [] st (st.setObj a { p with refCounter := v }) := .setObj hdom _
      refine .ite (fun _ => ?_) (fun _ => .ok hset)
      have hdestruct := hset.trans (.destruct _ p.serial)
      refine .bind (runDestructor_effect m ih _ a p.destructorFn) fun st1 h1 => .ok ?_
      have hall := (hdestruct.mono (List.nil_subset []) (List.nil_subset [a])).trans h1
      exact hall.freeObj

theorem objRef_effect (st : State α) (a : Addr) (d : Int32) :
    (objRef m st a d).Ensures fun r => Effect [] [] st r.2 :=
  internalObjRef_effect m _ st a d

/-! ## The calls -/

/-- What the call on `c` emitted obeys the rule. A call without locking that destroys `c` is out of
    the question: it goes on to read the memory of `c`. -/
def Obeys (c : Addr) (nolock : Bool) (st st' : State α) : Prop :=
  (nolock = true → c ∈ st'.objs.dom) → ∃ tr, st'.trace = st.trace ++ tr ∧ LockRule c nolock tr

theorem Effect.guarded {W L : List Addr} {c : Addr} {st st' : State α} (h : Effect W L st st')
    (hc : c ∉ W) : Obeys c false st st' := by
  obtain ⟨tr, htr, hout, -, -⟩ := h.trace
  exact fun _ => ⟨tr, htr, hout c hc 0⟩

theorem Effect.leaves {W L : List Addr} {c : Addr} {st st' : State α} (h : Effect W L st st')
    (hc : c ∉ L) : Obeys c true st st' := by
  obtain ⟨tr, htr, -, -, hlock⟩ := h.trace
  exact fun hdom => ⟨tr, htr, hlock c (hdom rfl) hc⟩

theorem Effect.obeys {c : Addr} {st st' : State α} (nolock : Bool) (h : Effect [] [] st st') :
    Obeys c nolock st st' := by
  cases nolock with
  | true => exact h.leaves List.not_mem_nil
  | false => exact h.guarded List.not_mem_nil

theorem Obeys.of_trace {c : Addr} {nolock : Bool} {st st1 st' : State α}
    (h : Obeys c nolock st1 st') (htr : st1.trace = st.trace) : Obeys c nolock st st' := by
  intro hdom
  rw [← htr]
  exact h hdom

theorem pureCallback_effect (f : Ptr α → Ptr α → SearchFlags → Int32) (arg : Ptr α)
    (flags : SearchFlags) (st : State α) (p : Ptr α) :
    (pureCallback f arg flags st p).Ensures fun r => Effect [] [] st r.2 :=
  .ok (.refl st)

/-- The container for several results is a new object. -/
theorem objContainerAlloc_fresh (st : State α) (n : UInt32)
    (hashFn : Option (Ptr α → SearchFlags → Int32))
    (cmpFn : Option (Ptr α → Ptr α → SearchFlags → Int32)) :
    (objContainerAlloc m st n hashFn cmpFn).2.trace = st.trace ∧
      ((objContainerAlloc m st n hashFn cmpFn).1 ≠ NULL →
        (objContainerAlloc m st n hashFn cmpFn).1 ∉ st.objs.dom) := by
  unfold objContainerAlloc internalObjAlloc spdCalloc
  dsimp only
  split
  next h => exact ⟨rfl, fun hne => absurd rfl hne⟩
  next h =>
    refine ⟨rfl, fun _ => ?_⟩
    cases hcalloc : m.calloc st.callocs st.objs.dom with
    | none =>
      rw [hcalloc] at h
      exact absurd rfl h
    | some a => exact (m.calloc_fresh hcalloc).1

theorem objIteratorInit_effect (st : State α) (c : Addr) (flags : IteratorFlags) :
    (Open.objIteratorInit (objRef m) st c flags).Ensures fun r => Effect [] [] st r.2 := by
  unfold Open.objIteratorInit
  exact .bind (objRef_effect m st c 1) fun _ h => .ok h

/-- The iterator over several results, once they have been found. -/
theorem iterResult_effect (st : State α) (multi : Addr) (flags : IteratorFlags)
    (W L : List Addr) : (Open.objIteratorInit (objRef m) st multi flags >>= fun r =>
      objRef m r.2 multi (-1) >>= fun r' => .ok (CallbackRet.iter r.1, r'.2)).Ensures fun r =>
        Effect W L st r.2 := by
  refine .bind (objIteratorInit_effect m st multi flags) fun ⟨it, st1⟩ h1 => ?_
  refine .bind (objRef_effect m st1 multi (-1)) fun ⟨_, st2⟩ h2 => .ok ?_
  exact (Effect.trans h1 h2).mono (List.nil_subset W) (List.nil_subset L)

/-- `internal_obj_callback` with any flags. -/
theorem internalObjCallback_obeys (st : State α) (c : Addr) (flags : SearchFlags)
    (cbFn : Option (Callback α)) (arg : Ptr α)
    (hcb : ∀ st p, ((cbFn.getD cbTrue) st p).Ensures fun r => Effect [] [] st r.2) :
    (Open.internalObjCallback (objRef m) m st c flags cbFn arg).Ensures fun r =>
      Obeys c flags.nolock st r.2 := by
  cases hmulti : flags.multiple && !flags.nodata with
  | false =>
    refine (Open.internalObjCallback_effect (objRef_effect m) st c hmulti arg hcb).mono ?_
    intro r h
    cases hnolock : flags.nolock with
    | true =>
      rw [hnolock, if_pos rfl] at h
      exact h.leaves List.not_mem_nil
    | false =>
      rw [hnolock, if_neg Bool.false_ne_true] at h
      exact h.guarded List.not_mem_nil
  | true =>
    unfold Open.internalObjCallback
    refine .bind (internalObj_ensures st c) fun o ho => ?_
    cases o with
    | none => exact .ok ((Effect.refl st).obeys flags.nolock)
    | some _ =>
      obtain ⟨hc, hdom⟩ : c ≠ NULL ∧ c ∈ st.objs.dom := ho rfl
      dsimp only
      rw [hmulti, if_pos rfl]
      obtain ⟨htrace, hfresh⟩ := objContainerAlloc_fresh m st 1 none none
      generalize objContainerAlloc m st 1 none none = alloc at htrace hfresh
      obtain ⟨multi, st1⟩ := alloc
      dsimp only at htrace hfresh ⊢
      refine .ite (fun _ => .ok (((Effect.refl st1).obeys _).of_trace htrace)) (fun hnull => ?_)
      have hne : c ∉ [multi] := by
        intro hmem
        exact hfresh hnull (List.mem_singleton.mp hmem ▸ hdom)
      have h1 : Effect [] [] st1 (spdCalloc m st1 ∅).2 := .silent subset_rfl rfl
      generalize spdCalloc m st1 ∅ = alloc at h1
      obtain ⟨multiIterator, st2⟩ := alloc
      dsimp only at h1 ⊢
      refine .ite (fun _ => ?_) (fun _ => ?_)
      · refine .bind (objRef_effect m st2 multi (-1)) fun ⟨_, st3⟩ h3 => .ok ?_
        exact ((h1.trans h3).obeys _).of_trace htrace
      · have hmulti : ∀ a ∈ some multi, a ∈ [multi] := by
          intro a ha
          exact Option.some.inj ha ▸ List.mem_singleton_self multi
        cases hnolock : flags.nolock with
        | true =>
          refine .bind (Open.search_effect_nolock (objRef_effect m) st2 c hnolock arg
            (some multi) hmulti hcb) fun ⟨_, st3⟩ h3 => ?_
          refine (iterResult_effect m st3 multi _ [c, multi] []).mono fun _ h4 => ?_
          have hall := ((h1.mono (List.nil_subset _) (List.nil_subset _)).trans h3).trans h4
          exact (hall.leaves List.not_mem_nil).of_trace htrace
        | false =>
          refine .bind (Open.search_effect_locked (objRef_effect m) st2 c hc hnolock arg
            (some multi) hmulti hcb) fun ⟨_, st3⟩ h3 => ?_
          refine (iterResult_effect m st3 multi _ [multi] [c]).mono fun _ h4 => ?_
          have hall := ((h1.mono (List.nil_subset _) (List.nil_subset _)).trans h3).trans h4
          exact (hall.guarded hne).of_trace htrace

/-- A call on a container. -/
inductive Call (α : Type) where
  | link (c userData : Addr) (flags : SearchFlags)
  | unlink (c userData : Addr) (flags : SearchFlags)
  | callback (c : Addr) (flags : SearchFlags)
      (cbFn : Option (Ptr α → Ptr α → SearchFlags → Int32)) (arg : Ptr α)
  | iteratorNext (a : ObjIterator)

namespace Call

/-- The store after the call. -/
def run (st : State α) : Call α → Outcome (State α)
  | .link c userData flags => do
    let (_, st) ← objLink m st c userData flags
    .ok st
  | .unlink c userData flags => objUnlink m st c userData flags
  | .callback c flags cbFn arg => do
    let (_, st) ← objCallback m st c flags cbFn arg
    .ok st
  | .iteratorNext a => do
    let (_, _, st) ← objIteratorNext m st a
    .ok st

def container : Call α → Addr
  | .link c _ _ | .unlink c _ _ | .callback c _ _ _ => c
  | .iteratorNext a => a.c

/-- The call asks for no locking. -/
def nolock : Call α → Bool
  | .link _ _ flags | .unlink _ _ flags | .callback _ flags _ _ => flags.nolock
  | .iteratorNext a => a.flags.dontlock

/-- The call is an `obj_link` that gets memory for its entry. -/
def inserts (st : State α) : Call α → Bool
  | .link c userData _ =>
    userData ≠ NULL && c ≠ NULL && match containerAt st c with
      | .ok (_, cont) => (m.calloc st.callocs cont.entryAddrs).isSome
      | _ => false
  | _ => false

end Call

theorem internalObjLink_trace (st : State α) (c userData : Addr) (flags : SearchFlags) :
    (internalObjLink m st c userData flags).Ensures fun r =>
      if (Call.link c userData flags).inserts m st then
        r.1 ≠ NULL ∧ r.2.trace = st.trace ++ [.bucketWrite c]
      else r.1 = NULL ∧ r.2.trace = st.trace := by
  have hins : (Call.link c userData flags).inserts m st =
      (decide (userData ≠ NULL) && decide (c ≠ NULL) && match containerAt st c with
        | .ok (_, cont) => (m.calloc st.callocs cont.entryAddrs).isSome
        | _ => false) := rfl
  rw [hins]
  unfold internalObjLink
  refine .bind (internalObj_isSome st userData) fun o ho => ?_
  cases o with
  | none =>
    rw [← ho]
    exact .ok ⟨rfl, rfl⟩
  | some _ =>
    rw [← ho]
    refine .bind (internalObj_isSome st c) fun o hc => ?_
    cases o with
    | none =>
      rw [← hc]
      exact .ok ⟨rfl, rfl⟩
    | some _ =>
      rw [← hc]
      refine .bind (.self _) fun ⟨ob, cont⟩ hcont => ?_
      rw [hcont]
      have hsome : (m.calloc st.callocs cont.entryAddrs).isSome =
          decide ((spdCalloc m st cont.entryAddrs).1 ≠ NULL) := by
        unfold spdCalloc
        cases hcalloc : m.calloc st.callocs cont.entryAddrs with
        | none => rfl
        | some p => exact (decide_eq_true (m.calloc_fresh hcalloc).2).symm
      simp only [Option.isSome_some, Bool.true_and, hsome, decide_eq_true_eq]
      refine .ite (fun hp => ?_) (fun hp => ?_)
      · refine .ok ?_
        rw [if_neg (not_not.mpr hp)]
        exact ⟨rfl, rfl⟩
      · simp only [notAndNolock_eq_false, lockIf, Bool.false_eq_true, if_false, ok_bind]
        refine .bind (.any _) fun _ _ => .bind (.any _) fun _ _ => .bind (.any _) fun _ _ => ?_
        refine .bind (.any _) fun _ _ => .bind (.any _) fun _ _ => .bind (.any _) fun _ _ => ?_
        refine .ok ?_
        rw [if_pos hp]
        exact ⟨hp, rfl⟩

theorem objUnlink_obeys (st : State α) (c userData : Addr) (flags : SearchFlags) :
    (objUnlink m st c userData flags).Ensures fun st' => Obeys c flags.nolock st st' := by
  unfold objUnlink
  refine .bind (.any _) fun o _ => ?_
  cases o with
  | none => exact .ok ((Effect.refl st).obeys flags.nolock)
  | some _ =>
    refine .bind (.any _) fun ptr _ => ?_
    refine .bind (internalObjCallback_obeys m st c _ _ ptr (pureCallback_effect _ ptr _))
      fun ⟨_, st1⟩ h1 => .ok h1

theorem objCallback_obeys (st : State α) (c : Addr) (flags : SearchFlags)
    (cbFn : Option (Ptr α → Ptr α → SearchFlags → Int32)) (arg : Ptr α) :
    (objCallback m st c flags cbFn arg).Ensures fun r => Obeys c flags.nolock st r.2 := by
  refine internalObjCallback_obeys m st c flags _ arg ?_
  intro st p
  cases cbFn with
  | none => exact .ok (.refl st)
  | some f => exact pureCallback_effect f arg flags st p

theorem advance_ensures (a : ObjIterator) (cont : ObjContainer α) :
    (a.advance cont).Ensures fun r => r.2.c = a.c ∧ r.2.flags = a.flags := by
  unfold ObjIterator.advance
  refine .ite (fun _ => ?_) (fun _ => .ok ⟨rfl, rfl⟩)
  split
  · exact .fault
  · exact .ok ⟨rfl, rfl⟩
  · exact .ok ⟨rfl, rfl⟩

/-- The lock of the iterator's container is taken on the way, and not released. -/
theorem internalObjIteratorNext_effect (st : State α) (a : ObjIterator) (hc : a.c ≠ NULL) :
    (internalObjIteratorNext m st a).Ensures fun r =>
      r.2.2.1.c = a.c ∧ r.2.2.1.flags = a.flags ∧
        Effect [a.c] [] (if a.flags.dontlock then st else st.emit (.lock a.c)) r.2.2.2 := by
  have hlock : (lockIf (!a.flags.dontlock) st a.c).Ensures fun st' =>
      st' = if a.flags.dontlock then st else st.emit (.lock a.c) := by
    unfold lockIf
    cases a.flags.dontlock with
    | true => exact .ok rfl
    | false => exact objLock_ensures hc
  unfold internalObjIteratorNext
  refine .bind (internalObj_isSome st a.c) fun o ho => ?_
  cases o with
  | none => exact absurd ho (by rw [decide_eq_true hc]; exact nofun)
  | some _ =>
    refine .bind hlock fun st1 hst1 => ?_
    subst hst1
    refine .bind (containerAt_ensures _ a.c) fun ⟨ob, cont⟩ hdom => ?_
    refine .bind (advance_ensures a cont) fun ⟨p, a1⟩ ⟨hc1, hf1⟩ => ?_
    cases p with
    | none => exact .ok ⟨hc1, hf1, .refl _⟩
    | some p =>
      refine .ite (fun _ => ?_) (fun _ => .ok ⟨hc1, hf1, .refl _⟩)
      refine .bind (.any _) fun _ _ => .bind (.any _) fun _ _ => .ok ⟨hc1, hf1, ?_⟩
      have hc1 : a1.c = a.c := hc1
      simp only [hc1]
      exact .bucketWrite (List.mem_singleton_self a.c) hdom _ _

theorem refIf_effect (take : Bool) (st : State α) (ret : Addr) :
    (refIf m take st ret).Ensures fun st' => Effect [] [] st st' := by
  unfold refIf
  refine .ite (fun _ => ?_) (fun _ => .ok (.refl st))
  exact .bind (objRef_effect m st ret 1) fun _ h => .ok h

theorem objIteratorNext_obeys (st : State α) (a : ObjIterator) :
    (objIteratorNext m st a).Ensures fun r => Obeys a.c a.flags.dontlock st r.2.2 := by
  unfold objIteratorNext
  by_cases hc : a.c = NULL
  · have hnull : internalObj st a.c = .ok none := if_pos hc
    have hunlock : unlockIf (!a.flags.dontlock) st a.c = .ok st := by
      unfold unlockIf objUnlock
      rw [hnull]
      exact ite_self _
    have hnext : internalObjIteratorNext m st a = .ok (NULL, false, a, st) := by
      unfold internalObjIteratorNext
      rw [hnull]
      rfl
    rw [hnext, ok_bind]
    dsimp only
    rw [refIf, if_neg Bool.false_ne_true, ok_bind, hunlock]
    exact .ok ((Effect.refl st).obeys _)
  · refine .bind (internalObjIteratorNext_effect m st a hc) ?_
    rintro ⟨ret, take, a1, st1⟩ h
    obtain ⟨hc1, hf1, h1⟩ := h
    dsimp only at hc1 hf1 h1 ⊢
    refine .bind (refIf_effect m take st1 ret) fun st2 h2 => ?_
    have h2 := h1.trans (h2.mono (List.nil_subset [a.c]) (List.nil_subset []))
    rw [hc1, hf1]
    cases hlock : a.flags.dontlock with
    | true =>
      rw [hlock, if_pos rfl] at h2
      exact .ok (h2.leaves List.not_mem_nil)
    | false =>
      rw [hlock, if_neg Bool.false_ne_true] at h2
      refine .bind (objUnlock_ensures hc) fun st3 hst3 => .ok ?_
      subst hst3
      exact h2.locked.guarded List.not_mem_nil

/-- What an `obj_link` emits: the change of the bucket first, if it gets memory, and nothing
    otherwise. -/
theorem objLink_trace (st : State α) (c userData : Addr) (flags : SearchFlags) :
    (objLink m st c userData flags).Ensures fun r =>
      if (Call.link c userData flags).inserts m st then
        ∃ tr, r.2.trace = st.trace ++ .bucketWrite c :: tr
      else r.2.trace = st.trace := by
  unfold objLink Open.objLink
  refine .bind (internalObjLink_trace m st c userData flags) fun ⟨p, st1⟩ h1 => ?_
  dsimp only at h1 ⊢
  cases hins : (Call.link c userData flags).inserts m st with
  | false =>
    rw [hins, if_neg Bool.false_ne_true] at h1
    rw [if_pos h1.1]
    exact .ok h1.2
  | true =>
    rw [hins, if_pos rfl] at h1
    rw [if_neg h1.1]
    refine .bind (objRef_effect m st1 userData 1) fun ⟨_, st2⟩ h2 => ?_
    simp only [notAndNolock_eq_false, unlockIf, Bool.false_eq_true, if_false, ok_bind]
    obtain ⟨tr, htr, -⟩ := h2.trace
    refine .ok ⟨tr, ?_⟩
    rw [htr, h1.2, List.append_assoc]
    rfl

theorem objLink_leaves (st : State α) (c userData : Addr) (flags : SearchFlags) :
    (objLink m st c userData flags).Ensures fun r => Obeys c true st r.2 :=
  (Open.objLink_effect (objRef_effect m) st c userData flags).mono
    fun _ h => h.leaves List.not_mem_nil

/-- Every call other than `obj_link` obeys the rule. -/
theorem Call.obeys {st st' : State α} {call : Call α} (h : call.run m st = .ok st')
    (hlink : ∀ c userData flags, call ≠ .link c userData flags) :
    Obeys call.container call.nolock st st' := by
  cases call with
  | link c userData flags => exact absurd rfl (hlink c userData flags)
  | unlink c userData flags => exact objUnlink_obeys m st c userData flags st' h
  | callback c flags cbFn arg =>
    obtain ⟨r, hr, heq⟩ := bind_eq_ok.mp h
    obtain rfl := Outcome.ok.inj heq
    exact objCallback_obeys m st c flags cbFn arg r hr
  | iteratorNext a =>
    obtain ⟨r, hr, heq⟩ := bind_eq_ok.mp h
    obtain rfl := Outcome.ok.inj heq
    exact objIteratorNext_obeys m st a r hr

/-- A call that returns obeys the rule of locking unless it is an `obj_link` that asks for
    locking and gets memory for its entry: `!flags & OBJ_NOLOCK` is never true, so that the entry
    is inserted without the lock. -/
theorem locking_iff {st st' : State α} {call : Call α} (h : call.run m st = .ok st')
    (hc : call.nolock = true → call.container ∈ st'.objs.dom) :
    (∃ tr, st'.trace = st.trace ++ tr ∧ LockRule call.container call.nolock tr) ↔
      call.nolock = true ∨ call.inserts m st = false := by
  by_cases hlink : ∃ c userData flags, call = .link c userData flags
  · obtain ⟨c, userData, flags, rfl⟩ := hlink
    obtain ⟨r, hr, heq⟩ := bind_eq_ok.mp h
    obtain rfl := Outcome.ok.inj heq
    have htrace := objLink_trace m st c userData flags r hr
    show (∃ tr, r.2.trace = st.trace ++ tr ∧ LockRule c flags.nolock tr) ↔ flags.nolock = true ∨ _
    cases hnolock : flags.nolock with
    | true =>
      refine ⟨fun _ => Or.inl rfl, fun _ => ?_⟩
      exact objLink_leaves m st c userData flags r hr (fun _ => hc hnolock)
    | false =>
      cases hins : (Call.link c userData flags).inserts m st with
      | false =>
        rw [hins, if_neg Bool.false_ne_true] at htrace
        refine ⟨fun _ => Or.inr rfl, fun _ => ⟨[], ?_, rfl⟩⟩
        rw [htrace, List.append_nil]
      | true =>
        rw [hins, if_pos rfl] at htrace
        constructor
        · rintro ⟨tr, htr, hrule⟩
          obtain ⟨tr', htr'⟩ := htrace
          obtain rfl := List.append_cancel_left (htr.symm.trans htr')
          have hnone : depthAfter c 0 (.bucketWrite c :: tr') = none := if_pos ⟨rfl, rfl⟩
          exact absurd (hnone.symm.trans hrule) nofun
        · rintro (hn | hn) <;> exact absurd hn nofun
  · have hobeys := Call.obeys m h (fun c userData flags heq => hlink ⟨c, userData, flags, heq⟩)
    have hins : call.inserts m st = false := by
      cases call with
      | link c userData flags => exact absurd ⟨c, userData, flags, rfl⟩ hlink
      | _ => rfl
    exact ⟨fun _ => Or.inr hins, fun _ => hobeys hc⟩

/-- An object at 1, and an empty container at 2. -/
def twoObjects : State Nat :=
  (objContainerAlloc bumpMachine (objAlloc bumpMachine {} 7 none).2 1 none none).2

theorem locking_link : ∃ st', (Call.link 2 1 {}).run bumpMachine twoObjects = .ok st' ∧
    st'.trace = twoObjects.trace ++ [.bucketWrite 2] ∧ ¬ LockRule 2 false [.bucketWrite 2] := by
  refine ⟨_, by with_unfolding_all rfl, by decide +kernel, ?_⟩
  intro hrule
  exact absurd hrule nofun

/-- Objects at 1, 2 and 3, linked into the two buckets of the container at 4; the first is referred
    to by its entry only. -/
def threeLinked : State Nat where
  objs := (((Heap.set ∅ 1 ⟨1, some .user, .data 5, 0⟩).set 2 ⟨2, none, .data 6, 1⟩).set 3
    ⟨2, none, .data 7, 2⟩).set 4 ⟨1, some .containerDestruct, .container
      ⟨fun p _ => Int32.ofNat (p.data.getD 0), none, 2, 3, 4,
        [[⟨102, 2, 2⟩], [⟨101, 1, 1⟩, ⟨103, 3, 3⟩]]⟩, 3⟩

/-- `obj_unlink` of the third object, with locking and without. -/
def unlinkThird (nolock : Bool) : Call Nat := .unlink 4 3 { nolock := nolock }

/-- A search that takes out every entry. -/
def unlinkAll : Call Nat :=
  .callback 4 { unlink := true, nodata := true, multiple := true } none ⟨NULL, none⟩

/-- The call obeys the rule and changes a bucket `n` times. -/
def Unlinks (call : Call Nat) (n : Nat) : Prop :=
  ∃ st', call.run bumpMachine threeLinked = .ok st' ∧
    LockRule call.container call.nolock st'.trace ∧
    st'.trace.count (.bucketWrite call.container) = n

theorem locking_unlink :
    Unlinks (unlinkThird false) 1 ∧ Unlinks (unlinkThird true) 1 ∧ Unlinks unlinkAll 3 := by
  have hunlinks : ∀ (call : Call Nat) (st' : State Nat) (n : Nat),
      call.run bumpMachine threeLinked = .ok st' → call.container ∈ st'.objs.dom →
      call.inserts bumpMachine threeLinked = false →
      st'.trace.count (.bucketWrite call.container) = n → Unlinks call n := by
    intro call st' n h hdom hins hcount
    obtain ⟨tr, htr, hrule⟩ := (locking_iff bumpMachine h fun _ => hdom).mpr (Or.inr hins)
    refine ⟨st', h, ?_, hcount⟩
    rwa [htr]
  refine ⟨hunlinks (unlinkThird false) _ 1 (by with_unfolding_all rfl) ?_ rfl ?_,
    hunlinks (unlinkThird true) _ 1 (by with_unfolding_all rfl) ?_ rfl ?_,
    hunlinks unlinkAll _ 3 (by with_unfolding_all rfl) ?_ rfl ?_⟩
  all_goals decide +kernel

end Spider.ObjModel
