import Spider.ObjModel.Invariant

/-!
# Taking and dropping references

`internal_obj_ref` keeps the invariant: +1 adds a reference to those it counts,
-1 takes one away. Dropping the last one destroys the object, and for a
container that drops the references of its entries in turn. The induction is on
the fuel, and it goes through because an object being destroyed is set apart in
`Z` before its destructor runs.
-/

namespace Spider.ObjModel

open Lib Outcome

variable {α : Type} {m : Machine} {st st' st'' : State α} {Z : Finset Addr}
  {R rs : Multiset Addr} {a c : Addr} {p : Obj α}

/-- From `st` to `st'` counters have changed and objects have gone, nothing else;
    the objects in `Z` are as they were. -/
structure Frame (Z : Finset Addr) (st st' : State α) : Prop where
  obj : ∀ {a p'}, st'.objs.get a = some p' →
    ∃ p, st.objs.get a = some p ∧ p' = { p with refCounter := p'.refCounter }
  zombie : ∀ {z}, z ∈ Z → st'.objs.get z = st.objs.get z

namespace Frame

theorem of_objs (h : st'.objs = st.objs) : Frame Z st st' :=
  ⟨fun hp => ⟨_, h ▸ hp, rfl⟩, fun _ => by rw [h]⟩

theorem refl (Z : Finset Addr) (st : State α) : Frame Z st st := of_objs rfl

theorem trans (h : Frame Z st st') (h' : Frame Z st' st'') : Frame Z st st'' := by
  refine ⟨fun hp => ?_, fun hz => (h'.zombie hz).trans (h.zombie hz)⟩
  obtain ⟨p', hp', he'⟩ := h'.obj hp
  obtain ⟨p, hp, he⟩ := h.obj hp'
  exact ⟨p, hp, by rw [he', he]⟩

theorem mono {Z' : Finset Addr} (h : Frame Z st st') (hz : Z' ⊆ Z) : Frame Z' st st' :=
  ⟨h.obj, fun hm => h.zombie (hz hm)⟩

theorem dom_subset (h : Frame Z st st') : st'.objs.dom ⊆ st.objs.dom := by
  intro x hx
  obtain ⟨p', hp'⟩ := Heap.mem_dom.mp hx
  obtain ⟨p, hp, -⟩ := h.obj hp'
  exact Heap.mem_dom_of_get hp

theorem card_le (h : Frame Z st st') : (st'.objs.dom \ Z).card ≤ (st.objs.dom \ Z).card :=
  Finset.card_le_card (Finset.sdiff_subset_sdiff h.dom_subset (Finset.Subset.refl Z))

theorem setCounter (hp : st.objs.get a = some p) (ha : a ∉ Z) (v : Int32) :
    Frame Z st (st.setObj a { p with refCounter := v }) := by
  refine ⟨fun {b q} hq => ?_, fun {z} hz => ?_⟩
  · by_cases hb : b = a
    · subst hb
      have hq' : { p with refCounter := v } = q := by simpa using hq
      exact ⟨p, hp, by rw [← hq']⟩
    · exact ⟨q, by simpa [Heap.get_set_of_ne _ _ hb] using hq, rfl⟩
  · have hne : z ≠ a := by
      rintro rfl
      exact ha hz
    simp [Heap.get_set_of_ne _ _ hne]

theorem freeObj (ha : a ∉ Z) : Frame Z st (st.freeObj a) := by
  refine ⟨fun {b q} hq => ?_, fun {z} hz => ?_⟩
  · by_cases hb : b = a
    · subst hb; simp at hq
    · exact ⟨q, by simpa [Heap.get_free_of_ne _ hb] using hq, rfl⟩
  · have hne : z ≠ a := by
      rintro rfl
      exact ha hz
    simp [Heap.get_free_of_ne _ hne]

end Frame

/-! ## Small steps -/

theorem spdAtomicFetchaddInt_checked {x d : Int32} :
    (spdAtomicFetchaddInt m.toChecked x d).Sat fun v =>
      v = x + d ∧ v.toInt = x.toInt + d.toInt := by
  simp only [spdAtomicFetchaddInt, Machine.toChecked]
  split
  · next h => exact ⟨rfl, h⟩
  · trivial

theorem Wf.internalObj (h : Wf st Z) (hp : st.objs.get a = some p) :
    internalObj st a = .ok (some p) := by
  simp [ObjModel.internalObj, h.ne_null hp, hp]

theorem containerAt_of_get {cont : ObjContainer α} (hp : st.objs.get c = some p)
    (hc : p.userData = .container cont) : containerAt st c = .ok (p, cont) := by
  simp [containerAt, hp, hc]

theorem externalObj_of_get (hp : st.objs.get a = some p) :
    ∃ d, externalObj st a = .ok ⟨a, d⟩ := by
  cases hu : p.userData with
  | data d => exact ⟨some d, by simp [externalObj, hp, hu]⟩
  | container _ => exact ⟨none, by simp [externalObj, hp, hu]⟩

theorem Wf.objLock (h : Wf st Z) (hp : st.objs.get a = some p) :
    objLock st a = .ok (st.emit (.lock a)) := by
  simp [ObjModel.objLock, h.internalObj hp]

theorem Wf.objUnlock (h : Wf st Z) (hp : st.objs.get a = some p) :
    objUnlock st a = .ok (st.emit (.unlock a)) := by
  simp [ObjModel.objUnlock, h.internalObj hp]

/-- Locking changes no object. -/
theorem Wf.lockIf (h : Wf st Z) (hp : st.objs.get a = some p) (cond : Bool) :
    ∃ st', lockIf cond st a = .ok st' ∧ st'.objs = st.objs ∧
      (∀ R, Counted st Z R → Counted st' Z R) := by
  cases cond with
  | false => exact ⟨st, rfl, rfl, fun _ h => h⟩
  | true => exact ⟨_, h.objLock hp, rfl, fun _ h => h.emit (by simp)⟩

@[inherit_doc Wf.lockIf]
theorem Wf.unlockIf (h : Wf st Z) (hp : st.objs.get a = some p) (cond : Bool) :
    ∃ st', unlockIf cond st a = .ok st' ∧ st'.objs = st.objs ∧
      (∀ R, Counted st Z R → Counted st' Z R) := by
  cases cond with
  | false => exact ⟨st, rfl, rfl, fun _ h => h⟩
  | true => exact ⟨_, h.objUnlock hp, rfl, fun _ h => h.emit (by simp)⟩

/-- A counter is the number of references, and positive. -/
theorem Counted.refCounter (h : Counted st Z R) (hp : st.objs.get a = some p) (ha : a ∉ Z) :
    p.refCounter.toInt = R.count a ∧ 0 < p.refCounter.toInt :=
  h.agrees.count (counter_of_get hp ha)

theorem Counted.mem_of_get (h : Counted st Z R) (hp : st.objs.get a = some p) (ha : a ∉ Z) :
    a ∈ R := by
  rw [h.agrees.mem_iff, counter_of_get hp ha]
  rfl

theorem ObjWf.setCounter (h : ObjWf p) (v : Int32) : ObjWf { p with refCounter := v } :=
  ⟨h.container, h.data⟩

/-- A counter is overwritten. -/
theorem Wf.setCounter (h : Wf st Z) (hp : st.objs.get a = some p) (v : Int32) :
    Wf (st.setObj a { p with refCounter := v }) Z :=
  h.setObj hp rfl fun ha => (h.objs hp ha).setCounter v

theorem Inv.of_counted (ho : st'.objs = st.objs) (h : Counted st' Z (rs + held st Z)) :
    Inv st' Z rs := by
  have hheld : held st' Z = held st Z := by rw [held, ho, held]
  rw [Inv, hheld]
  exact h

/-! ## Taking a reference -/

/-- `obj_ref(a, 1)` on a live object adds one reference. -/
theorem internalObjRef_inc (fuel : Nat) (h : Counted st Z R) (ha : a ∈ R) :
    (internalObjRef m.toChecked (fuel + 1) st a 1).Sat fun r =>
      Counted r.2 Z (a ::ₘ R) ∧ Frame Z st r.2 ∧ held r.2 Z = held st Z := by
  obtain ⟨hz, p, hp⟩ := h.get_of_mem ha
  obtain ⟨hcnt, hpos⟩ := h.refCounter hp hz
  unfold internalObjRef
  rw [h.wf.internalObj hp, ok_bind]
  have hne : ¬ (1 : Int32) = 0 := by decide
  dsimp only
  rw [if_neg hne]
  refine spdAtomicFetchaddInt_checked.bind fun v ⟨_, hv⟩ => ?_
  have h1 : (1 : Int32).toInt = 1 := by decide
  have hnot : ¬ v ≤ 0 := by
    rw [Int32.le_iff_toInt_le]
    simp only [Int32.toInt_zero]
    omega
  simp only [hnot, if_false, sat_ok]
  refine ⟨⟨h.wf.setCounter hp v, ?_⟩, Frame.setCounter hp hz v, held_setObj_of_eq hp rfl⟩
  rw [counter_setObj _ _ hz, hv, h1]
  exact h.agrees.acquire (counter_of_get hp hz)

/-! ## Dropping a reference -/

/-- `ref` drops a reference, in any store with less than `n` objects that are not
    being destroyed already. -/
def Drops (ref : State α → Addr → Int32 → Outcome (Int32 × State α)) (n : Nat) : Prop :=
  ∀ {st Z rs a}, Inv st Z (a ::ₘ rs) → (st.objs.dom \ Z).card < n →
    (ref st a (-1)).Sat fun r => Inv r.2 Z rs ∧ Frame Z st r.2

section Destruct

variable {ref : State α → Addr → Int32 → Outcome (Int32 × State α)} {n : Nat}

/-- `cd_cb` over one bucket drops one reference for each entry. -/
theorem traverseBucket_cdCb (href : Drops ref n) (c : Addr) (i : Nat) (es : List BucketEntry)
    (h : Inv st Z (rs + (es.map BucketEntry.pobj : List Addr)))
    (hn : (st.objs.dom \ Z).card < n) :
    (Open.traverseBucket ref m c { unlink := true } (Open.cdCb ref) none i es NULL st).Sat
      fun r => r.1 = false ∧ r.2.1 = NULL ∧ Inv r.2.2 Z rs ∧ Frame Z st r.2.2 := by
  induction es generalizing st with
  | nil => exact ⟨rfl, rfl, by simpa using h, Frame.refl Z st⟩
  | cons cur rest ih =>
    have hsplit : rs + (((cur :: rest).map BucketEntry.pobj : List Addr) : Multiset Addr)
        = cur.pobj ::ₘ (rs + (rest.map BucketEntry.pobj : List Addr)) := by
      rw [List.map_cons, ← Multiset.cons_coe, Multiset.add_cons]
    rw [hsplit] at h
    obtain ⟨-, p, hp⟩ := h.get_of_mem (Multiset.mem_cons_self _ _)
    obtain ⟨d, hd⟩ := externalObj_of_get hp
    unfold Open.traverseBucket
    rw [hd, ok_bind]
    have hdrop := href (h.emit (e := .callback cur.addr) (by simp)) hn
    have hemit : Frame Z st (st.emit (.callback cur.addr)) := .of_objs rfl
    have hcb : (Open.cdCb ref (st.emit (.callback cur.addr)) ⟨cur.pobj, d⟩).Sat fun r =>
        r.1 = 0 ∧ Inv r.2 Z (rs + (rest.map BucketEntry.pobj : List Addr)) ∧ Frame Z st r.2 :=
      hdrop.bind fun r hr =>
        ⟨rfl, hr.1, hemit.trans hr.2⟩
    refine hcb.bind fun ⟨r, st1⟩ ⟨hr, hinv, hframe⟩ => ?_
    simp only at hr hinv hframe
    subst hr
    have hzero : (CMP_MATCH ||| CMP_STOP) &&& 0 = (0 : Int32) := by decide
    simp only [hzero, if_true]
    refine (ih hinv (lt_of_le_of_lt hframe.card_le hn)).mono fun r hr => ?_
    exact ⟨hr.1, hr.2.1, hr.2.2.1, hframe.trans hr.2.2.2⟩

/-- `cd_cb` over the buckets from `i` on. -/
theorem bucketLoop_cdCb (href : Drops ref n) {cont : ObjContainer α} (hz : c ∈ Z)
    (hc : p.userData = .container cont) (hlen : cont.nBuckets.toInt = cont.buckets.length)
    (fuel i : Nat) (hi : i ≤ cont.buckets.length) (hfuel : cont.buckets.length < i + fuel)
    (hp : st.objs.get c = some p)
    (h : Inv st Z (rs + ((cont.buckets.drop i).flatten.map BucketEntry.pobj : List Addr)))
    (hn : (st.objs.dom \ Z).card < n) :
    (Open.bucketLoop ref m c { unlink := true } (Open.cdCb ref) none 0 fuel i
      cont.nBuckets.toInt NULL st).Sat fun r => Inv r.2 Z rs ∧ Frame Z st r.2 := by
  induction fuel generalizing i st with
  | zero => omega
  | succ fuel ih =>
    unfold Open.bucketLoop
    by_cases hlt : i < cont.buckets.length
    · have hcond : (i : Int) < cont.nBuckets.toInt := by omega
      rw [if_pos hcond, containerAt_of_get hp hc, ok_bind]
      have hidx : bucketIndex cont i = .ok i := by simp [bucketIndex, hlt]
      simp only [hidx, ok_bind, List.getElem?_eq_getElem hlt, Option.getD_some]
      rw [List.drop_eq_getElem_cons hlt, List.flatten_cons, List.map_append,
        ← Multiset.coe_add, add_comm (((cont.buckets[i].map _ : List Addr)) : Multiset Addr),
        ← add_assoc] at h
      refine (traverseBucket_cdCb href c i _ h hn).bind fun ⟨stop, ret, st1⟩ hr => ?_
      obtain ⟨hstop, hret, hinv, hframe⟩ := hr
      simp only at hstop hret hinv hframe
      subst hstop hret
      simp only [ne_eq, not_true_eq_false, if_false, Bool.false_eq_true, and_false]
      have hp1 : st1.objs.get c = some p := (hframe.zombie hz).trans hp
      have hn1 := lt_of_le_of_lt hframe.card_le hn
      refine (ih (i + 1) (by omega) (by omega) hp1 hinv hn1).mono fun r hr => ?_
      exact ⟨hr.1, hframe.trans hr.2⟩
    · have hcond : ¬ (i : Int) < cont.nBuckets.toInt := by omega
      rw [if_neg hcond]
      have hdrop : cont.buckets.drop i = [] := List.drop_eq_nil_of_le (by omega)
      exact ⟨by simpa [hdrop] using h, Frame.refl Z st⟩

/-- `container_destruct` drops one reference for each entry of the container. -/
theorem containerDestruct_sat (href : Drops ref n) {cont : ObjContainer α} (hz : c ∉ Z)
    (hp : st.objs.get c = some p) (hc : p.userData = .container cont) (hw : ContWf cont)
    (h : Inv st (insert c Z) (rs + p.pobjs)) (hn : (st.objs.dom \ insert c Z).card < n) :
    (Open.containerDestruct ref m st c).Sat fun st' =>
      Inv st' (insert c Z) rs ∧ Frame Z st (st'.freeObj c) := by
  have hmem : c ∈ insert c Z := Finset.mem_insert_self c Z
  have hpobjs : p.pobjs = ((cont.buckets.drop 0).flatten.map BucketEntry.pobj : List Addr) := by
    simp [Obj.pobjs, Obj.entries, hc]
  obtain ⟨st1, hst1, hobjs1, hcount1⟩ := h.wf.lockIf hp true
  have hloop := bucketLoop_cdCb (m := m) href hmem hc hw.nBuckets (Open.loopFuel cont) 0
    (by omega) (by simp [Open.loopFuel, hw.nBuckets]; omega) (hobjs1 ▸ hp)
    (hpobjs ▸ Inv.of_counted hobjs1 (hcount1 _ h)) (hobjs1 ▸ hn)
  have hsearch : (Open.search ref m st c { unlink := true } (Open.cdCb ref) ⟨NULL, none⟩
      none).Sat fun r => Inv r.2 (insert c Z) rs ∧ Frame (insert c Z) st r.2 := by
    unfold Open.search
    rw [containerAt_of_get hp hc, ok_bind]
    simp only [Open.searchBounds, Open.hashedBucket, Bool.false_eq_true, if_false, ok_bind,
      show (-1 : Int) < 0 by decide, if_true, Bool.not_false, hst1]
    refine hloop.bind fun x hx => ?_
    obtain ⟨ret, st2⟩ := x
    obtain ⟨hinv2, hframe2⟩ := hx
    have hp2 : st2.objs.get c = some p := (hframe2.zombie hmem).trans (hobjs1 ▸ hp)
    obtain ⟨st3, hst3, hobjs3, hcount3⟩ := hinv2.wf.unlockIf hp2 true
    simp only [hst3, ok_bind, sat_ok]
    exact ⟨Inv.of_counted hobjs3 (hcount3 _ hinv2),
      (Frame.of_objs hobjs1).trans (hframe2.trans (Frame.of_objs hobjs3))⟩
  unfold Open.containerDestruct Open.internalObjCallback
  rw [h.wf.internalObj hp, ok_bind]
  simp only [Bool.false_and, Bool.false_eq_true, if_false, Option.getD_some]
  have hcall : (Open.search ref m st c { unlink := true } (Open.cdCb ref) ⟨NULL, none⟩ none >>=
      fun r => Outcome.ok (CallbackRet.obj r.1, r.2)).Sat fun r =>
        Inv r.2 (insert c Z) rs ∧ Frame (insert c Z) st r.2 := hsearch.bind fun _ hr => hr
  refine hcall.bind fun x hx => ?_
  obtain ⟨_, st2⟩ := x
  obtain ⟨hinv2, hframe2⟩ := hx
  have hp2 : st2.objs.get c = some p := (hframe2.zombie hmem).trans hp
  rw [containerAt_of_get hp2 hc, ok_bind]
  -- the entries are freed: only the object being destroyed changes
  refine ⟨?_, ?_⟩
  · have hheld : held (setContainer st2 c p { cont with
        buckets := List.replicate cont.nBuckets.toInt.toNat [] ++
          cont.buckets.drop cont.nBuckets.toInt.toNat }) (insert c Z) = held st2 (insert c Z) :=
      Heap.total_set_of_mem _ hmem
    rw [Inv, hheld]
    exact Counted.setObj hinv2 hp2 rfl rfl fun hc => absurd hmem hc
  · have hobjs : (State.freeObj (setContainer st2 c p { cont with
        buckets := List.replicate cont.nBuckets.toInt.toNat [] ++
          cont.buckets.drop cont.nBuckets.toInt.toNat }) c).objs = (st2.freeObj c).objs :=
      Heap.free_set st2.objs c _
    have hfree : Frame Z st (st2.freeObj c) :=
      (hframe2.mono (Finset.subset_insert c Z)).trans (Frame.freeObj hz)
    exact hfree.trans (Frame.of_objs hobjs)

/-- The destructor of the dying object `a` drops what the object holds. -/
theorem runDestructor_sat (href : Drops ref n) (hz : a ∉ Z) (hp : st.objs.get a = some p)
    (hw : ObjWf p) (h : Inv st (insert a Z) (rs + p.pobjs))
    (hn : (st.objs.dom \ insert a Z).card < n) :
    (runDestructor ref m st a p.destructorFn).Sat fun st' =>
      Inv st' (insert a Z) rs ∧ Frame Z st (st'.freeObj a) := by
  cases hu : p.userData with
  | container cont =>
    obtain ⟨hcont, hd⟩ := hw.container cont hu
    rw [hd]
    exact containerDestruct_sat href hz hp hu hcont h hn
  | data d =>
    have hd := hw.data d hu
    have hpobjs : p.pobjs = 0 := by simp [Obj.pobjs, Obj.entries, hu]
    have hret : runDestructor ref m st a p.destructorFn = .ok st := by
      rcases hf : p.destructorFn with _ | _ | _
      · rfl
      · rfl
      · exact absurd hf hd
    rw [hret]
    exact ⟨by simpa [hpobjs] using h, Frame.freeObj hz⟩

end Destruct

/-- The object `a`, whose last reference has gone, is set apart and its destructor
    called: the references of its entries have no owner any more. -/
theorem Inv.destroy (h : Inv st Z (a ::ₘ rs)) (hp : st.objs.get a = some p) (ha : a ∉ Z)
    (hcnt : p.refCounter.toInt = 1) (v : Int32) :
    Inv ((st.setObj a { p with refCounter := v }).emit (.destruct p.serial)) (insert a Z)
      (rs + p.pobjs) := by
  have hget : (st.setObj a { p with refCounter := v }).objs.get a
      = some { p with refCounter := v } := by simp
  have hheld : held ((st.setObj a { p with refCounter := v }).emit (.destruct p.serial))
      (insert a Z) = held st (insert a Z) :=
    Heap.total_set_of_mem _ (Finset.mem_insert_self a Z)
  have hsplit : held st Z = p.pobjs + held st (insert a Z) := Heap.total_insert hp ha
  have hcounter := counter_of_get hp ha
  rw [hcnt] at hcounter
  have hagrees := h.agrees
  rw [Multiset.cons_add] at hagrees
  have hwf := (h.wf.setCounter hp v).kill hget ha
  refine ⟨hwf, ?_⟩
  rw [hheld, add_assoc, ← hsplit]
  have hnew : counter ((st.setObj a { p with refCounter := v }).emit (.destruct p.serial))
      (insert a Z) = Function.update (counter st Z) a none := by
    rw [counter_insert]
    change Function.update (counter (st.setObj a _) Z) a none = _
    rw [counter_setObj _ _ ha, Function.update_idem]
  rw [hnew]
  exact (hagrees.releaseLast hcounter).1

/-- The dead object is freed. -/
theorem Inv.free (h : Inv st (insert a Z) rs) (ha : a ∉ Z) : Inv (st.freeObj a) Z rs := by
  have hheld : held (st.freeObj a) Z = held st (insert a Z) := by
    have := Heap.total_free (h := st.objs) (Z := Z) (f := Obj.pobjs) (a := a)
    rwa [Finset.erase_eq_of_notMem ha] at this
  refine ⟨h.wf.free ha, ?_⟩
  rw [counter_freeObj, hheld]
  exact h.agrees

/-- `obj_ref(a, -1)` gives a reference back; the last one destroys the object. -/
theorem internalObjRef_drops (m : Machine) (n : Nat) :
    Drops (α := α) (internalObjRef m.toChecked n) n := by
  induction n with
  | zero => intro st Z rs a h hn; omega
  | succ n ih =>
    intro st Z rs a h hn
    obtain ⟨hz, p, hp⟩ := h.get_of_mem (Multiset.mem_cons_self a rs)
    obtain ⟨-, hpos⟩ := Counted.refCounter h hp hz
    unfold internalObjRef
    rw [h.wf.internalObj hp, ok_bind]
    have hne : ¬ (-1 : Int32) = 0 := by decide
    dsimp only
    rw [if_neg hne]
    refine spdAtomicFetchaddInt_checked.bind fun v ⟨_, hv⟩ => ?_
    have h1 : (-1 : Int32).toInt = -1 := by decide
    by_cases hle : v ≤ 0
    · -- the last reference
      have hcnt : p.refCounter.toInt = 1 := by
        rw [Int32.le_iff_toInt_le] at hle
        simp only [Int32.toInt_zero] at hle
        omega
      simp only [hle, if_true]
      have hkill := h.destroy hp hz hcnt v
      have hcard : (st.objs.dom \ insert a Z).card < n := by
        have hmem : a ∈ st.objs.dom \ Z := Finset.mem_sdiff.mpr ⟨Heap.mem_dom_of_get hp, hz⟩
        have hlt := Finset.card_erase_lt_of_mem hmem
        rw [← Finset.sdiff_insert] at hlt
        omega
      have hdom : ((st.setObj a { p with refCounter := v }).emit (.destruct p.serial)).objs.dom
          = st.objs.dom := Heap.dom_set_of_mem _ (Heap.mem_dom_of_get hp)
      have hdes := runDestructor_sat (m := m.toChecked) ih hz
        (show _ = some { p with refCounter := v } by simp)
        ((h.wf.objs hp hz).setCounter v) hkill (by rw [hdom]; exact hcard)
      refine hdes.bind fun st' ⟨hinv, hframe⟩ => ?_
      have hemit : Frame Z (st.setObj a { p with refCounter := v })
          ((st.setObj a { p with refCounter := v }).emit (.destruct p.serial)) := .of_objs rfl
      exact ⟨hinv.free hz, ((Frame.setCounter hp hz v).trans hemit).trans hframe⟩
    · simp only [hle, if_false]
      have hgt : 1 < p.refCounter.toInt := by
        rw [Int32.le_iff_toInt_le] at hle
        simp only [Int32.toInt_zero] at hle
        omega
      have hheld : held (st.setObj a { p with refCounter := v }) Z = held st Z :=
        held_setObj_of_eq hp rfl
      refine ⟨⟨h.wf.setCounter hp v, ?_⟩, Frame.setCounter hp hz v⟩
      have hagrees := h.agrees
      rw [Multiset.cons_add] at hagrees
      rw [hheld, counter_setObj _ _ hz, hv, h1]
      exact hagrees.release (counter_of_get hp hz) hgt

/-- `obj_ref(a, 1)` by a client. -/
theorem objRef_inc (h : Counted st ∅ R) (ha : a ∈ R) :
    (objRef m.toChecked st a 1).Sat fun r =>
      Counted r.2 ∅ (a ::ₘ R) ∧ Frame ∅ st r.2 ∧ held r.2 ∅ = held st ∅ :=
  internalObjRef_inc _ h ha

/-- `obj_ref(a, 1)` on any live object: the reference is the caller's. -/
theorem objRef_inc_ext (h : Inv st ∅ rs) (ha : a ∈ st.objs.dom) :
    (objRef m.toChecked st a 1).Sat fun r => Inv r.2 ∅ (a ::ₘ rs) ∧ Frame ∅ st r.2 := by
  obtain ⟨p, hp⟩ := Heap.mem_dom.mp ha
  have hmem : a ∈ rs + held st ∅ := Counted.mem_of_get h hp (Finset.notMem_empty a)
  refine (objRef_inc h hmem).mono fun r ⟨hcount, hframe, hheld⟩ => ⟨?_, hframe⟩
  rw [Inv, hheld, Multiset.cons_add]
  exact hcount

/-- `obj_ref(a, -1)` by a client: the fuel of `objRef` is enough. -/
theorem objRef_dec (h : Inv st ∅ (a ::ₘ rs)) :
    (objRef m.toChecked st a (-1)).Sat fun r => Inv r.2 ∅ rs ∧ Frame ∅ st r.2 :=
  internalObjRef_drops m _ h (by simp)

end Spider.ObjModel
