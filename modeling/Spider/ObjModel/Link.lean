import Spider.Lib.Buckets
import Spider.ObjModel.RefCount
import Mathlib.Logic.Relation

/-!
# Linking and unlinking

Adding and removing an entry keep a container well formed and move one
reference between the store and the callers. `Keeps rs st st'` is what the
holders of the references `rs` can rely on across a call.
-/

namespace Spider.ObjModel

open Lib Outcome

variable {α : Type} {m : Machine} {st st' st'' : State α} {R rs rs' : Multiset Addr}
  {a c o : Addr} {p p' p'' : Obj α} {cont cont' : ObjContainer α}

/-! ## Entries and their buckets -/

section InBucket

variable {bs : List (List BucketEntry)} {k j : Nat} {e a : BucketEntry}

/-- Entry `e` is linked in bucket `k`. -/
def InBucket (bs : List (List BucketEntry)) (k : Nat) (e : BucketEntry) : Prop :=
  ∃ es, bs[k]? = some es ∧ e ∈ es

theorem InBucket.mem_flatten (h : InBucket bs k e) : e ∈ bs.flatten := by
  obtain ⟨es, hes, he⟩ := h
  exact Buckets.mem_flatten hes he

theorem exists_inBucket (h : e ∈ bs.flatten) : ∃ k, InBucket bs k e := by
  obtain ⟨es, hes, he⟩ := List.mem_flatten.mp h
  obtain ⟨k, hk, rfl⟩ := List.mem_iff_getElem.mp hes
  exact ⟨k, _, List.getElem?_eq_getElem hk, he⟩

/-- After `e` was linked into bucket `k`, a bucket holds what it held, or `e`. -/
theorem inBucket_insert
    (h : InBucket (bs.modify k (· ++ [e])) j a) : InBucket bs j a ∨ j = k ∧ a = e := by
  obtain ⟨es, hes, ha⟩ := h
  by_cases hj : k = j
  · subst hj
    simp only [List.getElem?_modify_eq, Option.map_eq_map, Option.map_eq_some_iff] at hes
    obtain ⟨b, hb, rfl⟩ := hes
    rcases List.mem_append.mp ha with hold | hnew
    · exact Or.inl ⟨b, hb, hold⟩
    · exact Or.inr ⟨rfl, List.mem_singleton.mp hnew⟩
  · rw [List.getElem?_modify_ne _ _ hj] at hes
    exact Or.inl ⟨es, hes, ha⟩

/-- After an entry was taken out of bucket `k`, a bucket holds nothing new. -/
theorem inBucket_erase {x : Addr}
    (h : InBucket (bs.modify k (·.eraseP (·.addr = x))) j a) : InBucket bs j a := by
  obtain ⟨es, hes, ha⟩ := h
  by_cases hj : k = j
  · subst hj
    simp only [List.getElem?_modify_eq, Option.map_eq_map, Option.map_eq_some_iff] at hes
    obtain ⟨b, hb, rfl⟩ := hes
    exact ⟨b, hb, List.mem_of_mem_eraseP ha⟩
  · rw [List.getElem?_modify_ne _ _ hj] at hes
    exact ⟨es, hes, ha⟩

end InBucket

/-! ## What a call may do to a container -/

/-- One change of a container: an entry is added at the end of the bucket `obj_link`
    picks for its object, or taken out. The version goes up by one. -/
inductive ContMod : ObjContainer α → ObjContainer α → Prop where
  | link {cont : ObjContainer α} {i : Int32} {k : Nat} {e : BucketEntry} {d : Option α}
      (hi : linkIndex cont ⟨e.pobj, d⟩ = .ok i) (hk : bucketIndex cont i.toInt = .ok k)
      (hfresh : e.addr ∉ cont.entryAddrs) (hnull : e.addr ≠ NULL)
      (hver : e.version = cont.version) :
      ContMod cont { cont.insertTail k e with
        version := cont.version + 1, elements := cont.elements + 1 }
  | unlink {cont : ObjContainer α} {k : Nat} {pre post : List BucketEntry} {e : BucketEntry}
      (hb : cont.buckets[k]? = some (pre ++ e :: post)) :
      ContMod cont { cont.removeEntry k e.addr with
        version := cont.version + 1, elements := cont.elements + -1 }

/-- What a call may do to a container: change it step by step. Its version tells. -/
structure ContStep (cont cont' : ObjContainer α) : Prop where
  mods : Relation.ReflTransGen ContMod cont cont'
  version : cont' = cont ∨ cont.version.toInt < cont'.version.toInt

theorem ContStep.refl (cont : ObjContainer α) : ContStep cont cont := ⟨.refl, Or.inl rfl⟩

theorem ContStep.single (h : ContMod cont cont')
    (hv : cont'.version.toInt = cont.version.toInt + 1) : ContStep cont cont' :=
  ⟨.single h, Or.inr (by omega)⟩

theorem ContStep.trans {cont'' : ObjContainer α} (h : ContStep cont cont')
    (h' : ContStep cont' cont'') : ContStep cont cont'' := by
  refine ⟨h.mods.trans h'.mods, ?_⟩
  rcases h.version with rfl | hlt
  · exact h'.version
  · rcases h'.version with rfl | hlt'
    · exact Or.inr hlt
    · exact Or.inr (lt_trans hlt hlt')

/-- A change keeps the shape of the container. -/
theorem ContMod.shape (h : ContMod cont cont') :
    cont'.nBuckets = cont.nBuckets ∧ cont'.hashFn = cont.hashFn ∧ cont'.cmpFn = cont.cmpFn ∧
      cont'.buckets.length = cont.buckets.length := by
  cases h with
  | link => exact ⟨rfl, rfl, rfl, List.length_modify _ _ _⟩
  | unlink => exact ⟨rfl, rfl, rfl, List.length_modify _ _ _⟩

theorem nBuckets_of_mods (h : Relation.ReflTransGen ContMod cont cont') :
    cont'.nBuckets = cont.nBuckets := by
  induction h with
  | refl => rfl
  | tail _ hmod ih => exact hmod.shape.1.trans ih

/-- What a call may do to an object that stays allocated. -/
structure ObjStep (p p' : Obj α) : Prop where
  serial : p'.serial = p.serial
  data : ∀ d, p.userData = .data d → p'.userData = .data d
  container : ∀ cont, p.userData = .container cont →
    ∃ cont', p'.userData = .container cont' ∧ ContStep cont cont'

theorem ObjStep.of_userData (hs : p'.serial = p.serial) (hu : p'.userData = p.userData) :
    ObjStep p p' :=
  ⟨hs, fun _ hd => hu.trans hd, fun cont hc => ⟨cont, hu.trans hc, .refl cont⟩⟩

theorem ObjStep.refl (p : Obj α) : ObjStep p p := .of_userData rfl rfl

theorem ObjStep.trans (h : ObjStep p p') (h' : ObjStep p' p'') : ObjStep p p'' := by
  refine ⟨h'.serial.trans h.serial, fun d hd => h'.data d (h.data d hd), fun cont hc => ?_⟩
  obtain ⟨cont', hc', hs⟩ := h.container cont hc
  obtain ⟨cont'', hc'', hs'⟩ := h'.container cont' hc'
  exact ⟨cont'', hc'', hs.trans hs'⟩

/-- The objects the references `rs` point to stay. -/
def Keeps (rs : Multiset Addr) (st st' : State α) : Prop :=
  ∀ a ∈ rs, ∀ p, st.objs.get a = some p → ∃ p', st'.objs.get a = some p' ∧ ObjStep p p'

namespace Keeps

theorem of_objs (h : st'.objs = st.objs) : Keeps rs st st' :=
  fun _ _ p hp => ⟨p, h ▸ hp, .refl p⟩

theorem refl (rs : Multiset Addr) (st : State α) : Keeps rs st st := of_objs rfl

theorem trans (h : Keeps rs st st') (h' : Keeps rs st' st'') : Keeps rs st st'' := by
  intro a ha p hp
  obtain ⟨p', hp', hs⟩ := h a ha p hp
  obtain ⟨p'', hp'', hs'⟩ := h' a ha p' hp'
  exact ⟨p'', hp'', hs.trans hs'⟩

theorem mono (h : Keeps rs st st') (hsub : rs' ⊆ rs) : Keeps rs' st st' :=
  fun a ha => h a (hsub ha)

/-- An object is overwritten by one it may become. -/
theorem setObj (hp : st.objs.get c = some p) (hs : ObjStep p p') :
    Keeps rs st (st.setObj c p') := by
  intro b _ q hq
  by_cases hb : b = c
  · subst hb
    have hqp : p = q := Option.some.inj (hp.symm.trans hq)
    exact ⟨p', by simp, hqp ▸ hs⟩
  · exact ⟨q, by simpa [Heap.get_set_of_ne _ _ hb] using hq, .refl q⟩

/-- A new object is none of the old ones. -/
theorem alloc (ha : a ∉ st.objs.dom) : Keeps rs st (st.setObj a p) := by
  intro b _ q hq
  have hb : b ≠ a := by
    rintro rfl
    exact ha (Heap.mem_dom_of_get hq)
  exact ⟨q, by simpa [Heap.get_set_of_ne _ _ hb] using hq, .refl q⟩

end Keeps

/-- Across counter changes a referenced object keeps its contents. -/
theorem Frame.get {Z : Finset Addr} (h : Frame Z st st') (hi : Inv st' Z rs) (ha : a ∈ rs)
    (hp : st.objs.get a = some p) : ∃ v, st'.objs.get a = some { p with refCounter := v } := by
  obtain ⟨-, p', hp'⟩ := hi.get_of_mem ha
  obtain ⟨q, hq, he⟩ := h.obj hp'
  have hqp : q = p := Option.some.inj (hq.symm.trans hp)
  exact ⟨p'.refCounter, by rw [hp', he, hqp]⟩

theorem Frame.keeps {Z : Finset Addr} (h : Frame Z st st') (hi : Inv st' Z rs) :
    Keeps rs st st' := by
  intro a ha p hp
  obtain ⟨v, hv⟩ := h.get hi ha hp
  exact ⟨_, hv, .of_userData rfl rfl⟩

/-- The user data of an object, for a callback. -/
def Obj.data (p : Obj α) : Option α :=
  match p.userData with
  | .data d => some d
  | .container _ => none

theorem externalObj_eq (hp : st.objs.get a = some p) : externalObj st a = .ok ⟨a, p.data⟩ := by
  unfold externalObj Obj.data
  rw [hp]
  cases hu : p.userData with
  | data d => simp only [hu]
  | container k => simp only [hu]

/-- No object is new, and those that are left hold what they held. -/
def Stays (st st' : State α) : Prop :=
  ∀ a p', st'.objs.get a = some p' → ∃ p, st.objs.get a = some p ∧ p'.data = p.data

namespace Stays

theorem of_objs (h : st'.objs = st.objs) : Stays st st' := fun _ p' hp' => ⟨p', h ▸ hp', rfl⟩

theorem refl (st : State α) : Stays st st := of_objs rfl

theorem trans (h : Stays st st') (h' : Stays st' st'') : Stays st st'' := by
  intro a p'' hp''
  obtain ⟨p', hp', hd'⟩ := h' a p'' hp''
  obtain ⟨p, hp, hd⟩ := h a p' hp'
  exact ⟨p, hp, hd'.trans hd⟩

theorem setObj (hp : st.objs.get c = some p) (hd : p'.data = p.data) :
    Stays st (st.setObj c p') := by
  intro b q hq
  by_cases hb : b = c
  · subst hb
    have hqp : p' = q := by simpa using hq
    exact ⟨p, hp, hqp ▸ hd⟩
  · exact ⟨q, by simpa [Heap.get_set_of_ne _ _ hb] using hq, rfl⟩

theorem setContainer (hp : st.objs.get c = some p) (hu : p.userData = .container cont) :
    Stays st (setContainer st c p cont') := by
  refine .setObj hp ?_
  rw [Obj.data, Obj.data, hu]

end Stays

theorem Frame.stays {Z : Finset Addr} (h : Frame Z st st') : Stays st st' := by
  intro a p' hp'
  obtain ⟨p, hp, he⟩ := h.obj hp'
  exact ⟨p, hp, by rw [he]; rfl⟩

/-- What a callback is given of an object that is still there. -/
theorem Stays.externalObj {x : Ptr α} (h : Stays st st') (ha : a ∈ st'.objs.dom)
    (hx : externalObj st a = .ok x) : externalObj st' a = .ok x := by
  obtain ⟨p', hp'⟩ := Heap.mem_dom.mp ha
  obtain ⟨p, hp, hd⟩ := h a p' hp'
  rw [externalObj_eq hp] at hx
  rw [externalObj_eq hp', hd, hx]

/-- `c` is a container with contents `cont`. -/
def HasCont (st : State α) (c : Addr) (cont : ObjContainer α) : Prop :=
  ∃ p, st.objs.get c = some p ∧ p.userData = .container cont

theorem HasCont.of_objs (h : HasCont st c cont) (ho : st'.objs = st.objs) :
    HasCont st' c cont := by
  rw [HasCont, ho]
  exact h

theorem HasCont.of_frame {Z : Finset Addr} (h : HasCont st c cont) (hf : Frame Z st st')
    (hi : Inv st' Z rs) (hc : c ∈ rs) : HasCont st' c cont := by
  obtain ⟨p, hp, hu⟩ := h
  obtain ⟨v, hv⟩ := hf.get hi hc hp
  exact ⟨_, hv, hu⟩

theorem Keeps.hasCont (h : Keeps rs st st') (hc : c ∈ rs) (hcont : HasCont st c cont) :
    ∃ cont', HasCont st' c cont' ∧ ContStep cont cont' := by
  obtain ⟨p, hp, hu⟩ := hcont
  obtain ⟨p', hp', hs⟩ := h c hc p hp
  obtain ⟨cont', hu', hstep⟩ := hs.container cont hu
  exact ⟨cont', ⟨p', hp', hu'⟩, hstep⟩

theorem Counted.contWf {Z : Finset Addr} (h : Counted st Z R) (hc : HasCont st c cont)
    (hz : c ∉ Z) : ContWf cont := by
  obtain ⟨p, hp, hu⟩ := hc
  exact ((h.wf.objs hp hz).container cont hu).1

/-! ## Adding and removing an entry -/

/-- The contents after `e` was linked into bucket `i`. -/
theorem ContWf.insertTail (h : ContWf cont) {i : Nat} {b : List BucketEntry}
    (hb : cont.buckets[i]? = some b) {e : BucketEntry} (he : e.addr ∉ cont.entryAddrs)
    (hnull : e.addr ≠ NULL) {version elements : Int32}
    (hv : version.toInt = cont.version.toInt + 1)
    (hel : elements.toInt = cont.elements.toInt + 1) :
    ContWf { cont.insertTail i e with version := version, elements := elements } := by
  have hperm : (cont.insertTail i e).buckets.flatten.Perm (e :: cont.buckets.flatten) :=
    Buckets.perm_insert hb
  have hpos := h.version
  refine ⟨?_, ?_, h.pos, by simp only; omega, h.hash, ?_, ?_⟩
  · have hlen := hperm.length_eq
    rw [List.length_cons] at hlen
    simp only [hel, h.elements, hlen]
    omega
  · simpa [ObjContainer.insertTail] using h.nBuckets
  · refine (hperm.map BucketEntry.addr).nodup_iff.mpr ?_
    rw [List.map_cons, List.nodup_cons]
    exact ⟨by simpa [ObjContainer.entryAddrs] using he, h.addrs⟩
  · intro e' he'
    rcases List.mem_cons.mp (hperm.mem_iff.mp he') with rfl | hmem
    · exact hnull
    · exact h.notNull e' hmem

section Remove

variable {i : Nat} {pre post : List BucketEntry} {e : BucketEntry}

theorem removeEntry_bucket (hd : (cont.buckets.flatten.map BucketEntry.addr).Nodup)
    (hb : cont.buckets[i]? = some (pre ++ e :: post)) :
    (pre ++ e :: post).eraseP (fun e' => e'.addr = e.addr) = pre ++ post := by
  apply Buckets.eraseP_eq
  have hsub : (pre ++ e :: post).Sublist cont.buckets.flatten :=
    List.sublist_flatten_of_mem (List.mem_of_getElem? hb)
  exact hd.sublist (hsub.map BucketEntry.addr)

theorem removeEntry_perm (hd : (cont.buckets.flatten.map BucketEntry.addr).Nodup)
    (hb : cont.buckets[i]? = some (pre ++ e :: post)) :
    cont.buckets.flatten.Perm (e :: (cont.removeEntry i e.addr).buckets.flatten) :=
  Buckets.perm_remove hb (removeEntry_bucket hd hb)

/-- The contents after `e` was taken out of bucket `i`. -/
theorem ContWf.removeEntry (h : ContWf cont) (hb : cont.buckets[i]? = some (pre ++ e :: post))
    (version elements : Int32) (hv : version.toInt = cont.version.toInt + 1)
    (hel : elements.toInt = cont.elements.toInt - 1) :
    ContWf { cont.removeEntry i e.addr with version := version, elements := elements } := by
  have hperm := removeEntry_perm h.addrs hb
  have hpos := h.version
  refine ⟨?_, ?_, h.pos, by simp only; omega, h.hash, ?_, ?_⟩
  · have hlen := hperm.length_eq
    rw [List.length_cons] at hlen
    simp only [hel, h.elements, hlen]
    omega
  · simpa [ObjContainer.removeEntry] using h.nBuckets
  · have hnodup := (hperm.map BucketEntry.addr).nodup_iff.mp h.addrs
    rw [List.map_cons, List.nodup_cons] at hnodup
    exact hnodup.2
  · intro e' he'
    exact h.notNull e' (hperm.mem_iff.mpr (List.mem_cons_of_mem _ he'))

end Remove

/-- New contents of a well-formed container, with as many objects more or less. -/
theorem Counted.setContainer (h : Counted st ∅ R) (hp : st.objs.get c = some p)
    (hu : p.userData = .container cont) (hw : ContWf cont') :
    Counted (setContainer st c p cont') ∅ R := by
  have hobj := h.wf.objs hp (Finset.notMem_empty c)
  refine h.setObj hp rfl rfl fun _ => ⟨fun k hk => ?_, fun d hd => ?_⟩
  · have hk' : cont' = k := by simpa using hk
    exact hk' ▸ ⟨hw, (hobj.container cont hu).2⟩
  · simp at hd

theorem Obj.pobjs_container (hu : p.userData = .container cont) :
    p.pobjs = (cont.buckets.flatten.map BucketEntry.pobj : List Addr) := by
  simp [Obj.pobjs, Obj.entries, hu]

/-- How the references held by entries change with the contents of `c`. -/
theorem held_setContainer (cont' : ObjContainer α) (hp : st.objs.get c = some p) (hu : p.userData = .container cont) :
    held st ∅ + (cont'.buckets.flatten.map BucketEntry.pobj : List Addr)
      = held (setContainer st c p cont') ∅ +
        (cont.buckets.flatten.map BucketEntry.pobj : List Addr) := by
  have hnew : held (setContainer st c p cont') ∅
      = Obj.pobjs { p with userData := .container cont' } + held st (insert c ∅) :=
    Heap.total_set _ (Finset.notMem_empty c)
  have hold : held st ∅ = p.pobjs + held st (insert c ∅) :=
    Heap.total_insert hp (Finset.notMem_empty c)
  rw [hnew, hold, Obj.pobjs_container hu, Obj.pobjs_container rfl]
  rw [add_right_comm, add_comm (_ : Multiset Addr) (cont'.buckets.flatten.map _ : List Addr),
    add_right_comm]

theorem coe_map_cons_perm {es es' : List BucketEntry} {e : BucketEntry} (h : es.Perm (e :: es')) :
    ((es.map BucketEntry.pobj : List Addr) : Multiset Addr)
      = e.pobj ::ₘ (es'.map BucketEntry.pobj : List Addr) := by
  rw [Multiset.cons_coe, Multiset.coe_eq_coe, ← List.map_cons]
  exact h.map _

theorem ObjStep.setContainer (hu : p.userData = .container cont) (hs : ContStep cont cont') :
    ObjStep p { p with userData := .container cont' } := by
  refine ⟨rfl, fun d hd => ?_, fun k hk => ⟨cont', rfl, ?_⟩⟩
  · rw [hu] at hd
    cases hd
  · have hk' : cont = k := by simpa [hu] using hk
    exact hk' ▸ hs

/-- An entry is added to `c`, before the reference it stands for is taken. -/
theorem Inv.insertEntry (h : Inv st ∅ rs) (hp : st.objs.get c = some p)
    (hu : p.userData = .container cont) (hw : ContWf cont') {e : BucketEntry}
    (hperm : cont'.buckets.flatten.Perm (e :: cont.buckets.flatten)) :
    Counted ((setContainer st c p cont').emit (.bucketWrite c)) ∅ (rs + held st ∅) ∧
      held ((setContainer st c p cont').emit (.bucketWrite c)) ∅ = e.pobj ::ₘ held st ∅ := by
  refine ⟨(Counted.setContainer h hp hu hw).emit (by simp), ?_⟩
  have hheld := held_setContainer cont' hp hu
  rw [coe_map_cons_perm hperm, Multiset.add_cons, ← Multiset.cons_add] at hheld
  exact (add_right_cancel hheld).symm

/-- An entry is taken out of `c`: its reference passes to the caller. -/
theorem Inv.removeEntry (h : Inv st ∅ rs) (hp : st.objs.get c = some p)
    (hu : p.userData = .container cont) (hw : ContWf cont') {e : BucketEntry}
    (hperm : cont.buckets.flatten.Perm (e :: cont'.buckets.flatten)) :
    Inv ((setContainer st c p cont').emit (.bucketWrite c)) ∅ (e.pobj ::ₘ rs) := by
  have hheld := held_setContainer cont' hp hu
  rw [coe_map_cons_perm hperm, Multiset.add_cons, ← Multiset.cons_add] at hheld
  have hcount := (Counted.setContainer h hp hu hw).emit (e := .bucketWrite c) (by simp)
  rw [add_right_cancel hheld, Multiset.add_cons, ← Multiset.cons_add] at hcount
  exact hcount

/-! ## `obj_link` -/

theorem cAbs_nonneg {x : Int32} (h : x ≠ Int32.minValue) : 0 ≤ (cAbs x).toInt := by
  unfold cAbs
  split
  · next hle => simpa [Int32.le_iff_toInt_le] using hle
  · next hle =>
    rw [Int32.le_iff_toInt_le] at hle
    simp only [Int32.toInt_zero] at hle
    rw [CInt.toInt_neg h]
    omega

theorem cMod_eq (x : Int32) {n : Int32} (h : 0 < n.toInt) : cMod x n = .ok (x % n) := by
  have hn : n ≠ 0 := by
    rintro rfl
    simp at h
  have hn' : n ≠ -1 := by
    rintro rfl
    exact absurd h (by decide)
  simp [cMod, hn, hn']

theorem bucketIndex_eq_ok {i : Int} {k : Nat} (h : bucketIndex cont i = .ok k) :
    i.toNat = k ∧ k < cont.buckets.length := by
  unfold bucketIndex at h
  split at h
  · next hi =>
    obtain rfl := Outcome.ok.inj h
    exact ⟨rfl, hi.2⟩
  · cases h

/-- `obj_link` picks a bucket there is. -/
theorem linkIndex_eq (h : ContWf cont) (ptr : Ptr α) :
    ∃ i, linkIndex cont ptr = .ok i ∧ bucketIndex cont i.toInt = .ok i.toInt.toNat ∧
      i.toInt.toNat < cont.buckets.length := by
  have hpos := h.pos
  have hlen := h.nBuckets
  have habs := cAbs_nonneg (h.hash ptr OBJ_POINTER)
  refine ⟨cAbs (cont.hashFn ptr OBJ_POINTER) % cont.nBuckets, cMod_eq _ hpos, ?_⟩
  rw [Int32.toInt_mod]
  have hge := Int.tmod_nonneg cont.nBuckets.toInt habs
  have hlt := Int.tmod_lt_of_pos (cAbs (cont.hashFn ptr OBJ_POINTER)).toInt hpos
  have hidx : ((cAbs (cont.hashFn ptr OBJ_POINTER)).toInt.tmod cont.nBuckets.toInt).toNat
      < cont.buckets.length := by omega
  exact ⟨if_pos ⟨hge, hidx⟩, hidx⟩

theorem spdCalloc_notMem (m : Machine) (st : State α) (live : Finset Addr)
    (h : (spdCalloc m st live).1 ≠ NULL) :
    (spdCalloc m st live).1 ∉ live := by
  simp only [spdCalloc] at h ⊢
  cases hc : m.calloc st.callocs live with
  | none => simp [hc] at h
  | some b => simpa using (m.calloc_fresh hc).1

/-- `spd_calloc` gives null only where the allocator fails. -/
theorem spdCalloc_eq_null {live : Finset Addr} (h : (spdCalloc m st live).1 = NULL) :
    m.calloc st.callocs live = none := by
  simp only [spdCalloc] at h
  cases hc : m.calloc st.callocs live with
  | none => rfl
  | some b =>
    rw [hc, Option.getD_some] at h
    exact absurd h (m.calloc_fresh hc).2

/-- The contents after `obj_link` has put `o` at the end of bucket `k`, with the entry at `e`. -/
def ObjContainer.linked (cont : ObjContainer α) (k : Nat) (e o : Addr) : ObjContainer α :=
  { cont.insertTail k ⟨e, cont.version, o⟩ with
    version := cont.version + 1, elements := cont.elements + 1 }

/-- `obj_link` has put `o` into the container, with the new entry at `e`. -/
def LinkedAt (e o : Addr) (cont cont' : ObjContainer α) : Prop :=
  ∃ d i k, linkIndex cont ⟨o, d⟩ = .ok i ∧ bucketIndex cont i.toInt = .ok k ∧
    cont' = cont.linked k e o

/-- `internal_obj_link` before the reference is taken: the new entry counts already,
    the reference it stands for is still missing. -/
theorem internalObjLink_sat (h : Inv st ∅ rs) (hc : HasCont st c cont)
    (ho : o ∈ st.objs.dom) (flags : SearchFlags) :
    (internalObjLink m.toChecked st c o flags).Sat fun r =>
      r.1 = NULL ∧ r.2.objs = st.objs ∧ Inv r.2 ∅ rs ∧ m.calloc st.callocs cont.entryAddrs = none ∨
        r.1 ≠ NULL ∧ Counted r.2 ∅ (rs + held st ∅) ∧ held r.2 ∅ = o ::ₘ held st ∅ ∧
          ∃ p cont', st.objs.get c = some p ∧ p.userData = .container cont ∧
            r.2.objs = st.objs.set c { p with userData := .container cont' } ∧
            ContStep cont cont' ∧ LinkedAt r.1 o cont cont' := by
  obtain ⟨q, hq⟩ := Heap.mem_dom.mp ho
  obtain ⟨p, hp, hu⟩ := hc
  have hw : ContWf cont := Counted.contWf h ⟨p, hp, hu⟩ (Finset.notMem_empty c)
  unfold internalObjLink
  simp only [h.wf.internalObj hq, h.wf.internalObj hp, ok_bind, containerAt_of_get hp hu]
  have hst1 : Inv (spdCalloc m.toChecked st cont.entryAddrs).2 ∅ rs := h.callocs _
  have hobj1 : (spdCalloc m.toChecked st cont.entryAddrs).2.objs = st.objs := rfl
  have hfresh := spdCalloc_notMem m.toChecked st cont.entryAddrs
  have hfail : (spdCalloc m.toChecked st cont.entryAddrs).1 = NULL →
      m.calloc st.callocs cont.entryAddrs = none := spdCalloc_eq_null
  generalize spdCalloc m.toChecked st cont.entryAddrs = r at hst1 hobj1 hfresh hfail ⊢
  obtain ⟨e, st1⟩ := r
  simp only at hst1 hobj1 hfresh hfail ⊢
  by_cases hnull : e = NULL
  · rw [if_pos hnull]
    exact Or.inl ⟨rfl, hobj1, hst1, hfail hnull⟩
  · rw [if_neg hnull]
    obtain ⟨d, hd⟩ := externalObj_of_get (hobj1 ▸ hq : st1.objs.get o = some q)
    have hp1 : st1.objs.get c = some p := hobj1 ▸ hp
    obtain ⟨st2, hst2, hobj2, hcount2⟩ := hst1.wf.lockIf hp1 flags.notAndNolock
    obtain ⟨i, hi, hk, hlt⟩ := linkIndex_eq hw ⟨o, d⟩
    rw [hobj1] at hobj2
    have hp2 : st2.objs.get c = some p := hobj2 ▸ hp
    simp only [hd, hst2, hi, hk, ok_bind, containerAt_of_get hp2 hu]
    refine spdAtomicFetchaddInt_checked.bind fun version ⟨hv, hvint⟩ => ?_
    refine spdAtomicFetchaddInt_checked.bind fun elements ⟨hel, helint⟩ => ?_
    have hb := List.getElem?_eq_getElem hlt
    have hinv2 : Inv st2 ∅ rs := .of_counted (hobj2.trans hobj1.symm) (hcount2 _ hst1)
    have h1 : (1 : Int32).toInt = 1 := by decide
    subst hv hel
    have hmod : ContMod cont (cont.linked i.toInt.toNat e o) :=
      .link hi hk (e := ⟨e, cont.version, o⟩) (hfresh hnull) hnull rfl
    obtain ⟨hcount, hheld⟩ := hinv2.insertEntry hp2 hu
      (hw.insertTail hb (e := ⟨e, cont.version, o⟩) (hfresh hnull) hnull hvint helint)
      (Buckets.perm_insert hb)
    have hheld2 : held st2 ∅ = held st ∅ := by rw [held, hobj2, held]
    rw [hheld2] at hcount hheld
    have hobj : ((ObjModel.setContainer st2 c p (cont.linked i.toInt.toNat e o)).emit
        (.bucketWrite c)).objs =
        st.objs.set c { p with userData := .container (cont.linked i.toInt.toNat e o) } := by
      rw [← hobj2]
      rfl
    exact Or.inr ⟨hnull, hcount, hheld, p, _, hp, hu, hobj, .single hmod hvint, d, i, _, hi, hk, rfl⟩

/-- `obj_link`: the new entry, if there is one, holds a reference of its own. No
    other container changes. -/
theorem objLink_exact (h : Inv st ∅ rs) (hc : HasCont st c cont) (ho : o ∈ st.objs.dom)
    (flags : SearchFlags) :
    (objLink m.toChecked st c o flags).Sat fun r =>
      Inv r.2 ∅ rs ∧ Keeps rs st r.2 ∧ Stays st r.2 ∧
        (∀ b k, b ≠ c → b ∈ rs → HasCont st b k → HasCont r.2 b k) ∧
        (c ∈ rs → m.calloc st.callocs cont.entryAddrs ≠ none →
          ∃ cont', HasCont r.2 c cont' ∧ LinkedAt r.1 o cont cont') := by
  unfold objLink Open.objLink
  refine (internalObjLink_sat h hc ho flags).bind fun ⟨e, st1⟩ hr => ?_
  rcases hr with ⟨hnull, hobj, hinv, hfail⟩ |
    ⟨hnull, hcount, hheld, p, cont', hp, hu, hobj, hstep, hlinked⟩
  · simp only at hnull hobj hinv ⊢
    rw [if_pos hnull]
    exact ⟨hinv, .of_objs hobj, .of_objs hobj, fun b k _ _ hk => hk.of_objs hobj,
      fun _ hall => absurd hfail hall⟩
  · simp only at hnull hobj hcount hheld hlinked ⊢
    rw [if_neg hnull]
    have hmem : o ∈ rs + held st ∅ := by
      obtain ⟨q, hq⟩ := Heap.mem_dom.mp ho
      exact Counted.mem_of_get h hq (Finset.notMem_empty o)
    refine (objRef_inc hcount hmem).bind fun ⟨_, st2⟩ ⟨hcount2, hframe, hheld2⟩ => ?_
    simp only at hcount2 hframe hheld2
    have hinv2 : Inv st2 ∅ rs := by
      rw [Inv, hheld2, hheld, Multiset.add_cons]
      exact hcount2
    have hc1 : st1.objs.get c = some { p with userData := .container cont' } := by
      rw [hobj]
      exact Heap.get_set_self _ _ _
    obtain ⟨-, q', hq'⟩ := hcount2.get_of_mem
      (Multiset.mem_cons_of_mem (hcount.mem_of_get hc1 (Finset.notMem_empty c)))
    obtain ⟨st3, hst3, hobj3, hcount3⟩ := hinv2.wf.unlockIf hq' flags.notAndNolock
    simp only [hst3, ok_bind, sat_ok]
    have hkeep1 : Keeps rs st st1 := by
      have hset : Keeps rs st (st.setObj c { p with userData := .container cont' }) :=
        .setObj hp (.setContainer hu hstep)
      rwa [Keeps, State.objs_setObj, ← hobj] at hset
    have hstay1 : Stays st st1 := by
      have hset : Stays st (ObjModel.setContainer st c p cont') := .setContainer hp hu
      rwa [Stays, ObjModel.setContainer, State.objs_setObj, ← hobj] at hset
    refine ⟨.of_counted hobj3 (hcount3 _ hinv2),
      (hkeep1.trans (hframe.keeps hinv2)).trans (.of_objs hobj3),
      (hstay1.trans hframe.stays).trans (.of_objs hobj3), fun b k hne hb hk => ?_, fun hc _ => ?_⟩
    · have hk1 : HasCont st1 b k := by
        obtain ⟨pb, hpb, hub⟩ := hk
        exact ⟨pb, by rw [hobj, Heap.get_set_of_ne _ _ hne]; exact hpb, hub⟩
      exact (hk1.of_frame hframe hinv2 hb).of_objs hobj3
    · have hcont1 : HasCont st1 c cont' := ⟨_, hc1, rfl⟩
      exact ⟨cont', (hcont1.of_frame hframe hinv2 hc).of_objs hobj3, hlinked⟩

theorem objLink_sat (h : Inv st ∅ rs) (hc : HasCont st c cont) (ho : o ∈ st.objs.dom)
    (flags : SearchFlags) :
    (objLink m.toChecked st c o flags).Sat fun r =>
      Inv r.2 ∅ rs ∧ Keeps rs st r.2 ∧
        ∀ b k, b ≠ c → b ∈ rs → HasCont st b k → HasCont r.2 b k :=
  (objLink_exact h hc ho flags).mono fun _ hr => ⟨hr.1, hr.2.1, hr.2.2.2.1⟩

end Spider.ObjModel
