import Spider.TaskQueue.Singletons

/-!
# The lifetime of named task queues

Each `spd_taskqueue_get` and `spd_taskqueue_unreference` keeps the invariant of
`Spider.TaskQueue.Singletons`: there is one queue for each name that clients
refer to, and it is destroyed with the last reference.
-/

namespace Spider.TaskQueue.Singletons

open Lib Outcome CString ObjModel

section

variable {m : Machine} {st : State Tps} {c : Addr} {p : Obj Tps} {cont : ObjContainer Tps}
  {data : Addr → Option Tps} {tmp : Tps} {s s' : Sys} {queues : List Queue} {q : Queue}

/-! ## The steps -/

/-- The first entry that matches a name is the entry of the queue of that name. -/
theorem Inv.find (h : Inv s queues) (hq : q ∈ queues) (hkey : q.tps.key = tmp.key)
    (hsing : IsSingletons data cont)
    (hperm : (cont.buckets.flatten.map fun e => (e.pobj, data e.addr)).Perm
      (queues.map fun q => (q.addr, some q.tps))) : ∃ cur, cont.buckets.flatten.find?
        (hit (cont.cmp ⟨NULL, some tmp⟩ OBJ_POINTER) (entryPtr data)) = some cur ∧
      cur.pobj = q.addr := by
  rcases queue_entry hperm hq with ⟨e, he, haddr, hdata⟩
  cases hfind : cont.buckets.flatten.find?
      (hit (cont.cmp ⟨NULL, some tmp⟩ OBJ_POINTER) (entryPtr data)) with
  | none =>
    have hhit := (hsing.hit_iff tmp e).mpr (by rw [hdata, ← hkey]; rfl)
    exact absurd hhit (List.find?_eq_none.mp hfind e he)
  | some cur =>
    have hhit := (hsing.hit_iff tmp cur).mp (List.find?_eq_some_iff_append.mp hfind).1
    rcases entry_queue hperm (List.mem_of_find?_eq_some hfind) with ⟨q', hq', haddr', hdata'⟩
    rw [hdata'] at hhit
    have hsame := h.eq_of_key hq' hq ((Option.some.inj hhit).trans hkey.symm)
    exact ⟨cur, rfl, haddr'.symm.trans (congrArg Queue.addr hsame)⟩

/-- A queue that is found is returned. -/
theorem spdTaskqueueGet_found {st st1 st2 st3 : State Tps} {c a : Addr} (hname : tmp.name ≠ [])
    (hlock : objLock st c = .ok st1)
    (hfound : objFind m st1 c ⟨NULL, some tmp⟩ OBJ_POINTER = .ok (.obj a, st2)) (ha : a ≠ NULL)
    (hunlock : objUnlock st2 c = .ok st3) (ifExists : Bool) (answers : Answers) :
    spdTaskqueueGet m st c tmp ifExists answers = .ok (a, st3) := by
  rw [spdTaskqueueGet, if_neg hname, hlock, ok_bind, hfound, ok_bind]
  dsimp only
  rw [if_pos ha, hunlock]
  rfl

/-- The call that finds a queue: one more reference to it. -/
theorem spdTaskqueueGet_shared (h : Inv s queues) (hq : q ∈ queues) (hkey : q.tps.key = tmp.key)
    (hname : tmp.name ≠ []) (hroom : s.clients.count q.addr < 2 ^ 31 - 2) (ifExists : Bool)
    (answers : Answers) : ∃ v st,
      spdTaskqueueGet m s.st s.tpsSingletons tmp ifExists answers = .ok (q.addr, st) ∧
      q.addr ∈ s.st.objs.dom ∧ (v + 1).toInt = (s.clients.count q.addr : Int) + 2 ∧
      st.objs = s.st.objs.set q.addr ⟨v + 1, some .user, .data q.tps, q.serial⟩ ∧
      st.serials = s.st.serials ∧ Holds st s.tpsSingletons queues := by
  rcases h.holds with ⟨hnull, p, cont, data, hp, hu, hsing, hperm⟩
  have hqueue := h.queue q hq
  rcases hqueue.get with ⟨v, hget, hv⟩
  have hloaded := loaded_of_inStore h.inStore hperm
  rcases h.find hq hkey hsing hperm with ⟨cur, hfind, hcur⟩
  rcases lock_log hnull hp with ⟨t1, hlock⟩
  have hq1 : (s.st.log t1).objs.get cur.pobj = some ⟨v, some .user, .data q.tps, q.serial⟩ := by
    rw [hcur]
    exact hget
  have hp1 : (s.st.log t1).objs.get s.tpsSingletons = some p := hp
  have hloaded1 : Loaded (s.st.log t1) data cont := hloaded
  have hlt : v.toInt + 1 < 2 ^ 31 := by omega
  have hge : 0 ≤ v.toInt := by omega
  rcases hsing.linked.objFind_some m OBJ_POINTER hnull hp1 hu hloaded1 (hsing.comparable tmp) rfl rfl
    rfl rfl hfind hq1 hge hlt with ⟨t2, hfound⟩
  rw [hcur] at hfound
  generalize hst2 : ((s.st.log t1).setObj q.addr
    ⟨v + 1, some .user, .data q.tps, q.serial⟩).log t2 = st2 at hfound
  have hobjs2 : st2.objs = s.st.objs.set q.addr ⟨v + 1, some .user, .data q.tps, q.serial⟩ := by
    rw [← hst2]
    rfl
  have hp2 : st2.objs.get s.tpsSingletons = some p := by
    rw [hobjs2, Heap.get_set_of_ne _ _ hqueue.ne.symm]
    exact hp
  rcases unlock_log hnull hp2 with ⟨t3, hunlock⟩
  have hcall := spdTaskqueueGet_found hname hlock hfound hqueue.null hunlock ifExists answers
  refine ⟨v, st2.log t3, hcall, Heap.mem_dom_of_get hget, ?_, hobjs2, ?_,
    ⟨hnull, p, cont, data, hp2, hu, hsing, hperm⟩⟩
  · have hmax : v ≠ Int32.maxValue := by
      intro hmax
      rw [hmax, Int32.toInt_maxValue] at hlt
      omega
    rw [CInt.toInt_add_one hmax, hv]
    omega
  · rw [← hst2]
    rfl

/-- `spd_taskqueue_get` gives a further reference to the queue of that name. -/
theorem get_found (h : Inv s queues) (hq : q ∈ queues) (hkey : q.tps.key = tmp.key)
    (hname : tmp.name ≠ []) (hroom : s.clients.count q.addr < 2 ^ 31 - 2) (ifExists : Bool)
    (answers : Answers) : ∃ st, step m s (.get tmp ifExists answers) =
        .ok { s with
          st := st
          clients := q.addr ::ₘ s.clients
          gets := s.gets ++ [(tmp, q.serial)] } ∧
      Inv { s with
        st := st
        clients := q.addr ::ₘ s.clients
        gets := s.gets ++ [(tmp, q.serial)] } queues := by
  have hqueue := h.queue q hq
  rcases @spdTaskqueueGet_shared m tmp s queues q h hq hkey hname hroom ifExists answers with
    ⟨v, st, hcall, hmem, hv, hobjs, hserials, hholds⟩
  have hget : st.objs.get q.addr = some ⟨v + 1, some .user, .data q.tps, q.serial⟩ := by
    rw [hobjs]
    exact Heap.get_set_self _ _ _
  refine ⟨st, ?_, ?_⟩
  · rw [step, hcall, ok_bind]
    dsimp only
    rw [if_neg hqueue.null, hget]
    rfl
  · have hcount : (q.addr ::ₘ s.clients).count q.addr = s.clients.count q.addr + 1 :=
      Multiset.count_cons_self _ _
    have hbase : Inv { s with st := st, clients := q.addr ::ₘ s.clients } queues := by
      apply h.recount hq
      case hc => rfl
      case hgets => rfl
      case hserials => exact hserials
      case hholds => exact hholds
      case hpos =>
        rw [hcount]
        exact Nat.succ_pos _
      case hget =>
        refine ⟨v + 1, hget, ?_⟩
        rw [hv, hcount]
        push_cast
        omega
      case hobjs =>
        intro a _ ha
        rw [hobjs]
        exact Heap.get_set_of_ne _ _ ha
      case hcounts => exact fun a ha => Multiset.count_cons_of_ne ha _
      case hdom =>
        rw [hobjs]
        exact Heap.dom_set_of_mem _ hmem
    exact hbase.note hq hkey

theorem Inv.log (h : Inv s queues) (t : List Event) : Inv { s with st := s.st.log t } queues where
  holds := ⟨h.holds.null, h.holds.container⟩
  queue q hq := ⟨(h.queue q hq).null, (h.queue q hq).ne, (h.queue q hq).hash,
    (h.queue q hq).serial, (h.queue q hq).owned, (h.queue q hq).get⟩
  addrs := h.addrs
  keys := h.keys
  serials := h.serials
  clients := h.clients
  alive := h.alive
  gets := h.gets

/-- Nothing is found under a name that no queue has. -/
theorem find_absent (h : Inv s queues) (hkey : ∀ q ∈ queues, q.tps.key ≠ tmp.key) :
    ∃ t1 t2, objLock s.st s.tpsSingletons = .ok (s.st.log t1) ∧
      objFind m (s.st.log t1) s.tpsSingletons ⟨NULL, some tmp⟩ OBJ_POINTER =
        .ok (.obj NULL, (s.st.log t1).log t2) := by
  rcases h.holds with ⟨hnull, p, cont, data, hp, hu, hsing, hperm⟩
  have hfind : cont.buckets.flatten.find?
      (hit (cont.cmp ⟨NULL, some tmp⟩ OBJ_POINTER) (entryPtr data)) = none := by
    apply List.find?_eq_none.mpr
    intro e he hhit
    rcases entry_queue hperm he with ⟨q, hq, -, hdata⟩
    have hsame := (hsing.hit_iff tmp e).mp hhit
    rw [hdata] at hsame
    exact hkey q hq (Option.some.inj hsame)
  rcases lock_log hnull hp with ⟨t1, hlock⟩
  have hp1 : (s.st.log t1).objs.get s.tpsSingletons = some p := hp
  have hloaded1 : Loaded (s.st.log t1) data cont := loaded_of_inStore h.inStore hperm
  rcases hsing.linked.objFind_none m OBJ_POINTER hnull hp1 hu hloaded1 (hsing.comparable tmp) rfl rfl
    hfind with ⟨t2, hfound⟩
  exact ⟨t1, t2, hlock, hfound⟩

/-- With `TPS_REF_IF_EXISTS` no queue is created. -/
theorem get_ifExists (h : Inv s queues) (hkey : ∀ q ∈ queues, q.tps.key ≠ tmp.key)
    (hname : tmp.name ≠ []) (answers : Answers) :
    ∃ t, step m s (.get tmp true answers) = .ok { s with st := s.st.log t } := by
  rcases @find_absent m tmp s queues h hkey with ⟨t1, t2, hlock, hfound⟩
  rcases h.holds with ⟨hnull, p, cont, data, hp, -⟩
  have hp2 : ((s.st.log t1).log t2).objs.get s.tpsSingletons = some p := hp
  rcases unlock_log hnull hp2 with ⟨t3, hunlock⟩
  refine ⟨t1 ++ t2 ++ t3, ?_⟩
  have hcall : spdTaskqueueGet m s.st s.tpsSingletons tmp true answers =
      .ok (NULL, ((s.st.log t1).log t2).log t3) := by
    rw [spdTaskqueueGet, if_neg hname, hlock, ok_bind, hfound, ok_bind]
    dsimp only
    rw [if_neg (not_not.mpr rfl), if_pos rfl, hunlock]
    rfl
  rw [step, hcall, ok_bind, State.log_log, State.log_log, ← List.append_assoc]
  exact if_pos rfl

/-- A new object that holds a queue. -/
theorem objAlloc_data (hcalloc : ∀ n live, m.calloc n live ≠ none) (st : State Tps) (tps : Tps) :
    ∃ a st', objAlloc m.toWrap st tps (some .user) = (a, st') ∧ a ∉ st.objs.dom ∧ a ≠ NULL ∧
      st'.objs = st.objs.set a ⟨1, some .user, .data tps, st.serials⟩ ∧
      st'.serials = st.serials + 1 := by
  rcases Option.ne_none_iff_exists'.mp (hcalloc st.callocs st.objs.dom) with ⟨a, ha⟩
  rcases m.calloc_fresh ha with ⟨hfresh, hnull⟩
  have ha : m.toWrap.calloc st.callocs st.objs.dom = some a := ha
  refine ⟨a, { ({ st with callocs := st.callocs + 1 } : State Tps).setObj a
    ⟨1, some .user, .data tps, st.serials⟩ with serials := st.serials + 1 }, ?_, hfresh, hnull, rfl,
    rfl⟩
  simp [objAlloc, internalObjAlloc, spdCalloc, ha, hnull]

/-- What `spd_taskqueue_get` needs to create a queue. -/
structure Succeeds (answers : Answers) : Prop where
  stats : answers.stats = true
  name : answers.name = true
  thread : 0 ≤ answers.thread

/-- The call that creates a queue: a new object, linked into the container. -/
theorem spdTaskqueueGet_created (hcalloc : ∀ n live, m.calloc n live ≠ none) (h : Inv s queues)
    (hkey : ∀ q ∈ queues, q.tps.key ≠ tmp.key) (hname : tmp.name ≠ [])
    (hhash : spdStrCaseHash tmp.name ≠ Int32.minValue) {answers : Answers}
    (hanswers : Succeeds answers) :
    ∃ a st, spdTaskqueueGet m.toWrap s.st s.tpsSingletons tmp false answers = .ok (a, st) ∧
      a ∉ s.st.objs.dom ∧ a ≠ NULL ∧ a ≠ s.tpsSingletons ∧
      Holds st s.tpsSingletons (⟨a, tmp, s.st.serials⟩ :: queues) ∧
      st.serials = s.st.serials + 1 ∧
      st.objs.get a = some ⟨1 + 1, some .user, .data tmp, s.st.serials⟩ ∧
      (∀ b, b ≠ s.tpsSingletons → b ≠ a → st.objs.get b = s.st.objs.get b) ∧
      ∀ b ∈ st.objs.dom, b = a ∨ b ∈ s.st.objs.dom := by
  rcases @find_absent m.toWrap tmp s queues h hkey with ⟨t1, t2, hlock, hfound⟩
  -- the new queue
  rcases objAlloc_data (m := m) hcalloc ((s.st.log t1).log t2) tmp with
    ⟨a, st2, halloc, hfresh, hanull, hobjs2, hserials2⟩
  have hfresh : a ∉ s.st.objs.dom := hfresh
  have hobjs2 : st2.objs = s.st.objs.set a ⟨1, some .user, .data tmp, s.st.serials⟩ := hobjs2
  have hserials2 : st2.serials = s.st.serials + 1 := hserials2
  rcases h.holds.container with ⟨p, -, -, hp, -⟩
  have hne : a ≠ s.tpsSingletons := by
    intro heq
    exact hfresh (heq ▸ Heap.mem_dom_of_get hp)
  have hholds2 : Holds st2 s.tpsSingletons queues := by
    apply h.holds.of_get
    rw [hobjs2, Heap.get_set_of_ne _ _ hne.symm]
  have hget2 : st2.objs.get a = some ⟨1, some .user, .data tmp, s.st.serials⟩ := by
    rw [hobjs2]
    exact Heap.get_set_self _ _ _
  rcases @objLink_holds m st2 s.tpsSingletons queues ⟨a, tmp, s.st.serials⟩ hcalloc hholds2 hne hanull
    hhash 1 hget2 (by decide) (by decide) with
    ⟨entry, st3, p', hentry, hlink, hholds3, hobjs3, hserials3⟩
  rcases hholds3.unlock with ⟨t3, hunlock⟩
  refine ⟨a, st3.log t3, ?_, hfresh, hanull, hne, ⟨hholds3.null, hholds3.container⟩,
    hserials3.trans hserials2, ?_, ?_, ?_⟩
  · have hno : ¬ (answers.stats = false ∨ answers.name = false ∨ answers.thread < 0) := by
      rintro (hno | hno | hno)
      · exact absurd (hanswers.stats.symm.trans hno) nofun
      · exact absurd (hanswers.name.symm.trans hno) nofun
      · exact absurd hanswers.thread (not_le.mpr hno)
    rw [spdTaskqueueGet, if_neg hname, hlock, ok_bind, hfound, ok_bind]
    dsimp only
    rw [if_neg (not_not.mpr rfl), if_neg nofun, halloc]
    dsimp only
    rw [if_neg hanull, if_neg hno, hlink, ok_bind]
    dsimp only
    rw [hunlock, ok_bind, if_neg hentry]
  · show st3.objs.get a = _
    rw [hobjs3]
    exact Heap.get_set_self _ _ _
  · intro b hb hba
    show st3.objs.get b = _
    rw [hobjs3, Heap.get_set_of_ne _ _ hba, Heap.get_set_of_ne _ _ hb, hobjs2,
      Heap.get_set_of_ne _ _ hba]
  · intro b hb
    have hb : b ∈ st3.objs.dom := hb
    rw [hobjs3, Heap.dom_set, Heap.dom_set, hobjs2, Heap.dom_set] at hb
    rcases Finset.mem_insert.mp hb with rfl | hb
    · exact Or.inl rfl
    · rcases Finset.mem_insert.mp hb with rfl | hb
      · exact Or.inr (Heap.mem_dom_of_get hp)
      · exact Finset.mem_insert.mp hb

/-- `spd_taskqueue_get` creates a queue under a name that none has. -/
theorem get_create (hcalloc : ∀ n live, m.calloc n live ≠ none) (h : Inv s queues)
    (hkey : ∀ q ∈ queues, q.tps.key ≠ tmp.key) (hname : tmp.name ≠ [])
    (hhash : spdStrCaseHash tmp.name ≠ Int32.minValue) {answers : Answers}
    (hanswers : Succeeds answers) : ∃ s' q, step m.toWrap s (.get tmp false answers) = .ok s' ∧
      q.tps = tmp ∧ s'.clients = q.addr ::ₘ s.clients ∧ Inv s' (q :: queues) := by
  rcases spdTaskqueueGet_created hcalloc h hkey hname hhash hanswers with
    ⟨a, st, hcall, hfresh, hanull, hne, hholds, hserials, hget, hother, hdom⟩
  refine ⟨⟨st, s.tpsSingletons, a ::ₘ s.clients, s.gets ++ [(tmp, s.st.serials)]⟩,
    ⟨a, tmp, s.st.serials⟩, ?_, rfl, rfl, ?_⟩
  · rw [step, hcall, ok_bind]
    dsimp only
    rw [if_neg hanull, hget]
    rfl
  · have hcount : s.clients.count a = 0 := by
      apply Multiset.count_eq_zero.mpr
      intro hmem
      rcases h.clients a hmem with ⟨q, hq, haddr⟩
      rcases (h.queue q hq).get with ⟨v, hq, -⟩
      exact hfresh (haddr ▸ Heap.mem_dom_of_get hq)
    apply h.cons hkey hfresh
    case hserial => rfl
    case hc => rfl
    case hclients => rfl
    case hgets => rfl
    case hserials => exact hserials
    case hholds => exact hholds
    case hqueue =>
      constructor
      case null => exact hanull
      case ne => exact hne
      case hash => exact hhash
      case serial =>
        have hlast : s.st.serials < st.serials := by
          rw [hserials]
          exact Nat.lt_succ_self _
        exact hlast
      case owned => exact Multiset.count_pos.mpr (Multiset.mem_cons_self _ _)
      case get =>
        refine ⟨1 + 1, hget, ?_⟩
        rw [Multiset.count_cons_self, hcount]
        rfl
    case hobjs => exact hother
    case hdom => exact hdom

/-- `spd_taskqueue_unreference` up to the drop of the reference. -/
theorem unreference_unlink (h : Inv s (q :: queues))
    (hroom : s.clients.count q.addr < 2 ^ 31 - 1) : ∃ st v p',
      (∀ st' st'' old, objRef m.toWrap st q.addr (-1) = .ok (old, st') →
        (if old > 1 then objLink m.toWrap st' s.tpsSingletons q.addr {} else
          .ok (NULL, st')) = .ok st'' →
        spdTaskqueueUnreference m.toWrap s.st s.tpsSingletons q.addr =
          objUnlock st''.2 s.tpsSingletons) ∧
      Holds st s.tpsSingletons queues ∧ st.serials = s.st.serials ∧
      st.objs = (s.st.objs.set s.tpsSingletons p').set q.addr
        ⟨v, some .user, .data q.tps, q.serial⟩ ∧
      v.toInt = s.clients.count q.addr := by
  have hqueue := h.queue q List.mem_cons_self
  rcases hqueue.get with ⟨v, hget, hv⟩
  rcases h.holds.container with ⟨p, cont, data, hp, -⟩
  have hpos := hqueue.owned
  rcases lock_log h.holds.null hp with ⟨t, hlock⟩
  have hholds : Holds (s.st.log t) s.tpsSingletons (q :: queues) :=
    ⟨h.holds.null, h.holds.container⟩
  have hin : ∀ q' ∈ q :: queues, InStore (s.st.log t) q' := h.inStore
  have hget1 : (s.st.log t).objs.get q.addr = some ⟨v, some .user, .data q.tps, q.serial⟩ := hget
  rcases objUnlink_holds (m := m) hholds hin h.addrs hqueue.ne hget1 (by omega) with
    ⟨st, p', hunlink, hholds', hobjs, hserials⟩
  refine ⟨st, v + -1, p', ?_, hholds', hserials, hobjs, ?_⟩
  · intro st' st'' old href hlink
    rw [spdTaskqueueUnreference, if_neg hqueue.null, hlock, ok_bind, hunlink, ok_bind, href,
      ok_bind]
    dsimp only
    split at hlink
    next hgt => rw [if_pos hgt, hlink, ok_bind]
    next hle => rw [if_neg hle, hlink, ok_bind]
  · rw [CInt.toInt_sub_one_of_pos (by omega)]
    omega

/-- The last reference is released: the queue is destroyed. -/
theorem unreference_last (h : Inv s (q :: queues)) (hlast : s.clients.count q.addr = 1) :
    ∃ s', step m.toWrap s (.unreference q.addr) = .ok s' ∧
      s'.clients = s.clients.erase q.addr ∧ Inv s' queues := by
  have hqueue := h.queue q List.mem_cons_self
  rcases @unreference_unlink m s queues q h (by omega) with
    ⟨st, v, p', hcall, hholds, hserials, hobjs, hv⟩
  rw [hlast] at hv
  have hv1 : v = 1 := Int32.toInt_inj.mp hv
  subst hv1
  have hget : st.objs.get q.addr = some ⟨1, some .user, .data q.tps, q.serial⟩ := by
    rw [hobjs]
    exact Heap.get_set_self _ _ _
  generalize hdead : ((st.setObj q.addr ⟨0, some .user, .data q.tps, q.serial⟩).emit
    (.destruct q.serial)).freeObj q.addr = st'
  have href : objRef m.toWrap st q.addr (-1) = .ok (1, st') := by
    rw [← hdead]
    exact objRef_last_eq hqueue.null hget (spdAtomicFetchaddInt_wrap m 1 (-1)) (by decide) rfl
  have hobjs' : st'.objs = (s.st.objs.set s.tpsSingletons p').free q.addr := by
    rw [← hdead]
    simp only [State.objs_freeObj, State.objs_emit, State.objs_setObj, Heap.free_set, hobjs]
  have hserials' : st'.serials = s.st.serials := by
    rw [← hdead]
    exact hserials
  have hget' : ∀ a, a ≠ q.addr → st'.objs.get a = st.objs.get a := by
    intro a ha
    rw [hobjs', Heap.get_free_of_ne _ ha, hobjs, Heap.get_set_of_ne _ _ ha]
  have hholds' := hholds.of_get (hget' _ hqueue.ne.symm)
  rcases hholds'.unlock with ⟨t, hunlock⟩
  have hstep : step m.toWrap s (.unreference q.addr) =
      .ok ⟨st'.log t, s.tpsSingletons, s.clients.erase q.addr, s.gets⟩ := by
    rw [step, hcall st' (NULL, st') 1 href (if_neg (by decide)), hunlock]
    rfl
  refine ⟨_, hstep, rfl, ?_⟩
  apply h.uncons
  case hc => rfl
  case hclients => rfl
  case hlast => exact hlast
  case hgets => rfl
  case hserials => exact hserials'
  case hholds => exact ⟨hholds'.null, hholds'.container⟩
  case hobjs =>
    intro a hc ha
    have hother : st'.objs.get a = s.st.objs.get a := by
      rw [hget' a ha, hobjs, Heap.get_set_of_ne _ _ ha, Heap.get_set_of_ne _ _ hc]
    exact hother
  case hdom =>
    intro a ha
    have ha : a ∈ st'.objs.dom := ha
    rw [hobjs', Heap.dom_free, Heap.dom_set] at ha
    rcases Finset.mem_erase.mp ha with ⟨hne, ha⟩
    refine ⟨hne, ?_⟩
    rcases Finset.mem_insert.mp ha with rfl | ha
    · rcases h.holds.container with ⟨p0, cont0, data0, hp0, -⟩
      exact Heap.mem_dom_of_get hp0
    · exact ha

/-- One of several references is dropped, and the link takes one again. -/
theorem objRef_objLink_holds {st : State Tps} {c : Addr} {v : Int32}
    (hcalloc : ∀ n live, m.calloc n live ≠ none) (hholds : Holds st c queues) (hne : q.addr ≠ c)
    (hnull : q.addr ≠ NULL) (hhash : spdStrCaseHash q.tps.name ≠ Int32.minValue)
    (hget : st.objs.get q.addr = some ⟨v, some .user, .data q.tps, q.serial⟩)
    (hmore : 1 < v.toInt) :
    ∃ st' entry st2 p', objRef m.toWrap st q.addr (-1) = .ok (v, st') ∧
      objLink m.toWrap st' c q.addr {} = .ok (entry, st2) ∧ Holds st2 c (q :: queues) ∧
      st2.objs = ((st.objs.set q.addr ⟨v + -1, some .user, .data q.tps, q.serial⟩).set c p').set
        q.addr ⟨v, some .user, .data q.tps, q.serial⟩ ∧
      st2.serials = st.serials := by
  have hdec : (v + -1).toInt = v.toInt - 1 := CInt.toInt_sub_one_of_pos (by omega)
  have hpos : ¬ v + -1 ≤ 0 := by
    rw [Int32.le_iff_toInt_le, hdec, Int32.toInt_zero]
    omega
  have hback : v + -1 + 1 = v := by
    rw [Int32.add_assoc]
    exact Int32.add_zero v
  have href := objRef_dec_eq hnull hget (spdAtomicFetchaddInt_wrap m v (-1)) hpos
  generalize hst' : st.setObj q.addr ⟨v + -1, some .user, .data q.tps, q.serial⟩ = st' at href
  have hobjs' : st'.objs = st.objs.set q.addr ⟨v + -1, some .user, .data q.tps, q.serial⟩ := by
    rw [← hst']
    rfl
  have hget' : st'.objs.get q.addr = some ⟨v + -1, some .user, .data q.tps, q.serial⟩ := by
    rw [hobjs']
    exact Heap.get_set_self _ _ _
  have hholds' : Holds st' c queues := by
    apply hholds.of_get
    rw [hobjs', Heap.get_set_of_ne _ _ hne.symm]
  have hlt : v.toInt < 2 ^ 31 := Int32.toInt_lt v
  rcases objLink_holds hcalloc hholds' hne hnull hhash hget' (by omega) (by omega) with
    ⟨entry, st2, p2, -, hlink, hholds2, hobjs2, hserials2⟩
  rw [hback, hobjs'] at hobjs2
  refine ⟨st', entry, st2, p2, href, hlink, hholds2, hobjs2, ?_⟩
  rw [hserials2, ← hst']
  rfl

/-- Another reference remains: the queue is put back. -/
theorem unreference_more (hcalloc : ∀ n live, m.calloc n live ≠ none) (h : Inv s (q :: queues))
    (hmore : 1 < s.clients.count q.addr) (hroom : s.clients.count q.addr < 2 ^ 31 - 1) :
    ∃ s', step m.toWrap s (.unreference q.addr) = .ok s' ∧
      s'.clients = s.clients.erase q.addr ∧ Inv s' (q :: queues) := by
  have hqueue := h.queue q List.mem_cons_self
  rcases @unreference_unlink m s queues q h hroom with
    ⟨st, v, p', hcall, hholds, hserials, hobjs, hv⟩
  have hget : st.objs.get q.addr = some ⟨v, some .user, .data q.tps, q.serial⟩ := by
    rw [hobjs]
    exact Heap.get_set_self _ _ _
  rcases objRef_objLink_holds hcalloc hholds hqueue.ne hqueue.null hqueue.hash hget (by omega) with
    ⟨st', entry, st2, p2, href, hlink, hholds2, hobjs2, hserials2⟩
  rcases hholds2.unlock with ⟨t, hunlock⟩
  have hgt : v > 1 := by
    rw [gt_iff_lt, Int32.lt_iff_toInt_lt]
    have hone : (1 : Int32).toInt = 1 := by decide
    omega
  have hstep : step m.toWrap s (.unreference q.addr) =
      .ok ⟨st2.log t, s.tpsSingletons, s.clients.erase q.addr, s.gets⟩ := by
    rw [step, hcall st' (entry, st2) v href ((if_pos hgt).trans hlink), hunlock]
    rfl
  have hcount : (s.clients.erase q.addr).count q.addr = s.clients.count q.addr - 1 :=
    Multiset.count_erase_self _ _
  have hother : ∀ a, a ≠ s.tpsSingletons → a ≠ q.addr →
      st2.objs.get a = s.st.objs.get a := by
    intro a hc ha
    rw [hobjs2, Heap.get_set_of_ne _ _ ha, Heap.get_set_of_ne _ _ hc, Heap.get_set_of_ne _ _ ha,
      hobjs, Heap.get_set_of_ne _ _ ha, Heap.get_set_of_ne _ _ hc]
  refine ⟨_, hstep, rfl, ?_⟩
  apply h.recount List.mem_cons_self
  case hc => rfl
  case hgets => rfl
  case hserials => exact hserials2.trans hserials
  case hholds => exact ⟨hholds2.null, hholds2.container⟩
  case hpos =>
    rw [hcount]
    omega
  case hget =>
    refine ⟨v, ?_, ?_⟩
    · have hlast : st2.objs.get q.addr = some ⟨v, some .user, .data q.tps, q.serial⟩ := by
        rw [hobjs2]
        exact Heap.get_set_self _ _ _
      exact hlast
    · rw [hcount]
      omega
  case hobjs => exact hother
  case hcounts => exact fun a ha => Multiset.count_erase_of_ne ha _
  case hdom =>
    have hmemq := Heap.mem_dom_of_get (h.inStore q List.mem_cons_self).2.choose_spec
    rcases h.holds.container with ⟨p0, cont0, data0, hp0, -⟩
    have hmemc := Heap.mem_dom_of_get hp0
    have hdom : st2.objs.dom = s.st.objs.dom := by
      rw [hobjs2, hobjs]
      simp only [Heap.dom_set, Finset.insert_eq_of_mem hmemq, Finset.insert_eq_of_mem hmemc]
    exact hdom

/-! ## Runs -/

/-- The entries of the container, by the queues they are for. -/
def Sys.registered (s : Sys) : List Addr :=
  match s.st.objs.get s.tpsSingletons with
  | some p => p.entries.map BucketEntry.pobj
  | none => []

/-- A queue at `a` in the store, with its number. -/
def Sys.IsAt (s : Sys) (a : Addr) (tps : Tps) (serial : Nat) : Prop :=
  ∃ v d, s.st.objs.get a = some ⟨v, d, .data tps, serial⟩

/-- No queue is registered twice or under the name of another, the reference count of each is the
    number of its client references plus one, and the queues in the store are those that are
    registered and those that a client refers to. -/
structure Exact (s : Sys) : Prop where
  twice : s.registered.Nodup
  names : ∀ a ∈ s.registered, ∀ b ∈ s.registered, ∀ tps rhs k l, s.IsAt a tps k →
    s.IsAt b rhs l → strcasecmp tps.name rhs.name = 0 → a = b
  refCounter : ∀ a ∈ s.registered, ∃ p, s.st.objs.get a = some p ∧
    p.refCounter.toInt = s.clients.count a + 1
  referred : ∀ a, a ∈ s.registered ↔ a ∈ s.clients
  alive : ∀ a, a ∈ s.registered ↔ a ≠ s.tpsSingletons ∧ a ∈ s.st.objs.dom

/-- What one operation does: a get returns the queue that an earlier get of the name returned, if
    a client refers to it, and a registered queue is destroyed only when its last reference is
    released. -/
structure Correct (s : Sys) (o : Op) (s' : Sys) : Prop where
  same : ∀ tmp ifExists answers, o = .get tmp ifExists answers → ∀ g ∈ s.gets,
    strcasecmp g.1.name tmp.name = 0 → ∀ a ∈ s.clients, ∀ tps, s.IsAt a tps g.2 →
      s'.clients = a ::ₘ s.clients ∧ s'.IsAt a tps g.2 ∧ s'.gets = s.gets ++ [(tmp, g.2)]
  destroyed : ∀ a ∈ s.registered, ∀ tps serial, s.IsAt a tps serial →
    (¬ s'.IsAt a tps serial ↔ o = .unreference a ∧ s.clients.count a = 1)

/-- A get has a name, its allocations and the creation of the thread succeed; an unreference is by a
    client that owns a reference. -/
def Enabled (s : Sys) : Op → Prop
  | .get tmp _ answers =>
    tmp.name ≠ [] ∧ spdStrCaseHash tmp.name ≠ Int32.minValue ∧ Succeeds answers
  | .unreference tps => tps ∈ s.clients

/-- The queue of the name has less than `INT_MAX - 1` client references. -/
def Room (s : Sys) : Op → Prop
  | .get tmp _ _ => ∀ a tps serial, s.IsAt a tps serial → strcasecmp tps.name tmp.name = 0 →
    s.clients.count a < 2 ^ 31 - 2
  | .unreference _ => True

theorem Inv.isAt_iff (h : Inv s queues) {a : Addr} {tps : Tps} {serial : Nat} :
    s.IsAt a tps serial ↔ ⟨a, tps, serial⟩ ∈ queues := by
  constructor
  · rintro ⟨v, d, hget⟩
    rcases h.alive a (Heap.mem_dom_of_get hget) with rfl | ⟨q, hq, rfl⟩
    · rcases h.holds.container with ⟨p, cont, data, hp, hu, -⟩
      rw [hp] at hget
      cases hget
      cases hu
    · rcases (h.queue q hq).get with ⟨v', hq', -⟩
      rw [hq'] at hget
      cases hget
      exact hq
  · intro hq
    rcases (h.queue _ hq).get with ⟨v, hget, -⟩
    exact ⟨v, _, hget⟩

theorem Inv.registered (h : Inv s queues) : s.registered.Perm (queues.map Queue.addr) := by
  rcases h.holds.container with ⟨p, cont, data, hp, hu, -, hperm⟩
  have hentries : s.registered = cont.buckets.flatten.map BucketEntry.pobj := by
    rw [Sys.registered, hp]
    dsimp only
    rw [Obj.entries, hu]
  have hfst := hperm.map Prod.fst
  rw [List.map_map, List.map_map] at hfst
  rw [hentries]
  exact hfst

theorem Inv.mem_registered (h : Inv s queues) {a : Addr} :
    a ∈ s.registered ↔ ∃ q ∈ queues, q.addr = a := by
  rw [h.registered.mem_iff]
  exact List.mem_map

theorem Inv.exact (h : Inv s queues) : Exact s where
  twice := h.registered.nodup_iff.mpr h.addrs
  names := by
    intro a _ b _ tps rhs k l ha hb hcmp
    have hkey := (strcasecmp_eq_zero_iff tps rhs).mp hcmp
    exact congrArg Queue.addr (h.eq_of_key (h.isAt_iff.mp ha) (h.isAt_iff.mp hb) hkey)
  refCounter := by
    intro a ha
    rcases h.mem_registered.mp ha with ⟨q, hq, rfl⟩
    rcases (h.queue q hq).get with ⟨v, hget, hv⟩
    exact ⟨_, hget, hv⟩
  referred := by
    intro a
    rw [h.mem_registered]
    constructor
    · rintro ⟨q, hq, rfl⟩
      exact Multiset.count_pos.mp (h.queue q hq).owned
    · exact h.clients a
  alive := by
    intro a
    rw [h.mem_registered]
    constructor
    · rintro ⟨q, hq, rfl⟩
      rcases (h.queue q hq).get with ⟨v, hget, -⟩
      exact ⟨(h.queue q hq).ne, Heap.mem_dom_of_get hget⟩
    · rintro ⟨hne, ha⟩
      exact (h.alive a ha).resolve_left hne

/-- No queue is destroyed by a step after which all of them are there. -/
theorem Inv.not_destroyed (h : Inv s queues) {queues' : List Queue} (h' : Inv s' queues') {o : Op}
    (hsub : ∀ q ∈ queues, q ∈ queues')
    (hnot : ∀ a, ¬ (o = .unreference a ∧ s.clients.count a = 1)) (a : Addr) (tps : Tps)
    (serial : Nat) (hat : s.IsAt a tps serial) :
    ¬ s'.IsAt a tps serial ↔ o = .unreference a ∧ s.clients.count a = 1 :=
  iff_of_false (not_not.mpr (h'.isAt_iff.mpr (hsub _ (h.isAt_iff.mp hat)))) (hnot a)

/-- `spd_taskqueue_get` keeps the invariant. -/
theorem step_get (hcalloc : ∀ n live, m.calloc n live ≠ none) (h : Inv s queues)
    {ifExists : Bool} {answers : Answers} (he : Enabled s (.get tmp ifExists answers))
    (hr : Room s (.get tmp ifExists answers)) :
    ∃ s', step m.toWrap s (.get tmp ifExists answers) = .ok s' ∧
      Correct s (.get tmp ifExists answers) s' ∧ ∃ queues', Inv s' queues' := by
  rcases he with ⟨hname, hhash, hanswers⟩
  have hnot : ∀ a, ¬ (Op.get tmp ifExists answers = .unreference a ∧ s.clients.count a = 1) :=
    fun a h => nomatch h.1
  by_cases hfound : ∃ q ∈ queues, q.tps.key = tmp.key
  · rcases hfound with ⟨q, hq, hkey⟩
    have hroom := hr q.addr q.tps q.serial (h.isAt_iff.mpr hq)
      ((strcasecmp_eq_zero_iff q.tps tmp).mpr hkey)
    rcases get_found (m := m.toWrap) h hq hkey hname hroom ifExists answers with ⟨st, hstep, hinv⟩
    refine ⟨_, hstep, ?_, queues, hinv⟩
    constructor
    case same =>
      intro tmp' _ _ ho g hg hcmp a _ tps hat
      cases ho
      have hq' := h.isAt_iff.mp hat
      have hkey' := ((h.gets g hg).2 _ hq' rfl).trans ((strcasecmp_eq_zero_iff g.1 tmp).mp hcmp)
      cases h.eq_of_key hq hq' (hkey.trans hkey'.symm)
      exact ⟨rfl, hinv.isAt_iff.mpr hq, rfl⟩
    case destroyed =>
      exact fun a _ tps serial => h.not_destroyed hinv (fun _ hq => hq) hnot a tps serial
  · have hkey : ∀ q ∈ queues, q.tps.key ≠ tmp.key := fun q hq hkey => hfound ⟨q, hq, hkey⟩
    -- an earlier get of this name returned a queue that is gone
    have hgone : ∀ g ∈ s.gets, strcasecmp g.1.name tmp.name = 0 → ∀ a tps,
        ¬ s.IsAt a tps g.2 := by
      intro g hg hcmp a tps hat
      have hq := h.isAt_iff.mp hat
      exact hkey _ hq (((h.gets g hg).2 _ hq rfl).trans
        ((strcasecmp_eq_zero_iff g.1 tmp).mp hcmp))
    have hsame : ∀ (s' : Sys) tmp' ifExists' answers',
        Op.get tmp ifExists answers = .get tmp' ifExists' answers' → ∀ g ∈ s.gets,
          strcasecmp g.1.name tmp'.name = 0 → ∀ a ∈ s.clients, ∀ tps, s.IsAt a tps g.2 →
            s'.clients = a ::ₘ s.clients ∧ s'.IsAt a tps g.2 ∧
              s'.gets = s.gets ++ [(tmp', g.2)] := by
      intro s' tmp' _ _ ho g hg hcmp a _ tps hat
      cases ho
      exact absurd hat (hgone g hg hcmp a tps)
    cases ifExists with
    | true =>
      rcases @get_ifExists m.toWrap tmp s queues h hkey hname answers with ⟨t, hstep⟩
      have hinv := h.log t
      exact ⟨_, hstep, ⟨hsame _, fun a _ tps serial =>
        h.not_destroyed hinv (fun _ hq => hq) hnot a tps serial⟩, queues, hinv⟩
    | false =>
      rcases get_create hcalloc h hkey hname hhash hanswers with ⟨s', q, hstep, -, -, hinv⟩
      exact ⟨s', hstep, ⟨hsame s', fun a _ tps serial =>
        h.not_destroyed hinv (fun _ hq => List.mem_cons_of_mem q hq) hnot a tps serial⟩,
        q :: queues, hinv⟩

/-- `spd_taskqueue_unreference` keeps the invariant. -/
theorem step_unreference (hcalloc : ∀ n live, m.calloc n live ≠ none) (h : Inv s queues)
    {tps : Addr} (he : Enabled s (.unreference tps)) :
    ∃ s', step m.toWrap s (.unreference tps) = .ok s' ∧ Correct s (.unreference tps) s' ∧
      ∃ queues', Inv s' queues' := by
  rcases h.clients tps he with ⟨q, hq, rfl⟩
  rcases List.append_of_mem hq with ⟨before, after, rfl⟩
  have hinv := h.perm List.perm_middle
  have hmem : ∀ q', q' ∈ before ++ q :: after ↔ q' ∈ q :: (before ++ after) :=
    fun q' => List.perm_middle.mem_iff
  have hqueue := h.queue q hq
  have hsame : ∀ (s' : Sys) tmp' ifExists' answers',
      Op.unreference q.addr = .get tmp' ifExists' answers' → ∀ g ∈ s.gets,
        strcasecmp g.1.name tmp'.name = 0 → ∀ a ∈ s.clients, ∀ tps, s.IsAt a tps g.2 →
          s'.clients = a ::ₘ s.clients ∧ s'.IsAt a tps g.2 ∧
            s'.gets = s.gets ++ [(tmp', g.2)] := fun _ _ _ _ ho => nomatch ho
  by_cases hlast : s.clients.count q.addr = 1
  · rcases @unreference_last m s _ q hinv hlast with ⟨s', hstep, -, hinv'⟩
    refine ⟨s', hstep, ⟨hsame s', ?_⟩, _, hinv'⟩
    intro a _ tps serial hat
    have hold := (hmem _).mp (h.isAt_iff.mp hat)
    rw [hinv'.isAt_iff]
    constructor
    · intro hnot
      rcases List.mem_cons.mp hold with heq | hold
      · subst heq
        exact ⟨rfl, hlast⟩
      · exact absurd hold hnot
    · rintro ⟨ho, -⟩ hnew
      have haddrs := hinv.addrs
      rw [List.map_cons, List.nodup_cons] at haddrs
      have haddr := List.mem_map_of_mem (f := Queue.addr) hnew
      cases ho
      exact haddrs.1 haddr
  · have hmore : 1 < s.clients.count q.addr := by
      have hpos := hqueue.owned
      omega
    have hroom : s.clients.count q.addr < 2 ^ 31 - 1 := by
      rcases hqueue.get with ⟨v, -, hv⟩
      have hlt := v.toInt_lt
      omega
    rcases unreference_more hcalloc hinv hmore hroom with ⟨s', hstep, -, hinv'⟩
    refine ⟨s', hstep, ⟨hsame s', fun a _ tps serial => ?_⟩, _, hinv'⟩
    apply h.not_destroyed hinv'
    · exact fun q' hq' => (hmem q').mp hq'
    · rintro a ⟨ho, hone⟩
      cases ho
      exact hlast hone

theorem step_inv (hcalloc : ∀ n live, m.calloc n live ≠ none) (h : Inv s queues) {o : Op}
    (he : Enabled s o) (hr : Room s o) :
    ∃ s', step m.toWrap s o = .ok s' ∧ Correct s o s' ∧ ∃ queues', Inv s' queues' := by
  cases o with
  | get tmp ifExists answers => exact step_get hcalloc h he hr
  | unreference tps => exact step_unreference hcalloc h he

/-- `spd_taskqueue_init` makes an empty container. -/
theorem inv_start (hcalloc : ∀ n live, m.calloc n live ≠ none) : Inv (start m.toWrap) [] := by
  rcases Option.ne_none_iff_exists'.mp (hcalloc 0 ∅) with ⟨c, hcalloc⟩
  rcases m.calloc_fresh hcalloc with ⟨-, hnull⟩
  have hcalloc : m.toWrap.calloc ({} : State Tps).callocs ({} : State Tps).objs.dom = some c :=
    hcalloc
  have hlinked : Linked (fun _ => none) (⟨tpsHashCb, some tpsCmpCb, (7 : UInt32).toInt32, 0, 1,
      List.replicate (7 : UInt32).toNat []⟩ : ObjContainer Tps) := .fresh (by decide)
  generalize hcont : (⟨tpsHashCb, some tpsCmpCb, (7 : UInt32).toInt32, 0, 1,
    List.replicate (7 : UInt32).toNat []⟩ : ObjContainer Tps) = cont at hlinked
  have hempty : cont.buckets.flatten = [] := by
    rw [← hcont]
    exact List.flatten_replicate_nil
  generalize hst : ({ ({ ({} : State Tps) with callocs := 1 } : State Tps).setObj c
    ⟨1, some .containerDestruct, .container cont, 0⟩ with serials := 1 } : State Tps) = st
  have hinit : spdTaskqueueInit m.toWrap {} = (c, st) := by
    rw [← hst, ← hcont]
    simp only [spdTaskqueueInit, objContainerAlloc, internalObjAlloc, spdCalloc, hcalloc,
      Option.getD_some, if_neg hnull]
    rfl
  have hstart : start m.toWrap = ⟨st, c, 0, []⟩ := by
    rw [start, hinit]
  have hobjs : st.objs = Heap.set ∅ c ⟨1, some .containerDestruct, .container cont, 0⟩ := by
    rw [← hst]
    rfl
  rw [hstart]
  constructor
  case holds =>
    have hget : st.objs.get c = some ⟨1, some .containerDestruct, .container cont, 0⟩ := by
      rw [hobjs]
      exact Heap.get_set_self _ _ _
    refine ⟨hnull, _, cont, fun _ => none, hget, rfl, ?_, ?_⟩
    · constructor
      · exact hlinked
      · rw [← hcont]
      · rw [← hcont]
      · rw [hempty]
        exact List.nodup_nil
    · rw [hempty]
      exact List.Perm.nil
  case queue => exact fun q hq => absurd hq List.not_mem_nil
  case addrs => exact List.nodup_nil
  case keys => exact List.nodup_nil
  case serials => exact List.nodup_nil
  case clients => exact fun a ha => absurd ha (Multiset.notMem_zero a)
  case alive =>
    intro a ha
    have ha : a ∈ st.objs.dom := ha
    rw [hobjs, Heap.dom_set, Heap.dom_empty] at ha
    exact Or.inl (Finset.mem_singleton.mp ha)
  case gets => exact fun g hg => absurd hg List.not_mem_nil

theorem run_inv (hcalloc : ∀ n live, m.calloc n live ≠ none) (ops : List Op) (h : Inv s queues)
    (hl : Run.Legal (step m.toWrap) Enabled s ops) (hr : Run.Legal (step m.toWrap) Room s ops) :
    ∃ s', Run.run (step m.toWrap) s ops = .ok s' ∧ ∃ queues', Inv s' queues' := by
  induction ops generalizing s queues with
  | nil => exact ⟨s, rfl, queues, h⟩
  | cons o ops ih =>
    rcases step_inv hcalloc h hl.1 hr.1 with ⟨s1, hstep, -, queues1, h1⟩
    rcases ih h1 (hl.2 s1 hstep) (hr.2 s1 hstep) with ⟨s', hrun, hinv⟩
    exact ⟨s', (Run.run_cons_of_ok hstep ops).trans hrun, hinv⟩

/-- After every legal run of gets and unreferences there is one queue for each name that clients
    refer to, with one reference more than they have, and the next operation does what is said of
    it. -/
theorem taskqueue_singletons (m : Machine) (hcalloc : ∀ n live, m.calloc n live ≠ none)
    (ops : List Op) (hl : Run.Legal (step m.toWrap) Enabled (start m.toWrap) ops)
    (hr : Run.Legal (step m.toWrap) Room (start m.toWrap) ops) :
    ∃ s, Run.run (step m.toWrap) (start m.toWrap) ops = .ok s ∧ Exact s ∧
      ∀ o, Enabled s o → Room s o → ∃ s', step m.toWrap s o = .ok s' ∧ Exact s' ∧
        Correct s o s' := by
  rcases run_inv hcalloc ops (inv_start hcalloc) hl hr with ⟨s, hrun, queues, hinv⟩
  refine ⟨s, hrun, hinv.exact, ?_⟩
  intro o he hr
  rcases step_inv hcalloc hinv he hr with ⟨s', hstep, hcorrect, queues', hinv'⟩
  exact ⟨s', hstep, hinv'.exact, hcorrect⟩

def answered : Answers := ⟨true, true, 0⟩

/-- A queue `q`, under two spellings of its name. -/
def lowerQ : Tps := ⟨[113], by decide +kernel⟩
@[inherit_doc lowerQ] def upperQ : Tps := ⟨[81], by decide +kernel⟩

theorem succeeds_answered : Succeeds answered := ⟨rfl, rfl, by decide⟩

theorem room_of_card (o : Op) (h : Multiset.card s.clients < 2 ^ 31 - 2) : Room s o := by
  cases o with
  | get tmp _ _ => exact fun a _ _ _ _ => (Multiset.count_le_card a _).trans_lt h
  | unreference tps => trivial

/-- Two gets of one queue, and an unreference. -/
theorem taskqueue_singletons_two : ∃ s, Run.run (step bumpMachine.toWrap) (start bumpMachine.toWrap)
      [.get lowerQ false answered, .get upperQ true answered, .unreference 2] = .ok s ∧
    Exact s ∧ s.clients = {2} ∧ s.registered = [2] := by
  have hrun : ∃ s1 s2 s3, step bumpMachine.toWrap (start bumpMachine.toWrap)
        (.get lowerQ false answered) = .ok s1 ∧
      step bumpMachine.toWrap s1 (.get upperQ true answered) = .ok s2 ∧
      step bumpMachine.toWrap s2 (.unreference 2) = .ok s3 ∧ s1.clients = {2} ∧
      s2.clients = {2, 2} ∧ s3.clients = {2} ∧ s3.registered = [2] := by
    refine ⟨_, _, _, by with_unfolding_all rfl, by with_unfolding_all rfl,
      by with_unfolding_all rfl, by with_unfolding_all rfl, by with_unfolding_all rfl,
      by with_unfolding_all rfl, by with_unfolding_all rfl⟩
  rcases hrun with ⟨s1, s2, s3, h1, h2, h3, hc1, hc2, hc3, hregistered⟩
  have hlower : Enabled (start bumpMachine.toWrap) (.get lowerQ false answered) :=
    ⟨by decide, by decide +kernel, succeeds_answered⟩
  have hupper : Enabled s1 (.get upperQ true answered) :=
    ⟨by decide, by decide +kernel, succeeds_answered⟩
  have howned : Enabled s2 (.unreference 2) := by
    show 2 ∈ s2.clients
    rw [hc2]
    exact Multiset.mem_cons_self _ _
  have hroom1 : Room s1 (.get upperQ true answered) := by
    apply room_of_card
    rw [hc1]
    decide
  have hlegal : Run.Legal (step bumpMachine.toWrap) Enabled (start bumpMachine.toWrap)
      [.get lowerQ false answered, .get upperQ true answered, .unreference 2] := by
    apply Run.legal_cons_of_ok h1 hlower
    apply Run.legal_cons_of_ok h2 hupper
    exact Run.legal_cons_of_ok h3 howned trivial
  have hroom : Run.Legal (step bumpMachine.toWrap) Room (start bumpMachine.toWrap)
      [.get lowerQ false answered, .get upperQ true answered, .unreference 2] := by
    apply Run.legal_cons_of_ok h1 (room_of_card _ (by decide))
    apply Run.legal_cons_of_ok h2 hroom1
    exact Run.legal_cons_of_ok h3 trivial trivial
  rcases taskqueue_singletons bumpMachine (fun _ _ => Option.some_ne_none _) _ hlegal hroom with
    ⟨s, hs, hexact, -⟩
  have hend : s = s3 := by
    rw [Run.run_cons_of_ok h1, Run.run_cons_of_ok h2, Run.run_cons_of_ok h3] at hs
    exact (Outcome.ok.inj hs).symm
  subst hend
  exact ⟨s, hs, hexact, hc3, hregistered⟩

/-! ## The counter at its limit -/

/-- Gets of one name take all the references the counter has room for. -/
theorem run_gets (hcalloc : ∀ n live, m.calloc n live ≠ none) (hname : tmp.name ≠ [])
    (hhash : spdStrCaseHash tmp.name ≠ Int32.minValue) {answers : Answers}
    (hanswers : Succeeds answers) (n : Nat) (hn : n + 1 ≤ 2 ^ 31 - 2) :
    ∃ s q, Run.run (step m.toWrap) (start m.toWrap)
        (List.replicate (n + 1) (.get tmp false answers)) = .ok s ∧
      Inv s [q] ∧ q.tps.key = tmp.key ∧ s.clients.count q.addr = n + 1 := by
  induction n with
  | zero =>
    have hnone : ∀ q ∈ ([] : List Queue), q.tps.key ≠ tmp.key :=
      fun q hq => absurd hq List.not_mem_nil
    rcases get_create hcalloc (inv_start hcalloc) hnone hname hhash hanswers with
      ⟨s, q, hstep, hq, hclients, hinv⟩
    refine ⟨s, q, Run.run_cons_of_ok hstep [], hinv, by rw [hq], ?_⟩
    have hempty : (start m.toWrap).clients = 0 := rfl
    rw [hclients, hempty]
    exact Multiset.count_singleton_self _
  | succ n ih =>
    rcases ih (by omega) with ⟨s, q, hrun, hinv, hkey, hcount⟩
    rcases get_found (m := m.toWrap) hinv List.mem_cons_self hkey hname (by omega) false answers
      with ⟨st, hstep, hinv'⟩
    refine ⟨_, q, ?_, hinv', hkey, ?_⟩
    · rw [List.replicate_succ', Run.run_append, hrun]
      exact Run.run_cons_of_ok hstep []
    · rw [Multiset.count_cons_self, hcount]

/-- The next get destroys the queue that it returns. -/
theorem get_overflow (h : Inv s queues) (hq : q ∈ queues) (hkey : q.tps.key = tmp.key)
    (hname : tmp.name ≠ []) (hfull : s.clients.count q.addr = 2 ^ 31 - 2) (ifExists : Bool)
    (answers : Answers) : ∃ s', step m.toWrap s (.get tmp ifExists answers) = .ok s' ∧
      s'.clients = q.addr ::ₘ s.clients ∧ s'.tpsSingletons = s.tpsSingletons ∧
      q.addr ∉ s'.st.objs.dom := by
  rcases h.holds with ⟨hnull, p, cont, data, hp, hu, hsing, hperm⟩
  have hqueue := h.queue q hq
  rcases hqueue.get with ⟨v, hget, hv⟩
  have hmax : v = Int32.maxValue := by
    apply Int32.toInt_inj.mp
    rw [hv, hfull, Int32.toInt_maxValue]
    rfl
  subst hmax
  rcases h.find hq hkey hsing hperm with ⟨cur, hfind, hcur⟩
  rcases lock_log hnull hp with ⟨t1, hlock⟩
  have hp1 : (s.st.log t1).objs.get s.tpsSingletons = some p := hp
  have hloaded1 : Loaded (s.st.log t1) data cont := loaded_of_inStore h.inStore hperm
  have href : ∀ t, ∃ old st' p', objRef m.toWrap ((s.st.log t1).log t) cur.pobj 1 =
      .ok (old, st') ∧ st'.objs.get s.tpsSingletons = some p' ∧
      st'.objs = s.st.objs.free q.addr := by
    intro t
    rw [hcur]
    have hget1 : ((s.st.log t1).log t).objs.get q.addr =
        some ⟨Int32.maxValue, some .user, .data q.tps, q.serial⟩ := hget
    have hadd : spdAtomicFetchaddInt m.toWrap Int32.maxValue 1 = .ok Int32.minValue := by
      rw [spdAtomicFetchaddInt_wrap]
      rfl
    have hzero : ¬ (1 : Int32) = 0 := by decide
    have hle : Int32.minValue ≤ 0 := by decide
    have hobjs : (((((s.st.log t1).log t).setObj q.addr
        ⟨Int32.minValue, some .user, .data q.tps, q.serial⟩).emit
          (.destruct q.serial)).freeObj q.addr).objs = s.st.objs.free q.addr := Heap.free_set _ _ _
    refine ⟨Int32.maxValue, _, p, ?_, ?_, hobjs⟩
    · simp only [objRef, internalObjRef, internalObj_of_get hqueue.null hget1, ok_bind,
        if_neg hzero, hadd, if_pos hle, runDestructor]
    · have hother : (s.st.objs.free q.addr).get s.tpsSingletons = some p :=
        (Heap.get_free_of_ne _ hqueue.ne.symm).trans hp
      rw [← hobjs] at hother
      exact hother
  rcases hsing.linked.objFind_ref m.toWrap OBJ_POINTER hnull hp1 hu hloaded1 (hsing.comparable tmp)
    rfl rfl rfl rfl hfind href with ⟨st2, t2, hfound, hobjs2⟩
  rw [hcur] at hfound
  have hp2 : (st2.log t2).objs.get s.tpsSingletons = some p := by
    show st2.objs.get s.tpsSingletons = some p
    rw [hobjs2, Heap.get_free_of_ne _ hqueue.ne.symm]
    exact hp
  rcases unlock_log hnull hp2 with ⟨t3, hunlock⟩
  have hcall := spdTaskqueueGet_found hname hlock hfound hqueue.null hunlock ifExists answers
  have hstep : step m.toWrap s (.get tmp ifExists answers) = .ok { s with
      st := (st2.log t2).log t3
      clients := q.addr ::ₘ s.clients
      gets := s.gets ++ ((((st2.log t2).log t3).objs.get q.addr).map
        fun q => (tmp, q.serial)).toList } := by
    rw [step, hcall, ok_bind]
    exact if_neg hqueue.null
  refine ⟨_, hstep, rfl, rfl, ?_⟩
  show q.addr ∉ st2.objs.dom
  rw [hobjs2, Heap.dom_free]
  exact Finset.notMem_erase _ _

theorem legal_gets (m : Machine) (s : Sys) (n : Nat) :
    Run.Legal (step m) Enabled s (List.replicate n (.get lowerQ false answered)) := by
  induction n generalizing s with
  | zero => trivial
  | succ n ih =>
    have hget : Enabled s (.get lowerQ false answered) :=
      ⟨by decide, by decide +kernel, succeeds_answered⟩
    exact ⟨hget, fun s' _ => ih s'⟩

/-- A get of a queue that `INT_MAX - 1` references are held of destroys it. -/
theorem taskqueue_singletons_limit : ∃ ops s,
    Run.Legal (step bumpMachine.toWrap) Enabled (start bumpMachine.toWrap) ops ∧
    Run.run (step bumpMachine.toWrap) (start bumpMachine.toWrap) ops = .ok s ∧ ¬ Exact s := by
  rcases @run_gets bumpMachine lowerQ (fun _ _ => Option.some_ne_none _) (by decide)
    (by decide +kernel) answered succeeds_answered (2 ^ 31 - 3) (by decide) with
    ⟨s, q, hrun, hinv, hkey, hcount⟩
  generalize 2 ^ 31 - 3 + 1 = n at hrun
  rcases @get_overflow bumpMachine lowerQ s [q] q hinv List.mem_cons_self hkey (by decide) hcount
    false answered with ⟨s', hstep, hclients, -, hdead⟩
  refine ⟨List.replicate (n + 1) (.get lowerQ false answered), s', legal_gets _ _ _, ?_, ?_⟩
  · rw [List.replicate_succ', Run.run_append, hrun]
    exact Run.run_cons_of_ok hstep []
  · intro hexact
    have hmem : q.addr ∈ s'.clients := by
      rw [hclients]
      exact Multiset.mem_cons_self _ _
    have hregistered := (hexact.referred q.addr).mpr hmem
    exact hdead ((hexact.alive q.addr).mp hregistered).2

end

end Spider.TaskQueue.Singletons
