import Spider.ObjModel.Lookup
import Spider.Lib.CString

/-!
# Named task queues

`tps_singletons` holds the task queues by name. `spd_taskqueue_get` gives a
reference to the queue of a name, which it creates where there is none;
`spd_taskqueue_unreference` takes the queue out, drops the reference, and puts
the queue back in if others remain. The thread of a queue is the subject of
`Spider.TaskQueue.Worker`.
-/

namespace Spider.TaskQueue.Singletons

open Lib Outcome CString ObjModel

/-! ## The functions -/

/-- `struct spd_taskqueue`, as far as the container looks at it. -/
structure Tps where
  name : CString
  noNul : NoNul name

/-- `spd_str_case_hash` (`strings.h:273-281`), with `char` signed. -/
def spdStrCaseHash (name : CString) : Int32 :=
  cAbs (name.foldl (fun hash c => hash * 33 ^^^ (tolower c).toInt8.toInt32) 5381)

/-- `tps_hash_cb` (`taskqueue.c:181-185`). No container is in the container. -/
def tpsHashCb (obj : Ptr Tps) (_ : SearchFlags) : Int32 :=
  match obj.data with
  | some tps => spdStrCaseHash tps.name
  | none => 0

/-- `tps_cmp_cb` (`taskqueue.c:187-191`). -/
def tpsCmpCb (obj arg : Ptr Tps) (_ : SearchFlags) : Int32 :=
  match obj.data, arg.data with
  | some tps, some rhs => if strcasecmp tps.name rhs.name = 0 then CMP_MATCH ||| CMP_STOP else 0
  | _, _ => 0

/-- What `spd_calloc` for the statistics, `spd_strdup` and `spd_pthread_create` answer. -/
structure Answers where
  stats : Bool
  name : Bool
  thread : Int
  deriving DecidableEq, Repr

/-- `spd_taskqueue_init` (`taskqueue.c:92-101`). -/
def spdTaskqueueInit (m : Machine) (st : State Tps) : Addr × State Tps :=
  objContainerAlloc m st 7 (some tpsHashCb) (some tpsCmpCb)

/-- `spd_taskqueue_get` (`taskqueue.c:260-326`). `tmp` is `tmp_tps`. -/
def spdTaskqueueGet (m : Machine) (st : State Tps) (tpsSingletons : Addr) (tmp : Tps)
    (ifExists : Bool) (answers : Answers) : Outcome (Addr × State Tps) :=
  if tmp.name = [] then .ok (NULL, st)
  else do
    let st ← objLock st tpsSingletons
    match ← objFind m st tpsSingletons ⟨NULL, some tmp⟩ OBJ_POINTER with
    | (.iter _, _) => .fault
    | (.obj p, st) =>
      if p ≠ NULL then do
        let st ← objUnlock st tpsSingletons
        .ok (p, st)
      else if ifExists then do
        let st ← objUnlock st tpsSingletons
        .ok (NULL, st)
      else
        let (p, st) := objAlloc m st tmp (some .user)
        if p = NULL then do
          let st ← objUnlock st tpsSingletons
          .ok (NULL, st)
        -- the destructor joins a thread that was not created
        else if answers.stats = false ∨ answers.name = false ∨ answers.thread < 0 then .fault
        else do
          let (entry, st) ← objLink m st tpsSingletons p {}
          let st ← objUnlock st tpsSingletons
          if entry = NULL then do
            let (_, st) ← objRef m st p (-1)
            .ok (NULL, st)
          else .ok (p, st)

/-- `spd_taskqueue_unreference` (`taskqueue.c:328-339`). -/
def spdTaskqueueUnreference (m : Machine) (st : State Tps) (tpsSingletons tps : Addr) :
    Outcome (State Tps) :=
  if tps = NULL then .ok st
  else do
    let st ← objLock st tpsSingletons
    let st ← objUnlink m st tpsSingletons tps {}
    let (old, st) ← objRef m st tps (-1)
    let (_, st) ← if old > 1 then objLink m st tpsSingletons tps {} else .ok (NULL, st)
    objUnlock st tpsSingletons

/-! ## The system -/

/-- The store with the references of the clients. Each `spd_taskqueue_get` that returned a queue is
    noted with the name it was given and the number of the queue. -/
structure Sys where
  st : State Tps
  tpsSingletons : Addr
  clients : Multiset Addr
  gets : List (Tps × Nat)

inductive Op where
  | get (tmp : Tps) (ifExists : Bool) (answers : Answers)
  | unreference (tps : Addr)

def step (m : Machine) (s : Sys) : Op → Outcome Sys
  | .get tmp ifExists answers => do
    let (p, st) ← spdTaskqueueGet m s.st s.tpsSingletons tmp ifExists answers
    if p = NULL then .ok { s with st := st }
    else
      .ok { s with
        st := st
        clients := p ::ₘ s.clients
        gets := s.gets ++ ((st.objs.get p).map fun q => (tmp, q.serial)).toList }
  | .unreference tps => do
    let st ← spdTaskqueueUnreference m s.st s.tpsSingletons tps
    .ok { s with st := st, clients := s.clients.erase tps }

/-- `spd_taskqueue_init` has created the container. -/
def start (m : Machine) : Sys :=
  let (c, st) := spdTaskqueueInit m {}
  ⟨st, c, 0, []⟩

/-! ## Names -/

/-- What two names have in common that are equal ignoring case. -/
def Tps.key (tps : Tps) : CString := lower tps.name

theorem strcasecmp_eq_zero_iff (tps rhs : Tps) :
    strcasecmp tps.name rhs.name = 0 ↔ tps.key = rhs.key :=
  strcasecmp_eq_zero tps.noNul rhs.noNul

/-- Names that are equal ignoring case have the same hash. -/
theorem spdStrCaseHash_congr {tps rhs : Tps} (h : tps.key = rhs.key) :
    spdStrCaseHash tps.name = spdStrCaseHash rhs.name := by
  have hlower : ∀ name, spdStrCaseHash name =
      cAbs ((lower name).foldl (fun hash c => hash * 33 ^^^ c.toInt8.toInt32) 5381) := by
    intro name
    rw [spdStrCaseHash, lower, List.foldl_map]
  have hname : lower tps.name = lower rhs.name := h
  rw [hlower, hlower, hname]

/-- The compare function compares the names. -/
theorem tpsCmpCb_eq (obj : Ptr Tps) (a : Addr) (tmp : Tps) (flags : SearchFlags) :
    tpsCmpCb obj ⟨a, some tmp⟩ flags =
      if obj.data.map Tps.key = some tmp.key then CMP_MATCH ||| CMP_STOP else 0 := by
  rcases obj with ⟨addr, data⟩
  cases data with
  | none => rfl
  | some tps =>
    have hkey : (some tps).map Tps.key = some tmp.key ↔ strcasecmp tps.name tmp.name = 0 := by
      rw [strcasecmp_eq_zero_iff]
      exact Option.some_inj
    exact (if_congr hkey rfl rfl).symm

variable {m : Machine} {st : State Tps} {c : Addr} {p : Obj Tps} {cont : ObjContainer Tps}
  {data : Addr → Option Tps} {tmp : Tps} {e : BucketEntry}

/-- The container is as `spd_taskqueue_init` made it, up to its entries. -/
structure IsSingletons (data : Addr → Option Tps) (cont : ObjContainer Tps) : Prop where
  linked : Linked data cont
  hash : cont.hashFn = tpsHashCb
  cmp : cont.cmpFn = some tpsCmpCb
  addrs : (cont.buckets.flatten.map BucketEntry.addr).Nodup

theorem IsSingletons.cmp_eq (h : IsSingletons data cont) (tmp : Tps) (flags : SearchFlags)
    (obj : Ptr Tps) : cont.cmp ⟨NULL, some tmp⟩ flags obj =
      if obj.data.map Tps.key = some tmp.key then CMP_MATCH ||| CMP_STOP else 0 := by
  rw [ObjContainer.cmp, h.cmp]
  exact tpsCmpCb_eq obj NULL tmp flags

theorem IsSingletons.hit_iff (h : IsSingletons data cont) (tmp : Tps) (e : BucketEntry) :
    hit (cont.cmp ⟨NULL, some tmp⟩ OBJ_POINTER) (entryPtr data) e = true ↔
      (data e.addr).map Tps.key = some tmp.key := by
  rw [hit, h.cmp_eq, entryPtr]
  dsimp only
  split
  next heq => exact iff_of_true (by decide) heq
  next hne => exact iff_of_false (by decide) hne

theorem IsSingletons.comparable (h : IsSingletons data cont) (tmp : Tps) :
    Comparable cont ⟨NULL, some tmp⟩ := by
  constructor
  · intro obj flags hmatch
    rw [h.cmp_eq] at hmatch
    by_cases hkey : obj.data.map Tps.key = some tmp.key
    · rcases Option.map_eq_some_iff.mp hkey with ⟨tps, hdata, hkey⟩
      rw [h.hash, tpsHashCb, tpsHashCb, hdata]
      exact spdStrCaseHash_congr hkey
    · rw [if_neg hkey] at hmatch
      exact absurd hmatch (by decide)
  · intro obj flags
    rw [h.cmp_eq]
    split
    · decide
    · decide
  · intro obj
    rw [h.cmp_eq, h.cmp_eq]

/-! ## The registered queues -/

/-- A queue in the container, with the number of its object. -/
structure Queue where
  addr : Addr
  tps : Tps
  serial : Nat

/-- The entries of the container are the queues. -/
structure Holds (st : State Tps) (c : Addr) (queues : List Queue) : Prop where
  null : c ≠ NULL
  container : ∃ p cont data, st.objs.get c = some p ∧ p.userData = .container cont ∧
    IsSingletons data cont ∧ (cont.buckets.flatten.map fun e => (e.pobj, data e.addr)).Perm
      (queues.map fun q => (q.addr, some q.tps))

/-- The object of the queue is in the store. -/
def InStore (st : State Tps) (q : Queue) : Prop :=
  q.addr ≠ NULL ∧ ∃ v, st.objs.get q.addr = some ⟨v, some .user, .data q.tps, q.serial⟩

/-- The queue as it is in the store: one reference for each client that has one, and one for the
    container. -/
structure IsQueue (s : Sys) (q : Queue) : Prop where
  null : q.addr ≠ NULL
  ne : q.addr ≠ s.tpsSingletons
  hash : spdStrCaseHash q.tps.name ≠ Int32.minValue
  serial : q.serial < s.st.serials
  owned : 0 < s.clients.count q.addr
  get : ∃ v : Int32, s.st.objs.get q.addr = some ⟨v, some .user, .data q.tps, q.serial⟩ ∧
    v.toInt = s.clients.count q.addr + 1

/-- The queues in the container have different names, and they are those that clients refer to. -/
structure Inv (s : Sys) (queues : List Queue) : Prop where
  holds : Holds s.st s.tpsSingletons queues
  queue : ∀ q ∈ queues, IsQueue s q
  addrs : (queues.map Queue.addr).Nodup
  keys : (queues.map fun q => q.tps.key).Nodup
  serials : (queues.map Queue.serial).Nodup
  clients : ∀ a ∈ s.clients, ∃ q ∈ queues, q.addr = a
  alive : ∀ a ∈ s.st.objs.dom, a = s.tpsSingletons ∨ ∃ q ∈ queues, q.addr = a
  gets : ∀ g ∈ s.gets, g.2 < s.st.serials ∧ ∀ q ∈ queues, q.serial = g.2 → q.tps.key = g.1.key

section

variable {s s' : Sys} {queues : List Queue} {q : Queue}

theorem entry_queue (hperm : (cont.buckets.flatten.map fun e => (e.pobj, data e.addr)).Perm
      (queues.map fun q => (q.addr, some q.tps))) (he : e ∈ cont.buckets.flatten) :
    ∃ q ∈ queues, q.addr = e.pobj ∧ data e.addr = some q.tps := by
  have hmem := hperm.mem_iff.mp (List.mem_map_of_mem he)
  rcases List.mem_map.mp hmem with ⟨q, hq, heq⟩
  have heq := Prod.mk.inj heq
  exact ⟨q, hq, heq.1, heq.2.symm⟩

theorem queue_entry (hperm : (cont.buckets.flatten.map fun e => (e.pobj, data e.addr)).Perm
      (queues.map fun q => (q.addr, some q.tps))) (hq : q ∈ queues) :
    ∃ e ∈ cont.buckets.flatten, e.pobj = q.addr ∧ data e.addr = some q.tps := by
  have hmem := hperm.mem_iff.mpr (List.mem_map_of_mem hq)
  rcases List.mem_map.mp hmem with ⟨e, he, heq⟩
  have heq := Prod.mk.inj heq
  exact ⟨e, he, heq.1, heq.2⟩

theorem Inv.eq_of_addr (h : Inv s queues) {q' : Queue} (hq : q ∈ queues) (hq' : q' ∈ queues)
    (heq : q.addr = q'.addr) : q = q' := List.inj_on_of_nodup_map h.addrs hq hq' heq

theorem Inv.eq_of_key (h : Inv s queues) {q' : Queue} (hq : q ∈ queues) (hq' : q' ∈ queues)
    (heq : q.tps.key = q'.tps.key) : q = q' := List.inj_on_of_nodup_map h.keys hq hq' heq

theorem loaded_of_inStore (h : ∀ q ∈ queues, InStore st q)
    (hperm : (cont.buckets.flatten.map fun e => (e.pobj, data e.addr)).Perm
      (queues.map fun q => (q.addr, some q.tps))) : Loaded st data cont := by
  intro e he
  rcases entry_queue hperm he with ⟨q, hq, haddr, hdata⟩
  rcases h q hq with ⟨hnull, v, hget⟩
  rw [← haddr, hdata]
  exact ⟨hnull, _, hget, rfl⟩

theorem Inv.inStore (h : Inv s queues) : ∀ q ∈ queues, InStore s.st q := by
  intro q hq
  rcases (h.queue q hq).get with ⟨v, hget, -⟩
  exact ⟨(h.queue q hq).null, v, hget⟩

/-- The count of the clients of a queue changes, and its counter with it. -/
theorem Inv.recount (h : Inv s queues) (hq : q ∈ queues)
    (hc : s'.tpsSingletons = s.tpsSingletons) (hgets : s'.gets = s.gets)
    (hserials : s'.st.serials = s.st.serials) (hholds : Holds s'.st s'.tpsSingletons queues)
    (hpos : 0 < s'.clients.count q.addr)
    (hget : ∃ v : Int32, s'.st.objs.get q.addr = some ⟨v, some .user, .data q.tps, q.serial⟩ ∧
      v.toInt = s'.clients.count q.addr + 1)
    (hobjs : ∀ a, a ≠ s.tpsSingletons → a ≠ q.addr → s'.st.objs.get a = s.st.objs.get a)
    (hcounts : ∀ a, a ≠ q.addr → s'.clients.count a = s.clients.count a)
    (hdom : s'.st.objs.dom = s.st.objs.dom) : Inv s' queues := by
  constructor
  case holds => exact hholds
  case queue =>
    intro q' hq'
    have hqueue := h.queue q' hq'
    by_cases heq : q' = q
    · subst heq
      refine ⟨hqueue.null, ?_, hqueue.hash, ?_, hpos, hget⟩
      · rw [hc]
        exact hqueue.ne
      · rw [hserials]
        exact hqueue.serial
    · have haddr : q'.addr ≠ q.addr := fun haddr => heq (h.eq_of_addr hq' hq haddr)
      have hcount := hcounts q'.addr haddr
      refine ⟨hqueue.null, ?_, hqueue.hash, ?_, ?_, ?_⟩
      · rw [hc]
        exact hqueue.ne
      · rw [hserials]
        exact hqueue.serial
      · rw [hcount]
        exact hqueue.owned
      · rw [hobjs q'.addr hqueue.ne haddr, hcount]
        exact hqueue.get
  case addrs => exact h.addrs
  case keys => exact h.keys
  case serials => exact h.serials
  case clients =>
    intro a ha
    by_cases haddr : a = q.addr
    · exact ⟨q, hq, haddr.symm⟩
    · apply h.clients
      apply Multiset.count_pos.mp
      rw [← hcounts a haddr]
      exact Multiset.count_pos.mpr ha
  case alive =>
    rw [hdom, hc]
    exact h.alive
  case gets =>
    rw [hgets, hserials]
    exact h.gets

/-- A further `spd_taskqueue_get` is noted. -/
theorem Inv.note (h : Inv s queues) (hq : q ∈ queues) (hkey : q.tps.key = tmp.key) :
    Inv { s with gets := s.gets ++ [(tmp, q.serial)] } queues where
  holds := h.holds
  queue q' hq' := ⟨(h.queue q' hq').null, (h.queue q' hq').ne, (h.queue q' hq').hash,
    (h.queue q' hq').serial, (h.queue q' hq').owned, (h.queue q' hq').get⟩
  addrs := h.addrs
  keys := h.keys
  serials := h.serials
  clients := h.clients
  alive := h.alive
  gets := by
    intro g hg
    rcases List.mem_append.mp hg with hg | hg
    · exact h.gets g hg
    · rw [List.mem_singleton.mp hg]
      refine ⟨(h.queue q hq).serial, fun q' hq' hserial => ?_⟩
      rw [List.inj_on_of_nodup_map h.serials hq' hq hserial]
      exact hkey

/-- The order of the queues does not matter. -/
theorem Inv.perm (h : Inv s queues) {queues' : List Queue} (hperm : queues.Perm queues') :
    Inv s queues' := by
  have hmem : ∀ q, q ∈ queues' → q ∈ queues := fun q hq => hperm.mem_iff.mpr hq
  rcases h.holds.container with ⟨p, cont, data, hp, hu, hsing, hentries⟩
  constructor
  case holds =>
    exact ⟨h.holds.null, p, cont, data, hp, hu, hsing, hentries.trans (hperm.map _)⟩
  case queue => exact fun q hq => h.queue q (hmem q hq)
  case addrs => exact (hperm.map _).nodup_iff.mp h.addrs
  case keys => exact (hperm.map _).nodup_iff.mp h.keys
  case serials => exact (hperm.map _).nodup_iff.mp h.serials
  case clients =>
    intro a ha
    rcases h.clients a ha with ⟨q, hq, haddr⟩
    exact ⟨q, hperm.mem_iff.mp hq, haddr⟩
  case alive =>
    intro a ha
    rcases h.alive a ha with hc | ⟨q, hq, haddr⟩
    · exact Or.inl hc
    · exact Or.inr ⟨q, hperm.mem_iff.mp hq, haddr⟩
  case gets =>
    intro g hg
    rcases h.gets g hg with ⟨hlt, hkey⟩
    exact ⟨hlt, fun q hq => hkey q (hmem q hq)⟩

/-- What the steps of one queue leave of another. -/
theorem IsQueue.other (h : IsQueue s q) (hc : s'.tpsSingletons = s.tpsSingletons)
    (hserials : s.st.serials ≤ s'.st.serials) (hcount : s'.clients.count q.addr =
      s.clients.count q.addr) (hget : s'.st.objs.get q.addr = s.st.objs.get q.addr) :
    IsQueue s' q := by
  constructor
  case null => exact h.null
  case ne =>
    rw [hc]
    exact h.ne
  case hash => exact h.hash
  case serial => exact h.serial.trans_le hserials
  case owned =>
    rw [hcount]
    exact h.owned
  case get =>
    rw [hget, hcount]
    exact h.get

theorem nodup_map_cons {β : Type} {f : Queue → β} (hne : ∀ q' ∈ queues, f q' ≠ f q)
    (h : (queues.map f).Nodup) : ((q :: queues).map f).Nodup := by
  rw [List.map_cons, List.nodup_cons]
  constructor
  · intro hmem
    rcases List.mem_map.mp hmem with ⟨q', hq', heq⟩
    exact hne q' hq' heq
  · exact h

/-- A queue is created. -/
theorem Inv.cons (h : Inv s queues) (hkey : ∀ q' ∈ queues, q'.tps.key ≠ q.tps.key)
    (hfresh : q.addr ∉ s.st.objs.dom) (hserial : q.serial = s.st.serials)
    (hc : s'.tpsSingletons = s.tpsSingletons) (hclients : s'.clients = q.addr ::ₘ s.clients)
    (hgets : s'.gets = s.gets ++ [(q.tps, q.serial)]) (hserials : s'.st.serials = s.st.serials + 1)
    (hholds : Holds s'.st s'.tpsSingletons (q :: queues)) (hqueue : IsQueue s' q)
    (hobjs : ∀ a, a ≠ s.tpsSingletons → a ≠ q.addr → s'.st.objs.get a = s.st.objs.get a)
    (hdom : ∀ a ∈ s'.st.objs.dom, a = q.addr ∨ a ∈ s.st.objs.dom) : Inv s' (q :: queues) := by
  have hne : ∀ q' ∈ queues, q'.addr ≠ q.addr := by
    intro q' hq' haddr
    rcases (h.queue q' hq').get with ⟨v, hget, -⟩
    rw [haddr] at hget
    exact hfresh (Heap.mem_dom_of_get hget)
  have hlt : ∀ q' ∈ queues, q'.serial ≠ q.serial := by
    intro q' hq' heq
    have hold := (h.queue q' hq').serial
    omega
  constructor
  case holds => exact hholds
  case queue =>
    intro q' hq'
    rcases List.mem_cons.mp hq' with rfl | hq'
    · exact hqueue
    · have hold := h.queue q' hq'
      apply hold.other hc
      · omega
      · rw [hclients]
        exact Multiset.count_cons_of_ne (hne q' hq') _
      · exact hobjs q'.addr hold.ne (hne q' hq')
  case addrs => exact nodup_map_cons hne h.addrs
  case keys => exact nodup_map_cons hkey h.keys
  case serials => exact nodup_map_cons hlt h.serials
  case clients =>
    intro a ha
    rw [hclients] at ha
    rcases Multiset.mem_cons.mp ha with rfl | ha
    · exact ⟨q, List.mem_cons_self, rfl⟩
    · rcases h.clients a ha with ⟨q', hq', haddr⟩
      exact ⟨q', List.mem_cons_of_mem q hq', haddr⟩
  case alive =>
    intro a ha
    rcases hdom a ha with rfl | ha
    · exact Or.inr ⟨q, List.mem_cons_self, rfl⟩
    · rcases h.alive a ha with heq | ⟨q', hq', haddr⟩
      · left
        rw [hc]
        exact heq
      · exact Or.inr ⟨q', List.mem_cons_of_mem q hq', haddr⟩
  case gets =>
    intro g hg
    rw [hgets] at hg
    rw [hserials]
    rcases List.mem_append.mp hg with hg | hg
    · rcases h.gets g hg with ⟨hold, hsame⟩
      refine ⟨by omega, fun q' hq' hserial' => ?_⟩
      rcases List.mem_cons.mp hq' with rfl | hq'
      · omega
      · exact hsame q' hq' hserial'
    · rw [List.mem_singleton.mp hg]
      refine ⟨by omega, fun q' hq' hserial' => ?_⟩
      rcases List.mem_cons.mp hq' with rfl | hq'
      · rfl
      · exact absurd hserial' (hlt q' hq')

/-- A queue is destroyed. -/
theorem Inv.uncons (h : Inv s (q :: queues)) (hc : s'.tpsSingletons = s.tpsSingletons)
    (hclients : s'.clients = s.clients.erase q.addr) (hlast : s.clients.count q.addr = 1)
    (hgets : s'.gets = s.gets) (hserials : s'.st.serials = s.st.serials)
    (hholds : Holds s'.st s'.tpsSingletons queues)
    (hobjs : ∀ a, a ≠ s.tpsSingletons → a ≠ q.addr → s'.st.objs.get a = s.st.objs.get a)
    (hdom : ∀ a ∈ s'.st.objs.dom, a ≠ q.addr ∧ a ∈ s.st.objs.dom) : Inv s' queues := by
  have hmem : ∀ q' ∈ queues, q' ∈ q :: queues := fun q' hq' => List.mem_cons_of_mem q hq'
  have haddrs := h.addrs
  have hkeys := h.keys
  have hserialsNodup := h.serials
  rw [List.map_cons, List.nodup_cons] at haddrs hkeys hserialsNodup
  have hne : ∀ q' ∈ queues, q'.addr ≠ q.addr := fun q' hq' heq =>
    haddrs.1 (heq ▸ List.mem_map_of_mem hq')
  constructor
  case holds => exact hholds
  case queue =>
    intro q' hq'
    have hold := h.queue q' (hmem q' hq')
    apply hold.other hc hserials.ge
    · rw [hclients]
      exact Multiset.count_erase_of_ne (hne q' hq') _
    · exact hobjs q'.addr hold.ne (hne q' hq')
  case addrs => exact haddrs.2
  case keys => exact hkeys.2
  case serials => exact hserialsNodup.2
  case clients =>
    intro a ha
    rw [hclients] at ha
    have hneq : a ≠ q.addr := by
      rintro rfl
      have hpos := Multiset.count_pos.mpr ha
      rw [Multiset.count_erase_self, hlast] at hpos
      omega
    rcases h.clients a (Multiset.mem_of_mem_erase ha) with ⟨q', hq', haddr⟩
    rcases List.mem_cons.mp hq' with rfl | hq'
    · exact absurd haddr.symm hneq
    · exact ⟨q', hq', haddr⟩
  case alive =>
    intro a ha
    rcases hdom a ha with ⟨hneq, ha⟩
    rw [hc]
    rcases h.alive a ha with heq | ⟨q', hq', haddr⟩
    · exact Or.inl heq
    · rcases List.mem_cons.mp hq' with rfl | hq'
      · exact absurd haddr.symm hneq
      · exact Or.inr ⟨q', hq', haddr⟩
  case gets =>
    rw [hgets, hserials]
    intro g hg
    rcases h.gets g hg with ⟨hlt, hsame⟩
    exact ⟨hlt, fun q' hq' => hsame q' (hmem q' hq')⟩

theorem lock_log (hc : c ≠ NULL) (hp : st.objs.get c = some p) :
    ∃ t, objLock st c = .ok (st.log t) := lockIf_log st hc hp true

theorem unlock_log (hc : c ≠ NULL) (hp : st.objs.get c = some p) :
    ∃ t, objUnlock st c = .ok (st.log t) := unlockIf_log st hc hp true

theorem Holds.unlock {queues : List Queue} (h : Holds st c queues) :
    ∃ t, objUnlock st c = .ok (st.log t) := by
  rcases h.container with ⟨p, cont, data, hp, -⟩
  exact unlock_log h.null hp

/-- Only the container itself says what is in it. -/
theorem Holds.of_get {st' : State Tps} {queues : List Queue} (h : Holds st c queues)
    (hget : st'.objs.get c = st.objs.get c) : Holds st' c queues := by
  rcases h.container with ⟨p, cont, data, hp, hcont⟩
  exact ⟨h.null, p, cont, data, hget.trans hp, hcont⟩

/-! ## Linking and unlinking -/

theorem spdAtomicFetchaddInt_wrap (m : Machine) (x d : Int32) :
    spdAtomicFetchaddInt m.toWrap x d = .ok (x + d) := by
  rw [spdAtomicFetchaddInt]
  rfl

/-- An entry is put at the end of a bucket. -/
theorem IsSingletons.link (h : IsSingletons data cont) {i : Int32} {k : Nat}
    (hi : linkIndex cont ⟨q.addr, some q.tps⟩ = .ok i) (hk : bucketIndex cont i.toInt = .ok k)
    (haddr : e.pobj = q.addr) (hfresh : e.addr ∉ cont.entryAddrs) (version elements : Int32)
    (hperm : (cont.buckets.flatten.map fun e => (e.pobj, data e.addr)).Perm
      (queues.map fun q => (q.addr, some q.tps))) :
    IsSingletons (Function.update data e.addr (some q.tps))
        { cont.insertTail k e with version := version, elements := elements } ∧
      ((cont.insertTail k e).buckets.flatten.map fun e' =>
        (e'.pobj, Function.update data e.addr (some q.tps) e'.addr)).Perm
          ((q :: queues).map fun q => (q.addr, some q.tps)) := by
  have hnew : ∀ e' ∈ cont.buckets.flatten, e'.addr ≠ e.addr := by
    intro e' he' heq
    apply hfresh
    rw [ObjContainer.entryAddrs, List.mem_toFinset, ← heq]
    exact List.mem_map_of_mem he'
  have hbucket := List.getElem?_eq_getElem (bucketIndex_eq_ok hk).2
  have hflatten : (cont.insertTail k e).buckets.flatten.Perm (e :: cont.buckets.flatten) :=
    Buckets.perm_insert hbucket
  constructor
  · rw [← haddr] at hi
    refine ⟨h.linked.link hi hk hfresh version elements, h.hash, h.cmp, ?_⟩
    apply (hflatten.map BucketEntry.addr).nodup_iff.mpr
    rw [List.map_cons, List.nodup_cons]
    constructor
    · intro hmem
      rcases List.mem_map.mp hmem with ⟨e', he', heq⟩
      exact hnew e' he' heq
    · exact h.addrs
  · apply (hflatten.map _).trans
    rw [List.map_cons, List.map_cons, Function.update_self, haddr]
    apply List.Perm.cons
    have hold : cont.buckets.flatten.map (fun e' =>
        (e'.pobj, Function.update data e.addr (some q.tps) e'.addr)) =
        cont.buckets.flatten.map fun e' => (e'.pobj, data e'.addr) := by
      apply List.map_congr_left
      intro e' he'
      rw [Function.update_of_ne (hnew e' he')]
    rw [hold]
    exact hperm

/-- An entry is taken out. -/
theorem IsSingletons.unlink (h : IsSingletons data cont) {k : Nat} {pre post : List BucketEntry}
    (hb : cont.buckets[k]? = some (pre ++ e :: post)) (haddr : e.pobj = q.addr)
    (hdata : data e.addr = some q.tps) (version elements : Int32)
    (hperm : (cont.buckets.flatten.map fun e => (e.pobj, data e.addr)).Perm
      ((q :: queues).map fun q => (q.addr, some q.tps))) :
    IsSingletons data
        { cont.removeEntry k e.addr with version := version, elements := elements } ∧
      ((cont.removeEntry k e.addr).buckets.flatten.map fun e => (e.pobj, data e.addr)).Perm
          (queues.map fun q => (q.addr, some q.tps)) := by
  have hflatten := removeEntry_perm h.addrs hb
  constructor
  · refine ⟨h.linked.unlink hb version elements, h.hash, h.cmp, ?_⟩
    have haddrs := (hflatten.map BucketEntry.addr).nodup_iff.mp h.addrs
    rw [List.map_cons, List.nodup_cons] at haddrs
    exact haddrs.2
  · have hcons := (hflatten.map fun e => (e.pobj, data e.addr)).symm.trans hperm
    rw [List.map_cons, List.map_cons, haddr, hdata] at hcons
    exact hcons.cons_inv

theorem holds_of_objs {st' : State Tps} {a : Addr} {b : Obj Tps} (hnull : c ≠ NULL) (hne : a ≠ c)
    (hobjs : st'.objs = (st.objs.set c p).set a b) (hu : p.userData = .container cont)
    (hsing : IsSingletons data cont)
    (hperm : (cont.buckets.flatten.map fun e => (e.pobj, data e.addr)).Perm
      (queues.map fun q => (q.addr, some q.tps))) : Holds st' c queues := by
  refine ⟨hnull, p, cont, data, ?_, hu, hsing, hperm⟩
  rw [hobjs, Heap.get_set_of_ne _ _ hne.symm]
  exact Heap.get_set_self _ _ _

/-- `obj_link` with a queue that is not in the container. -/
theorem objLink_holds (hcalloc : ∀ n live, m.calloc n live ≠ none) (h : Holds st c queues)
    (hne : q.addr ≠ c) (hnull : q.addr ≠ NULL)
    (hhash : spdStrCaseHash q.tps.name ≠ Int32.minValue) {v : Int32}
    (hget : st.objs.get q.addr = some ⟨v, some .user, .data q.tps, q.serial⟩) (hge : 0 ≤ v.toInt)
    (hlt : v.toInt + 1 < 2 ^ 31) : ∃ entry st' p', entry ≠ NULL ∧
      objLink m.toWrap st c q.addr {} = .ok (entry, st') ∧ Holds st' c (q :: queues) ∧
      st'.objs = (st.objs.set c p').set q.addr ⟨v + 1, some .user, .data q.tps, q.serial⟩ ∧
      st'.serials = st.serials := by
  rcases h.container with ⟨p, cont, data, hp, hu, hsing, hperm⟩
  rcases Option.ne_none_iff_exists'.mp (hcalloc st.callocs cont.entryAddrs) with ⟨entry, hentry⟩
  rcases m.calloc_fresh hentry with ⟨hfresh, hentryNull⟩
  have hentry : m.toWrap.calloc st.callocs cont.entryAddrs = some entry := hentry
  have hptr := externalObj_eq hget
  have hmin : cont.hashFn ⟨q.addr, some q.tps⟩ OBJ_POINTER ≠ Int32.minValue := by
    rw [hsing.hash]
    exact hhash
  rcases hsing.linked.nBuckets with ⟨hpos, hlen⟩
  rcases (linkIndex_range hpos ⟨q.addr, some q.tps⟩).mpr (Or.inl hmin) with ⟨i, hi, hi0, hilt⟩
  have hk : bucketIndex cont i.toInt = .ok i.toInt.toNat := if_pos ⟨hi0, by omega⟩
  rcases spdAtomicFetchaddInt_inc m.toWrap hge hlt with ⟨hv, hvpos⟩
  have hlink := objLink_eq {} h.null hnull hp hu hget hne hentry hentryNull (by decide) hptr hi hk
    (spdAtomicFetchaddInt_wrap m _ _) (spdAtomicFetchaddInt_wrap m _ _) hv hvpos
  rcases hsing.link (e := ⟨entry, cont.version, q.addr⟩) hi hk rfl hfresh (cont.version + 1)
    (cont.elements + 1) hperm with ⟨hsing', hperm'⟩
  exact ⟨entry, _, _, hentryNull, hlink, holds_of_objs h.null hne rfl rfl hsing' hperm', rfl, rfl⟩

/-- `obj_unlink` with a queue that is in the container and has a further reference. -/
theorem objUnlink_holds (h : Holds st c (q :: queues)) (hin : ∀ q' ∈ q :: queues, InStore st q')
    (haddrs : ((q :: queues).map Queue.addr).Nodup) (hne : q.addr ≠ c) {v : Int32}
    (hget : st.objs.get q.addr = some ⟨v, some .user, .data q.tps, q.serial⟩) (hgt : 1 < v.toInt) :
    ∃ st' p', objUnlink m.toWrap st c q.addr {} = .ok st' ∧ Holds st' c queues ∧
      st'.objs = (st.objs.set c p').set q.addr ⟨v + -1, some .user, .data q.tps, q.serial⟩ ∧
      st'.serials = st.serials := by
  rcases h.container with ⟨p, cont, data, hp, hu, hsing, hperm⟩
  rcases queue_entry hperm List.mem_cons_self with ⟨e, he, haddr, hdata⟩
  have hunique : ∀ e' ∈ cont.buckets.flatten, e'.pobj = e.pobj → e' = e := by
    have hpobjs : (cont.buckets.flatten.map BucketEntry.pobj).Nodup := by
      have hfst := hperm.map Prod.fst
      rw [List.map_map, List.map_map] at hfst
      exact hfst.nodup_iff.mpr haddrs
    exact fun e' he' heq => List.inj_on_of_nodup_map hpobjs he' he heq
  have hpos : ¬ v + -1 ≤ 0 := by
    rw [Int32.le_iff_toInt_le, CInt.toInt_sub_one_of_pos (by omega), Int32.toInt_zero]
    omega
  have hget' : st.objs.get e.pobj = some ⟨v, some .user, .data q.tps, q.serial⟩ := haddr ▸ hget
  have hne' : e.pobj ≠ c := haddr ▸ hne
  rcases hsing.linked.objUnlink_eq h.null hp hu (loaded_of_inStore hin hperm) he hunique hne' hget'
    (spdAtomicFetchaddInt_wrap m _ _) (spdAtomicFetchaddInt_wrap m _ _)
    (spdAtomicFetchaddInt_wrap m _ _) hpos with ⟨k, pre, post, t, hb, hunlink⟩
  rcases hsing.unlink hb haddr hdata (cont.version + 1) (cont.elements + -1) hperm with
    ⟨hsing', hperm'⟩
  rw [haddr] at hunlink
  exact ⟨_, _, hunlink, holds_of_objs h.null hne rfl rfl hsing' hperm', rfl, rfl⟩

end

end Spider.TaskQueue.Singletons
