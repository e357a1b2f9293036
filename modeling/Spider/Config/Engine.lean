import Spider.Strings
import Spider.Lib.Linked
import Spider.Lib.Run

/-!
# The registry of configuration engines

`config_engine_list` is the head of a chain of engines that their owners
allocate (`struct spd_config_engine`, `config.h:79-83`). Registering walks to
the end of the chain; deregistering takes an engine out and leaves its `next`
field as it was.
-/

namespace Spider.Config.Engines

open Lib Outcome CString Strings

/-- The address of an engine. -/
abbrev Addr := Nat

/-- `struct spd_config_engine`; `load_func` is null or some loader. -/
structure Engine where
  name : CString
  loadFunc : Option Nat
  next : Option Addr
  deriving DecidableEq, Repr

/-- `struct spd_config_map` (`config.c:38-45`), an entry of `config_maps`. -/
structure ConfigMap where
  name : CString
  driver : CString
  database : CString
  table : Option CString
  deriving DecidableEq, Repr

/-- The engines there are, and `config_engine_list`. -/
structure St where
  heap : Heap Engine
  configEngineList : Option Addr

/-- Reading an engine. -/
def deref (h : Heap Engine) (a : Addr) : Outcome Engine :=
  match h.get a with
  | some e => .ok e
  | none => .fault

/-- `p->next = next`. -/
def St.setNext (st : St) (p : Addr) (next : Option Addr) : Outcome St := do
  let e ← deref st.heap p
  .ok { st with heap := st.heap.set p { e with next := next } }

/-- Iterations that let a loop pass every engine there is and the end of the chain. -/
def St.fuel (st : St) : Nat := st.heap.dom.card + 1

/-- The loop `for(ptr = config_engine_list; ptr->next; ptr = ptr->next);`. -/
def lastOf (h : Heap Engine) : Nat → Addr → Outcome Addr
  | 0, _ => .timeout
  | fuel + 1, ptr => do
    let e ← deref h ptr
    match e.next with
    | none => .ok ptr
    | some p => lastOf h fuel p

/-- `spd_config_engine_register` (`config.c:1101-1117`). The name of the engine is read for
    the log. -/
def spdConfigEngineRegister (st : St) (engine : Addr) : Outcome (Int × St) := do
  let st ← match st.configEngineList with
    | none => .ok { st with configEngineList := some engine }
    | some first => do
      let ptr ← lastOf st.heap st.fuel first
      st.setNext ptr (some engine)
  let _ ← deref st.heap engine
  .ok (1, st)

/-- `spd_config_engine_deregister` (`config.c:1119-1138`). -/
def spdConfigEngineDeregister (st : St) (del : Addr) : Outcome (Int × St) := do
  let (last, ptr) ← walk Engine.next st.heap (fun ptr _ => ptr == del) st.fuel none
    st.configEngineList
  match ptr with
  | none => .ok (0, st)
  | some ptr => do
    let e ← deref st.heap ptr
    let st ← match last with
      | some l => st.setNext l e.next
      | none => .ok { st with configEngineList := e.next }
    .ok (0, st)

/-- What `find_engine` returns, and what it puts into the buffers. -/
structure Found where
  ret : Option Addr
  database : Option CString
  table : Option CString
  deriving DecidableEq, Repr

/-- `find_engine` (`config.c:1140-1166`) with buffers of these sizes, null when none is
    given. -/
def findEngine (st : St) (configMaps : List ConfigMap) (family : CString)
    (dbsiz tabsiz : Option Nat) : Outcome Found :=
  match configMaps.find? fun map => strcasecmp family map.name == 0 with
  | none => .ok ⟨none, none, none⟩
  | some map => do
    let database ← match dbsiz with
      | some size => do
        let s ← spdCopyString map.database size
        .ok (some s)
      | none => .ok none
    let table ← match tabsiz with
      | some size => do
        let s ← spdCopyString (map.table.getD family) size
        .ok (some s)
      | none => .ok none
    -- the first engine with the name of the driver
    let (_, ret) ← walk Engine.next st.heap (fun _ e => strcasecmp e.name map.driver == 0) st.fuel
      none st.configEngineList
    .ok ⟨ret, database, table⟩

/-! ## The list of registered engines -/

/-- A call that changes the list. -/
inductive Op where
  | register (engine : Addr)
  | deregister (del : Addr)
  deriving DecidableEq, Repr

/-- The result of the call and the registry after it. -/
def exec (st : St) : Op → Outcome (Int × St)
  | .register engine => spdConfigEngineRegister st engine
  | .deregister del => spdConfigEngineDeregister st del

/-- The registered engines after a call, in the order of registration. -/
def Op.apply (ns : List Addr) : Op → List Addr
  | .register engine => ns ++ [engine]
  | .deregister del => ns.erase del

/-- The registry and the registered engines after a call. -/
def step (s : St × List Addr) (op : Op) : Outcome (St × List Addr) := do
  let (_, st) ← exec s.1 op
  .ok (st, op.apply s.2)

/-- An engine is registered while it is not, and its owner has not freed it. -/
def Enabled (s : St × List Addr) : Op → Prop
  | .register engine => engine ∉ s.2 ∧ engine ∈ s.1.heap.dom
  | .deregister _ => True

/-- The `next` field of the engine registered is not null. -/
def Stale (s : St × List Addr) : Op → Prop
  | .register engine => linkOf Engine.next s.1.heap engine ≠ none
  | .deregister _ => False

/-- The list is the chain of the registered engines. -/
def Holds (s : St × List Addr) : Prop :=
  ∃ last, Linked Engine.next s.1.heap s.1.configEngineList last s.2

/-- Every traversal of `find_engine` ends. -/
def Traversable (st : St) : Prop :=
  ∀ (configMaps : List ConfigMap) (family : CString) (dbsiz tabsiz : Option Nat),
    (∀ n ∈ dbsiz, 0 < n) → (∀ n ∈ tabsiz, 0 < n) →
      ∃ r, findEngine st configMaps family dbsiz tabsiz = .ok r

section

variable {h : Heap Engine} {st : St} {a b : Addr} {e : Engine} {first last : Option Addr}
  {ns xs pre post : List Addr}

theorem deref_of_get (he : h.get a = some e) : deref h a = .ok e := by
  rw [deref, he]

theorem setNext_eq (he : st.heap.get a = some e) (p : Option Addr) :
    st.setNext a p = .ok { st with heap := st.heap.set a { e with next := p } } := by
  rw [St.setNext, deref_of_get he, ok_bind]

/-! ## Traversals -/

/-- The loop of `spd_config_engine_register` arrives at the last engine. -/
theorem lastOf_eq {k : Nat} (pre : List Addr) {post : List Addr}
    (hl : Linked Engine.next h first last (pre ++ a :: post)) (hk : post.length < k) :
    ∃ b, lastOf h k a = .ok b ∧ last = some b := by
  induction k generalizing pre a post with
  | zero => omega
  | succ k ih =>
    obtain ⟨e, he⟩ := hl.get (a := a) (by simp)
    have hnext := hl.next_eq he
    rw [lastOf, deref_of_get he, ok_bind, hnext]
    cases post with
    | nil =>
      refine ⟨a, rfl, ?_⟩
      rw [hl.chain.last, List.getLast?_concat]
    | cons b post =>
      apply ih (pre ++ [a])
      · simpa using hl
      · simpa using hk

theorem fuel_lt (hl : Linked Engine.next st.heap first last ns) : ns.length < st.fuel :=
  Nat.lt_succ_of_le hl.length_le

theorem traversable_of_linked (hl : Linked Engine.next st.heap st.configEngineList last ns) :
    Traversable st := by
  intro configMaps family dbsiz tabsiz hdb htab
  rw [findEngine]
  cases configMaps.find? fun map => strcasecmp family map.name == 0 with
  | none => exact ⟨_, rfl⟩
  | some map =>
    obtain ⟨as, bs, -, -, -, hr⟩ := hl.walk_first
      (fun _ e => strcasecmp e.name map.driver == 0) (fuel_lt hl)
    cases dbsiz with
    | none =>
      cases tabsiz with
      | none => simp [hr]
      | some n => simp [spdCopyString_eq _ (htab n rfl), hr]
    | some m =>
      cases tabsiz with
      | none => simp [spdCopyString_eq _ (hdb m rfl), hr]
      | some n => simp [spdCopyString_eq _ (hdb m rfl), spdCopyString_eq _ (htab n rfl), hr]

/-! ## `spd_config_engine_register` and `spd_config_engine_deregister` -/

/-- Registering makes the engine the last one, with whatever its `next` field holds. -/
theorem spdConfigEngineRegister_eq (hl : Linked Engine.next st.heap st.configEngineList last ns)
    (ha : a ∉ ns) (hdom : a ∈ st.heap.dom) :
    ∃ st', spdConfigEngineRegister st a = .ok (1, st') ∧
      linkOf Engine.next st'.heap a = linkOf Engine.next st.heap a ∧
      (linkOf Engine.next st.heap a = none →
        Linked Engine.next st'.heap st'.configEngineList (some a) (ns ++ [a])) := by
  obtain ⟨e, he⟩ := Heap.mem_dom.mp hdom
  cases hlist : st.configEngineList with
  | none =>
    obtain rfl : ns = [] := hl.chain.first_eq_none.mp hlist
    refine ⟨{ st with configEngineList := some a }, ?_, rfl, fun hnull => ?_⟩
    · simp only [spdConfigEngineRegister, hlist, ok_bind, deref_of_get he]
    · exact .single hdom hnull
  | some first =>
    obtain ⟨post, rfl⟩ : ∃ post, ns = first :: post := by
      have hfirst := hl.chain.first_eq
      rw [hlist] at hfirst
      cases ns with
      | nil => cases hfirst
      | cons x post =>
        obtain rfl := Option.some.inj hfirst
        exact ⟨post, rfl⟩
    obtain ⟨b, hb, rfl⟩ := lastOf_eq (k := st.fuel) [] hl
      (Nat.lt_of_succ_lt (fuel_lt hl))
    obtain ⟨ys, hys⟩ := hl.chain.last_eq_some
    have hmem : b ∈ first :: post := by
      rw [hys]
      simp
    obtain ⟨f, hf⟩ := hl.get hmem
    have hab : a ≠ b := by
      rintro rfl
      exact ha hmem
    let heap' := st.heap.set b { f with next := some a }
    have he' : heap'.get a = some e := (Heap.get_set_of_ne _ _ hab).trans he
    refine ⟨⟨heap', some first⟩, ?_, ?_, fun hnull => ?_⟩
    · simp only [spdConfigEngineRegister, hlist, hb, ok_bind, setNext_eq hf]
      rw [deref_of_get he', ok_bind]
    · rw [linkOf_of_get he', linkOf_of_get he]
    · rw [hlist] at hl
      exact hl.append ha hdom hnull rfl

/-- Deregistering takes the engine out, if it is there. -/
theorem spdConfigEngineDeregister_eq
    (hl : Linked Engine.next st.heap st.configEngineList last ns) (a : Addr) :
    ∃ st' last', spdConfigEngineDeregister st a = .ok (0, st') ∧
      Linked Engine.next st'.heap st'.configEngineList last' (ns.erase a) := by
  obtain ⟨pre, bs, rfl, hmiss, hhit, hwalk⟩ := hl.walk_first (fun ptr _ => ptr == a) (fuel_lt hl)
  have hpre : a ∉ pre := by
    intro hin
    obtain ⟨e, he⟩ := hl.get (List.mem_append_left bs hin)
    simpa using hmiss a hin e he
  rw [spdConfigEngineDeregister, hwalk, ok_bind]
  cases bs with
  | nil =>
    refine ⟨st, last, rfl, ?_⟩
    rw [List.append_nil] at hl ⊢
    rw [List.erase_of_not_mem hpre]
    exact hl
  | cons b post =>
    obtain ⟨e, he, hb⟩ := hhit b rfl
    obtain rfl : b = a := by simpa using hb
    have hnext : e.next = linkOf Engine.next st.heap b := (linkOf_of_get he).symm
    rw [List.erase_append_right _ hpre, List.erase_cons_head, List.head?_cons]
    simp only [deref_of_get he, ok_bind]
    rcases pre.eq_nil_or_concat' with rfl | ⟨pre, q, rfl⟩
    · have htail := hl.tail
      rw [← hnext] at htail
      exact ⟨_, _, rfl, htail⟩
    · obtain ⟨f, hf⟩ := hl.get (a := q) (by simp)
      have hl' : Linked Engine.next st.heap st.configEngineList last (pre ++ q :: b :: post) := by
        simpa using hl
      have hremove := hl'.remove (v := { f with next := e.next }) hnext
      rw [List.append_cons] at hremove
      simp only [List.getLast?_concat, setNext_eq hf, ok_bind]
      exact ⟨_, _, rfl, hremove⟩

/-! ## Runs -/

/-- What holds in every state: the list is the chain of the registered engines, and it can be
    searched. -/
def Proper (s : St × List Addr) : Prop := Holds s ∧ Traversable s.1

theorem step_good {s : St × List Addr} {op : Op} (hs : Proper s) (he : Enabled s op)
    (hgood : ¬ Stale s op) : ∃ s', step s op = .ok s' ∧ Proper s' := by
  obtain ⟨⟨last, hl⟩, -⟩ := hs
  cases op with
  | register a =>
    obtain ⟨st', hst', -, hl'⟩ := spdConfigEngineRegister_eq hl he.1 he.2
    have hnull : linkOf Engine.next s.1.heap a = none := not_not.mp hgood
    refine ⟨(st', s.2 ++ [a]), ?_, ⟨_, hl' hnull⟩, traversable_of_linked (hl' hnull)⟩
    simp only [step, exec, hst', ok_bind, Op.apply]
  | deregister a =>
    obtain ⟨st', last', hst', hl'⟩ := spdConfigEngineDeregister_eq hl a
    refine ⟨(st', s.2.erase a), ?_, ⟨_, hl'⟩, traversable_of_linked hl'⟩
    simp only [step, exec, hst', ok_bind, Op.apply]

theorem step_bad {s s' : St × List Addr} {op : Op} (hs : Proper s) (he : Enabled s op)
    (hbad : Stale s op) (hstep : step s op = .ok s') : ¬ Proper s' := by
  obtain ⟨⟨last, hl⟩, -⟩ := hs
  cases op with
  | deregister a => exact hbad.elim
  | register a =>
    obtain ⟨st', hst', hnext, -⟩ := spdConfigEngineRegister_eq hl he.1 he.2
    simp only [step, exec, hst', ok_bind, Op.apply, Outcome.ok.injEq] at hstep
    obtain rfl := hstep
    -- the engine is the last of the list, so its `next` field would have to be null
    rintro ⟨⟨last', hl'⟩, -⟩
    have hnull := hl'.linkOf_eq
    rw [hnext] at hnull
    exact hbad hnull

/-- The list of engines is a proper list in every state of a run exactly when every engine
    registered has a null `next` field at that moment. -/
theorem engineList_proper_iff (ops : List Op) {s : St × List Addr} (hs : Holds s)
    (hlegal : Run.Legal step Enabled s ops) :
    Run.Always step Proper s ops ↔ Run.Legal step (fun s op => ¬ Stale s op) s ops := by
  obtain ⟨last, hl⟩ := hs
  exact Run.always_iff (fun _ _ => step_good) (fun _ _ _ => step_bad) ops
    ⟨⟨last, hl⟩, traversable_of_linked hl⟩ hlegal

end

/-! ## An engine registered twice -/

/-- Two engines that are not registered. -/
def twoEngines : St × List Addr :=
  (⟨((∅ : Heap Engine).set 1 ⟨lit "a", some 0, none⟩).set 2 ⟨lit "b", some 0, none⟩, none⟩, [])

theorem twoEngines_holds : Holds twoEngines := ⟨none, .nil _⟩

/-- Both engines are registered, the first one is taken out, and registered again. -/
def again : List Op := [.register 1, .register 2, .deregister 1, .register 1]

/-- The engine still points to the one behind it: the list is a cycle, and the next
    registration never returns. -/
theorem engineList_cycle : Holds twoEngines ∧ Run.Legal step Enabled twoEngines again ∧
    ∃ s, Run.run step twoEngines again = .ok s ∧ s.2 = [2, 1] ∧
      s.1.configEngineList = some 2 ∧ linkOf Engine.next s.1.heap 2 = some 1 ∧
      linkOf Engine.next s.1.heap 1 = some 2 ∧
      spdConfigEngineRegister s.1 3 = .timeout ∧ ¬ Holds s := by
  let a : Engine := ⟨lit "a", some 0, none⟩
  let b : Engine := ⟨lit "b", some 0, none⟩
  let h0 : Heap Engine := twoEngines.1.heap
  let h1 : Heap Engine := h0.set 1 { a with next := some 2 }
  let h2 : Heap Engine := h1.set 2 { b with next := some 1 }
  let s1 : St × List Addr := (⟨h0, some 1⟩, [1])
  let s2 : St × List Addr := (⟨h1, some 1⟩, [1, 2])
  let s3 : St × List Addr := (⟨h1, some 2⟩, [2])
  let s4 : St × List Addr := (⟨h2, some 2⟩, [2, 1])
  have e1 : step twoEngines (.register 1) = .ok s1 := by with_unfolding_all rfl
  have e2 : step s1 (.register 2) = .ok s2 := by with_unfolding_all rfl
  have e3 : step s2 (.deregister 1) = .ok s3 := by with_unfolding_all rfl
  have e4 : step s3 (.register 1) = .ok s4 := by with_unfolding_all rfl
  have hdom : ∀ {s : St × List Addr} {c : Addr} {e : Engine}, s.1.heap.get c = some e →
      c ∉ s.2 → Enabled s (.register c) := fun he hc => ⟨hc, Heap.mem_dom_of_get he⟩
  have hlegal : Run.Legal step Enabled twoEngines again := by
    apply Run.legal_cons_of_ok e1 (hdom (e := a) (by with_unfolding_all rfl) (by decide))
    apply Run.legal_cons_of_ok e2 (hdom (e := b) (by with_unfolding_all rfl) (by decide))
    apply Run.legal_cons_of_ok e3 trivial
    refine ⟨?_, fun _ _ => trivial⟩
    exact hdom (e := { a with next := some 2 }) (by with_unfolding_all rfl) (by decide)
  refine ⟨twoEngines_holds, hlegal, s4, ?_, rfl, rfl, by with_unfolding_all rfl,
    by with_unfolding_all rfl, by with_unfolding_all rfl, ?_⟩
  · rw [again, Run.run_cons_of_ok e1, Run.run_cons_of_ok e2, Run.run_cons_of_ok e3,
      Run.run_cons_of_ok e4, Run.run_nil]
  · rintro ⟨last, hl⟩
    have hcycle : Linked Engine.next h2 (some 2) last ([2] ++ 1 :: []) := hl
    have hnull : linkOf Engine.next h2 1 = none := hcycle.linkOf_eq
    have hsome : linkOf Engine.next h2 1 = some 2 := by with_unfolding_all rfl
    rw [hsome] at hnull
    cases hnull

/-- Registering both engines once keeps the list proper. -/
theorem engineList_proper_iff_once :
    Run.Always step Proper twoEngines [.register 1, .register 2] := by
  let s1 : St × List Addr := (⟨twoEngines.1.heap, some 1⟩, [1])
  have e1 : step twoEngines (.register 1) = .ok s1 := by with_unfolding_all rfl
  have hlegal : Run.Legal step Enabled twoEngines [.register 1, .register 2] := by
    have hlast : Run.Legal step Enabled s1 [.register 2] := by
      refine ⟨⟨by decide, ?_⟩, fun _ _ => trivial⟩
      exact Heap.mem_dom_of_get (b := ⟨lit "b", some 0, none⟩) (by with_unfolding_all rfl)
    apply Run.legal_cons_of_ok e1 ⟨by decide, ?_⟩ hlast
    exact Heap.mem_dom_of_get (b := ⟨lit "a", some 0, none⟩) (by with_unfolding_all rfl)
  apply (engineList_proper_iff _ twoEngines_holds hlegal).mpr
  refine Run.legal_cons_of_ok e1 (not_not.mpr (by with_unfolding_all rfl)) ?_
  exact ⟨not_not.mpr (by with_unfolding_all rfl), fun _ _ => trivial⟩

end Spider.Config.Engines
