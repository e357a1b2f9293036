import Spider.Lib.CString
import Spider.Lib.Chain
import Spider.Lib.Heap
import Spider.Lib.Run

/-!
# The variables of a section

A section holds its variables in a chain with a pointer to the last one
(`struct spd_section`, `config.h:51-61`). The functions here splice that chain:
append, update, delete, and the move from another section. The plain list of
nodes says what they are for.
-/

namespace Spider.Config

open Lib Outcome CString

/-- The address of a variable. -/
abbrev Addr := Nat

/-- `struct spd_variable` (`config.h:32-43`), without what no function here reads. -/
structure Variable where
  name : CString
  value : CString
  object : Int32
  next : Option Addr
  deriving DecidableEq, Repr

/-- The chain of a section, `root` and `last` of `struct spd_section`. -/
structure Section where
  root : Option Addr := none
  last : Option Addr := none
  deriving DecidableEq, Repr

/-- A section and the variables allocated. -/
structure St where
  heap : Heap Variable
  category : Section

/-- Reading a variable. -/
def deref (h : Heap Variable) (a : Addr) : Outcome Variable :=
  match h.get a with
  | some v => .ok v
  | none => .fault

namespace St

/-- `p->next = next`. -/
def setNext (st : St) (p : Addr) (next : Option Addr) : Outcome St := do
  let v ← deref st.heap p
  .ok { st with heap := st.heap.set p { v with next := next } }

/-- `category->root = p` and `category->last = p`. -/
def setRoot (st : St) (p : Option Addr) : St :=
  { st with category := { st.category with root := p } }

@[inherit_doc setRoot]
def setLast (st : St) (p : Option Addr) : St :=
  { st with category := { st.category with last := p } }

/-- Iterations that let a loop pass every variable there is and the end of the chain. -/
def fuel (st : St) : Nat := st.heap.dom.card + 1

end St

/-- The loop `while (last->next) last = last->next;`. -/
def lastOf (h : Heap Variable) : Nat → Addr → Outcome Addr
  | 0, _ => .timeout
  | fuel + 1, a => do
    let v ← deref h a
    match v.next with
    | none => .ok a
    | some b => lastOf h fuel b

/-- `spd_variable_append` (`config.c:144-155`). -/
def spdVariableAppend (st : St) (var : Option Addr) : Outcome St :=
  match var with
  | none => .ok st
  | some v => do
    let st ← match st.category.last with
      | some last => st.setNext last (some v)
      | none => .ok (st.setRoot (some v))
    let last ← lastOf st.heap st.fuel v
    .ok (st.setLast (some last))

/-- `spd_variables_destroy` (`config.c:157-166`). -/
def spdVariablesDestroy : Nat → Heap Variable → Option Addr → Outcome (Heap Variable)
  | 0, _, _ => .timeout
  | _ + 1, h, none => .ok h
  | fuel + 1, h, some var => do
    let v ← deref h var
    spdVariablesDestroy fuel (h.free var) v.next

/-- The end of both loops of `spd_variable_delete` and of the loop of
    `spd_variable_update`: the variable `cur`, out of the chain by now, is freed. -/
def destroyOne (st : St) (cur : Addr) : Outcome St := do
  let st ← st.setNext cur none
  let h ← spdVariablesDestroy st.fuel st.heap (some cur)
  .ok { st with heap := h }

/-- Taking `cur` out of the chain in `spd_variable_delete` (`config.c:405-416` and
    `427-438`). -/
def unlink (st : St) (prev : Option Addr) (cur : Addr) : Outcome St := do
  let v ← deref st.heap cur
  let st ← match prev with
    | some p => do
      let st ← st.setNext p v.next
      .ok (if st.category.last = some cur then st.setLast (some p) else st)
    | none =>
      let st := st.setRoot v.next
      .ok (if st.category.last = some cur then st.setLast none else st)
  destroyOne st cur

/-- The `variable` argument of `spd_variable_delete`: some string, or the `name` field of a
    variable, which the function compares as a pointer. -/
inductive NameArg where
  | text (s : CString)
  | nameOf (a : Addr)
  deriving DecidableEq, Repr

/-- `spd_strlen_zero(match) || !strcasecmp(value, match)`. -/
def valueMatches (value : CString) (mtch : Option CString) : Bool :=
  match mtch with
  | none => true
  | some s => s.isEmpty || strcasecmp value s == 0

/-- The comparison of the second loop of `spd_variable_delete` and of
    `spd_variable_update`. -/
def nameMatches (name value var : CString) (mtch : Option CString) : Bool :=
  strcasecmp name var == 0 && valueMatches value mtch

/-- The first loop of `spd_variable_delete` (`config.c:402-421`): the variable whose name
    is at this address. -/
def deleteByPointer (st : St) (a : Addr) : Nat → Option Addr → Option Addr → Outcome (Option St)
  | 0, _, _ => .timeout
  | _ + 1, _, none => .ok none
  | fuel + 1, prev, some cur => do
    let v ← deref st.heap cur
    if cur = a then do
      let st ← unlink st prev cur
      .ok (some st)
    else deleteByPointer st a fuel (some cur) v.next

/-- The second loop of `spd_variable_delete` (`config.c:423-444`): all variables that
    match. -/
def deleteByName (var : CString) (mtch : Option CString) :
    Nat → St → Option Addr → Option Addr → Int → Outcome (Int × St)
  | 0, _, _, _, _ => .timeout
  | _ + 1, st, _, none, res => .ok (res, st)
  | fuel + 1, st, prev, some cur, res => do
    let v ← deref st.heap cur
    if nameMatches v.name v.value var mtch then do
      let st ← unlink st prev cur
      deleteByName var mtch fuel st prev v.next 0
    else deleteByName var mtch fuel st (some cur) v.next res

/-- `spd_variable_delete` (`config.c:397-445`). -/
def spdVariableDelete (st : St) (var : NameArg) (mtch : Option CString) :
    Outcome (Int × St) :=
  match var with
  | .text s => deleteByName s mtch st.fuel st none st.category.root (-1)
  | .nameOf a => do
    match ← deleteByPointer st a st.fuel none st.category.root with
    | some st => .ok (0, st)
    | none => do
      let v ← deref st.heap a
      deleteByName v.name mtch st.fuel st none st.category.root (-1)

/-- The loop of `spd_variable_update` (`config.c:459-484`): the variable `newer` takes the
    place of the first one that matches, or comes behind the last one. -/
def updateLoop (newer : Addr) (var value : CString) (mtch : Option CString)
    (object : UInt32) : Nat → St → Option Addr → Option Addr → Outcome St
  | 0, _, _, _ => .timeout
  | _ + 1, st, prev, none =>
    match prev with
    | some p => st.setNext p (some newer)
    | none => .ok (st.setRoot (some newer))
  | fuel + 1, st, prev, some cur => do
    let v ← deref st.heap cur
    if nameMatches v.name v.value var mtch then do
      let newObject : Int32 := if v.object ≠ 0 ∨ object ≠ 0 then 1 else 0
      let st := { st with heap := st.heap.set newer ⟨var, value, newObject, v.next⟩ }
      let st ← match prev with
        | some p => st.setNext p (some newer)
        | none => .ok (st.setRoot (some newer))
      let st := if st.category.last = some cur then st.setLast (some newer) else st
      destroyOne st cur
    else updateLoop newer var value mtch object fuel st (some cur) v.next

/-- `spd_variable_update` (`config.c:448-484`); `newer` is what `spd_variable_new` returns
    (`config.c:129-142`). -/
def spdVariableUpdate (st : St) (newer : Option Addr) (var value : CString)
    (mtch : Option CString) (object : UInt32) : Outcome (Int × St) :=
  match newer with
  | none => .ok (-1, st)
  | some a => do
    let st := { st with heap := st.heap.set a ⟨var, value, object.toInt32, none⟩ }
    let st ← updateLoop a var value mtch object st.fuel st none st.category.root
    .ok (0, st)

/-- `move_variables` (`config.c:223-229`): the other section, and this one. -/
def moveVariables (old : Section) (st : St) : Outcome (Section × St) := do
  let st ← spdVariableAppend st old.root
  .ok ({ old with root := none }, st)

/-! ## Plain lists -/

/-- A variable and where it is stored. -/
structure Node where
  addr : Addr
  name : CString
  value : CString
  object : Int32
  deriving DecidableEq, Repr

/-- One call that changes the section. `ys` are the nodes of the chain handed over. -/
inductive Op where
  | append (var : Option Addr) (ys : List Node)
  | moveVariables (old : Section) (ys : List Node)
  | update (newer : Option Addr) (var value : CString) (mtch : Option CString)
      (object : UInt32)
  | delete (var : NameArg) (mtch : Option CString)

/-- The result of the call and the section after it. -/
def exec (st : St) : Op → Outcome (Int × St)
  | .append v _ => do
    let st ← spdVariableAppend st v
    .ok (0, st)
  | .moveVariables old _ => do
    let (_, st) ← moveVariables old st
    .ok (0, st)
  | .update newer n v mtch object => spdVariableUpdate st newer n v mtch object
  | .delete n mtch => spdVariableDelete st n mtch

/-- The node matches the arguments of an update or a delete. -/
def Node.Matches (var : CString) (mtch : Option CString) (n : Node) : Bool :=
  nameMatches n.name n.value var mtch

/-- The first matching node is replaced, or the new one appended. -/
def updateList (a : Addr) (var value : CString) (mtch : Option CString) (object : UInt32) :
    List Node → List Node
  | [] => [⟨a, var, value, object.toInt32⟩]
  | n :: ns =>
    if n.Matches var mtch then
      ⟨a, var, value, if n.object ≠ 0 ∨ object ≠ 0 then 1 else 0⟩ :: ns
    else n :: updateList a var value mtch object ns

/-- The matching nodes are removed. -/
def deleteList (h : Heap Variable) (var : NameArg) (mtch : Option CString)
    (ns : List Node) : List Node :=
  match var with
  | .text s => ns.filter fun n => !n.Matches s mtch
  | .nameOf a =>
    if ∃ n ∈ ns, n.addr = a then ns.filter fun n => n.addr ≠ a
    else match h.get a with
      | some v => ns.filter fun n => !n.Matches v.name mtch
      | none => ns

/-- What the call means for the list. -/
def Op.apply (st : St) (ns : List Node) : Op → List Node
  | .append _ ys => ns ++ ys
  | .moveVariables _ ys => ns ++ ys
  | .update none .. => ns
  | .update (some a) n v mtch object => updateList a n v mtch object ns
  | .delete n mtch => deleteList st.heap n mtch ns

/-- `next` as a function. -/
def nextOf (h : Heap Variable) (a : Addr) : Option Addr := (h.get a).bind Variable.next

/-- The chain from `first` to `last` holds the nodes `ns`. -/
structure ChainOf (h : Heap Variable) (c : Section) (ns : List Node) : Prop where
  chain : Chain (nextOf h) c.root c.last (ns.map Node.addr)
  cells : ∀ n ∈ ns, h.get n.addr = some ⟨n.name, n.value, n.object, nextOf h n.addr⟩

/-- What the caller of each function sees to: the chain handed over is one, and no part
    of the section; memory that is allocated is new; a name that is passed is there. -/
def Enabled (st : St) (ns : List Node) : Op → Prop
  | .append v ys => (∃ last, ChainOf st.heap ⟨v, last⟩ ys) ∧
      (ns.map Node.addr).Disjoint (ys.map Node.addr)
  | .moveVariables old ys => (∃ last, ChainOf st.heap ⟨old.root, last⟩ ys) ∧
      (ns.map Node.addr).Disjoint (ys.map Node.addr)
  | .update newer .. => ∀ a ∈ newer, a ∉ st.heap.dom
  | .delete n _ => ∀ a, n = .nameOf a → a ∈ st.heap.dom

/-- An update that finds no match, so that its new variable is appended. -/
def FallsThrough (ns : List Node) : Op → Prop
  | .update (some _) n _ mtch _ => ∀ m ∈ ns, m.Matches n mtch = false
  | _ => False

instance (h : Heap Variable) (c : Section) (ns : List Node) : Decidable (ChainOf h c ns) :=
  decidable_of_iff (Chain (nextOf h) c.root c.last (ns.map Node.addr) ∧
      ∀ n ∈ ns, h.get n.addr = some ⟨n.name, n.value, n.object, nextOf h n.addr⟩)
    ⟨fun h => ⟨h.1, h.2⟩, fun h => ⟨h.chain, h.cells⟩⟩

/-- The last node is known from the list. -/
theorem exists_chainOf_iff {h : Heap Variable} {root : Option Addr} {ns : List Node} :
    (∃ last, ChainOf h ⟨root, last⟩ ns) ↔ ChainOf h ⟨root, (ns.map Node.addr).getLast?⟩ ns := by
  constructor
  · rintro ⟨last, hc⟩
    rw [← hc.chain.last]
    exact hc
  · intro hc
    exact ⟨_, hc⟩

instance (h : Heap Variable) (root : Option Addr) (ns : List Node) :
    Decidable (∃ last, ChainOf h ⟨root, last⟩ ns) :=
  decidable_of_iff' _ exists_chainOf_iff

instance (xs ys : List Addr) : Decidable (xs.Disjoint ys) :=
  inferInstanceAs (Decidable (∀ x ∈ xs, x ∈ ys → False))

instance : ∀ (st : St) (ns : List Node) (op : Op), Decidable (Enabled st ns op)
  | st, ns, .append v ys => inferInstanceAs (Decidable ((∃ last, ChainOf st.heap ⟨v, last⟩ ys) ∧
      (ns.map Node.addr).Disjoint (ys.map Node.addr)))
  | st, ns, .moveVariables old ys =>
    inferInstanceAs (Decidable ((∃ last, ChainOf st.heap ⟨old.root, last⟩ ys) ∧
      (ns.map Node.addr).Disjoint (ys.map Node.addr)))
  | st, _, .update newer .. => inferInstanceAs (Decidable (∀ a ∈ newer, a ∉ st.heap.dom))
  | st, _, .delete (.nameOf a) _ =>
    decidable_of_iff (a ∈ st.heap.dom)
      ⟨fun h _ hb => NameArg.nameOf.inj hb ▸ h, fun h => h a rfl⟩
  | _, _, .delete (.text _) _ => isTrue fun _ h => NameArg.noConfusion h

instance : ∀ (ns : List Node) (op : Op), Decidable (FallsThrough ns op)
  | ns, .update (some _) n _ mtch _ =>
    inferInstanceAs (Decidable (∀ m ∈ ns, m.Matches n mtch = false))
  | _, .update none .. | _, .append .. | _, .moveVariables .. | _, .delete .. =>
    inferInstanceAs (Decidable False)

/-! ## Single writes -/

section

variable {h : Heap Variable} {st : St} {c : Section} {ns pre post ys : List Node} {n : Node}
  {a : Addr} {v : Variable} {p : Option Addr}

theorem deref_of_get (hv : h.get a = some v) : deref h a = .ok v := by
  rw [deref, hv]

theorem nextOf_set (h : Heap Variable) (a : Addr) (v : Variable) :
    nextOf (h.set a v) = Function.update (nextOf h) a v.next := by
  funext b
  by_cases hb : b = a
  · subst hb
    simp [nextOf]
  · rw [Function.update_of_ne hb, nextOf, nextOf, Heap.get_set_of_ne _ _ hb]

theorem setNext_eq (hv : st.heap.get a = some v) (p : Option Addr) :
    st.setNext a p = .ok { st with heap := st.heap.set a { v with next := p } } := by
  rw [St.setNext, deref_of_get hv, ok_bind]

theorem ChainOf.of_cells (hc : Chain (nextOf h) c.root c.last (ns.map Node.addr))
    (hcells : ∀ n ∈ ns, ∃ p, h.get n.addr = some ⟨n.name, n.value, n.object, p⟩) :
    ChainOf h c ns := by
  refine ⟨hc, fun n hn => ?_⟩
  obtain ⟨p, hp⟩ := hcells n hn
  rw [nextOf, hp, Option.bind_some]

theorem ChainOf.mem_dom (hc : ChainOf h c ns) (hn : n ∈ ns) : n.addr ∈ h.dom :=
  Heap.mem_dom_of_get (hc.cells n hn)

theorem ChainOf.length_le (hc : ChainOf h c ns) : ns.length ≤ h.dom.card := by
  rw [← List.length_map Node.addr, ← List.toFinset_card_of_nodup hc.chain.nodup]
  apply Finset.card_le_card
  intro a ha
  obtain ⟨n, hn, rfl⟩ := List.mem_map.mp (List.mem_toFinset.mp ha)
  exact hc.mem_dom hn

/-- Nodes at other places are as they were. -/
theorem ChainOf.frame (hc : ChainOf h c ns) {h' : Heap Variable}
    (hsame : ∀ n ∈ ns, h'.get n.addr = h.get n.addr) : ChainOf h' c ns := by
  refine ⟨hc.chain.congr fun a ha => ?_, fun n hn => ?_⟩
  · obtain ⟨n, hn, rfl⟩ := List.mem_map.mp ha
    rw [nextOf, nextOf, hsame n hn]
  · rw [hsame n hn, hc.cells n hn, nextOf, nextOf, hsame n hn]

/-- A node whose `next` field is written keeps its data. -/
theorem ChainOf.cells_set (hc : ChainOf h c ns) (hn : n ∈ ns) (p : Option Addr) :
    ∀ m ∈ ns, ∃ q, (h.set n.addr ⟨n.name, n.value, n.object, p⟩).get m.addr
      = some ⟨m.name, m.value, m.object, q⟩ := by
  intro m hm
  by_cases hmn : m.addr = n.addr
  · obtain rfl := List.inj_on_of_nodup_map hc.chain.nodup hm hn hmn
    exact ⟨p, Heap.get_set_self _ _ _⟩
  · exact ⟨_, (Heap.get_set_of_ne _ _ hmn).trans (hc.cells m hm)⟩

theorem destroyOne_eq (hv : st.heap.get a = some v) :
    destroyOne st a = .ok { st with heap := st.heap.free a } := by
  obtain ⟨k, hk⟩ : ∃ k, st.heap.dom.card = k + 1 := by
    have hpos := Finset.card_pos.mpr ⟨a, Heap.mem_dom_of_get hv⟩
    exact ⟨st.heap.dom.card - 1, by omega⟩
  have hfuel : St.fuel { st with heap := st.heap.set a { v with next := none } } = k + 2 := by
    rw [St.fuel, Heap.dom_set_of_mem _ (Heap.mem_dom_of_get hv), hk]
  rw [destroyOne, setNext_eq hv, ok_bind, hfuel]
  simp only [spdVariablesDestroy, deref_of_get (Heap.get_set_self _ _ _), ok_bind, Heap.free_set]

/-! ## `spd_variable_append` -/

/-- The loop arrives at the last node. -/
theorem lastOf_eq {xs : List Addr} {k : Nat} (hseg : Seg (nextOf h) (some a) xs none)
    (hdom : ∀ b ∈ xs, b ∈ h.dom) (hk : xs.length ≤ k) :
    ∃ b, lastOf h k a = .ok b ∧ xs.getLast? = some b := by
  induction k generalizing a xs with
  | zero =>
    cases xs with
    | nil => cases hseg
    | cons b xs => simp at hk
  | succ k ih =>
    cases xs with
    | nil => cases hseg
    | cons b xs =>
      obtain ⟨hab, hrest⟩ := hseg
      obtain rfl := Option.some.inj hab
      obtain ⟨v, hv⟩ := Heap.mem_dom.mp (hdom a (by simp))
      have hnext : nextOf h a = v.next := by rw [nextOf, hv, Option.bind_some]
      rw [hnext] at hrest
      rw [lastOf, deref_of_get hv, ok_bind]
      cases hvn : v.next with
      | none =>
        rw [hvn] at hrest
        obtain rfl : xs = [] := by simpa using hrest.eq_head?.symm
        exact ⟨a, rfl, rfl⟩
      | some c =>
        rw [hvn] at hrest
        obtain ⟨b, hb, hlast⟩ := ih hrest (fun x hx => hdom x (List.mem_cons_of_mem a hx))
          (by simpa using hk)
        refine ⟨b, hb, ?_⟩
        cases xs with
        | nil => cases hlast
        | cons x xs => rw [List.getLast?_cons_cons, hlast]

theorem spdVariableAppend_spec {last : Option Addr} (hc : ChainOf st.heap st.category ns)
    (hy : ChainOf st.heap ⟨p, last⟩ ys)
    (hdisj : (ns.map Node.addr).Disjoint (ys.map Node.addr)) :
    ∃ st', spdVariableAppend st p = .ok st' ∧ ChainOf st'.heap st'.category (ns ++ ys) := by
  cases p with
  | none =>
    have hnil : ys = [] := by
      have hmap := hy.chain.first_eq_none.mp rfl
      exact List.map_eq_nil_iff.mp hmap
    exact ⟨st, rfl, by rw [hnil, List.append_nil]; exact hc⟩
  | some v =>
    have hne : ys.map Node.addr ≠ [] := fun hnil => by
      have hnone := hy.chain.first_eq_none.mpr hnil
      cases hnone
    have hydom : ∀ b ∈ ys.map Node.addr, b ∈ st.heap.dom := by
      intro b hb
      obtain ⟨n, hn, rfl⟩ := List.mem_map.mp hb
      exact hy.mem_dom hn
    have hylen : (ys.map Node.addr).length ≤ st.fuel := by
      rw [List.length_map]
      exact hy.length_le.trans (Nat.le_succ _)
    cases hlast : st.category.last with
    | none =>
      have hnil : ns = [] := List.map_eq_nil_iff.mp (hc.chain.last_eq_none.mp hlast)
      obtain ⟨b, hb, hblast⟩ := lastOf_eq hy.chain.seg hydom hylen
      refine ⟨(st.setRoot (some v)).setLast (some b), ?_, ?_⟩
      · have hb' : lastOf (st.setRoot (some v)).heap (st.setRoot (some v)).fuel v = .ok b := hb
        simp only [spdVariableAppend, hlast, ok_bind, hb']
      · rw [hnil, List.nil_append]
        exact ⟨⟨hy.chain.seg, hblast.symm, hy.chain.nodup⟩, hy.cells⟩
    | some l =>
      obtain ⟨zs, hzs⟩ := (hlast ▸ hc.chain).last_eq_some
      obtain ⟨n, hn, rfl⟩ := List.mem_map.mp (by rw [hzs]; simp : l ∈ ns.map Node.addr)
      have hny : n.addr ∉ ys.map Node.addr := fun hmem => hdisj (List.mem_map_of_mem hn) hmem
      let heap' := st.heap.set n.addr ⟨n.name, n.value, n.object, some v⟩
      have hnext : nextOf heap' = Function.update (nextOf st.heap) n.addr (some v) :=
        nextOf_set _ _ _
      have hdom : heap'.dom = st.heap.dom := Heap.dom_set_of_mem _ (hc.mem_dom hn)
      have hchain := (hlast ▸ hc.chain).append hy.chain hne hdisj
      rw [← hnext, ← List.map_append] at hchain
      have hyseg : Seg (nextOf heap') (some v) (ys.map Node.addr) none :=
        hnext ▸ hy.chain.seg.update hny _
      have hylen' : (ys.map Node.addr).length ≤ St.fuel ⟨heap', st.category⟩ := by
        rw [St.fuel, hdom]
        exact hylen
      obtain ⟨b, hb, hblast⟩ := lastOf_eq hyseg (fun b hb => hdom ▸ hydom b hb) hylen'
      refine ⟨⟨heap', { st.category with last := some b }⟩, ?_, .of_cells ?_ fun m hm => ?_⟩
      · simp only [spdVariableAppend, hlast, setNext_eq (hc.cells n hn), ok_bind]
        change (lastOf heap' _ v >>= _) = _
        rw [hb]
        rfl
      · have hl : last = some b := hy.chain.last.trans hblast
        exact hl ▸ hchain
      · rcases List.mem_append.mp hm with hin | hin
        · exact hc.cells_set hn (some v) m hin
        · have hmn : m.addr ≠ n.addr := fun heq => hny (heq ▸ List.mem_map_of_mem hin)
          exact ⟨_, (Heap.get_set_of_ne _ _ hmn).trans (hy.cells m hin)⟩

/-- The successor of a node. -/
theorem ChainOf.nextOf_eq (hc : ChainOf h c (pre ++ n :: post)) :
    nextOf h n.addr = post.head?.map Node.addr := by
  have hseg := hc.chain.seg
  rw [List.map_append, List.map_cons] at hseg
  obtain ⟨r, -, -, hrest⟩ := Seg.append_iff.mp hseg
  rw [hrest.eq_head?, List.head?_map]

theorem ChainOf.addr_ne (hc : ChainOf h c (pre ++ n :: post)) :
    ∀ m ∈ pre ++ post, m.addr ≠ n.addr := by
  have hchain := hc.chain
  rw [List.map_append, List.map_cons] at hchain
  intro m hm heq
  rcases List.mem_append.mp hm with hin | hin
  · exact hchain.notMem_split.1 (heq ▸ List.mem_map_of_mem hin)
  · exact hchain.notMem_split.2 (heq ▸ List.mem_map_of_mem hin)

/-! ## `spd_variable_delete` -/

/-- A node is taken out and freed. -/
theorem unlink_spec (hc : ChainOf st.heap st.category (pre ++ n :: post)) :
    ∃ st', unlink st (pre.getLast?.map Node.addr) n.addr = .ok st' ∧
      ChainOf st'.heap st'.category (pre ++ post) := by
  have hn := hc.cells n (by simp)
  have hchain := hc.chain
  rw [List.map_append, List.map_cons] at hchain
  have hother := hc.addr_ne
  rcases pre.eq_nil_or_concat' with rfl | ⟨pre, q, rfl⟩
  · have htail := hchain.tail
    let c : Section := ⟨nextOf st.heap n.addr,
      if st.category.last = some n.addr then none else st.category.last⟩
    refine ⟨⟨st.heap.free n.addr, c⟩, ?_, ?_⟩
    · have hget : ∀ c : Section, destroyOne ⟨st.heap, c⟩ n.addr
          = .ok ⟨st.heap.free n.addr, c⟩ := fun c => destroyOne_eq hn
      by_cases hlast : st.category.last = some n.addr
      · simp only [unlink, deref_of_get hn, ok_bind, List.getLast?_nil, Option.map_none,
          St.setRoot, St.setLast, hlast, if_true, hget, c]
      · simp only [unlink, deref_of_get hn, ok_bind, List.getLast?_nil, Option.map_none,
          St.setRoot, hlast, if_false, hget, c]
    · have hc' : ChainOf st.heap c post :=
        ⟨htail, fun m hm => hc.cells m (by simp [hm])⟩
      exact hc'.frame fun m hm => Heap.get_free_of_ne _ (hother m (by simpa using hm))
  · have hq := hc.cells q (by simp)
    have hqn : n.addr ≠ q.addr := (hother q (by simp)).symm
    let heap' := st.heap.set q.addr ⟨q.name, q.value, q.object, nextOf st.heap n.addr⟩
    let c : Section := ⟨st.category.root,
      if st.category.last = some n.addr then some q.addr else st.category.last⟩
    have hn' : heap'.get n.addr = some _ := (Heap.get_set_of_ne _ _ hqn).trans hn
    refine ⟨⟨heap'.free n.addr, c⟩, ?_, ?_⟩
    · have hget : ∀ c : Section, destroyOne ⟨heap', c⟩ n.addr = .ok ⟨heap'.free n.addr, c⟩ :=
        fun c => destroyOne_eq hn'
      by_cases hlast : st.category.last = some n.addr
      · simp only [unlink, deref_of_get hn, ok_bind, List.getLast?_concat, Option.map_some,
          setNext_eq hq, St.setLast, hlast, if_true, c]
        exact hget _
      · simp only [unlink, deref_of_get hn, ok_bind, List.getLast?_concat, Option.map_some,
          setNext_eq hq, hlast, if_false, c]
        exact hget _
    · have hremove : Chain (nextOf heap') c.root c.last ((pre ++ [q] ++ post).map Node.addr) := by
        rw [nextOf_set]
        simpa using (by simpa using hchain :
          Chain (nextOf st.heap) _ _ (pre.map Node.addr ++ q.addr :: n.addr :: post.map Node.addr)).remove
      have hc' : ChainOf heap' c (pre ++ [q] ++ post) := by
        refine .of_cells hremove fun m hm => hc.cells_set (by simp) _ m ?_
        simp only [List.mem_append, List.mem_cons] at hm ⊢
        tauto
      exact hc'.frame fun m hm => Heap.get_free_of_ne _ (hother m hm)

/-- The search by pointer. -/
theorem deleteByPointer_spec {k : Nat} (hc : ChainOf st.heap st.category (pre ++ post))
    (hpre : ∀ m ∈ pre, m.addr ≠ a) (hk : post.length < k) :
    (∃ n ∈ post, n.addr = a) ∧ (∃ st', deleteByPointer st a k (pre.getLast?.map Node.addr)
        (post.head?.map Node.addr) = .ok (some st') ∧
        ChainOf st'.heap st'.category ((pre ++ post).filter fun n => n.addr ≠ a)) ∨
      (∀ n ∈ post, n.addr ≠ a) ∧ deleteByPointer st a k (pre.getLast?.map Node.addr)
        (post.head?.map Node.addr) = .ok none := by
  induction post generalizing pre k with
  | nil =>
    obtain ⟨k, rfl⟩ : ∃ j, k = j + 1 := ⟨k - 1, by omega⟩
    exact Or.inr ⟨by simp, rfl⟩
  | cons n post ih =>
    obtain ⟨k, rfl⟩ : ∃ j, k = j + 1 := ⟨k - 1, by omega⟩
    have hn := hc.cells n (by simp)
    simp only [List.head?_cons, Option.map_some, deleteByPointer, deref_of_get hn, ok_bind]
    by_cases ha : n.addr = a
    · left
      refine ⟨⟨n, by simp, ha⟩, ?_⟩
      rw [if_pos ha]
      obtain ⟨st', hst', hc'⟩ := unlink_spec hc
      rw [hst', ok_bind]
      refine ⟨st', rfl, ?_⟩
      have hfilter : (pre ++ n :: post).filter (fun n => n.addr ≠ a) = pre ++ post := by
        rw [List.filter_append, List.filter_cons_of_neg (by simpa using ha), ← List.filter_append,
          List.filter_eq_self]
        intro m hm
        simpa [ha] using hc.addr_ne m hm
      rw [hfilter]
      exact hc'
    · rw [if_neg ha, hc.nextOf_eq]
      have hc' : ChainOf st.heap st.category (pre ++ [n] ++ post) := by simpa using hc
      have hpre' : ∀ m ∈ pre ++ [n], m.addr ≠ a := by
        intro m hm
        rcases List.mem_append.mp hm with hin | hin
        · exact hpre m hin
        · exact List.mem_singleton.mp hin ▸ ha
      have hih := ih hc' hpre' (by simpa using hk)
      rw [List.getLast?_concat, Option.map_some, List.append_assoc, List.singleton_append] at hih
      rcases hih with ⟨⟨m, hm, hma⟩, hres⟩ | ⟨hall, hres⟩
      · exact Or.inl ⟨⟨m, List.mem_cons_of_mem n hm, hma⟩, hres⟩
      · exact Or.inr ⟨fun m hm => (List.mem_cons.mp hm).elim (fun h => h ▸ ha) (hall m), hres⟩

/-- The loop that deletes by name. -/
theorem deleteByName_spec {k : Nat} (name : CString) (mtch : Option CString) (res : Int)
    (hc : ChainOf st.heap st.category (pre ++ post)) (hk : post.length < k) :
    ∃ res' st', deleteByName name mtch k st (pre.getLast?.map Node.addr)
        (post.head?.map Node.addr) res = .ok (res', st') ∧
      ChainOf st'.heap st'.category (pre ++ post.filter fun n => !n.Matches name mtch) := by
  induction post generalizing pre k st res with
  | nil =>
    obtain ⟨k, rfl⟩ : ∃ j, k = j + 1 := ⟨k - 1, by omega⟩
    exact ⟨res, st, rfl, hc⟩
  | cons n post ih =>
    obtain ⟨k, rfl⟩ : ∃ j, k = j + 1 := ⟨k - 1, by omega⟩
    have hn := hc.cells n (by simp)
    have hk' : post.length < k := by simpa using hk
    simp only [List.head?_cons, Option.map_some, deleteByName, deref_of_get hn, ok_bind,
      hc.nextOf_eq]
    cases hm : n.Matches name mtch with
    | true =>
      have hcond : nameMatches n.name n.value name mtch = true := hm
      obtain ⟨st', hst', hc'⟩ := unlink_spec hc
      rw [if_pos hcond, hst', ok_bind, List.filter_cons_of_neg (by simp [hm])]
      exact ih 0 hc' hk'
    | false =>
      have hcond : ¬ nameMatches n.name n.value name mtch = true := by
        rw [Node.Matches] at hm
        simp [hm]
      have hc' : ChainOf st.heap st.category (pre ++ [n] ++ post) := by simpa using hc
      have hih := ih res hc' hk'
      rw [List.getLast?_concat, Option.map_some, List.append_assoc, List.singleton_append] at hih
      rw [if_neg hcond, List.filter_cons_of_pos (by simp [hm])]
      exact hih

theorem spdVariableDelete_spec (hc : ChainOf st.heap st.category ns) {name : NameArg}
    (mtch : Option CString) (hname : ∀ a, name = .nameOf a → a ∈ st.heap.dom) :
    ∃ res st', spdVariableDelete st name mtch = .ok (res, st') ∧
      ChainOf st'.heap st'.category (deleteList st.heap name mtch ns) := by
  have hfuel : ns.length < st.fuel := Nat.lt_succ_of_le hc.length_le
  have hroot : st.category.root = ns.head?.map Node.addr := by
    rw [hc.chain.first_eq, List.head?_map]
  have hc' : ChainOf st.heap st.category ([] ++ ns) := hc
  cases name with
  | text s =>
    obtain ⟨res, st', hst', hres⟩ := deleteByName_spec s mtch (-1) hc' hfuel
    exact ⟨res, st', by rw [spdVariableDelete, hroot]; exact hst', hres⟩
  | nameOf a =>
    obtain ⟨v, hv⟩ := Heap.mem_dom.mp (hname a rfl)
    rcases deleteByPointer_spec hc' (a := a) (by simp) hfuel with ⟨hex, st', hst', hres⟩ | ⟨hall, hnone⟩
    · rw [List.getLast?_nil, Option.map_none] at hst'
      refine ⟨0, st', by simp only [spdVariableDelete, hroot, hst', ok_bind], ?_⟩
      rw [deleteList, if_pos hex]
      exact hres
    · rw [List.getLast?_nil, Option.map_none] at hnone
      obtain ⟨res, st', hst', hres⟩ :=
        deleteByName_spec v.name mtch (-1) hc' hfuel
      rw [List.getLast?_nil, Option.map_none] at hst'
      refine ⟨res, st', by simp only [spdVariableDelete, hroot, hnone, ok_bind,
        deref_of_get hv, hst'], ?_⟩
      have hnot : ¬ ∃ n ∈ ns, n.addr = a := fun ⟨n, hn, ha⟩ => hall n hn ha
      rw [deleteList, if_neg hnot, hv]
      exact hres

/-! ## `spd_variable_update` -/

/-- The loop of an update that finds no match. -/
theorem updateLoop_miss {k : Nat} {name : CString} (value : CString) {mtch : Option CString}
    (object : UInt32) (hc : ChainOf st.heap st.category (pre ++ post)) (hk : post.length < k)
    (hmiss : ∀ n ∈ post, n.Matches name mtch = false) :
    ∃ st', updateLoop a name value mtch object k st (pre.getLast?.map Node.addr)
        (post.head?.map Node.addr) = .ok st' ∧ st'.category.last = st.category.last := by
  induction post generalizing pre k with
  | nil =>
    obtain ⟨k, rfl⟩ : ∃ j, k = j + 1 := ⟨k - 1, by omega⟩
    rcases pre.eq_nil_or_concat' with rfl | ⟨pre, q, rfl⟩
    · exact ⟨_, rfl, rfl⟩
    · have hq := hc.cells q (by simp)
      rw [List.getLast?_concat, Option.map_some]
      exact ⟨_, setNext_eq hq _, rfl⟩
  | cons n post ih =>
    obtain ⟨k, rfl⟩ : ∃ j, k = j + 1 := ⟨k - 1, by omega⟩
    have hn := hc.cells n (by simp)
    have hcond : ¬ nameMatches n.name n.value name mtch = true := by
      have hm := hmiss n (by simp)
      rw [Node.Matches] at hm
      simp [hm]
    have hc' : ChainOf st.heap st.category (pre ++ [n] ++ post) := by simpa using hc
    have hih := ih hc' (by simpa using hk) fun m hm => hmiss m (List.mem_cons_of_mem n hm)
    rw [List.getLast?_concat, Option.map_some] at hih
    simp only [List.head?_cons, Option.map_some, updateLoop, deref_of_get hn, ok_bind,
      hc.nextOf_eq, if_neg hcond]
    exact hih

/-- The replacement of `n` by `newer`. -/
theorem replace_spec (newer : Node) (hc : ChainOf st.heap st.category (pre ++ n :: post))
    (hnew : newer.addr ∉ (pre ++ n :: post).map Node.addr)
    (hcell : st.heap.get newer.addr
      = some ⟨newer.name, newer.value, newer.object, nextOf st.heap n.addr⟩) :
    ∃ st1 st', (match pre.getLast?.map Node.addr with
        | some p => st.setNext p (some newer.addr)
        | none => .ok (st.setRoot (some newer.addr))) = .ok st1 ∧
      destroyOne (if st1.category.last = some n.addr then st1.setLast (some newer.addr) else st1)
        n.addr = .ok st' ∧
      ChainOf st'.heap st'.category (pre ++ newer :: post) := by
  have hn := hc.cells n (by simp)
  have hchain := hc.chain
  rw [List.map_append, List.map_cons] at hchain hnew
  have hnext : nextOf st.heap newer.addr = nextOf st.heap n.addr := by
    rw [nextOf, hcell, Option.bind_some]
  -- none of the nodes that stay is the one freed
  have hother : ∀ m ∈ pre ++ newer :: post, m.addr ≠ n.addr := by
    intro m hm
    by_cases heq : m = newer
    · rintro hmn
      rw [heq] at hmn
      exact hnew (by simp [hmn])
    · apply hc.addr_ne
      simp only [List.mem_append, List.mem_cons] at hm ⊢
      tauto
  let c (root : Option Addr) : Section :=
    ⟨root, if st.category.last = some n.addr then some newer.addr else st.category.last⟩
  rcases pre.eq_nil_or_concat' with rfl | ⟨pre, q, rfl⟩
  · refine ⟨_, ⟨st.heap.free n.addr, c (some newer.addr)⟩, rfl, ?_, ?_⟩
    · have hget : ∀ c : Section, destroyOne ⟨st.heap, c⟩ n.addr
          = .ok ⟨st.heap.free n.addr, c⟩ := fun c => destroyOne_eq hn
      by_cases hlast : st.category.last = some n.addr
      · simp only [St.setRoot, St.setLast, hlast, if_true, hget, c]
      · simp only [St.setRoot, hlast, if_false, hget, c]
    · have hc' : ChainOf st.heap (c (some newer.addr)) (newer :: post) := by
        refine .of_cells (hchain.replace_head hnew hnext) fun m hm => ?_
        rcases List.mem_cons.mp hm with rfl | hin
        · exact ⟨_, hcell⟩
        · exact ⟨_, hc.cells m (by simp [hin])⟩
      exact hc'.frame fun m hm => Heap.get_free_of_ne _ (hother m hm)
  · have hq := hc.cells q (by simp)
    have hqn : n.addr ≠ q.addr := (hother q (by simp)).symm
    have hqnew : newer.addr ≠ q.addr := fun heq => hnew (by simp [heq])
    let heap' := st.heap.set q.addr ⟨q.name, q.value, q.object, some newer.addr⟩
    have hn' : heap'.get n.addr = some _ := (Heap.get_set_of_ne _ _ hqn).trans hn
    have hget : ∀ c : Section, destroyOne ⟨heap', c⟩ n.addr = .ok ⟨heap'.free n.addr, c⟩ :=
      fun c => destroyOne_eq hn'
    refine ⟨⟨heap', st.category⟩, ⟨heap'.free n.addr, c st.category.root⟩, ?_, ?_, ?_⟩
    · rw [List.getLast?_concat, Option.map_some]
      exact setNext_eq hq _
    · by_cases hlast : st.category.last = some n.addr
      · simp only [St.setLast, hlast, if_true, hget, c]
      · simp only [hlast, if_false, hget, c]
    · have hreplace : Chain (nextOf heap') st.category.root (c st.category.root).last
          ((pre ++ [q] ++ newer :: post).map Node.addr) := by
        rw [nextOf_set]
        have hsplit : Chain (nextOf st.heap) st.category.root st.category.last
            (pre.map Node.addr ++ q.addr :: n.addr :: post.map Node.addr) := by simpa using hchain
        simpa using hsplit.replace (by simpa using hnew) hnext
      have hc' : ChainOf heap' (c st.category.root) (pre ++ [q] ++ newer :: post) := by
        refine .of_cells hreplace fun m hm => ?_
        by_cases heq : m = newer
        · rw [heq]
          exact ⟨_, (Heap.get_set_of_ne _ _ hqnew).trans hcell⟩
        · apply hc.cells_set (by simp)
          simp only [List.mem_append, List.mem_cons] at hm ⊢
          tauto
      exact hc'.frame fun m hm => Heap.get_free_of_ne _ (hother m hm)

/-- The loop of an update up to the first match. -/
theorem updateLoop_hit {k : Nat} {name : CString} (value : CString) {mtch : Option CString}
    (object : UInt32) (hc : ChainOf st.heap st.category (pre ++ post)) (hk : post.length < k)
    (ha : a ∉ (pre ++ post).map Node.addr) (hhit : ∃ n ∈ post, n.Matches name mtch = true) :
    ∃ st', updateLoop a name value mtch object k st (pre.getLast?.map Node.addr)
        (post.head?.map Node.addr) = .ok st' ∧
      ChainOf st'.heap st'.category (pre ++ updateList a name value mtch object post) := by
  induction post generalizing pre k with
  | nil => simp at hhit
  | cons n post ih =>
    obtain ⟨k, rfl⟩ : ∃ j, k = j + 1 := ⟨k - 1, by omega⟩
    have hn := hc.cells n (by simp)
    simp only [List.head?_cons, Option.map_some, updateLoop, deref_of_get hn, ok_bind, updateList]
    cases hm : n.Matches name mtch with
    | true =>
      have hcond : nameMatches n.name n.value name mtch = true := hm
      rw [if_pos hcond, if_pos rfl]
      let newer : Node := ⟨a, name, value, if n.object ≠ 0 ∨ object ≠ 0 then 1 else 0⟩
      let heap' := st.heap.set a ⟨name, value, newer.object, nextOf st.heap n.addr⟩
      let st1 : St := { st with heap := heap' }
      have hne : ∀ m ∈ pre ++ n :: post, m.addr ≠ a := fun m hm heq =>
        ha (heq ▸ List.mem_map_of_mem hm)
      have hc1 : ChainOf st1.heap st1.category (pre ++ n :: post) :=
        hc.frame fun m hm => Heap.get_set_of_ne _ _ (hne m hm)
      have hnext1 : nextOf st1.heap n.addr = nextOf st.heap n.addr := by
        rw [nextOf, nextOf, Heap.get_set_of_ne _ _ (hne n (by simp))]
      obtain ⟨st2, st', h2, h', hc'⟩ := replace_spec newer hc1 ha
        (by rw [hnext1]; exact Heap.get_set_self _ _ _)
      refine ⟨st', ?_, hc'⟩
      cases hprev : pre.getLast?.map Node.addr with
      | none =>
        rw [hprev] at h2
        obtain rfl := Outcome.ok.inj h2
        exact h'
      | some p =>
        rw [hprev] at h2
        have h2' : st1.setNext p (some a) = .ok st2 := h2
        change (st1.setNext p (some a) >>= _) = _
        rw [h2', ok_bind]
        exact h'
    | false =>
      have hcond : ¬ nameMatches n.name n.value name mtch = true := by
        rw [Node.Matches] at hm
        simp [hm]
      have hc' : ChainOf st.heap st.category (pre ++ [n] ++ post) := by simpa using hc
      have hhit' : ∃ n ∈ post, n.Matches name mtch = true := by
        obtain ⟨m, hmem, hmm⟩ := hhit
        rcases List.mem_cons.mp hmem with rfl | hin
        · rw [hm] at hmm
          cases hmm
        · exact ⟨m, hin, hmm⟩
      have hih := ih hc' (by simpa using hk) (by simpa using ha) hhit'
      rw [List.getLast?_concat, Option.map_some, List.append_assoc, List.singleton_append] at hih
      rw [if_neg hcond, hc.nextOf_eq, if_neg (by simp)]
      exact hih

/-- What `spd_variable_new` leaves of the chain. -/
theorem ChainOf.alloc (hc : ChainOf h c ns) (ha : a ∉ h.dom) (v : Variable) :
    ChainOf (h.set a v) c ns :=
  hc.frame fun _ hm => Heap.get_set_of_ne _ _ fun heq => ha (heq ▸ hc.mem_dom hm)

theorem spdVariableUpdate_hit {name : CString} (value : CString) {mtch : Option CString}
    (object : UInt32) (hc : ChainOf st.heap st.category ns) (ha : a ∉ st.heap.dom)
    (hhit : ∃ n ∈ ns, n.Matches name mtch = true) :
    ∃ st', spdVariableUpdate st (some a) name value mtch object = .ok (0, st') ∧
      ChainOf st'.heap st'.category (updateList a name value mtch object ns) := by
  let st1 : St := ⟨st.heap.set a ⟨name, value, object.toInt32, none⟩, st.category⟩
  have hc1 : ChainOf st1.heap st1.category ([] ++ ns) := hc.alloc ha _
  have hroot : st.category.root = (ns.map Node.addr).head? := hc.chain.first_eq
  have hnot : a ∉ ([] ++ ns).map Node.addr := by
    intro hmem
    obtain ⟨n, hn, rfl⟩ := List.mem_map.mp hmem
    exact ha (hc.mem_dom hn)
  obtain ⟨st', hst', hres⟩ := updateLoop_hit value object hc1
    (Nat.lt_succ_of_le hc1.length_le) hnot hhit
  rw [List.getLast?_nil, Option.map_none, ← List.head?_map, ← hroot] at hst'
  refine ⟨st', ?_, hres⟩
  change (updateLoop a name value mtch object st1.fuel st1 none st1.category.root >>= _) = _
  rw [St.fuel, hst', ok_bind]

/-- An update that appends does not move `category->last`. -/
theorem spdVariableUpdate_miss {name : CString} (value : CString) {mtch : Option CString}
    (object : UInt32) (hc : ChainOf st.heap st.category ns) (ha : a ∉ st.heap.dom)
    (hmiss : ∀ n ∈ ns, n.Matches name mtch = false) :
    ∃ st', spdVariableUpdate st (some a) name value mtch object = .ok (0, st') ∧
      ¬ ChainOf st'.heap st'.category (updateList a name value mtch object ns) := by
  let st1 : St := ⟨st.heap.set a ⟨name, value, object.toInt32, none⟩, st.category⟩
  have hc1 : ChainOf st1.heap st1.category ([] ++ ns) := hc.alloc ha _
  have hroot : st.category.root = (ns.map Node.addr).head? := hc.chain.first_eq
  obtain ⟨st', hst', hlast⟩ := updateLoop_miss (a := a) value object hc1
    (Nat.lt_succ_of_le hc1.length_le) hmiss
  rw [List.getLast?_nil, Option.map_none, ← List.head?_map, ← hroot] at hst'
  refine ⟨st', ?_, fun hc' => ?_⟩
  · change (updateLoop a name value mtch object st1.fuel st1 none st1.category.root >>= _) = _
    rw [St.fuel, hst', ok_bind]
  · have hlist : updateList a name value mtch object ns
        = ns ++ [⟨a, name, value, object.toInt32⟩] := by
      clear hst' hc' hc1 hc hroot
      induction ns with
      | nil => rfl
      | cons n ns ih =>
        have hn := hmiss n (by simp)
        rw [updateList, hn, if_neg (by simp), ih fun m hm => hmiss m (List.mem_cons_of_mem n hm)]
        rfl
    have hcat := hc.chain.last
    rw [hlist] at hc'
    have hcat' := hc'.chain.last
    rw [List.map_append, List.map_singleton, List.getLast?_concat, hlast] at hcat'
    -- `last` is the new variable, which was not allocated before
    have hmem : a ∈ ns.map Node.addr := List.mem_of_getLast? (hcat.symm.trans hcat')
    obtain ⟨n, hn, rfl⟩ := List.mem_map.mp hmem
    exact ha (hc.mem_dom hn)

/-! ## Runs -/

/-- The section and its list after a call. -/
def step (s : St × List Node) (op : Op) : Outcome (St × List Node) := do
  let (_, st) ← exec s.1 op
  .ok (st, op.apply s.1 s.2)

/-- The section is the list. -/
def Holds (s : St × List Node) : Prop := ChainOf s.1.heap s.1.category s.2

theorem step_eq {s : St × List Node} {op : Op} {res : Int} {st' : St}
    (hexec : exec s.1 op = .ok (res, st')) : step s op = .ok (st', op.apply s.1 s.2) := by
  simp only [step, hexec, ok_bind]

theorem step_good {s : St × List Node} {op : Op} (hs : Holds s) (he : Enabled s.1 s.2 op)
    (hgood : ¬ FallsThrough s.2 op) : ∃ s', step s op = .ok s' ∧ Holds s' := by
  obtain ⟨st, ns⟩ := s
  cases op with
  | append v ys =>
    obtain ⟨⟨last, hy⟩, hdisj⟩ := he
    obtain ⟨st', hst', hc⟩ := spdVariableAppend_spec hs hy hdisj
    have hexec : exec st (.append v ys) = .ok (0, st') := by simp only [exec, hst', ok_bind]
    exact ⟨_, step_eq hexec, hc⟩
  | moveVariables old ys =>
    obtain ⟨⟨last, hy⟩, hdisj⟩ := he
    obtain ⟨st', hst', hc⟩ := spdVariableAppend_spec hs hy hdisj
    have hexec : exec st (.moveVariables old ys) = .ok (0, st') := by
      simp only [exec, moveVariables, hst', ok_bind]
    exact ⟨_, step_eq hexec, hc⟩
  | update newer name value mtch object =>
    cases newer with
    | none => exact ⟨(st, ns), rfl, hs⟩
    | some a =>
      have hhit : ∃ n ∈ ns, n.Matches name mtch = true := by
        by_contra hnone
        refine hgood fun n hn => ?_
        by_contra hm
        exact hnone ⟨n, hn, by simpa using hm⟩
      obtain ⟨st', hst', hc⟩ := spdVariableUpdate_hit value object hs
        (he a rfl) hhit
      exact ⟨_, step_eq hst', hc⟩
  | delete name mtch =>
    obtain ⟨res, st', hst', hc⟩ := spdVariableDelete_spec hs mtch he
    exact ⟨_, step_eq hst', hc⟩

theorem step_bad {s s' : St × List Node} {op : Op} (hs : Holds s) (he : Enabled s.1 s.2 op)
    (hbad : FallsThrough s.2 op) (hstep : step s op = .ok s') : ¬ Holds s' := by
  cases op with
  | append | moveVariables | delete => exact hbad.elim
  | update newer name value mtch object =>
    cases newer with
    | none => exact hbad.elim
    | some a =>
      obtain ⟨st', hst', hc⟩ := spdVariableUpdate_miss value object hs
        (he a rfl) hbad
      have hexec : exec s.1 (.update (some a) name value mtch object) = .ok (0, st') := hst'
      rw [step_eq hexec] at hstep
      obtain rfl := Outcome.ok.inj hstep
      exact hc

/-- A section never loses a variable exactly as long as no update appends: in every legal
    run, the chain is the plain list in every state, and `last` its last node, if and only if
    each update finds a variable to replace. A delete that is given the `name` pointer of a
    variable of the section means that variable, whatever its `match` says. -/
theorem variables_kept_iff (ops : List Op) {s : St × List Node} (hs : Holds s)
    (hlegal : Run.Legal step (fun s op => Enabled s.1 s.2 op) s ops) :
    Run.Always step Holds s ops ↔ Run.Legal step (fun s op => ¬ FallsThrough s.2 op) s ops :=
  Run.always_iff (fun _ _ => step_good) (fun _ _ _ => step_bad) ops hs hlegal

end

/-! ## A lost variable -/

/-- A variable that is in no section. -/
def single : Node := ⟨2, lit "b", lit "2", 0⟩

/-- A new section, and the variable. -/
def newSection : St × List Node :=
  (⟨(∅ : Heap Variable).set 2 ⟨single.name, single.value, 0, none⟩, ⟨none, none⟩⟩, [])

/-- `spd_variable_update(c, "a", "1", NULL, 0)`. -/
def updateA : Op := .update (some 1) (lit "a") (lit "1") none 0

/-- `spd_variable_append(c, &single)`. -/
def appendSingle : Op := .append (some 2) [single]

theorem newSection_holds : Holds newSection :=
  ⟨⟨rfl, rfl, List.nodup_nil⟩, by simp [newSection]⟩

/-- After an update that appends, the next variable appended to a new section takes the
    place of the first one. -/
theorem variables_lost : Holds newSection ∧
    Run.Legal step (fun s op => Enabled s.1 s.2 op) newSection [updateA, appendSingle] ∧
    ∃ s, Run.run step newSection [updateA, appendSingle] = .ok s ∧
      s.2.map Node.addr = [1, 2] ∧ s.1.category.root = some 2 ∧ nextOf s.1.heap 2 = none ∧
      ¬ Holds s := by
  refine ⟨newSection_holds, by decide +kernel, ?_⟩
  obtain ⟨s, hrun, haddr, hroot, hnext, hcat⟩ : ∃ s,
      Run.run step newSection [updateA, appendSingle] = .ok s ∧ s.2.map Node.addr = [1, 2] ∧
      s.1.category.root = some 2 ∧ nextOf s.1.heap 2 = none ∧
      s.1.category.root ≠ (s.2.map Node.addr).head? :=
    exists_of_run (by decide +kernel)
  exact ⟨s, hrun, haddr, hroot, hnext, fun hs => hcat hs.chain.first_eq⟩

/-- Variables that are in no section, `c` in front of `d`, and the section of `e` and
    another `b`. -/
def looseVariables : St × List Node :=
  (⟨((((((∅ : Heap Variable).set 2 ⟨lit "b", lit "2", 0, none⟩).set 3
    ⟨lit "c", lit "3", 0, some 4⟩).set 4 ⟨lit "d", lit "4", 0, none⟩).set 5
    ⟨lit "e", lit "5", 0, some 6⟩).set 6 ⟨lit "b", lit "6", 0, none⟩).set 8
    ⟨lit "g", lit "8", 0, none⟩, ⟨none, none⟩⟩, [])

/-- Appends of one variable and of two, an update that replaces `c`, a delete of the last
    variable, the variables of the other section, the deletes of both `b`, of which one is
    the first and one the last, an append, and the delete of `e` by its own name pointer. -/
def splices : List Op :=
  [.append (some 2) [single],
    .append (some 3) [⟨3, lit "c", lit "3", 0⟩, ⟨4, lit "d", lit "4", 0⟩],
    .update (some 7) (lit "C") (lit "7") (some (lit "3")) 0,
    .delete (.text (lit "d")) none,
    .moveVariables ⟨some 5, some 6⟩ [⟨5, lit "e", lit "5", 0⟩, ⟨6, lit "b", lit "6", 0⟩],
    .delete (.text (lit "B")) none,
    .append (some 8) [⟨8, lit "g", lit "8", 0⟩],
    .delete (.nameOf 5) (some (lit "x"))]

/-- The chain is the list all along, and `C` and `g` are left. -/
theorem variables_kept_iff_splices :
    Run.Always step Holds looseVariables splices ∧
    ∃ s, Run.run step looseVariables splices = .ok s ∧ s.2.map Node.addr = [7, 8] ∧
      s.1.category = ⟨some 7, some 8⟩ := by
  have hs : Holds looseVariables := ⟨.nil, by simp [looseVariables]⟩
  refine ⟨(variables_kept_iff splices hs (by decide +kernel)).mpr (by decide +kernel), ?_⟩
  exact exists_of_run (by decide +kernel)

end Spider.Config
