import Spider.LinkedList

/-!
# Safe traversal

`SPD_LIST_TRAVERSE_SAFE_BEGIN` and the two macros that edit a list in its body.
Three shadow pointers go along with the current one. Nodes can be freed, and
every access to a freed node is a fault.
-/

namespace Spider.LinkedList

open Lib Outcome

variable {κ ι : Type} [DecidableEq κ] [DecidableEq ι]

/-- `SPD_LIST_REMOVE_CURRENT` (`linkedlist.h:552-560`), with what it reads of the shadow
    pointers. -/
def spdListRemoveCurrent (m : Mem κ ι) (head : κ) (listPrev : Option ι) (newPrev : ι)
    (listNext : Option ι) : Mem κ ι :=
  let m := m.setNext newPrev none
  let m := match listPrev with
    | some prev => m.setNext prev listNext
    | none => m.setFirst head listNext
  if listNext = none then m.setLast head listPrev else m

/-- The heads and nodes, and which of the nodes are freed. -/
structure Nodes (κ ι : Type) where
  mem : Mem κ ι
  freed : Finset ι

/-- The current node and the pointers `__list_prev`, `__new_prev` and `__list_next`. -/
structure Cursor (ι : Type) where
  cur : Option ι
  listPrev : Option ι
  newPrev : Option ι
  listNext : Option ι
  deriving DecidableEq

namespace Nodes

/-- An access through a pointer that is null or points to a node. -/
def access (s : Nodes κ ι) (p : Option ι) : Outcome Unit :=
  match p with
  | some x => if x ∈ s.freed then .fault else .ok ()
  | none => .ok ()

/-- The start of a turn (`linkedlist.h:508-512`): the current node and the one after it. -/
def enter (s : Nodes κ ι) (listPrev cur : Option ι) : Outcome (Cursor ι) := do
  s.access cur
  .ok ⟨cur, listPrev, cur, cur.bind s.mem.next⟩

/-- A fresh node, and `SPD_LIST_INSERT_BEFORE_CURRENT` (`linkedlist.h:580-589`). -/
def insertBefore (head : κ) (elm : ι) (s : Nodes κ ι) (c : Cursor ι) :
    Outcome (Nodes κ ι × Cursor ι) := do
  let s := { s with freed := s.freed.erase elm }
  s.access c.listPrev
  .ok ({ s with mem := spdListInsertBeforeCurrent s.mem head c.listPrev elm },
    { c with listPrev := some elm })

/-- `SPD_LIST_REMOVE_CURRENT`. -/
def removeCurrent (head : κ) (s : Nodes κ ι) (c : Cursor ι) : Outcome (Nodes κ ι × Cursor ι) :=
  match c.newPrev with
  | none => .fault
  | some newPrev => do
    s.access c.newPrev
    s.access c.listPrev
    .ok ({ s with mem := spdListRemoveCurrent s.mem head c.listPrev newPrev c.listNext },
      { c with newPrev := c.listPrev })

/-- `free` of the current node. -/
def freeCurrent (s : Nodes κ ι) (c : Cursor ι) : Outcome (Nodes κ ι) :=
  match c.cur with
  | none => .ok s
  | some x => if x ∈ s.freed then .fault else .ok { s with freed := insert x s.freed }

end Nodes

/-- What becomes of the current node. -/
inductive Fate where
  | keep
  | remove
  | removeAndFree
  deriving DecidableEq

/-- What the body of a loop does at a node: nodes are inserted before it, it is kept or removed,
    and the loop goes on or is left. -/
structure Edit (ι : Type) where
  inserts : List ι
  fate : Fate
  leave : Bool

/-- The insertions of the body, in order. -/
def runInserts (head : κ) : List ι → Nodes κ ι → Cursor ι → Outcome (Nodes κ ι × Cursor ι)
  | [], s, c => .ok (s, c)
  | elm :: elms, s, c => do
    let (s, c) ← s.insertBefore head elm c
    runInserts head elms s c

/-- What the body does with the current node. -/
def runFate (head : κ) (fate : Fate) (s : Nodes κ ι) (c : Cursor ι) :
    Outcome (Nodes κ ι × Cursor ι) :=
  match fate with
  | .keep => .ok (s, c)
  | .remove => s.removeCurrent head c
  | .removeAndFree => do
    let (s, c) ← s.removeCurrent head c
    let s ← s.freeCurrent c
    .ok (s, c)

/-- The body of the loop. -/
def runBody (head : κ) (edit : Edit ι) (s : Nodes κ ι) (c : Cursor ι) :
    Outcome (Nodes κ ι × Cursor ι) := do
  let (s, c) ← runInserts head edit.inserts s c
  runFate head edit.fate s c

/-- The loop, from the test of its condition on: the current nodes of its turns, the node at which
    it was left, and what it leaves. -/
def safeLoop (head : κ) (body : ι → Edit ι) : Nat → Nodes κ ι → Cursor ι →
    Outcome (List ι × Option ι × Nodes κ ι)
  | 0, _, _ => .timeout
  | fuel + 1, s, c =>
    match c.cur with
    | none => .ok ([], none, s)
    | some cur => do
      let (s, c) ← runBody head (body cur) s c
      if (body cur).leave then .ok ([cur], some cur, s)
      else do
        let c ← s.enter c.newPrev c.listNext
        let (visited, left, s) ← safeLoop head body fuel s c
        .ok (cur :: visited, left, s)

/-- `SPD_LIST_TRAVERSE_SAFE_BEGIN` (`linkedlist.h:503-513`) with a body. -/
def traverseSafe (fuel : Nat) (head : κ) (body : ι → Edit ι) (s : Nodes κ ι) :
    Outcome (List ι × Option ι × Nodes κ ι) := do
  let c ← s.enter none (s.mem.head head).first
  safeLoop head body fuel s c

/-! ## What a traversal is for -/

/-- The nodes in the place of `x` after the turn for it. -/
def Edit.result (edit : Edit ι) (x : ι) : List ι :=
  match edit.fate with
  | .keep => edit.inserts ++ [x]
  | .remove | .removeAndFree => edit.inserts

/-- The nodes up to the one at which the loop is left. -/
def upTo (body : ι → Edit ι) : List ι → List ι
  | [] => []
  | x :: xs => x :: if (body x).leave then [] else upTo body xs

/-- The node at which the loop is left. -/
def leftAt (body : ι → Edit ι) (xs : List ι) : Option ι := xs.find? fun x => (body x).leave

/-- The list with the insertions and removals of the body. -/
def edited (body : ι → Edit ι) : List ι → List ι
  | [] => []
  | x :: xs => (body x).result x ++ if (body x).leave then xs else edited body xs

/-- Fresh nodes: when `x` is the current node and the nodes before it are `done`, the nodes that
    the body inserts are distinct and in no list. -/
def Fresh (head : κ) (body : ι → Edit ι) : Lists κ ι → List ι → List ι → Prop
  | _, _, [] => True
  | ls, done, x :: xs =>
    (body x).inserts.Nodup ∧
    (∀ y ∈ (body x).inserts, Free (Function.update ls head (done ++ x :: xs)) y) ∧
    ((body x).leave = false → Fresh head body ls (done ++ (body x).result x) xs)

/-- The heap holds the lists, in nodes that are not freed. -/
structure Holds (s : Nodes κ ι) (ls : Lists κ ι) : Prop where
  represents : Represents s.mem ls
  alive : ∀ h, ∀ x ∈ ls h, x ∉ s.freed

section

variable {m : Mem κ ι} {ls : Lists κ ι} {head h : κ} {x y : ι} {pre post done todo xs : List ι}

/-! ### What the macros make of the lists -/

omit [DecidableEq κ] in
/-- The field of a node in no list does not matter. -/
theorem Represents.setNext_free (hr : Represents m ls) (hx : Free ls x) (v : Option ι) :
    Represents (m.setNext x v) ls :=
  ⟨fun j => (hr.chain j).update (hx j) v, hr.disjoint⟩

theorem insertBeforeCurrent_setNext {prev : Option ι} (hx : prev ≠ some x) (v : Option ι) :
    spdListInsertBeforeCurrent (m.setNext x v) h prev x =
      spdListInsertBeforeCurrent m h prev x := by
  cases prev with
  | none => simp [spdListInsertBeforeCurrent, Mem.setNext]
  | some z =>
    have hz : z ≠ x := fun heq => hx (congrArg some heq)
    simp [spdListInsertBeforeCurrent, Mem.setNext, Function.update_of_ne hz]

/-- Whatever the field of a fresh node holds, it can be put before the current one. -/
theorem Represents.insertBeforeCurrent_fresh (hr : Represents m ls)
    (hlist : ls h = pre ++ x :: post) (hy : Free ls y) :
    Represents (spdListInsertBeforeCurrent m h pre.getLast? y)
      (Function.update ls h (pre ++ y :: x :: post)) := by
  have hprev : pre.getLast? ≠ some y := by
    intro heq
    apply hy h
    rw [hlist]
    exact List.mem_append_left _ (List.mem_of_getLast? heq)
  rw [← insertBeforeCurrent_setNext hprev none]
  exact (hr.setNext_free hy none).insertBeforeCurrent hlist hy (Function.update_self _ _ _)

theorem removeCurrent_first : spdListRemoveCurrent m h none x post.head? =
    ⟨Function.update m.next x none, Function.update m.head h
      ⟨post.head?, if post.head? = none then none else (m.head h).last⟩⟩ := by
  unfold spdListRemoveCurrent Mem.setNext Mem.setFirst Mem.setLast
  by_cases hpost : post.head? = none
  · simp [hpost]
  · simp [hpost]

theorem removeCurrent_behind (y : ι) : spdListRemoveCurrent m h (some y) x post.head? =
    ⟨Function.update (Function.update m.next x none) y post.head?, Function.update m.head h
      ⟨(m.head h).first, if post.head? = none then some y else (m.head h).last⟩⟩ := by
  unfold spdListRemoveCurrent Mem.setNext Mem.setLast
  by_cases hpost : post.head? = none
  · simp [hpost]
  · simp [hpost]

theorem Represents.removeCurrent (hr : Represents m ls) (hlist : ls h = pre ++ x :: post) :
    Represents (spdListRemoveCurrent m h pre.getLast? x post.head?)
      (Function.update ls h (pre ++ post)) := by
  have hchain := hr.chain h
  rw [hlist] at hchain
  have hne : ∀ z, z ∉ ls h → z ≠ x := fun z hz heq => hz (by simp [hlist, heq])
  rcases pre.eq_nil_or_concat' with rfl | ⟨pre, y, rfl⟩
  · -- the current node is the first
    rw [List.getLast?_nil, removeCurrent_first]
    exact hr.unlink hlist (fun z hz => Function.update_of_ne (hne z hz) none m.next)
      (hchain.unlink_first.update hchain.notMem_split.2 none)
  · -- `y` is the node before it
    have hnot := hchain.notMem_split
    have hyx : y ≠ x := fun heq => hnot.1 (heq ▸ List.mem_append_right _ (List.mem_singleton_self y))
    have hchain' : Chain m.next (m.head h).first (m.head h).last (pre ++ y :: x :: post) := by
      simpa using hchain
    have hxnot : x ∉ pre ++ y :: post := by
      simp only [List.mem_append, List.mem_cons, List.not_mem_nil, or_false] at hnot ⊢
      tauto
    rw [List.getLast?_concat, removeCurrent_behind, Function.update_comm hyx.symm]
    refine hr.unlink hlist ?_ (by simpa using hchain'.unlink.update hxnot none)
    intro z hz
    have hzy : z ≠ y := fun heq => hz (by simp [hlist, heq])
    rw [Function.update_of_ne (hne z hz), Function.update_of_ne hzy]

/-! ### One turn -/

variable {s : Nodes κ ι} {c : Cursor ι}

omit [DecidableEq κ] in
theorem Nodes.access_ok {p : Option ι} (h : ∀ x ∈ p, x ∉ s.freed) : s.access p = .ok () := by
  cases p with
  | none => rfl
  | some x => exact if_neg (h x rfl)

omit [DecidableEq κ] in
/-- The nodes of a list can be accessed. -/
theorem Holds.access (hs : Holds s ls) {p : Option ι} (hp : ∀ x ∈ p, x ∈ ls h) :
    s.access p = .ok () :=
  Nodes.access_ok fun x hx => hs.alive h x (hp x hx)

/-- In the turn for `x` the nodes before it are `done` and those behind it `todo`. -/
structure Turn (head : κ) (ls : Lists κ ι) (done : List ι) (x : ι) (todo : List ι)
    (s : Nodes κ ι) (c : Cursor ι) : Prop where
  holds : Holds s (Function.update ls head (done ++ x :: todo))
  cur : c.cur = some x
  listPrev : c.listPrev = done.getLast?
  newPrev : c.newPrev = some x
  listNext : c.listNext = todo.head?

/-- After the body the nodes before the next turn are `done`. -/
structure Done (head : κ) (ls : Lists κ ι) (done todo : List ι) (s : Nodes κ ι) (c : Cursor ι) :
    Prop where
  holds : Holds s (Function.update ls head (done ++ todo))
  newPrev : c.newPrev = done.getLast?
  listNext : c.listNext = todo.head?

omit [DecidableEq ι] in
/-- Where the list of one head is replaced, only its nodes have to be compared. -/
theorem mem_update_imp {as bs : List ι} (himp : x ∈ as → x ∈ bs)
    (hx : x ∈ Function.update ls head as h) : x ∈ Function.update ls head bs h := by
  by_cases hh : h = head
  · subst hh
    rw [Function.update_self] at hx ⊢
    exact himp hx
  · rw [Function.update_of_ne hh] at hx ⊢
    exact hx

namespace Turn

omit [DecidableEq ι] in
theorem list_eq : Function.update ls head (done ++ x :: todo) head = done ++ x :: todo :=
  Function.update_self ..

theorem access_listPrev (ht : Turn head ls done x todo s c) : s.access c.listPrev = .ok () := by
  apply ht.holds.access (h := head)
  intro y hy
  rw [ht.listPrev] at hy
  rw [list_eq]
  exact List.mem_append_left _ (List.mem_of_getLast? hy)

theorem insertBefore (ht : Turn head ls done x todo s c)
    (hy : Free (Function.update ls head (done ++ x :: todo)) y) :
    ∃ s' c', s.insertBefore head y c = .ok (s', c') ∧ Turn head ls (done ++ [y]) x todo s' c' := by
  have haccess : Nodes.access { s with freed := s.freed.erase y } c.listPrev = .ok () := by
    apply Nodes.access_ok
    intro z hz
    rw [Finset.mem_erase, not_and_or]
    refine Or.inr (ht.holds.alive head z ?_)
    rw [ht.listPrev] at hz
    rw [list_eq]
    exact List.mem_append_left _ (List.mem_of_getLast? hz)
  have hr := ht.holds.represents.insertBeforeCurrent_fresh list_eq hy
  rw [← ht.listPrev, Function.update_idem, List.append_cons] at hr
  rw [Nodes.insertBefore, haccess]
  refine ⟨_, _, rfl, ⟨hr, ?_⟩, ht.cur, ?_, ht.newPrev, ht.listNext⟩
  · intro j z hz
    rw [Finset.mem_erase, not_and_or, not_not]
    by_cases hzy : z = y
    · exact Or.inl hzy
    · exact Or.inr (ht.holds.alive j z (mem_update_imp (by simp [hzy]) hz))
  · exact List.getLast?_concat.symm

theorem runInserts {elms : List ι} (ht : Turn head ls done x todo s c) (hnodup : elms.Nodup)
    (hfree : ∀ y ∈ elms, Free (Function.update ls head (done ++ x :: todo)) y) :
    ∃ s' c', LinkedList.runInserts head elms s c = .ok (s', c') ∧
      Turn head ls (done ++ elms) x todo s' c' := by
  induction elms generalizing done s c with
  | nil => exact ⟨s, c, rfl, by rwa [List.append_nil]⟩
  | cons y elms ih =>
    obtain ⟨hy, helms⟩ := List.nodup_cons.mp hnodup
    obtain ⟨s1, c1, hinsert, ht1⟩ := ht.insertBefore (hfree y List.mem_cons_self)
    have hfree1 : ∀ z ∈ elms,
        Free (Function.update ls head (done ++ [y] ++ x :: todo)) z := by
      intro z hz j
      have hzy : z ≠ y := fun heq => hy (heq ▸ hz)
      exact mt (mem_update_imp (by simp [hzy])) (hfree z (List.mem_cons_of_mem y hz) j)
    obtain ⟨s', c', hrun, ht'⟩ := ih ht1 helms hfree1
    rw [List.append_assoc] at ht'
    exact ⟨s', c', bind_eq_ok.mpr ⟨(s1, c1), hinsert, hrun⟩, ht'⟩

/-- The current node is taken out, and is then in no list. -/
theorem removeCurrent (ht : Turn head ls done x todo s c) :
    ∃ s' c', s.removeCurrent head c = .ok (s', c') ∧ Done head ls done todo s' c' ∧
      c'.cur = some x ∧ x ∉ s'.freed ∧ Free (Function.update ls head (done ++ todo)) x := by
  have hcur : s.access c.newPrev = .ok () := by
    apply ht.holds.access (h := head)
    intro y hy
    rw [ht.newPrev] at hy
    rw [list_eq, Option.mem_some_iff.mp hy]
    simp
  have hmem : ∀ j, ∀ z ∈ Function.update ls head (done ++ todo) j,
      z ∈ Function.update ls head (done ++ x :: todo) j := by
    intro j z
    apply mem_update_imp
    simp only [List.mem_append, List.mem_cons]
    tauto
  have hx : x ∈ Function.update ls head (done ++ x :: todo) head := by
    rw [list_eq]
    simp
  have hr := ht.holds.represents.removeCurrent list_eq
  rw [← ht.listPrev, ← ht.listNext, Function.update_idem] at hr
  unfold Nodes.removeCurrent
  rw [ht.newPrev] at hcur ⊢
  dsimp only
  rw [hcur, ok_bind, ht.access_listPrev, ok_bind]
  refine ⟨_, _, rfl, ⟨⟨hr, ?_⟩, ht.listPrev, ht.listNext⟩, ht.cur, ?_, ?_⟩
  · exact fun j z hz => ht.holds.alive j z (hmem j z hz)
  · exact ht.holds.alive head x hx
  · intro j hj
    by_cases heq : j = head
    · subst heq
      have hchain := ht.holds.represents.chain j
      rw [list_eq] at hchain
      rw [Function.update_self] at hj
      have hnot := hchain.notMem_split
      simp only [List.mem_append] at hj
      tauto
    · exact ht.holds.represents.notMem hx heq (hmem j x hj)

/-- The node is kept, or removed, or removed and freed. -/
theorem runFate (ht : Turn head ls done x todo s c) (fate : Fate) :
    ∃ s' c', LinkedList.runFate head fate s c = .ok (s', c') ∧
      Done head ls (match fate with
        | .keep => done ++ [x]
        | .remove | .removeAndFree => done) todo s' c' := by
  cases fate with
  | keep =>
    refine ⟨s, c, rfl, ?_, ?_, ht.listNext⟩
    · rw [List.append_assoc, List.singleton_append]
      exact ht.holds
    · rw [List.getLast?_concat]
      exact ht.newPrev
  | remove =>
    obtain ⟨s', c', hremove, hdone, -⟩ := ht.removeCurrent
    exact ⟨s', c', hremove, hdone⟩
  | removeAndFree =>
    obtain ⟨s', c', hremove, hdone, hcur, halive, hfree⟩ := ht.removeCurrent
    have hfreed : s'.freeCurrent c' = .ok { s' with freed := insert x s'.freed } := by
      rw [Nodes.freeCurrent, hcur]
      exact if_neg halive
    refine ⟨{ s' with freed := insert x s'.freed }, c', ?_, ⟨hdone.holds.represents, ?_⟩,
      hdone.newPrev, hdone.listNext⟩
    · rw [LinkedList.runFate, hremove, ok_bind]
      dsimp only
      rw [hfreed, ok_bind]
    · intro j z hz
      rw [Finset.mem_insert, not_or]
      constructor
      · rintro rfl
        exact hfree j hz
      · exact hdone.holds.alive j z hz

/-- What the body does to the list. -/
theorem runBody {edit : Edit ι} (ht : Turn head ls done x todo s c) (hnodup : edit.inserts.Nodup)
    (hfree : ∀ y ∈ edit.inserts, Free (Function.update ls head (done ++ x :: todo)) y) :
    ∃ s' c', LinkedList.runBody head edit s c = .ok (s', c') ∧
      Done head ls (done ++ edit.result x) todo s' c' := by
  obtain ⟨s1, c1, hinserts, ht1⟩ := ht.runInserts hnodup hfree
  obtain ⟨s', c', hfate, hdone⟩ := ht1.runFate edit.fate
  refine ⟨s', c', bind_eq_ok.mpr ⟨(s1, c1), hinserts, hfate⟩, ?_⟩
  unfold Edit.result
  cases hfate : edit.fate with
  | keep =>
    rw [hfate, List.append_assoc] at hdone
    exact hdone
  | remove =>
    rw [hfate] at hdone
    exact hdone
  | removeAndFree =>
    rw [hfate] at hdone
    exact hdone

end Turn

/-! ### The loop -/

omit [DecidableEq ι] in
theorem leftAt_cons (body : ι → Edit ι) (x : ι) (xs : List ι) :
    leftAt body (x :: xs) = if (body x).leave then some x else leftAt body xs := by
  rw [leftAt, List.find?_cons]
  cases (body x).leave <;> rfl

/-- The loop from where `done` is before the next node. -/
theorem safeLoop_holds (body : ι → Edit ι) {fuel : Nat}
    (hs : Holds s (Function.update ls head (done ++ xs))) (hfresh : Fresh head body ls done xs)
    (hfuel : xs.length < fuel) :
    ∃ s', (s.enter done.getLast? xs.head? >>= safeLoop head body fuel s) =
        .ok (upTo body xs, leftAt body xs, s') ∧
      Holds s' (Function.update ls head (done ++ edited body xs)) := by
  induction xs generalizing done s fuel with
  | nil =>
    obtain ⟨fuel, rfl⟩ : ∃ n, fuel = n + 1 := ⟨fuel - 1, by omega⟩
    exact ⟨s, rfl, hs⟩
  | cons x xs ih =>
    obtain ⟨fuel, rfl⟩ : ∃ n, fuel = n + 1 := ⟨fuel - 1, by omega⟩
    obtain ⟨hnodup, hfree, hrest⟩ := hfresh
    have haccess : s.access (some x) = .ok () := by
      apply hs.access (h := head)
      intro y hy
      rw [Function.update_self, ← Option.mem_some_iff.mp hy]
      simp
    have hnext : s.mem.next x = xs.head? := by
      have hchain := hs.represents.chain head
      rw [Function.update_self] at hchain
      obtain ⟨_, -, -, hseg⟩ := Seg.append_iff.mp hchain.seg
      exact hseg.eq_head?
    have henter : s.enter done.getLast? (x :: xs).head? =
        .ok ⟨some x, done.getLast?, some x, xs.head?⟩ := by
      rw [List.head?_cons, Nodes.enter, haccess, ok_bind, Option.bind_some, hnext]
    have hturn : Turn head ls done x xs s ⟨some x, done.getLast?, some x, xs.head?⟩ :=
      ⟨hs, rfl, rfl, rfl, rfl⟩
    obtain ⟨s1, c1, hbody, hdone⟩ := hturn.runBody hnodup hfree
    rw [henter, ok_bind, safeLoop]
    dsimp only
    rw [hbody, ok_bind, upTo, edited, leftAt_cons]
    dsimp only
    by_cases hleave : (body x).leave = true
    · rw [if_pos hleave, if_pos hleave, if_pos hleave, if_pos hleave, ← List.append_assoc]
      exact ⟨s1, rfl, hdone.holds⟩
    · rw [if_neg hleave, if_neg hleave, if_neg hleave, if_neg hleave, ← List.append_assoc,
        hdone.newPrev, hdone.listNext]
      obtain ⟨s', hloop, hs'⟩ := ih hdone.holds (hrest (by simpa using hleave))
        (by simpa using hfuel)
      obtain ⟨c2, henter2, hloop2⟩ := bind_eq_ok.mp hloop
      exact ⟨s', by rw [henter2, ok_bind, hloop2]; rfl, hs'⟩

/-- A traversal of a list makes the edits of its body. -/
theorem traverseSafe_holds (body : ι → Edit ι) {fuel : Nat} (hs : Holds s ls)
    (hfresh : Fresh head body ls [] (ls head)) (hfuel : (ls head).length < fuel) :
    ∃ s', traverseSafe fuel head body s =
        .ok (upTo body (ls head), leftAt body (ls head), s') ∧
      Holds s' (Function.update ls head (edited body (ls head))) := by
  have hstart : Holds s (Function.update ls head ([] ++ ls head)) := by
    rwa [List.nil_append, Function.update_eq_self]
  have hloop := safeLoop_holds body hstart hfresh hfuel
  rw [List.getLast?_nil, ← (hs.represents.chain head).first_eq] at hloop
  exact hloop

omit [DecidableEq ι] in
theorem upTo_isPrefix (body : ι → Edit ι) (xs : List ι) : upTo body xs <+: xs := by
  induction xs with
  | nil => exact List.prefix_rfl
  | cons x xs ih =>
    rw [upTo, List.cons_prefix_cons]
    refine ⟨rfl, ?_⟩
    split
    · exact List.nil_prefix
    · exact ih

end

/-- Every node up to the one at which the loop is left is the current one once and in order, and
    no other is; the heap then holds the list with the edits of the body, and the other lists. -/
theorem traverseSafe_edits (fuel : Nat) (head : κ) (body : ι → Edit ι) {s : Nodes κ ι}
    {ls : Lists κ ι} (hs : Holds s ls) (hfresh : Fresh head body ls [] (ls head))
    (hfuel : (ls head).length < fuel) :
    ∃ s', traverseSafe fuel head body s =
        .ok (upTo body (ls head), leftAt body (ls head), s') ∧
      Holds s' (Function.update ls head (edited body (ls head))) ∧
      (upTo body (ls head)).Nodup ∧ ∀ y, Free ls y → y ∉ upTo body (ls head) := by
  obtain ⟨s', hrun, hs'⟩ := traverseSafe_holds body hs hfresh hfuel
  have hvisited := upTo_isPrefix body (ls head)
  refine ⟨s', hrun, hs', ?_, ?_⟩
  · exact (hs.represents.chain head).nodup.sublist hvisited.sublist
  · exact fun y hy hmem => hy head (hvisited.subset hmem)

/-- A list of three nodes. -/
def threeNodes : Nodes Unit Nat :=
  ⟨⟨fun | 1 => some 2 | 2 => some 3 | _ => none, fun _ => ⟨some 1, some 3⟩⟩, ∅⟩

/-- The first node makes way for two others, and the last for one, at which the loop is left. -/
def editThree : Nat → Edit Nat
  | 1 => ⟨[10, 11], .removeAndFree, false⟩
  | 2 => ⟨[], .keep, false⟩
  | _ => ⟨[12], .remove, true⟩

theorem threeNodes_holds : Holds threeNodes fun _ => [1, 2, 3] where
  represents := ⟨fun _ => ⟨⟨rfl, rfl, rfl, rfl⟩, rfl, by decide⟩, fun h => absurd rfl h⟩
  alive := fun _ _ _ => Finset.notMem_empty _

theorem traverseSafe_three :
    ∃ s', traverseSafe 4 () editThree threeNodes = .ok ([1, 2, 3], some 3, s') ∧
      Holds s' (Function.update (fun _ => [1, 2, 3]) () [10, 11, 2, 12]) ∧
      [1, 2, 3].Nodup ∧ ∀ y, Free (fun _ : Unit => [1, 2, 3]) y → y ∉ [1, 2, 3] :=
  traverseSafe_edits 4 () editThree threeNodes_holds
    (by simp [Fresh, Free, editThree, Edit.result]) (by decide)

end Spider.LinkedList
