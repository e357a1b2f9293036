import Spider.TestEngine.Registry

/-!
# Registered functions

The functions to call at the exit of the daemon and those that get its verbose
messages are kept in two lists. A node is allocated when a function is
registered and freed when it is removed. `spd_register_atexit` removes the
function before it puts it in front, and gives the lock up in between, so that
other threads may come first.
-/

namespace Spider.Callbacks

open Lib Outcome LinkedList
open TestEngine.Registry (eraseP_of_find?_eq_some)

variable {γ ι : Type} [DecidableEq γ] [DecidableEq ι]

/-- The two lists. -/
inductive Which where
  | atexits
  | verbosers
  deriving DecidableEq, Repr

/-- The lists and their nodes. `live` are the nodes that are allocated, and `pending` is the node
    of a thread that is in `spd_register_atexit` and does not have the lock. -/
structure Funcs (γ ι : Type) where
  nodes : Nodes Which ι
  func : ι → γ
  live : Finset ι
  pending : Nat → Option ι

/-- Nothing is registered; the memory holds what it holds. -/
def Funcs.empty (next : ι → Option ι) (func : ι → γ) : Funcs γ ι where
  nodes := ⟨⟨next, fun _ => {}⟩, ∅⟩
  func
  live := ∅
  pending := fun _ => none

namespace Funcs

/-- The node at `x` is allocated for a function. -/
def alloc (s : Funcs γ ι) (x : ι) (f : γ) : Funcs γ ι :=
  { s with
    nodes := { s.nodes with freed := s.nodes.freed.erase x }
    func := Function.update s.func x f
    live := insert x s.live }

/-- `SPD_LIST_INSERT_HEAD`. -/
def insertHead (s : Funcs γ ι) (h : Which) (x : ι) : Funcs γ ι :=
  { s with nodes := { s.nodes with mem := spdListInsertHead s.nodes.mem h x } }

/-- `spd_safe_free`. -/
def free (s : Funcs γ ι) (x : ι) : Outcome (Funcs γ ι) :=
  if x ∈ s.nodes.freed then .fault
  else .ok { s with
    nodes := { s.nodes with freed := insert x s.nodes.freed }
    live := s.live.erase x }

end Funcs

/-- The body of the two loops that remove a function. -/
def removeBody (func : ι → γ) (f : γ) (fate : Fate) (x : ι) : Edit ι :=
  if func x = f then ⟨[], fate, true⟩ else ⟨[], .keep, false⟩

/-- `spd_unregister_atexit` (`spider.c:116-133`); the loop has a turn more than there are nodes. -/
def spdUnregisterAtexit (s : Funcs γ ι) (f : γ) : Outcome (Funcs γ ι) := do
  let (_, ae, nodes) ←
    traverseSafe (s.live.card + 1) .atexits (removeBody s.func f .remove) s.nodes
  match ae with
  | some x => Funcs.free { s with nodes } x
  | none => .ok { s with nodes }

/-- `spd_register_atexit` up to the end of `spd_unregister_atexit` (`spider.c:97-107`). -/
def registerAtexitStart (s : Funcs γ ι) (t : Nat) (node : Option ι) (f : γ) :
    Outcome (Funcs γ ι) :=
  match node with
  | none => .ok s
  | some x =>
    let s := s.alloc x f
    spdUnregisterAtexit { s with
      nodes := { s.nodes with mem := s.nodes.mem.setNext x none }
      pending := Function.update s.pending t (some x) } f

/-- The rest of `spd_register_atexit` (`spider.c:109-113`). -/
def registerAtexitEnd (s : Funcs γ ι) (t : Nat) : Funcs γ ι :=
  match s.pending t with
  | none => s
  | some x => { s.insertHead .atexits x with pending := Function.update s.pending t none }

/-- `spd_register_verbose` (`logger.c:398-409`). -/
def spdRegisterVerbose (s : Funcs γ ι) (node : Option ι) (f : γ) : Funcs γ ι :=
  match node with
  | none => s
  | some x => (s.alloc x f).insertHead .verbosers x

/-- `spd_unregister_verbose` (`logger.c:411-427`). `spd_safe_free` sets `cur` to null, so that the
    result is -1 also for a function that was registered. -/
def spdUnregisterVerbose (s : Funcs γ ι) (f : γ) : Outcome (Int × Funcs γ ι) := do
  let (_, cur, nodes) ←
    traverseSafe (s.live.card + 1) .verbosers (removeBody s.func f .removeAndFree) s.nodes
  match cur with
  | some x => .ok (-1, { s with nodes, live := s.live.erase x })
  | none => .ok (-1, { s with nodes })

/-- The loop of `spd_verbose` (`logger.c:390-391`): the functions it calls. -/
def callEach (s : Funcs γ ι) : Nat → Option ι → Outcome (List γ)
  | 0, _ => .timeout
  | _ + 1, none => .ok []
  | fuel + 1, some x =>
    if x ∈ s.nodes.freed then .fault
    else do
      let fs ← callEach s fuel (s.nodes.mem.next x)
      .ok (s.func x :: fs)

/-- The functions that `spd_verbose` calls with a message. -/
def verbosersCalled (s : Funcs γ ι) : Outcome (List γ) :=
  callEach s (s.live.card + 1) (s.nodes.mem.head .verbosers).first

/-! ## Runs -/

/-- The lists, and the functions that they are to hold. -/
structure Sys (γ ι : Type) where
  funcs : Funcs γ ι
  atexits : List γ
  verbosers : List γ

/-- A call, or a part of one that has the lock. A registration comes with the node that it
    allocates, if there is memory. -/
inductive Op (γ ι : Type) where
  | registerAtexitStart (t : Nat) (node : Option ι) (f : γ)
  | registerAtexitEnd (t : Nat)
  | unregisterAtexit (f : γ)
  | registerVerbose (node : Option ι) (f : γ)
  | unregisterVerbose (f : γ)

def step (s : Sys γ ι) : Op γ ι → Outcome (Sys γ ι)
  | .registerAtexitStart t node f => do
    let funcs ← registerAtexitStart s.funcs t node f
    .ok { s with funcs, atexits := if node.isSome then s.atexits.erase f else s.atexits }
  | .registerAtexitEnd t =>
    let registered := (s.funcs.pending t).map s.funcs.func
    .ok { s with
      funcs := registerAtexitEnd s.funcs t
      atexits := registered.toList ++ s.atexits }
  | .unregisterAtexit f => do
    let funcs ← spdUnregisterAtexit s.funcs f
    .ok { s with funcs, atexits := s.atexits.erase f }
  | .registerVerbose node f =>
    .ok { s with
      funcs := spdRegisterVerbose s.funcs node f
      verbosers := if node.isSome then f :: s.verbosers else s.verbosers }
  | .unregisterVerbose f => do
    let (_, funcs) ← spdUnregisterVerbose s.funcs f
    .ok { s with funcs, verbosers := s.verbosers.erase f }

/-- A new node is not allocated yet, and a thread is in one call at a time. -/
def Enabled (s : Sys γ ι) : Op γ ι → Prop
  | .registerAtexitStart t node _ => s.funcs.pending t = none ∧ ∀ x ∈ node, x ∉ s.funcs.live
  | .registerVerbose node _ => ∀ x ∈ node, x ∉ s.funcs.live
  | .registerAtexitEnd _ | .unregisterAtexit _ | .unregisterVerbose _ => True

instance (s : Sys γ ι) : (op : Op γ ι) → Decidable (Enabled s op)
  | .registerAtexitStart _ _ _ => inferInstanceAs (Decidable (_ ∧ _))
  | .registerVerbose _ _ => inferInstanceAs (Decidable (∀ _, _))
  | .registerAtexitEnd _ | .unregisterAtexit _ | .unregisterVerbose _ => isTrue trivial

/-- The lists hold the functions they are to hold, in nodes that are allocated, no other node is
    allocated but those of registrations under way, and a message is passed to each function. -/
structure Registered (s : Sys γ ι) (ls : Lists Which ι) : Prop where
  holds : Holds s.funcs.nodes ls
  live : ∀ x, x ∈ s.funcs.live ↔ ¬ Free ls x ∨ ∃ t, s.funcs.pending t = some x
  atexits : (ls .atexits).map s.funcs.func = s.atexits
  verbosers : (ls .verbosers).map s.funcs.func = s.verbosers
  called : verbosersCalled s.funcs = .ok s.verbosers

/-! ### What a traversal frees -/

section

variable {κ : Type} [DecidableEq κ] {head : κ} {body : ι → Edit ι} {n n' : Nodes κ ι} {c c' : Cursor ι}

/-- Removing takes a node out of its list and frees nothing; only `free` does. -/
theorem runFate_freed {fate : Fate} (h : runFate head fate n c = .ok (n', c')) :
    c'.cur = c.cur ∧ ∀ y ∈ n'.freed, y ∈ n.freed ∨ c.cur = some y ∧ fate = .removeAndFree := by
  have hremove : ∀ {n₁ c₁}, n.removeCurrent head c = .ok (n₁, c₁) →
      n₁.freed = n.freed ∧ c₁.cur = c.cur := by
    intro n₁ c₁ h
    unfold Nodes.removeCurrent at h
    split at h
    · cases h
    · obtain ⟨-, -, h⟩ := bind_eq_ok.mp h
      obtain ⟨-, -, h⟩ := bind_eq_ok.mp h
      cases h
      exact ⟨rfl, rfl⟩
  cases fate with
  | keep =>
    cases h
    exact ⟨rfl, fun y hy => Or.inl hy⟩
  | remove =>
    obtain ⟨hfreed, hcur⟩ := hremove h
    exact ⟨hcur, fun y hy => Or.inl (hfreed ▸ hy)⟩
  | removeAndFree =>
    obtain ⟨⟨n₁, c₁⟩, h₁, h⟩ := bind_eq_ok.mp h
    obtain ⟨n₂, h₂, h⟩ := bind_eq_ok.mp h
    cases h
    obtain ⟨hfreed, hcur⟩ := hremove h₁
    refine ⟨hcur, fun y hy => ?_⟩
    unfold Nodes.freeCurrent at h₂
    split at h₂
    · cases h₂
      exact Or.inl (hfreed ▸ hy)
    · next x hx =>
      split at h₂
      · cases h₂
      · cases h₂
        rcases Finset.mem_insert.mp hy with rfl | hy
        · exact Or.inr ⟨hcur ▸ hx, rfl⟩
        · exact Or.inl (hfreed ▸ hy)

theorem safeLoop_freed (hnone : ∀ x, (body x).inserts = []) {fuel : Nat} {visited : List ι}
    {left : Option ι} (h : safeLoop head body fuel n c = .ok (visited, left, n')) :
    ∀ y ∈ n'.freed, y ∈ n.freed ∨ y ∈ visited ∧ (body y).fate = .removeAndFree := by
  induction fuel generalizing n c visited with
  | zero => cases h
  | succ fuel ih =>
    unfold safeLoop at h
    split at h
    · cases h
      exact fun y hy => Or.inl hy
    · next cur hcur =>
      obtain ⟨⟨n₁, c₁⟩, hbody, h⟩ := bind_eq_ok.mp h
      have hfate : runFate head (body cur).fate n c = .ok (n₁, c₁) := by
        unfold runBody at hbody
        rw [hnone cur] at hbody
        exact hbody
      obtain ⟨-, hfreed⟩ := runFate_freed hfate
      have hhere : ∀ y ∈ n₁.freed, y ∈ n.freed ∨ y = cur ∧ (body y).fate = .removeAndFree := by
        intro y hy
        rcases hfreed y hy with hy | ⟨hy, hf⟩
        · exact Or.inl hy
        · obtain rfl := Option.some.inj (hcur.symm.trans hy)
          exact Or.inr ⟨rfl, hf⟩
      dsimp only at h
      split at h
      · cases h
        intro y hy
        rcases hhere y hy with hy | ⟨rfl, hf⟩
        · exact Or.inl hy
        · exact Or.inr ⟨List.mem_singleton_self y, hf⟩
      · obtain ⟨c₂, -, h⟩ := bind_eq_ok.mp h
        obtain ⟨⟨visited', left', n₂⟩, hloop, h⟩ := bind_eq_ok.mp h
        cases h
        intro y hy
        rcases ih hloop y hy with hy | ⟨hy, hf⟩
        · rcases hhere y hy with hy | ⟨rfl, hf⟩
          · exact Or.inl hy
          · exact Or.inr ⟨List.mem_cons_self, hf⟩
        · exact Or.inr ⟨List.mem_cons_of_mem _ hy, hf⟩

end

/-! ### One call -/

/-- The heap holds the lists; the nodes that are allocated and in no list are `out`. -/
structure Core (s : Funcs γ ι) (ls : Lists Which ι) (out : ι → Prop) : Prop where
  holds : Holds s.nodes ls
  live : ∀ x, x ∈ s.live ↔ ¬ Free ls x ∨ out x
  outFree : ∀ {x}, out x → Free ls x ∧ x ∉ s.nodes.freed

section

variable {s : Funcs γ ι} {ls : Lists Which ι} {h : Which} {f : γ} {x : ι} {fate : Fate}
  {m : Mem Which ι} {out : ι → Prop}

omit [DecidableEq γ] [DecidableEq ι] in
theorem mem_of_not_free (hx : ¬ Free ls x) : ∃ h, x ∈ ls h := by
  unfold Free at hx
  push Not at hx
  exact hx

omit [DecidableEq γ] [DecidableEq ι] in
theorem not_free_of_mem (hx : x ∈ ls h) : ¬ Free ls x := fun hfree => hfree h hx

omit [DecidableEq γ] in
/-- The loops have turns enough. -/
theorem Core.length_lt (hi : Core s ls out) (h : Which) : (ls h).length < s.live.card + 1 := by
  have hnodup := (hi.holds.represents.chain h).nodup
  rw [← List.toFinset_card_of_nodup hnodup]
  refine Nat.lt_succ_of_le (Finset.card_le_card fun x hx => ?_)
  exact (hi.live x).mpr (Or.inl (not_free_of_mem (List.mem_toFinset.mp hx)))

omit [DecidableEq ι] in
theorem edited_removeBody (hfate : fate ≠ .keep) (func : ι → γ) (f : γ) (l : List ι) :
    edited (removeBody func f fate) l = l.eraseP fun x => func x = f := by
  induction l with
  | nil => rfl
  | cons a l ih =>
    rw [edited, List.eraseP_cons, ih, removeBody]
    by_cases hf : func a = f
    · cases fate <;> simp_all [Edit.result]
    · simp [hf, Edit.result]

omit [DecidableEq ι] in
theorem leftAt_removeBody (func : ι → γ) (f : γ) (l : List ι) :
    leftAt (removeBody func f fate) l = l.find? fun x => func x = f := by
  unfold leftAt removeBody
  congr 1
  funext a
  by_cases hf : func a = f
  · simp [hf]
  · simp [hf]

omit [DecidableEq ι] in
theorem removeBody_inserts (func : ι → γ) (f : γ) (x : ι) :
    (removeBody func f fate x).inserts = [] := by
  unfold removeBody
  split <;> rfl

omit [DecidableEq ι] in
theorem fresh_removeBody (func : ι → γ) (f : γ) (ls : Lists Which ι) (pre l : List ι) :
    Fresh h (removeBody func f fate) ls pre l := by
  induction l generalizing pre with
  | nil => trivial
  | cons a l ih =>
    rw [Fresh, removeBody_inserts]
    exact ⟨List.nodup_nil, fun y hy => absurd hy List.not_mem_nil, fun _ => ih _⟩

omit [DecidableEq ι] in
/-- The functions of a list without the first node with a function. -/
theorem map_eraseP (func : ι → γ) (f : γ) (l : List ι) :
    (l.eraseP fun x => func x = f).map func = (l.map func).erase f := by
  induction l with
  | nil => rfl
  | cons a l ih =>
    rw [List.eraseP_cons, List.map_cons, List.erase_cons]
    by_cases hf : func a = f
    · simp [hf]
    · simp [hf, ih]

omit [DecidableEq ι] in
/-- A loop is left at the first node at which it can be. -/
theorem leftAt_of_mem_upTo {body : ι → Edit ι} {l : List ι} (hx : x ∈ upTo body l)
    (hleave : (body x).leave = true) : leftAt body l = some x := by
  induction l with
  | nil => cases hx
  | cons a l ih =>
    rw [leftAt, List.find?_cons]
    rw [upTo, List.mem_cons] at hx
    cases ha : (body a).leave with
    | true =>
      rw [ha, if_pos rfl] at hx
      rcases hx with rfl | hx
      · rfl
      · cases hx
    | false =>
      rw [ha, if_neg (by decide)] at hx
      rcases hx with rfl | hx
      · rw [ha] at hleave
        cases hleave
      · exact ih hx

/-- The loop that removes a function takes its first node out of the list, and frees that node or
    none. -/
theorem Core.remove (hi : Core s ls out) (h : Which) (f : γ) (fate : Fate)
    (hfate : fate ≠ .keep) : ∃ visited nodes,
      traverseSafe (s.live.card + 1) h (removeBody s.func f fate) s.nodes =
        .ok (visited, (ls h).find? (fun x => s.func x = f), nodes) ∧
      Holds nodes (Function.update ls h ((ls h).eraseP fun x => s.func x = f)) ∧
      ∀ y ∈ nodes.freed, y ∈ s.nodes.freed ∨
        fate = .removeAndFree ∧ (ls h).find? (fun x => s.func x = f) = some y := by
  obtain ⟨nodes, hrun, hnodes⟩ := traverseSafe_holds (removeBody s.func f fate) hi.holds
    (fresh_removeBody s.func f ls [] (ls h)) (hi.length_lt h)
  rw [edited_removeBody hfate] at hnodes
  refine ⟨_, nodes, hrun.trans (by rw [leftAt_removeBody]), hnodes, fun y hy => ?_⟩
  obtain ⟨c, -, hloop⟩ := bind_eq_ok.mp hrun
  rcases safeLoop_freed (removeBody_inserts s.func f) hloop y hy with hy | ⟨hy, hf⟩
  · exact Or.inl hy
  · have hfunc : s.func y = f := by
      by_contra hne
      rw [removeBody, if_neg hne] at hf
      cases hf
    have hbody : removeBody s.func f fate y = ⟨[], fate, true⟩ := if_pos hfunc
    rw [hbody] at hf
    refine Or.inr ⟨hf, ?_⟩
    rw [← leftAt_removeBody]
    exact leftAt_of_mem_upTo hy (by rw [hbody])

omit [DecidableEq γ] in
/-- What is in no list when a node has been removed. -/
theorem free_erase_iff (hr : Represents m ls) (hx : x ∈ ls h) (y : ι) :
    Free (Function.update ls h ((ls h).erase x)) y ↔ Free ls y ∨ y = x := by
  have hnodup := (hr.chain h).nodup
  constructor
  · intro hfree
    by_cases hy : y = x
    · exact Or.inr hy
    · refine Or.inl fun j hj => hfree j ?_
      by_cases hjh : j = h
      · subst hjh
        rw [Function.update_self]
        exact hnodup.mem_erase_iff.mpr ⟨hy, hj⟩
      · rw [Function.update_of_ne hjh]
        exact hj
  · intro hy j hj
    by_cases hjh : j = h
    · subst hjh
      rw [Function.update_self, hnodup.mem_erase_iff] at hj
      rcases hy with hy | rfl
      · exact hy j hj.2
      · exact hj.1 rfl
    · rw [Function.update_of_ne hjh] at hj
      rcases hy with hy | rfl
      · exact hy j hj
      · exact hr.notMem hx hjh hj

omit [DecidableEq γ] in
/-- A node is removed and freed. -/
theorem Core.removed (hi : Core s ls out) (hx : x ∈ ls h) {nodes : Nodes Which ι}
    (hrep : Represents nodes.mem (Function.update ls h ((ls h).erase x)))
    (hfreed : ∀ y ∈ nodes.freed, y ∈ s.nodes.freed ∨ y = x) :
    Core { s with nodes, live := s.live.erase x }
      (Function.update ls h ((ls h).erase x)) out := by
  have hiff := free_erase_iff hi.holds.represents hx
  have hout : ¬ out x := fun ho => (hi.outFree ho).1 h hx
  refine ⟨⟨hrep, ?_⟩, ?_, ?_⟩
  · intro j y hy hmem
    have hnot := not_free_of_mem hy
    rw [hiff, not_or] at hnot
    obtain ⟨j', hj'⟩ := mem_of_not_free hnot.1
    rcases hfreed y hmem with hf | rfl
    · exact hi.holds.alive j' y hj' hf
    · exact hnot.2 rfl
  · intro y
    dsimp only
    rw [Finset.mem_erase, hi.live, hiff, not_or]
    constructor
    · rintro ⟨hne, hfree | ho⟩
      · exact Or.inl ⟨hfree, hne⟩
      · exact Or.inr ho
    · rintro (⟨hfree, hne⟩ | ho)
      · exact ⟨hne, Or.inl hfree⟩
      · refine ⟨?_, Or.inr ho⟩
        rintro rfl
        exact hout ho
  · intro y ho
    obtain ⟨hfree, hnot⟩ := hi.outFree ho
    refine ⟨(hiff y).mpr (Or.inl hfree), fun hmem => ?_⟩
    rcases hfreed y hmem with hf | rfl
    · exact hnot hf
    · exact hout ho

omit [DecidableEq γ] [DecidableEq ι] in
theorem Core.unchanged (hi : Core s ls out) {nodes : Nodes Which ι} (hnodes : Holds nodes ls)
    (hfreed : ∀ y ∈ nodes.freed, y ∈ s.nodes.freed) : Core { s with nodes } ls out where
  holds := hnodes
  live := hi.live
  outFree ho := ⟨(hi.outFree ho).1, fun hmem => (hi.outFree ho).2 (hfreed _ hmem)⟩

/-- The lists without the first node with a function. -/
def without (ls : Lists Which ι) (func : ι → γ) (h : Which) (f : γ) : Lists Which ι :=
  Function.update ls h ((ls h).eraseP fun x => func x = f)

omit [DecidableEq ι] in
theorem without_of_none (hfind : (ls h).find? (fun x => s.func x = f) = none) :
    without ls s.func h f = ls := by
  unfold without
  rw [List.eraseP_of_forall_not (List.find?_eq_none.mp hfind), Function.update_eq_self]

theorem Core.unregisterAtexit (hi : Core s ls out) (f : γ) :
    ∃ s', spdUnregisterAtexit s f = .ok s' ∧ Core s' (without ls s.func .atexits f) out ∧
      s'.func = s.func ∧ s'.pending = s.pending := by
  obtain ⟨visited, nodes, hrun, hnodes, hfreed⟩ := hi.remove .atexits f .remove (by decide)
  have hfreed' : ∀ y ∈ nodes.freed, y ∈ s.nodes.freed := by
    intro y hy
    rcases hfreed y hy with hy | ⟨hf, -⟩
    · exact hy
    · cases hf
  unfold spdUnregisterAtexit
  rw [hrun, ok_bind]
  cases hfind : (ls .atexits).find? fun x => s.func x = f with
  | none =>
    have hnodes' : Holds nodes (without ls s.func .atexits f) := hnodes
    rw [without_of_none hfind] at hnodes' ⊢
    exact ⟨_, rfl, hi.unchanged hnodes' hfreed', rfl, rfl⟩
  | some x =>
    have hx := List.mem_of_find?_eq_some hfind
    have hnot : x ∉ nodes.freed := fun hmem => hi.holds.alive _ x hx (hfreed' x hmem)
    dsimp only
    rw [Funcs.free, if_neg hnot]
    refine ⟨_, rfl, ?_, rfl, rfl⟩
    unfold without
    rw [eraseP_of_find?_eq_some hfind] at hnodes ⊢
    refine hi.removed hx hnodes.represents fun y hy => ?_
    rcases Finset.mem_insert.mp hy with rfl | hy
    · exact Or.inr rfl
    · exact Or.inl (hfreed' y hy)

theorem Core.unregisterVerbose (hi : Core s ls out) (f : γ) :
    ∃ s', spdUnregisterVerbose s f = .ok (-1, s') ∧ Core s' (without ls s.func .verbosers f) out ∧
      s'.func = s.func ∧ s'.pending = s.pending := by
  obtain ⟨visited, nodes, hrun, hnodes, hfreed⟩ :=
    hi.remove .verbosers f .removeAndFree (by decide)
  unfold spdUnregisterVerbose
  rw [hrun, ok_bind]
  cases hfind : (ls .verbosers).find? fun x => s.func x = f with
  | none =>
    have hnodes' : Holds nodes (without ls s.func .verbosers f) := hnodes
    rw [without_of_none hfind] at hnodes' ⊢
    refine ⟨_, rfl, hi.unchanged hnodes' fun y hy => ?_, rfl, rfl⟩
    rcases hfreed y hy with hy | ⟨-, hy⟩
    · exact hy
    · rw [hfind] at hy
      cases hy
  | some x =>
    have hx := List.mem_of_find?_eq_some hfind
    refine ⟨_, rfl, ?_, rfl, rfl⟩
    unfold without
    rw [eraseP_of_find?_eq_some hfind] at hnodes ⊢
    refine hi.removed hx hnodes.represents fun y hy => ?_
    rcases hfreed y hy with hy | ⟨-, hy⟩
    · exact Or.inl hy
    · rw [hfind] at hy
      exact Or.inr (Option.some.inj hy).symm

omit [DecidableEq γ] in
/-- A node that is allocated is in no list; its fields may be written. -/
theorem Core.alloc (hi : Core s ls out) (hx : x ∉ s.live) (f : γ) (next : Option ι) :
    Core { s.alloc x f with
      nodes := ⟨s.nodes.mem.setNext x next, s.nodes.freed.erase x⟩ } ls fun y => out y ∨ y = x := by
  have hnot : ¬ (¬ Free ls x ∨ out x) := fun h => hx ((hi.live x).mpr h)
  rw [not_or, not_not] at hnot
  refine ⟨⟨hi.holds.represents.setNext_free hnot.1 next, ?_⟩, ?_, ?_⟩
  · intro j y hy hmem
    exact hi.holds.alive j y hy (Finset.mem_of_mem_erase hmem)
  · intro y
    show y ∈ insert x s.live ↔ _
    rw [Finset.mem_insert, hi.live]
    tauto
  · intro y ho
    rcases ho with ho | rfl
    · have hfree := hi.outFree ho
      exact ⟨hfree.1, fun hmem => hfree.2 (Finset.mem_of_mem_erase hmem)⟩
    · exact ⟨hnot.1, Finset.notMem_erase _ _⟩

omit [DecidableEq γ] in
theorem Core.insertHead (hi : Core s ls out) (hx : out x) (h : Which) :
    Core (s.insertHead h x) (Function.update ls h (x :: ls h)) fun y => out y ∧ y ≠ x := by
  obtain ⟨hfree, hnot⟩ := hi.outFree hx
  have hiff : ∀ y, Free (Function.update ls h (x :: ls h)) y ↔ Free ls y ∧ y ≠ x := by
    intro y
    constructor
    · intro hy
      refine ⟨fun j hj => hy j ?_, ?_⟩
      · by_cases hjh : j = h
        · subst hjh
          rw [Function.update_self]
          exact List.mem_cons_of_mem _ hj
        · rw [Function.update_of_ne hjh]
          exact hj
      · rintro rfl
        refine hy h ?_
        rw [Function.update_self]
        exact List.mem_cons_self
    · rintro ⟨hy, hne⟩ j hj
      by_cases hjh : j = h
      · subst hjh
        rw [Function.update_self] at hj
        exact hy j ((List.mem_cons.mp hj).resolve_left hne)
      · rw [Function.update_of_ne hjh] at hj
        exact hy j hj
  refine ⟨⟨hi.holds.represents.insertHead hfree, ?_⟩, ?_, ?_⟩
  · intro j y hy hmem
    have hnotFree := not_free_of_mem hy
    rw [hiff, not_and_or, not_not] at hnotFree
    rcases hnotFree with hnotFree | rfl
    · obtain ⟨j', hj'⟩ := mem_of_not_free hnotFree
      exact hi.holds.alive j' y hj' hmem
    · exact hnot hmem
  · intro y
    show y ∈ s.live ↔ _
    rw [hi.live, hiff]
    by_cases hy : y = x
    · subst hy
      simp [hx]
    · simp [hy]
  · intro y ho
    have hfree' := hi.outFree ho.1
    exact ⟨(hiff y).mpr ⟨hfree'.1, ho.2⟩, hfree'.2⟩

omit [DecidableEq γ] in
/-- The functions that the nodes of a list are called for. -/
theorem callEach_eq {p : Option ι} {l : List ι} {fuel : Nat} (hseg : Seg s.nodes.mem.next p l none)
    (halive : ∀ x ∈ l, x ∉ s.nodes.freed) (hfuel : l.length < fuel) :
    callEach s fuel p = .ok (l.map s.func) := by
  induction l generalizing p fuel with
  | nil =>
    obtain ⟨fuel, rfl⟩ := Nat.exists_eq_add_of_lt hfuel
    rw [Seg.nil_iff] at hseg
    subst hseg
    rfl
  | cons x l ih =>
    cases fuel with
    | zero => cases hfuel
    | succ fuel =>
      obtain ⟨rfl, hrest⟩ := hseg
      rw [callEach, if_neg (halive x List.mem_cons_self),
        ih hrest (fun y hy => halive y (List.mem_cons_of_mem _ hy)) (Nat.lt_of_succ_lt_succ hfuel)]
      rfl

omit [DecidableEq γ] in
theorem Core.called (hi : Core s ls out) :
    verbosersCalled s = .ok ((ls .verbosers).map s.func) := by
  have hchain := hi.holds.represents.chain .verbosers
  exact callEach_eq hchain.seg (hi.holds.alive .verbosers) (hi.length_lt .verbosers)

end

/-! ### Runs -/

/-- The nodes of the registrations under way. -/
def Funcs.Pending (s : Funcs γ ι) (x : ι) : Prop := ∃ t, s.pending t = some x

/-- What is true in every state of a run. -/
structure Inv (s : Sys γ ι) (ls : Lists Which ι) : Prop where
  core : Core s.funcs ls s.funcs.Pending
  distinct : ∀ {t t' x}, s.funcs.pending t = some x → s.funcs.pending t' = some x → t = t'
  atexits : (ls .atexits).map s.funcs.func = s.atexits
  verbosers : (ls .verbosers).map s.funcs.func = s.verbosers

section

variable {s : Sys γ ι} {ls : Lists Which ι}

omit [DecidableEq γ] in
theorem Inv.registered (hi : Inv s ls) : Registered s ls where
  holds := hi.core.holds
  live := hi.core.live
  atexits := hi.atexits
  verbosers := hi.verbosers
  called := hi.verbosers ▸ hi.core.called

omit [DecidableEq γ] [DecidableEq ι] in
theorem inv_empty (next : ι → Option ι) (func : ι → γ) :
    Inv ⟨.empty next func, [], []⟩ fun _ => [] where
  core := by
    refine ⟨⟨represents_init next, fun _ _ h => absurd h List.not_mem_nil⟩, ?_, ?_⟩
    · intro x
      constructor
      · intro hx
        cases hx
      · rintro (hfree | ⟨t, ht⟩)
        · exact absurd (fun _ => List.not_mem_nil) hfree
        · cases ht
    · rintro x ⟨t, ht⟩
      cases ht
  distinct ht := by cases ht
  atexits := rfl
  verbosers := rfl

omit [DecidableEq γ] [DecidableEq ι] in
theorem Inv.mem_live (hi : Inv s ls) {h : Which} {x : ι} (hx : x ∈ ls h) : x ∈ s.funcs.live :=
  (hi.core.live x).mpr (Or.inl (not_free_of_mem hx))

omit [DecidableEq γ] in
/-- The function of a new node is no function of a list. -/
theorem Inv.map_update (hi : Inv s ls) {x : ι} (hx : x ∉ s.funcs.live) (f : γ) (h : Which) :
    (ls h).map (Function.update s.funcs.func x f) = (ls h).map s.funcs.func := by
  refine List.map_congr_left fun y hy => Function.update_of_ne ?_ ..
  rintro rfl
  exact hx (hi.mem_live hy)

omit [DecidableEq ι] in
theorem map_without (func : ι → γ) (f : γ) (h j : Which) :
    (without ls func h f j).map func =
      if j = h then ((ls j).map func).erase f else (ls j).map func := by
  unfold without
  by_cases hj : j = h
  · subst hj
    rw [Function.update_self, if_pos rfl, map_eraseP]
  · rw [Function.update_of_ne hj, if_neg hj]

omit [DecidableEq ι] in
/-- A function is removed. -/
theorem Inv.without (hi : Inv s ls) {s' : Funcs γ ι} {h : Which} {f : γ}
    (hcore : Core s' (without ls s.funcs.func h f) s.funcs.Pending)
    (hfunc : s'.func = s.funcs.func) (hpending : s'.pending = s.funcs.pending) :
    Inv ⟨s', if .atexits = h then s.atexits.erase f else s.atexits,
      if .verbosers = h then s.verbosers.erase f else s.verbosers⟩
      (without ls s.funcs.func h f) where
  core := by
    unfold Funcs.Pending
    rw [hpending]
    exact hcore
  distinct := by
    rw [hpending]
    exact hi.distinct
  atexits := by rw [hfunc, map_without, hi.atexits]
  verbosers := by rw [hfunc, map_without, hi.verbosers]

omit [DecidableEq γ] in
/-- A node is allocated in `spd_register_atexit`. -/
theorem Inv.alloc (hi : Inv s ls) {t : Nat} {x : ι} (ht : s.funcs.pending t = none)
    (hx : x ∉ s.funcs.live) (f : γ) (next : Option ι) :
    Inv { s with funcs := { s.funcs.alloc x f with
      nodes := ⟨s.funcs.nodes.mem.setNext x next, s.funcs.nodes.freed.erase x⟩
      pending := Function.update s.funcs.pending t (some x) } } ls := by
  have hcore := hi.core.alloc hx f next
  have hnew : ∀ {t'}, s.funcs.pending t' ≠ some x :=
    fun ht' => hx ((hi.core.live x).mpr (Or.inr ⟨_, ht'⟩))
  refine ⟨⟨hcore.holds, ?_, ?_⟩, ?_, ?_, ?_⟩
  · intro y
    rw [hcore.live]
    refine or_congr_right ?_
    constructor
    · rintro (⟨t', ht'⟩ | rfl)
      · refine ⟨t', ?_⟩
        have hne : t' ≠ t := by
          rintro rfl
          cases ht.symm.trans ht'
        exact (Function.update_of_ne hne ..).trans ht'
      · exact ⟨t, Function.update_self ..⟩
    · rintro ⟨t', ht'⟩
      dsimp only at ht'
      by_cases hne : t' = t
      · rw [hne, Function.update_self] at ht'
        exact Or.inr (Option.some.inj ht').symm
      · rw [Function.update_of_ne hne] at ht'
        exact Or.inl ⟨t', ht'⟩
  · rintro y ⟨t', ht'⟩
    dsimp only at ht'
    by_cases hne : t' = t
    · rw [hne, Function.update_self] at ht'
      exact hcore.outFree (Or.inr (Option.some.inj ht').symm)
    · rw [Function.update_of_ne hne] at ht'
      exact hcore.outFree (Or.inl ⟨t', ht'⟩)
  · intro t₁ t₂ y h₁ h₂
    dsimp only at h₁ h₂
    by_cases hne₁ : t₁ = t <;> by_cases hne₂ : t₂ = t
    · rw [hne₁, hne₂]
    · rw [hne₁, Function.update_self] at h₁
      rw [Function.update_of_ne hne₂, ← h₁] at h₂
      exact absurd h₂ hnew
    · rw [hne₂, Function.update_self] at h₂
      rw [Function.update_of_ne hne₁, ← h₂] at h₁
      exact absurd h₁ hnew
    · rw [Function.update_of_ne hne₁] at h₁
      rw [Function.update_of_ne hne₂] at h₂
      exact hi.distinct h₁ h₂
  · exact (hi.map_update hx f .atexits).trans hi.atexits
  · exact (hi.map_update hx f .verbosers).trans hi.verbosers

omit [DecidableEq γ] in
/-- The node of a registration is put into the list. -/
theorem Inv.registerAtexitEnd (hi : Inv s ls) {t : Nat} {x : ι}
    (ht : s.funcs.pending t = some x) :
    Inv { s with
      funcs := registerAtexitEnd s.funcs t
      atexits := s.funcs.func x :: s.atexits }
      (Function.update ls .atexits (x :: ls .atexits)) := by
  have hcore := hi.core.insertHead ⟨t, ht⟩ .atexits
  have hpending : ∀ {t' y}, Function.update s.funcs.pending t none t' = some y →
      s.funcs.pending t' = some y ∧ t' ≠ t := by
    intro t' y ht'
    by_cases hne : t' = t
    · rw [hne, Function.update_self] at ht'
      cases ht'
    · rw [Function.update_of_ne hne] at ht'
      exact ⟨ht', hne⟩
  unfold Callbacks.registerAtexitEnd
  rw [ht]
  refine ⟨⟨hcore.holds, ?_, ?_⟩, ?_, ?_, ?_⟩
  · intro y
    rw [hcore.live]
    refine or_congr_right ?_
    constructor
    · rintro ⟨⟨t', ht'⟩, hne⟩
      refine ⟨t', ?_⟩
      have hnet : t' ≠ t := by
        rintro rfl
        exact hne (Option.some.inj (ht'.symm.trans ht))
      exact (Function.update_of_ne hnet ..).trans ht'
    · rintro ⟨t', ht'⟩
      obtain ⟨hold, hne⟩ := hpending ht'
      refine ⟨⟨t', hold⟩, ?_⟩
      rintro rfl
      exact hne (hi.distinct hold ht)
  · rintro y ⟨t', ht'⟩
    obtain ⟨hold, hne⟩ := hpending ht'
    refine hcore.outFree ⟨⟨t', hold⟩, ?_⟩
    rintro rfl
    exact hne (hi.distinct hold ht)
  · intro t₁ t₂ y h₁ h₂
    exact hi.distinct (hpending h₁).1 (hpending h₂).1
  · show (Function.update ls .atexits (x :: ls .atexits) .atexits).map s.funcs.func = _
    rw [Function.update_self, List.map_cons, hi.atexits]
  · show (Function.update ls .atexits (x :: ls .atexits) .verbosers).map s.funcs.func = _
    rw [Function.update_of_ne (by decide), hi.verbosers]

omit [DecidableEq γ] in
theorem Inv.registerVerbose (hi : Inv s ls) {x : ι} (hx : x ∉ s.funcs.live) (f : γ) :
    Inv { s with funcs := spdRegisterVerbose s.funcs (some x) f, verbosers := f :: s.verbosers }
      (Function.update ls .verbosers (x :: ls .verbosers)) := by
  have halloc := hi.core.alloc hx f (s.funcs.nodes.mem.next x)
  have hcore := halloc.insertHead (Or.inr rfl) .verbosers
  have hsame : s.funcs.nodes.mem.setNext x (s.funcs.nodes.mem.next x) = s.funcs.nodes.mem := by
    rw [Mem.setNext, Function.update_eq_self]
  rw [hsame] at hcore
  have hout : ∀ y, (s.funcs.Pending y ∨ y = x) ∧ y ≠ x ↔ s.funcs.Pending y := by
    intro y
    constructor
    · rintro ⟨hp | rfl, hne⟩
      · exact hp
      · exact absurd rfl hne
    · intro hp
      refine ⟨Or.inl hp, ?_⟩
      rintro rfl
      exact hx ((hi.core.live y).mpr (Or.inr hp))
  refine ⟨⟨hcore.holds, ?_, ?_⟩, hi.distinct, ?_, ?_⟩
  · intro y
    refine (hcore.live y).trans (or_congr_right (hout y))
  · intro y hp
    exact hcore.outFree ((hout y).mpr hp)
  · show (Function.update ls .verbosers (x :: ls .verbosers) .atexits).map
      (Function.update s.funcs.func x f) = _
    rw [Function.update_of_ne (by decide), hi.map_update hx f, hi.atexits]
  · show (Function.update ls .verbosers (x :: ls .verbosers) .verbosers).map
      (Function.update s.funcs.func x f) = _
    rw [Function.update_self, List.map_cons, Function.update_self, hi.map_update hx f,
      hi.verbosers]

theorem Inv.step (hi : Inv s ls) {op : Op γ ι} (he : Enabled s op) :
    ∃ s', step s op = .ok s' ∧ ∃ ls', Inv s' ls' := by
  cases op with
  | registerAtexitStart t node f =>
    cases node with
    | none => exact ⟨s, rfl, ls, hi⟩
    | some x =>
      have hi' := hi.alloc he.1 (he.2 x rfl) f none
      obtain ⟨s', hrun, hcore, hfunc, hpending⟩ := hi'.core.unregisterAtexit f
      refine ⟨_, ?_, _, hi'.without hcore hfunc hpending⟩
      simp only [Callbacks.step, registerAtexitStart]
      exact bind_eq_ok.mpr ⟨s', hrun, rfl⟩
  | registerAtexitEnd t =>
    cases ht : s.funcs.pending t with
    | none => exact ⟨s, by simp [Callbacks.step, Callbacks.registerAtexitEnd, ht], ls, hi⟩
    | some x => exact ⟨_, by simp [Callbacks.step, ht], _, hi.registerAtexitEnd ht⟩
  | unregisterAtexit f =>
    obtain ⟨s', hrun, hcore, hfunc, hpending⟩ := hi.core.unregisterAtexit f
    exact ⟨_, bind_eq_ok.mpr ⟨s', hrun, rfl⟩, _, hi.without hcore hfunc hpending⟩
  | registerVerbose node f =>
    cases node with
    | none => exact ⟨s, rfl, ls, hi⟩
    | some x => exact ⟨_, rfl, _, hi.registerVerbose (he x rfl) f⟩
  | unregisterVerbose f =>
    obtain ⟨s', hrun, hcore, hfunc, hpending⟩ := hi.core.unregisterVerbose f
    exact ⟨_, bind_eq_ok.mpr ⟨_, hrun, rfl⟩, _, hi.without hcore hfunc hpending⟩

end

/-- In every run, in which the threads take turns in any order and memory may run out, the lists
    hold what was registered and not removed, the latest first, every node is freed once, and a
    message reaches every function that is registered for it. -/
theorem callbacks_registered (next : ι → Option ι) (func : ι → γ) (ops : List (Op γ ι))
    (hl : Run.Legal step Enabled ⟨.empty next func, [], []⟩ ops) :
    Run.Always step (fun s => ∃ ls, Registered s ls) ⟨.empty next func, [], []⟩ ops := by
  have hgood : ∀ (s : Sys γ ι) op, (∃ ls, Inv s ls) → Enabled s op → True →
      ∃ s', step s op = .ok s' ∧ ∃ ls, Inv s' ls := by
    rintro s op ⟨ls, hi⟩ he -
    exact hi.step he
  refine Run.always_of_legal ?_ hgood ops ⟨_, inv_empty next func⟩ hl
    (Run.legal_of_forall (fun _ _ => trivial) ops)
  rintro s ⟨ls, hi⟩
  exact ⟨ls, hi.registered⟩

/-- A registration comes to its end when its function has been registered in the meantime. -/
def Overtaken (s : Sys γ ι) : Op γ ι → Prop
  | .registerAtexitEnd t => ∃ x ∈ s.funcs.pending t, s.funcs.func x ∈ s.atexits
  | _ => False

instance (s : Sys γ ι) : (op : Op γ ι) → Decidable (Overtaken s op)
  | .registerAtexitEnd _ => inferInstanceAs (Decidable (∃ _, _))
  | .registerAtexitStart _ _ _ | .unregisterAtexit _ | .registerVerbose _ _ |
    .unregisterVerbose _ => inferInstanceAs (Decidable False)

/-- A function gets into the list a second time only when its registration is overtaken. -/
theorem nodup_step_iff {s s' : Sys γ ι} {op : Op γ ι} (hnodup : s.atexits.Nodup)
    (h : step s op = .ok s') : s'.atexits.Nodup ↔ ¬ Overtaken s op := by
  cases op with
  | registerAtexitStart t node f =>
    obtain ⟨funcs, -, hs'⟩ := bind_eq_ok.mp h
    obtain rfl := Outcome.ok.inj hs'
    refine iff_of_true ?_ not_false
    dsimp only
    split
    · exact hnodup.erase f
    · exact hnodup
  | registerAtexitEnd t =>
    obtain rfl := Outcome.ok.inj h
    dsimp only [Overtaken]
    cases ht : s.funcs.pending t with
    | none => simpa using hnodup
    | some x => simp [hnodup]
  | unregisterAtexit f =>
    obtain ⟨funcs, -, hs'⟩ := bind_eq_ok.mp h
    obtain rfl := Outcome.ok.inj hs'
    exact iff_of_true (hnodup.erase f) not_false
  | registerVerbose node f =>
    obtain rfl := Outcome.ok.inj h
    exact iff_of_true hnodup not_false
  | unregisterVerbose f =>
    obtain ⟨⟨r, funcs⟩, -, hs'⟩ := bind_eq_ok.mp h
    obtain rfl := Outcome.ok.inj hs'
    exact iff_of_true hnodup not_false

/-- No function is to be called at exit twice exactly as long as no registration is overtaken. -/
theorem atexits_nodup_iff (next : ι → Option ι) (func : ι → γ) (ops : List (Op γ ι))
    (hl : Run.Legal step Enabled ⟨.empty next func, [], []⟩ ops) :
    Run.Always step (fun s => ∃ ls, Registered s ls ∧
        ((ls .atexits).map s.funcs.func).Nodup) ⟨.empty next func, [], []⟩ ops ↔
      Run.Legal step (fun s op => ¬ Overtaken s op) ⟨.empty next func, [], []⟩ ops := by
  refine @Run.always_iff_inv _ _ _ _ (fun s => (∃ ls, Inv s ls) ∧ s.atexits.Nodup) _ _ ?_ ?_ ?_
    ops _ ⟨⟨_, inv_empty next func⟩, List.nodup_nil⟩ hl
  · rintro s ⟨⟨ls, hi⟩, hnodup⟩
    exact ⟨ls, hi.registered, hi.atexits ▸ hnodup⟩
  · rintro s op ⟨⟨ls, hi⟩, hnodup⟩ he hnot
    obtain ⟨s', hstep, hinv⟩ := hi.step he
    exact ⟨s', hstep, hinv, (nodup_step_iff hnodup hstep).mpr hnot⟩
  · rintro s op s' ⟨-, hnodup⟩ - hbad hstep ⟨ls', hreg, hnodup'⟩
    rw [hreg.atexits] at hnodup'
    exact (nodup_step_iff hnodup hstep).mp hnodup' hbad

/-- Two threads register functions; one is registered again, and there is no memory for another. -/
def registrations : List (Op Nat Nat) :=
  [.registerAtexitStart 0 (some 1) 7, .registerAtexitStart 1 (some 2) 8, .registerAtexitEnd 1,
    .registerVerbose (some 3) 7, .registerAtexitEnd 0, .registerAtexitStart 0 (some 4) 8,
    .registerAtexitEnd 0, .registerAtexitStart 1 none 9, .registerVerbose (some 2) 7,
    .unregisterVerbose 7, .unregisterAtexit 7]

theorem callbacks_registered_some : Run.Always step (fun s => ∃ ls, Registered s ls)
    (⟨.empty (fun _ => none) fun _ => 0, [], []⟩ : Sys Nat Nat) registrations :=
  callbacks_registered (fun _ => none) (fun _ => 0) registrations (by decide +kernel)

theorem atexits_nodup_some : Run.Always step (fun s => ∃ ls, Registered s ls ∧
    ((ls .atexits).map s.funcs.func).Nodup)
    (⟨.empty (fun _ => none) fun _ => 0, [], []⟩ : Sys Nat Nat) registrations :=
  (atexits_nodup_iff (fun _ => none) (fun _ => 0) registrations (by decide +kernel)).mpr
    (by decide +kernel)

end Spider.Callbacks
