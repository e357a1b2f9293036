import Spider.Cli.Find
import Spider.LinkedList
import Spider.Lib.Insertion
import Spider.Lib.Compare

/-!
# The order of the registry

Registering puts an entry before the first one whose command is larger. Two
commands are compared over the length of the shorter one, up to its first
reserved character, so that "not smaller" is no order; "smaller" is one, which is
what keeps the list in order. An entry whose command has a pattern is not found
by its own words: registered again, it gets past the check for duplicates and
is linked into the list a second time.
-/

namespace Spider.Cli.Order

open Lib Outcome CString Strings LinkedList

/-- The entries, and `spd_cli_entrys` with the links of the entries. -/
structure St where
  entry : Addr → SpdCliEntry
  list : Mem Unit Addr

def St.set (s : St) (a : Addr) (e : SpdCliEntry) : St :=
  { s with entry := Function.update s.entry a e }

def St.first (s : St) : Option Addr := (s.list.head ()).first

/-- The loop of `find_cli` along the links. -/
def findFrom (s : St) (cmds : List CString) (matchType : Int32) :
    Nat → Int → Option Addr → Option Addr → Outcome (Option Addr)
  | 0, _, _, _ => .timeout
  | _ + 1, _, cand, none => .ok cand
  | fuel + 1, matchlen, cand, some e =>
    match verdict cmds matchType (s.entry e) with
    | .exact => .ok (some e)
    | .skip => findFrom s cmds matchType fuel matchlen cand (s.list.next e)
    | .candidate n =>
      if n > matchlen then findFrom s cmds matchType fuel n (some e) (s.list.next e)
      else findFrom s cmds matchType fuel matchlen cand (s.list.next e)

/-- `find_cli` (`cli.c:196-238`), for which `cli_next` returns the successor of an entry. -/
def findCli (fuel : Nat) (s : St) (cmds : List CString) (matchType : Int32) :
    Outcome (Option Addr) := findFrom s cmds matchType fuel (-1) none s.first

/-- The loop of `__spd_cli_register`, from the entry `prev` on (`cli.c:319-331`). -/
def insertFrom (s : St) (e : Addr) : Nat → Option Addr → Option Addr → Outcome (Mem Unit Addr)
  | 0, _, _ => .timeout
  | _ + 1, _, none => spdListInsertTail s.list () e
  | fuel + 1, prev, some cur => do
    if (← compareFullCmd (s.entry e) (s.entry cur)) < 0 then
      .ok (spdListInsertBeforeCurrent s.list () prev e)
    else insertFrom s e fuel (some cur) (s.list.next cur)

/-- `__spd_cli_register` (`cli.c:281-340`), apart from its lock. -/
def spdCliRegister (fuel : Nat) (s : St) (a : Addr) (g : Registering) : Outcome (Int32 × St) :=
  match g.command with
  | none => .fault
  | some command => do
    let s := s.set a ((s.entry a).withCommand command g.strdupCommand)
    if (← findCli fuel s (s.entry a).cmda 1).isSome then .ok (-1, s)
    else
      let (failed, e) ← spdCliSetFullCmd (s.entry a) g.strdupFullCmd
      let s := s.set a e
      if failed ≠ 0 then .ok (-1, s)
      else
        let list ← insertFrom s a fuel none s.first
        .ok (0, { s with list := list })

/-- `__spd_cli_unregister` (`cli.c:258-279`), apart from its lock, for an entry that is in use or
    not, and has a handler or not. -/
def spdCliUnregister (fuel : Nat) (s : St) (a : Addr) (inuse handler : Bool) : Outcome St :=
  if inuse then .ok s
  else do
    let (_, list) ← spdListRemove fuel s.list () a
    let s := { s with list := list }
    let s := s.set a { s.entry a with fullCmd := none }
    .ok (if handler then s.set a { s.entry a with cmda := [], command := none } else s)

/-- A registration or an unregistration. -/
inductive Op where
  | register (a : Addr) (g : Registering)
  | unregister (a : Addr) (inuse handler : Bool)
  deriving DecidableEq, Repr

def step (fuel : Nat) (s : St) : Op → Outcome St
  | .register a g => do
    let (_, s) ← spdCliRegister fuel s a g
    .ok s
  | .unregister a inuse handler => spdCliUnregister fuel s a inuse handler

/-- Nothing is registered yet. -/
def empty (entry : Addr → SpdCliEntry) : St := ⟨entry, Mem.init Unit fun _ => none⟩

/-- The entry that the walk along the list comes to after `n` others. -/
def St.nth (s : St) : Nat → Option Addr
  | 0 => s.first
  | n + 1 => (s.nth n).bind s.list.next

/-- An entry that comes later is never smaller than one that came before. -/
def Ordered (s : St) : Prop :=
  ∀ i j a b, i < j → s.nth i = some a → s.nth j = some b → ¬ below (s.entry b) (s.entry a)

/-- An entry that is in the list is registered, and no entry of the list takes all its words. -/
def Renews (fuel : Nat) (s : St) : Op → Prop
  | .register a g => (∃ n, s.nth n = some a) ∧ ∃ command ∈ g.command,
      let s := s.set a ((s.entry a).withCommand command g.strdupCommand)
      findCli fuel s (s.entry a).cmda 1 = .ok none
  | .unregister _ _ _ => False

/-! ## Comparing commands -/

/-- What is compared of an entry. -/
def key (e : SpdCliEntry) : List UInt8 := lower ((e.fullCmd.getD []).take e.cmdlen)

theorem strcasecmp_eq_memcmp {s t : CString} (h : s.length = t.length) :
    strcasecmp s t = Compare.memcmp (lower s) (lower t) := by
  induction s generalizing t with
  | nil =>
    obtain rfl := List.length_eq_zero_iff.mp h.symm
    rfl
  | cons c s ih =>
    cases t with
    | nil => cases h
    | cons d t =>
      simp only [strcasecmp, lower, List.map_cons, Compare.memcmp]
      rw [ih (Nat.succ.inj h)]
      rfl

/-- The full command is there, and so is the part of it that counts. -/
def Counted (e : SpdCliEntry) : Prop := ∃ s, e.fullCmd = some s ∧ e.cmdlen ≤ s.length

theorem below_iff {x y : SpdCliEntry} (hx : Counted x) (hy : Counted y) :
    below x y ↔ Compare.memcmp (key x) (key y) < 0 := by
  obtain ⟨s, hs, hxlen⟩ := hx
  obtain ⟨t, ht, hylen⟩ := hy
  have hkeys := Compare.memcmp_take (key x) (key y) (Nat.le_refl _)
  have hlen : (s.take (min x.cmdlen y.cmdlen)).length =
      (t.take (min x.cmdlen y.cmdlen)).length := by
    simp only [List.length_take]
    omega
  have hcompare : below x y ↔ strncasecmp s t (min x.cmdlen y.cmdlen) < 0 := by
    simp [below, hs, ht]
  rw [hcompare, strncasecmp, strcasecmp_eq_memcmp hlen, ← hkeys]
  have hmin : min (key x).length (key y).length = min x.cmdlen y.cmdlen := by
    simp only [key, hs, ht, Option.getD_some, lower, List.length_map, List.length_take]
    omega
  rw [hmin]
  simp only [key, hs, ht, Option.getD_some, lower, ← List.map_take, List.take_take]
  rw [Nat.min_eq_left (Nat.min_le_left _ _), Nat.min_eq_left (Nat.min_le_right _ _)]

/-- What is smaller than an entry that is smaller is smaller. -/
theorem below_trans {x y z : SpdCliEntry} (hx : Counted x) (hy : Counted y) (hz : Counted z)
    (hxy : below x y) (hyz : below y z) : below x z := by
  rw [below_iff hx hy] at hxy
  rw [below_iff hy hz] at hyz
  rw [below_iff hx hz]
  exact Compare.memcmp_lt_trans hxy hyz

theorem below_irrefl {x : SpdCliEntry} : ¬ below x x := by
  rintro ⟨s, hs, t, ht, hlt⟩
  obtain rfl := Option.some.inj (hs.symm.trans ht)
  rw [strncasecmp, strcasecmp_self] at hlt
  exact Int.lt_irrefl 0 hlt

theorem counted_setFullCmd {e e' : SpdCliEntry} (h : spdCliSetFullCmd e true = .ok (0, e')) :
    Counted e' := by
  obtain ⟨buf, -, hbuf⟩ := bind_eq_ok.mp h
  obtain rfl := (Prod.mk.inj (Outcome.ok.inj hbuf)).2
  exact ⟨buf, rfl, (List.takeWhile_prefix _).length_le⟩

/-! ## The list behind the links -/

/-- The links hold the list `l`, which is in order, and its entries have been given their
    commands. -/
structure Inv (s : St) (l : List Addr) : Prop where
  list : Represents s.list fun _ => l
  free : ∀ a ∉ l, s.list.next a = none
  ordered : l.Pairwise fun a b => ¬ below (s.entry b) (s.entry a)
  counted : ∀ a ∈ l, Counted (s.entry a)
  words : ∀ a ∈ l, ∀ w ∈ (s.entry a).cmda, w ≠ []

section

variable {s s' : St} {l rest : List Addr} {a : Addr} {p cand : Option Addr} {fuel : Nat}
  {cmds : List CString} {matchType : Int32} {matchlen : Int}

theorem inv_empty (entry : Addr → SpdCliEntry) : Inv (empty entry) [] where
  list := represents_init fun _ => none
  free _ _ := rfl
  ordered := .nil
  counted := nofun
  words := nofun

/-- The loop along the links is the loop along the list. -/
theorem findFrom_eq (h : Seg s.list.next p rest none) (hfuel : rest.length < fuel) :
    findFrom s cmds matchType fuel matchlen cand p =
      .ok (findLoop ⟨s.entry, l⟩ cmds matchType matchlen cand rest) := by
  induction rest generalizing p fuel matchlen cand with
  | nil =>
    obtain ⟨fuel, rfl⟩ := Nat.exists_eq_add_of_lt hfuel
    obtain rfl : p = none := h
    rfl
  | cons e rest ih =>
    obtain ⟨rfl, hrest⟩ := h
    obtain ⟨fuel, rfl⟩ : ∃ n, fuel = n + 1 := ⟨fuel - 1, by simp at hfuel; omega⟩
    have hlt : rest.length < fuel := by simpa using hfuel
    rw [findFrom, findLoop]
    cases verdict cmds matchType (s.entry e) with
    | exact => rfl
    | skip => exact ih hrest hlt
    | candidate n =>
      simp only
      split
      · exact ih hrest hlt
      · exact ih hrest hlt

theorem Inv.seg (h : Inv s l) : Seg s.list.next s.first l none := (h.list.chain ()).seg

/-- A lookup along the links gives what one in the list does. -/
theorem Inv.findCli_eq (h : Inv s l) (hfuel : l.length < fuel) :
    findCli fuel s cmds matchType = .ok (Cli.findCli ⟨s.entry, l⟩ cmds matchType) :=
  findFrom_eq h.seg hfuel

theorem Inv.nth_eq (h : Inv s l) (n : Nat) : s.nth n = l[n]? := by
  induction n with
  | zero => exact h.seg.eq_head?.trans List.head?_eq_getElem?
  | succ n ih => rw [St.nth, ih, h.seg.getElem?_bind]

/-- The walk along the list meets its elements, in their order. -/
theorem Inv.in_order (h : Inv s l) : Ordered s := by
  intro i j a b hij ha hb
  rw [h.nth_eq] at ha hb
  obtain ⟨hi, rfl⟩ := List.getElem?_eq_some_iff.mp ha
  obtain ⟨hj, rfl⟩ := List.getElem?_eq_some_iff.mp hb
  exact List.pairwise_iff_getElem.mp h.ordered i j hi hj hij

/-- Outside the list an entry may change. -/
theorem Inv.set_of_notMem (h : Inv s l) (ha : a ∉ l) (e : SpdCliEntry) : Inv (s.set a e) l := by
  have hentry : ∀ b ∈ l, (s.set a e).entry b = s.entry b := by
    intro b hb
    apply Function.update_of_ne
    rintro rfl
    exact ha hb
  refine ⟨h.list, h.free, h.ordered.imp_of_mem ?_, ?_, ?_⟩
  · intro b c hb hc hbc
    rwa [hentry b hb, hentry c hc]
  · intro b hb
    rw [hentry b hb]
    exact h.counted b hb
  · intro b hb
    rw [hentry b hb]
    exact h.words b hb

/-- An entry of the list may be given another command, as long as it keeps the one it is compared
    by. -/
theorem Inv.setCommand (h : Inv s l) (a : Addr) (command : CString) (strdup : Bool) :
    Inv (s.set a ((s.entry a).withCommand command strdup)) l := by
  have hentry : ∀ b, b = a ∨
      (s.set a ((s.entry a).withCommand command strdup)).entry b = s.entry b := by
    intro b
    by_cases hba : b = a
    · exact .inl hba
    · exact .inr (Function.update_of_ne hba _ _)
  have hself : (s.set a ((s.entry a).withCommand command strdup)).entry a =
      (s.entry a).withCommand command strdup := Function.update_self _ _ _
  have hsame : ∀ b, ((s.set a ((s.entry a).withCommand command strdup)).entry b).fullCmd =
      (s.entry b).fullCmd ∧
      ((s.set a ((s.entry a).withCommand command strdup)).entry b).cmdlen =
        (s.entry b).cmdlen := by
    intro b
    rcases hentry b with rfl | heq
    · rw [hself]
      exact ⟨rfl, rfl⟩
    · rw [heq]
      exact ⟨rfl, rfl⟩
  refine ⟨h.list, h.free, h.ordered.imp ?_, ?_, ?_⟩
  · intro b c hbc
    unfold below at hbc ⊢
    rwa [(hsame b).1, (hsame b).2, (hsame c).1, (hsame c).2]
  · intro b hb
    unfold Counted
    rw [(hsame b).1, (hsame b).2]
    exact h.counted b hb
  · intro b hb
    rcases hentry b with rfl | heq
    · rw [hself]
      exact withCommand_words _ _ _
    · rw [heq]
      exact h.words b hb

/-- The loop of the registration puts the entry before the first that is larger. -/
theorem insertFrom_eq {pre : List Addr} (hlist : Represents s.list fun _ => pre ++ rest)
    (hseg : Seg s.list.next p rest none) (ha : a ∉ pre ++ rest) (hnull : s.list.next a = none)
    (hcounted : Counted (s.entry a)) (hrest : ∀ b ∈ rest, Counted (s.entry b))
    (hfuel : rest.length < fuel) : ∃ m, insertFrom s a fuel pre.getLast? p = .ok m ∧
      (Represents m fun _ =>
        pre ++ rest.orderedInsert (fun x y => below (s.entry x) (s.entry y)) a) ∧
      ∀ b ∉ pre ++ rest, b ≠ a → m.next b = s.list.next b := by
  induction rest generalizing pre p fuel with
  | nil =>
    obtain ⟨fuel, rfl⟩ : ∃ n, fuel = n + 1 := ⟨fuel - 1, by simp at hfuel; omega⟩
    obtain rfl : p = none := hseg
    obtain ⟨m, hm, hr⟩ := hlist.insertTail (h := ()) (fun _ => ha) hnull
    refine ⟨m, hm, ?_, ?_⟩
    · rw [Function.update_eq_const_of_subsingleton, List.append_nil] at hr
      exact hr
    · intro b hb _
      refine insertTail_next hm fun hlast => hb ?_
      rw [(hlist.chain ()).last] at hlast
      exact List.mem_of_getLast? hlast
  | cons cur rest ih =>
    obtain ⟨rfl, hbehind⟩ := hseg
    obtain ⟨fuel, rfl⟩ : ∃ n, fuel = n + 1 := ⟨fuel - 1, by simp at hfuel; omega⟩
    obtain ⟨s0, hs, hslen⟩ := id hcounted
    obtain ⟨t0, ht, htlen⟩ := hrest cur List.mem_cons_self
    obtain ⟨n, hn, hlt⟩ := compareFullCmd_of_some hs ht
    rw [insertFrom, List.orderedInsert_cons, hn, ok_bind]
    by_cases hbelow : below (s.entry a) (s.entry cur)
    · rw [if_pos (hlt.mp hbelow), if_pos hbelow]
      have hr := hlist.insertBeforeCurrent (h := ()) rfl (fun _ => ha) hnull
      refine ⟨_, rfl, ?_, ?_⟩
      · rw [Function.update_eq_const_of_subsingleton] at hr
        exact hr
      · intro b hb hba
        refine insertBeforeCurrent_next hba fun hprev => hb ?_
        exact List.mem_append_left _ (List.mem_of_getLast? hprev)
    · rw [if_neg (mt hlt.mpr hbelow), if_neg hbelow]
      have hsplit : pre ++ cur :: rest = pre ++ [cur] ++ rest := by simp
      rw [hsplit] at hlist ha
      obtain ⟨m, hm, hr, hnext⟩ := ih hlist hbehind ha
        (fun b hb => hrest b (List.mem_cons_of_mem cur hb)) (by simpa using hfuel)
      rw [List.getLast?_concat] at hm
      refine ⟨m, hm, ?_, ?_⟩
      · rwa [List.append_assoc] at hr
      · rwa [hsplit]

/-- A new entry is put into its place. -/
theorem Inv.insert (h : Inv s l) (ha : a ∉ l) (hcounted : Counted (s.entry a))
    (hwords : ∀ w ∈ (s.entry a).cmda, w ≠ []) (hfuel : l.length < fuel) :
    ∃ m, insertFrom s a fuel none s.first = .ok m ∧
      Inv { s with list := m }
        (l.orderedInsert (fun x y => below (s.entry x) (s.entry y)) a) := by
  have hlist : Represents s.list fun _ => [] ++ l := h.list
  obtain ⟨m, hm, hr, hnext⟩ := insertFrom_eq hlist h.seg ha (h.free a ha) hcounted
    h.counted hfuel
  refine ⟨m, hm, hr, ?_, ?_, ?_, ?_⟩
  · intro b hb
    rw [List.mem_orderedInsert, not_or] at hb
    exact (hnext b hb.2 hb.1).trans (h.free b hb.2)
  · refine pairwise_orderedInsert ?_ ?_ (fun _ _ hnot => hnot) h.ordered
    · intro y hy z hz hay hzy hza
      exact hzy (below_trans (h.counted z hz) hcounted (h.counted y hy) hza hay)
    · intro y hy hay hya
      exact below_irrefl (below_trans (h.counted y hy) hcounted (h.counted y hy) hya hay)
  · intro b hb
    rcases (List.mem_orderedInsert _).mp hb with rfl | hb
    · exact hcounted
    · exact h.counted b hb
  · intro b hb
    rcases (List.mem_orderedInsert _).mp hb with rfl | hb
    · exact hwords
    · exact h.words b hb

/-! ## Each call -/

/-- What is in the list, the walk comes to. -/
theorem Inv.exists_nth (h : Inv s l) (ha : a ∈ l) : ∃ n, s.nth n = some a := by
  obtain ⟨n, hn, rfl⟩ := List.mem_iff_getElem.mp ha
  exact ⟨n, (h.nth_eq n).trans (List.getElem?_eq_getElem hn)⟩

/-- A registration that does not renew an entry keeps the list in order. -/
theorem register_inv (h : Inv s l) (hfuel : l.length < fuel) {g : Registering}
    (hnew : ¬ Renews fuel s (.register a g)) {command : CString}
    (hcommand : g.command = some command) :
    ∃ ret s' l', spdCliRegister fuel s a g = .ok (ret, s') ∧ Inv s' l' ∧
      l'.length ≤ l.length + 1 := by
  have hset := h.setCommand a command g.strdupCommand
  have hwords := withCommand_words (s.entry a) command g.strdupCommand
  unfold spdCliRegister
  rw [hcommand]
  dsimp only
  generalize he : (s.entry a).withCommand command g.strdupCommand = e at *
  have hself : (s.set a e).entry a = e := Function.update_self _ _ _
  rw [hself, hset.findCli_eq hfuel, ok_bind]
  cases hfound : Cli.findCli ⟨(s.set a e).entry, l⟩ e.cmda 1 with
  | some d => exact ⟨-1, _, l, rfl, hset, Nat.le_succ _⟩
  | none =>
    have ha : a ∉ l := by
      intro ha
      refine hnew ⟨h.exists_nth ha, command, hcommand, ?_⟩
      dsimp only
      rw [he, hself, hset.findCli_eq hfuel, hfound]
    obtain ⟨buf, hbuf⟩ := spdStrJoin_returns e.cmda (Nat.succ_pos 79)
    cases hstrdup : g.strdupFullCmd with
    | false =>
      have hfull : spdCliSetFullCmd e false = .ok (-1, { e with fullCmd := none }) := by
        rw [spdCliSetFullCmd, hbuf]
        rfl
      rw [hfull]
      exact ⟨-1, _, l, rfl, hset.set_of_notMem ha _, Nat.le_succ _⟩
    | true =>
      obtain ⟨e', hfull, hcmda⟩ : ∃ e', spdCliSetFullCmd e true = .ok (0, e') ∧
          e'.cmda = e.cmda := by
        rw [spdCliSetFullCmd, hbuf]
        exact ⟨_, rfl, rfl⟩
      have hinv := hset.set_of_notMem ha e'
      have hself' : ((s.set a e).set a e').entry a = e' := Function.update_self _ _ _
      obtain ⟨m, hm, hinsert⟩ := hinv.insert ha (by rw [hself']; exact counted_setFullCmd hfull)
        (by rw [hself', hcmda]; exact hwords) hfuel
      rw [hfull, ok_bind]
      refine ⟨0, _, _, ?_, hinsert, ?_⟩
      · simp only [Option.isSome_none, Bool.false_eq_true, if_false, ne_eq, not_true_eq_false, hm,
          ok_bind]
      · rw [List.orderedInsert_length]

/-- An unregistration keeps the list in order. -/
theorem unregister_inv (h : Inv s l) (hfuel : l.length < fuel) (inuse handler : Bool) :
    ∃ s' l', spdCliUnregister fuel s a inuse handler = .ok s' ∧ Inv s' l' ∧
      l'.length ≤ l.length := by
  cases inuse with
  | true => exact ⟨s, l, rfl, h, Nat.le_refl _⟩
  | false =>
    have hcases : a ∈ l ∨ Free (fun _ : Unit => l) a := by
      by_cases ha : a ∈ l
      · exact .inl ha
      · exact .inr fun _ => ha
    obtain ⟨m, hm, hr, hnull⟩ := h.list.remove (h := ()) hcases hfuel
    rw [Function.update_eq_const_of_subsingleton] at hr
    have hsub : l.erase a ⊆ l := List.erase_subset
    have ha : a ∉ l.erase a := (h.list.chain ()).nodup.not_mem_erase
    have hinv : Inv { s with list := m } (l.erase a) := by
      refine ⟨hr, ?_, h.ordered.sublist List.erase_sublist, ?_, ?_⟩
      · intro b hb
        by_cases hba : b = a
        · rw [hba]
          exact hnull
        · exact remove_next hm (h.free b fun hmem => hb ((List.mem_erase_of_ne hba).mpr hmem))
      · exact fun b hb => h.counted b (hsub hb)
      · exact fun b hb => h.words b (hsub hb)
    unfold spdCliUnregister
    rw [if_neg Bool.false_ne_true, hm, ok_bind]
    refine ⟨_, l.erase a, rfl, ?_, List.length_erase_le⟩
    split
    · exact (hinv.set_of_notMem ha _).set_of_notMem ha _
    · exact hinv.set_of_notMem ha _

/-- Every step that renews no entry keeps the list in order. -/
theorem step_inv (h : Inv s l) (hfuel : l.length < fuel) {op : Op} (hnew : ¬ Renews fuel s op)
    (hstep : step fuel s op = .ok s') : ∃ l', Inv s' l' ∧ l'.length ≤ l.length + 1 := by
  cases op with
  | register a g =>
    obtain ⟨⟨ret, s1⟩, hregister, hend⟩ := bind_eq_ok.mp hstep
    obtain rfl := Outcome.ok.inj hend
    cases hcommand : g.command with
    | none =>
      rw [spdCliRegister, hcommand] at hregister
      cases hregister
    | some command =>
      obtain ⟨ret', s2, l', hregister', hinv, hlen⟩ := register_inv h hfuel hnew hcommand
      rw [hregister'] at hregister
      obtain rfl := (Prod.mk.inj (Outcome.ok.inj hregister)).2
      exact ⟨l', hinv, hlen⟩
  | unregister a inuse handler =>
    obtain ⟨s2, l', hunregister, hinv, hlen⟩ := unregister_inv h hfuel inuse handler
    obtain rfl := Outcome.ok.inj (hunregister.symm.trans hstep)
    exact ⟨l', hinv, Nat.le_succ_of_le hlen⟩

/-- The runs that renew no entry. -/
theorem run_inv {ops : List Op} (h : Inv s l) (hfuel : l.length + ops.length < fuel)
    (hnew : Run.Legal (step fuel) (fun s op => ¬ Renews fuel s op) s ops)
    (hrun : Run.run (step fuel) s ops = .ok s') :
    ∃ l', Inv s' l' ∧ l'.length ≤ l.length + ops.length := by
  induction ops generalizing s l with
  | nil =>
    rw [Run.run_nil] at hrun
    exact ⟨l, Outcome.ok.inj hrun ▸ h, Nat.le_refl _⟩
  | cons op ops ih =>
    obtain ⟨hop, hnew⟩ := hnew
    rw [List.length_cons] at hfuel ⊢
    obtain ⟨s1, hstep, hrest⟩ := bind_eq_ok.mp hrun
    obtain ⟨l1, h1, hlen1⟩ := step_inv h (by omega) hop hstep
    obtain ⟨l', h', hlen'⟩ := ih h1 (by omega) (hnew s1 hstep) hrest
    exact ⟨l', h', by omega⟩

end

/-! ## All runs -/

/-- In every run in which no registration renews an entry of the list, the list is in order
    wherever the run has come to. -/
theorem registry_ordered (entry : Addr → SpdCliEntry) {ops : List Op} {fuel : Nat} {s : St}
    (hfuel : ops.length < fuel)
    (hnew : Run.Legal (step fuel) (fun s op => ¬ Renews fuel s op) (empty entry) ops)
    (hrun : Run.run (step fuel) (empty entry) ops = .ok s) : Ordered s := by
  obtain ⟨l, hl, -⟩ := run_inv (inv_empty entry) (by simpa using hfuel) hnew hrun
  exact hl.in_order

/-- A lookup in the registry of such a run returns, and finds what it is to find. -/
theorem lookup_found (entry : Addr → SpdCliEntry) {ops : List Op} {fuel : Nat} {s : St}
    (hfuel : ops.length < fuel)
    (hnew : Run.Legal (step fuel) (fun s op => ¬ Renews fuel s op) (empty entry) ops)
    (hrun : Run.run (step fuel) (empty entry) ops = .ok s) (cmds : List CString) :
    ∃ l found, findCli fuel s cmds 0 = .ok found ∧ Found ⟨s.entry, l⟩ cmds found ∧
      ∀ n, s.nth n = l[n]? := by
  obtain ⟨l, hl, hlen⟩ := run_inv (inv_empty entry) (by simpa using hfuel) hnew hrun
  refine ⟨l, _, hl.findCli_eq ?_, findCli_found cmds hl.words, hl.nth_eq⟩
  simp only [List.length_nil] at hlen
  omega

/-- An entry with a pattern, another one, and the first again, with another command. -/
def renewOps : List Op :=
  [.register 1 ⟨some (lit "b {x|y}"), true, true⟩, .register 2 ⟨some (lit "c"), true, true⟩,
    .register 1 ⟨some (lit "d {x|y}"), true, true⟩]

/-- The fields of an entry that has not been registered. -/
def blank : Addr → SpdCliEntry := fun _ => ⟨[], none, 0, 0, none⟩

theorem registry_unordered : ∃ s, Run.run (step 4) (empty blank) renewOps = .ok s ∧
    ¬ Ordered s := by
  obtain ⟨s, hrun, hfirst, hsecond, hbelow⟩ : ∃ s,
      Run.run (step 4) (empty blank) renewOps = .ok s ∧ s.nth 0 = some 1 ∧
      s.nth 1 = some 2 ∧ below (s.entry 2) (s.entry 1) :=
    exists_of_run (by decide +kernel)
  exact ⟨s, hrun, fun h => h 0 1 1 2 Nat.zero_lt_one hfirst hsecond hbelow⟩

/-- Two entries are registered, the second of which comes first. -/
theorem registry_ordered_two : ∃ s, Run.run (step 3) (empty blank)
      [.register 1 ⟨some (lit "show all"), true, true⟩,
        .register 2 ⟨some (lit "help"), true, true⟩] = .ok s ∧
    Ordered s ∧ s.nth 0 = some 2 := by
  obtain ⟨s1, hstep, hfirst, hend⟩ : ∃ s1, step 3 (empty blank)
      (.register 1 ⟨some (lit "show all"), true, true⟩) = .ok s1 ∧ s1.nth 0 = some 1 ∧
        s1.nth 1 = none := exists_of_run (by decide +kernel)
  have hbehind : ∀ n, s1.nth (n + 1) = none := by
    intro n
    induction n with
    | zero => exact hend
    | succ n ih => rw [St.nth, ih, Option.bind_none]
  have hnone : ∀ n, (empty blank).nth n = none := by
    intro n
    induction n with
    | zero => rfl
    | succ n ih => rw [St.nth, ih, Option.bind_none]
  obtain ⟨s, hrun, htop⟩ : ∃ s, Run.run (step 3) (empty blank)
      [.register 1 ⟨some (lit "show all"), true, true⟩,
        .register 2 ⟨some (lit "help"), true, true⟩] = .ok s ∧ s.nth 0 = some 2 :=
    exists_of_run (by decide +kernel)
  have hnew : ¬ Renews 3 (empty blank) (.register 1 ⟨some (lit "show all"), true, true⟩) := by
    rintro ⟨⟨n, hn⟩, -⟩
    rw [hnone n] at hn
    cases hn
  have hnew' : ¬ Renews 3 s1 (.register 2 ⟨some (lit "help"), true, true⟩) := by
    rintro ⟨⟨n, hn⟩, -⟩
    cases n with
    | zero =>
      rw [hfirst] at hn
      exact absurd hn (by decide)
    | succ n =>
      rw [hbehind n] at hn
      cases hn
  have hrest : Run.Legal (step 3) (fun s op => ¬ Renews 3 s op) s1
      [.register 2 ⟨some (lit "help"), true, true⟩] := ⟨hnew', fun _ _ => trivial⟩
  exact ⟨s, hrun, registry_ordered blank (by decide) (Run.legal_cons_of_ok hstep hnew hrest) hrun,
    htop⟩

end Spider.Cli.Order
