import Spider.Remote.Consoles

/-!
# The descriptors of the consoles

The invariant of the remote consoles, one lemma for each statement of the two
threads, and what follows for a run.
-/

namespace Spider.Remote

open Lib Outcome Owned

/-- What is true of the consoles in every state of a run. -/
structure Inv (σ : State) : Prop where
  owns : Owns σ.table σ.own
  nonneg : ∀ {fd f}, σ.table fd = some f → 0 ≤ fd
  named : ∀ {h}, σ.listener = some h → h.k < σ.accepted
  threadNamed : ∀ {x t}, σ.threads x = some t → t.k < σ.accepted
  apart : ∀ {h x t}, σ.listener = some h → σ.threads x = some t → t.k ≠ h.k
  distinct : ∀ {x y t t'}, σ.threads x = some t → σ.threads y = some t' → t.k = t'.k → x = y
  room : ∀ {h}, σ.listener = some h → h.task ≠ .scan → h.task ≠ .closeS →
    h.x < SPD_MAX_CONNECTS ∧ σ.threads h.x = none
  takes : ∀ {h}, σ.listener = some h → h.task.takes → (σ.consoles h.x).fd = h.s
  busy : ∀ {x t}, σ.threads x = some t → x < SPD_MAX_CONNECTS ∧ 0 ≤ (σ.consoles x).fd
  free : ∀ {x}, ¬ σ.Taken x → (σ.consoles x).fd < 0

section

variable {σ : State} {h : Handling} {x : Nat} {t : Thread} {f : File} {fd : Int} {e : End}

theorem inv_start : Inv start where
  owns := by
    have hown : start.own = fun _ _ => none := by
      funext p f
      cases p <;> cases f <;> rfl
    rw [hown]
    exact owns_empty
  nonneg hf := by cases hf
  named hl := by cases hl
  threadNamed ht := by cases ht
  apart hl := by cases hl
  distinct ht := by cases ht
  room hl := by cases hl
  takes hl := by cases hl
  busy ht := by cases ht
  free _ := (by decide : (-1 : Int) < 0)

theorem own_listener_none (hl : σ.listener = none) : σ.own .listener f = none := by
  cases f <;> simp [State.own, hl]

theorem own_thread_none (ht : σ.threads x = none) : σ.own (.thread x) f = none := by
  cases f <;> simp [State.own, ht]

/-- The listener has what its statement says. -/
theorem own_listener (hl : σ.listener = some h) (e : End) : σ.own .listener (.console h.k e) =
    if h.task.has e then some (h.get (σ.consoles h.x) e) else none := by
  simp [State.own, hl]

theorem own_thread (ht : σ.threads x = some t) (e : End) : σ.own (.thread x) (.console t.k e) =
    if t.stage.has e then some ((σ.consoles x).get e) else none := by
  simp [State.own, ht]

/-- What has another number than the listener's connection is not the listener's. -/
theorem own_listener_of_ne (hl : σ.listener = some h) (hf : ∀ e, f ≠ .console h.k e) :
    σ.own .listener f = none := by
  cases f with
  | console k e =>
    have hk : k ≠ h.k := fun hk => hf e (hk ▸ rfl)
    simp [State.own, hl, hk]
  | other n => rfl

theorem own_thread_of_ne (ht : σ.threads x = some t) (hf : ∀ e, f ≠ .console t.k e) :
    σ.own (.thread x) f = none := by
  cases f with
  | console k e =>
    have hk : k ≠ t.k := fun hk => hf e (hk ▸ rfl)
    simp [State.own, ht, hk]
  | other n => rfl

/-- The listener goes on to another statement for its connection, and may change its entry. -/
def State.moved (σ : State) (h : Handling) (table : Table File) (c : Console) (task : Task) :
    State :=
  { σ with
    table
    consoles := Function.update σ.consoles h.x c
    listener := some { h with task } }

/-- A thread goes on to another statement. -/
def State.went (σ : State) (x : Nat) (table : Table File) (t : Thread) : State :=
  { σ with table, threads := Function.update σ.threads x (some t) }

variable {table : Table File} {c : Console} {task : Task} {o : Owners Party File}

theorem moved_eq_goto (σ : State) (h : Handling) (table : Table File) (task : Task) :
    { σ with table }.goto h task = σ.moved h table (σ.consoles h.x) task := by
  simp [State.goto, State.moved]

/-- While the listener handles a connection, only what it has of that connection changes. -/
theorem own_moved (hl : σ.listener = some h) (hx : σ.threads h.x = none)
    (hthis : ∀ e, o .listener (.console h.k e) = if task.has e then some (h.get c e) else none)
    (hrest : ∀ p f, ¬ (p = .listener ∧ ∃ e, f = .console h.k e) → o p f = σ.own p f) :
    (σ.moved h table c task).own = o := by
  funext p f
  by_cases hf : p = .listener ∧ ∃ e, f = .console h.k e
  · obtain ⟨rfl, e, rfl⟩ := hf
    rw [hthis, @own_listener (σ.moved h table c task) { h with task } rfl]
    cases e <;> simp [State.moved, Handling.get]
  · rw [hrest p f hf]
    cases p with
    | listener =>
      have hne : ∀ e, f ≠ .console h.k e := fun e he => hf ⟨rfl, e, he⟩
      rw [own_listener_of_ne hl hne, @own_listener_of_ne (σ.moved h table c task) { h with task }
        f rfl hne]
    | thread y =>
      by_cases hy : y = h.x
      · subst hy
        rw [own_thread_none hx, @own_thread_none (σ.moved h table c task) h.x f hx]
      · cases f <;> simp [State.own, State.moved, hy]
    | rest => cases f <;> rfl

theorem own_went (ht : σ.threads x = some t) {stage : Stage}
    (hthis : ∀ e, o (.thread x) (.console t.k e) =
      if stage.has e then some ((σ.consoles x).get e) else none)
    (hrest : ∀ p f, ¬ (p = .thread x ∧ ∃ e, f = .console t.k e) → o p f = σ.own p f) :
    (σ.went x table { t with stage }).own = o := by
  have ht' : (σ.went x table { t with stage }).threads x = some { t with stage } :=
    Function.update_self ..
  funext p f
  by_cases hf : p = .thread x ∧ ∃ e, f = .console t.k e
  · obtain ⟨rfl, e, rfl⟩ := hf
    rw [hthis, own_thread ht']
    rfl
  · rw [hrest p f hf]
    cases p with
    | listener => cases f <;> rfl
    | thread y =>
      by_cases hy : y = x
      · subst hy
        have hne : ∀ e, f ≠ .console t.k e := fun e he => hf ⟨rfl, e, he⟩
        rw [own_thread_of_ne ht hne, own_thread_of_ne ht' hne]
      · cases f <;> simp [State.own, State.went, hy]
    | rest => cases f <;> rfl

/-- An entry that the listener sets up is taken or free as its statement says. -/
theorem Inv.moved (hi : Inv σ) (hl : σ.listener = some h) (hx : σ.threads h.x = none)
    (hown : Owns table (σ.moved h table c task).own)
    (hnonneg : ∀ {fd f}, table fd = some f → 0 ≤ fd)
    (hroom : task ≠ .closeS → h.x < SPD_MAX_CONNECTS)
    (hfd : if task.takes then c.fd = h.s else c.fd < 0) : Inv (σ.moved h table c task) where
  owns := hown
  nonneg := hnonneg
  named hl' := by
    obtain rfl := Option.some.inj hl'
    exact @hi.named h hl
  threadNamed ht := hi.threadNamed ht
  apart hl' ht := by
    obtain rfl := Option.some.inj hl'
    exact @hi.apart h _ _ hl ht
  distinct := hi.distinct
  room hl' _ hs := by
    obtain rfl := Option.some.inj hl'
    exact ⟨hroom hs, hx⟩
  takes hl' htakes := by
    obtain rfl := Option.some.inj hl'
    rw [if_pos htakes] at hfd
    exact (congrArg Console.fd (Function.update_self ..)).trans hfd
  busy {y t} ht := by
    have hy : y ≠ h.x := by
      intro he
      rw [he] at ht
      cases hx.symm.trans ht
    dsimp only [State.moved]
    rw [Function.update_of_ne hy]
    exact hi.busy ht
  free {y} hfree := by
    dsimp only [State.moved]
    by_cases hy : y = h.x
    · subst hy
      have hnot : ¬ task.takes := fun htakes => hfree (Or.inr ⟨_, rfl, rfl, htakes⟩)
      rw [if_neg hnot] at hfd
      rw [Function.update_self]
      exact hfd
    · rw [Function.update_of_ne hy]
      refine hi.free fun htaken => hfree ?_
      rcases htaken with ht | ⟨h', hl', hx', -⟩
      · exact Or.inl ht
      · obtain rfl := Option.some.inj (hl.symm.trans hl')
        exact absurd hx'.symm hy

theorem Inv.went (hi : Inv σ) (ht : σ.threads x = some t) {stage : Stage}
    (hown : Owns table (σ.went x table { t with stage }).own)
    (hnonneg : ∀ {fd f}, table fd = some f → 0 ≤ fd) :
    Inv (σ.went x table { t with stage }) := by
  have hthreads : ∀ {y t'}, (σ.went x table { t with stage }).threads y = some t' →
      ∃ t'', σ.threads y = some t'' ∧ t'.k = t''.k := by
    intro y t' ht'
    dsimp only [State.went] at ht'
    by_cases hy : y = x
    · subst hy
      rw [Function.update_self] at ht'
      obtain rfl := Option.some.inj ht'
      exact ⟨t, ht, rfl⟩
    · rw [Function.update_of_ne hy] at ht'
      exact ⟨t', ht', rfl⟩
  refine ⟨hown, hnonneg, hi.named, ?_, ?_, ?_, ?_, hi.takes, ?_, ?_⟩
  · intro y t' ht'
    obtain ⟨t'', h1, h2⟩ := hthreads ht'
    exact h2 ▸ hi.threadNamed h1
  · intro h y t' hl ht'
    obtain ⟨t'', h1, h2⟩ := hthreads ht'
    exact h2 ▸ hi.apart hl h1
  · intro y z t₁ t₂ ht₁ ht₂ hk
    obtain ⟨t₁', h1, h2⟩ := hthreads ht₁
    obtain ⟨t₂', h3, h4⟩ := hthreads ht₂
    exact hi.distinct h1 h3 (h2 ▸ h4 ▸ hk)
  · intro h hl h1 h2
    obtain ⟨hlt, hnone⟩ := hi.room hl h1 h2
    refine ⟨hlt, ?_⟩
    have hne : h.x ≠ x := by
      intro he
      rw [he, ht] at hnone
      cases hnone
    exact (Function.update_of_ne hne ..).trans hnone
  · intro y t' ht'
    obtain ⟨t'', h1, -⟩ := hthreads ht'
    exact hi.busy h1
  · intro y hfree
    refine hi.free fun htaken => hfree ?_
    rcases htaken with hy | hl
    · refine Or.inl ?_
      dsimp only [State.went]
      by_cases hyx : y = x
      · rw [hyx, Function.update_self]
        rfl
      · rw [Function.update_of_ne hyx]
        exact hy
    · exact Or.inr hl

/-- The listener closes an end that it has. -/
theorem Inv.listenerClose (hi : Inv σ) (hl : σ.listener = some h) (hx : σ.threads h.x = none)
    {e : End} (he : σ.own .listener (.console h.k e) = some fd)
    (htask : ∀ e', task.has e' = (h.task.has e' && e' ≠ e))
    (hroom : task ≠ .closeS → h.x < SPD_MAX_CONNECTS)
    (hfd : if task.takes then (σ.consoles h.x).fd = h.s else (σ.consoles h.x).fd < 0) :
    ∃ σ', (do let σ ← σ.close fd
              Outcome.ok (σ.goto h task)) = .ok σ' ∧ Inv σ' := by
  obtain ⟨table, hclose, howns⟩ := hi.owns.close he
  refine ⟨{ σ with table }.goto h task, by simp [State.close, hclose], ?_⟩
  rw [moved_eq_goto]
  refine hi.moved hl hx ?_ (fun hf => hi.nonneg (Table.close_apply hclose hf)) hroom hfd
  rwa [own_moved hl hx (o := σ.own.set .listener (.console h.k e) none)]
  · intro e'
    by_cases hee : e' = e
    · subst hee
      rw [Owners.set_self, htask]
      simp
    · rw [Owners.set_of_ne _ _ _ _ (by simp [hee]), own_listener hl, htask]
      simp [hee]
  · intro p f hf
    exact Owners.set_of_ne _ _ _ _ fun hc => hf ⟨hc.1, e, hc.2⟩

/-- A thread closes an end that it has. -/
theorem Inv.threadClose (hi : Inv σ) (ht : σ.threads x = some t) {e : End} {stage : Stage}
    (he : t.stage.has e = true) (hstage : ∀ e', stage.has e' = (t.stage.has e' && e' ≠ e)) :
    ∃ σ', (do let σ ← σ.close ((σ.consoles x).get e)
              Outcome.ok (σ.next x t stage)) = .ok σ' ∧ Inv σ' := by
  have hown : σ.own (.thread x) (.console t.k e) = some ((σ.consoles x).get e) := by
    rw [own_thread ht, if_pos he]
  obtain ⟨table, hclose, howns⟩ := hi.owns.close hown
  refine ⟨{ σ with table }.next x t stage, by simp [State.close, hclose], ?_⟩
  refine hi.went ht ?_ (fun hf => hi.nonneg (Table.close_apply hclose hf))
  rwa [own_went ht (o := σ.own.set (.thread x) (.console t.k e) none)]
  · intro e'
    by_cases hee : e' = e
    · subst hee
      rw [Owners.set_self, hstage]
      simp
    · rw [Owners.set_of_ne _ _ _ _ (by simp [hee]), own_thread ht, hstage]
      simp [hee]
  · intro p f hf
    exact Owners.set_of_ne _ _ _ _ fun hc => hf ⟨hc.1, e, hc.2⟩

/-- A statement of a thread that closes nothing. -/
theorem Inv.next (hi : Inv σ) (ht : σ.threads x = some t) {stage : Stage}
    (hstage : ∀ e, stage.has e = t.stage.has e) : Inv (σ.next x t stage) := by
  refine hi.went ht ?_ hi.nonneg
  rw [own_went ht (o := σ.own)]
  · exact hi.owns
  · intro e
    rw [own_thread ht, hstage]
  · intro p f _
    rfl

theorem Inv.accept (hi : Inv σ) (hl : σ.listener = none) {a : Answer}
    (ha : a.ok = true → Unused σ a.s) : Inv (accept σ a) := by
  unfold Remote.accept
  split
  next hok =>
    obtain ⟨hpos, hunused⟩ := ha hok
    have hnew : ∀ p, σ.own p (.console σ.accepted .conn) = none := by
      intro p
      cases p with
      | listener => exact own_listener_none hl
      | thread y =>
        cases hy : σ.threads y with
        | none => exact own_thread_none hy
        | some t =>
          have hlt := hi.threadNamed hy
          refine own_thread_of_ne hy fun e he => ?_
          rw [(File.console.inj he).1] at hlt
          exact Nat.lt_irrefl _ hlt
      | rest => rfl
    refine ⟨?_, ?_, ?_, ?_, ?_, hi.distinct, ?_, ?_, hi.busy, ?_⟩
    · have howns := hi.owns.enter hunused hnew .listener
      convert howns using 1
      funext p f
      by_cases hf : p = .listener ∧ f = .console σ.accepted .conn
      · obtain ⟨rfl, rfl⟩ := hf
        rw [Owners.set_self]
        simp [State.own, Task.has, Handling.get]
      · rw [Owners.set_of_ne _ _ _ _ hf]
        cases p with
        | listener =>
          rw [own_listener_none hl]
          cases f with
          | console k e => cases e <;> simp_all [State.own, Task.has]
          | other n => rfl
        | thread y => cases f <;> rfl
        | rest => cases f <;> rfl
    · intro fd f hf
      rcases Table.enter_apply hf with rfl | hf
      · exact hpos
      · exact hi.nonneg hf
    · intro h hl'
      obtain rfl := Option.some.inj hl'
      exact Nat.lt_succ_self _
    · intro x t ht
      exact Nat.lt_succ_of_lt (hi.threadNamed ht)
    · intro h x t hl' ht
      obtain rfl := Option.some.inj hl'
      exact Nat.ne_of_lt (hi.threadNamed ht)
    · intro h hl' hscan _
      obtain rfl := Option.some.inj hl'
      exact absurd rfl hscan
    · intro h hl' htakes
      obtain rfl := Option.some.inj hl'
      cases htakes
    · intro x hfree
      refine hi.free fun htaken => hfree ?_
      rcases htaken with ht | ⟨h, hl', -⟩
      · exact Or.inl ht
      · cases hl.symm.trans hl'
  next => exact hi

theorem Inv.scan (hi : Inv σ) (hl : σ.listener = some h) (hscan : h.task = .scan) :
    Inv (σ.goto { h with x := h.x + 1 } .scan) := by
  have hown : (σ.goto { h with x := h.x + 1 } .scan).own = σ.own := by
    funext p f
    cases p with
    | listener =>
      cases f with
      | console k e => cases e <;> simp [State.own, State.goto, hl, hscan, Task.has, Handling.get]
      | other n => rfl
    | thread y => cases f <;> rfl
    | rest => cases f <;> rfl
  refine ⟨hown ▸ hi.owns, hi.nonneg, ?_, hi.threadNamed, ?_, hi.distinct, ?_, ?_, hi.busy, ?_⟩
  · intro h' hl'
    obtain rfl := Option.some.inj hl'
    exact @hi.named h hl
  · intro h' x t hl' ht
    obtain rfl := Option.some.inj hl'
    exact @hi.apart h _ _ hl ht
  · intro h' hl' hnot _
    obtain rfl := Option.some.inj hl'
    exact absurd rfl hnot
  · intro h' hl' htakes
    obtain rfl := Option.some.inj hl'
    cases htakes
  · intro x hfree
    refine hi.free fun htaken => hfree ?_
    rcases htaken with ht | ⟨h', hl', -, htakes⟩
    · exact Or.inl ht
    · obtain rfl := Option.some.inj (hl.symm.trans hl')
      rw [hscan] at htakes
      cases htakes

/-- An entry that is not taken has no thread, and is one of the table if its descriptor says so. -/
theorem Inv.noThread (hi : Inv σ) (hfd : (σ.consoles x).fd < 0) : σ.threads x = none := by
  cases hx : σ.threads x with
  | none => rfl
  | some t =>
    have hpos := (hi.busy hx).2
    omega

theorem own_conn (hl : σ.listener = some h) :
    σ.own .listener (.console h.k .conn) = some h.s := by
  rw [own_listener hl]
  rfl

/-- The listener changes its entry and closes nothing. -/
theorem Inv.setEntry (hi : Inv σ) (hl : σ.listener = some h) (hx : σ.threads h.x = none)
    (htask : ∀ e, task.has e = h.task.has e)
    (hc : ∀ e, h.get c e = h.get (σ.consoles h.x) e)
    (hroom : task ≠ .closeS → h.x < SPD_MAX_CONNECTS)
    (hfd : if task.takes then c.fd = h.s else c.fd < 0) : Inv (σ.moved h σ.table c task) := by
  refine hi.moved hl hx ?_ hi.nonneg hroom hfd
  rw [own_moved hl hx (o := σ.own)]
  · exact hi.owns
  · intro e
    rw [own_listener hl, htask, hc]
  · intro p f _
    rfl

/-- The listener has a pair of sockets made. -/
theorem Inv.socketpair (hi : Inv σ) (hl : σ.listener = some h) (htask : h.task = .socketpair)
    {p0 p1 : Int} (hp0 : Unused σ p0) (hp1 : Unused σ p1) (hne : p0 ≠ p1) :
    Inv (σ.moved h ((σ.table.enter p0 (.console h.k .read)).enter p1 (.console h.k .write))
      { σ.consoles h.x with p0, p1 } .setFd) := by
  obtain ⟨hroom, hx⟩ := hi.room hl (by rw [htask]; decide) (by rw [htask]; decide)
  have hnew : ∀ e, e ≠ .conn → ∀ p, σ.own p (.console h.k e) = none := by
    intro e he p
    cases p with
    | listener =>
      rw [own_listener hl, htask]
      cases e with
      | conn => exact absurd rfl he
      | read => rfl
      | write => rfl
    | thread y =>
      cases hy : σ.threads y with
      | none => exact own_thread_none hy
      | some t =>
        have hk := hi.apart hl hy
        exact own_thread_of_ne hy fun e' he' => hk (File.console.inj he').1.symm
    | rest => rfl
  have howns := hi.owns.enter hp0.2 (hnew .read (by decide)) .listener
  have hfree : σ.table.enter p0 (.console h.k .read) p1 = none := by
    rw [Table.enter, Function.update_of_ne (Ne.symm hne)]
    exact hp1.2
  have hnew' : ∀ p, σ.own.set .listener (.console h.k .read) (some p0) p (.console h.k .write)
      = none := by
    intro p
    rw [Owners.set_of_ne _ _ _ _ (fun hc => by cases hc.2)]
    exact hnew .write (by decide) p
  have howns' := howns.enter hfree hnew' .listener
  refine hi.moved hl hx ?_ ?_ (fun _ => hroom) ?_
  · rwa [own_moved hl hx (o := (σ.own.set .listener (.console h.k .read) (some p0)).set .listener
      (.console h.k .write) (some p1))]
    · intro e
      cases e with
      | conn =>
        rw [Owners.set_of_ne _ _ _ _ (fun hc => by cases hc.2),
          Owners.set_of_ne _ _ _ _ (fun hc => by cases hc.2), own_listener hl, htask]
        rfl
      | read =>
        rw [Owners.set_of_ne _ _ _ _ (fun hc => by cases hc.2), Owners.set_self]
        rfl
      | write =>
        rw [Owners.set_self]
        rfl
    · intro p f hf
      rw [Owners.set_of_ne _ _ _ _ (fun hc => hf ⟨hc.1, .write, hc.2⟩),
        Owners.set_of_ne _ _ _ _ (fun hc => hf ⟨hc.1, .read, hc.2⟩)]
  · intro fd f hf
    rcases Table.enter_apply hf with rfl | hf
    · exact hp1.1
    · rcases Table.enter_apply hf with rfl | hf
      · exact hp0.1
      · exact hi.nonneg hf
  · refine hi.free fun htaken => ?_
    rcases htaken with ht | ⟨h', hl', -, htakes⟩
    · rw [hx] at ht
      cases ht
    · obtain rfl := Option.some.inj (hl.symm.trans hl')
      rw [htask] at htakes
      cases htakes

/-- A new thread has what the listener had. -/
theorem Inv.create (hi : Inv σ) (hl : σ.listener = some h) (htask : h.task = .create) :
    Inv { σ.setThread h.x (some ⟨h.k, .greet⟩) with listener := none } := by
  obtain ⟨hroom, hx⟩ := hi.room hl (by rw [htask]; decide) (by rw [htask]; decide)
  have hfd := hi.takes hl (by rw [htask]; rfl)
  have hpos : 0 ≤ h.s := hi.nonneg (hi.owns.held (own_conn hl))
  have hthreads : ∀ {y t}, Function.update σ.threads h.x (some ⟨h.k, .greet⟩) y = some t →
      (y = h.x ∧ t.k = h.k) ∨ σ.threads y = some t := by
    intro y t ht
    by_cases hy : y = h.x
    · subst hy
      rw [Function.update_self] at ht
      obtain rfl := Option.some.inj ht
      exact Or.inl ⟨rfl, rfl⟩
    · rw [Function.update_of_ne hy] at ht
      exact Or.inr ht
  have hown : { σ.setThread h.x (some ⟨h.k, .greet⟩) with listener := none : State }.own =
      σ.own.give .listener (.thread h.x) := by
    rw [Owners.give_apply]
    funext p f
    cases p with
    | listener => cases f <;> rfl
    | thread y =>
      by_cases hy : y = h.x
      · subst hy
        cases f with
        | console k e =>
          cases e <;> simp [State.own, State.setThread, hl, htask, Task.has, Stage.has,
            Handling.get, Console.get, hfd]
        | other n => simp [State.own]
      · cases f <;> simp [State.own, State.setThread, hy]
    | rest => cases f <;> rfl
  refine ⟨?_, hi.nonneg, ?_, ?_, ?_, ?_, ?_, ?_, ?_, ?_⟩
  · rw [hown]
    exact hi.owns.give fun f => own_thread_none hx
  · intro h' hl'
    cases hl'
  · intro y t ht
    rcases hthreads ht with ⟨-, hk⟩ | ht
    · rw [hk]
      exact hi.named hl
    · exact hi.threadNamed ht
  · intro h' y t hl'
    cases hl'
  · intro y z t t' ht ht' hk
    rcases hthreads ht with ⟨rfl, h1⟩ | ht <;> rcases hthreads ht' with ⟨rfl, h2⟩ | ht'
    · rfl
    · exact absurd (hk.symm.trans h1) (hi.apart hl ht')
    · exact absurd (hk.trans h2) (hi.apart hl ht)
    · exact hi.distinct ht ht' hk
  · intro h' hl'
    cases hl'
  · intro h' hl'
    cases hl'
  · intro y t ht
    rcases hthreads ht with ⟨rfl, -⟩ | ht
    · exact ⟨hroom, by rw [← hfd] at hpos; exact hpos⟩
    · exact hi.busy ht
  · intro y hfree
    refine hi.free fun htaken => hfree (Or.inl ?_)
    show (Function.update σ.threads h.x _ y).isSome
    by_cases hy : y = h.x
    · rw [hy, Function.update_self]
      rfl
    · rw [Function.update_of_ne hy]
      rcases htaken with ht | ⟨h', hl', hx', -⟩
      · exact ht
      · obtain rfl := Option.some.inj (hl.symm.trans hl')
        exact absurd hx'.symm hy

/-- A thread gives its entry back when it has closed everything. -/
theorem Inv.reset (hi : Inv σ) (ht : σ.threads x = some t) (hstage : t.stage = .reset) :
    Inv ((σ.setConsole x { σ.consoles x with fd := -1 }).setThread x none) := by
  have hthreads : ∀ {y t'}, Function.update σ.threads x none y = some t' →
      y ≠ x ∧ σ.threads y = some t' := by
    intro y t' ht'
    by_cases hy : y = x
    · rw [hy, Function.update_self] at ht'
      cases ht'
    · rw [Function.update_of_ne hy] at ht'
      exact ⟨hy, ht'⟩
  have hlistener : ∀ {h : Handling}, σ.listener = some h → h.task ≠ .scan → h.task ≠ .closeS →
      h.x ≠ x := by
    intro h hl h1 h2 he
    have hnone := (hi.room hl h1 h2).2
    rw [he, ht] at hnone
    cases hnone
  have hown : ((σ.setConsole x { σ.consoles x with fd := -1 }).setThread x none).own = σ.own := by
    funext p f
    cases p with
    | listener =>
      cases f with
      | console k e =>
        cases hl : σ.listener with
        | none => simp [State.own, State.setThread, State.setConsole, hl]
        | some h =>
          by_cases hx : h.x = x
          · have htask : h.task = .scan ∨ h.task = .closeS := by
              by_contra hnot
              rw [not_or] at hnot
              exact hlistener hl hnot.1 hnot.2 hx
            rcases htask with htask | htask <;> cases e <;>
              simp [State.own, State.setThread, State.setConsole, hl, htask, Task.has,
                Handling.get]
          · simp [State.own, State.setThread, State.setConsole, hl, hx]
      | other n => rfl
    | thread y =>
      by_cases hy : y = x
      · subst hy
        cases f with
        | console k e => simp [State.own, State.setThread, ht, hstage, Stage.has]
        | other n => rfl
      · cases f <;> simp [State.own, State.setThread, State.setConsole, hy]
    | rest => cases f <;> rfl
  refine ⟨hown ▸ hi.owns, hi.nonneg, hi.named, ?_, ?_, ?_, ?_, ?_, ?_, ?_⟩
  · intro y t' ht'
    exact hi.threadNamed (hthreads ht').2
  · intro h y t' hl ht'
    exact hi.apart hl (hthreads ht').2
  · intro y z t₁ t₂ ht₁ ht₂ hk
    exact hi.distinct (hthreads ht₁).2 (hthreads ht₂).2 hk
  · intro h hl h1 h2
    have hne := hlistener hl h1 h2
    obtain ⟨hlt, hnone⟩ := hi.room hl h1 h2
    exact ⟨hlt, (Function.update_of_ne hne ..).trans hnone⟩
  · intro h hl htakes
    have hne : h.x ≠ x := by
      refine hlistener hl ?_ ?_
      · intro he
        rw [he] at htakes
        cases htakes
      · intro he
        rw [he] at htakes
        cases htakes
    exact (congrArg Console.fd (Function.update_of_ne hne ..)).trans (hi.takes hl htakes)
  · intro y t' ht'
    obtain ⟨hne, ht'⟩ := hthreads ht'
    obtain ⟨hlt, hpos⟩ := hi.busy ht'
    refine ⟨hlt, ?_⟩
    have hsame : Function.update σ.consoles x { σ.consoles x with fd := -1 } y = σ.consoles y :=
      Function.update_of_ne hne ..
    exact (congrArg Console.fd hsame) ▸ hpos
  · intro y hfree
    show (Function.update σ.consoles x { σ.consoles x with fd := -1 } y).fd < 0
    by_cases hy : y = x
    · rw [hy, Function.update_self]
      exact (by decide : (-1 : Int) < 0)
    · rw [Function.update_of_ne hy]
      refine hi.free fun htaken => hfree ?_
      rcases htaken with hty | hl
      · refine Or.inl ?_
        show (Function.update σ.threads x none y).isSome
        rw [Function.update_of_ne hy]
        exact hty
      · exact Or.inr hl

/-- The rest of the program may open and close what it likes. -/
theorem Inv.others (hi : Inv σ) {table : Table File} {others : Nat → Option Int}
    (hown : Owns table { σ with table, others }.own)
    (hnonneg : ∀ {fd f}, table fd = some f → 0 ≤ fd) : Inv { σ with table, others } where
  owns := hown
  nonneg := hnonneg
  named := hi.named
  threadNamed := hi.threadNamed
  apart := hi.apart
  distinct := hi.distinct
  room := hi.room
  takes := hi.takes
  busy := hi.busy
  free := hi.free

theorem own_others {table : Table File} (n : Nat) (o : Option Int) :
    { σ with table, others := Function.update σ.others n o }.own =
      σ.own.set .rest (.other n) o := by
  funext p f
  by_cases hf : p = .rest ∧ f = .other n
  · obtain ⟨rfl, rfl⟩ := hf
    simp [State.own]
  · rw [Owners.set_of_ne _ _ _ _ hf]
    cases p with
    | listener => cases f <;> rfl
    | thread y => cases f <;> rfl
    | rest =>
      cases f with
      | console k e => rfl
      | other m =>
        have hm : m ≠ n := fun hm => hf ⟨rfl, hm ▸ rfl⟩
        simp [State.own, hm]

theorem Inv.openOther (hi : Inv σ) {n : Nat} (hfd : Unused σ fd) (hn : σ.others n = none) :
    Inv { σ with
      table := σ.table.enter fd (.other n)
      others := Function.update σ.others n (some fd) } := by
  have hnew : ∀ p, σ.own p (.other n) = none := by
    intro p
    cases p with
    | listener => rfl
    | thread y => rfl
    | rest => exact hn
  refine hi.others ?_ ?_
  · rw [own_others]
    exact hi.owns.enter hfd.2 hnew .rest
  · intro fd' f hf
    rcases Table.enter_apply hf with rfl | hf
    · exact hfd.1
    · exact hi.nonneg hf

theorem Inv.closeOther (hi : Inv σ) {n : Nat} (hn : σ.others n = some fd) :
    ∃ σ', (do let σ ← σ.close fd
              Outcome.ok { σ with others := Function.update σ.others n none }) = .ok σ' ∧
      Inv σ' := by
  have hown : σ.own .rest (.other n) = some fd := hn
  obtain ⟨table, hclose, howns⟩ := hi.owns.close hown
  refine ⟨{ σ with table, others := Function.update σ.others n none },
    by simp [State.close, hclose], ?_⟩
  refine hi.others ?_ fun hf => hi.nonneg (Table.close_apply hclose hf)
  rw [own_others]
  exact howns

/-- The listener closes a connection that gets no console. -/
theorem Inv.dismiss (hi : Inv σ) (hl : σ.listener = some h) (htask : h.task = .closeS) :
    ∃ σ', (do let σ ← σ.close h.s
              Outcome.ok { σ with listener := none }) = .ok σ' ∧ Inv σ' := by
  obtain ⟨table, hclose, howns⟩ := hi.owns.close (own_conn hl)
  have hown : { σ with table, listener := none }.own =
      σ.own.set .listener (.console h.k .conn) none := by
    funext p f
    by_cases hf : p = .listener ∧ f = .console h.k .conn
    · obtain ⟨rfl, rfl⟩ := hf
      rw [Owners.set_self]
      rfl
    · rw [Owners.set_of_ne _ _ _ _ hf]
      cases p with
      | listener =>
        cases f with
        | console k e => cases e <;> simp_all [State.own, Task.has]
        | other n => rfl
      | thread y => cases f <;> rfl
      | rest => cases f <;> rfl
  refine ⟨{ σ with table, listener := none }, by simp [State.close, hclose], ?_⟩
  refine ⟨hown ▸ howns, fun hf => hi.nonneg (Table.close_apply hclose hf), ?_, hi.threadNamed, ?_,
    hi.distinct, ?_, ?_, hi.busy, ?_⟩
  · intro h' hl'
    cases hl'
  · intro h' y t hl'
    cases hl'
  · intro h' hl'
    cases hl'
  · intro h' hl'
    cases hl'
  · intro y hfree
    refine hi.free fun htaken => hfree ?_
    rcases htaken with ht | ⟨h', hl', -, htakes⟩
    · exact Or.inl ht
    · obtain rfl := Option.some.inj (hl.symm.trans hl')
      rw [htask] at htakes
      cases htakes

/-- Every statement of the listener returns and keeps the invariant. -/
theorem Inv.listenerThread (hi : Inv σ) (hl : σ.listener = some h) {a : Answer}
    (ha : a.ok = true → h.task = .socketpair → Unused σ a.p0 ∧ Unused σ a.p1 ∧ a.p0 ≠ a.p1) :
    ∃ σ', listenerThread σ h a = .ok σ' ∧ Inv σ' := by
  have hroom := hi.room hl
  have htakes := hi.takes hl
  have hfree : ∀ {y}, σ.threads y = none → h.task.takes = false → (σ.consoles y).fd < 0 := by
    intro y hy htask
    refine hi.free fun htaken => ?_
    rcases htaken with ht | ⟨h', hl', -, ht⟩
    · rw [hy] at ht
      cases ht
    · obtain rfl := Option.some.inj (hl.symm.trans hl')
      rw [htask] at ht
      cases ht
  unfold Remote.listenerThread
  cases htask : h.task with
  | scan =>
    dsimp only
    split
    next hlt =>
      split
      next hfd =>
        refine ⟨_, rfl, ?_⟩
        rw [moved_eq_goto σ h σ.table .socketpair]
        exact hi.setEntry hl (hi.noThread hfd) (fun e => by rw [htask]; cases e <;> rfl) (fun _ => rfl)
          (fun _ => hlt) hfd
      next hfd => exact ⟨_, rfl, hi.scan hl htask⟩
    next hlt =>
      have hx : σ.threads h.x = none := by
        cases hx : σ.threads h.x with
        | none => rfl
        | some t => exact absurd (hi.busy hx).1 hlt
      refine ⟨_, rfl, ?_⟩
      rw [moved_eq_goto σ h σ.table .closeS]
      exact hi.setEntry hl hx (fun e => by rw [htask]; cases e <;> rfl) (fun _ => rfl) (fun hne => absurd rfl hne)
        (hfree hx (by rw [htask]; rfl))
  | socketpair =>
    obtain ⟨hlt, hx⟩ := hroom (by rw [htask]; decide) (by rw [htask]; decide)
    dsimp only
    split
    next hok =>
      obtain ⟨hp0, hp1, hne⟩ := ha hok htask
      exact ⟨_, rfl, hi.socketpair hl htask hp0 hp1 hne⟩
    next =>
      exact ⟨_, rfl, hi.setEntry hl hx (fun e => by rw [htask]; cases e <;> rfl) (fun e => by cases e <;> rfl)
        (fun hne => absurd rfl hne) (by decide : (-1 : Int) < 0)⟩
  | setFd =>
    obtain ⟨hlt, hx⟩ := hroom (by rw [htask]; decide) (by rw [htask]; decide)
    exact ⟨_, rfl, hi.setEntry hl hx (fun e => by rw [htask]; cases e <;> rfl) (fun e => by cases e <;> rfl)
      (fun _ => hlt) rfl⟩
  | setMute =>
    obtain ⟨hlt, hx⟩ := hroom (by rw [htask]; decide) (by rw [htask]; decide)
    exact ⟨_, rfl, hi.setEntry hl hx (fun e => by rw [htask]; cases e <;> rfl) (fun e => by cases e <;> rfl)
      (fun _ => hlt) (htakes (by rw [htask]; rfl))⟩
  | create =>
    obtain ⟨hlt, hx⟩ := hroom (by rw [htask]; decide) (by rw [htask]; decide)
    dsimp only
    split
    next => exact ⟨_, rfl, hi.create hl htask⟩
    next =>
      refine ⟨_, rfl, ?_⟩
      rw [moved_eq_goto σ h σ.table .closeP0]
      exact hi.setEntry hl hx (fun e => by rw [htask]; cases e <;> rfl) (fun _ => rfl) (fun _ => hlt)
        (htakes (by rw [htask]; rfl))
  | closeP0 =>
    obtain ⟨hlt, hx⟩ := hroom (by rw [htask]; decide) (by rw [htask]; decide)
    have hown : σ.own .listener (.console h.k .read) = some (σ.consoles h.x).p0 := by
      rw [own_listener hl, htask]
      rfl
    exact hi.listenerClose hl hx hown (fun e => by rw [htask]; cases e <;> rfl) (fun _ => hlt)
      (htakes (by rw [htask]; rfl))
  | closeP1 =>
    obtain ⟨hlt, hx⟩ := hroom (by rw [htask]; decide) (by rw [htask]; decide)
    have hown : σ.own .listener (.console h.k .write) = some (σ.consoles h.x).p1 := by
      rw [own_listener hl, htask]
      rfl
    exact hi.listenerClose hl hx hown (fun e => by rw [htask]; cases e <;> rfl) (fun _ => hlt)
      (htakes (by rw [htask]; rfl))
  | resetFd =>
    obtain ⟨hlt, hx⟩ := hroom (by rw [htask]; decide) (by rw [htask]; decide)
    exact ⟨_, rfl, hi.setEntry hl hx (fun e => by rw [htask]; cases e <;> rfl) (fun e => by cases e <;> rfl)
      (fun hne => absurd rfl hne) (by decide : (-1 : Int) < 0)⟩
  | closeS => exact hi.dismiss hl htask

/-- Every statement of a console's thread returns and keeps the invariant, unless a message fills
    the buffer. -/
theorem Inv.netconsoleThread (hi : Inv σ) (ht : σ.threads x = some t) {r : Reply}
    (hr : r.res ≤ TMP_SIZE) (hfills : ¬ Fills σ (.thread x r)) :
    ∃ σ', netconsoleThread σ x t r = .ok σ' ∧ Inv σ' := by
  have hgo : ∀ stage, (∀ e, stage.has e = t.stage.has e) →
      ∃ σ', Outcome.ok (σ.next x t stage) = .ok σ' ∧ Inv σ' :=
    fun stage hstage => ⟨_, rfl, hi.next ht hstage⟩
  unfold Remote.netconsoleThread
  cases hstage : t.stage with
  | greet => exact hgo .poll fun e => by rw [hstage]; rfl
  | poll =>
    dsimp only
    split
    next => exact ⟨σ, rfl, hi⟩
    next =>
      split
      next => exact hgo _ fun e => by rw [hstage]; rfl
      next =>
        split
        next => exact hgo _ fun e => by rw [hstage]; rfl
        next => exact ⟨σ, rfl, hi⟩
  | readConn pair =>
    dsimp only
    split
    next => exact hgo _ fun e => by rw [hstage]; rfl
    next =>
      have hne : r.res ≠ TMP_SIZE := fun he => hfills ⟨t, ht, by rw [hstage]; rfl, he⟩
      have hlt : r.res < TMP_SIZE := by omega
      rw [if_pos hlt]
      exact hgo _ fun e => by rw [hstage]; rfl
  | command pair => exact hgo _ fun e => by rw [hstage]; cases pair <;> rfl
  | readPair => exact hgo _ fun e => by rw [hstage]; split <;> rfl
  | writeConn => exact hgo _ fun e => by rw [hstage]; split <;> rfl
  | closeFd =>
    exact hi.threadClose ht (e := .conn) (by rw [hstage]; rfl) fun e => by
      rw [hstage]
      cases e <;> rfl
  | closeP0 =>
    exact hi.threadClose ht (e := .read) (by rw [hstage]; rfl) fun e => by
      rw [hstage]
      cases e <;> rfl
  | closeP1 =>
    exact hi.threadClose ht (e := .write) (by rw [hstage]; rfl) fun e => by
      rw [hstage]
      cases e <;> rfl
  | reset => exact ⟨_, rfl, hi.reset ht hstage⟩

theorem inv_step {op : Op} (hi : Inv σ) (he : Enabled σ op) (hfills : ¬ Fills σ op) :
    ∃ σ', step σ op = .ok σ' ∧ Inv σ' := by
  cases op with
  | listener a =>
    dsimp only [step]
    cases hl : σ.listener with
    | none =>
      exact ⟨_, rfl, hi.accept hl fun hok => (he hok).1 hl⟩
    | some h =>
      exact hi.listenerThread hl fun hok => (he hok).2 h hl
  | thread x r =>
    obtain ⟨hsome, hr⟩ := he
    obtain ⟨t, ht⟩ := Option.isSome_iff_exists.mp hsome
    dsimp only [step]
    rw [ht]
    exact hi.netconsoleThread ht hr hfills
  | openOther n fd => exact ⟨_, rfl, hi.openOther he.1 he.2⟩
  | closeOther n =>
    obtain ⟨fd, hn⟩ := Option.isSome_iff_exists.mp he
    dsimp only [step]
    rw [hn]
    exact hi.closeOther hn

theorem Inv.sound (hi : Inv σ) : Sound σ where
  held _ _ _ h := hi.owns.held h
  kept _ _ h := hi.owns.kept h
  once _ _ _ _ _ h h' := hi.owns.once h h'
  taken x := by
    constructor
    · intro hpos
      by_contra hfree
      have hneg := hi.free hfree
      omega
    · rintro (hsome | ⟨h, hl, rfl, htakes⟩)
      · obtain ⟨t, ht⟩ := Option.isSome_iff_exists.mp hsome
        exact (hi.busy ht).2
      · rw [hi.takes hl htakes]
        exact hi.nonneg (hi.owns.held (own_conn hl))

end

/-- Whatever the order of the steps of the listener, of the consoles and of the rest of the
    program, and whatever the system answers, the consoles stay in order exactly as long as no
    client sends as much as the buffer holds. -/
theorem consoles_sound (ops : List Op) (hl : Run.Legal step Enabled start ops) :
    Run.Always step Sound start ops ↔ Run.Legal step (fun σ op => ¬ Fills σ op) start ops := by
  refine Run.always_iff_inv (fun _ hi => Inv.sound hi) (fun _ _ hi he hf => inv_step hi he hf) ?_
    ops inv_start hl
  intro σ op σ' hi he hf hstep
  cases op with
  | thread x r =>
    obtain ⟨t, ht, hreads, hr⟩ := hf
    cases hstage : t.stage with
    | readConn pair =>
      rw [step, Option.mem_def.mp ht] at hstep
      simp [netconsoleThread, hstage, hr, TMP_SIZE] at hstep
    | _ =>
      rw [hstage] at hreads
      cases hreads
  | listener a => exact hf.elim
  | openOther n fd => exact hf.elim
  | closeOther n => exact hf.elim

section

variable {σ : State} {h : Handling} {x : Nat} {t : Thread}

/-- The end that messages are written to is open until it is closed, and nobody opens it again. -/
theorem Inv.threadFeed (hi : Inv σ) (ht : σ.threads x = some t) :
    σ.table (σ.consoles x).p1 = some (.console t.k .write) ↔ t.stage ≠ .reset := by
  constructor
  · intro htable hstage
    obtain ⟨p, hp⟩ := hi.owns.kept htable
    cases p with
    | listener =>
      cases hl : σ.listener with
      | none =>
        rw [own_listener_none hl] at hp
        cases hp
      | some h =>
        have hk := hi.apart hl ht
        rw [own_listener_of_ne hl fun e he => hk (File.console.inj he).1] at hp
        cases hp
    | thread y =>
      cases hy : σ.threads y with
      | none =>
        rw [own_thread_none hy] at hp
        cases hp
      | some t' =>
        by_cases hk : t.k = t'.k
        · obtain rfl := hi.distinct ht hy hk
          obtain rfl := Option.some.inj (ht.symm.trans hy)
          rw [own_thread ht, hstage] at hp
          cases hp
        · rw [own_thread_of_ne hy fun e he => hk (File.console.inj he).1] at hp
          cases hp
    | rest => cases hp
  · intro hstage
    have hhas : t.stage.has .write = true := by
      cases hs : t.stage <;> first | rfl | exact absurd hs hstage
    refine hi.owns.held (p := .thread x) ?_
    rw [own_thread ht, if_pos hhas]
    rfl

theorem Inv.listenerFeed (hi : Inv σ) (hl : σ.listener = some h) (htakes : h.task.takes) :
    σ.table (σ.consoles h.x).p1 = some (.console h.k .write) ↔ h.task ≠ .resetFd := by
  constructor
  · intro htable htask
    obtain ⟨p, hp⟩ := hi.owns.kept htable
    cases p with
    | listener =>
      rw [own_listener hl, htask] at hp
      cases hp
    | thread y =>
      cases hy : σ.threads y with
      | none =>
        rw [own_thread_none hy] at hp
        cases hp
      | some t =>
        have hk := hi.apart hl hy
        rw [own_thread_of_ne hy fun e he => hk (File.console.inj he).1.symm] at hp
        cases hp
    | rest => cases hp
  · intro htask
    have hhas : h.task.has .write = true := by
      cases hs : h.task <;> rw [hs] at htakes htask <;>
        first | rfl | exact absurd rfl htask | cases htakes
    refine hi.owns.held (p := .listener) ?_
    rw [own_listener hl, if_pos hhas]
    rfl

theorem Inv.entry (hi : Inv σ) (hfd : (σ.consoles x).fd > -1) : ∃ k, σ.serves x = some k ∧
    (σ.table (σ.consoles x).p1 = some (.console k .write) ↔ ¬ σ.Closing x) := by
  have htaken := (hi.sound.taken x).mp (by omega)
  unfold State.serves
  cases ht : σ.threads x with
  | some t =>
    refine ⟨t.k, rfl, (hi.threadFeed ht).trans (not_congr ?_)⟩
    constructor
    · intro hstage
      exact Or.inl ⟨t, ht, hstage⟩
    · rintro (⟨t', ht', hstage⟩ | ⟨h, hl, rfl, htask⟩)
      · obtain rfl := Option.some.inj (ht.symm.trans ht')
        exact hstage
      · have hnone := (hi.room hl (by rw [htask]; decide) (by rw [htask]; decide)).2
        cases ht.symm.trans hnone
  | none =>
    rcases htaken with hsome | ⟨h, hl, rfl, htakes⟩
    · rw [ht] at hsome
      cases hsome
    · refine ⟨h.k, by simp [hl, htakes], (hi.listenerFeed hl htakes).trans (not_congr ?_)⟩
      constructor
      · intro htask
        exact Or.inr ⟨h, hl, rfl, htask⟩
      · rintro (⟨t, ht', -⟩ | ⟨h', hl', -, htask⟩)
        · cases ht.symm.trans ht'
        · obtain rfl := Option.some.inj (hl.symm.trans hl')
          exact htask

theorem Inv.serves_none (hi : Inv σ) (hfd : ¬ (σ.consoles x).fd > -1) : σ.serves x = none := by
  have hnot : ¬ σ.Taken x := fun htaken => hfd (by
    have hpos := (hi.sound.taken x).mpr htaken
    omega)
  unfold State.serves
  cases ht : σ.threads x with
  | some t => exact absurd (Or.inl (by rw [ht]; rfl)) hnot
  | none =>
    cases hl : σ.listener with
    | none => rfl
    | some h =>
      have hc : ¬ (h.x = x ∧ h.task.takes) := fun hc => hnot (Or.inr ⟨h, hl, hc.1, hc.2⟩)
      simp only [Option.bind_some]
      rw [if_neg hc]

theorem Inv.fed (hi : Inv σ) : Fed σ where
  entry _ := hi.entry
  all hquiet := by
    unfold spdNetworkPutsMutable
    rw [List.map_filterMap, List.filterMap_filter]
    congr 1
    funext x
    dsimp only
    cases (σ.consoles x).mute with
    | true => rfl
    | false =>
      by_cases hfd : (σ.consoles x).fd > -1
      · obtain ⟨k, hserves, hiff⟩ := hi.entry hfd
        simp [hfd, hserves, hiff.mpr (hquiet x)]
      · simp [hfd, hi.serves_none hfd]

end

/-- A client connects, sends a command and leaves, while the rest of the program opens what the
    system gives it. -/
def session : List Op :=
  let ok (s p0 p1 : Int) := Op.listener ⟨true, s, p0, p1, false⟩
  let reply (res : Int) := Op.thread 0 ⟨res, true, false⟩
  [ok 5 0 0, ok 0 0 0, ok 0 6 7, ok 0 0 0, .openOther 0 8, ok 0 0 0, ok 0 0 0, reply 0, reply 1,
    reply 20, reply 0, reply 1, reply 0, reply 0, .openOther 1 5, reply 0, reply 0, reply 0,
    .closeOther 1]

theorem consoles_sound_session : Run.Always step Sound start session :=
  (consoles_sound session (by decide +kernel)).mpr (by decide +kernel)

/-- A broadcast reaches the consoles in every state of a run. -/
theorem broadcasts_fed (ops : List Op) (hl : Run.Legal step Enabled start ops)
    (hfills : Run.Legal step (fun σ op => ¬ Fills σ op) start ops) :
    Run.Always step Fed start ops :=
  Run.always_of_legal (fun _ hi => Inv.fed hi) (fun _ _ hi he hf => inv_step hi he hf) ops
    inv_start hl hfills

theorem broadcasts_fed_session : Run.Always step Fed start session :=
  broadcasts_fed session (by decide +kernel) (by decide +kernel)

end Spider.Remote
