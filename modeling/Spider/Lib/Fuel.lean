import Spider.Lib.Outcome

/-!
# Runs with fuel

A loop that need not end is a function of its fuel, which gives `timeout` when
that runs out. `Settles` says how such a run ends, whatever it is given: with
too little fuel it times out, and with enough it has the outcome `r`, which is
`timeout` itself for a loop without an end.
-/

namespace Lib.Outcome

variable {β γ : Type}

/-- The outcome of the run is `r`, as soon as there is fuel for it. -/
structure Settles (f : Nat → Outcome β) (r : Outcome β) : Prop where
  sound : ∀ fuel, f fuel = .timeout ∨ f fuel = r
  enough : ∃ fuel, ∀ more, f (fuel + more) = r

namespace Settles

variable {f : Nat → Outcome β} {g : β → Nat → Outcome γ} {r : Outcome β} {k : β → Outcome γ}

theorem const (r : Outcome β) : Settles (fun _ => r) r := ⟨fun _ => .inr rfl, ⟨0, fun _ => rfl⟩⟩

theorem of_timeout (h : ∀ fuel, f fuel = .timeout) : Settles f .timeout :=
  ⟨fun fuel => .inl (h fuel), ⟨0, fun more => h (0 + more)⟩⟩

/-- A loop that has come to its end with some fuel, where more fuel changes no end. -/
theorem of_mono (hmono : ∀ fuel more, f fuel ≠ .timeout → f (fuel + more) = f fuel) {n : Nat}
    (h : f n = r) (hr : r ≠ .timeout) : Settles f r := by
  have hn : ∀ more, f (n + more) = r := by
    intro more
    rw [hmono n more (by rw [h]; exact hr), h]
  refine ⟨?_, ⟨n, hn⟩⟩
  intro fuel
  by_cases htimeout : f fuel = .timeout
  · exact .inl htimeout
  · right
    rw [← hmono fuel n htimeout, Nat.add_comm, hn]

theorem ends_iff (h : Settles f r) : (∃ fuel, f fuel ≠ .timeout) ↔ r ≠ .timeout := by
  constructor
  · rintro ⟨fuel, hfuel⟩ hr
    rcases h.sound fuel with htimeout | heq
    · exact hfuel htimeout
    · exact hfuel (heq.trans hr)
  · intro hr
    obtain ⟨n, hn⟩ := h.enough
    refine ⟨n + 0, ?_⟩
    rw [hn]
    exact hr

theorem returns_iff (h : Settles f r) : (∃ fuel v, f fuel = .ok v) ↔ ∃ v, r = .ok v := by
  constructor
  · rintro ⟨fuel, v, hv⟩
    rcases h.sound fuel with htimeout | heq
    · exact absurd (htimeout.symm.trans hv) nofun
    · exact ⟨v, heq.symm.trans hv⟩
  · rintro ⟨v, rfl⟩
    obtain ⟨n, hn⟩ := h.enough
    exact ⟨n + 0, v, hn 0⟩

/-- The rule of sequencing: two loops, one after the other, on the same fuel. -/
theorem bind (h : Settles f r) (hg : ∀ v, r = .ok v → Settles (g v) (k v)) :
    Settles (fun fuel => f fuel >>= fun v => g v fuel) (r >>= k) := by
  obtain ⟨n, hn⟩ := h.enough
  cases r with
  | ok v =>
    have hv := hg v rfl
    obtain ⟨m, hm⟩ := hv.enough
    refine ⟨?_, ⟨n + m, ?_⟩⟩
    · intro fuel
      rcases h.sound fuel with htimeout | heq
      · exact .inl (by simp [htimeout])
      · simpa [heq] using hv.sound fuel
    · intro more
      have hf : f (n + m + more) = .ok v := by rw [Nat.add_assoc, hn]
      have hgv : g v (n + m + more) = k v := by rw [Nat.add_comm n m, Nat.add_assoc, hm]
      simp [hf, hgv]
  | fault => exact ⟨fun fuel => (h.sound fuel).imp (by simp +contextual) (by simp +contextual),
      ⟨n, by simp [hn]⟩⟩
  | overflow => exact ⟨fun fuel => (h.sound fuel).imp (by simp +contextual) (by simp +contextual),
      ⟨n, by simp [hn]⟩⟩
  | timeout => exact ⟨fun fuel => (h.sound fuel).imp (by simp +contextual) (by simp +contextual),
      ⟨n, by simp [hn]⟩⟩

end Settles

/-! ## Runs against a model -/

/-- `m.Mirrors w Q`: with the value that the model `w` has, the run returns what is in the relation
    `Q` to it, and without one it times out; in both cases it may stop because a counter would have
    overflowed. -/
def Mirrors {δ : Type} (m : Outcome β) (w : Option δ) (Q : β → δ → Prop) : Prop :=
  match w with
  | some v => m.Sat fun x => Q x v
  | none => m = .timeout ∨ m = .overflow

/-- The rule of sequencing, for a first part that ends. -/
theorem Sat.bind_mirrors {δ : Type} {m : Outcome β} {f : β → Outcome γ} {P : β → Prop}
    {w : Option δ} {Q : γ → δ → Prop} (hm : m.Sat P) (hf : ∀ v, P v → (f v).Mirrors w Q) :
    (m >>= f).Mirrors w Q := by
  cases m with
  | ok v => exact hf v hm
  | fault => exact hm.elim
  | overflow =>
    cases w with
    | none => exact .inr rfl
    | some v => trivial
  | timeout => exact hm.elim

/-- The rule of sequencing, for a last part that ends. -/
theorem Mirrors.bind_sat {δ : Type} {m : Outcome β} {f : β → Outcome γ} {w : Option δ}
    {Q : β → δ → Prop} {R : γ → δ → Prop} (hm : m.Mirrors w Q)
    (hf : ∀ v x, w = some x → Q v x → (f v).Sat fun y => R y x) : (m >>= f).Mirrors w R := by
  cases w with
  | some x => exact Sat.bind hm fun v hv => hf v x rfl hv
  | none =>
    rcases hm with rfl | rfl
    · exact .inl rfl
    · exact .inr rfl

theorem Mirrors.mono {δ : Type} {m : Outcome β} {w : Option δ} {Q R : β → δ → Prop}
    (hm : m.Mirrors w Q) (h : ∀ v x, Q v x → R v x) : m.Mirrors w R := by
  cases w with
  | some x => exact Sat.mono hm fun v hv => h v x hv
  | none => exact hm

/-- A run that returns has the value of the model. -/
theorem Mirrors.of_ok {δ : Type} {m : Outcome β} {w : Option δ} {Q : β → δ → Prop} {v : β}
    (hm : m.Mirrors w Q) (h : m = .ok v) : ∃ x, w = some x ∧ Q v x := by
  subst h
  cases w with
  | some x => exact ⟨x, rfl, hm⟩
  | none => rcases hm with hm | hm <;> cases hm

/-- A run returns where its model has a value, if no counter overflows. -/
theorem Mirrors.returns {δ : Type} {m : Outcome β} {x : δ} {Q : β → δ → Prop}
    (hm : m.Mirrors (some x) Q) (h : m ≠ .overflow) : ∃ v, m = .ok v ∧ Q v x := by
  cases m with
  | ok v => exact ⟨v, rfl, hm⟩
  | overflow => exact absurd rfl h
  | fault => exact hm.elim
  | timeout => exact hm.elim

end Lib.Outcome
