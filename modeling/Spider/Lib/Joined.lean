import Mathlib.Data.List.Infix

/-!
# Joined words

Words one behind the other, with a separator behind each and a closing element
behind the last. When the words hold no break, and separator and closing element
are breaks, what lies between two breaks is made of whole words.
-/

namespace Lib.Joined

variable {α : Type} {brk : α → Bool} {sep close : α}

/-- The words, with `sep` behind each but the last, and `close` behind that. -/
def closed (sep close : α) : List (List α) → List α
  | [] => []
  | w :: ws => w ++ (if ws = [] then close else sep) :: closed sep close ws

/-- The words hold no break, and each holds something. -/
structure Unbroken (brk : α → Bool) (ws : List (List α)) : Prop where
  ne_nil : ∀ w ∈ ws, w ≠ []
  break_eq : ∀ w ∈ ws, ∀ c ∈ w, brk c = false

section

variable {w q u post : List α} {ws s p r : List (List α)}

theorem Unbroken.tail (h : Unbroken brk (w :: ws)) : Unbroken brk ws :=
  ⟨fun v hv => h.ne_nil v (List.mem_cons_of_mem w hv),
    fun v hv => h.break_eq v (List.mem_cons_of_mem w hv)⟩

theorem Unbroken.of_suffix (h : Unbroken brk ws) (hs : s <:+ ws) : Unbroken brk s :=
  ⟨fun v hv => h.ne_nil v (hs.subset hv), fun v hv => h.break_eq v (hs.subset hv)⟩

theorem closed_eq (hws : ws ≠ []) : closed sep close ws = [sep].intercalate ws ++ [close] := by
  induction ws with
  | nil => exact absurd rfl hws
  | cons w ws ih =>
    cases ws with
    | nil => simp [closed]
    | cons v ws =>
      rw [closed, if_neg (List.cons_ne_nil v ws), ih (List.cons_ne_nil v ws),
        List.intercalate_cons_cons]
      simp

/-- What stands in joined words is a separator, or stands in one of them. -/
theorem mem_intercalate {c d : α} (hc : c ∈ [d].intercalate ws) : c = d ∨ ∃ w ∈ ws, c ∈ w := by
  induction ws with
  | nil => exact absurd hc List.not_mem_nil
  | cons w ws ih =>
    cases ws with
    | nil => exact .inr ⟨w, List.mem_cons_self, by simpa using hc⟩
    | cons v ws =>
      rw [List.intercalate_cons_cons, List.mem_append, List.mem_append, List.mem_singleton] at hc
      rcases hc with (hc | rfl) | hc
      · exact .inr ⟨w, List.mem_cons_self, hc⟩
      · exact .inl rfl
      · exact (ih hc).imp id fun ⟨x, hx, hcx⟩ => ⟨x, List.mem_cons_of_mem w hx, hcx⟩

/-- The words in front stand with their separators in front. -/
theorem closed_append (sep close : α) (hr : r ≠ []) (p : List (List α)) :
    ∃ q, closed sep close (p ++ r) = q ++ closed sep close r ∧ ∀ c ∈ q.getLast?, c = sep := by
  induction p with
  | nil => exact ⟨[], rfl, nofun⟩
  | cons w p ih =>
    obtain ⟨q, hq, hlast⟩ := ih
    have hne : p ++ r ≠ [] := by simp [hr]
    refine ⟨w ++ sep :: q, by rw [List.cons_append, closed, if_neg hne, hq]; simp, ?_⟩
    intro c hc
    rw [List.getLast?_append_cons, List.getLast?_cons] at hc
    cases hlast? : q.getLast? with
    | none =>
      rw [hlast?] at hc
      exact (Option.some.inj hc).symm
    | some d =>
      rw [hlast?] at hc
      exact (Option.some.inj hc) ▸ hlast d hlast?

/-- The words behind stand behind a separator, or the closing element. -/
theorem closed_append_left (hp : p ≠ []) (r : List (List α)) :
    closed sep close (p ++ r) = [sep].intercalate p ++
      (if r = [] then close else sep) :: closed sep close r := by
  induction p with
  | nil => exact absurd rfl hp
  | cons w p ih =>
    cases p with
    | nil => simp [closed]
    | cons v p =>
      rw [List.cons_append, closed, if_neg (by simp), ih (List.cons_ne_nil v p),
        List.intercalate_cons_cons]
      simp

/-- What begins behind a break begins with a word. -/
theorem exists_suffix (hws : Unbroken brk ws) (heq : closed sep close ws = q ++ u) (hu : u ≠ [])
    (hq : ∀ c ∈ q.getLast?, brk c = true) : ∃ s, s <:+ ws ∧ u = closed sep close s := by
  induction ws generalizing q with
  | nil => exact absurd (List.append_eq_nil_iff.mp heq.symm).2 hu
  | cons w ws ih =>
    -- a break is not in the word
    have hword : ∀ q', q' <+: w → q = q' → q = [] := by
      rintro q' hsub rfl
      cases hlast : q.getLast? with
      | none => exact List.getLast?_eq_none_iff.mp hlast
      | some c =>
        have hc := hws.break_eq w List.mem_cons_self c (hsub.subset (List.mem_of_getLast? hlast))
        exact absurd (hc.symm.trans (hq c hlast)) Bool.noConfusion
    by_cases hnil : q = []
    · subst hnil
      exact ⟨w :: ws, List.suffix_refl _, heq.symm⟩
    rw [closed] at heq
    rcases List.append_eq_append_iff.mp heq with ⟨behind, hbehind, hrest⟩ | ⟨rest, hw, hrest⟩
    · cases behind with
      | nil => exact absurd (hword w (List.prefix_refl w) (by simpa using hbehind)) hnil
      | cons x behind =>
        rw [List.cons_append] at hrest
        obtain ⟨s, hs, hus⟩ := ih hws.tail (List.cons.inj hrest).2 fun c hc => hq c (by
          rw [hbehind, List.getLast?_append_cons, List.getLast?_cons, Option.mem_def.mp hc]
          rfl)
        exact ⟨s, hs.trans (List.suffix_cons w ws), hus⟩
    · exact absurd (hword q ⟨rest, hw.symm⟩ rfl) hnil

/-- What ends before a break is made of whole words, or goes on to the end. -/
theorem exists_isPrefix (hws : Unbroken brk ws) (heq : closed sep close ws = u ++ post)
    (hu : u ≠ []) (hpost : ∀ c ∈ post.head?, brk c = true) :
    (∃ p, p ≠ [] ∧ p <+: ws ∧ u = [sep].intercalate p) ∨ u = closed sep close ws := by
  induction ws generalizing u with
  | nil => exact absurd (List.append_eq_nil_iff.mp heq.symm).1 hu
  | cons w ws ih =>
    have hstop : ∀ v ∈ w :: ws, ∀ rest, post ≠ v ++ rest := by
      intro v hv rest heq
      obtain ⟨c, v', rfl⟩ := List.exists_cons_of_ne_nil (hws.ne_nil v hv)
      have hc := hws.break_eq _ hv c List.mem_cons_self
      rw [hpost c (by rw [heq]; rfl)] at hc
      exact absurd hc Bool.noConfusion
    rw [closed] at heq
    rcases List.append_eq_append_iff.mp heq with ⟨behind, rfl, hrest⟩ | ⟨rest, hw, hrest⟩
    · cases behind with
      | nil => exact .inl ⟨[w], List.cons_ne_nil _ _, ⟨ws, rfl⟩, by simp⟩
      | cons x behind =>
        rw [List.cons_append] at hrest
        obtain ⟨rfl, htail⟩ := List.cons.inj hrest
        rw [closed]
        by_cases hnil : behind = []
        · subst hnil
          cases ws with
          | nil => exact .inr rfl
          | cons v ws => exact absurd htail.symm (hstop v (by simp) _)
        · rcases ih hws.tail htail hnil with ⟨p, hp, hpre, rfl⟩ | rfl
          · obtain ⟨v, p, rfl⟩ := List.exists_cons_of_ne_nil hp
            have hws' : ws ≠ [] := by
              rintro rfl
              exact List.cons_ne_nil v p (List.prefix_nil.mp hpre)
            refine .inl ⟨w :: v :: p, List.cons_ne_nil _ _, (List.prefix_cons_inj w).mpr hpre, ?_⟩
            rw [if_neg hws', List.intercalate_cons_cons]
            simp
          · exact .inr rfl
    · cases rest with
      | nil =>
        refine .inl ⟨[w], List.cons_ne_nil _ _, ⟨ws, rfl⟩, ?_⟩
        rw [List.append_nil] at hw
        rw [List.intercalate_singleton, hw]
      | cons c rest =>
        have hc := hws.break_eq w List.mem_cons_self c (by simp [hw])
        rw [hpost c (by rw [hrest]; rfl)] at hc
        exact absurd hc Bool.noConfusion

/-- What lies between two breaks, or between a break and the end. -/
theorem between_breaks_iff (hws : Unbroken brk ws) (hsep : brk sep = true)
    (hclose : brk close = true) (hu : u ≠ []) :
    (∃ q post, closed sep close ws = q ++ (u ++ post) ∧ (∀ c ∈ q.getLast?, brk c = true) ∧
        ∀ c ∈ post.head?, brk c = true) ↔
      (∃ run, run ≠ [] ∧ run <:+: ws ∧ u = [sep].intercalate run) ∨
        ∃ last, last ≠ [] ∧ last <:+ ws ∧ u = [sep].intercalate last ++ [close] := by
  constructor
  · rintro ⟨q, post, heq, hq, hpost⟩
    have hne : u ++ post ≠ [] := fun h => hu (List.append_eq_nil_iff.mp h).1
    obtain ⟨s, hs, heq⟩ := exists_suffix hws heq hne hq
    rcases exists_isPrefix (hws.of_suffix hs) heq.symm hu hpost with ⟨p, hp, hpre, rfl⟩ | rfl
    · exact .inl ⟨p, hp, hpre.isInfix.trans hs.isInfix, rfl⟩
    · have hsne : s ≠ [] := by
        rintro rfl
        exact hu rfl
      exact .inr ⟨s, hsne, hs, closed_eq hsne⟩
  · rintro (⟨run, hrun, ⟨front, back, rfl⟩, rfl⟩ | ⟨last, hlast, ⟨front, rfl⟩, rfl⟩)
    · obtain ⟨q, hq, hsepq⟩ := closed_append sep close
        (show run ++ back ≠ [] by simp [hrun]) front
      refine ⟨q, (if back = [] then close else sep) :: closed sep close back, ?_,
        fun c hc => hsepq c hc ▸ hsep, ?_⟩
      · rw [List.append_assoc, hq, closed_append_left hrun]
      · intro c hc
        rw [List.head?_cons, Option.mem_def, Option.some.injEq] at hc
        subst hc
        split
        · exact hclose
        · exact hsep
    · obtain ⟨q, hq, hsepq⟩ := closed_append sep close hlast front
      refine ⟨q, [], ?_, fun c hc => hsepq c hc ▸ hsep, nofun⟩
      rw [hq, closed_eq hlast, List.append_nil]

end

end Lib.Joined
