import Hopter.Lib.Interleave

/-!
# Contexts on a stack

One core runs a process, and between any two of its atomic actions another one
may start on top of it. Only the top context runs; it leaves the stack when it
comes back to rest, and then the one below goes on. Nothing bounds the depth.

`flat_reachable` is why such runs need no theory of their own: the contexts of a
stack are threads of an interleaving, the `i`-th from the bottom being thread
`i`. What holds in every interleaving holds in every nest, and what a nest has
on top of that is said by the order of the stack.
-/

namespace Conc

variable {σ ℓ α : Type}

/-- The local state of a process that is not running, told from the others by a test. -/
structure Rest (ℓ : Type) where
  idle : ℓ
  isIdle : ℓ → Bool
  isIdle_iff : ∀ {l}, isIdle l = true ↔ l = idle

/-- What a step leaves on the stack: nothing, when the context came to rest. -/
def Rest.push (rest : Rest ℓ) (l : ℓ) (below : List ℓ) : List ℓ :=
  if rest.isIdle l then below else l :: below

/-- The shared state, and the contexts in progress, the running one first. -/
structure Nest (σ ℓ : Type) where
  shared : σ
  contexts : List ℓ

/-- What the core does next. -/
inductive Move (α : Type) where
  /-- A new context starts, with this as its first action. -/
  | start (a : α)
  /-- The running context goes on. -/
  | run (a : α)

namespace Nest

/-- One atomic action of the context on top, or of one that starts there. -/
def step (P : Proc σ ℓ α) (rest : Rest ℓ) (n : Nest σ ℓ) : Move α → Option (Nest σ ℓ)
  | .start a => (P n.shared rest.idle a).map fun r => ⟨r.1, rest.push r.2 n.contexts⟩
  | .run a =>
      match n.contexts with
      | [] => none
      | l :: below => (P n.shared l a).map fun r => ⟨r.1, rest.push r.2 below⟩

/-- **Inversion.** A step is an action of one context, at rest or on top of the stack. -/
theorem step_cases {P : Proc σ ℓ α} {rest : Rest ℓ} {n n' : Nest σ ℓ} {m : Move α}
    (h : step P rest n m = some n') :
    ∃ l below a s' l', P n.shared l a = some (s', l') ∧ n' = ⟨s', rest.push l' below⟩
      ∧ ((m = .start a ∧ l = rest.idle ∧ below = n.contexts)
        ∨ (m = .run a ∧ n.contexts = l :: below)) := by
  cases m with
  | start a =>
      unfold step at h
      rw [Option.map_eq_some_iff] at h
      obtain ⟨⟨s', l'⟩, hP, hn⟩ := h
      exact ⟨rest.idle, n.contexts, a, s', l', hP, hn.symm, Or.inl ⟨rfl, rfl, rfl⟩⟩
  | run a =>
      unfold step at h
      dsimp only at h
      split at h
      · cases h
      · rename_i l below hc
        rw [Option.map_eq_some_iff] at h
        obtain ⟨⟨s', l'⟩, hP, hn⟩ := h
        exact ⟨l, below, a, s', l', hP, hn.symm, Or.inr ⟨rfl, hc⟩⟩

/-- Thread `i` is the `i`-th context from the bottom, at rest above the top. -/
def slot (rest : Rest ℓ) : List ℓ → ℕ → ℓ
  | [] => fun _ => rest.idle
  | l :: below => Function.update (slot rest below) below.length l

/-- The interleaving that a nest is. -/
def flat (rest : Rest ℓ) (n : Nest σ ℓ) : Config σ ℕ ℓ := ⟨n.shared, slot rest n.contexts⟩

section Slot

variable {rest : Rest ℓ}

/-- Above the top of the stack everybody is at rest. -/
theorem slot_of_le {ls : List ℓ} {i : ℕ} (h : ls.length ≤ i) : slot rest ls i = rest.idle := by
  induction ls with
  | nil => rfl
  | cons l below ih =>
      rw [List.length_cons] at h
      unfold slot
      rw [Function.update_of_ne (by omega)]
      exact ih (by omega)

theorem slot_top (l : ℓ) (below : List ℓ) : slot rest (l :: below) below.length = l := by
  unfold slot
  rw [Function.update_self]

/-- A thread that is not at rest is a context of the stack. -/
theorem slot_mem {ls : List ℓ} (i : ℕ) : slot rest ls i = rest.idle ∨ slot rest ls i ∈ ls := by
  induction ls with
  | nil => exact Or.inl rfl
  | cons l below ih =>
      by_cases hi : i = below.length
      · subst hi
        rw [slot_top]
        exact Or.inr List.mem_cons_self
      · unfold slot
        rw [Function.update_of_ne hi]
        exact ih.imp_right (List.mem_cons_of_mem l)

/-- What the step leaves on the stack is what it does to one thread. -/
theorem slot_push (l : ℓ) (below : List ℓ) :
    slot rest (rest.push l below) = Function.update (slot rest below) below.length l := by
  unfold Rest.push
  split
  · rename_i hl
    rw [rest.isIdle_iff] at hl
    have hidle : slot rest below below.length = rest.idle := slot_of_le (Nat.le_refl _)
    rw [hl, ← hidle, Function.update_eq_self]
  · rfl

end Slot

variable {P : Proc σ ℓ α} {rest : Rest ℓ}

/-- Every step on the stack is a step of one thread. -/
theorem flat_step {n n' : Nest σ ℓ} {m : Move α} (h : step P rest n m = some n') :
    ∃ e, Config.step P (flat rest n) e = some (flat rest n') := by
  obtain ⟨l, below, a, s', l', hP, rfl, hm⟩ := step_cases h
  refine ⟨(below.length, a), Config.step_eq_some.mpr ⟨s', l', ?_, ?_⟩⟩
  · rcases hm with ⟨-, rfl, rfl⟩ | ⟨-, hc⟩
    · show P n.shared (slot rest n.contexts n.contexts.length) a = _
      rw [slot_of_le (Nat.le_refl _)]
      exact hP
    · show P n.shared (slot rest n.contexts below.length) a = _
      rw [hc, slot_top]
      exact hP
  · show (⟨s', slot rest (rest.push l' below)⟩ : Config σ ℕ ℓ) = _
    rw [slot_push]
    rcases hm with ⟨-, -, rfl⟩ | ⟨-, hc⟩
    · rfl
    · show _ = (⟨s', Function.update (slot rest n.contexts) below.length l'⟩ : Config σ ℕ ℓ)
      rw [hc, show slot rest (l :: below) = Function.update (slot rest below) below.length l from
        rfl, Function.update_idem]

/-- **A nest is an interleaving.** -/
theorem flat_reachable {n₀ n : Nest σ ℓ} (h : Reachable (step P rest) n₀ n) :
    Reachable (Config.step P) (flat rest n₀) (flat rest n) :=
  h.map (f := flat rest) fun hs => Or.inr (flat_step hs)

end Nest

end Conc
