import Hopter.Lib.Interleave

/-!
# One owner at a time

The invariant rule for processes that take turns owning something. `holds` says
in which local states a thread owns it; `J s o` is what is promised about the
shared state while `o` is the local state of the owner, `none` when there is no
owner. `OwnerInv` is a check on single actions only: an owner's action keeps
the promise, and so does everybody else's, which must moreover find no owner if
it takes ownership. `owned_reachable` turns that check into the statement about
whole configurations, exclusion included.
-/

namespace Conc

variable {σ ℓ α ι : Type}

/-- `o` is the local state of the one owner, or there is no owner and `o` is `none`. -/
def Owner (holds : ℓ → Prop) (thread : ι → ℓ) : Option ℓ → Prop
  | none => ∀ i, ¬ holds (thread i)
  | some l => ∃ i, thread i = l ∧ holds l ∧ ∀ j, holds (thread j) → j = i

/-- The check on single actions that makes `J` an invariant of the ownership. -/
structure OwnerInv (P : Proc σ ℓ α) (holds : ℓ → Prop) (J : σ → Option ℓ → Prop) : Prop where
  /-- The owner stays owner with the promise kept, or leaves it to nobody. -/
  own : ∀ {s l a s' l'}, holds l → J s (some l) → P s l a = some (s', l') →
    (holds l' ∧ J s' (some l')) ∨ (¬ holds l' ∧ J s' none)
  /-- Anybody else keeps the promise, and becomes owner only when there is none. -/
  other : ∀ {s l a s' l' o}, ¬ holds l → J s o → P s l a = some (s', l') →
    (¬ holds l' ∧ J s' o) ∨ (holds l' ∧ o = none ∧ J s' (some l'))

/-- There is at most one owner, and the promise holds of it. -/
def Owned (holds : ℓ → Prop) (J : σ → Option ℓ → Prop) (c : Config σ ι ℓ) : Prop :=
  ∃ o, Owner holds c.thread o ∧ J c.shared o

section Owner

variable {holds : ℓ → Prop} {thread : ι → ℓ}

theorem Owner.unique {o : Option ℓ} (h : Owner holds thread o) {i j : ι}
    (hi : holds (thread i)) (hj : holds (thread j)) : i = j := by
  cases o with
  | none => exact absurd hi (h i)
  | some l =>
      obtain ⟨k, -, -, hk⟩ := h
      rw [hk i hi, hk j hj]

/-- Whoever owns is the owner. -/
theorem Owner.eq_some {o : Option ℓ} (h : Owner holds thread o) {i : ι}
    (hi : holds (thread i)) : o = some (thread i) := by
  cases o with
  | none => exact absurd hi (h i)
  | some l =>
      obtain ⟨k, rfl, -, hk⟩ := h
      rw [hk i hi]

theorem Owner.eq_none {o : Option ℓ} (h : Owner holds thread o)
    (hn : ∀ i, ¬ holds (thread i)) : o = none := by
  cases o with
  | none => rfl
  | some l =>
      obtain ⟨k, rfl, hl, -⟩ := h
      exact absurd hl (hn k)

/-- The owner, seen through a part of the local state that tells who owns. -/
theorem Owner.map {ℓ' : Type} {f : ℓ → ℓ'} {holds : ℓ' → Prop} {o : Option ℓ}
    (h : Owner (fun l => holds (f l)) thread o) :
    Owner holds (fun i => f (thread i)) (o.map f) := by
  cases o with
  | none => exact h
  | some l =>
      obtain ⟨i, rfl, hl, hu⟩ := h
      exact ⟨i, rfl, hl, hu⟩

variable [DecidableEq ι]

/-- The owner moves to a local state that still owns. -/
theorem Owner.stay {i : ι} (hu : ∀ j, holds (thread j) → j = i) {l' : ℓ} (hl' : holds l') :
    Owner holds (Function.update thread i l') (some l') := by
  refine ⟨i, Function.update_self i l' thread, hl', fun j hj => ?_⟩
  by_cases hji : j = i
  · exact hji
  · rw [Function.update_of_ne hji] at hj
    exact hu j hj

/-- The owner moves to a local state that does not own. -/
theorem Owner.leave {i : ι} (hu : ∀ j, holds (thread j) → j = i) {l' : ℓ} (hl' : ¬ holds l') :
    Owner holds (Function.update thread i l') none := by
  intro j hj
  by_cases hji : j = i
  · subst hji
    rw [Function.update_self] at hj
    exact hl' hj
  · rw [Function.update_of_ne hji] at hj
    exact hji (hu j hj)

/-- A thread that does not own moves without owning: the owner is who it was. -/
theorem Owner.frame {o : Option ℓ} (h : Owner holds thread o) {i : ι}
    (hi : ¬ holds (thread i)) {l' : ℓ} (hl' : ¬ holds l') :
    Owner holds (Function.update thread i l') o := by
  have hback : ∀ j, holds (Function.update thread i l' j) → j ≠ i ∧ holds (thread j) := by
    intro j hj
    by_cases hji : j = i
    · subst hji
      rw [Function.update_self] at hj
      exact absurd hj hl'
    · rw [Function.update_of_ne hji] at hj
      exact ⟨hji, hj⟩
  cases o with
  | none => exact fun j hj => h j (hback j hj).2
  | some l =>
      obtain ⟨k, rfl, hk, hu⟩ := h
      have hki : k ≠ i := fun hki => hi (hki ▸ hk)
      exact ⟨k, Function.update_of_ne hki l' thread, hk, fun j hj => hu j (hback j hj).2⟩

end Owner

/-- The check on one action, which leads from `s` and `l` to `s'` and `l'`. -/
structure OwnerStep (holds : ℓ → Prop) (J : σ → Option ℓ → Prop) (s : σ) (l : ℓ) (s' : σ)
    (l' : ℓ) : Prop where
  own : holds l → J s (some l) → (holds l' ∧ J s' (some l')) ∨ (¬ holds l' ∧ J s' none)
  other : ∀ {o}, ¬ holds l → J s o → (¬ holds l' ∧ J s' o) ∨ (holds l' ∧ o = none ∧ J s' (some l'))

variable [DecidableEq ι] {P : Proc σ ℓ α} {holds : ℓ → Prop} {J : σ → Option ℓ → Prop}

/-- **The step rule.** A checked action keeps the ownership and its promise. -/
theorem OwnerStep.owned {c : Config σ ι ℓ} {i : ι} {s' : σ} {l' : ℓ}
    (hstep : OwnerStep holds J c.shared (c.thread i) s' l') (h : Owned holds J c) :
    Owned holds J ⟨s', Function.update c.thread i l'⟩ := by
  obtain ⟨o, ho, hj⟩ := h
  by_cases hl : holds (c.thread i)
  · -- the owner itself steps
    have hu : ∀ j, holds (c.thread j) → j = i := fun j hj' => ho.unique hj' hl
    rw [ho.eq_some hl] at hj
    rcases hstep.own hl hj with ⟨hl', hj'⟩ | ⟨hl', hj'⟩
    · exact ⟨some l', Owner.stay hu hl', hj'⟩
    · exact ⟨none, Owner.leave hu hl', hj'⟩
  · rcases hstep.other hl hj with ⟨hl', hj'⟩ | ⟨hl', rfl, hj'⟩
    · exact ⟨o, ho.frame hl hl', hj'⟩
    · exact ⟨some l', Owner.stay (fun j hj' => absurd hj' (ho j)) hl', hj'⟩

omit [DecidableEq ι] in
theorem OwnerInv.step (hJ : OwnerInv P holds J) {s s' : σ} {l l' : ℓ} {a : α}
    (hP : P s l a = some (s', l')) : OwnerStep holds J s l s' l' :=
  ⟨fun hl hj => hJ.own hl hj hP, fun hl hj => hJ.other hl hj hP⟩

theorem owned_step (hJ : OwnerInv P holds J) {c c' : Config σ ι ℓ} {e : ι × α}
    (h : Owned holds J c) (hs : Config.step P c e = some c') : Owned holds J c' := by
  obtain ⟨s', l', hP, rfl⟩ := Config.step_eq_some.mp hs
  exact (hJ.step hP).owned h

/-- **The run rule.** Every reachable configuration has at most one owner, with the promise. -/
theorem owned_reachable (hJ : OwnerInv P holds J) {c₀ c : Config σ ι ℓ}
    (h₀ : Owned holds J c₀) (h : Reachable (Config.step P) c₀ c) : Owned holds J c :=
  h.invariant (I := Owned holds J) h₀ (fun _ ih hs => owned_step hJ ih hs)

omit [DecidableEq ι] in
theorem owned_unique {c : Config σ ι ℓ} (h : Owned holds J c) {i j : ι}
    (hi : holds (c.thread i)) (hj : holds (c.thread j)) : i = j := by
  obtain ⟨o, ho, -⟩ := h
  exact ho.unique hi hj

omit [DecidableEq ι] in
/-- The promise, at a thread known to be the owner. -/
theorem owned_some {c : Config σ ι ℓ} (h : Owned holds J c) {i : ι}
    (hi : holds (c.thread i)) : J c.shared (some (c.thread i)) := by
  obtain ⟨o, ho, hj⟩ := h
  exact ho.eq_some hi ▸ hj

omit [DecidableEq ι] in
/-- The promise, when no thread owns. -/
theorem owned_none {c : Config σ ι ℓ} (h : Owned holds J c)
    (hn : ∀ i, ¬ holds (c.thread i)) : J c.shared none := by
  obtain ⟨o, ho, hj⟩ := h
  exact ho.eq_none hn ▸ hj

end Conc
