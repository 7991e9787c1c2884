import Mathlib.Data.List.Infix

/-!
# Runs of a machine

A machine is a function `step` that says where an action leads, if it is
possible. A run is a list of actions; what it leads to, where it passes through
and which steps it takes are defined here once for every machine, with the rules
that turn a check on single steps into a statement about whole runs.
-/

namespace Conc

variable {S A : Type} {step : S → A → Option S}

/-- The state a run leads to, if every action of it is possible. -/
def exec (step : S → A → Option S) (s : S) : List A → Option S
  | [] => some s
  | a :: as => (step s a).bind fun s' => exec step s' as

@[simp] theorem exec_nil (step : S → A → Option S) (s : S) : exec step s [] = some s := rfl

@[simp] theorem exec_cons (step : S → A → Option S) (s : S) (a : A) (as : List A) :
    exec step s (a :: as) = (step s a).bind fun s' => exec step s' as := rfl

theorem exec_append (step : S → A → Option S) (s : S) (as bs : List A) :
    exec step s (as ++ bs) = (exec step s as).bind fun s' => exec step s' bs := by
  induction as generalizing s with
  | nil => rfl
  | cons a as ih =>
      simp only [List.cons_append, exec_cons, Option.bind_assoc]
      exact congrArg _ (funext fun s' => ih s')

/-- A run that ends with a step passes through the state that step starts in. -/
theorem exec_concat {s s' : S} {as : List A} {a : A} :
    exec step s (as ++ [a]) = some s' ↔ ∃ t, exec step s as = some t ∧ step t a = some s' := by
  rw [exec_append, Option.bind_eq_some_iff]
  constructor
  · rintro ⟨t, ht, h⟩
    refine ⟨t, ht, ?_⟩
    rw [exec_cons, Option.bind_eq_some_iff] at h
    obtain ⟨t', ht', h⟩ := h
    rw [exec_nil, Option.some.injEq] at h
    exact h ▸ ht'
  · rintro ⟨t, ht, h⟩
    exact ⟨t, ht, by rw [exec_cons, h]; rfl⟩

/-- **The history rule.** What holds at the start and is kept by every step holds of every run, of
what it has done and where it has led. -/
theorem exec_history {I : List A → S → Prop} {s₀ : S} (init : I [] s₀)
    (tail : ∀ {as : List A} {s s' : S} {a : A}, exec step s₀ as = some s → I as s →
      step s a = some s' → I (as ++ [a]) s')
    {as : List A} {s : S} (h : exec step s₀ as = some s) : I as s := by
  induction as using List.reverseRecOn generalizing s with
  | nil =>
      rw [exec_nil, Option.some.injEq] at h
      exact h ▸ init
  | append_singleton as a ih =>
      obtain ⟨t, ht, hs⟩ := exec_concat.mp h
      exact tail ht (ih ht) hs

/-- Some run leads from `s₀` to `s`. -/
def Reachable (step : S → A → Option S) (s₀ s : S) : Prop :=
  ∃ as, exec step s₀ as = some s

theorem Reachable.init {s₀ : S} : Reachable step s₀ s₀ := ⟨[], rfl⟩

theorem Reachable.tail {s₀ s s' : S} {a : A}
    (h : Reachable step s₀ s) (hs : step s a = some s') : Reachable step s₀ s' := by
  obtain ⟨as, h⟩ := h
  exact ⟨as ++ [a], exec_concat.mpr ⟨s, h, hs⟩⟩

/-- **The invariant rule.** What holds at the start and is kept by every step of a reachable
state holds of every reachable state. -/
theorem Reachable.invariant {s₀ : S} {I : S → Prop} (init : I s₀)
    (tail : ∀ {s s' : S} {a : A}, Reachable step s₀ s → I s → step s a = some s' → I s')
    {s : S} (h : Reachable step s₀ s) : I s := by
  obtain ⟨as, h⟩ := h
  exact exec_history (I := fun _ s => I s) init
    (fun {as _ _ _} hrun hI hs => tail ⟨as, hrun⟩ hI hs) h

theorem Reachable.trans {s₀ s₁ s₂ : S} (h₁ : Reachable step s₀ s₁)
    (h₂ : Reachable step s₁ s₂) : Reachable step s₀ s₂ :=
  h₂.invariant (I := fun s => Reachable step s₀ s) h₁ (fun _ h hs => h.tail hs)

/-- How many steps of a run satisfy `P`. -/
def tally (step : S → A → Option S) (P : S → A → Bool) : S → List A → ℕ
  | _, [] => 0
  | s, a :: as => (P s a).toNat +
      match step s a with
      | some s' => tally step P s' as
      | none => 0

section Tally

variable {P : S → A → Bool}

@[simp] theorem tally_nil (s : S) : tally step P s [] = 0 := rfl

theorem tally_cons {s s' : S} {a : A} (as : List A) (hs : step s a = some s') :
    tally step P s (a :: as) = (P s a).toNat + tally step P s' as := by
  simp only [tally, hs]

theorem tally_singleton (s : S) (a : A) : tally step P s [a] = (P s a).toNat := by
  unfold tally
  split <;> simp

/-- One more step. -/
theorem tally_concat {s t : S} {as : List A} (a : A) (h : exec step s as = some t) :
    tally step P s (as ++ [a]) = tally step P s as + (P t a).toNat := by
  induction as generalizing s with
  | nil =>
      rw [exec_nil, Option.some.injEq] at h
      rw [h, List.nil_append, tally_singleton, tally_nil, Nat.zero_add]
  | cons b as ih =>
      rw [exec_cons, Option.bind_eq_some_iff] at h
      obtain ⟨s', hs, h⟩ := h
      rw [List.cons_append, tally_cons _ hs, tally_cons _ hs, ih h, Nat.add_assoc]

end Tally

/-! ## Endless runs -/

/-- A run that goes on forever. -/
def Endless (step : S → A → Option S) (σ : ℕ → S) (as : ℕ → A) : Prop :=
  ∀ n, step (σ n) (as n) = some (σ (n + 1))

namespace Endless

variable {σ : ℕ → S} {as : ℕ → A} {P : S → A → Bool}

/-- How many of the first `n` steps satisfy `P`. -/
def count (σ : ℕ → S) (as : ℕ → A) (P : S → A → Bool) : ℕ → ℕ
  | 0 => 0
  | n + 1 => count σ as P n + (P (σ n) (as n)).toNat

theorem count_succ (n : ℕ) :
    count σ as P (n + 1) = count σ as P n + (P (σ n) (as n)).toNat := rfl

theorem count_mono {m n : ℕ} (h : m ≤ n) : count σ as P m ≤ count σ as P n := by
  induction n with
  | zero => simp [Nat.le_zero.mp h]
  | succ n ih =>
      rcases Nat.lt_or_eq_of_le h with hlt | rfl
      · have hle := ih (Nat.le_of_lt_succ hlt)
        rw [count_succ]
        omega
      · exact Nat.le_refl _

/-- Other steps do not count. -/
theorem count_eq_of_none {m n : ℕ} (h : m ≤ n)
    (hnone : ∀ k, m ≤ k → k < n → P (σ k) (as k) = false) : count σ as P n = count σ as P m := by
  induction n, h using Nat.le_induction with
  | base => rfl
  | succ n hn ih =>
      rw [count_succ, hnone n hn (Nat.lt_succ_self n)]
      exact ih fun k hk hkn => hnone k hk (Nat.lt_succ_of_lt hkn)

/-- Steps that stop do not count any more. -/
theorem count_le_of_stop {N : ℕ} (hstop : ∀ n, N ≤ n → P (σ n) (as n) = false) (n : ℕ) :
    count σ as P n ≤ count σ as P N := by
  induction n with
  | zero => exact Nat.zero_le _
  | succ n ih =>
      by_cases hn : N ≤ n
      · rw [count_succ, hstop n hn]
        exact ih
      · exact count_mono (by omega)

/-- **Steps that are bounded in number stop.** -/
theorem stop_of_count_le {K : ℕ} (hle : ∀ n, count σ as P n ≤ K) :
    ∃ N, ∀ n, N ≤ n → P (σ n) (as n) = false := by
  by_contra hgo
  push Not at hgo
  have hmany : ∀ k, ∃ n, k ≤ count σ as P n := by
    intro k
    induction k with
    | zero => exact ⟨0, Nat.zero_le _⟩
    | succ k ih =>
        obtain ⟨n, hn⟩ := ih
        obtain ⟨m, hm, hP⟩ := hgo n
        refine ⟨m + 1, ?_⟩
        have hmono : count σ as P n ≤ count σ as P m := count_mono hm
        have htrue : P (σ m) (as m) = true := by simpa using hP
        rw [count_succ, htrue, Bool.toNat_true]
        omega
  obtain ⟨n, hn⟩ := hmany (K + 1)
  have := hle n
  omega

end Endless

/-! ## Runs, step by step -/

/-- The run `as` from `s₀` passes through `s`. -/
def Visits (step : S → A → Option S) (s₀ : S) (as : List A) (s : S) : Prop :=
  ∃ pre, pre <+: as ∧ exec step s₀ pre = some s

/-- The run `as` from `s₀` takes the step `a` in `s`. -/
def Takes (step : S → A → Option S) (s₀ : S) (as : List A) (s : S) (a : A) : Prop :=
  ∃ pre, (pre ++ [a]) <+: as ∧ exec step s₀ pre = some s

theorem Visits.reachable {s₀ s : S} {as : List A} (h : Visits step s₀ as s) :
    Reachable step s₀ s := by
  obtain ⟨pre, _, h⟩ := h
  exact ⟨pre, h⟩

theorem Takes.reachable {s₀ s : S} {as : List A} {a : A} (h : Takes step s₀ as s a) :
    Reachable step s₀ s := by
  obtain ⟨pre, _, h⟩ := h
  exact ⟨pre, h⟩

theorem visits_last {s₀ s : S} {as : List A} (h : exec step s₀ as = some s) :
    Visits step s₀ as s := ⟨as, List.prefix_refl as, h⟩

/-- A state a run visits is where it starts, or is entered by a step the run takes. -/
theorem Visits.cases {s₀ s : S} {as : List A} (h : Visits step s₀ as s) :
    s = s₀ ∨ ∃ t a, Takes step s₀ as t a ∧ step t a = some s := by
  obtain ⟨pre, hpre, h⟩ := h
  rcases List.eq_nil_or_concat pre with rfl | ⟨pre, a, rfl⟩
  · rw [exec_nil, Option.some.injEq] at h
    exact Or.inl h.symm
  · rw [List.concat_eq_append] at hpre h
    obtain ⟨t, ht, hs⟩ := exec_concat.mp h
    exact Or.inr ⟨t, a, ⟨pre, hpre, ht⟩, hs⟩

theorem Takes.visits_next {s₀ s s' : S} {as : List A} {a : A} (h : Takes step s₀ as s a)
    (hs : step s a = some s') : Visits step s₀ as s' := by
  obtain ⟨pre, hpre, h⟩ := h
  exact ⟨pre ++ [a], hpre, exec_concat.mpr ⟨s, h, hs⟩⟩

theorem Takes.visits {s₀ s : S} {as : List A} {a : A} (h : Takes step s₀ as s a) :
    Visits step s₀ as s := by
  obtain ⟨pre, hpre, h⟩ := h
  exact ⟨pre, (List.prefix_append pre [a]).trans hpre, h⟩

theorem Takes.mem {s₀ s : S} {as : List A} {a : A} (h : Takes step s₀ as s a) : a ∈ as := by
  obtain ⟨pre, hpre, -⟩ := h
  exact hpre.subset (List.mem_append_right pre (List.mem_singleton_self a))

/-- A step a possible run takes is possible where the run takes it. -/
theorem Takes.possible {s₀ s t : S} {as : List A} {a : A} (h : Takes step s₀ as s a)
    (hrun : exec step s₀ as = some t) : ∃ s', step s a = some s' := by
  obtain ⟨pre, ⟨post, rfl⟩, h⟩ := h
  rw [exec_append, Option.bind_eq_some_iff] at hrun
  obtain ⟨s', hs', -⟩ := hrun
  obtain ⟨s'', hs'', hs⟩ := exec_concat.mp hs'
  rw [h, Option.some.injEq] at hs''
  exact ⟨s', hs'' ▸ hs⟩

/-- Behind a step a run ends, or takes another one. -/
theorem Takes.next {s₀ s s' t : S} {as : List A} {a : A} (h : Takes step s₀ as s a)
    (hs : step s a = some s') (hrun : exec step s₀ as = some t) :
    t = s' ∨ ∃ b, Takes step s₀ as s' b := by
  obtain ⟨pre, ⟨post, rfl⟩, h⟩ := h
  have hpre : exec step s₀ (pre ++ [a]) = some s' := exec_concat.mpr ⟨s, h, hs⟩
  cases post with
  | nil =>
      rw [List.append_nil, hpre, Option.some.injEq] at hrun
      exact Or.inl hrun.symm
  | cons b post =>
      refine Or.inr ⟨b, pre ++ [a], ⟨post, ?_⟩, hpre⟩
      rw [List.append_assoc (pre ++ [a]), List.singleton_append]

/-- What a run does behind a step leads to where the run ends. -/
theorem Takes.rest {s₀ s s' t : S} {as : List A} {a : A} (h : Takes step s₀ as s a)
    (hs : step s a = some s') (hrun : exec step s₀ as = some t) :
    ∃ post, post <:+ as ∧ exec step s' post = some t := by
  obtain ⟨pre, ⟨post, rfl⟩, h⟩ := h
  have hpre : exec step s₀ (pre ++ [a]) = some s' := exec_concat.mpr ⟨s, h, hs⟩
  rw [exec_append, hpre, Option.bind_some] at hrun
  exact ⟨post, List.suffix_append _ post, hrun⟩

/-- A longer run takes the same steps. -/
theorem Takes.append {s₀ s : S} {as : List A} {a : A} (h : Takes step s₀ as s a) (bs : List A) :
    Takes step s₀ (as ++ bs) s a := by
  obtain ⟨pre, hpre, h⟩ := h
  exact ⟨pre, hpre.trans (List.prefix_append as bs), h⟩

/-- And one more. -/
theorem takes_concat {s₀ s : S} {as : List A} {a b : A} (h : Takes step s₀ (as ++ [a]) s b) :
    Takes step s₀ as s b ∨ exec step s₀ as = some s ∧ b = a := by
  obtain ⟨pre, hpre, h⟩ := h
  rcases List.prefix_concat_iff.mp hpre with heq | hpre
  · obtain ⟨rfl, hlast⟩ := List.append_inj' heq rfl
    exact Or.inr ⟨h, List.singleton_inj.mp hlast⟩
  · exact Or.inl ⟨pre, hpre, h⟩

/-- The first step of a run, and what the rest takes. -/
theorem takes_cons {s₀ s₁ s : S} {as : List A} {a b : A} (h : Takes step s₀ (a :: as) s b)
    (hs : step s₀ a = some s₁) : s = s₀ ∧ b = a ∨ Takes step s₁ as s b := by
  obtain ⟨pre, hpre, h⟩ := h
  cases pre with
  | nil =>
      rw [exec_nil, Option.some.injEq] at h
      rw [List.nil_append, List.cons_prefix_cons] at hpre
      exact Or.inl ⟨h.symm, hpre.1⟩
  | cons c pre =>
      rw [List.cons_append, List.cons_prefix_cons] at hpre
      obtain ⟨rfl, hpre⟩ := hpre
      rw [exec_cons, hs, Option.bind_some] at h
      exact Or.inr ⟨pre, hpre, h⟩

/-- What holds at the start and is kept by every step a run takes holds wherever the run goes. -/
theorem Visits.invariant {s₀ : S} {as : List A} {I : S → Prop} (init : I s₀)
    (tail : ∀ {s s' : S} {a : A}, Takes step s₀ as s a → I s → step s a = some s' → I s')
    {s : S} (h : Visits step s₀ as s) : I s := by
  obtain ⟨pre, hpre, h⟩ := h
  induction pre using List.reverseRecOn generalizing s with
  | nil =>
      rw [exec_nil, Option.some.injEq] at h
      exact h ▸ init
  | append_singleton pre a ih =>
      obtain ⟨t, ht, hs⟩ := exec_concat.mp h
      exact tail ⟨pre, hpre, ht⟩ (ih ((List.prefix_append pre [a]).trans hpre) ht) hs

/-- Every step the run `as` from `s` takes satisfies `P`, step by step. -/
def TakesAll (step : S → A → Option S) (P : S → A → Prop) : S → List A → Prop
  | _, [] => True
  | s, a :: as => P s a ∧ ∀ s' ∈ step s a, TakesAll step P s' as

instance TakesAll.decidable (step : S → A → Option S) (P : S → A → Prop)
    [∀ s, DecidablePred (P s)] : ∀ s as, Decidable (TakesAll step P s as)
  | _, [] => .isTrue trivial
  | _, _ :: as =>
      have := fun s' => TakesAll.decidable step P s' as
      inferInstanceAs (Decidable (_ ∧ _))

theorem TakesAll.takes {P : S → A → Prop} {s₀ s : S} {as : List A} {a : A}
    (hall : TakesAll step P s₀ as) (h : Takes step s₀ as s a) : P s a := by
  obtain ⟨pre, ⟨post, rfl⟩, h⟩ := h
  induction pre generalizing s₀ with
  | nil =>
      rw [exec_nil, Option.some.injEq] at h
      exact h ▸ hall.1
  | cons b pre ih =>
      rw [exec_cons, Option.bind_eq_some_iff] at h
      obtain ⟨s₁, hs₁, h⟩ := h
      exact ih h (hall.2 s₁ hs₁)

/-- A machine whose every step is one step of another or none, seen through `f`, only reaches
what the other reaches. -/
theorem Reachable.map {S' A' : Type} {step' : S' → A' → Option S'} {f : S → S'} {s₀ s : S}
    (hf : ∀ {s s' : S} {a : A}, step s a = some s' →
      f s' = f s ∨ ∃ a', step' (f s) a' = some (f s'))
    (h : Reachable step s₀ s) : Reachable step' (f s₀) (f s) :=
  h.invariant (I := fun s => Reachable step' (f s₀) (f s)) .init fun _ ih hs => by
    rcases hf hs with heq | ⟨a', hs'⟩
    · rw [heq]
      exact ih
    · exact ih.tail hs'

/-- **The simulation rule.** Where every step of a machine is one step of another or none, so is
every run, and what the other machine takes on the way is what the first one takes. -/
theorem exec_simulated {S' A' : Type} {step' : S' → A' → Option S'} {R : S → S' → Prop}
    {D : S → A → A' → Prop}
    (hstep : ∀ {s s' : S} {t : S'} {a : A}, R s t → step s a = some s' →
      R s' t ∨ ∃ a' t', D s a a' ∧ step' t a' = some t' ∧ R s' t')
    {s₀ s : S} {t₀ : S'} (h₀ : R s₀ t₀) {as : List A} (h : exec step s₀ as = some s) :
    ∃ as' t, exec step' t₀ as' = some t ∧ R s t
      ∧ ∀ u a', Takes step' t₀ as' u a' → ∃ r a, Takes step s₀ as r a ∧ R r u ∧ D r a a' := by
  refine exec_history (I := fun as s => ∃ as' t, exec step' t₀ as' = some t ∧ R s t
    ∧ ∀ u a', Takes step' t₀ as' u a' → ∃ r a, Takes step s₀ as r a ∧ R r u ∧ D r a a') ?_ ?_ h
  · refine ⟨[], t₀, rfl, h₀, fun u a' htakes => ?_⟩
    exact absurd htakes.mem List.not_mem_nil
  · intro as s s' a hrun ⟨as', t, hrun', hR, hall⟩ hs
    have hearlier : ∀ u a', Takes step' t₀ as' u a' →
        ∃ r b, Takes step s₀ (as ++ [a]) r b ∧ R r u ∧ D r b a' := by
      intro u a' htakes
      obtain ⟨r, b, hb, hRr, hD⟩ := hall u a' htakes
      exact ⟨r, b, hb.append [a], hRr, hD⟩
    rcases hstep hR hs with hR' | ⟨a', t', hD, ht', hR'⟩
    · exact ⟨as', t, hrun', hR', hearlier⟩
    · refine ⟨as' ++ [a'], t', exec_concat.mpr ⟨t, hrun', ht'⟩, hR', fun u b' htakes => ?_⟩
      rcases takes_concat htakes with htakes | ⟨hu, rfl⟩
      · exact hearlier u b' htakes
      · rw [hrun', Option.some.injEq] at hu
        subst hu
        exact ⟨s, a, ⟨as, List.prefix_refl _, hrun⟩, hR, hD⟩

end Conc
