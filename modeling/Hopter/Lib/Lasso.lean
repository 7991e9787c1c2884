import Hopter.Lib.Fair

/-!
# Runs that go around

A run that leads back to the state it started in can be repeated forever. That is how
an endless run is given by finitely many steps: a run to the loop, and the loop.

Such a scheduler is fair if each action is done in the loop, or is possible nowhere on
it.

Where the state never comes back, a round that leads from each of the states `s 0`, `s 1`
and so on to the next one can be repeated forever just as well.
-/

namespace Conc

variable {S A : Type} {step : S → A → Option S} {σ : ℕ → S} {as : ℕ → A}

/-- The run `as` leads from `s` to `s'` through states that satisfy `I`. -/
inductive Within (step : S → A → Option S) (I : S → Prop) : S → List A → S → Prop where
  | nil {s : S} : I s → Within step I s [] s
  | cons {s s' t : S} {a : A} {as : List A} :
      I s → step s a = some s' → Within step I s' as t → Within step I s (a :: as) t

/-- An endless run may be put behind any run. -/
theorem Endless.behind {s₀ : S} (hr : Reachable step s₀ (σ 0)) (h : Endless step σ as) :
    ∃ τ bs k, τ 0 = s₀ ∧ Endless step τ bs ∧ ∀ n, τ (k + n) = σ n ∧ bs (k + n) = as n := by
  obtain ⟨pre, hpre⟩ := hr
  induction pre generalizing s₀ with
  | nil =>
      rw [exec_nil, Option.some.injEq] at hpre
      exact ⟨σ, as, 0, hpre.symm, h, fun n => by rw [Nat.zero_add]; exact ⟨rfl, rfl⟩⟩
  | cons a pre ih =>
      rw [exec_cons, Option.bind_eq_some_iff] at hpre
      obtain ⟨s₁, hs, hpre⟩ := hpre
      obtain ⟨τ, bs, k, hstart, hrun, htail⟩ := ih hpre
      refine ⟨fun n => n.casesOn s₀ τ, fun n => n.casesOn a bs, k + 1, rfl, fun n => ?_,
        fun n => ?_⟩
      · cases n with
        | zero =>
            show step s₀ a = some (τ 0)
            rw [hs, hstart]
        | succ n => exact hrun n
      · rw [Nat.add_right_comm]
        exact htail n

/-- Where a run is that goes around `loop` from `s`, and what is left of its round. -/
def around (step : S → A → Option S) (s : S) (loop : List A) : ℕ → S × List A
  | 0 => (s, loop)
  | n + 1 =>
      match around step s loop n with
      | (t, []) => (t, loop)
      | (t, a :: as) => ((step t a).getD t, if as.isEmpty then loop else as)

section Around

variable {I : S → Prop} {s : S} {a : A} {loop : List A}

/-- Its next step. -/
theorem Within.next (h : Within step I s (a :: loop) s) (n : ℕ) :
    ∃ t b bs t', around step s (a :: loop) n = (t, b :: bs) ∧ I t ∧ step t b = some t'
      ∧ Within step I t' bs s
      ∧ around step s (a :: loop) (n + 1) = (t', if bs.isEmpty then a :: loop else bs) := by
  suffices hleft : ∃ t b bs, around step s (a :: loop) n = (t, b :: bs)
      ∧ Within step I t (b :: bs) s by
    obtain ⟨t, b, bs, hn, hw⟩ := hleft
    cases hw with
    | @cons _ t' _ _ _ hI hs hw =>
        refine ⟨t, b, bs, t', hn, hI, hs, hw, ?_⟩
        simp only [around, hn, hs, Option.getD_some]
  induction n with
  | zero => exact ⟨s, a, loop, rfl, h⟩
  | succ n ih =>
      obtain ⟨t, b, bs, hn, hw⟩ := ih
      cases hw with
      | @cons _ t' _ _ _ hI hs hw =>
          have hnext : around step s (a :: loop) (n + 1)
              = (t', if bs.isEmpty then a :: loop else bs) := by
            simp only [around, hn, hs, Option.getD_some]
          cases bs with
          | nil =>
              cases hw
              exact ⟨s, a, loop, hnext, h⟩
          | cons c cs => exact ⟨t', c, cs, hnext, hw⟩

/-- It begins another round. -/
theorem Within.again (h : Within step I s (a :: loop) s) (n : ℕ) :
    ∃ m, n ≤ m ∧ around step s (a :: loop) m = (s, a :: loop) := by
  generalize hleft : (around step s (a :: loop) n).2 = left
  induction left generalizing n with
  | nil =>
      obtain ⟨t, b, bs, t', hn, -⟩ := h.next n
      rw [hn] at hleft
      cases hleft
  | cons c cs ih =>
      obtain ⟨t, b, bs, t', hn, -, -, hrest, hnext⟩ := h.next n
      rw [hn] at hleft
      cases hleft
      by_cases hend : cs = []
      · refine ⟨n + 1, Nat.le_succ n, ?_⟩
        rw [hend] at hrest hnext
        cases hrest
        exact hnext
      · obtain ⟨m, hm, hround⟩ := ih (n + 1) (by rw [hnext, if_neg (by simpa using hend)])
        exact ⟨m, by omega, hround⟩

/-- What is left of the round is done. -/
theorem Within.does (h : Within step I s (a :: loop) s) {n : ℕ} {b : A}
    (hb : b ∈ (around step s (a :: loop) n).2) :
    ∃ m, n ≤ m ∧ (around step s (a :: loop) m).2.headD a = b := by
  generalize hleft : (around step s (a :: loop) n).2 = left at hb
  induction left generalizing n with
  | nil => cases hb
  | cons c cs ih =>
      rcases List.mem_cons.mp hb with rfl | hb
      · refine ⟨n, Nat.le_refl n, ?_⟩
        rw [hleft]
        rfl
      · obtain ⟨t, d, ds, t', hn, -, -, -, hnext⟩ := h.next n
        rw [hn] at hleft
        cases hleft
        have hne : ¬ cs.isEmpty = true := by
          intro hempty
          rw [List.isEmpty_iff.mp hempty] at hb
          cases hb
        obtain ⟨m, hm, hdone⟩ := ih (by rw [hnext, if_neg hne]) hb
        exact ⟨m, by omega, hdone⟩

/-- **The lasso rule.** A run that leads back to where it started can be repeated forever, and the
scheduler is fair if nobody else could have gone. -/
theorem Within.endless {s₀ : S} (hr : Reachable step s₀ s) (h : Within step I s (a :: loop) s)
    (hfair : ∀ b, b ∉ a :: loop → ∀ t, I t → step t b = none) :
    ∃ σ as, σ 0 = s₀ ∧ Endless step σ as ∧ StronglyFair step σ as
      ∧ (∃ k, ∀ n, k ≤ n → I (σ n)) ∧ ∃ᶠ n in Filter.atTop, σ n = s ∧ as n = a := by
  have hrun : Endless step (fun n => (around step s (a :: loop) n).1)
      fun n => (around step s (a :: loop) n).2.headD a := by
    intro n
    obtain ⟨t, b, bs, t', hn, -, hs, -, hnext⟩ := h.next n
    show step (around step s (a :: loop) n).1 ((around step s (a :: loop) n).2.headD a)
      = some (around step s (a :: loop) (n + 1)).1
    rw [hn, hnext]
    exact hs
  obtain ⟨σ, as, k, hstart, hendless, htail⟩ := Endless.behind hr hrun
  have hI : ∀ n, k ≤ n → I (σ n) := by
    intro n hn
    obtain ⟨m, rfl⟩ := Nat.exists_eq_add_of_le hn
    obtain ⟨t, b, bs, t', hm, hIt, -⟩ := h.next m
    rw [(htail m).1, hm]
    exact hIt
  refine ⟨σ, as, hstart, hendless, fun b hoften => ?_, ⟨k, hI⟩, ?_⟩
  · by_cases hb : b ∈ a :: loop
    · refine Filter.frequently_atTop.mpr fun n => ?_
      obtain ⟨m, hm, hround⟩ := h.again n
      obtain ⟨m', hm', hdone⟩ := h.does (n := m) (by rw [hround]; exact hb)
      exact ⟨k + m', by omega, (htail m').2.trans hdone⟩
    · refine absurd (Filter.eventually_atTop.mpr ⟨k, fun n hn hgo => ?_⟩) hoften
      have hnone := hfair b hb _ (hI n hn)
      exact absurd hgo (by simp [hnone])
  · refine Filter.frequently_atTop.mpr fun n => ?_
    obtain ⟨m, hm, hround⟩ := h.again n
    refine ⟨k + m, by omega, (htail m).1.trans ?_, (htail m).2.trans ?_⟩
    · rw [hround]
    · rw [hround]
      rfl

end Around

/-! ## Rounds that lead on -/

section Rounds

variable {s : ℕ → S} {a : A} (loop : List A)

/-- Where a run is that makes the same round from `s 0`, from `s 1`, and so on. -/
def rounds (step : S → A → Option S) (s : ℕ → S) (loop : List A) (n : ℕ) : S :=
  (exec step (s (n / loop.length)) (loop.take (n % loop.length))).getD (s 0)

/-- What it does then. -/
def turn (a : A) (loop : List A) (n : ℕ) : A := loop.getD (n % loop.length) a

theorem rounds_at {k j : ℕ} (hj : j < loop.length) :
    rounds step s loop (loop.length * k + j) = (exec step (s k) (loop.take j)).getD (s 0) := by
  have hpos : 0 < loop.length := Nat.lt_of_le_of_lt (Nat.zero_le j) hj
  unfold rounds
  rw [Nat.mul_add_div hpos, Nat.mul_add_mod, Nat.div_eq_of_lt hj, Nat.mod_eq_of_lt hj, Nat.add_zero]

theorem turn_at {k j : ℕ} (hj : j < loop.length) :
    turn a loop (loop.length * k + j) = loop.getD j a := by
  unfold turn
  rw [Nat.mul_add_mod, Nat.mod_eq_of_lt hj]

/-- Each round begins where the last one has led. -/
theorem rounds_start (hpos : 0 < loop.length) (k : ℕ) :
    rounds step s loop (loop.length * k) = s k :=
  rounds_at loop (j := 0) hpos

/-- **The rule of rounds.** If the same round leads from each state on to the next one, it can be
made forever. -/
theorem rounds_endless (hpos : 0 < loop.length)
    (hround : ∀ k, exec step (s k) loop = some (s (k + 1))) :
    Endless step (rounds step s loop) (turn a loop) := by
  intro n
  obtain ⟨k, j, hj, rfl⟩ : ∃ k j, j < loop.length ∧ n = loop.length * k + j :=
    ⟨n / loop.length, n % loop.length, Nat.mod_lt n hpos, (Nat.div_add_mod n _).symm⟩
  -- the round up to this step, and the step
  have hsplit : loop.take (j + 1) = loop.take j ++ [loop.getD j a] := by
    rw [List.take_add_one, List.getD_eq_getElem?_getD, List.getElem?_eq_getElem hj]
    rfl
  have hprefix : ∃ t, exec step (s k) (loop.take (j + 1)) = some t := by
    have hwhole := hround k
    rw [← List.take_append_drop (j + 1) loop, exec_append, Option.bind_eq_some_iff] at hwhole
    obtain ⟨t, ht, -⟩ := hwhole
    exact ⟨t, ht⟩
  obtain ⟨t, ht⟩ := hprefix
  have hlast := ht
  rw [hsplit] at hlast
  obtain ⟨u, hu, hs⟩ := exec_concat.mp hlast
  have hnext : rounds step s loop (loop.length * k + j + 1) = t := by
    rcases Nat.lt_or_eq_of_le (Nat.succ_le_of_lt hj) with hlt | hend
    · rw [Nat.add_assoc, rounds_at loop hlt, ht]
      rfl
    · have hlead : s (k + 1) = t := by
        rw [show j + 1 = loop.length from hend, List.take_length, hround k, Option.some.injEq] at ht
        exact ht
      rw [Nat.add_assoc, show j + 1 = loop.length from hend, ← Nat.mul_succ, rounds_start loop hpos]
      exact hlead
  rw [rounds_at loop hj, turn_at loop hj, hu, hnext]
  exact hs

end Rounds

end Conc
