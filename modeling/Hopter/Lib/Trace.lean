import Mathlib.Data.List.Infix

/-!
# What a machine does

A machine here moves by itself: `next s` is what the step from `s` emits and
where it leads, `none` at the end. Two machines are compared by what an observer
makes of their events. Some he does not see, and some are alarms, after which he
stops looking.

`Preserves` says that the second machine does what the first one does until it
raises an alarm. `preserves_of_answer` reduces it to one case analysis over
related states: the machine that was changed may take silent steps of its own, as
long as a rank forbids an endless row of them.
-/

namespace Conc

variable {S S₁ S₂ S₃ E O : Type}

/-- A run that emits `es` on its way from one state to another. -/
inductive Emits (next : S → Option (List E × S)) : S → List E → S → Prop where
  | refl (s : S) : Emits next s [] s
  | step {s s' t : S} {es es' : List E} : next s = some (es, s') → Emits next s' es' t →
      Emits next s (es ++ es') t

theorem Emits.single {next : S → Option (List E × S)} {s s' : S} {es : List E}
    (h : next s = some (es, s')) : Emits next s es s' := by
  have hrun := Emits.step h (.refl s')
  rwa [List.append_nil] at hrun

theorem Emits.trans {next : S → Option (List E × S)} {s t u : S} {es es' : List E}
    (h : Emits next s es t) (h' : Emits next t es' u) : Emits next s (es ++ es') u := by
  induction h with
  | refl s => exact h'
  | step hs _ ih =>
      rw [List.append_assoc]
      exact .step hs (ih h')

/-- What holds at the start and is kept by every step holds where a run leads. -/
theorem Emits.invariant {next : S → Option (List E × S)} {I : S → Prop} {s t : S} {es : List E}
    (hrun : Emits next s es t) (init : I s)
    (tail : ∀ {s s' : S} {es : List E}, I s → next s = some (es, s') → I s') : I t := by
  induction hrun with
  | refl s => exact init
  | step hs _ ih => exact ih (tail init hs)

/-- The same for what holds of a state and of the trace that leads there. -/
theorem Emits.trace_invariant {next : S → Option (List E × S)} {I : List E → S → Prop} {s t : S}
    {es : List E} (hrun : Emits next s es t) (init : I [] s)
    (tail : ∀ {es : List E} {s : S} {es' : List E} {s' : S}, I es s → next s = some (es', s') →
      I (es ++ es') s') : I es t := by
  have hgen : ∀ pre, I pre s → I (pre ++ es) t := by
    clear init
    induction hrun with
    | refl s =>
        intro pre h
        rwa [List.append_nil]
    | step hs _ ih =>
        intro pre h
        rw [← List.append_assoc]
        exact ih _ (tail h hs)
  exact hgen [] init

/-- What a machine emits in its first `n` steps, and where it is then. -/
def runFor (next : S → Option (List E × S)) : ℕ → S → List E × S
  | 0, s => ([], s)
  | n + 1, s =>
      match next s with
      | none => ([], s)
      | some (es, s') =>
          let later := runFor next n s'
          (es ++ later.1, later.2)

theorem emits_runFor (next : S → Option (List E × S)) (n : ℕ) (s : S) :
    Emits next s (runFor next n s).1 (runFor next n s).2 := by
  induction n generalizing s with
  | zero => exact .refl s
  | succ n ih =>
      unfold runFor
      split
      · exact .refl s
      · rename_i es s' hs
        exact .step hs (ih s')

/-! ## What must have happened before -/

section Since

variable {mark hit need : E → Bool} {es es' : List E} {e : E}

/-- There was a `hit` since the last `mark`, or since the start. -/
def Since (mark hit : E → Bool) (es : List E) : Prop :=
  ∃ before after, es = before ++ after ∧ (∀ e ∈ before.getLast?, mark e = true)
    ∧ (∀ e ∈ after, mark e = false) ∧ ∃ e ∈ after, hit e = true

/-- Whenever there is a `need`, there was a `hit` since the last `mark`. -/
def Guarded (mark hit need : E → Bool) (es : List E) : Prop :=
  ∀ before e after, es = before ++ e :: after → need e = true → Since mark hit before

theorem exists_last_mark (mark : E → Bool) (es : List E) :
    ∃ before after, es = before ++ after ∧ (∀ e ∈ before.getLast?, mark e = true)
      ∧ ∀ e ∈ after, mark e = false := by
  induction es using List.reverseRecOn with
  | nil => exact ⟨[], [], rfl, fun _ h => absurd h (by simp), fun _ h => absurd h List.not_mem_nil⟩
  | append_singleton es e ih =>
      by_cases he : mark e = true
      · refine ⟨es ++ [e], [], (List.append_nil _).symm, fun x hx => ?_,
          fun _ h => absurd h List.not_mem_nil⟩
        rw [List.getLast?_concat] at hx
        exact Option.some.inj hx ▸ he
      · obtain ⟨before, after, rfl, hbefore, hafter⟩ := ih
        refine ⟨before, after ++ [e], List.append_assoc _ _ _, hbefore, fun x hx => ?_⟩
        rcases List.mem_append.mp hx with hx | hx
        · exact hafter x hx
        · rw [List.mem_singleton.mp hx]
          exact Bool.eq_false_iff.mpr he

theorem Since.append (h : Since mark hit es) (hes' : ∀ e ∈ es', mark e = false) :
    Since mark hit (es ++ es') := by
  obtain ⟨before, after, rfl, hbefore, hafter, e, he, hhit⟩ := h
  refine ⟨before, after ++ es', List.append_assoc _ _ _, hbefore,
    List.forall_mem_append.mpr ⟨hafter, hes'⟩, e, List.mem_append_left _ he, hhit⟩

/-- A hit that is no mark. -/
theorem since_concat (es : List E) (hmark : mark e = false) (hhit : hit e = true) :
    Since mark hit (es ++ [e]) := by
  obtain ⟨before, after, rfl, hbefore, hafter⟩ := exists_last_mark mark es
  refine ⟨before, after ++ [e], List.append_assoc _ _ _, hbefore, fun x hx => ?_, e,
    List.mem_append_right _ (List.mem_singleton_self e), hhit⟩
  rcases List.mem_append.mp hx with hx | hx
  · exact hafter x hx
  · rw [List.mem_singleton.mp hx]
    exact hmark

/-- Behind a mark there was none. -/
theorem not_since_concat (hmark : mark e = true) : ¬ Since mark hit (es ++ [e]) := by
  rintro ⟨before, after, heq, -, hafter, x, hx, -⟩
  have he : e ∈ after := by
    rcases List.append_eq_append_iff.mp heq with ⟨mid, -, hmid⟩ | ⟨mid, -, rfl⟩
    · have hmem : x ∈ [e] := hmid ▸ List.mem_append_right mid hx
      rwa [List.mem_singleton.mp hmem] at hx
    · exact List.mem_append_right mid (List.mem_singleton_self e)
  rw [hafter e he] at hmark
  cases hmark

/-- What does not hit does not help. -/
theorem Since.of_append (h : Since mark hit (es ++ es')) (hes' : ∀ e ∈ es', hit e = false) :
    Since mark hit es := by
  obtain ⟨before, after, heq, hbefore, hafter, x, hx, hhit⟩ := h
  rcases List.append_eq_append_iff.mp heq with ⟨mid, -, rfl⟩ | ⟨mid, rfl, rfl⟩
  · rw [hes' x (List.mem_append_right mid hx)] at hhit
    cases hhit
  · refine ⟨before, mid, rfl, hbefore, fun e he => hafter e (List.mem_append_left _ he), x, ?_,
      hhit⟩
    rcases List.mem_append.mp hx with hx | hx
    · exact hx
    · rw [hes' x hx] at hhit
      cases hhit

theorem guarded_nil : Guarded mark hit need ([] : List E) := fun before e after h => by
  cases before <;> cases h

theorem Guarded.append (h : Guarded mark hit need es)
    (hes' : ∀ before e after, es' = before ++ e :: after → need e = true →
      Since mark hit (es ++ before)) : Guarded mark hit need (es ++ es') := by
  intro before e after heq hneed
  rcases List.append_eq_append_iff.mp heq with ⟨mid, rfl, hmid⟩ | ⟨mid, rfl, hmid⟩
  · exact hes' mid e after hmid hneed
  · cases mid with
    | nil =>
        have hsince := hes' [] e after hmid.symm hneed
        rwa [List.append_nil, List.append_nil] at hsince
    | cons x mid =>
        rw [List.cons_append, List.cons.injEq] at hmid
        exact h before e mid (by rw [hmid.1]) hneed

theorem Guarded.concat (h : Guarded mark hit need es) (he : need e = true → Since mark hit es) :
    Guarded mark hit need (es ++ [e]) := by
  refine h.append fun before x after heq hneed => ?_
  cases before with
  | nil =>
      rw [List.nil_append, List.cons.injEq] at heq
      rw [List.append_nil]
      exact he (heq.1 ▸ hneed)
  | cons y before =>
      rw [List.cons_append, List.cons.injEq] at heq
      cases before <;> cases heq.2

end Since

/-- Who looks at a run: what he makes of an event, and which events alarm him. -/
structure Observer (E O : Type) where
  view : E → Option O
  alarm : E → Bool

namespace Observer

variable (w : Observer E O)

/-- What the observer sees of a run. -/
def sees (es : List E) : List O := es.filterMap w.view

/-- There was no alarm. -/
def Calm (es : List E) : Prop := ∀ e ∈ es, w.alarm e = false

/-- What the observer saw until the first alarm. -/
def seesCalm (es : List E) : List O := w.sees (es.takeWhile fun e => !w.alarm e)

theorem sees_append (es es' : List E) : w.sees (es ++ es') = w.sees es ++ w.sees es' :=
  List.filterMap_append

variable {w}

theorem calm_nil : w.Calm [] := fun _ h => absurd h List.not_mem_nil

theorem calm_singleton {e : E} (h : w.alarm e = false) : w.Calm [e] := by
  intro e' he'
  rw [List.mem_singleton.mp he', h]

theorem calm_append {es es' : List E} : w.Calm (es ++ es') ↔ w.Calm es ∧ w.Calm es' := by
  unfold Calm
  exact List.forall_mem_append

theorem seesCalm_append {es : List E} (h : w.Calm es) (es' : List E) :
    w.seesCalm (es ++ es') = w.sees es ++ w.seesCalm es' := by
  unfold seesCalm
  rw [List.takeWhile_append_of_pos (fun e he => by rw [h e he]; rfl), sees_append]

end Observer

variable {w : Observer E O} {next₁ : S₁ → Option (List E × S₁)}
  {next₂ : S₂ → Option (List E × S₂)} {next₃ : S₃ → Option (List E × S₃)}

/-- The second machine does what the first one does, until it raises an alarm. -/
structure Preserves (w : Observer E O) (next₁ : S₁ → Option (List E × S₁)) (s₁ : S₁)
    (next₂ : S₂ → Option (List E × S₂)) (s₂ : S₂) : Prop where
  /-- What is seen of a calm run of the second is seen of a run of the first, to its end. -/
  sound : ∀ {es₂ t₂}, Emits next₂ s₂ es₂ t₂ → w.Calm es₂ →
    ∃ es₁ t₁, Emits next₁ s₁ es₁ t₁ ∧ w.Calm es₁ ∧ w.sees es₁ = w.sees es₂
      ∧ (next₂ t₂ = none → next₁ t₁ = none)
  /-- The second does all that the first does, to its end, or there is an alarm on the way. -/
  complete : ∀ {es₁ t₁}, Emits next₁ s₁ es₁ t₁ → w.Calm es₁ →
    (∃ es₂ t₂, Emits next₂ s₂ es₂ t₂ ∧ w.Calm es₂ ∧ w.sees es₂ = w.sees es₁
      ∧ (next₁ t₁ = none → next₂ t₂ = none))
    ∨ ∃ es₂ t₂, Emits next₂ s₂ es₂ t₂ ∧ ¬ w.Calm es₂ ∧ w.seesCalm es₂ <+: w.sees es₁
  /-- Where the first raises an alarm the second has raised one. -/
  alarms : ∀ {es₁ t₁}, Emits next₁ s₁ es₁ t₁ → ¬ w.Calm es₁ →
    ∃ es₂ t₂, Emits next₂ s₂ es₂ t₂ ∧ ¬ w.Calm es₂ ∧ w.seesCalm es₂ <+: w.seesCalm es₁

theorem Preserves.refl (next : S → Option (List E × S)) (s : S) : Preserves w next s next s where
  sound {es t} hrun hcalm := ⟨es, t, hrun, hcalm, rfl, id⟩
  complete {es t} hrun hcalm := Or.inl ⟨es, t, hrun, hcalm, rfl, id⟩
  alarms {es t} hrun hcalm := ⟨es, t, hrun, hcalm, List.prefix_refl _⟩

theorem Preserves.trans {s₁ : S₁} {s₂ : S₂} {s₃ : S₃} (h₁₂ : Preserves w next₁ s₁ next₂ s₂)
    (h₂₃ : Preserves w next₂ s₂ next₃ s₃) : Preserves w next₁ s₁ next₃ s₃ where
  sound hrun hcalm := by
    obtain ⟨es₂, t₂, hrun₂, hcalm₂, hsees₂, hend₂⟩ := h₂₃.sound hrun hcalm
    obtain ⟨es₁, t₁, hrun₁, hcalm₁, hsees₁, hend₁⟩ := h₁₂.sound hrun₂ hcalm₂
    exact ⟨es₁, t₁, hrun₁, hcalm₁, hsees₁.trans hsees₂, fun h => hend₁ (hend₂ h)⟩
  complete hrun hcalm := by
    rcases h₁₂.complete hrun hcalm with ⟨es₂, t₂, hrun₂, hcalm₂, hsees₂, hend₂⟩ | halarm
    · rw [← hsees₂]
      rcases h₂₃.complete hrun₂ hcalm₂ with ⟨es₃, t₃, hrun₃, hcalm₃, hsees₃, hend₃⟩ | halarm
      · exact Or.inl ⟨es₃, t₃, hrun₃, hcalm₃, hsees₃, fun h => hend₃ (hend₂ h)⟩
      · exact Or.inr halarm
    · obtain ⟨es₂, t₂, hrun₂, hcalm₂, hpre₂⟩ := halarm
      obtain ⟨es₃, t₃, hrun₃, hcalm₃, hpre₃⟩ := h₂₃.alarms hrun₂ hcalm₂
      exact Or.inr ⟨es₃, t₃, hrun₃, hcalm₃, hpre₃.trans hpre₂⟩
  alarms hrun hcalm := by
    obtain ⟨es₂, t₂, hrun₂, hcalm₂, hpre₂⟩ := h₁₂.alarms hrun hcalm
    obtain ⟨es₃, t₃, hrun₃, hcalm₃, hpre₃⟩ := h₂₃.alarms hrun₂ hcalm₂
    exact ⟨es₃, t₃, hrun₃, hcalm₃, hpre₃.trans hpre₂⟩

/-! ## The simulation rule -/

/-- What can happen next in two related states. -/
inductive Answer (w : Observer E O) (next₁ : S₁ → Option (List E × S₁))
    (next₂ : S₂ → Option (List E × S₂)) (R : S₁ → S₂ → Prop) (rank : S₂ → ℕ)
    (s₁ : S₁) (s₂ : S₂) : Prop where
  /-- The second machine moves alone, and the observer sees nothing. -/
  | silent {es s₂'} : next₂ s₂ = some (es, s₂') → w.Calm es → w.sees es = [] →
      R s₁ s₂' → rank s₂' < rank s₂ → Answer w next₁ next₂ R rank s₁ s₂
  /-- Both move, and the observer sees the same. -/
  | both {es₁ s₁' es₂ s₂'} : next₁ s₁ = some (es₁, s₁') → next₂ s₂ = some (es₂, s₂') →
      w.Calm es₁ → w.Calm es₂ → w.sees es₁ = w.sees es₂ → R s₁' s₂' →
      Answer w next₁ next₂ R rank s₁ s₂
  /-- Both are at the end. -/
  | stop : next₁ s₁ = none → next₂ s₂ = none → Answer w next₁ next₂ R rank s₁ s₂
  /-- The second machine raises an alarm. -/
  | alarm {es s₂'} : next₂ s₂ = some (es, s₂') → ¬ w.Calm es → w.seesCalm es = [] →
      Answer w next₁ next₂ R rank s₁ s₂

section Simulation

variable {R : S₁ → S₂ → Prop} {rank : S₂ → ℕ}

/-- The second machine runs on silently until the first one has to move. -/
theorem Answer.settle (hR : ∀ {s₁ s₂}, R s₁ s₂ → Answer w next₁ next₂ R rank s₁ s₂)
    {s₁ : S₁} {s₂ : S₂} (h : R s₁ s₂) :
    ∃ es t₂, Emits next₂ s₂ es t₂ ∧ w.Calm es ∧ w.sees es = []
      ∧ Answer w next₁ next₂ R (fun _ => 0) s₁ t₂ := by
  -- by induction on the rank
  induction hn : rank s₂ using Nat.strongRecOn generalizing s₂ with
  | ind n ih =>
      cases hR h with
      | silent hs hcalm hsees hR' hlt =>
          obtain ⟨es, t₂, hrun, hcalm', hsees', hans⟩ := ih _ (hn ▸ hlt) hR' rfl
          refine ⟨_, t₂, .step hs hrun, Observer.calm_append.mpr ⟨hcalm, hcalm'⟩, ?_, hans⟩
          rw [Observer.sees_append, hsees, hsees']
          rfl
      | both hs₁ hs₂ hcalm₁ hcalm₂ hsees hR' =>
          exact ⟨[], s₂, .refl s₂, Observer.calm_nil, rfl, .both hs₁ hs₂ hcalm₁ hcalm₂ hsees hR'⟩
      | stop hs₁ hs₂ => exact ⟨[], s₂, .refl s₂, Observer.calm_nil, rfl, .stop hs₁ hs₂⟩
      | alarm hs hcalm hsees =>
          exact ⟨[], s₂, .refl s₂, Observer.calm_nil, rfl, .alarm hs hcalm hsees⟩

theorem emits_append {next : S → Option (List E × S)} {s t u : S} {es es' : List E}
    (h : Emits next s es t) (h' : Emits next t es' u) : Emits next s (es ++ es') u := by
  induction h with
  | refl s => exact h'
  | step hs _ ih =>
      rw [List.append_assoc]
      exact .step hs (ih h')

theorem sound_of_answer (hR : ∀ {s₁ s₂}, R s₁ s₂ → Answer w next₁ next₂ R rank s₁ s₂)
    {s₁ : S₁} {s₂ t₂ : S₂} {es₂ : List E} (h : R s₁ s₂) (hrun : Emits next₂ s₂ es₂ t₂)
    (hcalm : w.Calm es₂) :
    ∃ es₁ t₁, Emits next₁ s₁ es₁ t₁ ∧ w.Calm es₁ ∧ w.sees es₁ = w.sees es₂
      ∧ (next₂ t₂ = none → next₁ t₁ = none) := by
  induction hrun generalizing s₁ with
  | refl s₂ =>
      refine ⟨[], s₁, .refl s₁, hcalm, rfl, fun hend => ?_⟩
      cases hR h with
      | silent hs _ _ _ _ => rw [hend] at hs; cases hs
      | both _ hs _ _ _ _ => rw [hend] at hs; cases hs
      | stop hs _ => exact hs
      | alarm hs _ _ => rw [hend] at hs; cases hs
  | step hs _ ih =>
      rw [Observer.calm_append] at hcalm
      rw [Observer.sees_append]
      cases hR h with
      | silent hs' _ hsees hR' _ =>
          rw [hs, Option.some.injEq, Prod.mk.injEq] at hs'
          obtain ⟨rfl, rfl⟩ := hs'
          rw [hsees]
          exact ih hR' hcalm.2
      | both hs₁ hs₂ hcalm₁ _ hsees hR' =>
          rw [hs, Option.some.injEq, Prod.mk.injEq] at hs₂
          obtain ⟨rfl, rfl⟩ := hs₂
          obtain ⟨es₁, t₁, hrun₁, hcalm', hsees', hend⟩ := ih hR' hcalm.2
          refine ⟨_, t₁, .step hs₁ hrun₁, Observer.calm_append.mpr ⟨hcalm₁, hcalm'⟩, ?_, hend⟩
          rw [Observer.sees_append, hsees, hsees']
      | stop _ hs' => rw [hs] at hs'; cases hs'
      | alarm hs' hno _ =>
          rw [hs, Option.some.injEq, Prod.mk.injEq] at hs'
          exact absurd (hs'.1 ▸ hcalm.1) hno

/-- After silent steps an alarm is still the first thing the observer notices. -/
theorem alarm_after {s₂ t₂ u₂ : S₂} {es es' : List E} (hrun : Emits next₂ s₂ es t₂)
    (hcalm : w.Calm es) (hs : next₂ t₂ = some (es', u₂)) (halarm : ¬ w.Calm es')
    (hsees : w.seesCalm es' = []) :
    ∃ es₂ v₂, Emits next₂ s₂ es₂ v₂ ∧ ¬ w.Calm es₂ ∧ w.seesCalm es₂ = w.sees es := by
  refine ⟨es ++ es', u₂, emits_append hrun (.single hs),
    fun h => halarm (Observer.calm_append.mp h).2, ?_⟩
  rw [Observer.seesCalm_append hcalm, hsees, List.append_nil]

theorem complete_of_answer (hR : ∀ {s₁ s₂}, R s₁ s₂ → Answer w next₁ next₂ R rank s₁ s₂)
    {s₁ t₁ : S₁} {s₂ : S₂} {es₁ : List E} (h : R s₁ s₂) (hrun : Emits next₁ s₁ es₁ t₁)
    (hcalm : w.Calm es₁) :
    (∃ es₂ t₂, Emits next₂ s₂ es₂ t₂ ∧ w.Calm es₂ ∧ w.sees es₂ = w.sees es₁
      ∧ (next₁ t₁ = none → next₂ t₂ = none))
    ∨ ∃ es₂ t₂, Emits next₂ s₂ es₂ t₂ ∧ ¬ w.Calm es₂ ∧ w.seesCalm es₂ <+: w.sees es₁ := by
  induction hrun generalizing s₂ with
  | refl s₁ =>
      obtain ⟨es, t₂, hsil, hcalm', hsees, hans⟩ := Answer.settle hR h
      cases hans with
      | silent _ _ _ _ hlt => exact absurd hlt (Nat.not_lt_zero 0)
      | both hs₁ _ _ _ _ _ =>
          exact Or.inl ⟨es, t₂, hsil, hcalm', hsees, fun hend => by rw [hend] at hs₁; cases hs₁⟩
      | stop _ hs₂ => exact Or.inl ⟨es, t₂, hsil, hcalm', hsees, fun _ => hs₂⟩
      | alarm hs halarm hno =>
          obtain ⟨es₂, v₂, hrun₂, halarm₂, hsees₂⟩ := alarm_after hsil hcalm' hs halarm hno
          exact Or.inr ⟨es₂, v₂, hrun₂, halarm₂, by rw [hsees₂, hsees]; exact List.nil_prefix⟩
  | step hs _ ih =>
      rw [Observer.calm_append] at hcalm
      rw [Observer.sees_append]
      obtain ⟨es, t₂, hsil, hcalm', hnone, hans⟩ := Answer.settle hR h
      cases hans with
      | silent _ _ _ _ hlt => exact absurd hlt (Nat.not_lt_zero 0)
      | both hs₁ hs₂ _ hcalm₂ hsees hR' =>
          rw [hs, Option.some.injEq, Prod.mk.injEq] at hs₁
          obtain ⟨rfl, rfl⟩ := hs₁
          rcases ih hR' hcalm.2 with
            ⟨es₂, u₂, hrun₂, hcalm₃, hsees₂, hend⟩ | ⟨es₂, u₂, hrun₂, hno, hpre⟩
          · refine Or.inl ⟨_, u₂, emits_append hsil (.step hs₂ hrun₂),
              Observer.calm_append.mpr ⟨hcalm', Observer.calm_append.mpr ⟨hcalm₂, hcalm₃⟩⟩, ?_,
              hend⟩
            rw [Observer.sees_append, Observer.sees_append, hnone, hsees, hsees₂]
            rfl
          · refine Or.inr ⟨_, u₂, emits_append hsil (.step hs₂ hrun₂), fun hc =>
              hno (Observer.calm_append.mp (Observer.calm_append.mp hc).2).2, ?_⟩
            rw [Observer.seesCalm_append hcalm', Observer.seesCalm_append hcalm₂, hnone, hsees,
              List.nil_append]
            exact (List.prefix_append_right_inj _).mpr hpre
      | stop hs₁ _ => rw [hs] at hs₁; cases hs₁
      | alarm hs₂ halarm hno =>
          obtain ⟨es₂, v₂, hrun₂, halarm₂, hsees₂⟩ := alarm_after hsil hcalm' hs₂ halarm hno
          exact Or.inr ⟨es₂, v₂, hrun₂, halarm₂, by rw [hsees₂, hnone]; exact List.nil_prefix⟩

theorem alarms_of_answer (hR : ∀ {s₁ s₂}, R s₁ s₂ → Answer w next₁ next₂ R rank s₁ s₂)
    {s₁ t₁ : S₁} {s₂ : S₂} {es₁ : List E} (h : R s₁ s₂) (hrun : Emits next₁ s₁ es₁ t₁)
    (hcalm : ¬ w.Calm es₁) :
    ∃ es₂ t₂, Emits next₂ s₂ es₂ t₂ ∧ ¬ w.Calm es₂ ∧ w.seesCalm es₂ <+: w.seesCalm es₁ := by
  induction hrun generalizing s₂ with
  | refl s₁ => exact absurd Observer.calm_nil hcalm
  | step hs _ ih =>
      obtain ⟨es, t₂, hsil, hcalm', hnone, hans⟩ := Answer.settle hR h
      cases hans with
      | silent _ _ _ _ hlt => exact absurd hlt (Nat.not_lt_zero 0)
      | both hs₁ hs₂ hcalm₁ hcalm₂ hsees hR' =>
          rw [hs, Option.some.injEq, Prod.mk.injEq] at hs₁
          obtain ⟨rfl, rfl⟩ := hs₁
          obtain ⟨es₂, u₂, hrun₂, hno, hpre⟩ :=
            ih hR' fun hc => hcalm (Observer.calm_append.mpr ⟨hcalm₁, hc⟩)
          refine ⟨_, u₂, emits_append hsil (.step hs₂ hrun₂), fun hc =>
            hno (Observer.calm_append.mp (Observer.calm_append.mp hc).2).2, ?_⟩
          rw [Observer.seesCalm_append hcalm', Observer.seesCalm_append hcalm₂,
            Observer.seesCalm_append hcalm₁, hnone, hsees, List.nil_append]
          exact (List.prefix_append_right_inj _).mpr hpre
      | stop hs₁ _ => rw [hs] at hs₁; cases hs₁
      | alarm hs₂ halarm hno =>
          obtain ⟨es₂, v₂, hrun₂, halarm₂, hsees₂⟩ := alarm_after hsil hcalm' hs₂ halarm hno
          exact ⟨es₂, v₂, hrun₂, halarm₂, by rw [hsees₂, hnone]; exact List.nil_prefix⟩

/-- **The simulation rule.** -/
theorem preserves_of_answer (hR : ∀ {s₁ s₂}, R s₁ s₂ → Answer w next₁ next₂ R rank s₁ s₂)
    {s₁ : S₁} {s₂ : S₂} (h : R s₁ s₂) : Preserves w next₁ s₁ next₂ s₂ where
  sound hrun hcalm := sound_of_answer hR h hrun hcalm
  complete hrun hcalm := complete_of_answer hR h hrun hcalm
  alarms hrun hcalm := alarms_of_answer hR h hrun hcalm

end Simulation

end Conc
