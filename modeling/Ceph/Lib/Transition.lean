import Mathlib.Tactic

set_option autoImplicit false

/-! # Runs of a transition system

A system is given by a partial step function: `step s a` is the state after the action `a`, or
`none` if `a` cannot happen in `s`. A run is a list of actions, each of which can happen where it
is taken.
-/

namespace Transition

open Option List

variable {S A : Type} {step : S → A → Option S}

/-- The state after a list of actions. -/
def run (step : S → A → Option S) (acts : List A) (s : S) : Option S := acts.foldlM step s

@[simp] theorem run_nil (s : S) : run step [] s = some s := rfl

variable {proper : S → A → Prop} {P : S → Prop}

theorem run_cons {a : A} {acts : List A} {s t : S} :
    run step (a :: acts) s = some t ↔ ∃ s', step s a = some s' ∧ run step acts s' = some t := by
  rw [run, foldlM_cons, bind_eq_bind, bind_eq_some_iff]
  rfl

/-- **An invariant of the steps is an invariant of the runs.** -/
theorem invariant_of_run (hstep : ∀ s a s', P s → step s a = some s' → P s') {acts : List A}
    {s t : S} (hrun : run step acts s = some t) (hs : P s) : P t := by
  induction acts generalizing s with
  | nil =>
    rw [run_nil, some_inj] at hrun
    exact hrun ▸ hs
  | cons a acts ih =>
    obtain ⟨s', hfirst, hrest⟩ := run_cons.mp hrun
    exact ih hrest (hstep s a s' hs hfirst)

/-- **What holds after the actions so far**, if each action extends it. -/
theorem history_of_run {P : List A → S → Prop}
    (hstep : ∀ done s a s', P done s → step s a = some s' → P (done ++ [a]) s')
    {acts done : List A} {s t : S} (hrun : run step acts s = some t) (hs : P done s) :
    P (done ++ acts) t := by
  induction acts generalizing s done with
  | nil =>
    rw [run_nil, some_inj] at hrun
    rw [append_nil]
    exact hrun ▸ hs
  | cons a acts ih =>
    obtain ⟨s', hfirst, hrest⟩ := run_cons.mp hrun
    have hlast := ih hrest (hstep done s a s' hs hfirst)
    rwa [append_assoc, singleton_append] at hlast

/-- **A run that cannot fail**: each action can happen after those before it. -/
theorem run_total {P : List A → S → Prop} {acts : List A}
    (hstep : ∀ done a rest s, acts = done ++ a :: rest → P done s →
      ∃ s', step s a = some s' ∧ P (done ++ [a]) s')
    {s : S} (hs : P [] s) : ∃ t, run step acts s = some t ∧ P acts t := by
  have hmain : ∀ rest done s, acts = done ++ rest → P done s →
      ∃ t, run step rest s = some t ∧ P acts t := by
    intro rest
    induction rest with
    | nil =>
      intro done s hacts hs
      rw [hacts, append_nil]
      exact ⟨s, rfl, hs⟩
    | cons a rest ih =>
      intro done s hacts hs
      obtain ⟨s', hfirst, hs'⟩ := hstep done a rest s hacts hs
      obtain ⟨t, hrest, ht⟩ := ih (done ++ [a]) s' (by rw [hacts]; simp) hs'
      exact ⟨t, run_cons.mpr ⟨s', hfirst, hrest⟩, ht⟩
  exact hmain acts [] s rfl hs

/-- Every action of a run is taken where it is proper. -/
def Along (step : S → A → Option S) (proper : S → A → Prop) : List A → S → Prop
  | [], _ => True
  | a :: acts, s => proper s a ∧ match step s a with
    | none => True
    | some s' => Along step proper acts s'

instance decidableAlong {proper : S → A → Prop} [∀ s a, Decidable (proper s a)] (acts : List A)
    (s : S) : Decidable (Along step proper acts s) :=
  match acts with
  | [] => inferInstanceAs (Decidable True)
  | a :: acts =>
    have : Decidable (match step s a with
        | none => True
        | some s' => Along step proper acts s') :=
      match step s a with
      | none => inferInstanceAs (Decidable True)
      | some s' => decidableAlong acts s'
    inferInstanceAs (Decidable (_ ∧ _))

theorem along_of_forall {acts : List A} (h : ∀ a ∈ acts, ∀ s, proper s a) (s : S) :
    Along step proper acts s := by
  induction acts generalizing s with
  | nil => exact trivial
  | cons a acts ih =>
    refine ⟨h a mem_cons_self s, ?_⟩
    cases step s a with
    | none => exact trivial
    | some s' => exact ih (fun b hb => h b (mem_cons_of_mem _ hb)) s'

/-- **An invariant of the proper steps is an invariant of the runs of proper actions.** -/
theorem invariant_of_along (hstep : ∀ s a s', P s → proper s a → step s a = some s' → P s')
    {acts : List A} {s t : S} (hproper : Along step proper acts s) (hrun : run step acts s = some t)
    (hs : P s) : P t := by
  induction acts generalizing s with
  | nil =>
    rw [run_nil, some_inj] at hrun
    exact hrun ▸ hs
  | cons a acts ih =>
    obtain ⟨s', hfirst, hrest⟩ := run_cons.mp hrun
    obtain ⟨ha, halong⟩ := hproper
    rw [hfirst] at halong
    exact ih halong hrest (hstep s a s' hs ha hfirst)

/-- **Progress**: where proper actions succeed and extend what holds after the actions so far, a run
of proper actions does. -/
theorem history_of_along {P : List A → S → Prop}
    (hstep : ∀ done s a, P done s → proper s a → ∃ s', step s a = some s' ∧ P (done ++ [a]) s')
    {acts : List A} (done : List A) {s : S} (hproper : Along step proper acts s) (hs : P done s) :
    ∃ t, run step acts s = some t ∧ P (done ++ acts) t := by
  induction acts generalizing s done with
  | nil => exact ⟨s, rfl, (append_nil done).symm ▸ hs⟩
  | cons a acts ih =>
    obtain ⟨ha, halong⟩ := hproper
    obtain ⟨s', hfirst, hs'⟩ := hstep done s a hs ha
    rw [hfirst] at halong
    obtain ⟨t, hrun, ht⟩ := ih _ halong hs'
    rw [append_assoc] at ht
    exact ⟨t, run_cons.mpr ⟨s', hfirst, hrun⟩, ht⟩

theorem run_of_along (hstep : ∀ s a, P s → proper s a → ∃ s', step s a = some s' ∧ P s')
    {acts : List A} {s : S} (hproper : Along step proper acts s) (hs : P s) :
    ∃ t, run step acts s = some t ∧ P t :=
  history_of_along (P := fun _ => P) (fun _ => hstep) [] hproper hs

/-- **What spoils a property.** If an action that can happen keeps the property exactly when it is
not bad, then the property holds all along a run exactly when no action of the run is bad. -/
theorem throughout_iff_along {I : S → Prop} {bad : S → A → Prop}
    (hinv : ∀ s a s', I s → step s a = some s' → I s')
    (hstep : ∀ s a s', I s → P s → step s a = some s' → (P s' ↔ ¬ bad s a))
    (hbad : ∀ s a, bad s a → (step s a).isSome) {acts : List A} {s : S} (hs : I s) (hp : P s) :
    (∀ done, done <+: acts → ∀ t, run step done s = some t → P t) ↔
      Along step (fun s a => ¬ bad s a) acts s := by
  induction acts generalizing s with
  | nil =>
    refine ⟨fun _ => trivial, fun _ done hdone t hrun => ?_⟩
    rw [prefix_nil.mp hdone, run_nil, some_inj] at hrun
    exact hrun ▸ hp
  | cons a acts ih =>
    cases hfirst : step s a with
    | none =>
      have hgood : ¬ bad s a := fun h => by simpa [hfirst] using hbad s a h
      refine ⟨fun _ => ⟨hgood, by rw [hfirst]; exact trivial⟩, fun _ done hdone t hrun => ?_⟩
      cases done with
      | nil => exact some_inj.mp hrun ▸ hp
      | cons b done =>
        obtain rfl : b = a := (cons_prefix_cons.mp hdone).1
        obtain ⟨s', hb, -⟩ := run_cons.mp hrun
        rw [hfirst] at hb
        exact nomatch hb
    | some s' =>
      have hiff := hstep s a s' hs hp hfirst
      have hs' := hinv s a s' hs hfirst
      constructor
      · intro h
        have hp' : P s' := h [a] (by simp) s' (run_cons.mpr ⟨s', hfirst, rfl⟩)
        refine ⟨hiff.mp hp', ?_⟩
        rw [hfirst]
        refine (ih hs' hp').mp fun done hdone t hrun => ?_
        exact h (a :: done) (cons_prefix_cons.mpr ⟨rfl, hdone⟩) t
          (run_cons.mpr ⟨s', hfirst, hrun⟩)
      · rintro ⟨hgood, hrest⟩ done hdone t hrun
        rw [hfirst] at hrest
        cases done with
        | nil => exact some_inj.mp hrun ▸ hp
        | cons b done =>
          obtain ⟨rfl, htail⟩ := cons_prefix_cons.mp hdone
          obtain ⟨s'', hb, hrun⟩ := run_cons.mp hrun
          rw [hfirst, some_inj] at hb
          subst hb
          exact (ih hs' (hiff.mpr hgood)).mpr hrest done htail t hrun

/-- **What spoils a property, whatever the state**: for a run that goes through, the property holds
all along it exactly when every action of the run is good. -/
theorem throughout_iff_forall {I : S → Prop} {good : A → Prop}
    (hinv : ∀ s a s', I s → step s a = some s' → I s')
    (hstep : ∀ s a s', I s → P s → step s a = some s' → (P s' ↔ good a)) {acts : List A} {s t : S}
    (hrun : run step acts s = some t) (hs : I s) (hp : P s) :
    (∀ done, done <+: acts → ∀ u, run step done s = some u → P u) ↔ ∀ a ∈ acts, good a := by
  have hiff : ∀ s a s', I s → P s → step s a = some s' →
      (P s' ↔ ¬ ((step s a).isSome ∧ ¬ good a)) := by
    intro s a s' hs hp ha
    rw [hstep s a s' hs hp ha, ha]
    simp
  rw [throughout_iff_along hinv hiff (fun _ _ h => h.1) hs hp]
  clear hs hp
  induction acts generalizing s with
  | nil => exact ⟨fun _ a ha => absurd ha not_mem_nil, fun _ => trivial⟩
  | cons a acts ih =>
    obtain ⟨s', hfirst, hrest⟩ := run_cons.mp hrun
    rw [Along, hfirst, forall_mem_cons]
    exact and_congr (by simp) (ih hrest)

theorem bind_eq_ok {ε α β : Type} {x : Except ε α} {f : α → Except ε β} {b : β} :
    (x >>= f) = .ok b ↔ ∃ a, x = .ok a ∧ f a = .ok b := by
  cases x with
  | error e => simp [bind, Except.bind]
  | ok a => simp [bind, Except.bind]

end Transition
