import Mathlib.Data.List.Basic
import Mathlib.Tactic.Common

/-!
# Machines that answer

A machine takes inputs one by one, answers each and goes on to its next state; `replies`
is the list of its answers to a list of inputs. Two machines that stay related step by
step give the same answers (`replies_simulate`).

A specification that leaves choices open is a relation on states, inputs and answers.
`Allows spec` says which records of a run it permits, and a machine whose every step is
permitted has permitted records only (`allows_of_step`). What every permitted step keeps
holds at the end (`Allows.rule`), and two specifications are compared by `Allows.simulate`.
-/

namespace InaneOS.Lib

variable {σ τ ι ο : Type}

/-- The answers to the inputs, and the state at the end. -/
def replies (step : σ → ι → ο × σ) : List ι → σ → List ο × σ
  | [], s => ([], s)
  | i :: is, s =>
    let (o, s) := step s i
    let (os, s) := replies step is s
    (o :: os, s)

@[simp] theorem replies_nil (step : σ → ι → ο × σ) (s : σ) : replies step [] s = ([], s) := rfl

theorem replies_cons (step : σ → ι → ο × σ) (i : ι) (is : List ι) (s : σ) :
    replies step (i :: is) s =
      ((step s i).1 :: (replies step is (step s i).2).1, (replies step is (step s i).2).2) := rfl

section Simulate

variable {step : σ → ι → ο × σ} {step' : τ → ι → ο × τ} {R : σ → τ → Prop}

/-- Related machines give the same answers and stay related, on inputs that `ok` allows. -/
theorem replies_simulate {ok : ι → Prop}
    (hstep : ∀ s t i, R s t → ok i → (step s i).1 = (step' t i).1 ∧ R (step s i).2 (step' t i).2) :
    ∀ {is : List ι} {s : σ} {t : τ}, R s t → (∀ i ∈ is, ok i) →
      (replies step is s).1 = (replies step' is t).1 ∧
        R (replies step is s).2 (replies step' is t).2
  | [], _, _, h, _ => ⟨rfl, h⟩
  | i :: is, s, t, h, hok => by
    obtain ⟨ho, hr⟩ := hstep s t i h (hok i List.mem_cons_self)
    obtain ⟨hos, hrs⟩ := replies_simulate hstep hr fun j hj => hok j (List.mem_cons_of_mem i hj)
    rw [replies_cons, replies_cons, ho, hos]
    exact ⟨rfl, hrs⟩

end Simulate

section Allows

/-- The records of a run that `spec` permits: each input with its answer. -/
inductive Allows (spec : τ → ι → ο → τ → Prop) : τ → List (ι × ο) → τ → Prop
  | nil (t : τ) : Allows spec t [] t
  | cons {t t₁ t₂ : τ} {i : ι} {o : ο} {rs : List (ι × ο)} (first : spec t i o t₁)
      (rest : Allows spec t₁ rs t₂) : Allows spec t ((i, o) :: rs) t₂

/-- A machine that takes permitted steps only has permitted records only. -/
theorem allows_of_step {step : σ → ι → ο × σ} {spec : τ → ι → ο → τ → Prop} {R : σ → τ → Prop}
    (hstep : ∀ s t i, R s t → ∃ t', spec t i (step s i).1 t' ∧ R (step s i).2 t') :
    ∀ {is : List ι} {s : σ} {t : τ}, R s t →
      ∃ t', Allows spec t (is.zip (replies step is s).1) t' ∧ R (replies step is s).2 t'
  | [], _, t, h => ⟨t, .nil t, h⟩
  | i :: is, s, t, h => by
    obtain ⟨t₁, hfirst, hr⟩ := hstep s t i h
    have ⟨t₂, hrest, hr₂⟩ : ∃ t₂, Allows spec t₁ (is.zip (replies step is (step s i).2).1) t₂ ∧
        R (replies step is (step s i).2).2 t₂ := allows_of_step hstep hr
    rw [replies_cons, List.zip_cons_cons]
    exact ⟨t₂, .cons hfirst hrest, hr₂⟩

/-- What every permitted step keeps, a permitted run keeps. -/
theorem Allows.rule {spec : τ → ι → ο → τ → Prop} {P : τ → Prop}
    (hstep : ∀ t i o t', P t → spec t i o t' → P t') {t t' : τ} {rs : List (ι × ο)}
    (h : Allows spec t rs t') : P t → P t' := by
  induction h with
  | nil t => exact id
  | cons first _ ih => exact fun hp => ih (hstep _ _ _ _ hp first)

/-- What permits more steps permits more runs. -/
theorem Allows.mono {spec spec' : τ → ι → ο → τ → Prop}
    (hspec : ∀ t i o t', spec t i o t' → spec' t i o t') {t t' : τ} {rs : List (ι × ο)}
    (h : Allows spec t rs t') : Allows spec' t rs t' := by
  induction h with
  | nil t => exact .nil t
  | cons first _ ih => exact .cons (hspec _ _ _ _ first) ih

/-- A record comes from a permitted step. -/
theorem Allows.mem {spec : τ → ι → ο → τ → Prop} {t t' : τ} {rs : List (ι × ο)}
    (h : Allows spec t rs t') {i : ι} {o : ο} (hmem : (i, o) ∈ rs) : ∃ t₁ t₂, spec t₁ i o t₂ := by
  induction h with
  | nil t => exact absurd hmem List.not_mem_nil
  | cons first _ ih =>
    rcases List.mem_cons.mp hmem with he | hrest
    · obtain ⟨rfl, rfl⟩ := Prod.mk.inj he
      exact ⟨_, _, first⟩
    · exact ih hrest

/-- A run of inputs that all have a property is a run of steps that have it. -/
theorem Allows.inputs {spec : τ → ι → ο → τ → Prop} {P : ι → Prop} {t t' : τ} {rs : List (ι × ο)}
    (h : Allows spec t rs t') (hp : ∀ r ∈ rs, P r.1) :
    Allows (fun t i o t' => P i ∧ spec t i o t') t rs t' := by
  induction h with
  | nil t => exact .nil t
  | cons first _ ih =>
    exact .cons ⟨hp _ List.mem_cons_self, first⟩ (ih fun r hr => hp r (List.mem_cons_of_mem _ hr))

/-- **Forward simulation**: when every step permitted on one side is permitted on the other from a
related state, so is every run, with the same inputs and answers. -/
theorem Allows.simulate {spec : τ → ι → ο → τ → Prop} {spec' : σ → ι → ο → σ → Prop}
    {R : τ → σ → Prop}
    (hstep : ∀ t s i o t', R t s → spec t i o t' → ∃ s', spec' s i o s' ∧ R t' s')
    {t t' : τ} {rs : List (ι × ο)} (h : Allows spec t rs t') :
    ∀ {s : σ}, R t s → ∃ s', Allows spec' s rs s' ∧ R t' s' := by
  induction h with
  | nil t => exact fun hr => ⟨_, .nil _, hr⟩
  | cons first _ ih =>
    intro s hr
    obtain ⟨s₁, hfirst, hr₁⟩ := hstep _ _ _ _ _ hr first
    obtain ⟨s₂, hrest, hr₂⟩ := ih hr₁
    exact ⟨s₂, .cons hfirst hrest, hr₂⟩

end Allows

end InaneOS.Lib
