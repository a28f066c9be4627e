import Mathlib.Data.List.Induction

/-! Runs of a total step function and conditions on their steps.
A step that is not enabled leaves the state as it is, so every list of
actions is a run and the conditions say which runs are meant. -/
namespace Smtdv.Lib.Machine

variable {σ α : Type*}

def run (step : σ → α → σ) (s : σ) (actions : List α) : σ :=
  actions.foldl step s

@[simp] theorem run_nil (step : σ → α → σ) (s : σ) : run step s [] = s := rfl

@[simp] theorem run_cons (step : σ → α → σ) (s : σ) (a : α) (rest : List α) :
    run step s (a::rest) = run step (step s a) rest := rfl

theorem run_append (step : σ → α → σ) (s : σ) (first second : List α) :
    run step s (first++second) = run step (run step s first) second :=
  List.foldl_append

theorem run_concat (step : σ → α → σ) (s : σ) (actions : List α) (a : α) :
    run step s (actions++[a]) = step (run step s actions) a := by
  simp [run_append]

/-- Every step of the run meets the condition in the state it starts from. -/
def Meets (step : σ → α → σ) (cond : σ → α → Prop) : σ → List α → Prop
  | _, [] => True
  | s, a::rest => cond s a ∧ Meets step cond (step s a) rest

instance Meets.decide (step : σ → α → σ) (cond : σ → α → Prop) [∀ s a, Decidable (cond s a)] :
    ∀ (s : σ) (actions : List α), Decidable (Meets step cond s actions)
  | _, [] => isTrue trivial
  | s, a::rest =>
    have := Meets.decide step cond (step s a) rest
    inferInstanceAs (Decidable (cond s a ∧ Meets step cond (step s a) rest))

theorem meets_append (step : σ → α → σ) (cond : σ → α → Prop) (s : σ) (first second : List α) :
    Meets step cond s (first++second) ↔
      Meets step cond s first ∧ Meets step cond (run step s first) second := by
  induction first generalizing s with
  | nil => simp [Meets]
  | cons a first ih => simp [Meets,ih,and_assoc]

theorem meets_concat (step : σ → α → σ) (cond : σ → α → Prop) (s : σ) (actions : List α) (a : α) :
    Meets step cond s (actions++[a]) ↔
      Meets step cond s actions ∧ cond (run step s actions) a := by
  simp [meets_append,Meets]

theorem Meets.mono {step : σ → α → σ} {cond other : σ → α → Prop}
    (weaker : ∀ s a, cond s a → other s a) {s : σ} {actions : List α}
    (met : Meets step cond s actions) : Meets step other s actions := by
  induction actions generalizing s with
  | nil => trivial
  | cons a rest ih => exact ⟨weaker s a met.1,ih met.2⟩

theorem Meets.and {step : σ → α → σ} {cond other : σ → α → Prop} {s : σ} {actions : List α}
    (left : Meets step cond s actions) (right : Meets step other s actions) :
    Meets step (fun s a => cond s a ∧ other s a) s actions := by
  induction actions generalizing s with
  | nil => trivial
  | cons a rest ih => exact ⟨⟨left.1,right.1⟩,ih left.2 right.2⟩

theorem meets_of_forall {step : σ → α → σ} {cond : α → Prop} {s : σ} {actions : List α}
    (all : ∀ a ∈ actions, cond a) : Meets step (fun _ a => cond a) s actions := by
  induction actions generalizing s with
  | nil => trivial
  | cons a rest ih => exact ⟨all a List.mem_cons_self,ih fun b inside => all b (List.mem_cons_of_mem a inside)⟩

/-- What every step under its condition keeps, every run under the condition keeps. -/
theorem run_invariant {step : σ → α → σ} {cond : σ → α → Prop} {inv : σ → Prop}
    (keep : ∀ s a, inv s → cond s a → inv (step s a)) {s : σ} {actions : List α}
    (initial : inv s) (met : Meets step cond s actions) : inv (run step s actions) := by
  induction actions generalizing s with
  | nil => exact initial
  | cons a rest ih => exact ih (keep s a initial met.1) met.2

/-- The unconditional form: what every step keeps holds in every state reached. -/
theorem run_induction {step : σ → α → σ} {inv : σ → Prop}
    (keep : ∀ s a, inv s → inv (step s a)) {s : σ} (actions : List α)
    (initial : inv s) : inv (run step s actions) := by
  induction actions generalizing s with
  | nil => exact initial
  | cons a rest ih => exact ih (keep s a initial)

/-- A property of each step follows from the condition along the run, given an
invariant under which the condition implies it. -/
theorem Meets.under {step : σ → α → σ} {cond other : σ → α → Prop} {inv : σ → Prop}
    (keep : ∀ s a, inv s → cond s a → inv (step s a))
    (gives : ∀ s a, inv s → cond s a → other s a) {s : σ} {actions : List α}
    (initial : inv s) (met : Meets step cond s actions) : Meets step other s actions := by
  induction actions generalizing s with
  | nil => trivial
  | cons a rest ih => exact ⟨gives s a initial met.1,ih (keep s a initial met.1) met.2⟩

/-- Two step conditions that agree wherever the invariant holds pick out the same runs. -/
theorem meets_iff {step : σ → α → σ} {cond other : σ → α → Prop} {inv : σ → Prop}
    (keep : ∀ s a, inv s → cond s a → inv (step s a))
    (agree : ∀ s a, inv s → (cond s a ↔ other s a)) {s : σ} (initial : inv s) (actions : List α) :
    Meets step cond s actions ↔ Meets step other s actions := by
  refine ⟨Meets.under keep (fun s a held met => (agree s a held).mp met) initial,fun met => ?_⟩
  exact Meets.under (fun s a held met => keep s a held ((agree s a held).mpr met))
    (fun s a held met => (agree s a held).mpr met) initial met

/-- A run meets a condition that keeps an invariant, or ends past a step that breaks it. -/
theorem meets_or {step : σ → α → σ} {cond : σ → α → Prop} {inv broken : σ → Prop}
    (keep : ∀ s a, inv s → cond s a → inv (step s a)) (breaks : ∀ s a, inv s → ¬cond s a → broken (step s a))
    (stays : ∀ s a, broken s → broken (step s a)) {s : σ} (initial : inv s) (actions : List α) :
    Meets step cond s actions ∨ broken (run step s actions) := by
  induction actions generalizing s with
  | nil => exact .inl trivial
  | cons a rest ih =>
    by_cases met : cond s a
    · exact (ih (keep s a initial met)).imp (fun rest => ⟨met,rest⟩) id
    · exact .inr (run_induction stays rest (breaks s a initial met))

/-- What every run under a condition has, and no run has whose last step is the first outside it, every
beginning of a run has exactly if the run is under the condition. -/
theorem prefixes_iff {step : σ → α → σ} {cond : σ → α → Prop} {good : List α → Prop} {s : σ} {actions : List α}
    (holds : ∀ before, before <+: actions → Meets step cond s before → good before)
    (breaks : ∀ before a, before ++ [a] <+: actions → Meets step cond s before → ¬cond (run step s before) a →
      ¬good (before ++ [a])) :
    (∀ before, before <+: actions → good before) ↔ Meets step cond s actions := by
  constructor
  · intro all
    induction actions using List.reverseRecOn with
    | nil => trivial
    | append_singleton actions a ih =>
      have met := ih (fun before inside => holds before (inside.trans (List.prefix_append _ _)))
        (fun before b inside => breaks before b (inside.trans (List.prefix_append _ _)))
        (fun before inside => all before (inside.trans (List.prefix_append _ _)))
      refine (meets_concat _ _ _ _ _).mpr ⟨met,?_⟩
      by_contra broken
      exact breaks actions a (List.prefix_refl _) met broken (all _ (List.prefix_refl _))
  · rintro met before ⟨rest,rfl⟩
    exact holds before (List.prefix_append _ _) ((meets_append _ _ _ _ _).mp met).1

/-- Where every step that changes the state lowers a measure, no more steps change it than the measure allows. -/
theorem length_le_measure {step : σ → α → σ} {cond : α → Prop} {measure : σ → Nat}
    (falls : ∀ s a, cond a → step s a ≠ s → measure (step s a) < measure s) {s : σ} {actions : List α}
    (all : ∀ a ∈ actions, cond a) (met : Meets step (fun s a => step s a ≠ s) s actions) :
    actions.length ≤ measure s := by
  induction actions generalizing s with
  | nil => exact Nat.zero_le _
  | cons a rest ih =>
    have lower := falls s a (all a List.mem_cons_self) met.1
    have later := ih (fun b inside => all b (List.mem_cons_of_mem a inside)) met.2
    rw [List.length_cons]
    omega

/-- Related actions that lead from each state to the same one meet related conditions. -/
theorem Meets.rel {β : Type*} {step : σ → α → σ} {other : σ → β → σ} {cond : σ → α → Prop} {cond' : σ → β → Prop}
    {rel : α → β → Prop} (same : ∀ s a b, rel a b → step s a = other s b)
    (gives : ∀ s a b, rel a b → cond s a → cond' s b) {s : σ} {actions : List α} {others : List β}
    (related : List.Forall₂ rel actions others) (met : Meets step cond s actions) : Meets other cond' s others := by
  induction related generalizing s with
  | nil => trivial
  | cons first _ ih => exact ⟨gives s _ _ first met.1,ih (same s _ _ first ▸ met.2)⟩

/-- A run of a step that answers: the state it ends in, and the answers in turn. -/
def answers {ρ : Type*} (step : σ → α → σ × ρ) (s : σ) : List α → σ × List ρ
  | [] => (s,[])
  | a::rest => ((answers step (step s a).1 rest).1,(step s a).2::(answers step (step s a).1 rest).2)

theorem answers_append {ρ : Type*} (step : σ → α → σ × ρ) (s : σ) (first second : List α) :
    answers step s (first++second) = ((answers step (answers step s first).1 second).1,
      (answers step s first).2 ++ (answers step (answers step s first).1 second).2) := by
  induction first generalizing s with
  | nil => rfl
  | cons a first ih => simp [answers,ih]

/-- What answers goes through the same states. -/
theorem answers_run {ρ : Type*} (step : σ → α → σ) (reply : σ → α → ρ) (s : σ) (actions : List α) :
    (answers (fun s a => (step s a,reply s a)) s actions).1 = run step s actions := by
  induction actions generalizing s with
  | nil => rfl
  | cons a rest ih => exact ih (step s a)

/-- Steps that answer alike from related states, and keep them related, answer alike in every run. -/
theorem answers_refine {τ ρ : Type*} {low : σ → α → σ × ρ} {high : τ → α → τ × ρ} {rel : σ → τ → Prop}
    {allowed : α → Prop} (same : ∀ s t a, allowed a → rel s t →
      (low s a).2 = (high t a).2 ∧ rel (low s a).1 (high t a).1)
    {s : σ} {t : τ} (initial : rel s t) {actions : List α} (all : ∀ a ∈ actions, allowed a) :
    (answers low s actions).2 = (answers high t actions).2 ∧
      rel (answers low s actions).1 (answers high t actions).1 := by
  induction actions generalizing s t with
  | nil => exact ⟨rfl,initial⟩
  | cons a rest ih =>
    obtain ⟨answer,related⟩ := same s t a (all a List.mem_cons_self) initial
    obtain ⟨later,final⟩ := ih related fun b inside => all b (List.mem_cons_of_mem a inside)
    refine ⟨?_,final⟩
    rw [answers,answers,answer,later]

end Smtdv.Lib.Machine
