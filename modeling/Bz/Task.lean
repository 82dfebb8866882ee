import Mathlib.Data.List.Basic

/-!
# Tasks that read keys

A general account of build rules.  A `Task` reads the values of keys one after another, the next
key depending on the values read so far, and ends with a value.  `Rules` give every key that is not
an input a task, which may also look at an external cell of the key.  `Rules.EvalIn F I k x` says
that evaluating `k` from scratch on the inputs `I` gives `x` and reads nothing but keys of `F`;
`Rules.Eval` is evaluation without that restriction.

Principal results: `replay_unique` and `Eval.unique`; `EvalIn.congr`; `Eval.transport`, the rule for
carrying evaluations over to other inputs.
-/

namespace Bz

variable {K V C : Type} [DecidableEq K]

/-- A computation that reads keys. -/
inductive Task (K V : Type) where
  | pure (x : V)
  | read (k : K) (next : V → Task K V)

/-- The result of a task that is given these answers to its reads, in this order. -/
def Task.replay : Task K V → List (K × V) → Option V
  | .pure x, [] => some x
  | .pure _, _ :: _ => none
  | .read _ _, [] => none
  | .read k next, r :: reads => if r.1 = k then (next r.2).replay reads else none

/-- A task that is given the same value for a key on both replays takes the same reads. -/
theorem Task.replay_unique {t : Task K V} {reads reads' : List (K × V)} {x y : V}
    (h : t.replay reads = some x) (h' : t.replay reads' = some y)
    (hsame : ∀ r ∈ reads, ∀ r' ∈ reads', r.1 = r'.1 → r.2 = r'.2) : reads = reads' ∧ x = y := by
  fun_induction Task.replay t reads generalizing reads' with
  | case1 z =>
    cases reads' with
    | cons r reads' => cases h'
    | nil =>
      cases h
      cases h'
      exact ⟨rfl, rfl⟩
  | case2 | case3 | case5 => cases h
  | case4 next r reads ih =>
    cases reads' with
    | nil => cases h'
    | cons r' reads' =>
      rw [Task.replay] at h'
      split at h'
      · next hd =>
        have ha := hsame _ List.mem_cons_self _ List.mem_cons_self hd.symm
        rw [← ha] at h'
        obtain ⟨hr, hx⟩ := ih h h' fun r hr r' hr' =>
          hsame r (List.mem_cons_of_mem _ hr) r' (List.mem_cons_of_mem _ hr')
        exact ⟨by rw [hr, Prod.ext hd.symm ha], hx⟩
      · cases h'

/-- Which keys are inputs, and the task of every other key for each value of its cell. -/
structure Rules (K V C : Type) where
  isInput : K → Bool
  task : K → C → Task K V

/-- The values of the inputs and the external cells. -/
structure Inputs (K V C : Type) where
  value : K → Option V
  cell : K → C

namespace Rules

/-- Evaluation from scratch that reads keys of `F` only. -/
inductive EvalIn (R : Rules K V C) (F : K → Prop) (I : Inputs K V C) : K → V → Prop where
  | input {k : K} {x : V} (hk : R.isInput k = true) (hx : I.value k = some x) : EvalIn R F I k x
  | computed {k : K} {x : V} {reads : List (K × V)} (hk : R.isInput k = false)
      (hx : (R.task k (I.cell k)).replay reads = some x) (hF : ∀ r ∈ reads, F r.1)
      (hreads : ∀ r ∈ reads, EvalIn R F I r.1 r.2) : EvalIn R F I k x

/-- Evaluation from scratch. -/
abbrev Eval (R : Rules K V C) (I : Inputs K V C) : K → V → Prop := R.EvalIn (fun _ => True) I

variable {R : Rules K V C} {I I' : Inputs K V C} {k : K} {x : V}
  {reads : List (K × V)} {F : K → Prop} {y : V}

theorem Eval.of_replay (hk : R.isInput k = false) (hx : (R.task k (I.cell k)).replay reads = some x)
    (hreads : ∀ r ∈ reads, R.Eval I r.1 r.2) : R.Eval I k x :=
  .computed hk hx (fun _ _ => trivial) hreads

theorem EvalIn.eval (h : R.EvalIn F I k x) : R.Eval I k x := by
  induction h with
  | input hk hx => exact .input hk hx
  | computed hk hx _ _ ih => exact .of_replay hk hx ih

/-- **Evaluation is deterministic.** -/
theorem Eval.unique (hx : R.Eval I k x) (hy : R.Eval I k y) : x = y := by
  induction hx generalizing y with
  | input hk hval =>
    cases hy with
    | input _ hval' =>
      rw [hval] at hval'
      exact Option.some.inj hval'
    | computed hk' => rw [hk] at hk'; cases hk'
  | computed hk hreplay _ _ ih =>
    cases hy with
    | input hk' => rw [hk] at hk'; cases hk'
    | computed _ hreplay' _ hreads' =>
      refine (Task.replay_unique hreplay hreplay' fun r hr r' hr' heq => ?_).2
      exact ih r hr (heq ▸ hreads' r' hr')

/-- The key evaluates to this value and to no other. -/
def FromScratch (R : Rules K V C) (I : Inputs K V C) (k : K) (x : V) : Prop :=
  R.Eval I k x ∧ ∀ y, R.Eval I k y → y = x

theorem Eval.fromScratch (h : R.Eval I k x) : R.FromScratch I k x :=
  ⟨h, fun _ hy => hy.unique h⟩

/-- Two replays of one task whose reads are evaluated on the same inputs are the same. -/
theorem replay_reads_unique {t : Task K V} {reads' : List (K × V)} (h : t.replay reads = some x)
    (h' : t.replay reads' = some y) (he : ∀ r ∈ reads, R.Eval I r.1 r.2)
    (he' : ∀ r ∈ reads', R.Eval I r.1 r.2) : reads = reads' ∧ x = y :=
  Task.replay_unique h h' fun r hr r' hr' heq => (he r hr).unique (heq ▸ he' r' hr')

/-- The inputs of `k` that `I` has are kept by `I'`. -/
structure Agree (I I' : Inputs K V C) (k : K) : Prop where
  value : ∀ x, I.value k = some x → I'.value k = some x
  cell : I'.cell k = I.cell k

/-- Evaluation within `F` depends on the inputs of `F` only. -/
theorem EvalIn.congr (hagree : ∀ k, F k → Agree I I' k) (hk : F k) (h : R.EvalIn F I k x) :
    R.EvalIn F I' k x := by
  induction h with
  | input hin hx => exact .input hin ((hagree _ hk).value _ hx)
  | computed hin hx hF _ ih =>
    refine .computed hin ?_ hF fun r hr => ih r hr (hF r hr)
    rw [(hagree _ hk).cell]
    exact hx

/-- **Evaluations carry over to other inputs** for a set of keys that are either evaluated to the
same value there, or have the same inputs and read keys of the set or keys that are. -/
theorem Eval.transport {S : K → Prop}
    (hkeep : ∀ k x, S k → R.Eval I k x → R.Eval I' k x ∨ (Agree I I' k ∧ (R.isInput k = false →
      ∀ reads, (R.task k (I.cell k)).replay reads = some x → (∀ r ∈ reads, R.Eval I r.1 r.2) →
        ∀ r ∈ reads, S r.1 ∨ R.Eval I' r.1 r.2)))
    (hk : S k) (h : R.Eval I k x) : R.Eval I' k x := by
  induction h with
  | input hin hx =>
    rcases hkeep _ _ hk (.input hin hx) with h | ⟨hagree, -⟩
    · exact h
    · exact .input hin (hagree.value _ hx)
  | computed hin hx hF hreads ih =>
    rcases hkeep _ _ hk (.of_replay hin hx hreads) with h | ⟨hagree, hall⟩
    · exact h
    · refine .of_replay hin (by rw [hagree.cell]; exact hx) fun r hr => ?_
      exact (hall hin _ hx hreads r hr).elim (ih r hr) id

end Rules

end Bz
