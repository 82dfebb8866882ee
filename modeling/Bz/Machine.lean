import Mathlib.Logic.Relation

/-!
# Runs of a partial machine

A machine is a partial step function on states and labels.  `Reach step P s s'` says that a run
from `s` to `s'` exists in which every label meets `P` in the state before its step.  The invariant
rule is `Reach.invariant`; `reach_of_run` and `exists_reach` turn an evaluated run into a reachable
state. -/

namespace Bz.Machine

variable {S L : Type} {step : S → L → Option S} {P : S → L → Prop}

/-- One step with a label that meets `P`. -/
def Next (step : S → L → Option S) (P : S → L → Prop) (s s' : S) : Prop :=
  ∃ l, P s l ∧ step s l = some s'

/-- A run whose labels all meet `P`. -/
def Reach (step : S → L → Option S) (P : S → L → Prop) : S → S → Prop :=
  Relation.ReflTransGen (Next step P)

section Rules

variable {Q : S → L → Prop} {s s' s'' : S}

theorem Reach.refl : Reach step P s s := Relation.ReflTransGen.refl

theorem Reach.tail {l : L} (h : Reach step P s s') (hl : P s' l) (hstep : step s' l = some s'') :
    Reach step P s s'' :=
  Relation.ReflTransGen.tail h ⟨l, hl, hstep⟩

theorem Reach.mono (hPQ : ∀ s l, P s l → Q s l) (h : Reach step P s s') : Reach step Q s s' := by
  induction h with
  | refl => exact .refl
  | tail _ hnext ih =>
    obtain ⟨l, hl, hstep⟩ := hnext
    exact ih.tail (hPQ _ l hl) hstep

/-- What every step preserves, every run preserves. -/
theorem Reach.invariant {I : S → Prop} (hstep : ∀ s l s', I s → P s l → step s l = some s' → I s')
    (h : Reach step P s s') (h0 : I s) : I s' := by
  induction h with
  | refl => exact h0
  | tail _ hnext ih =>
    obtain ⟨l, hl, hs⟩ := hnext
    exact hstep _ l _ ih hl hs

end Rules

/-- The run of a list of labels, which stops at a label that does not meet `P`. -/
def run (step : S → L → Option S) (P : S → L → Prop) [∀ s l, Decidable (P s l)] (s : S) :
    List L → Option S
  | [] => some s
  | l :: ls => if P s l then (step s l).bind fun s' => run step P s' ls else none

theorem reach_of_run [∀ s l, Decidable (P s l)]
    {s s' : S} (ls : List L) (h : run step P s ls = some s') : Reach step P s s' := by
  induction ls generalizing s with
  | nil =>
    cases h
    exact .refl
  | cons l ls ih =>
    unfold run at h
    split at h
    · next hl =>
      obtain ⟨s1, hs1, hrest⟩ := Option.bind_eq_some_iff.mp h
      exact Relation.ReflTransGen.head ⟨l, hl, hs1⟩ (ih hrest)
    · cases h

/-- A reachable state with a property, by evaluating a run. -/
theorem exists_reach [∀ s l, Decidable (P s l)] {s : S}
    {I Q : S → Prop} (ls : List L) (hQ : ∀ s', Reach step P s s' → I s' → Q s')
    (h : ∃ s', run step P s ls = some s' ∧ I s') : ∃ s', Reach step P s s' ∧ Q s' := by
  obtain ⟨s', hrun, hI⟩ := h
  exact ⟨s', reach_of_run ls hrun, hQ s' (reach_of_run ls hrun) hI⟩

end Bz.Machine
