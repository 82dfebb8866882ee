import Bz.Dice.Soundness.Runs

/-!
# Incremental soundness

Runs in which keys are looked up, computed and checked at the current version.  Without pushes,
what the graph answers and what is reused through the check of recorded deps is what evaluating the
key from scratch gives.  A push to a computed key drops the recorded deps of the key, so with pushes
the same holds only for keys that are shielded from every other change.

Principal results: `incremental_soundness`; `pushed_value_goes_stale`, `pushes_sound_of_shielded`.
-/

namespace Bz.Dice

open VersionedGraph Machine World List

variable {K V C : Type} [DecidableEq K] [DiceValue V]
  {R : Rules K V C} {F P : K → Prop} {w w' : World K V C}

/-! ## What the invariant says about answers -/

namespace WorldOk

variable {k : K} {v : Nat}

omit [DiceValue V] in
theorem matched (h : WorldOk R F P w) (hv : v ≤ w.core.currentVersion) {r : DiceComputedValue V}
    (hr : w.core.lookupKey k v = .matched r) : R.FromScratch (w.inputs v) k r.value := by
  unfold CoreState.lookupKey at hr
  split at hr
  · cases hr
  · exact (h.sound.eval_of_matched hv hr).fromScratch

theorem reused [DecidableEq V] [DecidableEq C] (h : WorldOk R F P w) {epoch : VersionEpoch}
    {m : Mismatch K V} (hok : StepOk R F P w (.unchanged k v epoch m))
    (hs : w.step R (.unchanged k v epoch m) = some w') : R.FromScratch (w.inputs v) k m.entry := by
  obtain ⟨rfl, hF⟩ := hok
  obtain ⟨reads, hr⟩ := h.reportOk_of_checksOut (step_unchanged hs).1 hF
  exact ((h.sound.report_recorded hr le_rfl (.inr rfl)).eval hr.notInput).fromScratch

end WorldOk

/-! ## Runs without pushes -/

def Change.isPush : Change V C → Bool
  | .push _ _ => true
  | _ => false

namespace Label

/-- Lookups and reports happen at the current version, and no key is rewound. -/
def Current (w : World K V C) : Label K V C → Prop
  | .lookup _ v => v = w.core.currentVersion
  | .computed _ v _ _ _ _ _ => v = w.core.currentVersion
  | .unchanged _ v _ _ => v = w.core.currentVersion
  | .rewind _ _ _ => False
  | _ => True

/-- Transactions inject values and dirty keys, and push no value to a computed key. -/
def NoPush : Label K V C → Prop
  | .updateState changes => ∀ e ∈ changes, e.2.1.isPush = false
  | _ => True

instance (w : World K V C) (l : Label K V C) : Decidable (l.Current w) := by
  unfold Current
  split <;> infer_instance

instance (l : Label K V C) : Decidable l.NoPush := by
  unfold NoPush
  split <;> infer_instance

variable {changes : Changes K V C}

omit [DecidableEq K] [DiceValue V] in
theorem NoPush.ne_push (h : (updateState changes).NoPush)
    {e : K × Change V C × InvalidationSourcePriority} (he : e ∈ changes) (x : V) (cell : C) :
    e.2.1 ≠ .push x cell := by
  intro hx
  have := h e he
  rw [hx] at this
  cases this

/-- Without pushes no key has to be frozen. -/
theorem NoPush.changesOk (h : (updateState changes).NoPush) {c : Nat} {I : Inputs K V C}
    {g : VersionedGraph K V} : ChangesOk R (fun _ => False) (fun _ => False) c I g changes :=
  ⟨fun _ _ hF => hF.elim, fun _ he x cell hx => absurd hx (h.ne_push he x cell)⟩

theorem Current.stepOk_of_noPush {l : Label K V C} (h : l.Current w) (hp : l.NoPush) :
    StepOk R (fun _ => False) (fun _ => False) w l := by
  cases l with
  | updateState changes =>
    exact ⟨hp.changesOk, fun e he x cell hx => absurd hx (hp.ne_push he x cell)⟩
  | ctxAtVersion v | dropCtxAtVersion v => trivial
  | lookup k v | rewind keys v epoch => exact h
  | computed k v epoch cell reads x deps | unchanged k v epoch m => exact ⟨h, False.elim⟩

end Label

/-- **Incremental soundness.** In every run without pushes and rewinds that works at the current
version, what the graph answers and what a check of the recorded deps reuses is the value of the key
from scratch. -/
theorem incremental_soundness [DecidableEq V] [DecidableEq C] (R : Rules K V C) (cells : K → C)
    {w : World K V C} (h : Reach (step R) (fun w l => l.Current w ∧ l.NoPush) (new cells) w) :
    (∀ k v r, v ≤ w.core.currentVersion → w.core.lookupKey k v = .matched r →
      R.FromScratch (w.inputs v) k r.value) ∧
    ∀ k epoch m w', w.step R (.unchanged k w.core.currentVersion epoch m) = some w' →
      R.FromScratch (w.inputs w.core.currentVersion) k m.entry := by
  have hok : WorldOk R (fun _ => False) (fun _ => False) w :=
    h.invariant (fun _ _ _ hw hl hs => hw.step (hl.1.stepOk_of_noPush hl.2) hs) (.new cells)
  refine ⟨fun k v r hv hr => hok.matched hv hr, fun k epoch m w' hs => ?_⟩
  exact hok.reused ⟨rfl, False.elim⟩ hs

/-- Key `0` is injected, key `1` halves it and adds its cell, and key `2` adds its cell to that. -/
def halving : Rules Nat Nat Nat where
  isInput k := k == 0
  task
    | 1, cell => .read 0 fun x => .pure (x / 2 + cell)
    | 2, cell => .read 1 fun x => .pure (x + cell)
    | _, cell => .pure cell

/-- Key `0` changes from `4` to `5`.  Key `1` is computed again with the same result, so key `2` is
reused through the check of its deps. -/
theorem incremental_soundness_halving : ∃ w w' : World Nat Nat Nat,
    Reach (step halving) (fun w l => l.Current w ∧ l.NoPush) (new fun _ => 0) w ∧
      w.step halving (.unchanged 2 2 1 ⟨2, 1, .one 1⟩) = some w' ∧
      (w.inputs 2).value 0 = some 5 ∧ halving.FromScratch (w.inputs 2) 2 2 := by
  obtain ⟨w, w', hw, hs, hcur, hval⟩ : ∃ w w' : World Nat Nat Nat,
      run (step halving) (fun w l => l.Current w ∧ l.NoPush) (new fun _ => 0)
        [.updateState [(0, .inject 4, .normal)], .ctxAtVersion 1,
          .lookup 2 1, .lookup 1 1, .lookup 0 1,
          .computed 1 1 0 0 [(0, 4)] 2 (.one 0), .computed 2 1 0 0 [(1, 2)] 2 (.one 1),
          .updateState [(0, .inject 5, .normal)], .ctxAtVersion 2,
          .lookup 2 2, .lookup 1 2, .lookup 0 2, .computed 1 2 1 0 [(0, 5)] 2 (.one 0)] = some w ∧
        w.step halving (.unchanged 2 2 1 ⟨2, 1, .one 1⟩) = some w' ∧
        w.core.currentVersion = 2 ∧ (w.inputs 2).value 0 = some 5 :=
    ⟨_, _, rfl, rfl, rfl, rfl⟩
  have hreuse := (incremental_soundness halving _ (reach_of_run _ hw)).2 2 1 ⟨2, 1, .one 1⟩ w'
  rw [hcur] at hreuse
  exact ⟨w, w', reach_of_run _ hw, hs, hval, hreuse hs⟩

/-! ## Pushes to computed keys -/

namespace Label

/-- Every value that is pushed is what its key evaluates to with its new cell, on the inputs before
the transaction. -/
def PushesEvaluated (R : Rules K V C) (w : World K V C) : Label K V C → Prop
  | .updateState changes => ∀ e ∈ changes, ∀ x cell, e.2.1 = .push x cell →
      R.Eval (setCell (w.inputs w.core.currentVersion) e.1 cell) e.1 x
  | _ => True

/-- The keys of `F` do not change once the graph knows them and are computed from keys of `F`.  A
key that is pushed to reads, and is recorded by, keys of `F` only; a value that it has is pushed
only while it is verified; nobody works on it. -/
def Shielded (R : Rules K V C) (F : K → Prop) (w : World K V C) : Label K V C → Prop
  | .updateState changes =>
    (∀ e ∈ changes, F e.1 → (∃ x, e.2.1 = .inject x) ∧ w.core.graph.node e.1 = none) ∧
    ∀ e ∈ changes, ∀ x cell, e.2.1 = .push x cell →
      Fixed R F (setCell (w.inputs w.core.currentVersion) e.1 cell) e.1 x ∧
      SparedBy F w.core.graph e.1 ∧
      (∀ o y, w.core.graph.node e.1 = some (.occupied o) → o.res.asHydrated = some y →
        DiceValue.equality y x = true → w.core.currentVersion ∈ o.verifiedRanges) ∧
      w.Idle e.1 w.core.currentVersion
  | .computed k _ _ _ _ _ deps => F k → ∀ d ∈ deps.iterKeys, F d
  | .unchanged k _ _ m => F k → ∀ d ∈ m.depsToValidate.iterKeys, F d
  | _ => True

variable {l : Label K V C}

omit [DiceValue V] in
theorem NoPush.pushesEvaluated (h : l.NoPush) : l.PushesEvaluated R w := by
  cases l with
  | updateState changes => exact fun e he x cell hx => absurd hx (h.ne_push he x cell)
  | _ => trivial

theorem Current.stepOk_of_shielded (h : l.Current w) (hs : l.Shielded R F w) :
    StepOk R F (fun _ => True) w l := by
  cases l with
  | updateState changes =>
    refine ⟨⟨hs.1, fun e he x cell hx => ?_⟩, fun e he x cell hx => (hs.2 e he x cell hx).2.2.2⟩
    obtain ⟨hfixed, hspared, hverified, -⟩ := hs.2 e he x cell hx
    exact ⟨trivial, hfixed, hspared, hverified⟩
  | ctxAtVersion v | dropCtxAtVersion v => trivial
  | lookup k v | rewind keys v epoch => exact h
  | computed k v epoch cell reads x deps | unchanged k v epoch m => exact ⟨h, hs⟩

end Label

/-- **Pushes to shielded keys are sound.** In every run that works at the current version and pushes
values of shielded keys only, what is answered and what is reused is the value from scratch. -/
theorem pushes_sound_of_shielded [DecidableEq V] [DecidableEq C] (R : Rules K V C) (F : K → Prop)
    (cells : K → C) {w : World K V C}
    (h : Reach (step R) (fun w l => l.Current w ∧ l.PushesEvaluated R w ∧ l.Shielded R F w)
      (new cells) w) :
    (∀ k v r, v ≤ w.core.currentVersion → w.core.lookupKey k v = .matched r →
      R.FromScratch (w.inputs v) k r.value) ∧
    ∀ k epoch m w', Label.Shielded R F w (.unchanged k w.core.currentVersion epoch m) →
      w.step R (.unchanged k w.core.currentVersion epoch m) = some w' →
      R.FromScratch (w.inputs w.core.currentVersion) k m.entry := by
  have hok : WorldOk R F (fun _ => True) w :=
    h.invariant (fun _ _ _ hw hl hs => hw.step (hl.1.stepOk_of_shielded hl.2.2) hs) (.new cells)
  refine ⟨fun k v r hv hr => hok.matched hv hr, fun k epoch m w' hF hs => ?_⟩
  exact hok.reused ⟨rfl, hF⟩ hs

/-- Key `0` is injected once.  A value of key `1` for a new cell is pushed, and answered. -/
theorem pushes_sound_of_shielded_halving : ∃ w : World Nat Nat Nat,
    Reach (step halving) (fun w l => l.Current w ∧ l.PushesEvaluated halving w ∧
      l.Shielded halving (fun k => k = 0) w) (new fun _ => 0) w ∧
    (∃ r, w.core.lookupKey 1 2 = .matched r ∧ r.value = 5) ∧
    halving.FromScratch (w.inputs 2) 1 5 := by
  obtain ⟨w1, w2, hs1, hs2, hcur1, hin, hnone, hkeys, hrun, hmis, hcur2, r, hr, hx⟩ :
      ∃ w1 w2 : World Nat Nat Nat,
        (new fun _ => 0).step halving (.updateState [(0, .inject 4, .normal)]) = some w1 ∧
        w1.step halving (.updateState [(1, .push 5 3, .normal)]) = some w2 ∧
        w1.core.currentVersion = 1 ∧ (w1.inputs 1).value 0 = some 4 ∧
        w1.core.graph.node 1 = none ∧ w1.core.existingGraphKeys = [0] ∧ w1.running = [] ∧
        w1.mismatches = [] ∧ w2.core.currentVersion = 2 ∧
        ∃ r, w2.core.lookupKey 1 2 = .matched r ∧ r.value = 5 :=
    ⟨_, _, rfl, rfl, rfl, rfl, rfl, rfl, rfl, rfl, rfl, _, rfl, rfl⟩
  have hreplay : (halving.task 1 3).replay [(0, 4)] = some 5 := rfl
  have hreach : Reach (step halving) (fun w l => l.Current w ∧
      l.PushesEvaluated halving w ∧ l.Shielded halving (fun k => k = 0) w)
      (new fun _ => 0) w2 := by
    have hread : halving.EvalIn (fun k => k = 0) (setCell (w1.inputs 1) 1 3) 0 4 := .input rfl hin
    refine (Reach.refl.tail ?_ hs1).tail ?_ hs2
    · refine ⟨trivial, fun e he x cell hx => ?_, fun e he _ => ?_, fun e he x cell hx => ?_⟩
      · cases mem_singleton.mp he; cases hx
      · cases mem_singleton.mp he; exact ⟨⟨4, rfl⟩, rfl⟩
      · cases mem_singleton.mp he; cases hx
    · refine ⟨trivial, fun e he x cell hx => ?_, fun e he h0 => ?_, fun e he x cell hx => ?_⟩
      · cases mem_singleton.mp he
        cases hx
        rw [hcur1]
        exact .of_replay rfl hreplay (forall_mem_singleton.mpr hread.eval)
      · cases mem_singleton.mp he; cases h0
      · cases mem_singleton.mp he
        cases hx
        rw [hcur1]
        refine ⟨⟨[(0, 4)], hreplay, forall_mem_singleton.mpr ⟨rfl, hread⟩⟩, fun d hd => ?_,
          fun o y ho => ?_, by simp [hrun], by simp [hmis]⟩
        · -- only key `0` has a node
          by_contra hne
          have hnode : w1.core.graph.node d = none := by
            refine AList.lookup_eq_none.mpr fun hmem => hne ?_
            exact mem_singleton.mp (hkeys ▸ AList.mem_keys.mpr hmem)
          simp [rdepsAt, hnode] at hd
        · rw [hnone] at ho
          cases ho
  have h := (pushes_sound_of_shielded halving (fun k => k = 0) _ hreach).1 1 2 r hcur2.ge hr
  exact ⟨w2, hreach, ⟨r, hr, hx⟩, hx ▸ h⟩

/-- Key `1` was computed from key `0`.  One transaction injects a new value for key `0` and then
pushes to key `1` what it evaluated to before: the graph answers the pushed value. -/
theorem pushed_value_goes_stale : ∃ w : World Nat Nat Nat,
    Reach (step halving) (fun w l => l.Current w ∧ l.PushesEvaluated halving w)
      (new fun _ => 0) w ∧
    (∃ r, w.core.lookupKey 1 w.core.currentVersion = .matched r ∧ r.value = 5) ∧
    halving.FromScratch (w.inputs w.core.currentVersion) 1 8 := by
  have hreach : Reach (step halving)
      (fun w l => l.Current w ∧ l.PushesEvaluated halving w) (new fun _ => 0) _ :=
    (reach_of_run (P := fun w l => l.Current w ∧ l.NoPush)
      [.updateState [(0, .inject 4, .normal)], .ctxAtVersion 1, .lookup 1 1, .lookup 0 1,
        .computed 1 1 0 0 [(0, 4)] 2 (.one 0)] rfl).mono
      fun w l hl => ⟨hl.1, hl.2.pushesEvaluated⟩
  refine ⟨_, hreach.tail (l := .updateState [(0, .inject 10, .normal), (1, .push 5 3, .normal)])
    ?_ rfl, ⟨_, rfl, rfl⟩, Rules.Eval.fromScratch ?_⟩
  · refine ⟨trivial, fun e he x cell hx => ?_⟩
    rcases mem_pair.mp he with rfl | rfl <;> cases hx
    exact .of_replay rfl (show (halving.task 1 3).replay [(0, 4)] = some 5 from rfl)
      (forall_mem_singleton.mpr (.input rfl rfl))
  · exact .of_replay rfl (show (halving.task 1 3).replay [(0, 10)] = some 8 from rfl)
      (forall_mem_singleton.mpr (.input rfl rfl))

end Bz.Dice
