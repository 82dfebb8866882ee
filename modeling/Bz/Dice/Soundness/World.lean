import Bz.Dice.Soundness.Report

/-!
# Workers around the core state

The system that the core state is part of: transactions change injected values and external cells,
and workers look keys up, compute them from the results they were handed, or check their recorded
deps (`DiceTaskWorker::do_work` of `dice/src/impls/worker.rs`).  Every key that is not injected is
a deterministic function of the values it reads and of its cell.  The inputs of every version, the
results handed out, the computations that have started and the mismatches under check are kept
beside the core state.

Principal results, label by label what a step does: `step_updateState`, `step_ctx`, `step_dropCtx`,
`step_computed`, `step_unchanged`, `step_rewind`.
-/

namespace Bz.Dice

open Option

variable {K V C : Type} [DecidableEq K] [DecidableEq V] [DecidableEq C] [DiceValue V]

/-- A change that a transaction asks for, with the cell that the key has from then on. -/
inductive Change (V C : Type) where
  | inject (value : V)
  | dirty (cell : C)
  | push (value : V) (cell : C)

abbrev Changes (K V C : Type) := List (K × Change V C × InvalidationSourcePriority)

/-- `changed`, `changed_to` for an injected key and `changed_to` for a computed key. -/
def Change.type : Change V C → ChangeType V
  | .inject x => .updateValue x .injected
  | .dirty _ => .invalidate
  | .push x _ => .updateValue x .normal

namespace Changes

def updates (changes : Changes K V C) : List (Update K V) :=
  changes.map fun c => (c.1, c.2.1.type, c.2.2)

def keys (changes : Changes K V C) : List K := changes.map Prod.fst

/-- The change of a key. -/
def find (changes : Changes K V C) (k : K) : Option (Change V C) :=
  (changes.find? fun c => decide (c.1 = k)).map fun c => c.2.1

/-- Injected keys are injected, the others are dirtied or pushed to. -/
def fits (R : Rules K V C) (changes : Changes K V C) : Bool :=
  changes.all fun c => match c.2.1 with
    | .inject _ => R.isInput c.1
    | _ => !R.isInput c.1

end Changes

/-- The inputs after the changes of a transaction. -/
def changeInputs (I : Inputs K V C) (changes : Changes K V C) : Inputs K V C where
  value k := match changes.find k with
    | some (.inject x) => some x
    | _ => I.value k
  cell k := match changes.find k with
    | some (.dirty e) => e
    | some (.push _ e) => e
    | _ => I.cell k

/-- The inputs after keys were rewound, each with its new cell.  Injected keys are not computed
again. -/
def rewindInputs (R : Rules K V C) (I : Inputs K V C) (keys : List (K × C)) : Inputs K V C where
  value := I.value
  cell k := if R.isInput k then I.cell k
    else ((keys.find? fun e => decide (e.1 = k)).map Prod.snd).getD (I.cell k)

/-- The core state with what the workers know and the inputs of every version. -/
structure World (K V C : Type) where
  core : CoreState K V
  inputs : Nat → Inputs K V C
  running : List (K × Nat × C)
  results : List (K × Nat × DiceComputedValue V)
  mismatches : List (K × Nat × Mismatch K V)

/-- The steps of the system. -/
inductive Label (K V C : Type) where
  | updateState (changes : Changes K V C)
  | ctxAtVersion (version : Nat)
  | dropCtxAtVersion (version : Nat)
  | lookup (key : K) (version : Nat)
  | computed (key : K) (version : Nat) (epoch : VersionEpoch) (cell : C) (reads : List (K × V))
      (value : V) (deps : SeriesParallelDeps K)
  | unchanged (key : K) (version : Nat) (epoch : VersionEpoch) (previous : Mismatch K V)
  | rewind (keys : List (K × C)) (version : Nat) (epoch : VersionEpoch)

namespace World

/-- Before the first transaction nothing is injected, and the cells have any value. -/
def new (cells : K → C) : World K V C := ⟨.new, fun _ => ⟨fun _ => none, cells⟩, [], [], []⟩

variable (w : World K V C)

/-- A result with this value was handed out at the version. -/
def Read (v : Nat) (r : K × V) : Prop :=
  ∃ e ∈ w.results, e.1 = r.1 ∧ e.2.1 = v ∧ e.2.2.value = r.2

/-- A result that is valid at `p` as well was handed out at the version. -/
def Checked (v p : Nat) (d : K) : Prop :=
  ∃ e ∈ w.results, e.1 = d ∧ e.2.1 = v ∧ p ∈ e.2.2.versions

instance (w : World K V C) (v : Nat) (r : K × V) : Decidable (w.Read v r) :=
  inferInstanceAs (Decidable (∃ e ∈ w.results, _))

instance (w : World K V C) (v p : Nat) (d : K) : Decidable (w.Checked v p d) :=
  inferInstanceAs (Decidable (∃ e ∈ w.results, _))

/-- A computation of a key that started, with results of its version. -/
def Computes (R : Rules K V C) (w : World K V C) (k : K) (v : Nat) (cell : C)
    (reads : List (K × V)) (value : V) (deps : SeriesParallelDeps K) : Prop :=
  R.isInput k = false ∧ (k, v, cell) ∈ w.running ∧ (R.task k cell).replay reads = some value ∧
    (∀ r ∈ reads, w.Read v r ∧ r.1 ∈ deps.iterKeys) ∧ ∀ d ∈ deps.iterKeys, d ∈ reads.map Prod.fst

/-- `check_dependencies` found every recorded dep to be valid at the version verified last; there is
one. -/
def ChecksOut (R : Rules K V C) (w : World K V C) (k : K) (v : Nat) (m : Mismatch K V) : Prop :=
  R.isInput k = false ∧ (k, v, m) ∈ w.mismatches ∧ m.depsToValidate.iterKeys ≠ [] ∧
    ∀ d ∈ m.depsToValidate.iterKeys, w.Checked v m.prevVerifiedVersion d

instance (R : Rules K V C) (w : World K V C) (k : K) (v : Nat) (cell : C) (reads : List (K × V))
    (value : V) (deps : SeriesParallelDeps K) :
    Decidable (w.Computes R k v cell reads value deps) :=
  inferInstanceAs (Decidable (_ ∧ _))

instance (R : Rules K V C) (w : World K V C) (k : K) (v : Nat) (m : Mismatch K V) :
    Decidable (w.ChecksOut R k v m) :=
  inferInstanceAs (Decidable (_ ∧ _))

/-- The worker of a key that is looked up: it hands out a match, checks the deps of a mismatch,
and computes what it cannot reuse. -/
def looked (k : K) (v : Nat) : World K V C :=
  match w.core.lookupKey k v with
  | .matched r => { w with results := (k, v, r) :: w.results }
  | .checkDeps m =>
    { w with
      mismatches := (k, v, m) :: w.mismatches
      running := (k, v, (w.inputs v).cell k) :: w.running }
  | .compute => { w with running := (k, v, (w.inputs v).cell k) :: w.running }
  | _ => w

/-- The answer to a report is handed out. -/
def reported (k : K) (v : Nat) :
    CoreState K V × Except CancellationReason (DiceComputedValue V) → World K V C
  | (core, .ok ret) => { w with core := core, results := (k, v, ret) :: w.results }
  | (core, .error _) => { w with core := core }

def step (R : Rules K V C) (w : World K V C) : Label K V C → Option (World K V C)
  | .updateState changes =>
    if changes.keys.Nodup ∧ changes.fits R = true then
      (w.core.updateState changes.updates).map fun s =>
        { w with
          core := s.1
          inputs := Function.update w.inputs s.2
            (changeInputs (w.inputs w.core.currentVersion) changes) }
    else none
  | .ctxAtVersion v =>
    if v ≤ w.core.currentVersion then some { w with core := (w.core.ctxAtVersion v).1 } else none
  | .dropCtxAtVersion v => (w.core.dropCtxAtVersion v).map fun core => { w with core := core }
  | .lookup k v => some (w.looked k v)
  | .computed k v epoch cell reads value deps =>
    if w.Computes R k v cell reads value deps then
      (w.core.updateComputed k v epoch .normal value .equalityBased deps).map fun s =>
        { w.reported k v s with running := w.running.erase (k, v, cell) }
    else none
  | .unchanged k v epoch m =>
    if w.ChecksOut R k v m then
      (w.core.updateMismatchAsUnchanged k v epoch .normal m).map (w.reported k v)
    else none
  | .rewind keys v epoch =>
    (w.core.rewind (keys.map Prod.fst) v epoch).map fun core =>
      { w with
        core := core
        inputs := if w.core.versionTracker.isRelevant v epoch then
            fun u => if v ≤ u ∧ u ≤ w.core.currentVersion then rewindInputs R (w.inputs u) keys
              else w.inputs u
          else w.inputs }

/-! ## What a step does -/

section Cases

variable {R : Rules K V C} {w w' : World K V C} {v : Nat} {epoch : VersionEpoch}

theorem step_updateState {changes : Changes K V C}
    (hs : w.step R (.updateState changes) = some w') : changes.keys.Nodup ∧ changes.fits R ∧ ∃ g b,
      CoreState.applyUpdates (w.core.currentVersion + 1) w.core.graph false changes.updates =
        some (g, b) ∧ ((b ∧ w' = { w with
          core := ⟨{ w.core.versionTracker with current := w.core.currentVersion + 1 }, g⟩
          inputs := Function.update w.inputs (w.core.currentVersion + 1)
            (changeInputs (w.inputs w.core.currentVersion) changes) }) ∨ (b = false ∧ w' = { w with
          core := ⟨w.core.versionTracker, g⟩
          inputs := Function.update w.inputs w.core.currentVersion
            (changeInputs (w.inputs w.core.currentVersion) changes) })) := by
  simp only [step] at hs
  split at hs
  · next hch =>
    obtain ⟨⟨core, v⟩, hup, rfl⟩ := map_eq_some_iff.mp hs
    obtain ⟨g, b, happ, ⟨rfl, rfl, rfl⟩ | ⟨rfl, rfl, rfl⟩⟩ := CoreState.updateState_cases hup
    · exact ⟨hch.1, hch.2, g, true, happ, .inl ⟨rfl, rfl⟩⟩
    · exact ⟨hch.1, hch.2, g, false, happ, .inr ⟨rfl, rfl⟩⟩
  · cases hs

theorem step_ctx (hs : w.step R (.ctxAtVersion v) = some w') :
    ∃ core, core.currentVersion = w.core.currentVersion ∧ core.graph = w.core.graph ∧
      w' = { w with core := core } := by
  simp only [step] at hs
  split at hs
  · cases hs
    refine ⟨(w.core.ctxAtVersion v).1, ?_, rfl, rfl⟩
    show (w.core.versionTracker.activate v).1.current = _
    unfold VersionTracker.activate
    split <;> rfl
  · cases hs

theorem step_dropCtx (hs : w.step R (.dropCtxAtVersion v) = some w') :
    ∃ core, core.currentVersion = w.core.currentVersion ∧ core.graph = w.core.graph ∧
      w' = { w with core := core } := by
  obtain ⟨core, hcore, rfl⟩ := map_eq_some_iff.mp hs
  cases CoreState.iteration_effect (r := .dropCtxAtVersion v) hcore with
  | @tracker _ t hcur hinv hact => exact ⟨⟨t, w.core.graph⟩, hcur, rfl, rfl⟩
  | update hr hact hup => cases hr

omit [DecidableEq V] [DecidableEq C] [DiceValue V] in
theorem looked_cases (w : World K V C) (k : K) : w.looked k v = w ∨
    (∃ r, w.core.graph.get k v = .matched r ∧
      w.looked k v = { w with results := (k, v, r) :: w.results }) ∨
    (∃ m, w.core.graph.get k v = .checkDeps m ∧ w.looked k v = { w with
        mismatches := (k, v, m) :: w.mismatches
        running := (k, v, (w.inputs v).cell k) :: w.running }) ∨ (w.core.graph.get k v = .compute ∧
      w.looked k v = { w with running := (k, v, (w.inputs v).cell k) :: w.running }) := by
  unfold looked CoreState.lookupKey
  by_cases hrej : w.core.versionTracker.shouldReject v = true
  · simp [hrej]
  · cases hget : w.core.graph.get k v with
    | matched r => exact .inr (.inl ⟨r, rfl, by simp [hrej]⟩)
    | checkDeps m => exact .inr (.inr (.inl ⟨m, rfl, by simp [hrej]⟩))
    | compute => exact .inr (.inr (.inr ⟨rfl, by simp [hrej]⟩))
    | _ => exact .inl (by simp [hrej])

theorem step_computed {k : K} {cell : C} {reads : List (K × V)} {x : V}
    {deps : SeriesParallelDeps K} (hs : w.step R (.computed k v epoch cell reads x deps) =
      some w') : w.Computes R k v cell reads x deps ∧ ∃ res,
      w.core.updateComputed k v epoch .normal x .equalityBased deps = some res ∧
      w' = { w.reported k v res with running := w.running.erase (k, v, cell) } := by
  simp only [step] at hs
  split at hs
  · next hc =>
    obtain ⟨res, hup, rfl⟩ := map_eq_some_iff.mp hs
    exact ⟨hc, res, hup, rfl⟩
  · cases hs

theorem step_unchanged {k : K} {m : Mismatch K V} (hs : w.step R (.unchanged k v epoch m) =
    some w') : w.ChecksOut R k v m ∧ ∃ res,
      w.core.updateComputed k v epoch .normal m.entry (.versionBased m.prevVerifiedVersion)
        m.depsToValidate = some res ∧ w' = w.reported k v res := by
  simp only [step] at hs
  split at hs
  · next hc =>
    obtain ⟨res, hup, rfl⟩ := map_eq_some_iff.mp hs
    exact ⟨hc, res, hup, rfl⟩
  · cases hs

theorem step_rewind {keys : List (K × C)} (hs : w.step R (.rewind keys v epoch) = some w') :
    w' = w ∨ ∃ cache cache' g,
      w.core.versionTracker.cacheIfRelevant v epoch = some cache ∧
      CoreState.rewindKeys v cache w.core.graph (keys.map Prod.fst) = some (cache', g) ∧
      w' = { w with
        core := ⟨w.core.versionTracker.setCache v cache', g⟩
        inputs := fun u => if v ≤ u ∧ u ≤ w.core.currentVersion then
          rewindInputs R (w.inputs u) keys else w.inputs u } := by
  obtain ⟨core, hcore, rfl⟩ := map_eq_some_iff.mp hs
  have hrel : w.core.versionTracker.isRelevant v epoch =
      (w.core.versionTracker.cacheIfRelevant v epoch).isSome := by
    unfold VersionTracker.isRelevant VersionTracker.cacheIfRelevant
    cases w.core.versionTracker.activeVersions.lookup v with
    | none => rfl
    | some data => by_cases he : data.versionEpoch = epoch <;> simp [he]
  unfold CoreState.rewind at hcore
  split at hcore
  · next hnone =>
    cases hcore
    simp [hrel, hnone]
  · next cache hcache =>
    obtain ⟨⟨cache', g⟩, hre, hcore⟩ := bind_eq_some_iff.mp hcore
    cases hcore
    exact .inr ⟨cache, cache', g, hcache, hre, by simp [hrel, hcache]⟩

end Cases

end World

end Bz.Dice
