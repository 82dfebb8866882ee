import Bz.Dice.Cache
import Bz.Dice.Graph.Storage

/-!
# The core state

Model of `VersionTracker` (`dice/src/impls/core/versions.rs`) and `CoreState`
(`dice/src/impls/core/internals.rs`): the state that the processor thread owns, with one function
for each request of `dice/src/impls/core/processor.rs` that the development is about.  A panic is
`none`.

Left out: the tasks that wait for their cancellation, and metrics.

Principal results: `updateState_cases` and `updateComputed_cases`, which say what the two requests
can do.
-/

namespace Bz.Dice

variable {K V : Type} [DecidableEq K] {epoch : VersionEpoch} {v : Nat}

abbrev VersionEpoch := Nat

/-- A version that is in use. -/
structure ActiveVersionData (K V : Type) where
  cache : SharedCache K V
  refCount : Nat
  versionEpoch : VersionEpoch

/-- The versions, and those in use. -/
structure VersionTracker (K V : Type) where
  current : Nat
  invalidBefore : Nat
  activeVersions : AList fun _ : Nat => ActiveVersionData K V
  epochTracker : Nat

namespace VersionTracker

def new : VersionTracker K V := ⟨0, 0, ∅, 0⟩

variable (t : VersionTracker K V)

/-- `VersionTracker::at`. -/
def activate (v : Nat) : VersionTracker K V × VersionEpoch :=
  match t.activeVersions.lookup v with
  | some data =>
    let data := { data with refCount := data.refCount + 1 }
    ({ t with activeVersions := t.activeVersions.insert v data }, data.versionEpoch)
  | none =>
    ({ t with
        activeVersions := t.activeVersions.insert v ⟨.new, 1, t.epochTracker⟩
        epochTracker := t.epochTracker + 1 }, t.epochTracker)

def isRelevant (v : Nat) (epoch : VersionEpoch) : Bool :=
  (t.activeVersions.lookup v).any fun data => decide (data.versionEpoch = epoch)

def cacheIfRelevant (v : Nat) (epoch : VersionEpoch) : Option (SharedCache K V) :=
  match t.activeVersions.lookup v with
  | some data => if data.versionEpoch = epoch then some data.cache else none
  | none => none

/-- Writes back the cache that the holders of an active version share. -/
def setCache (v : Nat) (cache : SharedCache K V) : VersionTracker K V :=
  match t.activeVersions.lookup v with
  | some data =>
    { t with activeVersions := t.activeVersions.insert v { data with cache := cache } }
  | none => t

def shouldReject (v : Nat) : Bool := decide (v < t.invalidBefore)

/-- `VersionTracker::drop_at_version`: panics for an unknown version. -/
def dropAtVersion (v : Nat) : Option (VersionTracker K V) := do
  let data ← t.activeVersions.lookup v
  let data := { data with refCount := data.refCount - 1 }
  if data.refCount = 0 then some { t with activeVersions := t.activeVersions.erase v }
  else some { t with activeVersions := t.activeVersions.insert v data }

/-- `VersionTracker::clear`. -/
def clear : VersionTracker K V :=
  { t with current := t.current + 1, invalidBefore := t.current + 1 }

omit [DecidableEq K] in
theorem cacheIfRelevant_setCache {t : VersionTracker K V}
    {cache : SharedCache K V} (h : t.cacheIfRelevant v epoch = some cache)
    (cache' : SharedCache K V) : (t.setCache v cache').cacheIfRelevant v epoch = some cache' := by
  unfold cacheIfRelevant at h
  split at h
  · next data hdata =>
    split at h
    · next he => simp [cacheIfRelevant, setCache, hdata, he]
    · cases h
  · cases h

end VersionTracker

/-- `ChangeType`, without the one of the tests. -/
inductive ChangeType (V : Type) where
  | invalidate
  | updateValue (value : V) (storage : StorageType)

/-- The match of `CoreState::update_state` on the change. -/
def ChangeType.kind : ChangeType V → InvalidateKind V
  | .invalidate => .forceDirty
  | .updateValue value storage => .update value storage

/-- `CancellationReason`, as far as `update_computed` returns it. -/
inductive CancellationReason where
  | outdatedEpoch
  | rejected

/-- The state of the processor. -/
structure CoreState (K V : Type) where
  versionTracker : VersionTracker K V
  graph : VersionedGraph K V

abbrev Update (K V : Type) := K × ChangeType V × InvalidationSourcePriority

namespace CoreState

def new : CoreState K V := ⟨.new, .new⟩

variable [DiceValue V] (s : CoreState K V)

def currentVersion : Nat := s.versionTracker.current

/-- The loop of `update_state` over the changes. -/
def applyUpdates (v : Nat) (g : VersionedGraph K V) (changesRecorded : Bool) :
    List (Update K V) → Option (VersionedGraph K V × Bool)
  | [] => some (g, changesRecorded)
  | (k, change, p) :: updates => do
    let (g, changed) ← g.invalidate k v change.kind p
    applyUpdates v g (changesRecorded || changed) updates

/-- `CoreState::update_state`, with the version it returns. -/
def updateState (updates : List (Update K V)) : Option (CoreState K V × Nat) := do
  let v := s.versionTracker.current + 1
  let (g, changesRecorded) ← applyUpdates v s.graph false updates
  if changesRecorded then some (⟨{ s.versionTracker with current := v }, g⟩, v)
  else some (⟨s.versionTracker, g⟩, s.versionTracker.current)

/-- A transaction advances the version exactly when it recorded a change. -/
theorem updateState_cases {s s' : CoreState K V} {updates : List (Update K V)}
    (h : s.updateState updates = some (s', v)) :
    ∃ g b, applyUpdates (s.versionTracker.current + 1) s.graph false updates = some (g, b) ∧
      ((b = true ∧ s' = ⟨{ s.versionTracker with current := s.versionTracker.current + 1 }, g⟩ ∧
          v = s.versionTracker.current + 1) ∨
        (b = false ∧ s' = ⟨s.versionTracker, g⟩ ∧ v = s.versionTracker.current)) := by
  obtain ⟨⟨g, b⟩, happ, h⟩ := Option.bind_eq_some_iff.mp h
  refine ⟨g, b, happ, ?_⟩
  cases b with
  | true => cases h; exact .inl ⟨rfl, rfl, rfl⟩
  | false => cases h; exact .inr ⟨rfl, rfl, rfl⟩

def ctxAtVersion (v : Nat) : CoreState K V × VersionEpoch :=
  ({ s with versionTracker := (s.versionTracker.activate v).1 }, (s.versionTracker.activate v).2)

def dropCtxAtVersion (v : Nat) : Option (CoreState K V) := do
  let t ← s.versionTracker.dropAtVersion v
  some { s with versionTracker := t }

/-- `CoreState::lookup_key`. -/
def lookupKey (k : K) (v : Nat) : VersionedGraphResult K V :=
  if s.versionTracker.shouldReject v then .rejected else s.graph.get k v

/-- The loop of `rewind` over the keys: injected keys are skipped. -/
def rewindKeys (v : Nat) (cache : SharedCache K V) (g : VersionedGraph K V) :
    List K → Option (SharedCache K V × VersionedGraph K V)
  | [] => some (cache, g)
  | k :: keys =>
    match g.node k with
    | some (.injected _) => rewindKeys v cache g keys
    | _ => do
      let (g, _) ← g.invalidate k v .forceDirty .normal
      rewindKeys v (cache.rewind k) g keys

/-- `CoreState::rewind`.  The number it returns is left out. -/
def rewind (keys : List K) (v : Nat) (epoch : VersionEpoch) : Option (CoreState K V) :=
  match s.versionTracker.cacheIfRelevant v epoch with
  | none => some s
  | some cache => do
    let (cache, g) ← rewindKeys v cache s.graph keys
    some ⟨s.versionTracker.setCache v cache, g⟩

/-- `CoreState::update_computed`. -/
def updateComputed (k : K) (v : Nat) (epoch : VersionEpoch)
    (storage : StorageType) (value : V) (reusability : ValueReusable)
    (deps : SeriesParallelDeps K) :
    Option (CoreState K V × Except CancellationReason (DiceComputedValue V)) :=
  if !s.versionTracker.isRelevant v epoch then some (s, .error .outdatedEpoch)
  else if s.versionTracker.shouldReject v then some (s, .error .rejected)
  else do
    let (g, ret) ← s.graph.update k v value reusability deps storage
    some ({ s with graph := g }, .ok ret)

/-- An update reaches the graph, or is refused and changes nothing. -/
theorem updateComputed_cases {s : CoreState K V} {k : K}
    {storage : StorageType} {value : V} {reusability : ValueReusable} {deps : SeriesParallelDeps K}
    {res : CoreState K V × Except CancellationReason (DiceComputedValue V)}
    (h : s.updateComputed k v epoch storage value reusability deps = some res) :
    (∃ e, res = (s, .error e)) ∨ ∃ g ret, s.versionTracker.isRelevant v epoch = true ∧
        s.graph.update k v value reusability deps storage = some (g, ret) ∧
        res = (⟨s.versionTracker, g⟩, .ok ret) := by
  unfold updateComputed at h
  split at h
  · cases h; exact .inl ⟨_, rfl⟩
  · next hrel =>
    split at h
    · cases h; exact .inl ⟨_, rfl⟩
    · obtain ⟨⟨g, ret⟩, hup, h⟩ := Option.bind_eq_some_iff.mp h
      cases h
      exact .inr ⟨g, ret, by simpa using hrel, hup, rfl⟩

/-- The request `UpdateMismatchAsUnchanged` of the processor. -/
def updateMismatchAsUnchanged (k : K) (v : Nat) (epoch : VersionEpoch)
    (storage : StorageType) (previous : Mismatch K V) :
    Option (CoreState K V × Except CancellationReason (DiceComputedValue V)) :=
  s.updateComputed k v epoch storage previous.entry (.versionBased previous.prevVerifiedVersion)
    previous.depsToValidate

def existingGraphKeys : List K := s.graph.nodes.keys

/-- `CoreState::unstable_drop_everything`. -/
def unstableDropEverything : CoreState K V := ⟨s.versionTracker.clear, .new⟩

/-- The body of the loop of `page_out` for an occupied node; `store` may fail and may decline. -/
def pageOutNode (store : V → Option (Option Nat)) (n : OccupiedGraphNode K V) :
    Option (OccupiedGraphNode K V) :=
  match n.res with
  | .resident _ (some dataKey) => some (n.setPagedOut dataKey)
  | .resident value none => (store value).map fun dataKey => dataKey.elim n n.setPagedOut
  | .pagedOut _ => some n

/-- The loop of `page_out` over the nodes, which ends at the first failure. -/
def pageOutKeys (storage : K → V → Option (Option Nat)) (g : VersionedGraph K V) :
    List K → VersionedGraph K V
  | [] => g
  | k :: keys =>
    match g.node k with
    | some (.occupied n) =>
      match pageOutNode (storage k) n with
      | some n => pageOutKeys storage (g.setNode k (.occupied n)) keys
      | none => g
    | _ => pageOutKeys storage g keys

/-- `CoreState::page_out`; the storage is optional. -/
def pageOut : Option (K → V → Option (Option Nat)) → CoreState K V
  | some storage => { s with graph := pageOutKeys storage s.graph s.graph.nodes.keys }
  | none => s

/-- `CoreState::rehydrate`. -/
def rehydrate (k : K) (value : V) : CoreState K V :=
  match s.graph.node k with
  | some (.occupied n) => { s with graph := s.graph.setNode k (.occupied (n.rehydrate value)) }
  | _ => s

end CoreState

end Bz.Dice
