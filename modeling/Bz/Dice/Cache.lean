import Bz.Dice.Graph.Nodes

/-!
# The task cache of a version

Model of `SharedCache` of `dice/src/impls/cache.rs`, shared by all computations at one activation of
a version.  Tasks are named by numbers; what is known about a task is passed to `get` as the
function `finished`, which gives the value of a task that finished successfully.

Principal results: `get_cases`, what `get` can return, and `foldl_rewind`: a rewound key has neither
a completed value nor a task.
-/

namespace Bz.Dice

open List

variable {K V : Type} [DecidableEq K]

abbrev TaskId := Nat

/-- `SharedCache`, with the fields of its `Data`. -/
structure SharedCache (K V : Type) where
  completed : AList fun _ : K => DiceComputedValue V
  storage : AList fun _ : K => TaskId
  isCancelled : Bool
  rewound : AList fun _ : K => Option (DiceComputedValue V)
  hasRewound : Bool

/-- What the cache has for a key. -/
inductive DiceTaskRef (V : Type) where
  | computed (value : DiceComputedValue V)
  | occupied (task : TaskId)
  | vacant
  | transactionCancelled

namespace SharedCache

def new : SharedCache K V := ⟨∅, ∅, false, ∅, false⟩

variable (c : SharedCache K V)

def tryGetRewound (k : K) : Option (Option (DiceComputedValue V)) :=
  if c.hasRewound then c.rewound.lookup k else none

def tryGetComputed (k : K) : Option (DiceComputedValue V) :=
  match c.tryGetRewound k with
  | some overlay => overlay
  | none => c.completed.lookup k

/-- The promotion in `SharedCache::get` of a finished task.  The assertion that the completed table
held no entry for the key may fail. -/
def promote (k : K) (result : DiceComputedValue V) : Option (SharedCache K V) :=
  if (c.tryGetRewound k).isSome then
    some { c with rewound := c.rewound.insert k (some result), storage := c.storage.erase k }
  else if (c.completed.lookup k).isNone then
    some { c with completed := c.completed.insert k result, storage := c.storage.erase k }
  else none

/-- `SharedCache::get`: the reference, and the cache after a promotion. -/
def get (finished : TaskId → Option (DiceComputedValue V)) (k : K) :
    Option (DiceTaskRef V × SharedCache K V) :=
  match c.tryGetComputed k with
  | some value => some (.computed value, c)
  | none =>
    match c.storage.lookup k with
    | some task =>
      match finished task with
      | some result => do
        let c ← c.promote k result
        some (.computed result, c)
      | none => some (if c.isCancelled then .transactionCancelled else .occupied task, c)
    | none => some (if c.isCancelled then .transactionCancelled else .vacant, c)

/-- `VacantEntry::insert`: the task spawned for a key. -/
def insertTask (k : K) (task : TaskId) : SharedCache K V :=
  { c with storage := c.storage.insert k task }

def rewind (k : K) : SharedCache K V :=
  { c with
    storage := c.storage.erase k
    rewound := c.rewound.insert k none
    hasRewound := true }

/-- Rewound keys are overlaid with nothing and have no task, the others keep their overlay and task.
-/
theorem foldl_rewind (keys : List K) (c : SharedCache K V) (l : K) :
    (l ∈ keys → (keys.foldl rewind c).tryGetRewound l = some none ∧
      (keys.foldl rewind c).storage.lookup l = none) ∧
    (l ∉ keys → (∀ o, c.tryGetRewound l = some o → (keys.foldl rewind c).tryGetRewound l = some o) ∧
      (keys.foldl rewind c).storage.lookup l = c.storage.lookup l) := by
  induction keys generalizing c with
  | nil => exact ⟨fun h => absurd h not_mem_nil, fun _ => ⟨fun _ h => h, rfl⟩⟩
  | cons k keys ih =>
    obtain ⟨ih1, ih2⟩ := ih (c.rewind k)
    refine ⟨fun hl => ?_, fun hl => ?_⟩
    · by_cases hmem : l ∈ keys
      · exact ih1 hmem
      · obtain rfl := (mem_cons.mp hl).resolve_right hmem
        obtain ⟨hover, hstore⟩ := ih2 hmem
        refine ⟨hover none (by simp [tryGetRewound, rewind]), ?_⟩
        rw [foldl_cons, hstore]
        simp [rewind]
    · obtain ⟨hlk, hmem⟩ := not_or.mp fun h => hl (mem_cons.mpr h)
      obtain ⟨hover, hstore⟩ := ih2 hmem
      refine ⟨fun o ho => hover o ?_, ?_⟩
      · unfold tryGetRewound at ho
        split at ho
        · simpa [tryGetRewound, rewind, AList.lookup_insert_ne hlk] using ho
        · cases ho
      · rw [foldl_cons, hstore]
        simp [rewind, AList.lookup_erase_ne hlk]

/-- **What `get` can return**: a value, a finished task that it promotes, or a running one. -/
theorem get_cases {c c' : SharedCache K V} {finished : TaskId → Option (DiceComputedValue V)}
    {k : K} {ref : DiceTaskRef V} (h : c.get finished k = some (ref, c')) :
    (∃ r, ref = .computed r ∧ c' = c ∧ c.tryGetComputed k = some r) ∨
    (∃ r t, ref = .computed r ∧ c.storage.lookup k = some t ∧ finished t = some r ∧
      c.promote k r = some c') ∨ (∃ t, ref = .occupied t ∧ c' = c ∧ c.storage.lookup k = some t) ∨
    (ref = .vacant ∧ c' = c) ∨ (ref = .transactionCancelled ∧ c' = c) := by
  unfold get at h
  split at h
  · next r hr =>
    cases h
    exact .inl ⟨r, rfl, rfl, hr⟩
  · split at h
    · next t ht =>
      split at h
      · next r hr =>
        obtain ⟨c1, hc1, h⟩ := Option.bind_eq_some_iff.mp h
        cases h
        exact .inr (.inl ⟨r, t, rfl, ht, hr, hc1⟩)
      · cases h
        by_cases hc : c.isCancelled = true
        · exact .inr (.inr (.inr (.inr ⟨by simp [hc], rfl⟩)))
        · exact .inr (.inr (.inl ⟨t, by simp [hc], rfl, ht⟩))
    · cases h
      by_cases hc : c.isCancelled = true
      · exact .inr (.inr (.inr (.inr ⟨by simp [hc], rfl⟩)))
      · exact .inr (.inr (.inr (.inl ⟨by simp [hc], rfl⟩)))

end SharedCache

end Bz.Dice
