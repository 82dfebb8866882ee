import Bz.Dice.Deps.Graph

/-!
# Iterating recorded dependencies

Model of `SeriesNodeIterator` and `ParallelNodeIterator` (`dice/src/impls/deps/iterator.rs`).  Every
`unwrap`, `split_at` past the end and `u32` underflow is `none`.  `collectSeries` drives an iterator
and the iterators of its parallel nodes to their ends.

Principal result: `iterate_recorded`: iterating gives back what was recorded, without the parallel
blocks that hold no key.
-/

namespace Bz.Dice

open Series List

variable {K : Type}

/-- `SeriesNodeIterator`, with the slices of its `IteratorData`. -/
structure SeriesNodeIterator (K : Type) where
  deps : List K
  specs : List Nat
  keysToNextSpec : Nat

/-- The branches of a parallel node. -/
structure ParallelNodeIterator (K : Type) where
  deps : List K
  specs : List Nat

/-- `SeriesParallelDepsIteratorItem`. -/
inductive IteratorItem (K : Type) where
  | key (k : K)
  | parallel (it : ParallelNodeIterator K)

/-- `slice::split_at`, which panics past the end. -/
def splitAtChecked {α : Type} (l : List α) (n : Nat) : Option (List α × List α) :=
  if n ≤ l.length then some (l.take n, l.drop n) else none

/-- `IteratorData::split_at`: the slices split off, then the remaining ones. -/
def splitData (deps : List K) (specs : List Nat) (keyCount specCount : Nat) :
    Option ((List K × List Nat) × (List K × List Nat)) := do
  let (splitKeys, deps) ← splitAtChecked deps keyCount
  let (splitSpecs, specs) ← splitAtChecked specs specCount
  some ((splitKeys, splitSpecs), (deps, specs))

namespace SeriesNodeIterator

def new (deps : List K) (specs : List Nat) : SeriesNodeIterator K := ⟨deps, specs, 0⟩

/-- The end of `next`: one key of the current run. -/
def nextKey (it : SeriesNodeIterator K) :
    Option (Option (IteratorItem K × SeriesNodeIterator K)) :=
  if it.keysToNextSpec = 0 then none
  else match it.deps with
    | [] => some none
    | k :: deps => some (some (.key k, ⟨deps, it.specs, it.keysToNextSpec - 1⟩))

def next (it : SeriesNodeIterator K) :
    Option (Option (IteratorItem K × SeriesNodeIterator K)) :=
  if it.keysToNextSpec = 0 then
    match readItem it.specs with
    | some (some (.keys keyCount), specs) => nextKey ⟨it.deps, specs, keyCount⟩
    | some (some (.parallel keyCount specCount), specs) =>
      match splitData it.deps specs keyCount specCount with
      | some ((splitKeys, splitSpecs), (deps, specs)) =>
        some (some (.parallel ⟨splitKeys, splitSpecs⟩, ⟨deps, specs, 0⟩))
      | none => none
    -- drain the trailing keys
    | some (none, specs) => nextKey ⟨it.deps, specs, 2 ^ 32 - 1⟩
    | none => none
  else nextKey it

end SeriesNodeIterator

/-- The keys and specs of the series behind a header. -/
def headerSlice : SPSeriesHeader → Nat × Nat
  | .complex keyCount specCount => (keyCount, specCount)
  | .simple keyCount => (keyCount, 0)

def ParallelNodeIterator.next (it : ParallelNodeIterator K) :
    Option (Option (SeriesNodeIterator K × ParallelNodeIterator K)) := do
  match ← readSeriesHeader it.specs with
  | (none, _) => some none
  | (some header, specs) =>
    let (keyCount, specCount) := headerSlice header
    let ((splitKeys, splitSpecs), (deps, specs)) ← splitData it.deps specs keyCount specCount
    some (some (⟨splitKeys, splitSpecs, 0⟩, ⟨deps, specs⟩))

mutual

/-- The tree an iterator yields, with fuel for its depth and length. -/
def collectSeries : Nat → SeriesNodeIterator K → Option (Series K)
  | 0, _ => none
  | fuel + 1, it => do
    match ← it.next with
    | none => some .nil
    | some (.key k, it) => do
      let rest ← collectSeries fuel it
      some (.key k rest)
    | some (.parallel p, it) => do
      let p ← collectParallel fuel p
      let rest ← collectSeries fuel it
      some (.block p rest)

def collectParallel : Nat → ParallelNodeIterator K → Option (Parallel K)
  | 0, _ => none
  | fuel + 1, it => do
    match ← it.next with
    | none => some .nil
    | some (s, it) => do
      let s ← collectSeries fuel s
      let rest ← collectParallel fuel it
      some (.cons s rest)

end

/-- `SeriesParallelDeps::iter`. -/
def SeriesParallelDeps.iterate (d : SeriesParallelDeps K) (fuel : Nat) : Option (Series K) :=
  match d with
  | .none => some .nil
  | .one k => some (.key k .nil)
  | .many m => collectSeries fuel (SeriesNodeIterator.new m.deps m.spec)

/-! ## The words from the point of view of the iterator -/

namespace Series

/-- Some parallel block with a key follows. -/
def hasBlock : Series K → Bool
  | .nil => false
  | .key _ rest => rest.hasBlock
  | .block p rest => if p.keys.isEmpty then rest.hasBlock else true

/-- The number of keys in front of the next block with a key. -/
def runLen : Series K → Nat
  | .nil => 0
  | .key _ rest => rest.runLen + 1
  | .block p rest => if p.keys.isEmpty then rest.runLen else 0

/-- The words from the next block on. -/
def blockWords : Series K → List Nat
  | .nil => []
  | .key _ rest => rest.blockWords
  | .block p rest =>
    if p.keys.isEmpty then rest.blockWords
    else itemWords (.parallel p.keys.length (parallelWords p).length) ++
      (parallelWords p ++ seriesWords 0 rest)

theorem seriesWords_eq : ∀ (s : Series K) (n : Nat),
    seriesWords n s = if s.hasBlock then runWords (n + s.runLen) ++ s.blockWords else []
  | .nil, n => by simp [seriesWords, hasBlock]
  | .key k rest, n => by
    rw [seriesWords, seriesWords_eq rest (n + 1), hasBlock, runLen, blockWords]
    rw [show n + 1 + rest.runLen = n + (rest.runLen + 1) by omega]
  | .block p rest, n => by
    by_cases he : p.keys.isEmpty
    · simp only [seriesWords, hasBlock, runLen, blockWords, he, if_true]
      exact seriesWords_eq rest n
    · simp [seriesWords, hasBlock, runLen, blockWords, he]

theorem runLen_lt : ∀ (s : Series K) (n : Nat), s.CountsFit n → s.hasBlock →
    n + s.runLen < 2 ^ 28
  | .nil, _, _, h => by simp [hasBlock] at h
  | .key k rest, n, hfit, h => by
    have := runLen_lt rest (n + 1) hfit h
    simp only [runLen]
    omega
  | .block p rest, n, hfit, h => by
    obtain ⟨-, -, -, hrest⟩ := hfit
    by_cases he : p.keys.isEmpty
    · simp only [he, if_true] at hrest
      simp only [hasBlock, he, if_true] at h
      simpa [runLen, he] using runLen_lt rest n hrest h
    · simp only [he, Bool.false_eq_true, if_false] at hrest
      simpa [runLen, he] using hrest.1

end Series

/-- The iterator stands in front of the series `s`: either inside the run of keys before its next
block, or behind the last word. -/
structure AtSeries (s : Series K) (it : SeriesNodeIterator K) : Prop where
  deps : it.deps = s.keys
  block : s.hasBlock = true → it.keysToNextSpec = s.runLen ∧ it.specs = s.blockWords
  noBlock : s.hasBlock = false → it.specs = []

/-! ## Steps of the iterators -/

variable {it : SeriesNodeIterator K} {rest : Series K} {p : Parallel K}

theorem collectSeries_congr {it' : SeriesNodeIterator K} (h : it.next = it'.next) (fuel : Nat) :
    collectSeries fuel it = collectSeries fuel it' := by
  cases fuel with
  | zero => rfl
  | succ fuel => simp only [collectSeries, h]

theorem splitData_append (ks deps : List K) (ws specs : List Nat) :
    splitData (ks ++ deps) (ws ++ specs) ks.length ws.length = some ((ks, ws), (deps, specs)) := by
  simp [splitData, splitAtChecked]

/-- Behind the last word, or inside a run, the next key of the series is yielded. -/
theorem AtSeries.next_key {k : K} (h : AtSeries (.key k rest) it) :
    ∃ it', it.next = some (some (.key k, it')) ∧ AtSeries rest it' := by
  obtain ⟨deps, specs, n⟩ := it
  obtain ⟨hd, hb, hn⟩ := h
  simp only [Series.keys] at hd
  subst hd
  cases hbl : rest.hasBlock with
  | true =>
    obtain ⟨h1, h2⟩ := hb hbl
    simp only [runLen, blockWords] at h1 h2
    subst h1 h2
    exact ⟨⟨rest.keys, rest.blockWords, rest.runLen⟩, rfl, rfl, fun _ => ⟨rfl, rfl⟩, by simp [hbl]⟩
  | false =>
    have h2 : specs = [] := hn hbl
    subst h2
    have hat : ∀ m, AtSeries rest ⟨rest.keys, [], m⟩ := fun m =>
      ⟨rfl, by simp [hbl], fun _ => rfl⟩
    cases n with
    | zero | succ n => exact ⟨_, rfl, hat _⟩

theorem AtSeries.next_nil (h : AtSeries .nil it) : it.next = some none := by
  obtain ⟨deps, specs, n⟩ := it
  obtain ⟨hd, -, hn⟩ := h
  have h1 : deps = [] := hd
  have h2 : specs = [] := hn rfl
  subst h1 h2
  cases n <;> rfl

theorem AtSeries.next_block (h : AtSeries (.block p rest) it)
    (hne : p.keys.isEmpty = false) (hk : p.keys.length < 2 ^ 28)
    (hw : (parallelWords p).length < 2 ^ 28) :
    it.next = some (some (.parallel ⟨p.keys, parallelWords p⟩,
      SeriesNodeIterator.new rest.keys (seriesWords 0 rest))) := by
  obtain ⟨deps, specs, n⟩ := it
  obtain ⟨hd, hb, -⟩ := h
  obtain ⟨h1, h2⟩ := hb (by simp [hasBlock, hne])
  simp only [runLen, blockWords, hne, Bool.false_eq_true, if_false, Series.keys] at hd h1 h2
  subst hd h1 h2
  have hfits : (SPItem.parallel p.keys.length (parallelWords p).length).Fits := ⟨hk, hw⟩
  simp only [SeriesNodeIterator.next, if_true, readItem_itemWords hfits, splitData_append,
    SeriesNodeIterator.new]

theorem AtSeries.of_empty_block (h : AtSeries (.block p rest) it)
    (he : p.keys.isEmpty) : AtSeries rest it := by
  obtain ⟨hd, hb, hn⟩ := h
  simp only [hasBlock, runLen, blockWords, he, if_true] at hb hn
  refine ⟨?_, hb, hn⟩
  rw [hd, Series.keys, List.isEmpty_iff.mp he, nil_append]

/-- A fresh iterator behaves like one that stands in front of the series. -/
theorem exists_atSeries_new (s : Series K) (hfit : s.CountsFit 0) :
    ∃ it, AtSeries s it ∧ (SeriesNodeIterator.new s.keys (seriesWords 0 s)).next = it.next := by
  cases hb : s.hasBlock with
  | false =>
    refine ⟨⟨s.keys, [], 0⟩, ⟨rfl, by simp [hb], fun _ => rfl⟩, ?_⟩
    rw [seriesWords_eq, hb]
    rfl
  | true =>
    refine ⟨⟨s.keys, s.blockWords, s.runLen⟩, ⟨rfl, fun _ => ⟨rfl, rfl⟩, by simp [hb]⟩, ?_⟩
    rw [seriesWords_eq, hb, Nat.zero_add, if_pos rfl]
    have hlt := s.runLen_lt 0 hfit hb
    by_cases hz : s.runLen = 0
    · simp [hz, runWords, SeriesNodeIterator.new]
    · -- the word of the run sets the counter that the other iterator already has
      have hfits : (SPItem.keys s.runLen).Fits := by simpa [SPItem.Fits] using hlt
      simp only [SeriesNodeIterator.next, SeriesNodeIterator.new, if_true, runWords, hz, if_false,
        readItem_itemWords hfits]

theorem headerSlice_seriesHeader (n : Nat) (ws : List Nat) :
    headerSlice (seriesHeader n ws) = (n, ws.length) := by
  unfold seriesHeader
  split
  · next h => simp [headerSlice, List.isEmpty_iff.mp h]
  · rfl

theorem ParallelNodeIterator.next_cons {s : Series K} {rest : Parallel K}
    (hk : s.keys.length < 2 ^ 28) (hw : (seriesWords 0 s).length < 2 ^ 28) :
    (⟨(Parallel.cons s rest).keys, parallelWords (.cons s rest)⟩ : ParallelNodeIterator K).next =
      some (some (SeriesNodeIterator.new s.keys (seriesWords 0 s),
        ⟨rest.keys, parallelWords rest⟩)) := by
  simp only [ParallelNodeIterator.next, parallelWords, Parallel.keys, append_assoc,
    readSeriesHeader_headerWords (seriesHeader_fits hk hw), Option.bind_eq_bind, Option.bind_some,
    headerSlice_seriesHeader, splitData_append, SeriesNodeIterator.new]

/-! ## Iterating gives back the recorded tree -/

mutual

/-- Fuel for iterating a series. -/
def Series.size : Series K → Nat
  | .nil => 1
  | .key _ rest => rest.size + 1
  | .block p rest => p.size + rest.size + 1

def Parallel.size : Parallel K → Nat
  | .nil => 1
  | .cons s rest => s.size + rest.size + 1

end

mutual

theorem collectSeries_eq : ∀ (s : Series K) (n : Nat) (it : SeriesNodeIterator K) (fuel : Nat),
    s.CountsFit n → AtSeries s it → s.size ≤ fuel → collectSeries fuel it = some s.prune
  | .nil, _, it, fuel, _, hat, hf => by
    simp only [size] at hf
    obtain ⟨fuel, rfl⟩ := Nat.exists_eq_add_one.mpr (by omega : 0 < fuel)
    simp [collectSeries, hat.next_nil, prune]
  | .key k rest, n, it, fuel, hfit, hat, hf => by
    simp only [size] at hf
    obtain ⟨fuel, rfl⟩ := Nat.exists_eq_add_one.mpr (by omega : 0 < fuel)
    obtain ⟨it', hnext, hat'⟩ := hat.next_key
    have ih := collectSeries_eq rest (n + 1) it' fuel hfit hat' (by omega)
    simp [collectSeries, hnext, ih, prune]
  | .block p rest, n, it, fuel, hfit, hat, hf => by
    simp only [size] at hf
    obtain ⟨hk, hw, hpf, hrest⟩ := hfit
    cases he : p.keys.isEmpty with
    | true =>
      simp only [he, if_true] at hrest
      have ih := collectSeries_eq rest n it fuel hrest (hat.of_empty_block he) (by omega)
      simp [ih, prune, he]
    | false =>
      simp only [he, Bool.false_eq_true, if_false] at hrest
      obtain ⟨fuel, rfl⟩ := Nat.exists_eq_add_one.mpr (by omega : 0 < fuel)
      have hp := collectParallel_eq p fuel hpf hk hw (by omega)
      have hr := collectSeries_new_eq rest fuel hrest.2 (by omega)
      simp [collectSeries, hat.next_block he hk hw, hp, hr, prune, he]

theorem collectSeries_new_eq : ∀ (s : Series K) (fuel : Nat), s.CountsFit 0 → s.size ≤ fuel →
    collectSeries fuel (SeriesNodeIterator.new s.keys (seriesWords 0 s)) = some s.prune
  | s, fuel, hfit, hf => by
    obtain ⟨it, hat, hnext⟩ := exists_atSeries_new s hfit
    rw [collectSeries_congr hnext]
    exact collectSeries_eq s 0 it fuel hfit hat hf

theorem collectParallel_eq : ∀ (p : Parallel K) (fuel : Nat), p.CountsFit →
    p.keys.length < 2 ^ 28 → (parallelWords p).length < 2 ^ 28 → p.size ≤ fuel →
    collectParallel fuel ⟨p.keys, parallelWords p⟩ = some p.prune
  | .nil, fuel, _, _, _, hf => by
    simp only [Parallel.size] at hf
    obtain ⟨fuel, rfl⟩ := Nat.exists_eq_add_one.mpr (by omega : 0 < fuel)
    rfl
  | .cons s rest, fuel, hfit, hk, hw, hf => by
    obtain ⟨hsf, hrf⟩ := hfit
    simp only [Parallel.size] at hf
    obtain ⟨fuel, rfl⟩ := Nat.exists_eq_add_one.mpr (by omega : 0 < fuel)
    have hsw := seriesWords_le_parallelWords s rest
    have hrw : (parallelWords rest).length ≤ (parallelWords (.cons s rest)).length := by
      simp only [parallelWords, length_append]; omega
    have hks : s.keys.length + rest.keys.length < 2 ^ 28 := by
      simpa [Parallel.keys] using hk
    have hs := collectSeries_new_eq s fuel hsf (by omega)
    have hr := collectParallel_eq rest fuel hrf (by omega) (by omega) (by omega)
    have hnext := @ParallelNodeIterator.next_cons K s rest (by omega) (by omega)
    simp [collectParallel, hnext, hs, hr, Parallel.prune]

end

/-- The short forms `None` and `One` iterate like the vectors they stand for. -/
theorem SeriesParallelDeps.iterate_eq (d : SeriesParallelDeps K) {fuel : Nat}
    (h : d.iterKeys.length < fuel) :
    d.iterate fuel = collectSeries fuel (SeriesNodeIterator.new d.iterKeys d.spec) := by
  cases d with
  | none =>
    obtain ⟨fuel, rfl⟩ := Nat.exists_eq_succ_of_ne_zero (Nat.ne_zero_of_lt h)
    rfl
  | one k =>
    simp only [iterKeys, length_singleton] at h
    obtain ⟨fuel, rfl⟩ := Nat.exists_eq_add_of_le' (show 2 ≤ fuel by omega)
    rfl
  | many m => rfl

mutual

theorem Series.keys_length_lt_size : ∀ s : Series K, s.keys.length < s.size
  | .nil => by simp [Series.keys, Series.size]
  | .key k rest => by
    have := Series.keys_length_lt_size rest
    simp only [Series.keys, Series.size, length_cons]
    omega
  | .block p rest => by
    have h1 := Parallel.keys_length_lt_size p
    have h2 := Series.keys_length_lt_size rest
    simp only [Series.keys, Series.size, length_append]
    omega

theorem Parallel.keys_length_lt_size : ∀ p : Parallel K, p.keys.length < p.size
  | .nil => by simp [Parallel.keys, Parallel.size]
  | .cons s rest => by
    have h1 := Series.keys_length_lt_size s
    have h2 := Parallel.keys_length_lt_size rest
    simp only [Parallel.keys, Parallel.size, length_append]
    omega

end

/-- **The encoding is faithful.** Recording a series whose counts fit succeeds; iterating yields the
recorded tree without the parallel blocks that hold no key, and `iter_keys` the recorded keys. -/
theorem iterate_recorded (s : Series K) (hfit : s.CountsFit 0) (hkeys : s.keys.length < 2 ^ 32) :
    ∃ d, recordSeries .none s = some d ∧
      (∀ fuel, s.size ≤ fuel → d.iterate fuel = some s.prune) ∧ d.iterKeys = s.keys := by
  obtain ⟨d, hd, hk, hs⟩ := recordSeries_eq s .none trivial hfit
    (by simpa [SeriesParallelDeps.iterKeys] using hkeys)
  replace hk : d.iterKeys = s.keys := hk
  replace hs : d.spec = seriesWords 0 s := hs
  refine ⟨d, hd, fun fuel hf => ?_, hk⟩
  have hlt := keys_length_lt_size s
  rw [d.iterate_eq (by rw [hk]; omega), hk, hs]
  exact collectSeries_new_eq s fuel hfit hf

/-- A series with nested blocks, an empty branch and blocks without keys. -/
def nestedSeries : Series Nat :=
  .key 1 (.block (.cons (.key 2 (.block (.cons (.key 3 .nil) (.cons .nil .nil)) .nil))
    (.cons .nil (.cons (.block (.cons .nil .nil) (.key 4 .nil)) .nil)))
    (.block (.cons .nil (.cons .nil .nil)) (.key 5 .nil)))

theorem iterate_recorded_nested :
    nestedSeries.CountsFit 0 ∧ nestedSeries.keys.length < 2 ^ 32 ∧
      ∃ d, recordSeries .none nestedSeries = some d ∧
        (∀ fuel, nestedSeries.size ≤ fuel → d.iterate fuel = some nestedSeries.prune) ∧
        d.iterKeys = [1, 2, 3, 4, 5] := by
  have hfit : nestedSeries.CountsFit 0 := by
    simp [nestedSeries, Series.CountsFit, Parallel.CountsFit, Series.keys, Parallel.keys,
      parallelWords, seriesWords, seriesHeader, headerWords, itemWords, runWords]
  exact ⟨hfit, by decide, iterate_recorded nestedSeries hfit (by decide)⟩

end Bz.Dice
