import Bz.Dice.Deps.Encoding

/-!
# Recorded dependencies as a series-parallel graph

Model of `SeriesParallelDeps` and `SPDepsMany` (`dice/src/impls/deps/graph.rs`) and of the part of
`RecordedDeps` that builds them (`dice/src/impls/deps.rs`): keys are appended in series, and a
parallel block appends the series that its branches recorded.  The graph is flattened into a key
vector and a vector of words; the keys behind the last parallel node are left implicit.

What a computation records is a `Series`: keys and parallel blocks in order, each block a list of
series.  `none` is a failed assertion or conversion.

Principal results: `recordSeries_eq`: if every count fits, recording gives the recorded keys and
`seriesWords`.
-/

namespace Bz.Dice

open List Option

variable {K : Type} {ws : List Nat}

/-- Keys and the words that nest them. -/
structure SPDepsMany (K : Type) where
  deps : List K
  spec : List Nat
  trailingDepsStart : Nat
  deriving DecidableEq, Repr

/-- The deps of a computation. -/
inductive SeriesParallelDeps (K : Type) where
  | none
  | one (k : K)
  | many (m : SPDepsMany K)
  deriving DecidableEq, Repr

/-- Conversion to `u32` followed by `unwrap`. -/
def toU32 (n : Nat) : Option Nat := if n < 2 ^ 32 then some n else none

def SPDepsMany.new : SPDepsMany K := ⟨[], [], 0⟩

def SPDepsMany.push (m : SPDepsMany K) (k : K) : SPDepsMany K := { m with deps := m.deps ++ [k] }

namespace SeriesParallelDeps

def upgradeToMany : SeriesParallelDeps K → SPDepsMany K
  | .none => SPDepsMany.new
  | .one k => SPDepsMany.new.push k
  | .many m => m

def insert (d : SeriesParallelDeps K) (k : K) : SeriesParallelDeps K :=
  match d with
  | .none => .one k
  | .one _ => .many (d.upgradeToMany.push k)
  | .many m => .many (m.push k)

def header : SeriesParallelDeps K → Option SPSeriesHeader
  | .none => some (.simple 0)
  | .one _ => some (.simple 1)
  | .many m => do
    let keyCount ← toU32 m.deps.length
    if m.spec.isEmpty then some (.simple keyCount)
    else
      let specCount ← toU32 m.spec.length
      some (.complex keyCount specCount)

def iterKeys : SeriesParallelDeps K → List K
  | .none => []
  | .one k => [k]
  | .many m => m.deps

/-- The encoded part of the graph. -/
def spec : SeriesParallelDeps K → List Nat
  | .none => []
  | .one _ => []
  | .many m => m.spec

end SeriesParallelDeps

/-- The loop of `SPDepsMany::insert_parallel` over the branches. -/
def insertBranches (deps : List K) (spec : List Nat) :
    List (SeriesParallelDeps K) → Option (List K × List Nat)
  | [] => some (deps, spec)
  | d :: ds => do
    let spec ← writeSeriesHeader spec (← d.header)
    insertBranches (deps ++ d.iterKeys) (spec ++ d.spec) ds

/-- The trailing keys get an item of their own, unless there are none. -/
def writeRun (spec : List Nat) (n : Nat) : Option (List Nat) :=
  if n = 0 then some spec else writeItem spec (.keys n)

def SPDepsMany.insertParallel (m : SPDepsMany K) (parallel : List (SeriesParallelDeps K))
    (newKeys newSpecs : Nat) : Option (SPDepsMany K) := do
  let trailing ← toU32 (m.deps.length - m.trailingDepsStart)
  let parallelItem := SPItem.parallel newKeys newSpecs
  let trailingLen := if trailing = 0 then 0 else (SPItem.keys trailing).encodedLen
  let totalNewSpecs := newSpecs + trailingLen + parallelItem.encodedLen
  let spec ← writeRun m.spec trailing
  let spec ← writeItem spec parallelItem
  let (deps, spec) ← insertBranches m.deps spec parallel
  -- `assert_eq!` on the length announced in the headers
  if spec.length = m.spec.length + totalNewSpecs then
    let trailingDepsStart ← toU32 deps.length
    some ⟨deps, spec, trailingDepsStart⟩
  else none

/-- The loop of `RecordedDeps::insert_parallel` that adds up the header lengths, in `u32`. -/
def headerSums (newKeys newSpecs : Nat) : List (SeriesParallelDeps K) → Option (Nat × Nat)
  | [] => some (newKeys, newSpecs)
  | d :: ds => do
    let header ← d.header
    let newKeys ← toU32 (newKeys + header.keysLen)
    let newSpecs ← toU32 (newSpecs + header.encodedLen)
    headerSums newKeys newSpecs ds

def SeriesParallelDeps.insertParallel (d : SeriesParallelDeps K)
    (parallel : List (SeriesParallelDeps K)) : Option (SeriesParallelDeps K) := do
  let (newKeys, newSpecs) ← headerSums 0 0 parallel
  if newKeys = 0 then some d
  else
    let m ← d.upgradeToMany.insertParallel parallel newKeys newSpecs
    some (.many m)

/-! ## What a computation records -/

mutual

/-- A series of recorded keys and parallel blocks. -/
inductive Series (K : Type) where
  | nil
  | key (k : K) (rest : Series K)
  | block (p : Parallel K) (rest : Series K)

/-- The series recorded by the branches of a parallel block. -/
inductive Parallel (K : Type) where
  | nil
  | cons (s : Series K) (rest : Parallel K)

end

mutual

/-- The calls to `record` and `insert_parallel` for the rest of a series. -/
def recordSeries (d : SeriesParallelDeps K) : Series K → Option (SeriesParallelDeps K)
  | .nil => some d
  | .key k rest => recordSeries (d.insert k) rest
  | .block p rest => do
    let parallel ← recordParallel p
    let d ← d.insertParallel parallel
    recordSeries d rest

/-- Each branch records into its own `RecordedDeps::new`. -/
def recordParallel : Parallel K → Option (List (SeriesParallelDeps K))
  | .nil => some []
  | .cons s rest => do
    let d ← recordSeries .none s
    let ds ← recordParallel rest
    some (d :: ds)

end

mutual

/-- The recorded keys, in order. -/
def Series.keys : Series K → List K
  | .nil => []
  | .key k rest => k :: rest.keys
  | .block p rest => p.keys ++ rest.keys

def Parallel.keys : Parallel K → List K
  | .nil => []
  | .cons s rest => s.keys ++ rest.keys

end

mutual

/-- The recorded tree without the parallel blocks that hold no key. -/
def Series.prune : Series K → Series K
  | .nil => .nil
  | .key k rest => .key k rest.prune
  | .block p rest => if p.keys.isEmpty then rest.prune else .block p.prune rest.prune

def Parallel.prune : Parallel K → Parallel K
  | .nil => .nil
  | .cons s rest => .cons s.prune rest.prune

end

/-! ## The words of a recorded series -/

/-- The header of a series with these keys and words. -/
def seriesHeader (keyCount : Nat) (words : List Nat) : SPSeriesHeader :=
  if words.isEmpty then .simple keyCount else .complex keyCount words.length

/-- The words of a run of `n` keys in front of a parallel node. -/
def runWords (n : Nat) : List Nat := if n = 0 then [] else itemWords (.keys n)

mutual

/-- The words of a series, behind `n` keys that no word covers yet. -/
def seriesWords (n : Nat) : Series K → List Nat
  | .nil => []
  | .key _ rest => seriesWords (n + 1) rest
  | .block p rest =>
    if p.keys.isEmpty then seriesWords n rest
    else runWords n ++ itemWords (.parallel p.keys.length (parallelWords p).length) ++
      parallelWords p ++ seriesWords 0 rest

def parallelWords : Parallel K → List Nat
  | .nil => []
  | .cons s rest =>
    headerWords (seriesHeader s.keys.length (seriesWords 0 s)) ++ seriesWords 0 s ++
      parallelWords rest

end

mutual

/-- Every key count and spec count that the encoding of the series writes is below `2 ^ 28`. -/
def Series.CountsFit (n : Nat) : Series K → Prop
  | .nil => True
  | .key _ rest => rest.CountsFit (n + 1)
  | .block p rest =>
    p.keys.length < 2 ^ 28 ∧ (parallelWords p).length < 2 ^ 28 ∧ p.CountsFit ∧
      if p.keys.isEmpty then rest.CountsFit n else n < 2 ^ 28 ∧ rest.CountsFit 0

def Parallel.CountsFit : Parallel K → Prop
  | .nil => True
  | .cons s rest => s.CountsFit 0 ∧ rest.CountsFit

end

/-! ## Recording writes these words -/

namespace SeriesParallelDeps

/-- The keys that no word covers yet. -/
def trailing : SeriesParallelDeps K → Nat
  | .none => 0
  | .one _ => 1
  | .many m => m.deps.length - m.trailingDepsStart

/-- The trailing keys begin inside the key vector. -/
def WF : SeriesParallelDeps K → Prop
  | .none => True
  | .one _ => True
  | .many m => m.trailingDepsStart ≤ m.deps.length

theorem insert_spec (d : SeriesParallelDeps K) (k : K) (h : d.WF) :
    (d.insert k).iterKeys = d.iterKeys ++ [k] ∧ (d.insert k).spec = d.spec ∧
      (d.insert k).trailing = d.trailing + 1 ∧ (d.insert k).WF := by
  cases d with
  | none => exact ⟨rfl, rfl, rfl, trivial⟩
  | one k' => exact ⟨rfl, rfl, rfl, Nat.zero_le _⟩
  | many m =>
    have hle : m.trailingDepsStart ≤ m.deps.length := h
    refine ⟨rfl, rfl, ?_, ?_⟩
    · simp only [insert, trailing, SPDepsMany.push, length_append, length_singleton]
      omega
    · simp only [insert, WF, SPDepsMany.push, length_append]
      omega

theorem upgradeToMany_spec (d : SeriesParallelDeps K) (h : d.WF) :
    d.upgradeToMany.deps = d.iterKeys ∧ d.upgradeToMany.spec = d.spec ∧
      d.upgradeToMany.deps.length - d.upgradeToMany.trailingDepsStart = d.trailing := by
  cases d <;> exact ⟨rfl, rfl, rfl⟩

theorem header_eq {d : SeriesParallelDeps K} (hk : d.iterKeys.length < 2 ^ 28)
    (hs : d.spec.length < 2 ^ 28) : d.header = some (seriesHeader d.iterKeys.length d.spec) := by
  cases d with
  | none | one k => rfl
  | many m =>
    have h1 : toU32 m.deps.length = some m.deps.length := by
      simp only [iterKeys] at hk
      exact if_pos (by omega)
    have h2 : toU32 m.spec.length = some m.spec.length := by
      simp only [spec] at hs
      exact if_pos (by omega)
    by_cases he : m.spec.isEmpty <;> simp [header, h1, h2, seriesHeader, iterKeys, spec, he]

end SeriesParallelDeps

theorem seriesHeader_fits {n : Nat} (hn : n < 2 ^ 28) (hw : ws.length < 2 ^ 28) :
    (seriesHeader n ws).Fits := by
  unfold seriesHeader
  split
  · exact hn
  · exact ⟨hn, hw⟩

@[simp] theorem seriesHeader_keysLen (n : Nat) (ws : List Nat) :
    (seriesHeader n ws).keysLen = n := by
  unfold seriesHeader; split <;> rfl

/-- The announced length of a header covers the header and the words of its series. -/
theorem seriesHeader_encodedLen (n : Nat) (ws : List Nat) :
    (seriesHeader n ws).encodedLen = (headerWords (seriesHeader n ws)).length + ws.length := by
  unfold seriesHeader
  split
  · next h => simp [SPSeriesHeader.encodedLen, headerWords, List.isEmpty_iff.mp h]
  · simp [SPSeriesHeader.encodedLen, headerWords]

theorem writeRun_eq {n : Nat} (h : n < 2 ^ 28) (spec : List Nat) :
    writeRun spec n = some (spec ++ runWords n) := by
  have hfits : (SPItem.keys n).Fits := h
  unfold writeRun runWords
  split
  · simp
  · exact writeItem_eq hfits spec

theorem insertParallel_eq {d : SeriesParallelDeps K} {ds : List (SeriesParallelDeps K)}
    {ks : List K} (hwf : d.WF) (hne : ks ≠ []) (hk : ks.length < 2 ^ 28)
    (hw : ws.length < 2 ^ 28) (ht : d.trailing < 2 ^ 28)
    (hlen : d.iterKeys.length + ks.length < 2 ^ 32)
    (hsums : headerSums 0 0 ds = some (ks.length, ws.length))
    (hins : ∀ deps spec, insertBranches deps spec ds = some (deps ++ ks, spec ++ ws)) :
    ∃ d', d.insertParallel ds = some d' ∧ d'.iterKeys = d.iterKeys ++ ks ∧
      d'.spec = d.spec ++ (runWords d.trailing ++ itemWords (.parallel ks.length ws.length) ++ ws) ∧
      d'.trailing = 0 ∧ d'.WF := by
  obtain ⟨hdeps, hspec, htrail⟩ := d.upgradeToMany_spec hwf
  have hklen : ks.length ≠ 0 := by simpa using hne
  have hpar : (SPItem.parallel ks.length ws.length).Fits := ⟨hk, hw⟩
  have h1 : toU32 (d.upgradeToMany.deps.length - d.upgradeToMany.trailingDepsStart) =
      some d.trailing := by
    rw [htrail]; exact if_pos (by omega)
  have h2 : toU32 (d.iterKeys ++ ks).length = some (d.iterKeys ++ ks).length :=
    if_pos (by simpa using hlen)
  refine ⟨.many ⟨d.iterKeys ++ ks, d.spec ++ (runWords d.trailing ++
    itemWords (.parallel ks.length ws.length) ++ ws), (d.iterKeys ++ ks).length⟩, ?_, rfl, rfl,
    ?_, ?_⟩
  · simp only [SeriesParallelDeps.insertParallel, hsums, bind_eq_bind, bind_some,
      hklen, if_false, SPDepsMany.insertParallel, h1, writeRun_eq ht, writeItem_eq hpar, hins]
    rw [hdeps, hspec, if_pos, h2]
    · simp
    · have hrun : (runWords d.trailing).length =
          if d.trailing = 0 then 0 else (SPItem.keys d.trailing).encodedLen := by
        unfold runWords
        split <;> rfl
      simp only [length_append, SPItem.encodedLen, itemWords, length_cons, length_nil] at hrun ⊢
      omega
  · simp [SeriesParallelDeps.trailing]
  · exact Nat.le_refl _

theorem seriesWords_le_parallelWords (s : Series K) (rest : Parallel K) :
    (seriesWords 0 s).length ≤ (parallelWords (.cons s rest)).length := by
  simp only [parallelWords, length_append]
  omega

mutual

/-- **Recording a series succeeds**, appends its keys and its words. -/
theorem recordSeries_eq : ∀ (s : Series K) (d : SeriesParallelDeps K), d.WF →
    s.CountsFit d.trailing → d.iterKeys.length + s.keys.length < 2 ^ 32 →
    ∃ d', recordSeries d s = some d' ∧ d'.iterKeys = d.iterKeys ++ s.keys ∧
      d'.spec = d.spec ++ seriesWords d.trailing s
  | .nil, d, _, _, _ => ⟨d, rfl, by simp [Series.keys], by simp [seriesWords]⟩
  | .key k rest, d, hwf, hfit, hlen => by
    obtain ⟨h1, h2, h3, h4⟩ := d.insert_spec k hwf
    obtain ⟨d', hd, hk, hs⟩ := recordSeries_eq rest (d.insert k) h4
      (by rw [h3]; exact hfit) (by simp [h1, Series.keys] at hlen ⊢; omega)
    refine ⟨d', hd, ?_, ?_⟩
    · rw [hk, h1]; simp [Series.keys]
    · rw [hs, h2, h3]; rfl
  | .block p rest, d, hwf, hfit, hlen => by
    obtain ⟨hpk, hpw, hpf, hrest⟩ := hfit
    obtain ⟨ds, hds, hsums, hins⟩ := recordParallel_eq p hpf hpk hpw
    have hsums' := hsums 0 0 (by omega) (by omega)
    rw [Nat.zero_add, Nat.zero_add] at hsums'
    by_cases he : p.keys = []
    · -- a block without keys is not inserted
      simp only [he, isEmpty_nil, if_true] at hrest
      have hskip : d.insertParallel ds = some d := by
        simp [SeriesParallelDeps.insertParallel, hsums', he]
      obtain ⟨d', hd, hk, hs⟩ := recordSeries_eq rest d hwf hrest
        (by simpa [Series.keys, he] using hlen)
      refine ⟨d', ?_, ?_, ?_⟩
      · simp [recordSeries, hds, hskip, hd]
      · rw [hk]; simp [Series.keys, he]
      · rw [hs]; simp [seriesWords, he]
    · have hie : p.keys.isEmpty = false := by simpa using he
      simp only [hie, Bool.false_eq_true, if_false] at hrest
      simp only [Series.keys, length_append] at hlen
      obtain ⟨d', hd, hk, hs, ht, hw⟩ := insertParallel_eq hwf he hpk hpw hrest.1
        (by omega) hsums' hins
      obtain ⟨d'', hd', hk', hs'⟩ := recordSeries_eq rest d' hw (by rw [ht]; exact hrest.2)
        (by rw [hk, length_append]; omega)
      refine ⟨d'', ?_, ?_, ?_⟩
      · simp [recordSeries, hds, hd, hd']
      · rw [hk', hk]; simp [Series.keys]
      · rw [hs', hs, ht]; simp [seriesWords, hie]

theorem recordParallel_eq : ∀ p : Parallel K, p.CountsFit → p.keys.length < 2 ^ 28 →
    (parallelWords p).length < 2 ^ 28 →
    ∃ ds, recordParallel p = some ds ∧
      (∀ a b, a + p.keys.length < 2 ^ 32 → b + (parallelWords p).length < 2 ^ 32 →
        headerSums a b ds = some (a + p.keys.length, b + (parallelWords p).length)) ∧
      ∀ deps spec, insertBranches deps spec ds = some (deps ++ p.keys, spec ++ parallelWords p)
  | .nil, _, _, _ =>
    ⟨[], rfl, by simp [headerSums, Parallel.keys, parallelWords],
      by simp [insertBranches, Parallel.keys, parallelWords]⟩
  | .cons s rest, hfit, hk, hw => by
    obtain ⟨hsf, hrf⟩ := hfit
    have hsw := seriesWords_le_parallelWords s rest
    simp only [Parallel.keys, length_append] at hk
    obtain ⟨d, hd, hdk, hds⟩ := recordSeries_eq s .none trivial hsf
      (by simp [SeriesParallelDeps.iterKeys]; omega)
    replace hdk : d.iterKeys = s.keys := hdk
    replace hds : d.spec = seriesWords 0 s := hds
    have hrw : (parallelWords rest).length ≤ (parallelWords (.cons s rest)).length := by
      simp only [parallelWords, length_append]; omega
    obtain ⟨ds, hrec, hsums, hins⟩ := recordParallel_eq rest hrf (by omega) (by omega)
    have hheader : d.header = some (seriesHeader s.keys.length (seriesWords 0 s)) := by
      rw [SeriesParallelDeps.header_eq (by rw [hdk]; omega) (by rw [hds]; omega), hdk, hds]
    refine ⟨d :: ds, by simp [recordParallel, hd, hrec], fun a b ha hb => ?_, fun deps spec => ?_⟩
    · have henc := seriesHeader_encodedLen s.keys.length (seriesWords 0 s)
      simp only [Parallel.keys, parallelWords, length_append] at ha hb ⊢
      have h1 : toU32 (a + s.keys.length) = some (a + s.keys.length) := if_pos (by omega)
      have h2 : toU32 (b + (seriesHeader s.keys.length (seriesWords 0 s)).encodedLen) =
          some (b + (seriesHeader s.keys.length (seriesWords 0 s)).encodedLen) :=
        if_pos (by omega)
      simp only [headerSums, hheader, bind_eq_bind, bind_some, seriesHeader_keysLen, h1, h2]
      rw [hsums _ _ (by omega) (by omega), henc]
      simp only [Nat.add_assoc]
    · have hfits := seriesHeader_fits (n := s.keys.length) (by omega)
        (show (seriesWords 0 s).length < 2 ^ 28 by omega)
      simp only [insertBranches, hheader, bind_eq_bind, bind_some,
        writeSeriesHeader_eq hfits, hins, hdk, hds]
      simp [Parallel.keys, parallelWords]

end

end Bz.Dice
