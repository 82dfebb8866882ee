import Bz.Dice.Soundness.Invariant

/-!
# Reports keep the soundness invariant

A report at the current version is sound if its value was computed with the current cell of the
key from deps that the graph still answers with the values that were read.

Principal results: `Sound.report`, and `Sound.reportOk_unchanged`, which turns a successful check of
the recorded deps into such a report.
-/

namespace Bz.Dice

open VersionedGraph ForceDirtyHistory Option OccupiedGraphNode

variable {K V C : Type} [DecidableEq K] [DiceValue V]
  {R : Rules K V C} {F P : K → Prop} {c : Nat} {inputs : Nat → Inputs K V C}
  {g g' : VersionedGraph K V}

/-- A report for `k` whose value was computed from what the graph answers at `c`. -/
structure ReportOk (R : Rules K V C) (F : K → Prop) (c : Nat) (inputs : Nat → Inputs K V C)
    (g : VersionedGraph K V) (k : K) (x : V) (reusable : ValueReusable)
    (deps : SeriesParallelDeps K) (reads : List (K × V)) : Prop where
  notInput : R.isInput k = false
  calm : Calm R c inputs (g.node k) k
  replay : (R.task k ((inputs c).cell k)).replay reads = some x
  named : ∀ d, d ∈ deps.iterKeys ↔ ∃ r ∈ reads, r.1 = d
  current : ∀ r ∈ reads, ∃ versions, g.get r.1 c = .matched ⟨r.2, versions⟩
  reuse : ∀ o y, g.node k = some (.occupied o) → reusable.isReusable x deps o = true →
    o.res.asHydrated = some y → y = x ∧ ∀ d, d ∈ o.deps.iterKeys ↔ d ∈ deps.iterKeys
  frozen : F k → ∀ d ∈ deps.iterKeys, F d

/-- The versions that a report at `c` adds. -/
def Adds (g : VersionedGraph K V) (k : K) (c : Nat) (deps : List K) (u : Nat) : Prop :=
  ((∀ d ∈ deps, ∀ n, g.node d = some n → u ∈ validAt c n) ∧
    u ∈ (historyOf (g.node k)).restrictedRange c) ∨ u = c

namespace Sound

variable {d : K} {r : DiceComputedValue V} {u : Nat} (h : Sound R F P c inputs g)

include h

omit [DiceValue V] in
/-- A dep that the graph answers at `c` has the same value at the versions it is valid for. -/
theorem eval_dep (hd : g.get d c = .matched r) (hu : ∀ n, g.node d = some n → u ∈ validAt c n)
    (huc : u ≤ c) : R.Eval (inputs u) d r.value := by
  rcases get_matched hd with ⟨o, ho, hv, hx, -⟩ | ⟨o, data, ho, hdata, rfl⟩
  · have hmem := hu _ ho
    simp only [validAt, if_pos hv] at hmem
    exact h.eval_occupied ho hx hmem huc
  · have hin : R.isInput d := (h.kind d _ ho).mpr ⟨o, rfl⟩
    have hmem := hu _ ho
    simp only [validAt, hdata, map_some, getD_some] at hmem
    refine .input hin ?_
    rw [h.value d hin u huc, ho]
    have hdu : o.dataAt u = some data :=
      (InjectedGraphNode.dataIn_spec (h.ok d _ ho).1 hdata).2 hmem
    simp [valueAt, hdu]

omit [DiceValue V] in
theorem validAt_of_matched (hd : g.get d c = .matched r) (hu : c ≤ u) :
    ∀ n, g.node d = some n → u ∈ validAt c n := by
  intro n hn
  rcases get_matched hd with ⟨o, ho, hv, -, -⟩ | ⟨o, data, ho, hdata, -⟩
  · rw [ho] at hn
    cases hn
    simp only [validAt, if_pos hv]
    exact (h.ok d _ ho).1.of_unbounded (h.live d o ho hv) u hu
  · rw [ho] at hn
    cases hn
    have hok := h.ok d _ ho
    simp only [validAt, hdata, map_some, getD_some]
    have hdu : o.dataAt u = some data := by
      rw [dataAt_of_le hok.2 hu, ← dataAt_of_le hok.2 le_rfl, hdata]
    exact (InjectedGraphNode.dataIn_spec (u := u) hok.1 hdu).1

section Report

variable {k : K} {x : V} {reusable : ValueReusable} {deps : SeriesParallelDeps K}
  {reads : List (K × V)} {st : StorageType} {ret : DiceComputedValue V}
  {g1 : VersionedGraph K V} {valid : VersionRanges}

omit [DiceValue V] in
theorem noLaterOpenRange (deps : List K) : g.NoLaterOpenRange c deps := by
  intro d _
  cases hn : g.node d with
  | none => trivial
  | some n =>
    cases n with
    | injected o | vacant o => trivial
    | occupied o =>
      intro hv last hl he
      exact VersionRanges.last_begin_le hl ((h.ok d _ hn).1.of_unbounded (h.live d o hn hv))

variable (hr : ReportOk R F c inputs g k x reusable deps reads)

include hr

/-- At every version that the report adds, the value is computed from the recorded deps. -/
theorem report_recorded (huc : u ≤ c) (hu : Adds g k c deps.iterKeys u) :
    Recorded R (inputs u) k x deps.iterKeys := by
  refine ⟨reads, ?_, fun r hmem => ?_, hr.named⟩
  · rcases hu with ⟨-, hmem⟩ | rfl
    · rw [hr.calm.cell u huc hmem]
      exact hr.replay
    · exact hr.replay
  · obtain ⟨versions, hget⟩ := hr.current r hmem
    rcases hu with ⟨hvalid, -⟩ | rfl
    · exact h.eval_dep hget (hvalid r.1 ((hr.named r.1).mpr ⟨r, hmem, rfl⟩)) huc
    · exact h.eval_of_matched le_rfl hget

theorem report_open (hu : c ≤ u) : Adds g k c deps.iterKeys u := by
  refine .inl ⟨fun d hd n hn => ?_, ?_⟩
  · obtain ⟨r, hmem, rfl⟩ := (hr.named d).mp hd
    obtain ⟨versions, hget⟩ := hr.current r hmem
    exact h.validAt_of_matched hget hu n hn
  · have hle := historyOf_le fun n hn => h.ok k n hn
    refine ⟨(restrictedRange_begin_le _ c).trans hu, fun e he => ?_⟩
    have h1 := hle e (restrictedRange_end_mem he)
    have h2 := ((historyOf (g.node k)).mem_restrictedRange_self c).2 e he
    omega

theorem checksStoredDeps : ChecksStoredDeps deps.iterKeys reusable (g.node k) := by
  cases reusable with
  | equalityBased => cases g.node k <;> trivial
  | versionBased p =>
    cases hn : g.node k with
    | none => trivial
    | some n =>
      cases n with
      | injected o | vacant o => trivial
      | occupied o =>
        intro hp d hd
        obtain ⟨y, hy⟩ := h.hydrated k o hn
        exact ((hr.reuse o y hn (VersionRanges.contains_eq_true.mpr hp) hy).2 d).mp hd

/-- The node and the answer that a report leaves. -/
structure Reported (R : Rules K V C) (c : Nat) (inputs : Nat → Inputs K V C)
    (g g₁ : VersionedGraph K V) (k : K) (x : V) (deps : List K) (o' : OccupiedGraphNode K V)
    (ret : DiceComputedValue V) : Prop where
  res : o'.res.asHydrated = some x
  history : o'.dirtiedHistory = historyOf (g.node k)
  rdeps : ∀ r ∈ o'.rdeps, r ∈ rdepsAt g₁ k
  fromNow : ∀ u, c ≤ u → u ∈ o'.verifiedRanges
  verified : ∀ u ∈ o'.verifiedRanges,
    (∃ o, g.node k = some (.occupied o) ∧ u ∈ o.verifiedRanges ∧ o.res.asHydrated = some x ∧
      o'.deps = o.deps) ∨
    (Adds g k c deps u ∧ ∀ d, d ∈ o'.deps.iterKeys ↔ d ∈ deps)
  kept : ∀ o, g.node k = some (.occupied o) → c ∈ o.verifiedRanges → o.res.asHydrated = some x
  value : ret.value = x
  eval : ∀ u ∈ ret.versions, u ≤ c → R.Eval (inputs u) k x

omit h hr [DecidableEq K] [DiceValue V] in
theorem mem_of_everValidAfter {o : OccupiedGraphNode K V} (hs : o.verifiedRanges.Settled c)
    (h : o.everValidAfter c) : c ∈ o.verifiedRanges := by
  unfold everValidAfter at h
  split at h
  · next last hl =>
    split at h
    · next e he =>
      -- the last version of the last range is not before `c`
      have hmem : e - 1 ∈ o.verifiedRanges := by
        refine ⟨last, List.mem_of_getLast? hl, ?_, fun e' he' => ?_⟩
        · have := last.valid e he
          omega
        · rw [he] at he'
          cases he'
          have := last.valid e he
          omega
      have hlt : c < e := by simpa using h
      rcases Nat.eq_or_lt_of_le (show c ≤ e - 1 by omega) with heq | hlt
      · rw [heq]; exact hmem
      · exact hs (e - 1) hlt hmem c le_rfl
    · next he => exact hs.of_unbounded ⟨last, hl, he⟩ c le_rfl
  · cases h

theorem reported {n' : VersionedGraphNode K V} (hadd : RdepsAdded g k c deps.iterKeys g1)
    (hvalid : ∀ u, u ∈ valid ↔ ∀ d ∈ deps.iterKeys, ∀ n, g.node d = some n → u ∈ validAt c n)
    (hcomp : Computed c x valid reusable deps (g1.node k) n' ret) :
    ∃ o', n' = .occupied o' ∧ Reported R c inputs g g1 k x deps.iterKeys o' ret := by
  have hadds (u : Nat) : u ∈ addedRanges (historyOf (g1.node k)) c valid ↔
      Adds g k c deps.iterKeys u := by
    rw [mem_addedRanges, hvalid, hadd.history k]
    rfl
  have heval : ∀ u ≤ c, Adds g k c deps.iterKeys u → R.Eval (inputs u) k x :=
    fun u huc hu => (h.report_recorded hr huc hu).eval hr.notInput
  -- a value verified at `c` is the reported one
  have hsame : ∀ o y, g.node k = some (.occupied o) → o.res.asHydrated = some y →
      c ∈ o.verifiedRanges → y = x := fun o y ho hy hc =>
    (h.eval_occupied ho hy hc le_rfl).unique (heval c le_rfl (.inr rfl))
  have hkept : ∀ o, g.node k = some (.occupied o) → c ∈ o.verifiedRanges →
      o.res.asHydrated = some x := by
    intro o ho hc
    obtain ⟨y, hy⟩ := h.hydrated k o ho
    rw [hy, hsame o y ho hy hc]
  have hhist := hadd.history k
  generalize hprev : g1.node k = prev at hcomp
  rw [hprev] at hadds hhist
  cases hcomp with
  | store hinj hlater hranges =>
    have hmem : ∀ u, u ∈ _ ↔ _ := fun u => (hranges u).trans (hadds u)
    refine ⟨_, rfl, rfl, hhist, fun r hm => (nomatch hm), fun u hu => ?_, fun u hu => ?_, hkept,
      rfl, fun u hu huc => ?_⟩
    · exact (hmem u).mpr (h.report_open hr hu)
    · exact .inr ⟨(hmem u).mp hu, fun d => Iff.rfl⟩
    · exact heval u huc ((hmem u).mp hu)
  | @skip o1 hreuse hlater =>
    obtain ⟨o, ho, hres, hdeps, hranges, -⟩ := hadd.occupied_of hprev
    have hc : c ∈ o.verifiedRanges := by
      refine mem_of_everValidAfter (h.ok k _ ho).1 ?_
      simpa only [everValidAfter, hranges] using hlater
    refine ⟨o1, rfl, ?_, hhist, fun r hm => (mem_rdepsAt hprev).mpr hm, fun u hu => ?_,
      fun u hu => .inl ⟨o, ho, hranges ▸ hu, hkept o ho hc, hdeps⟩, hkept, rfl, fun u hu huc => ?_⟩
    · rw [hres]; exact hkept o ho hc
    · rw [hranges]
      exact (h.ok k _ ho).1.of_unbounded (h.live k o ho hc) u hu
    · exact heval u huc ((hadds u).mp hu)
  | @reuse o1 y hreuse hy =>
    obtain ⟨o, ho, hres, hdeps, hranges, -⟩ := hadd.occupied_of hprev
    obtain ⟨hf1, hf2, hf3, hf4⟩ := o1.markUnchanged_fields valid
    have hreuse' : reusable.isReusable x deps o := by
      cases reusable with
      | equalityBased => simpa only [ValueReusable.isReusable, hres, hdeps] using hreuse
      | versionBased p =>
        simpa only [ValueReusable.isReusable, isVerifiedAt, hranges] using hreuse
    obtain ⟨rfl, hset⟩ := hr.reuse o y ho hreuse' (hres ▸ hy)
    have hmem : ∀ u, u ∈ (o1.markUnchanged c valid).verifiedRanges ↔
        u ∈ o.verifiedRanges ∨ Adds g k c deps.iterKeys u := by
      intro u
      rw [mem_markUnchanged, hranges]
      exact or_congr Iff.rfl (hadds u)
    refine ⟨_, rfl, by rw [hf1]; exact hy, by rw [hf4]; exact hhist, fun r hm => ?_, fun u hu => ?_,
      fun u hu => ?_, hkept, rfl, fun u hu huc => ?_⟩
    · rw [hf3] at hm
      exact (mem_rdepsAt hprev).mpr hm
    · exact (hmem u).mpr (.inr (h.report_open hr hu))
    · rcases (hmem u).mp hu with hu | hu
      · exact .inl ⟨o, ho, hu, hres ▸ hy, hf2.trans hdeps⟩
      · refine .inr ⟨hu, fun d => ?_⟩
        rw [hf2, hdeps]
        exact hset d
    · rcases (hmem u).mp hu with hu | hu
      · exact h.eval_occupied ho (hres ▸ hy) hu huc
      · exact heval u huc hu

theorem calm_reported {o' : OccupiedGraphNode K V}
    (ho : Reported R c inputs g g1 k x deps.iterKeys o' ret) :
    Calm R c inputs (some (.occupied o')) k := by
  have hhist : historyOf (some (.occupied o')) = historyOf (g.node k) := ho.history
  refine ⟨fun u huc hu => hr.calm.cell u huc (hhist ▸ hu), fun o1 y ho1 hy p hp hpc hmem => ?_⟩
  cases ho1
  rw [ho.res] at hy
  cases hy
  rcases ho.verified p hp with ⟨o, hn, hpo, hres, hdeps⟩ | ⟨hadds, hset⟩
  · rw [hdeps]
    exact hr.calm.recorded o x hn hres p hpo hpc (hhist ▸ hmem)
  · obtain ⟨rs, h1, h2, h3⟩ := h.report_recorded hr hpc hadds
    exact ⟨rs, h1, h2, fun d => (hset d).trans (h3 d)⟩

/-! ### The graph after a report

The node of the key is replaced in a graph in which only reverse dependencies were added. -/

section After

variable {o' o : OccupiedGraphNode K V} {l : K} (hadd : RdepsAdded g k c deps.iterKeys g1)
  (ho : Reported R c inputs g g1 k x deps.iterKeys o' ret)

omit h hr

omit [DiceValue V] in
theorem node_after (hl : l ≠ k) : (g1.setNode k (.occupied o')).node l = g1.node l :=
  node_setNode_ne _ _ hl

include hadd

omit [DiceValue V] in
theorem occupied_after (hl : (g1.setNode k (.occupied o')).node l = some (.occupied o)) :
    (l = k ∧ o = o') ∨ ∃ o0, g.node l = some (.occupied o0) ∧ o.res = o0.res ∧ o.deps = o0.deps ∧
      o.verifiedRanges = o0.verifiedRanges := by
  by_cases hlk : l = k
  · subst hlk
    rw [node_setNode_self] at hl
    cases hl
    exact .inl ⟨rfl, rfl⟩
  · rw [node_after hlk] at hl
    obtain ⟨o0, ho0, hres, hdeps, hranges, -⟩ := hadd.occupied_of hl
    exact .inr ⟨o0, ho0, hres, hdeps, hranges⟩

include ho

omit [DiceValue V] in
theorem rdeps_after {r : K} (hm : r ∈ rdepsAt (g1.setNode k (.occupied o')) l) :
    r ∈ rdepsAt g l ∨ (r = k ∧ l ∈ deps.iterKeys) := by
  have hm1 : r ∈ rdepsAt g1 l := by
    by_cases hl : l = k
    · subst hl
      exact ho.rdeps r ((mem_rdepsAt (node_setNode_self g1 l (.occupied o'))).mp hm)
    · unfold rdepsAt at hm ⊢
      rwa [node_after hl] at hm
  rcases (hadd.rdeps l r).mp hm1 with hm | ⟨hk, hl, -⟩
  · exact .inl hm
  · exact .inr ⟨hk, hl⟩

omit [DiceValue V] in
theorem pushedLive_after (hlk : l ≠ k) (hl : PushedLive R F P (inputs c) g l) :
    PushedLive R F P (inputs c) (g1.setNode k (.occupied o')) l := by
  obtain ⟨hP, hs, o, y, hn, hy, hopen, hfix⟩ := hl
  obtain ⟨o1, hn1, hres, -, hranges, -⟩ := hadd.occupied_to hn
  refine ⟨hP, fun d hd => ?_, o1, y, (node_after hlk).trans hn1, ?_, ?_, hfix⟩
  · rcases rdeps_after hadd ho hd with hd | ⟨rfl, -⟩
    · exact hs d hd
    · exact absurd rfl hlk
  · rw [← hres]
    exact hy
  · rw [← hranges]
    exact hopen

omit hadd [DiceValue V] in
theorem get_after : (g1.setNode k (.occupied o')).get k c = .matched ⟨x, o'.verifiedRanges⟩ := by
  simp only [VersionedGraph.get, node_setNode_self]
  exact atVersion_of_mem (ho.fromNow c le_rfl) ho.res

include h

omit [DiceValue V] in
theorem live_after : VerifiedOpen c (g1.setNode k (.occupied o')) := by
  intro l o hl hv
  rcases occupied_after hadd hl with ⟨rfl, rfl⟩ | ⟨o0, ho0, -, -, hranges⟩
  · exact VersionRanges.unbounded_iff_cofinal.mpr fun N =>
      ⟨max N c, le_max_left _ _, ho.fromNow _ (le_max_right _ _)⟩
  · rw [hranges]
    exact h.live l o0 ho0 (hranges ▸ hv)

omit [DiceValue V] in
theorem hydrated_after (hl : (g1.setNode k (.occupied o')).node l = some (.occupied o)) :
    ∃ y, o.res.asHydrated = some y := by
  rcases occupied_after hadd hl with ⟨rfl, rfl⟩ | ⟨o0, ho0, hres, -⟩
  · exact ⟨x, ho.res⟩
  · rw [hres]
    exact h.hydrated l o0 ho0

include hr

theorem calm_after (hl : Calm R c inputs (g.node l) l) :
    Calm R c inputs ((g1.setNode k (.occupied o')).node l) l := by
  by_cases hlk : l = k
  · subst hlk
    rw [node_setNode_self]
    exact h.calm_reported hr ho
  · -- other nodes keep everything but their reverse dependencies
    rw [node_after hlk]
    have hhist := hadd.history l
    refine ⟨fun u huc hu => hl.cell u huc (hhist ▸ hu), fun o1 y ho hy p hp hpc hmem => ?_⟩
    obtain ⟨o, ho', hres, hdeps, hranges, -⟩ := hadd.occupied_of ho
    rw [hdeps]
    exact hl.recorded o y ho' (hres ▸ hy) p (hranges ▸ hp) hpc (hhist ▸ hmem)

omit ho in
theorem kind_after {n : VersionedGraphNode K V}
    (hl : (g1.setNode k (.occupied o')).node l = some n) : R.isInput l ↔ ∃ o, n = .injected o := by
  by_cases hlk : l = k
  · subst hlk
    rw [node_setNode_self] at hl
    cases hl
    simp [hr.notInput]
  · rw [node_after hlk] at hl
    obtain ⟨n0, hn0, he⟩ := hadd.node_of hl
    rw [h.kind l n0 hn0]
    cases n <;> cases n0 <;> simp [eraseRdeps] at he ⊢

omit ho in
theorem value_after (hl : R.isInput l) (hu : u ≤ c) :
    (inputs u).value l = valueAt ((g1.setNode k (.occupied o')).node l) u := by
  have hlk : l ≠ k := by
    rintro rfl
    rw [hr.notInput] at hl
    cases hl
  have hsame : valueAt (g1.node l) u = valueAt (g.node l) u :=
    hadd.eq_of_erase (f := (valueAt · u)) fun n => by cases n <;> rfl
  rw [node_after hlk, hsame]
  exact h.value l hl u hu

theorem just_after {y : V} (hl : (g1.setNode k (.occupied o')).node l = some (.occupied o))
    (hy : o.res.asHydrated = some y) (hu : u ∈ o.verifiedRanges) (huc : u ≤ c) :
    Recorded R (inputs u) l y o.deps.iterKeys ∨ Fixed R F (inputs u) l y := by
  rcases occupied_after hadd hl with ⟨rfl, rfl⟩ | ⟨o0, ho0, hres, hdeps, hranges⟩
  · rw [ho.res] at hy
    cases hy
    rcases ho.verified u hu with ⟨o0, hn, huo, hres, hdeps⟩ | ⟨hadds, hset⟩
    · rw [hdeps]
      exact h.just l o0 x hn hres u huo huc
    · obtain ⟨rs, h1, h2, h3⟩ := h.report_recorded hr huc hadds
      exact .inl ⟨rs, h1, h2, fun d => (hset d).trans (h3 d)⟩
  · rw [hdeps]
    exact h.just l o0 y ho0 (hres ▸ hy) u (hranges ▸ hu) huc

theorem keeps_after (hget : g.get l c = .matched r) :
    ∃ versions, (g1.setNode k (.occupied o')).get l c = .matched ⟨r.value, versions⟩ := by
  by_cases hlk : l = k
  · subst hlk
    rcases get_matched hget with ⟨o, hn, hv, hx, -⟩ | ⟨o, data, hn, -, -⟩
    · have hres := ho.kept o hn hv
      rw [hx] at hres
      cases hres
      exact ⟨o'.verifiedRanges, get_after ho⟩
    · have := (h.kind l _ hn).mpr ⟨o, rfl⟩
      rw [hr.notInput] at this
      cases this
  · exact ⟨r.versions, by rw [get_setNode_ne _ hlk, hadd.get, hget]⟩

end After

/-- The invariant, an answer for the reported key, and all earlier answers. -/
structure AfterReport (R : Rules K V C) (F P : K → Prop) (c : Nat) (inputs : Nat → Inputs K V C)
    (g g' : VersionedGraph K V) (k : K) (x : V) (ret : DiceComputedValue V) : Prop where
  sound : Sound R F P c inputs g'
  value : ret.value = x
  eval : ∀ u ∈ ret.versions, u ≤ c → R.Eval (inputs u) k x
  answered : ∃ versions, g'.get k c = .matched ⟨x, versions⟩
  keeps : ∀ l r, g.get l c = .matched r → ∃ versions, g'.get l c = .matched ⟨r.value, versions⟩
  calm : ∀ l, Calm R c inputs (g.node l) l → Calm R c inputs (g'.node l) l

/-- **A report keeps the invariant.** -/
theorem report (hup : g.update k c x reusable deps st = some (g', ret)) :
    AfterReport R F P c inputs g g' k x ret := by
  have hok := (update_graphOk h.ok le_rfl hup).1
  have hrd := update_rdepComplete h.ok h.rdeps (h.noLaterOpenRange _) (h.checksStoredDeps hr) hup
  obtain ⟨g1, valid, n', hadd, hvalid, hcomp, rfl⟩ := update_spec hup
  obtain ⟨o', rfl, ho⟩ := h.reported hr hadd hvalid hcomp
  have hcalm : ∀ l, Calm R c inputs (g.node l) l →
      Calm R c inputs ((g1.setNode k (.occupied o')).node l) l :=
    fun l hl => h.calm_after hr hadd ho hl
  refine ⟨⟨hok, hrd, h.live_after hadd ho, ?_, fun l n hl => h.kind_after hr hadd hl,
    fun l o hl => h.hydrated_after hadd ho hl, fun l hl u hu => h.value_after hr hadd hl hu,
    fun l o y hl hy u hu huc => h.just_after hr hadd ho hl hy hu huc, ?_⟩, ho.value, ho.eval,
    ⟨_, get_after ho⟩, fun l r hget => h.keeps_after hr hadd ho hget, hcalm⟩
  · intro d r hm hFr
    rcases rdeps_after hadd ho hm with hm | ⟨rfl, hd⟩
    · exact h.frozen d r hm hFr
    · exact hr.frozen hFr d hd
  · intro l hl
    by_cases hlk : l = k
    · exact .inl (hcalm l (hlk ▸ hr.calm))
    · exact (h.segment l hl).imp (hcalm l) (pushedLive_after hadd ho hlk)

/-! ## The two kinds of reports -/

omit h hr

/-- A value that was computed with the current cell from current answers. -/
theorem reportOk_computed (hk : R.isInput k = false) (hcalm : Calm R c inputs (g.node k) k)
    (hreplay : (R.task k ((inputs c).cell k)).replay reads = some x)
    (hnamed : ∀ d, d ∈ deps.iterKeys ↔ ∃ r ∈ reads, r.1 = d)
    (hcurrent : ∀ r ∈ reads, ∃ versions, g.get r.1 c = .matched ⟨r.2, versions⟩)
    (hF : F k → ∀ d ∈ deps.iterKeys, F d) :
    ReportOk R F c inputs g k x .equalityBased deps reads := by
  refine ⟨hk, hcalm, hreplay, hnamed, hcurrent, fun o y _ hreuse hy => ?_, hF⟩
  simp only [ValueReusable.isReusable, hy, any_some, Bool.and_eq_true,
    decide_eq_true_eq] at hreuse
  obtain ⟨hdeps, heq⟩ := hreuse
  exact ⟨(DiceValue.eq_of_equality heq).symm, fun d => by rw [hdeps]⟩

/-- A mismatch whose deps are all answered with values that they had when it was verified last:
computing the key again would read the same values and give the same result. -/
theorem reportOk_unchanged {m : Mismatch K V} (hk : R.isInput k = false)
    (hcalm : Calm R c inputs (g.node k) k) (hp : m.prevVerifiedVersion ≤ c)
    (hrange : m.prevVerifiedVersion ∈ (historyOf (g.node k)).restrictedRange c)
    (hrec : Recorded R (inputs m.prevVerifiedVersion) k m.entry m.depsToValidate.iterKeys)
    (hdeps : ∀ d ∈ m.depsToValidate.iterKeys, ∃ r, g.get d c = .matched r ∧
      R.Eval (inputs m.prevVerifiedVersion) d r.value)
    (hF : F k → ∀ d ∈ m.depsToValidate.iterKeys, F d) :
    ∃ reads, ReportOk R F c inputs g k m.entry (.versionBased m.prevVerifiedVersion)
      m.depsToValidate reads := by
  obtain ⟨reads, hreplay, hevals, hnamed⟩ := hrec
  refine ⟨reads, hk, hcalm, ?_, hnamed, fun r hr => ?_, fun o y ho hreuse hy => ?_, hF⟩
  · rw [← hcalm.cell _ hp hrange]
    exact hreplay
  · obtain ⟨r', hget, heval⟩ := hdeps r.1 ((hnamed r.1).mpr ⟨r, hr, rfl⟩)
    refine ⟨r'.versions, ?_⟩
    rw [(hevals r hr).unique heval]
    exact hget
  · have hmem : m.prevVerifiedVersion ∈ o.verifiedRanges :=
      VersionRanges.contains_eq_true.mp hreuse
    obtain ⟨reads', hreplay', hevals', hnamed'⟩ := hcalm.recorded o y ho hy _ hmem hp hrange
    obtain ⟨rfl, rfl⟩ := Rules.replay_reads_unique hreplay' hreplay hevals' hevals
    exact ⟨rfl, fun d => (hnamed' d).trans (hnamed d).symm⟩

end Report

end Sound

end Bz.Dice
