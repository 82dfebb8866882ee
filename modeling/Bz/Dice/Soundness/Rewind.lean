import Bz.Dice.Soundness.Incremental

/-!
# Rewinds

A rewind force-dirties keys at the current version, and they are computed again with what their
cell holds then.  Its dependents lose the version as well, because the first time that a node is
force-dirtied at a version its reverse dependencies are drained.  The second time at the same
version they are not (`rewound_twice`), and a dependent that was computed in between keeps its open
range.  A report that was computed from values of before the rewind is recorded like any other.

Principal result: `rewind_sound`, for runs without these two.
-/

namespace Bz.Dice

open VersionedGraph Machine CoreState World List

/-! ## The invariant -/

variable {K V C : Type} [DecidableEq K] [DiceValue V]
  {R : Rules K V C} {P : K → Prop} {c : Nat} {inputs : Nat → Inputs K V C}
  {g g' : VersionedGraph K V} {keys : List (K × C)}

/-- **A rewind at the current version** keeps the frontier there, with the new cells. -/
theorem Sound.frontier_of_rewind (h : Sound R (fun _ => False) P c inputs g)
    {cache cache' : SharedCache K V}
    (hinput : ∀ k ∈ keys.map Prod.fst, R.isInput k = true → ∃ o, g.node k = some (.injected o))
    (hfirst : ∀ k ∈ keys.map Prod.fst, FirstDirty c g k)
    (hre : CoreState.rewindKeys c cache g (keys.map Prod.fst) = some (cache', g')) :
    Frontier R (fun _ => False) P c c (inputs c) (rewindInputs R (inputs c) keys) g g' := by
  refine ⟨le_rfl, Nat.le_succ c, ?_, rewindKeys_rdepComplete h.rdeps hfirst hre, ?_,
    fun l r => rewindKeys_rdeps hre, fun l hF => hF.elim, fun l => ?_⟩
  · exact rewindKeys_induction (P := GraphOk c)
      (fun _ _ _ _ _ hg _ hinv => invalidate_graphOk hg le_rfl hinv) hre h.ok
  · exact rewindKeys_induction (P := VerifiedOpen c)
      (fun _ _ _ _ _ hg _ hinv => invalidate_verifiedOpen hg hinv) hre h.live
  · cases hin : R.isInput l with
    | true =>
      refine .aged (rewindKeys_aged hre fun hl => hinput l hl hin)
        (fun hk => ?_) rfl (by simp [rewindInputs, hin])
      rw [hin] at hk
      cases hk
    | false =>
      by_cases hl : l ∈ keys.map Prod.fst
      · have hinj : ∀ o, g.node l ≠ some (.injected o) := fun o ho => by
          rw [(h.kind l _ ho).mpr ⟨o, rfl⟩] at hin
          cases hin
        have hd := rewindKeys_dirtied hre hl hinj
        exact .dirtied hin hd.notInjected hd.last hd.occupied
      · have hfind : (keys.find? fun e => decide (e.1 = l)) = none := by
          refine find?_eq_none.mpr fun e he heq => hl ?_
          exact mem_map.mpr ⟨e, he, by simpa using heq⟩
        exact .aged (rewindKeys_aged hre fun hl' => absurd hl' hl)
          (fun _ hs => rewindKeys_spared hre hl hs) rfl
          (by simp [rewindInputs, hin, hfind])

variable {w w' : World K V C}
  {I' : Inputs K V C} {e : K × Nat × Mismatch K V}

/-- A mismatch under check at the current version is what its key was computed to before. -/
structure MismatchRecorded (R : Rules K V C) (c : Nat) (inputs : Nat → Inputs K V C)
    (e : K × Nat × Mismatch K V) : Prop where
  le : e.2.1 ≤ c
  before : e.2.1 = c → e.2.2.prevVerifiedVersion < c
  recorded : e.2.1 = c → R.isInput e.1 = false →
    Recorded R (inputs e.2.2.prevVerifiedVersion) e.1 e.2.2.entry e.2.2.depsToValidate.iterKeys

/-- The invariant of runs with rewinds.  Results handed out before a rewind may be out of date, so
it says nothing about them. -/
structure RewindOk (R : Rules K V C) (w : World K V C) : Prop where
  sound : Sound R (fun _ => False) (fun _ => False) w.core.currentVersion w.inputs w.core.graph
  mismatches : ∀ e ∈ w.mismatches, MismatchRecorded R w.core.currentVersion w.inputs e

/-- The match among the results of a lookup. -/
def VersionedGraphResult.asMatched : VersionedGraphResult K V → Option (DiceComputedValue V)
  | .matched r => some r
  | _ => none

omit [DecidableEq K] [DiceValue V] in
theorem VersionedGraphResult.asMatched_eq_some {res : VersionedGraphResult K V}
    {r : DiceComputedValue V} : r ∈ res.asMatched ↔ res = .matched r := by
  cases res <;> simp [asMatched, eq_comm]

/-- The graph answers this value of a key. -/
def VersionedGraph.Answers (g : VersionedGraph K V) (v : Nat) (r : K × V) : Prop :=
  ∃ a ∈ (g.get r.1 v).asMatched, a.value = r.2

/-- The graph answers the key with a value that is valid at `p` as well. -/
def VersionedGraph.AnswersSince (g : VersionedGraph K V) (v p : Nat) (k : K) : Prop :=
  ∃ a ∈ (g.get k v).asMatched, p ∈ a.versions

instance [DecidableEq V] (g : VersionedGraph K V) (v : Nat) (r : K × V) :
    Decidable (g.Answers v r) :=
  inferInstanceAs (Decidable (∃ a ∈ (g.get r.1 v).asMatched, _))

instance (g : VersionedGraph K V) (v p : Nat) (k : K) : Decidable (g.AnswersSince v p k) :=
  inferInstanceAs (Decidable (∃ a ∈ (g.get k v).asMatched, _))

/-- Lookups, reports and rewinds happen at the current version, with what the graph still answers,
of keys that were not rewound in between.  A key that others depend on is not rewound twice at one
version, and an injected key only after it was injected. -/
def Label.Fresh (R : Rules K V C) (w : World K V C) : Label K V C → Prop
  | .lookup _ v => v = w.core.currentVersion
  | .computed k v _ cell reads _ _ =>
    v = w.core.currentVersion ∧ cell = (w.inputs w.core.currentVersion).cell k ∧
      ∀ r ∈ reads, w.core.graph.Answers w.core.currentVersion r
  | .unchanged k v _ m =>
    v = w.core.currentVersion ∧
      m.prevVerifiedVersion ∈
        (historyOf (w.core.graph.node k)).restrictedRange w.core.currentVersion ∧
      ∀ d ∈ m.depsToValidate.iterKeys,
        w.core.graph.AnswersSince w.core.currentVersion m.prevVerifiedVersion d
  | .rewind keys v _ =>
    v = w.core.currentVersion ∧ ∀ k ∈ keys.map Prod.fst,
      FirstDirty w.core.currentVersion w.core.graph k ∧
      (R.isInput k = true → w.core.graph.IsInjected k)
  | _ => True

instance [DecidableEq V] [DecidableEq C] (R : Rules K V C) (w : World K V C) (l : Label K V C) :
    Decidable (l.Fresh R w) := by
  induction l using Label.casesOn <;> dsimp only [Label.Fresh] <;> infer_instance

omit [DiceValue V] in
theorem MismatchRecorded.keep (h : MismatchRecorded R c inputs e) :
    MismatchRecorded R c (Sound.inputsAt inputs c I') e := by
  refine ⟨h.le, h.before, fun heq hk => ?_⟩
  rw [Sound.inputsAt, Function.update_of_ne (h.before heq).ne]
  exact h.recorded heq hk

namespace RewindOk

omit [DiceValue V] in
theorem new (cells : K → C) : RewindOk R (new cells : World K V C) :=
  ⟨.new cells, forall_mem_nil _⟩

variable {k : K} {epoch : VersionEpoch} {deps : SeriesParallelDeps K} {reads : List (K × V)} {x : V}

variable (h : RewindOk R w)
include h

omit [DiceValue V] in
theorem calm (hk : R.isInput k = false) :
    Calm R w.core.currentVersion w.inputs (w.core.graph.node k) k :=
  (h.sound.segment k hk).resolve_right fun hp => hp.1

theorem updateState [DecidableEq V] [DecidableEq C] {changes : Changes K V C}
    (hp : (Label.updateState changes).NoPush)
    (hs : w.step R (.updateState changes) = some w') : RewindOk R w' := by
  obtain ⟨hnd, hfits, g', b, happ, ⟨rfl, rfl⟩ | ⟨rfl, rfl⟩⟩ := step_updateState hs
  · refine ⟨h.sound.frontier (h.sound.frontier_of_advance hnd hfits hp.changesOk happ),
      fun e he => ?_⟩
    have hle := (h.mismatches e he).le
    have hne := (Nat.lt_succ_of_le hle).ne
    exact ⟨Nat.le_succ_of_le hle, fun heq => absurd heq hne, fun heq => absurd heq hne⟩
  · exact ⟨h.sound.frontier (h.sound.frontier_of_keep hnd hfits hp.changesOk happ),
      fun e he => (h.mismatches e he).keep⟩

omit [DiceValue V] in
theorem lookup (k : K) : RewindOk R (w.looked k w.core.currentVersion) := by
  rcases w.looked_cases k with
    heq | ⟨r, hr, heq⟩ | ⟨m, hm, heq⟩ | ⟨hc, heq⟩ <;> rw [heq]
  · exact h
  · exact ⟨h.sound, h.mismatches⟩
  · have hok := h.sound.mismatchOk_of_checkDeps hm
    exact ⟨h.sound, forall_mem_cons.mpr ⟨⟨hok.le, hok.before, hok.recorded⟩, h.mismatches⟩⟩
  · exact ⟨h.sound, h.mismatches⟩

theorem report {reusable : ValueReusable}
    {res : CoreState K V × Except CancellationReason (DiceComputedValue V)} (hr : ReportOk R
      (fun _ => False) w.core.currentVersion w.inputs w.core.graph k x reusable deps reads)
    (hup : w.core.updateComputed k w.core.currentVersion epoch .normal x reusable deps = some res) :
    RewindOk R (w.reported k w.core.currentVersion res) := by
  rcases updateComputed_cases hup with ⟨e, rfl⟩ | ⟨g', ret, -, hupd, rfl⟩
  · exact h
  · exact ⟨(h.sound.report hr hupd).sound, h.mismatches⟩

theorem reportOk_of_checksOut {m : Mismatch K V} (hc : w.ChecksOut R k w.core.currentVersion m)
    (hf : Label.Fresh R w (.unchanged k w.core.currentVersion epoch m)) :
    ∃ reads, ReportOk R (fun _ => False) w.core.currentVersion w.inputs w.core.graph k m.entry
      (.versionBased m.prevVerifiedVersion) m.depsToValidate reads := by
  obtain ⟨-, hrange, hdeps⟩ := hf
  obtain ⟨hk, hm, -, -⟩ := hc
  have hr := h.mismatches _ hm
  refine Sound.reportOk_unchanged hk (h.calm hk) (hr.before rfl).le hrange (hr.recorded rfl hk)
    (fun d hd => ?_) False.elim
  obtain ⟨a, ha, hp⟩ := hdeps d hd
  have hget := VersionedGraphResult.asMatched_eq_some.mp ha
  exact ⟨a, hget, h.sound.eval_versions hget _ hp (hr.before rfl).le⟩

theorem rewind [DecidableEq V] [DecidableEq C]
    (hf : Label.Fresh R w (.rewind keys w.core.currentVersion epoch))
    (hs : w.step R (.rewind keys w.core.currentVersion epoch) = some w') : RewindOk R w' := by
  rcases step_rewind hs with rfl | ⟨cache, cache', g', -, hre, rfl⟩
  · exact h
  · have hfr := h.sound.frontier_of_rewind (fun k hk hin => ((hf.2 k hk).2 hin).node)
      (fun k hk => (hf.2 k hk).1) hre
    -- the only version from the current one up to the current one
    have hinputs : (fun u => if w.core.currentVersion ≤ u ∧ u ≤ w.core.currentVersion then
        rewindInputs R (w.inputs u) keys else w.inputs u) =
        Sound.inputsAt w.inputs w.core.currentVersion
          (rewindInputs R (w.inputs w.core.currentVersion) keys) := by
      funext u
      rw [Sound.inputsAt]
      rcases eq_or_ne u w.core.currentVersion with rfl | hne
      · rw [if_pos ⟨le_rfl, le_rfl⟩, Function.update_self]
      · rw [if_neg fun hu => hne (le_antisymm hu.2 hu.1), Function.update_of_ne hne]
    have hcur : (w.core.versionTracker.setCache w.core.currentVersion cache').current =
        w.core.currentVersion := setCache_current _ _ _
    constructor
    · show Sound R _ _ (w.core.versionTracker.setCache w.core.currentVersion cache').current _ g'
      rw [hcur, hinputs]
      exact h.sound.frontier hfr
    · show ∀ e ∈ w.mismatches, MismatchRecorded R
        (w.core.versionTracker.setCache w.core.currentVersion cache').current _ e
      rw [hcur, hinputs]
      exact fun e he => (h.mismatches e he).keep

/-- **A fresh step keeps the invariant.** -/
theorem step [DecidableEq V] [DecidableEq C] {l : Label K V C} (hf : l.Fresh R w) (hp : l.NoPush)
    (hs : w.step R l = some w') : RewindOk R w' := by
  cases l with
  | updateState changes => exact h.updateState hp hs
  | ctxAtVersion v =>
    obtain ⟨core, hcur, hg, rfl⟩ := step_ctx hs
    exact ⟨by simpa only [hcur, hg] using h.sound, by simpa only [hcur] using h.mismatches⟩
  | dropCtxAtVersion v =>
    obtain ⟨core, hcur, hg, rfl⟩ := step_dropCtx hs
    exact ⟨by simpa only [hcur, hg] using h.sound, by simpa only [hcur] using h.mismatches⟩
  | lookup k v =>
    cases hs
    rw [show v = w.core.currentVersion from hf]
    exact h.lookup k
  | computed k v epoch cell reads x deps =>
    obtain rfl := hf.1
    obtain ⟨hc, res, hup, rfl⟩ := step_computed hs
    obtain ⟨-, rfl, hcurrent⟩ := hf
    obtain ⟨hk, -, hreplay, hreads, hdeps⟩ := hc
    have hr : ReportOk R (fun _ => False) w.core.currentVersion w.inputs w.core.graph k x
        .equalityBased deps reads := by
      refine Sound.reportOk_computed hk (h.calm hk) hreplay (fun d => ⟨fun hd => ?_, ?_⟩)
        (fun r hmem => ?_) False.elim
      · simpa using hdeps d hd
      · rintro ⟨r, hmem, rfl⟩
        exact (hreads r hmem).2
      · obtain ⟨a, ha, hx⟩ := hcurrent r hmem
        exact ⟨a.versions, hx ▸ VersionedGraphResult.asMatched_eq_some.mp ha⟩
    have h' := h.report hr hup
    exact ⟨h'.sound, h'.mismatches⟩
  | unchanged k v epoch m =>
    obtain rfl := hf.1
    obtain ⟨hc, res, hup, rfl⟩ := step_unchanged hs
    obtain ⟨reads, hr⟩ := h.reportOk_of_checksOut hc hf
    exact h.report hr hup
  | rewind keys v epoch =>
    obtain rfl := hf.1
    exact h.rewind hf hs

end RewindOk

/-- **Rewound keys and their dependents.** In every run of fresh steps, what the graph answers, at
any version, and what a check of the recorded deps reuses is the value from scratch, with the cells
that the rewinds left. -/
theorem rewind_sound [DecidableEq V] [DecidableEq C] (R : Rules K V C) (cells : K → C)
    {w : World K V C} (h : Reach (step R) (fun w l => l.Fresh R w ∧ l.NoPush) (new cells) w) :
    (∀ k v r, v ≤ w.core.currentVersion → w.core.lookupKey k v = .matched r →
      R.FromScratch (w.inputs v) k r.value) ∧
    ∀ k epoch m w', Label.Fresh R w (.unchanged k w.core.currentVersion epoch m) →
      w.step R (.unchanged k w.core.currentVersion epoch m) = some w' →
      R.FromScratch (w.inputs w.core.currentVersion) k m.entry := by
  have hok : RewindOk R w :=
    h.invariant (fun _ _ _ hw hl hs => hw.step hl.1 hl.2 hs) (.new cells)
  constructor
  · intro k v r hv hr
    unfold CoreState.lookupKey at hr
    split at hr
    · cases hr
    · exact (hok.sound.eval_of_matched hv hr).fromScratch
  · intro k epoch m w' hf hs
    obtain ⟨reads, hr⟩ := hok.reportOk_of_checksOut (step_unchanged hs).1 hf
    exact ((hok.sound.report_recorded hr le_rfl (.inr rfl)).eval hr.notInput).fromScratch

/-- Key `2` depends on key `1`, which is rewound once and gives `1` in place of `0`: at version 2
key `2` is computed again, to `1`. -/
theorem rewind_sound_once : ∃ w : World Nat Nat Nat,
    Reach (step halving) (fun w l => l.Fresh halving w ∧ l.NoPush) (new fun _ => 0) w ∧
    (∃ r, w.core.lookupKey 2 2 = .matched r ∧ r.value = 1) ∧
    halving.FromScratch (w.inputs 2) 2 1 := by
  refine exists_reach (I := fun w => w.core.currentVersion = 2 ∧
      ∃ r, w.core.lookupKey 2 2 = .matched r ∧ r.value = 1)
    [.updateState [(0, .inject 0, .normal)], .ctxAtVersion 1, .lookup 2 1, .lookup 1 1, .lookup 0 1,
      .computed 1 1 0 0 [(0, 0)] 0 (.one 0), .computed 2 1 0 0 [(1, 0)] 0 (.one 1),
      .rewind [(1, 1)] 1 0, .lookup 1 1, .computed 1 1 0 1 [(0, 0)] 1 (.one 0),
      .updateState [(3, .dirty 0, .normal)], .ctxAtVersion 2,
      .lookup 2 2, .lookup 1 2, .computed 2 2 1 0 [(1, 1)] 1 (.one 1)]
    (fun w hreach ⟨hcur, r, hr, hx⟩ => ⟨⟨r, hr, hx⟩, ?_⟩) ⟨_, rfl, rfl, _, rfl, rfl⟩
  exact hx ▸ (rewind_sound halving _ hreach).1 2 2 r hcur.ge hr

/-- Key `1` is rewound twice at version 1 and gives `0`, `1` and `2`; key `2`, which depends on it,
is computed in between.  The second rewind does not reach key `2`, so at version 2 the graph still
answers `1`, while the value from scratch is `2`. -/
theorem rewound_twice : ∃ w₁ w₂ w₃ w₄ : World Nat Nat Nat,
    Reach (step halving) (fun _ l => l.NoPush) (new fun _ => 0) w₁ ∧
    (∃ r, w₁.core.lookupKey 1 1 = .matched r ∧ r.value = 1) ∧
    w₁.step halving (.rewind [(1, 2)] 1 0) = some w₂ ∧
    Reach (step halving) (fun _ l => l.NoPush) w₂ w₃ ∧
    (∃ r, w₃.core.lookupKey 1 1 = .matched r ∧ r.value = 2) ∧
    w₃.step halving (.updateState [(3, .dirty 0, .normal)]) = some w₄ ∧
    (∃ r, w₄.core.lookupKey 2 2 = .matched r ∧ r.value = 1) ∧
    halving.FromScratch (w₄.inputs 2) 2 2 := by
  refine ⟨_, _, _, _, reach_of_run
      [.updateState [(0, .inject 0, .normal)], .ctxAtVersion 1, .lookup 1 1, .lookup 0 1,
        .computed 1 1 0 0 [(0, 0)] 0 (.one 0), .rewind [(1, 1)] 1 0,
        .lookup 1 1, .computed 1 1 0 1 [(0, 0)] 1 (.one 0),
        .lookup 2 1, .computed 2 1 0 0 [(1, 1)] 1 (.one 1)] rfl, ⟨_, rfl, rfl⟩, rfl,
    reach_of_run [.lookup 1 1, .computed 1 1 0 2 [(0, 0)] 2 (.one 0)] rfl, ⟨_, rfl, rfl⟩, rfl,
    ⟨_, rfl, rfl⟩, Rules.Eval.fromScratch ?_⟩
  -- key `1` evaluates to its cell, and key `2` to key `1`
  have hread₁ : (halving.task 1 2).replay [(0, 0)] = some 2 := rfl
  have hread₂ : (halving.task 2 0).replay [(1, 2)] = some 2 := rfl
  refine .of_replay rfl hread₂ (forall_mem_singleton.mpr (.of_replay rfl hread₁ ?_))
  exact forall_mem_singleton.mpr (.input rfl rfl)

end Bz.Dice
