import Bz.Dice.Soundness.Transaction

/-!
# Runs at the current version

The invariant of the whole system: the soundness invariant of the graph, and what the logs of the
workers say about the current version.  Results handed out are still answered by the graph,
computations that started see the current cell, and mismatches under check are justified at the
version they were verified last.

Principal result: `WorldOk.step`: every step that `StepOk` allows keeps the invariant.
-/

namespace Bz.Dice

open VersionedGraph Sound List

variable {K V C : Type} [DecidableEq K]

/-! ## Entries of the logs -/

section Entries

variable (R : Rules K V C) (c : Nat) (inputs : Nat → Inputs K V C) (g : VersionedGraph K V)

/-- A result was right at its version; at the current version the graph still answers it. -/
structure ResultOk (e : K × Nat × DiceComputedValue V) : Prop where
  le : e.2.1 ≤ c
  eval : R.Eval (inputs e.2.1) e.1 e.2.2.value
  answered : e.2.1 = c → ∃ versions, g.get e.1 c = .matched ⟨e.2.2.value, versions⟩
  versions : e.2.1 = c → ∀ u ∈ e.2.2.versions, u ≤ c → R.Eval (inputs u) e.1 e.2.2.value

/-- A computation at the current version sees the cell of its key. -/
structure RunningOk (e : K × Nat × C) : Prop where
  le : e.2.1 ≤ c
  cell : e.2.1 = c → R.isInput e.1 = false → e.2.2 = (inputs c).cell e.1
  calm : e.2.1 = c → R.isInput e.1 = false → Calm R c inputs (g.node e.1) e.1

/-- A mismatch at the current version is justified where it was verified last, and its key was not
dirtied since. -/
structure MismatchOk (e : K × Nat × Mismatch K V) : Prop where
  le : e.2.1 ≤ c
  calm : e.2.1 = c → R.isInput e.1 = false → Calm R c inputs (g.node e.1) e.1
  before : e.2.1 = c → e.2.2.prevVerifiedVersion < c
  range : e.2.1 = c → e.2.2.prevVerifiedVersion ∈ (historyOf (g.node e.1)).restrictedRange c
  recorded : e.2.1 = c → R.isInput e.1 = false →
    Recorded R (inputs e.2.2.prevVerifiedVersion) e.1 e.2.2.entry e.2.2.depsToValidate.iterKeys

end Entries

variable {R : Rules K V C} {F P : K → Prop} {c : Nat} {inputs : Nat → Inputs K V C}
  {g g' : VersionedGraph K V} {I' : Inputs K V C}
  {e : K × Nat × Mismatch K V} {k : K} {m : Mismatch K V}

namespace Sound

variable {r : DiceComputedValue V}

theorem eval_versions (h : Sound R F P c inputs g) (hr : g.get k c = .matched r) :
    ∀ u ∈ r.versions, u ≤ c → R.Eval (inputs u) k r.value := by
  intro u hu huc
  refine h.eval_dep hr (fun n hn => ?_) huc
  rcases get_matched hr with ⟨o, ho, hv, -, hver⟩ | ⟨o, data, ho, hdata, rfl⟩
  · rw [ho] at hn
    cases hn
    simp only [validAt, if_pos hv]
    rw [← hver]
    exact hu
  · rw [ho] at hn
    cases hn
    simpa [validAt, hdata] using hu

theorem calm_of_not_matched (h : Sound R F P c inputs g) (hk : R.isInput k = false)
    (hm : ∀ r, g.get k c ≠ .matched r) : Calm R c inputs (g.node k) k := by
  rcases h.segment k hk with hcalm | ⟨-, -, o, x, ho, hx, hopen, -⟩
  · exact hcalm
  · refine absurd ?_ (hm ⟨x, o.verifiedRanges⟩)
    simp only [VersionedGraph.get, ho]
    have hverified := (h.ok k _ ho).1.of_unbounded hopen c le_rfl
    exact OccupiedGraphNode.atVersion_of_mem hverified hx

/-- A mismatch that the graph hands out at the current version. -/
theorem mismatchOk_of_checkDeps (h : Sound R F P c inputs g)
    (hm : g.get k c = .checkDeps m) : MismatchOk R c inputs g (k, c, m) := by
  have hnm : ∀ r, g.get k c ≠ .matched r := fun r hr => by rw [hr] at hm; cases hm
  simp only [VersionedGraph.get] at hm
  cases hn : g.node k with
  | none => rw [hn] at hm; cases hm
  | some n =>
    rw [hn] at hm
    cases n with
    | vacant o => cases hm
    | injected o =>
      simp only [VersionedGraphNode.atVersion, InjectedGraphNode.atVersion] at hm
      split at hm <;> cases hm
    | occupied o =>
      obtain ⟨hmem, hle, hrange, hx, hdeps⟩ := OccupiedGraphNode.atVersion_checkDeps hm
      have hlt : m.prevVerifiedVersion < c := by
        refine lt_of_le_of_ne hle fun heq => hnm ⟨m.entry, o.verifiedRanges⟩ ?_
        simp only [VersionedGraph.get, hn]
        exact OccupiedGraphNode.atVersion_of_mem (heq ▸ hmem) hx
      have hrange' : m.prevVerifiedVersion ∈ (historyOf (g.node k)).restrictedRange c := by
        rw [hn]; exact hrange
      refine ⟨le_rfl, fun _ hk => h.calm_of_not_matched hk hnm, fun _ => hlt, fun _ => hrange',
        fun _ hk => ?_⟩
      simp only [hdeps]
      exact (h.calm_of_not_matched hk hnm).recorded o m.entry hn hx _ hmem hle hrange'

end Sound

/-! ## Steps keep the entries in order -/

theorem ResultOk.advance {e : K × Nat × DiceComputedValue V} (h : ResultOk R c inputs g e) :
    ResultOk R (c + 1) (inputsAt inputs (c + 1) I') g' e := by
  have hle := h.le
  refine ⟨by omega, ?_, fun heq => by omega, fun heq => by omega⟩
  rw [inputsAt, Function.update_of_ne (by omega)]
  exact h.eval

theorem RunningOk.advance {e : K × Nat × C} (h : RunningOk R c inputs g e) :
    RunningOk R (c + 1) (inputsAt inputs (c + 1) I') g' e := by
  have hle := h.le
  exact ⟨by omega, fun heq => by omega, fun heq => by omega⟩

theorem MismatchOk.advance (h : MismatchOk R c inputs g e) :
    MismatchOk R (c + 1) (inputsAt inputs (c + 1) I') g' e := by
  have hle := h.le
  exact ⟨by omega, fun heq => by omega, fun heq => by omega, fun heq => by omega,
    fun heq => by omega⟩

/-- In place, a result stays right because the graph still answers it. -/
theorem ResultOk.keep {e : K × Nat × DiceComputedValue V} (h : ResultOk R c inputs g e)
    (hs : Sound R F P c (inputsAt inputs c I') g') (hget : ∀ l u, g'.get l u = g.get l u) :
    ResultOk R c (inputsAt inputs c I') g' e := by
  have hans : e.2.1 = c → ∃ versions, g'.get e.1 c = .matched ⟨e.2.2.value, versions⟩ := by
    intro heq
    obtain ⟨versions, hv⟩ := h.answered heq
    exact ⟨versions, (hget e.1 c).trans hv⟩
  have hcur : e.2.1 = c → R.Eval (inputsAt inputs c I' c) e.1 e.2.2.value := by
    intro heq
    obtain ⟨versions, hv⟩ := hans heq
    exact hs.eval_of_matched (r := ⟨e.2.2.value, versions⟩) le_rfl hv
  refine ⟨h.le, ?_, hans, fun heq u hu huc => ?_⟩
  · rcases eq_or_ne e.2.1 c with heq | hne
    · rw [heq]; exact hcur heq
    · rw [inputsAt, Function.update_of_ne hne]; exact h.eval
  · rcases eq_or_ne u c with rfl | hne
    · exact hcur heq
    · rw [inputsAt, Function.update_of_ne hne]; exact h.versions heq u hu huc

/-- What a transaction that records no change means for a key in flight. -/
def KeepsCalm (R : Rules K V C) (c : Nat) (inputs : Nat → Inputs K V C) (I' : Inputs K V C)
    (g g' : VersionedGraph K V) (k : K) : Prop :=
  Calm R c inputs (g.node k) k → I'.cell k = (inputs c).cell k ∧
    Calm R c (inputsAt inputs c I') (g'.node k) k

theorem RunningOk.keep {e : K × Nat × C} (h : RunningOk R c inputs g e)
    (hkeep : e.2.1 = c → R.isInput e.1 = false → KeepsCalm R c inputs I' g g' e.1) :
    RunningOk R c (inputsAt inputs c I') g' e := by
  refine ⟨h.le, fun heq hk => ?_, fun heq hk => (hkeep heq hk (h.calm heq hk)).2⟩
  rw [inputsAt, Function.update_self, (hkeep heq hk (h.calm heq hk)).1]
  exact h.cell heq hk

theorem MismatchOk.keep (h : MismatchOk R c inputs g e)
    (hkeep : e.2.1 = c → R.isInput e.1 = false → KeepsCalm R c inputs I' g g' e.1)
    (hsame : ∀ l, g'.node l = g.node l) : MismatchOk R c (inputsAt inputs c I') g' e := by
  refine ⟨h.le, fun heq hk => (hkeep heq hk (h.calm heq hk)).2, h.before, fun heq => ?_,
    fun heq hk => ?_⟩
  · rw [hsame]
    exact h.range heq
  · rw [inputsAt, Function.update_of_ne (h.before heq).ne]
    exact h.recorded heq hk

/-! ## The invariant of the system -/

/-- The graph is sound, and the logs agree with it at the current version. -/
structure WorldOk (R : Rules K V C) (F P : K → Prop) (w : World K V C) : Prop where
  sound : Sound R F P w.core.currentVersion w.inputs w.core.graph
  results : ∀ e ∈ w.results, ResultOk R w.core.currentVersion w.inputs w.core.graph e
  running : ∀ e ∈ w.running, RunningOk R w.core.currentVersion w.inputs w.core.graph e
  mismatches : ∀ e ∈ w.mismatches, MismatchOk R w.core.currentVersion w.inputs w.core.graph e

/-- No computation and no check of the key is in flight at the version. -/
def World.Idle (w : World K V C) (k : K) (v : Nat) : Prop :=
  (∀ e ∈ w.running, e.1 = k → e.2.1 ≠ v) ∧ ∀ e ∈ w.mismatches, e.1 = k → e.2.1 ≠ v

/-- Lookups and reports at the current version, no rewinds, frozen keys that are computed from
frozen keys, and pushes to keys that nobody works on. -/
def StepOk [DiceValue V] (R : Rules K V C) (F P : K → Prop) (w : World K V C) : Label K V C → Prop
  | .updateState changes =>
    ChangesOk R F P w.core.currentVersion (w.inputs w.core.currentVersion) w.core.graph changes ∧
      ∀ e ∈ changes, ∀ x cell, e.2.1 = .push x cell → w.Idle e.1 w.core.currentVersion
  | .lookup _ v => v = w.core.currentVersion
  | .computed k v _ _ _ _ deps =>
    v = w.core.currentVersion ∧ (F k → ∀ d ∈ deps.iterKeys, F d)
  | .unchanged k v _ m =>
    v = w.core.currentVersion ∧ (F k → ∀ d ∈ m.depsToValidate.iterKeys, F d)
  | .rewind _ _ _ => False
  | _ => True

theorem Sound.new (cells : K → C) :
    Sound R F P 0 (fun _ => ⟨fun _ => none, cells⟩) (new : VersionedGraph K V) where
  ok k n hn := by rw [node_new] at hn; cases hn
  rdeps k o ho := by rw [node_new] at ho; cases ho
  live k o ho := by rw [node_new] at ho; cases ho
  frozen d x hx := by simp [rdepsAt, node_new] at hx
  kind k n hn := by rw [node_new] at hn; cases hn
  hydrated k o ho := by rw [node_new] at ho; cases ho
  value k _ u _ := by rw [node_new]; rfl
  just k o x ho := by rw [node_new] at ho; cases ho
  segment k _ := by
    refine .inl ⟨fun _ _ _ => rfl, fun o x ho => ?_⟩
    cases ho

namespace WorldOk

variable {w w' : World K V C}
  {changes : Changes K V C} {deps : SeriesParallelDeps K} {reads : List (K × V)}

theorem new (cells : K → C) : WorldOk R F P (World.new cells : World K V C) :=
  ⟨.new cells, forall_mem_nil _, forall_mem_nil _, forall_mem_nil _⟩

variable (h : WorldOk R F P w)
include h

/-- Steps that leave the graph, the inputs and the current version alone. -/
theorem tracker {core : CoreState K V} (hcur : core.currentVersion = w.core.currentVersion)
    (hg : core.graph = w.core.graph) : WorldOk R F P { w with core := core } := by
  constructor
  · simpa only [hcur, hg] using h.sound
  · simpa only [hcur, hg] using h.results
  · simpa only [hcur, hg] using h.running
  · simpa only [hcur, hg] using h.mismatches

theorem updateState [DiceValue V] [DecidableEq V] [DecidableEq C]
    (hok : StepOk R F P w (.updateState changes))
    (hs : w.step R (.updateState changes) = some w') : WorldOk R F P w' := by
  obtain ⟨hchanges, hidle⟩ := hok
  obtain ⟨hnd, hfits, g', b, happ, ⟨rfl, rfl⟩ | ⟨rfl, rfl⟩⟩ := World.step_updateState hs
  · refine ⟨h.sound.frontier (h.sound.frontier_of_advance hnd hfits hchanges happ), ?_, ?_, ?_⟩
    · exact fun e he => (h.results e he).advance
    · exact fun e he => (h.running e he).advance
    · exact fun e he => (h.mismatches e he).advance
  · have hf := h.sound.frontier_of_keep hnd hfits hchanges happ
    have hsame := CoreState.applyUpdates_false h.sound.ok (Nat.lt_succ_self _) happ
    have hget : ∀ l u, g'.get l u = w.core.graph.get l u := fun l u => by
      simp only [VersionedGraph.get, hsame l]
    -- a key that nobody pushes to keeps its cell
    have hkeep : ∀ k, R.isInput k = false →
        (∀ e ∈ changes, ∀ x cell, e.2.1 = .push x cell → e.1 ≠ k) →
        KeepsCalm R w.core.currentVersion w.inputs
          (changeInputs (w.inputs w.core.currentVersion) changes) w.core.graph g' k := by
      intro k hk hpush hcalm
      have hnot : k ∉ changes.keys := by
        intro hmem
        obtain ⟨ch, p, hm⟩ := Changes.exists_of_mem_keys hmem
        cases ch with
        | inject x => rw [(fits_of_mem hfits hm).mpr ⟨x, rfl⟩] at hk; cases hk
        | dirty e => exact Bool.false_ne_true (h.sound.outcome_dirty hnd happ hm hk).2
        | push x e => exact hpush _ hm x e rfl rfl
      have hcell : (changeInputs (w.inputs w.core.currentVersion) changes).cell k =
          (w.inputs w.core.currentVersion).cell k := by
        simp [changeInputs, Changes.find_of_not_mem hnot]
      exact ⟨hcell, h.sound.frontier_calm hf (hsame k ▸ .refl _) hcell hcalm⟩
    refine ⟨h.sound.frontier hf, fun e he => ?_, fun e he => ?_, fun e he => ?_⟩
    · exact (h.results e he).keep (h.sound.frontier hf) hget
    · refine (h.running e he).keep fun heq hk => hkeep e.1 hk fun a ha x cell hx hne => ?_
      exact (hidle a ha x cell hx).1 e he hne.symm heq
    · refine (h.mismatches e he).keep (fun heq hk => hkeep e.1 hk fun a ha x cell hx hne => ?_)
        hsame
      exact (hidle a ha x cell hx).2 e he hne.symm heq

theorem lookup (k : K) : WorldOk R F P (w.looked k w.core.currentVersion) := by
  have hrun : (∀ r, w.core.graph.get k w.core.currentVersion ≠ .matched r) →
      RunningOk R w.core.currentVersion w.inputs w.core.graph
        (k, w.core.currentVersion, (w.inputs w.core.currentVersion).cell k) :=
    fun hm => ⟨le_rfl, fun _ _ => rfl, fun _ hk => h.sound.calm_of_not_matched hk hm⟩
  rcases w.looked_cases k with
    heq | ⟨r, hr, heq⟩ | ⟨m, hm, heq⟩ | ⟨hc, heq⟩ <;> rw [heq]
  · exact h
  · exact ⟨h.sound, forall_mem_cons.mpr ⟨⟨le_rfl, h.sound.eval_of_matched le_rfl hr,
      fun _ => ⟨r.versions, hr⟩, fun _ => h.sound.eval_versions hr⟩, h.results⟩, h.running,
      h.mismatches⟩
  · exact ⟨h.sound, h.results, forall_mem_cons.mpr ⟨hrun (by simp [hm]), h.running⟩,
      forall_mem_cons.mpr ⟨h.sound.mismatchOk_of_checkDeps hm, h.mismatches⟩⟩
  · exact ⟨h.sound, h.results, forall_mem_cons.mpr ⟨hrun (by simp [hc]), h.running⟩, h.mismatches⟩

variable [DiceValue V]

/-- A report of what the key evaluates to, and the answer that is handed out. -/
theorem report {x : V} {reusable : ValueReusable}
    {epoch : VersionEpoch} {res : CoreState K V × Except CancellationReason (DiceComputedValue V)}
    (hr : ReportOk R F w.core.currentVersion w.inputs w.core.graph k x reusable deps reads)
    (hup : w.core.updateComputed k w.core.currentVersion epoch .normal x reusable deps = some res) :
    WorldOk R F P (w.reported k w.core.currentVersion res) := by
  rcases CoreState.updateComputed_cases hup with ⟨e, rfl⟩ | ⟨g', ret, -, hupd, rfl⟩
  · exact h
  · have ha := h.sound.report hr hupd
    have hret : ResultOk R w.core.currentVersion w.inputs g' (k, w.core.currentVersion, ret) := by
      have heval := h.sound.report_recorded hr le_rfl (.inr rfl)
      refine ⟨le_rfl, ?_, fun _ => ?_, fun _ => ?_⟩
      · rw [ha.value]; exact heval.eval hr.notInput
      · rw [ha.value]; exact ha.answered
      · rw [ha.value]; exact ha.eval
    refine ⟨ha.sound, forall_mem_cons.mpr ⟨hret, fun e he => ?_⟩, fun e he => ?_, fun e he => ?_⟩
    · obtain ⟨hle, heval, hanswered, hversions⟩ := h.results e he
      refine ⟨hle, heval, fun heq => ?_, hversions⟩
      obtain ⟨versions, hv⟩ := hanswered heq
      exact ha.keeps e.1 ⟨e.2.2.value, versions⟩ hv
    · obtain ⟨hle, hcell, hcalm⟩ := h.running e he
      exact ⟨hle, hcell, fun heq hk => ha.calm _ (hcalm heq hk)⟩
    · obtain ⟨hle, hcalm, hbefore, hrange, hrecorded⟩ := h.mismatches e he
      rw [← update_history hupd] at hrange
      exact ⟨hle, fun heq hk => ha.calm _ (hcalm heq hk), hbefore, hrange, hrecorded⟩

/-- A computation that starts and ends at the current version reports what the key evaluates to. -/
theorem reportOk_of_computes {cell : C} {x : V}
    (hc : w.Computes R k w.core.currentVersion cell reads x deps)
    (hF : F k → ∀ d ∈ deps.iterKeys, F d) :
    ReportOk R F w.core.currentVersion w.inputs w.core.graph k x .equalityBased deps reads := by
  obtain ⟨hk, hrun, hreplay, hreads, hdeps⟩ := hc
  have hr := h.running _ hrun
  have hcell : cell = (w.inputs w.core.currentVersion).cell k := hr.cell rfl hk
  rw [hcell] at hreplay
  refine reportOk_computed hk (hr.calm rfl hk) hreplay (fun d => ⟨fun hd => ?_, ?_⟩)
    (fun r hmem => ?_) hF
  · simpa using hdeps d hd
  · rintro ⟨r, hmem, rfl⟩
    exact (hreads r hmem).2
  · obtain ⟨e, he, h1, h2, h3⟩ := (hreads r hmem).1
    have hans := (h.results e he).answered h2
    rwa [h1, h3] at hans

/-- A mismatch that checks out at the current version reports what the key evaluates to. -/
theorem reportOk_of_checksOut (hc : w.ChecksOut R k w.core.currentVersion m)
    (hF : F k → ∀ d ∈ m.depsToValidate.iterKeys, F d) :
    ∃ reads, ReportOk R F w.core.currentVersion w.inputs w.core.graph k m.entry
      (.versionBased m.prevVerifiedVersion) m.depsToValidate reads := by
  obtain ⟨hk, hm, -, hdeps⟩ := hc
  have hr := h.mismatches _ hm
  refine reportOk_unchanged hk (hr.calm rfl hk) (hr.before rfl).le (hr.range rfl)
    (hr.recorded rfl hk) (fun d hd => ?_) hF
  obtain ⟨e, he, rfl, h2, hp⟩ := hdeps d hd
  obtain ⟨versions, hget⟩ := (h.results e he).answered h2
  exact ⟨_, hget, (h.results e he).versions h2 _ hp (hr.before rfl).le⟩

/-- **A step at the current version keeps the invariant.** -/
theorem step [DecidableEq V] [DecidableEq C] {l : Label K V C} (hok : StepOk R F P w l)
    (hs : w.step R l = some w') : WorldOk R F P w' := by
  cases l with
  | updateState changes => exact h.updateState hok hs
  | ctxAtVersion v =>
    obtain ⟨core, hcur, hg, rfl⟩ := World.step_ctx hs
    exact h.tracker hcur hg
  | dropCtxAtVersion v =>
    obtain ⟨core, hcur, hg, rfl⟩ := World.step_dropCtx hs
    exact h.tracker hcur hg
  | lookup k v =>
    cases hs
    rw [show v = w.core.currentVersion from hok]
    exact h.lookup k
  | computed k v epoch cell reads x deps =>
    obtain ⟨rfl, hF⟩ := hok
    obtain ⟨hc, res, hup, rfl⟩ := World.step_computed hs
    have h' := h.report (h.reportOk_of_computes hc hF) hup
    refine ⟨h'.sound, h'.results, fun e he => h'.running e ?_, h'.mismatches⟩
    rcases CoreState.updateComputed_cases hup with ⟨_, rfl⟩ | ⟨_, _, -, -, rfl⟩
    · exact mem_of_mem_erase he
    · exact mem_of_mem_erase he
  | unchanged k v epoch m =>
    obtain ⟨rfl, hF⟩ := hok
    obtain ⟨hc, res, hup, rfl⟩ := World.step_unchanged hs
    obtain ⟨reads, hr⟩ := h.reportOk_of_checksOut hc hF
    exact h.report hr hup
  | rewind keys v epoch => exact hok.elim

end WorldOk

end Bz.Dice
