import Bz.Materializer.Model

/-!
# A stale completion never takes effect

The message of a task is looked up by prefix and filtered only by its version, so it has to be
excluded that it meets an entry other than the one the task was created for.  The invariant
`Versioned` bounds the version of every task by the version of every entry its message could meet:
it is smaller, or the task is the current one of the entry, `IsCurrent`.

Versions are drawn before the tasks of the dependencies are created, so the versions of all tasks
are not ordered by creation.  Those of one declaration are: while an artifact is on the stack of
`materialize_artifact_recurse`, its entry stays as it is and no task is created below its path
(`Extends`).

Principal results: `materializeArtifact_sound`; `stale_completion_never_applies`.
-/

namespace Bz.Materializer

open Bz.Machine DataTree List Option

/-! ## The invariant -/

/-- What a task materializes is the entry that is declared. -/
def TaskKind.Fits : TaskKind → Stage → Prop
  | .materialize entry, .declared declared _ => entry = some declared
  | _, _ => True

/-- The task whose message the entry waits for. -/
structure IsCurrent (t : Task) (q : Path) (data : Data) : Prop where
  version : t.version = data.version
  path : t.path = q
  declaration : t.declaration = data.declaration
  fits : t.kind.Fits data.stage

/-- The invariant of versions. -/
structure Versioned (s : State) : Prop where
  data_lt : ∀ q data, s.tree.get q = some data → data.version < s.versionTracker
  task_lt : ∀ t ∈ s.tasks, t.version < s.versionTracker
  running : ∀ t ∈ s.running, t ∈ s.tasks
  ordered : s.tasks.Pairwise fun t t' =>
    t.path = t'.path → t.declaration = t'.declaration → t.version < t'.version
  current : ∀ q data t, s.tree.get q = some data → t ∈ s.tasks → q <+: t.path →
    t.version < data.version ∨ IsCurrent t q data

variable {s s' : State} {q path : Path} {data : Data} {t : Task}
  {f : Data → Data} {entry : Option Entry} {stack : List Path} {data' : Data}

/-- A change of an entry that no waiting task has to notice. -/
def Data.Supersedes (data' data : Data) : Prop :=
  data.version < data'.version ∨
    data.version = data'.version ∧ data.declaration = data'.declaration ∧
      ∀ kind : TaskKind, kind.Fits data.stage → kind.Fits data'.stage

theorem Data.Supersedes.bound (h : data'.Supersedes data)
    (hcurrent : t.version < data.version ∨ IsCurrent t q data) :
    t.version < data'.version ∨ IsCurrent t q data' := by
  obtain hlt | ⟨hversion, hdeclaration, hfits⟩ := h
  · left
    obtain hold | hold := hcurrent
    · exact hold.trans hlt
    · rw [hold.version]
      exact hlt
  · obtain hold | hold := hcurrent
    · left
      rw [← hversion]
      exact hold
    · right
      exact ⟨hold.version.trans hversion, hold.path, hold.declaration.trans hdeclaration,
        hfits _ hold.fits⟩

section

variable (h : Versioned s)
include h

theorem Versioned.bumpVersion : Versioned s.bumpVersion where
  data_lt q data hq := Nat.lt_succ_of_lt (h.data_lt q data hq)
  task_lt t ht := Nat.lt_succ_of_lt (h.task_lt t ht)
  running := h.running
  ordered := h.ordered
  current := h.current

theorem Versioned.modify (hq : s.tree.get q = some data)
    (hlt : (f data).version < s.versionTracker) (hf : (f data).Supersedes data) :
    Versioned (s.modify q f) := by
  refine ⟨?_, h.task_lt, h.running, h.ordered, ?_⟩
  · intro q' data' hq'
    rcases get_of_get_update hq hq' with ⟨rfl, rfl⟩ | hold
    · exact hlt
    · exact h.data_lt q' data' hold
  · intro q' data' t hq' ht hle
    rcases get_of_get_update hq hq' with ⟨rfl, rfl⟩ | hold
    · exact hf.bound (h.current q' data t hq ht hle)
    · exact h.current q' data' t hold ht hle

theorem Versioned.touch (hq : s.tree.get q = some data)
    (hprocessing : data.processing = (f data).processing)
    (hdeclaration : data.declaration = (f data).declaration)
    (hfits : ∀ kind : TaskKind, kind.Fits data.stage → kind.Fits (f data).stage) :
    Versioned (s.modify q f) := by
  have hversion : data.version = (f data).version := by
    rw [Data.version, Data.version, hprocessing]
  refine h.modify hq ?_ (.inr ⟨hversion, hdeclaration, hfits⟩)
  rw [← hversion]
  exact h.data_lt q data hq

/-- A tree in which every entry is an old one or has the next version. -/
theorem Versioned.replace {tree : ArtifactTree} (htree : ∀ q data, tree.get q = some data →
      s.tree.get q = some data ∨ data.version = s.versionTracker) :
    Versioned { s.bumpVersion with tree } := by
  refine ⟨?_, h.bumpVersion.task_lt, h.running, h.ordered, ?_⟩
  · intro q data hq
    obtain hold | hnew := htree q data hq
    · exact h.bumpVersion.data_lt q data hold
    · rw [hnew]
      exact Nat.lt_succ_self _
  · intro q data t hq ht hle
    obtain hold | hnew := htree q data hq
    · exact h.current q data t hold ht hle
    · left
      rw [hnew]
      exact h.task_lt t ht

theorem Versioned.spawn (hq : s.tree.get q = some data) (hcurrent : IsCurrent t q data)
    (hbelow : ∀ t' ∈ s.tasks, q <+: t'.path → t'.version < t.version) : Versioned (s.spawn t) := by
  refine ⟨h.data_lt, ?_, ?_, ?_, ?_⟩
  · intro t' ht'
    obtain hold | hnew := mem_append.mp ht'
    · exact h.task_lt t' hold
    · cases mem_singleton.mp hnew
      rw [hcurrent.version]
      exact h.data_lt q data hq
  · intro t' ht'
    obtain hold | hnew := mem_append.mp ht'
    · exact mem_append_left _ (h.running t' hold)
    · exact mem_append_right _ hnew
  · refine pairwise_append.mpr ⟨h.ordered, pairwise_singleton _ _, ?_⟩
    intro t' ht' t'' ht'' hpath _
    cases mem_singleton.mp ht''
    apply hbelow t' ht'
    rw [hpath, hcurrent.path]
  · intro q' data' t' hq' ht' hle
    obtain hold | hnew := mem_append.mp ht'
    · exact h.current q' data' t' hq' hold hle
    · cases mem_singleton.mp hnew
      right
      rw [hcurrent.path] at hle
      obtain rfl := eq_of_above hq' hq hle
      cases hq.symm.trans hq'
      exact hcurrent

end

/-! ## Materialization -/

/-- The same declaration with the same metadata. -/
def Data.SameArtifact (data data' : Data) : Prop :=
  data.declaration = data'.declaration ∧ data.stage.metadata = data'.stage.metadata

/-- What the materialization of a dependency does to a state. -/
structure Extends (stack : List Path) (s s' : State) : Prop where
  tracker : s.versionTracker ≤ s'.versionTracker
  entry : ∀ q, s'.tree.get q = s.tree.get q ∨
    q ∉ stack ∧ ∃ data data', s.tree.get q = some data ∧ s'.tree.get q = some data' ∧
      data.SameArtifact data'
  task : ∀ t ∈ s'.tasks, t ∈ s.tasks ∨ t.path ∉ stack ∧ ∃ data, s.tree.get t.path = some data

namespace Extends

variable {s'' : State}

theorem refl : Extends stack s s := ⟨le_rfl, fun _ => .inl rfl, fun _ ht => .inl ht⟩

theorem exists_get (h : Extends stack s s') (hq : s'.tree.get q = some data') :
    ∃ data, s.tree.get q = some data ∧ data.SameArtifact data' := by
  obtain heq | ⟨-, data, data'', hdata, hdata'', hsame⟩ := h.entry q
  · exact ⟨data', heq ▸ hq, rfl, rfl⟩
  · cases hq.symm.trans hdata''
    exact ⟨data, hdata, hsame⟩

theorem trans (h : Extends stack s s') (h' : Extends stack s' s'') : Extends stack s s'' := by
  refine ⟨h.tracker.trans h'.tracker, ?_, ?_⟩
  · intro q
    obtain heq' | ⟨hstack, data', data'', hdata', hdata'', hsame'⟩ := h'.entry q
    · rw [heq']
      exact h.entry q
    · obtain ⟨data, hdata, hsame⟩ := h.exists_get hdata'
      exact .inr ⟨hstack, data, data'', hdata, hdata'', hsame.1.trans hsame'.1,
        hsame.2.trans hsame'.2⟩
  · intro t ht
    obtain hold | ⟨hstack, data', hdata'⟩ := h'.task t ht
    · exact h.task t hold
    · obtain ⟨data, hdata, -⟩ := h.exists_get hdata'
      exact .inr ⟨hstack, data, hdata⟩

theorem weaken {p : Path} (h : Extends (p :: stack) s s') : Extends stack s s' := by
  refine ⟨h.tracker, ?_, ?_⟩
  · intro q
    obtain heq | ⟨hstack, hentry⟩ := h.entry q
    · exact .inl heq
    · exact .inr ⟨fun hmem => hstack (mem_cons_of_mem _ hmem), hentry⟩
  · intro t ht
    obtain hold | ⟨hstack, hentry⟩ := h.task t ht
    · exact .inl hold
    · exact .inr ⟨fun hmem => hstack (mem_cons_of_mem _ hmem), hentry⟩

theorem get_of_mem (h : Extends stack s s') (hq : q ∈ stack) : s'.tree.get q = s.tree.get q := by
  obtain heq | ⟨hstack, -⟩ := h.entry q
  · exact heq
  · exact absurd hq hstack

theorem modify (hq : s.tree.get q = some data) (hstack : q ∉ stack)
    (hf : data.SameArtifact (f data)) : Extends stack s (s.modify q f) := by
  refine ⟨le_rfl, ?_, fun _ ht => .inl ht⟩
  intro q'
  have hget : (s.modify q f).tree.get q' = _ := get_update_key hq f q'
  by_cases heq : q' = q
  · subst heq
    rw [if_pos rfl] at hget
    exact .inr ⟨hstack, data, f data, hq, hget, hf⟩
  · rw [if_neg heq] at hget
    exact .inl hget

theorem spawn (hq : s.tree.get q = some data) (hstack : q ∉ stack) (ht : t.path = q) :
    Extends stack s (s.spawn t) := by
  refine ⟨le_rfl, fun _ => .inl rfl, ?_⟩
  intro t' ht'
  obtain hold | hnew := mem_append.mp ht'
  · exact .inl hold
  · cases mem_singleton.mp hnew
    exact .inr (ht ▸ ⟨hstack, data, hq⟩)

end Extends

/-- The invariant is kept, and the stack is left alone. -/
def Sound (stack : List Path) (f : State → State) : Prop :=
  ∀ s, Versioned s → Versioned (f s) ∧ Extends stack s (f s)

theorem Sound.foldl {f : Path → State → State} (h : ∀ p, Sound stack (f p))
    (paths : List Path) : Sound stack fun s => paths.foldl (fun s p => f p s) s := by
  intro s hs
  induction paths generalizing s with
  | nil => exact ⟨hs, .refl⟩
  | cons p paths ih =>
    obtain ⟨hs1, hext⟩ := h p s hs
    obtain ⟨hs2, hext'⟩ := ih (f p s) hs1
    exact ⟨hs2, hext.trans hext'⟩

/-- The task of an artifact, created after those of its dependencies with a version from before. -/
theorem Extends.started (hs : Versioned s) (hq : s.tree.get q = some data)
    (hstack : q ∉ stack) (hfits : TaskKind.Fits (.materialize entry) data.stage)
    (hs' : Versioned s') (hext : Extends (q :: stack) s.bumpVersion s') :
    let started := (s'.spawn ⟨q, s.versionTracker, .materialize entry, data.declaration⟩).modify q
      fun data => { data with processing := .active .materializing s.versionTracker }
    Versioned started ∧ Extends stack s started := by
  let f (data : Data) : Data :=
    { data with processing := .active .materializing s.versionTracker }
  have hq' : s'.tree.get q = some data := (hext.get_of_mem mem_cons_self).trans hq
  have hlt : s.versionTracker < s'.versionTracker := hext.tracker
  -- a new task below the path would be at the path, which is on the stack
  have hbelow : ∀ t ∈ s'.tasks, q <+: t.path → t.version < s.versionTracker := by
    intro t ht hle
    obtain hold | ⟨hnot, data', hdata'⟩ := hext.task t ht
    · exact hs.task_lt t hold
    · obtain rfl := eq_of_above hq hdata' hle
      exact absurd mem_cons_self hnot
  have hget : (s'.modify q f).tree.get q = some (f data) :=
    (get_update_key hq' f q).trans (if_pos rfl)
  constructor
  · have hmodify : Versioned (s'.modify q f) :=
      hs'.modify hq' hlt (.inl (hs.data_lt q data hq))
    exact hmodify.spawn hget ⟨rfl, rfl, rfl, hfits⟩ hbelow
  · have hbump : Extends stack s s' :=
      ⟨(Nat.le_succ _).trans hext.weaken.tracker, hext.weaken.entry, hext.weaken.task⟩
    have hmodify : Extends stack s' (s'.modify q f) := .modify hq' hstack ⟨rfl, rfl⟩
    exact (hbump.trans hmodify).trans (.spawn hget hstack rfl)

theorem startMaterialization_sound {recurse : Path → State → State}
    (hrecurse : ∀ p, Sound (q :: stack) (recurse p)) (hs : Versioned s)
    (hq : s.tree.get q = some data) (hstack : q ∉ stack)
    (hfits : TaskKind.Fits (.materialize entry) data.stage) (copied : List Path) :
    Versioned (startMaterialization recurse s q data entry copied) ∧
      Extends stack s (startMaterialization recurse s q data entry copied) := by
  obtain ⟨hs1, hext1⟩ := Sound.foldl hrecurse copied s.bumpVersion hs.bumpVersion
  obtain ⟨hs2, hext2⟩ := Sound.foldl hrecurse _ _ hs1
  exact Extends.started hs hq hstack hfits hs2 (hext1.trans hext2)

theorem TaskKind.fits_materialized (kind : TaskKind) (metadata : Entry) (time : Nat)
    (active : Bool) : kind.Fits (.materialized metadata time active) := by
  cases kind <;> trivial

theorem materializeArtifactInner_sound (cfg : Config) (env : Env)
    {recurse : List Path → Path → State → State}
    (hrecurse : ∀ stack p, Sound stack (recurse stack p)) (stack : List Path) :
    Sound stack (materializeArtifactInner cfg env recurse stack path) := by
  intro s hs
  unfold materializeArtifactInner
  split
  · exact ⟨hs, .refl⟩
  next q data hfound =>
  obtain ⟨-, hq⟩ := prefixGet_eq_some.mp hfound
  split
  · exact ⟨hs, .refl⟩
  next hstack =>
  split
  · exact ⟨hs, .refl⟩
  split
  next entry srcs hstage =>
    exact startMaterialization_sound (hrecurse _) hs hq hstack (by rw [hstage]; rfl) srcs
  next entry method _ hstage =>
    exact startMaterialization_sound (hrecurse _) hs hq hstack (by rw [hstage]; rfl) []
  next metadata time active hstage =>
    split
    · exact ⟨hs, .refl⟩
    split
    · exact startMaterialization_sound (hrecurse _) hs hq hstack (by rw [hstage]; trivial) []
    split
    · refine ⟨hs.touch hq rfl rfl fun kind _ => kind.fits_materialized _ _ _, ?_⟩
      exact .modify hq hstack ⟨rfl, by rw [hstage]; rfl⟩
    · exact ⟨hs, .refl⟩

/-- **The recursion keeps the invariant and leaves its stack alone.** -/
theorem materializeArtifact_sound (cfg : Config) (env : Env) (room : Nat) (stack : List Path)
    (path : Path) : Sound stack (materializeArtifact cfg env room stack path) := by
  induction room generalizing stack path with
  | zero => exact fun s hs => ⟨hs, .refl⟩
  | succ room ih => exact materializeArtifactInner_sound cfg env ih stack

/-! ## Where materialized artifacts come from -/

/-- What is materialized afterwards was so before, under the same declaration, or `P`. -/
def MaterializedBy (P : Path → Data → Entry → Prop) (s s' : State) : Prop :=
  ∀ q data' metadata, s'.tree.get q = some data' → data'.stage.metadata = some metadata →
    (∃ data, s.tree.get q = some data ∧ data.declaration = data'.declaration ∧
      data.stage.metadata = some metadata) ∨ P q data' metadata

section MaterializedBy

variable {P : Path → Data → Entry → Prop}

theorem MaterializedBy.refl : MaterializedBy P s s :=
  fun _ data' _ hq hmetadata => .inl ⟨data', hq, rfl, hmetadata⟩

/-- A tree whose entries are old ones or not materialized. -/
theorem MaterializedBy.of_tree (h : ∀ q data, s'.tree.get q = some data →
    s.tree.get q = some data ∨ data.stage.metadata = none) : MaterializedBy P s s' := by
  intro q data' metadata hq hmetadata
  obtain hold | hnew := h q data' hq
  · exact .inl ⟨data', hold, rfl, hmetadata⟩
  · rw [hnew] at hmetadata
    cases hmetadata

theorem Extends.materializedBy (h : Extends stack s s') : MaterializedBy P s s' := by
  intro q data' metadata hq hmetadata
  obtain ⟨data, hdata, hsame⟩ := h.exists_get hq
  exact .inl ⟨data, hdata, hsame.1, hsame.2.trans hmetadata⟩

end MaterializedBy

/-! ## Touched entries -/

/-- What is neither moved on to another version nor changed in what is recorded of it. -/
structure Data.Touched (data data' : Data) : Prop where
  processing : data'.processing = data.processing
  declaration : data'.declaration = data.declaration
  metadata : data'.stage.metadata = data.stage.metadata
  fits : ∀ kind : TaskKind, kind.Fits data.stage → kind.Fits data'.stage

/-- Some entries are touched. -/
inductive Touches (s : State) : State → Prop
  | refl : Touches s s
  | modify {s' : State} {q : Path} {data : Data} {f : Data → Data} (h : Touches s s')
      (hq : s'.tree.get q = some data) (hf : data.Touched (f data)) : Touches s (s'.modify q f)

theorem Touches.versioned (h : Touches s s') (hs : Versioned s) : Versioned s' := by
  induction h with
  | refl => exact hs
  | modify _ hq hf ih => exact ih.touch hq hf.processing.symm hf.declaration.symm hf.fits

theorem Touches.extends (h : Touches s s') : Extends [] s s' := by
  induction h with
  | refl => exact .refl
  | modify _ hq hf ih =>
    exact ih.trans (.modify hq not_mem_nil ⟨hf.declaration.symm, hf.metadata.symm⟩)

/-! ## What a command finds -/

section Commands

variable (cfg : Config) (env : Env)

/-- `declare_existing` finds the artifact materialized already. -/
def reusesExisting (s : State) (path : Path) (value : ArtifactValue) : Bool :=
  match s.tree.prefixGet path with
  | some (found, ⟨_, .materialized metadata _ _, _, _⟩) =>
    found = path ∧ artifactMetadataMatchesEntry cfg.windows metadata value.entry ∧
      env.pathExists path
  | _ => false

/-- `declare` finds the artifact, materialized or declared. -/
def keepsDeclared (s : State) (path : Path) (value : ArtifactValue) : Bool :=
  match s.tree.prefixGet path with
  | some (found, ⟨_, .materialized metadata _ _, _, _⟩) =>
    found = path ∧ artifactMetadataMatchesEntry cfg.windows metadata value.entry ∧
      !cfg.forceDeclareMismatch ∧ env.pathExists path
  | some (found, ⟨_, .declared entry _, _, _⟩) => found = path ∧ entry = value.entry
  | none => false

end Commands

section Commands

variable {cfg : Config} {env : Env} {value : ArtifactValue}

theorem declareExisting_of_reuses (h : reusesExisting cfg env s path value) :
    ∃ data metadata time active,
      s.tree.get path = some data ∧ data.stage = .materialized metadata time active ∧
      artifactMetadataMatchesEntry cfg.windows metadata value.entry ∧
      declareExisting cfg env s path value = s.modify path fun data =>
        { data with stage := .materialized value.entry time true } := by
  unfold reusesExisting at h
  split at h
  · next found deps metadata time active processing declaration hfound =>
    simp only [decide_eq_true_eq] at h
    obtain ⟨-, hget⟩ := prefixGet_eq_some.mp hfound
    rw [h.1] at hget
    unfold declareExisting
    rw [hfound]
    dsimp only
    rw [if_pos h]
    exact ⟨_, metadata, time, active, hget, rfl, h.2.1, rfl⟩
  · cases h

theorem declareExisting_of_not_reuses (h : ¬ reusesExisting cfg env s path value) :
    declareExisting cfg env s path value = { s.bumpVersion with
      tree := s.tree.insert ⟨value.deps, .materialized value.entry env.now true,
        .done s.versionTracker, s.versionTracker⟩ path } := by
  unfold reusesExisting at h
  unfold declareExisting
  split
  · next hfound =>
    simp only [hfound, decide_eq_true_eq] at h
    rw [if_neg h]
  · rfl

theorem declare_of_keeps (h : keepsDeclared cfg env s path value) (method : Method) :
    Touches s (declare cfg env s path value method) := by
  unfold keepsDeclared at h
  split at h
  · next hfound =>
    simp only [decide_eq_true_eq] at h
    obtain ⟨-, hget⟩ := prefixGet_eq_some.mp hfound
    rw [h.1] at hget
    unfold declare
    rw [hfound]
    dsimp only
    rw [if_pos h]
    exact .modify .refl hget ⟨rfl, rfl, rfl, fun kind _ => kind.fits_materialized _ _ _⟩
  · next hfound =>
    simp only [decide_eq_true_eq] at h
    obtain ⟨-, hget⟩ := prefixGet_eq_some.mp hfound
    rw [h.1] at hget
    unfold declare
    rw [hfound]
    dsimp only
    rw [if_pos h]
    exact .modify .refl hget ⟨rfl, rfl, rfl, fun _ h => h⟩
  · cases h

theorem declare_of_not_keeps (h : ¬ keepsDeclared cfg env s path value) (method : Method) :
    declare cfg env s path value method = declareNew cfg env s path value method := by
  unfold keepsDeclared at h
  unfold declare
  split
  · next hfound =>
    simp only [hfound, decide_eq_true_eq] at h
    rw [if_neg h]
  · next hfound =>
    simp only [hfound, decide_eq_true_eq] at h
    rw [if_neg h]
  · rfl

theorem hasArtifact_touches : Touches s (hasArtifact env s path) := by
  unfold hasArtifact
  split
  · next hfound =>
    split
    · next hcond =>
      obtain ⟨-, hq⟩ := prefixGet_eq_some.mp hfound
      rw [hcond.1] at hq
      exact .modify .refl hq ⟨rfl, rfl, rfl, fun kind _ => kind.fits_materialized _ _ _⟩
    · exact .refl
  · exact .refl

theorem matchArtifact_touches (h : Touches s s') :
    Touches s (matchArtifact cfg env s' path value).2 := by
  unfold matchArtifact
  split
  · exact h
  · next found data hfound =>
    dsimp only
    split_ifs with hcond
    · obtain ⟨-, hq⟩ := prefixGet_eq_some.mp hfound
      rw [hcond.1] at hq
      exact h.modify hq ⟨rfl, rfl, rfl, fun _ h => h⟩
    · exact h

theorem matchArtifacts_touches (artifacts : List (Path × ArtifactValue)) (h : Touches s s') :
    Touches s (matchArtifacts cfg env s' artifacts) := by
  induction artifacts generalizing s' with
  | nil => exact h
  | cons artifact artifacts ih =>
    obtain ⟨path, value⟩ := artifact
    have hmatch : Touches s (matchArtifact cfg env s' path value).2 :=
      matchArtifact_touches h
    rw [matchArtifacts]
    split
    · next s1 heq =>
      rw [heq] at hmatch
      exact ih hmatch
    · next s1 heq =>
      rw [heq] at hmatch
      exact hmatch

end Commands

/-! ## The other commands -/

section Commands

variable (cfg : Config) (env : Env) {P : Path → Data → Entry → Prop}

theorem declareNew_spec (hs : Versioned s) (path : Path) (value : ArtifactValue)
    (method : Method) : Versioned (declareNew cfg env s path value method) ∧
      MaterializedBy P s (declareNew cfg env s path value method) := by
  have hget : ∀ q data, (declareNew cfg env s path value method).tree.get q = some data →
      s.tree.get q = some data ∨
        data.version = s.versionTracker ∧ data.stage = .declared value.entry method := by
    intro q data hq
    obtain ⟨-, rfl⟩ | hold := get_of_get_insert hq
    · exact .inr ⟨rfl, rfl⟩
    · exact .inl (get_of_get_remove hold)
  constructor
  · have hreplace := hs.replace fun q data hq => (hget q data hq).imp id And.left
    have hfits (writes : Bool) : TaskKind.Fits
        (if writes then .materialize (some value.entry) else .clean)
        (.declared value.entry method) := by
      cases writes <;> trivial
    exact hreplace.spawn (get_insert_self _) ⟨rfl, rfl, rfl, hfits _⟩ fun t ht _ => hs.task_lt t ht
  · refine .of_tree fun q data hq => (hget q data hq).imp id ?_
    rintro ⟨-, hstage⟩
    rw [hstage]
    rfl

theorem declare_spec (hs : Versioned s) (path : Path) (value : ArtifactValue)
    (method : Method) : Versioned (declare cfg env s path value method) ∧
      MaterializedBy P s (declare cfg env s path value method) := by
  by_cases h : keepsDeclared cfg env s path value
  · have htouches := declare_of_keeps h method
    exact ⟨htouches.versioned hs, htouches.extends.materializedBy⟩
  · rw [declare_of_not_keeps h]
    exact declareNew_spec cfg env hs path value method

theorem declareExisting_spec (hs : Versioned s) (path : Path) (value : ArtifactValue) :
    Versioned (declareExisting cfg env s path value) ∧
      MaterializedBy (fun q _ metadata => q = path ∧ metadata = value.entry) s
        (declareExisting cfg env s path value) := by
  by_cases h : reusesExisting cfg env s path value
  · obtain ⟨_, _, _, _, hget, -, -, heq⟩ := declareExisting_of_reuses h
    rw [heq]
    refine ⟨hs.touch hget rfl rfl fun kind _ => kind.fits_materialized _ _ _, ?_⟩
    intro q data' metadata hq hmetadata
    rcases get_of_get_update hget hq with ⟨rfl, rfl⟩ | hold
    · exact .inr ⟨rfl, (Option.some.inj hmetadata).symm⟩
    · exact .inl ⟨data', hold, rfl, hmetadata⟩
  · rw [declareExisting_of_not_reuses h]
    constructor
    · refine hs.replace fun q data hq => ?_
      obtain ⟨-, rfl⟩ | hold := get_of_get_insert hq
      · exact .inr rfl
      · exact .inl hold
    · intro q data' metadata hq hmetadata
      obtain ⟨rfl, rfl⟩ | hold := get_of_get_insert hq
      · exact .inr ⟨rfl, (Option.some.inj hmetadata).symm⟩
      · exact .inl ⟨data', hold, rfl, hmetadata⟩

theorem foldl_declareExisting_spec (hs : Versioned s) (artifacts : List (Path × ArtifactValue)) :
    Versioned (artifacts.foldl (fun s (path, value) => declareExisting cfg env s path value) s) ∧
      MaterializedBy (fun q _ metadata => ∃ value, (q, value) ∈ artifacts ∧ value.entry = metadata)
        s (artifacts.foldl (fun s (path, value) => declareExisting cfg env s path value) s) := by
  induction artifacts generalizing s with
  | nil => exact ⟨hs, .refl⟩
  | cons artifact artifacts ih =>
    obtain ⟨hs1, hfirst⟩ := declareExisting_spec cfg env hs artifact.1 artifact.2
    obtain ⟨hs2, hrest⟩ := ih hs1
    refine ⟨hs2, ?_⟩
    intro q data' metadata hq hmetadata
    obtain ⟨data1, hq1, hdeclaration, hmetadata1⟩ | ⟨value, hmem, hentry⟩ :=
      hrest q data' metadata hq hmetadata
    · obtain hold | ⟨rfl, rfl⟩ := hfirst q data1 metadata hq1 hmetadata1
      · obtain ⟨data, hdata, hdeclaration1, hmetadata⟩ := hold
        exact .inl ⟨data, hdata, hdeclaration1.trans hdeclaration, hmetadata⟩
      · exact .inr ⟨artifact.2, mem_cons_self, rfl⟩
    · exact .inr ⟨value, mem_cons_of_mem _ hmem, hentry⟩

theorem get_of_get_invalidatePaths {paths : List Path}
    (h : (invalidatePaths s paths).tree.get q = some data) : s.tree.get q = some data := by
  unfold invalidatePaths at h
  generalize s.tree = tree at h ⊢
  induction paths generalizing tree with
  | nil => exact h
  | cons path paths ih => exact get_of_get_remove (ih _ h)

theorem invalidatePaths_spec (hs : Versioned s) (paths : List Path) :
    Versioned (invalidatePaths s paths) ∧ MaterializedBy P s (invalidatePaths s paths) := by
  refine ⟨⟨?_, hs.task_lt, hs.running, hs.ordered, ?_⟩,
    .of_tree fun q data hq => .inl (get_of_get_invalidatePaths hq)⟩
  · exact fun q data hq => hs.data_lt q data (get_of_get_invalidatePaths hq)
  · exact fun q data t hq => hs.current q data t (get_of_get_invalidatePaths hq)

end Commands

/-! ## Messages -/

/-- A task that is not older than the entry its message meets is the current one. -/
theorem Versioned.isCurrent (hs : Versioned s) (ht : t ∈ s.tasks)
    (hfound : s.tree.prefixGet t.path = some (q, data)) (hversion : ¬ t.version < data.version) :
    s.tree.get t.path = some data ∧ IsCurrent t t.path data := by
  obtain ⟨hle, hq⟩ := prefixGet_eq_some.mp hfound
  have hcurrent := (hs.current q data t hq ht hle).resolve_left hversion
  rw [hcurrent.path]
  exact ⟨hq, hcurrent⟩

/-- **The current task of an entry is the latest of its declaration.** -/
theorem Versioned.latestTask_eq (hs : Versioned s) (ht : t ∈ s.tasks)
    (hq : s.tree.get q = some data) (hcurrent : IsCurrent t q data) :
    s.latestTask q data.declaration = some t := by
  have hordered := hs.ordered.filter fun t => t.path = q ∧ t.declaration = data.declaration
  have hmem : t ∈ s.tasks.filter fun t => t.path = q ∧ t.declaration = data.declaration :=
    mem_filter.mpr ⟨ht, by simp [hcurrent.path, hcurrent.declaration]⟩
  have hsub : ∀ t' ∈ s.tasks.filter fun t => t.path = q ∧ t.declaration = data.declaration,
      t' ∈ s.tasks ∧ t'.path = q ∧ t'.declaration = data.declaration := by
    intro t' ht'
    simpa using mem_filter.mp ht'
  rw [State.latestTask]
  generalize s.tasks.filter (fun t => t.path = q ∧ t.declaration = data.declaration) = tasks at *
  obtain rfl | ⟨init, last, rfl⟩ := tasks.eq_nil_or_concat'
  · cases hmem
  obtain ⟨hlast, hpath, hdeclaration⟩ := hsub last (by simp)
  rw [getLast?_concat]
  obtain hinit | hlast' := mem_append.mp hmem
  · -- an earlier task has a smaller version than the last, which is bounded by the entry
    have hlt : t.version < last.version := (pairwise_append.mp hordered).2.2 t hinit last
      mem_cons_self (hcurrent.path.trans hpath.symm)
      (hcurrent.declaration.trans hdeclaration.symm)
    rw [hcurrent.version] at hlt
    obtain hbound | hbound := hs.current q data last hq hlast (by rw [hpath])
    · exact absurd hbound hlt.asymm
    · exact absurd hbound.version hlt.ne'
  · rw [mem_singleton.mp hlast']

/-- What the message of a task does, by the kind of the task and the entry that it meets. -/
inductive Finishes (s : State) (t : Task) (timestamp : Nat) : Bool → State → Prop
  | ignored {ok : Bool} (h : ∀ found info, s.tree.prefixGet t.path = some (found, info) →
      t.version < info.version ∨ t.kind = .clean ∧ ok = false) : Finishes s t timestamp ok s
  | cleaned {data : Data} (hkind : t.kind = .clean) (hq : s.tree.get t.path = some data)
      (hcurrent : IsCurrent t t.path data) : Finishes s t timestamp true
        (s.modify t.path fun info => { info with processing := .done t.version })
  | written {data : Data} {entry : Option Entry} (hkind : t.kind = .materialize entry)
      (hq : s.tree.get t.path = some data) (hcurrent : IsCurrent t t.path data) :
      Finishes s t timestamp true (s.modify t.path fun info =>
        { info with
          stage := match info.stage with
            | .materialized metadata lastAccessTime active =>
              .materialized metadata lastAccessTime active
            | .declared entry _ => .materialized entry timestamp true
          processing := .done t.version })
  | kept {data : Data} {entry : Option Entry} {metadata : Entry}
      (hkind : t.kind = .materialize entry) (hq : s.tree.get t.path = some data)
      (hcurrent : IsCurrent t t.path data) (hstage : data.stage.metadata = some metadata) :
      Finishes s t timestamp false (s.bumpVersion.modify t.path fun info =>
        { info with processing := .done s.versionTracker })
  | again {data : Data} {entry : Option Entry} (hkind : t.kind = .materialize entry)
      (hq : s.tree.get t.path = some data) (hcurrent : IsCurrent t t.path data)
      (hstage : data.stage.metadata = none) :
      Finishes s t timestamp false ((s.bumpVersion.spawn
        ⟨t.path, s.versionTracker, .clean, data.declaration⟩).modify t.path fun info =>
          { info with processing := .active .cleaning s.versionTracker })

/-- **Every message does one of these.** -/
theorem finishes (hs : Versioned s) (ht : t ∈ s.tasks) (timestamp : Nat) (ok : Bool) :
    Finishes s t timestamp ok (finish s t timestamp ok) := by
  unfold finish
  cases hkind : t.kind with
  | clean =>
    dsimp only
    unfold cleanupFinished
    split
    · next hnone => exact .ignored (by simp [hnone])
    next found info hfound =>
    split
    · next hversion => exact .ignored (by simp [hfound, hversion])
    next hversion =>
    obtain ⟨hq, hcurrent⟩ := hs.isCurrent ht hfound hversion
    split
    · next hok =>
      subst hok
      exact .cleaned hkind hq hcurrent
    · next hok => exact .ignored (by simp [hkind, hok])
  | materialize entry =>
    dsimp only
    unfold materializationFinished
    split
    · next hnone => exact .ignored (by simp [hnone])
    next found info hfound =>
    split
    · next hversion => exact .ignored (by simp [hfound, hversion])
    next hversion =>
    obtain ⟨hq, hcurrent⟩ := hs.isCurrent ht hfound hversion
    split
    · next hok =>
      subst hok
      exact .written hkind hq hcurrent
    next hok =>
    obtain rfl : ok = false := by simpa using hok
    split
    · next hstage => exact .kept hkind hq hcurrent (by rw [hstage]; rfl)
    · next hstage => exact .again hkind hq hcurrent (by rw [hstage]; rfl)

/-- **A message changes only the entry of which its task is the current one.** -/
theorem finish_get_ne {timestamp : Nat} {ok : Bool} (hs : Versioned s) (ht : t ∈ s.tasks)
    (hne : (finish s t timestamp ok).tree.get q ≠ s.tree.get q) :
    ∃ data, s.tree.get q = some data ∧ IsCurrent t q data := by
  have hmodify {data : Data} {f : Data → Data} (hq : s.tree.get t.path = some data)
      (hcurrent : IsCurrent t t.path data) (hne : (s.modify t.path f).tree.get q ≠ s.tree.get q) :
      ∃ data, s.tree.get q = some data ∧ IsCurrent t q data := by
    rw [State.modify, get_update_key hq] at hne
    split at hne
    · next heq => exact ⟨data, heq ▸ ⟨hq, hcurrent⟩⟩
    · exact absurd rfl hne
  have hfinishes := finishes hs ht timestamp ok
  generalize finish s t timestamp ok = s' at hfinishes hne
  cases hfinishes with
  | ignored => exact absurd rfl hne
  | cleaned _ hq hcurrent | written _ hq hcurrent | kept _ hq hcurrent _ | again _ hq hcurrent _ =>
    exact hmodify hq hcurrent hne

theorem finish_spec (hs : Versioned s) (ht : t ∈ s.tasks) (timestamp : Nat) (ok : Bool) :
    Versioned (finish s t timestamp ok) ∧
      MaterializedBy (fun q data' metadata => ok = true ∧ t.kind = .materialize (some metadata) ∧
          ∃ data, s.tree.get q = some data ∧ IsCurrent t q data ∧
            data.declaration = data'.declaration) s (finish s t timestamp ok) := by
  -- a failure draws a version, with which it moves the entry on
  have hmoved {data : Data} {f : Data → Data} (hq : s.tree.get t.path = some data)
      (hf : (f data).version = s.versionTracker) :
      Versioned (s.bumpVersion.modify t.path f) := by
    refine hs.bumpVersion.modify hq ?_ (.inl ?_)
    · rw [hf]
      exact Nat.lt_succ_self _
    · rw [hf]
      exact hs.data_lt _ data hq
  have hfinishes := finishes hs ht timestamp ok
  generalize finish s t timestamp ok = s' at hfinishes ⊢
  cases hfinishes with
  | ignored => exact ⟨hs, .refl⟩
  | cleaned _ hq hcurrent =>
    refine ⟨hs.modify hq (hs.task_lt t ht) ?_,
      (Extends.modify hq not_mem_nil ⟨rfl, rfl⟩).materializedBy⟩
    exact .inr ⟨hcurrent.version.symm, rfl, fun _ h => h⟩
  | @written data entry hkind hq hcurrent =>
    refine ⟨hs.modify hq (hs.task_lt t ht) (.inr ⟨hcurrent.version.symm, rfl, ?_⟩), ?_⟩
    · intro kind _
      split <;> exact kind.fits_materialized _ _ _
    · intro q' data' metadata hq' hmetadata
      rcases get_of_get_update hq hq' with ⟨rfl, rfl⟩ | hold
      · have hfits := hcurrent.fits
        cases hstage : data.stage with
        | materialized metadata' time active =>
          exact .inl ⟨data, hq, rfl, hstage ▸ hmetadata⟩
        | declared declared method =>
          rw [hstage] at hmetadata
          rw [hkind, hstage] at hfits
          exact .inr ⟨rfl, by rw [hkind, hfits.trans hmetadata], data, hq, hcurrent, rfl⟩
      · exact .inl ⟨data', hold, rfl, hmetadata⟩
  | kept _ hq =>
    exact ⟨hmoved hq rfl, (Extends.modify (s := s.bumpVersion) hq not_mem_nil
      ⟨rfl, rfl⟩).materializedBy⟩
  | @again data _ _ hq =>
    let f (info : Data) : Data := { info with processing := .active .cleaning s.versionTracker }
    have hget : (s.bumpVersion.modify t.path f).tree.get t.path = some (f data) :=
      (get_update_key hq f t.path).trans (if_pos rfl)
    refine ⟨(hmoved hq rfl).spawn hget ⟨rfl, rfl, rfl, trivial⟩ ?_,
      (Extends.modify (s := s.bumpVersion) hq not_mem_nil ⟨rfl, rfl⟩).materializedBy⟩
    exact fun t' ht' _ => hs.task_lt t' ht'

/-! ## Runs -/

theorem restored_get {sqliteState : List MaterializerStateEntry}
    {declaredCasState : List MaterializerDeclaredCasStateEntry}
    (h : (restored sqliteState declaredCasState).tree.get q = some data) :
    data.processing = .done 0 ∧ data.declaration = 0 :=
  forall_get_foldl_insert (P := fun data => data.processing = .done 0 ∧ data.declaration = 0)
    (fun _ _ => ⟨rfl, rfl⟩)
    (forall_get_foldl_insert (fun _ _ => ⟨rfl, rfl⟩) (by simp)) q data h

theorem restored_versioned (sqliteState : List MaterializerStateEntry)
    (declaredCasState : List MaterializerDeclaredCasStateEntry) :
    Versioned (restored sqliteState declaredCasState) := by
  refine ⟨?_, ?_, ?_, List.Pairwise.nil, ?_⟩
  · intro q data hq
    rw [Data.version, (restored_get hq).1]
    exact Nat.zero_lt_one
  · exact fun t ht => absurd ht not_mem_nil
  · exact fun t ht => ht
  · exact fun q data t _ ht => absurd ht not_mem_nil

theorem Versioned.eraseIdx (hs : Versioned s) (index : Nat) :
    Versioned { s with running := s.running.eraseIdx index } :=
  ⟨hs.data_lt, hs.task_lt, fun t ht => hs.running t (mem_of_mem_eraseIdx ht), hs.ordered,
    hs.current⟩

/-- How an artifact becomes materialized in a step. -/
def MaterializedIn (s : State) (command : Command) (q : Path) (data' : Data) (metadata : Entry) :
    Prop :=
  (∃ artifacts value, command = .declareExisting artifacts ∧ (q, value) ∈ artifacts ∧
    value.entry = metadata) ∨
  ∃ index timestamp task, command = .finished index timestamp true ∧
    s.running[index]? = some task ∧ task.path = q ∧ task.kind = .materialize (some metadata) ∧
    s.latestTask q data'.declaration = some task

theorem step_spec {cfg : Config} {l : Env × Command} (hs : Versioned s)
    (h : step cfg s l = some s') : Versioned s' ∧ MaterializedBy (MaterializedIn s l.2) s s' := by
  obtain ⟨env, command⟩ := l
  cases command with
  | declare path value method =>
    cases h
    exact declare_spec cfg env hs path value method
  | declareExisting artifacts =>
    cases h
    obtain ⟨hs', hby⟩ := foldl_declareExisting_spec cfg env hs artifacts
    refine ⟨hs', fun q data' metadata hq hmetadata => ?_⟩
    refine (hby q data' metadata hq hmetadata).imp id ?_
    rintro ⟨value, hmem, hentry⟩
    exact .inl ⟨artifacts, value, rfl, hmem, hentry⟩
  | matchArtifacts artifacts =>
    cases h
    have htouches : Touches s (matchArtifacts cfg env s artifacts) :=
      matchArtifacts_touches artifacts .refl
    exact ⟨htouches.versioned hs, htouches.extends.materializedBy⟩
  | hasArtifact path =>
    cases h
    exact ⟨hasArtifact_touches.versioned hs, hasArtifact_touches.extends.materializedBy⟩
  | invalidateFilePaths paths =>
    cases h
    exact invalidatePaths_spec hs paths
  | ensure paths =>
    cases h
    obtain ⟨hs', hext⟩ :=
      Sound.foldl (fun path => materializeArtifact_sound cfg env env.stackRoom [] path) paths s hs
    exact ⟨hs', hext.materializedBy⟩
  | finished index timestamp ok =>
    rw [step] at h
    split at h
    · cases h
    next task htask =>
    cases h
    have ht : task ∈ s.tasks := hs.running task (mem_of_getElem? htask)
    obtain ⟨hs', hby⟩ := finish_spec (hs.eraseIdx index) ht timestamp ok
    refine ⟨hs', fun q data' metadata hq hmetadata => ?_⟩
    refine (hby q data' metadata hq hmetadata).imp id ?_
    rintro ⟨rfl, hkind, data, hdata, hcurrent, hdeclaration⟩
    have hlatest := hs.latestTask_eq ht hdata hcurrent
    rw [hdeclaration] at hlatest
    exact .inr ⟨index, timestamp, task, rfl, htask, hcurrent.path, hkind, hlatest⟩

/-- **No stale completion takes effect.** In every run from a restored tree: whatever a message
changes is the entry at exactly its path, and its task is the latest one of the declaration of that
entry; what is materialized after a step was so before it, under the same declaration, or was
declared as existing, or is the entry that the latest task of its declaration has materialized. -/
theorem stale_completion_never_applies {cfg : Config} {sqliteState : List MaterializerStateEntry}
    {declaredCasState : List MaterializerDeclaredCasStateEntry} {l : Env × Command}
    (hs : Reach (step cfg) (fun _ _ => True) (restored sqliteState declaredCasState) s)
    (h : step cfg s l = some s') :
    (∀ index timestamp ok task q, l.2 = .finished index timestamp ok →
      s.running[index]? = some task → s'.tree.get q ≠ s.tree.get q →
      task.path = q ∧ ∃ data, s.tree.get q = some data ∧ task.declaration = data.declaration ∧
        s.latestTask q data.declaration = some task) ∧
    ∀ q data' metadata, s'.tree.get q = some data' → data'.stage.metadata = some metadata →
      (∃ data, s.tree.get q = some data ∧ data.declaration = data'.declaration ∧
        data.stage.metadata = some metadata) ∨
      (∃ artifacts value, l.2 = .declareExisting artifacts ∧ (q, value) ∈ artifacts ∧
        value.entry = metadata) ∨
      ∃ index timestamp task, l.2 = .finished index timestamp true ∧
        s.running[index]? = some task ∧ task.path = q ∧ task.kind = .materialize (some metadata) ∧
        s.latestTask q data'.declaration = some task := by
  have hversioned : Versioned s := hs.invariant (fun _ _ _ hs _ hstep => (step_spec hs hstep).1)
    (restored_versioned sqliteState declaredCasState)
  refine ⟨?_, (step_spec hversioned h).2⟩
  intro index timestamp ok task q hl htask hne
  obtain ⟨env, command⟩ := l
  cases hl
  rw [step, htask] at h
  cases h
  have ht : task ∈ s.tasks := hversioned.running task (mem_of_getElem? htask)
  obtain ⟨data, hq, hcurrent⟩ := finish_get_ne (hversioned.eraseIdx index) ht hne
  exact ⟨hcurrent.path, data, hq, hcurrent.declaration, hversioned.latestTask_eq ht hq hcurrent⟩

/-- Two versions of one artifact, each materialized on demand; the task of the first ends late. -/
def redeclaration : List (Env × Command) :=
  let env : Env := ⟨fun _ => true, 5, false, 8⟩
  [(env, .declare ["a"] ⟨.leaf (.file "first" false), none⟩ .casDownload),
    (env, .ensure [["a"]]),
    (env, .declare ["a"] ⟨.leaf (.file "second" false), none⟩ .casDownload),
    (env, .ensure [["a", "b"]]),
    (env, .finished 1 6 true)]

def afterRedeclaration : State :=
  (run (step ⟨false, false, false, false, true⟩) (fun _ _ => True) (restored [] [])
    redeclaration).get (by decide)

/-- The late message changes nothing; that of the second task materializes the second version. -/
theorem stale_completion_never_applies_redeclared :
    ∃ s', step ⟨false, false, false, false, true⟩ afterRedeclaration
        (⟨fun _ => true, 8, false, 8⟩, .finished 2 7 true) = some s' ∧
      (afterRedeclaration.tree.get ["a"]).map (·.stage) =
        some (.declared (.leaf (.file "second" false)) .casDownload) ∧
      (s'.tree.get ["a"]).map (·.stage) =
        some (.materialized (.leaf (.file "second" false)) 7 true) ∧
      ∃ task data, afterRedeclaration.running[2]? = some task ∧
        afterRedeclaration.tree.get ["a"] = some data ∧ task.path = ["a"] ∧
        afterRedeclaration.latestTask ["a"] data.declaration = some task := by
  have hs : Reach (step ⟨false, false, false, false, true⟩) (fun _ _ => True) (restored [] [])
      afterRedeclaration := reach_of_run _ (some_get _).symm
  have hstep := (some_get (x := step ⟨false, false, false, false, true⟩ afterRedeclaration
    (⟨fun _ => true, 8, false, 8⟩, .finished 2 7 true)) (by decide)).symm
  have htask := (some_get (x := afterRedeclaration.running[2]?) (by decide)).symm
  obtain ⟨hpath, data, hdata, -, hlatest⟩ :=
    (stale_completion_never_applies hs hstep).1 2 7 true _ ["a"] rfl htask (by
      intro heq
      have hstage := congrArg (Option.map (·.stage)) heq
      revert hstage
      decide)
  exact ⟨_, hstep, by decide, by decide, _, data, htask, hdata, hpath, hlatest⟩

end Bz.Materializer
