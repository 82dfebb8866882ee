import Bz.Materializer.Persistence

/-!
# The tables mirror the tree

Runs of a daemon with its database, over restarts.  The artifacts that the tree holds as
materialized and those that a restart would find in the tables are the same, as long as no artifact
is declared as existing above or below another one, `declare_existing` lets the tree drop the other
one and leaves its rows behind, and as long as empty files have the digest that the digest
configuration gives them, with which they are read.

Principal results: `persisted_state_mirrors_tree`; `member_lost_below_directory`.
-/

namespace Bz.Materializer

open List Option

variable {cfg : Config} {dirs : Directories} {env : DbEnv} {p p' : Persisted}
  {path : Path} {value : ArtifactValue}

/-! ## The invariant -/

/-- The invariant of a daemon. -/
structure Mirrored (dirs : Directories) (p : Persisted) : Prop where
  versioned : Versioned p.state
  stored : Stored dirs p.state.metadataAt p

/-- An artifact may be declared as existing: no other one is above or below it, if it is there
already its metadata are the same, not only up to the executable bit as on Windows, and its empty
files have the digest of the configuration. -/
structure Room (cfg : Config) (dirs : Directories) (s : State) (path : Path)
    (value : ArtifactValue) : Prop where
  apart : ∀ q, s.metadataAt q ≠ none → Overlap q path → q = path
  same : cfg.windows = true → ∀ metadata, s.metadataAt path = some (some metadata) →
    artifactMetadataMatchesEntry cfg.windows metadata value.entry → metadata = value.entry
  preferred : dirs.EmptyFilesPreferred value.entry

/-- Every artifact of a `DeclareExisting` may be declared as existing, after those before it, and
empty files of a finished task have the digest of the configuration. -/
structure Undisturbed (cfg : Config) (dirs : Directories) (p : Persisted) (l : DbEnv × Command) :
    Prop where
  existing : ∀ before path value after,
    l.2 = .declareExisting (before ++ (path, value) :: after) →
    Room cfg dirs (before.foldl (fun s (path, value) => declareExisting cfg l.1.toEnv s path value)
      p.state) path value
  finished : ∀ index timestamp ok, l.2 = .finished index timestamp ok →
    ∀ task, p.state.running[index]? = some task → ∀ found data, p.state.tree.prefixGet task.path =
      some (found, data) → ∀ entry method, data.stage = .declared entry method →
        dirs.EmptyFilesPreferred entry

theorem eq_of_matches {metadata entry : Entry} (hw : cfg.windows = false)
    (h : artifactMetadataMatchesEntry cfg.windows metadata entry) : metadata = entry := by
  rw [hw] at h
  cases metadata with
  | dir d => cases entry with
    | dir d' => rw [beq_iff_eq.mp h]
    | leaf l' => cases h
  | leaf l => cases entry with
    | dir d' => cases h
    | leaf l' => rw [beq_iff_eq.mp h]

/-! ## Steps -/

section

variable (h : Stored dirs p.state.metadataAt p)
include h

theorem declareExistingDb_stored (hroom : Room cfg dirs p.state path value)
    (hstep : declareExistingDb cfg dirs env p path value = some p') :
    Stored dirs p'.state.metadataAt p' := by
  rw [declareExistingDb] at hstep
  split at hstep
  · next hreuse =>
    cases hstep
    refine (h.withState _).congr fun q => ?_
    obtain ⟨hat, data, metadata, hget, hmeta, hmatch⟩ := declareExisting_reused hreuse
    have hold : p.state.metadataAt path = some (some metadata) := by
      rw [State.metadataAt, hget, map_some, hmeta]
    have hentry : metadata = value.entry := by
      cases hw : cfg.windows with
      | true => exact hroom.same hw metadata hold hmatch
      | false => exact eq_of_matches hw hmatch
    rw [hat]
    split
    · next heq => rw [heq, hold, hentry]
    · rfl
  · next hnew =>
    obtain ⟨p1, hrec, rfl⟩ := map_eq_some_iff.mp hstep
    refine ((h.record hroom.apart hroom.preferred hrec).withState _).congr fun q => ?_
    rw [onMaterialization_state hrec, declareExisting_inserted hnew]
    split
    · rfl
    · next hne =>
      split
      · next hover =>
        by_contra hq
        exact hne (hroom.apart q (Ne.symm hq) hover)
      · rfl

theorem foldlM_declareExistingDb_stored {artifacts : List (Path × ArtifactValue)}
    (hroom : ∀ before path value after, artifacts = before ++ (path, value) :: after →
      Room cfg dirs (before.foldl
        (fun s (path, value) => declareExisting cfg env.toEnv s path value) p.state) path value)
    (hstep : artifacts.foldlM
      (fun p (path, value) => declareExistingDb cfg dirs env p path value) p = some p') :
    Stored dirs p'.state.metadataAt p' := by
  induction artifacts generalizing p with
  | nil =>
    cases hstep
    exact h
  | cons artifact artifacts ih =>
    obtain ⟨path, value⟩ := artifact
    obtain ⟨p1, h1, hstep⟩ := bind_eq_some_iff.mp hstep
    refine ih (declareExistingDb_stored h (hroom [] path value artifacts rfl) h1) ?_ hstep
    intro before path' value' after heq
    have hnext := hroom ((path, value) :: before) path' value' after (by rw [heq]; rfl)
    rw [foldl_cons] at hnext
    dsimp only at hnext
    rwa [← declareExistingDb_state h1] at hnext

theorem declareDb_stored {method : Method}
    (hstep : declareDb cfg dirs env p path value method = some p') :
    Stored dirs p'.state.metadataAt p' := by
  unfold declareDb at hstep
  split at hstep
  · next hkept =>
    cases hstep
    exact (h.withState _).congr (declare_of_keeps hkept method).extends.metadataAt
  next hnew =>
  split at hstep
  · cases hstep
  -- what the path overlaps is removed, and the new artifact put in its place
  have hmem (q : Path) (hq : p.state.metadataAt q ≠ none) :=
    (metadataAt_removed hq : _ ↔ Overlap q path)
  have hle (q : Path) (hq : ¬ Overlap q path) (r : Path) :=
    not_le_removed (s := p.state) (r := r) hq
  generalize (p.state.tree.removePath path).map Prod.fst = removed at hmem hle hstep
  have hremoved : Stored dirs (fun q => if q ∈ removed then none else p.state.metadataAt q) _ :=
    h.remove fun q hq hnot => hle q fun hover => hnot ((hmem q hq).mpr hover)
  have hkey (q : Path) (hq : (if q ∈ removed then none else p.state.metadataAt q) ≠ none) :
      ¬ Overlap q path := by
    split at hq
    · exact absurd rfl hq
    · next hnot => exact fun hover => hnot ((hmem q hq).mpr hover)
  have hnone : (if path ∈ removed then none else p.state.metadataAt path) = none := by
    by_contra hq
    exact hkey path hq (.inl prefix_rfl)
  have hat (q : Path) : (declare cfg env.toEnv p.state path value method).metadataAt q =
      if q = path then some none
      else if q ∈ removed then none else p.state.metadataAt q := by
    rw [declare_of_not_keeps hnew, declareNew_metadataAt]
    by_cases hq : p.state.metadataAt q = none
    · simp [hq]
    · simp only [hmem q hq]
  split at hstep
  · obtain ⟨rows, hins, rfl⟩ := map_eq_some_iff.mp hstep
    exact ((hremoved.declareCas hnone hkey hins).withState _).congr hat
  · cases hstep
    exact ((hremoved.declare hnone).withState _).congr hat

end

theorem finished_stored {index timestamp : Nat} {ok : Bool} (hs : Versioned p.state)
    (h : Stored dirs p.state.metadataAt p)
    (hl : Undisturbed cfg dirs p (env, .finished index timestamp ok))
    (hstep : dbStep cfg dirs p (env, .finished index timestamp ok) = some p') :
    Stored dirs p'.state.metadataAt p' := by
  rw [dbStep] at hstep
  split at hstep
  · cases hstep
  next task htask =>
  dsimp only at hstep
  have ht : task ∈ p.state.tasks := hs.running task (mem_of_getElem? htask)
  have hat := finish_metadataAt (hs.eraseIdx index) ht timestamp ok
  split at hstep
  · next hnone =>
    cases hstep
    rw [hnone] at hat
    exact (h.withState _).congr hat
  · next entry hentry =>
    obtain ⟨p1, hrec, rfl⟩ := map_eq_some_iff.mp hstep
    rw [hentry] at hat
    obtain ⟨found, data, method, hfound, hstage⟩ := materializes_declared hentry
    have hpreferred := hl.finished index timestamp ok rfl task htask found data hfound entry method
      hstage
    refine ((h.record (fun q hq hover => ?_) hpreferred hrec).withState _).congr hat
    have hdeclared : p.state.metadataAt task.path = some none :=
      materializes_metadataAt (hs.eraseIdx index) ht hentry
    exact eq_of_overlap hq (by rw [hdeclared]; simp) hover

theorem Mirrored.step {l : DbEnv × Command} (h : Mirrored dirs p) (hl : Undisturbed cfg dirs p l)
    (hstep : dbStep cfg dirs p l = some p') : Mirrored dirs p' := by
  have hversioned := (step_spec h.versioned (dbStep_state hstep)).1
  refine ⟨hversioned, ?_⟩
  obtain ⟨env, command⟩ := l
  cases command with
  | declare path value method => exact declareDb_stored h.stored hstep
  | declareExisting artifacts =>
    refine foldlM_declareExistingDb_stored h.stored ?_ hstep
    exact fun before path value after heq => hl.existing before path value after (by rw [heq])
  | invalidateFilePaths paths =>
    rw [dbStep] at hstep
    split at hstep
    · cases hstep
    · cases hstep
      have hat := invalidatePaths_metadataAt (s := p.state) paths
      refine ((h.stored.remove fun q hq hnot => (hat q).2 hq hnot).withState _).congr ?_
      exact fun q => (hat q).1
  | finished index timestamp ok => exact finished_stored h.versioned h.stored hl hstep
  | matchArtifacts artifacts =>
    cases hstep
    exact (h.stored.withState _).congr (matchArtifacts_touches artifacts .refl).extends.metadataAt
  | hasArtifact path =>
    cases hstep
    exact (h.stored.withState _).congr hasArtifact_touches.extends.metadataAt
  | ensure paths =>
    cases hstep
    have hext := (Sound.foldl (fun path => materializeArtifact_sound cfg env.toEnv env.stackRoom []
      path) paths p.state h.versioned).2
    exact (h.stored.withState _).congr hext.metadataAt

/-! ## Restarts -/

/-- The daemon's start from the tables, with rows and hash maps in any order. -/
inductive Restarts (dirs : Directories) (p : Persisted) : Persisted → Prop where
  | intro {order order' : List (Path × DirectoryData) → List (Path × DirectoryData)}
      {rows : List SqliteEntry} {declaredRows : List DeclaredCasSqliteEntry}
      {entries : List MaterializerStateEntry} {declared : List MaterializerDeclaredCasStateEntry}
      (order_perm : ∀ directories, (order directories).Perm directories)
      (order_perm' : ∀ directories, (order' directories).Perm directories)
      (rows_perm : rows.Perm p.table) (declaredRows_perm : declaredRows.Perm p.declaredCas)
      (read : convertToMaterializerState dirs order rows = .ok entries)
      (readDeclared : convertToDeclaredCasState dirs order' declaredRows = .ok declared) :
      Restarts dirs p { p with state := restored entries declared }

theorem Mirrored.restarts (h : Mirrored dirs p) (hrestart : Restarts dirs p p') :
    Mirrored dirs p' ∧ ∀ q e, p'.state.metadataAt q = some (some e) ↔
      p.state.metadataAt q = some (some e) := by
  cases hrestart with
  | @intro order order' rows declaredRows entries declared horder horder' hrows hdeclared hread
      hreadDeclared =>
    obtain ⟨entries', hread', hsound, hcomplete, -⟩ := read_ok horder (h.stored.table.perm hrows)
      fun q e e' he he' => Option.some.inj (Option.some.inj (he.symm.trans he'))
    obtain rfl : entries = entries' := Except.ok.inj (hread.symm.trans hread')
    obtain ⟨declared', hreadDeclared', hdecl, A, hA, huniq, hall⟩ :=
      h.stored.read_declared horder' hdeclared
    obtain rfl : declared = declared' := Except.ok.inj (hreadDeclared.symm.trans hreadDeclared')
    -- the empty files are read with the digests that they have
    have hsound (x : MaterializerStateEntry) (hx : x ∈ entries) :
        p.state.metadataAt x.path = some (some x.metadata) := by
      obtain ⟨e, he, hmeta⟩ := hsound x hx
      rw [hmeta, Directories.readBack_eq (h.stored.preferred _ e he)]
      exact he
    obtain ⟨hmaterialized, hrest⟩ := restored_metadataAt
      (fun q q' hq hq' => eq_of_overlap hq hq') hsound hdecl
    have hiff (q : Path) (e : Entry) : (restored entries declared).metadataAt q = some (some e) ↔
        p.state.metadataAt q = some (some e) := by
      rw [hmaterialized]
      constructor
      · rintro ⟨x, hx, rfl, rfl⟩
        exact hsound x hx
      · intro he
        obtain ⟨x, hx, rfl, hmeta⟩ := hcomplete q e he
        exact ⟨x, hx, rfl, hmeta.trans (Directories.readBack_eq (h.stored.preferred _ e he))⟩
    refine ⟨⟨restored_versioned entries declared, ?_, ⟨A, hA, ?_, huniq⟩, h.stored.nodup,
      fun q e he => h.stored.preferred q e ((hiff q e).mp he)⟩, hiff⟩
    · exact h.stored.table.congr fun q e => (hiff q e).symm
    · intro q e hq
      obtain ⟨x, hx, rfl⟩ := hall q e hq
      exact hrest x hx

/-! ## Runs -/

/-- A daemon with an empty database, after steps that all meet `P`, and after restarts. -/
inductive Running (cfg : Config) (dirs : Directories) (P : Persisted → DbEnv × Command → Prop) :
    Persisted → Prop where
  | fresh : Running cfg dirs P ⟨restored [] [], [], []⟩
  | step {p p' : Persisted} {l : DbEnv × Command} (running : Running cfg dirs P p) (label : P p l)
      (step : dbStep cfg dirs p l = some p') : Running cfg dirs P p'
  | restart {p p' : Persisted} (running : Running cfg dirs P p) (restart : Restarts dirs p p') :
      Running cfg dirs P p'

theorem Running.mirrored (h : Running cfg dirs (Undisturbed cfg dirs) p) : Mirrored dirs p := by
  induction h with
  | fresh =>
    have hnone (q : Path) (e : Entry) : (restored [] []).metadataAt q ≠ some (some e) := by
      simp [State.metadataAt, restored]
    exact ⟨restored_versioned [] [], Holds.nil.congr fun q e => ⟨False.elim, hnone q e⟩,
      ⟨fun _ _ => False, .nil, fun _ _ => False.elim, fun _ _ _ => False.elim⟩, nodup_nil,
      fun q e hq => absurd hq (hnone q e)⟩
  | step _ hl hstep ih => exact ih.step hl hstep
  | restart _ hrestart ih => exact (ih.restarts hrestart).1

/-- **The persisted state mirrors the tree.** In every run, over restarts, in which no artifact is
declared as existing above or below another one and empty files have the digest of the
configuration, a tree restored from the tables, read in any order, has the materialized artifacts of
the tree in memory. -/
theorem persisted_state_mirrors_tree (h : Running cfg dirs (Undisturbed cfg dirs) p)
    {order : List (Path × DirectoryData) → List (Path × DirectoryData)}
    (horder : ∀ directories, (order directories).Perm directories)
    {rows : List SqliteEntry} (hrows : rows.Perm p.table)
    {declaredRows : List DeclaredCasSqliteEntry} (hdeclared : declaredRows.Perm p.declaredCas) :
    ∃ entries declared, convertToMaterializerState dirs order rows = .ok entries ∧
      convertToDeclaredCasState dirs order declaredRows = .ok declared ∧
      ∀ q e, (restored entries declared).metadataAt q = some (some e) ↔
        p.state.metadataAt q = some (some e) := by
  have hmirrored := h.mirrored
  obtain ⟨entries, hread, -⟩ := read_ok horder (hmirrored.stored.table.perm hrows)
    fun q e e' he he' => Option.some.inj (Option.some.inj (he.symm.trans he'))
  obtain ⟨declared, hread', -⟩ := hmirrored.stored.read_declared horder hdeclared
  refine ⟨entries, declared, hread, hread', ?_⟩
  exact (hmirrored.restarts (.intro horder horder hrows hdeclared hread hread')).2

/-- A directory with a file `x`, and the empty one. -/
def twoDirectories : Directories where
  size digest := if digest = "nothing" then 0 else 1
  emptyDigest := "nothing"
  fingerprint T := if T ["x"] = some (.leaf (.file "x" false)) then "full" else "bare"
  shared name :=
    if name = "full" then some (.node .mutable [("x", .leaf (.file "x" false))])
    else if name = "bare" then some .empty
    else none
  valid {name d} h := by
    split at h
    · cases h
      exact .node (by simp) (fun k sub hk => by simp at hk) fun k sub hk => by simp at hk
    · split at h
      · cases h
        exact .empty
      · cases h
  named {name d} h := by
    split at h
    · next hname =>
      cases h
      rw [hname]
      decide
    · split at h
      · next hname =>
        cases h
        rw [hname]
        decide
      · cases h

def dbEnv : DbEnv := ⟨⟨fun _ => true, 5, false, 8⟩, some "info"⟩

def linux : Config := ⟨false, false, false, false, true⟩

/-- A directory declared as existing, and an empty file that is declared and materialized. -/
def apartRun : List (DbEnv × Command) :=
  [(dbEnv, .declareExisting [(["d"], ⟨.dir "full", none⟩)]),
    (dbEnv, .declare ["e", "f"] ⟨.leaf (.file "nothing" false), none⟩ .casDownload),
    (dbEnv, .ensure [["e", "f"]]),
    (dbEnv, .finished 1 6 true)]

def afterApart : Persisted :=
  (apartRun.foldlM (dbStep linux twoDirectories) ⟨restored [] [], [], []⟩).get rfl

theorem afterApart_running :
    Running linux twoDirectories (Undisturbed linux twoDirectories) afterApart := by
  have hroom : Room linux twoDirectories (restored [] []) ["d"] ⟨.dir "full", none⟩ := by
    refine ⟨fun q hq => ?_, fun h => absurd h (by decide), fun d hd => ?_⟩
    · simp [State.metadataAt, restored] at hq
    · cases hd
      refine Directory.DirectoryBuilder.forall_leaf (fun k member hk => ?_) (by simp)
      cases mem_singleton.mp hk
      intro hsize
      exact absurd hsize (by decide)
  have hother {p : Persisted} {l : DbEnv × Command}
      (hexisting : ∀ artifacts, l.2 ≠ .declareExisting artifacts)
      (hfinished : ∀ index timestamp ok, l.2 ≠ .finished index timestamp ok) :
      Undisturbed linux twoDirectories p l :=
    ⟨fun before path value after heq => absurd heq (hexisting _),
      fun index timestamp ok heq => absurd heq (hfinished _ _ _)⟩
  refine .step (l := apartRun[3]) (.step (l := apartRun[2]) (.step (l := apartRun[1])
    (.step (l := apartRun[0]) .fresh ⟨?_, by simp [apartRun]⟩ rfl)
    (hother (by simp [apartRun]) (by simp [apartRun])) rfl)
    (hother (by simp [apartRun]) (by simp [apartRun])) rfl) ⟨by simp [apartRun], ?_⟩ rfl
  · intro before path value after heq
    cases before with
    | nil =>
      cases heq
      exact hroom
    | cons artifact before =>
      cases before <;> cases heq
  · intro index timestamp ok heq task htask found data hfound entry method hstage
    cases heq
    cases htask
    cases hfound
    cases hstage
    exact fun _ => rfl

/-- Both artifacts are read back. -/
theorem persisted_state_mirrors_tree_apart : ∃ entries declared,
    convertToMaterializerState twoDirectories List.reverse afterApart.table = .ok entries ∧
      convertToDeclaredCasState twoDirectories List.reverse afterApart.declaredCas =
        .ok declared ∧
      (restored entries declared).metadataAt ["d"] = some (some (.dir "full")) ∧
      (restored entries declared).metadataAt ["e", "f"] =
        some (some (.leaf (.file "nothing" false))) := by
  obtain ⟨entries, declared, hread, hread', hiff⟩ := persisted_state_mirrors_tree afterApart_running
    (fun directories => reverse_perm directories) (.refl _) (.refl _)
  exact ⟨entries, declared, hread, hread', (hiff _ _).mpr rfl, (hiff _ _).mpr rfl⟩

/-- **Declaring an artifact as existing inside a directory artifact** makes the tree drop the
directory.  The table keeps the directory's row and loses that of its member, and what is read back
hides the artifact that the tree holds. -/
theorem member_lost_below_directory : ∃ p entries,
    Running linux twoDirectories (fun _ _ => True) p ∧
      convertToMaterializerState twoDirectories id p.table = .ok entries ∧
      convertToDeclaredCasState twoDirectories id p.declaredCas = .ok [] ∧
      p.state.metadataAt ["d"] = none ∧
      p.state.metadataAt ["d", "x"] = some (some (.leaf (.file "x" false))) ∧
      (restored entries []).metadataAt ["d"] = some (some (.dir "bare")) ∧
      (restored entries []).metadataAt ["d", "x"] = none := by
  refine ⟨_, _, .step (.step .fresh (l := (dbEnv, .declareExisting [(["d"], ⟨.dir "full", none⟩)]))
    trivial rfl) (l := (dbEnv, .declareExisting [(["d", "x"], ⟨.leaf (.file "x" false), none⟩)]))
    trivial rfl, rfl, rfl, rfl, rfl, ?_, ?_⟩
  · decide
  · decide

end Bz.Materializer
