import Bz.Materializer.Artifacts
import Bz.Materializer.StateTable

/-!
# The persisted state of the materializer

The commands of the materializer together with what they write to the database
(`on_materialization`, `invalidate_paths_and_collect_futures`, `insert_declared_cas`), and the
daemon's start from the two tables (`ArtifactTree::initialize`).  A step exists only where no
statement fails and nothing panics.  Updates of access times are left out.

Principal results: `dbStep_state`, `dbStep` does to the artifact tree what `step` does;
`Stored.remove`, `Stored.record`, `Stored.declare`, `Stored.declareCas`; `restored_metadataAt`.
-/


namespace Bz.Materializer

open DataTree List

/-! ## The second table -/

/-- A row of the second table. -/
structure DeclaredCasSqliteEntry where
  entry : SqliteEntry
  /-- `re_use_case` and the columns of the remote origin. -/
  info : String

def deleteDeclaredCas (rows : List DeclaredCasSqliteEntry) (paths : List Path) :
    List DeclaredCasSqliteEntry :=
  rows.filter fun r => r.entry.path ∉ paths ∧ ∀ parent ∈ r.entry.parentPath, parent ∉ paths

def insertDeclaredCas (dirs : Directories) (rows : List DeclaredCasSqliteEntry) (path : Path)
    (metadata : Entry) (info : String) (now : Nat) : Option (List DeclaredCasSqliteEntry) :=
  (convertArtifactMetadata dirs path metadata now).bind fun entries =>
    entries.foldlM (fun rows e =>
      if e.path ∈ rows.map (·.entry.path) then none else some (rows ++ [⟨e, info⟩]))
      (deleteDeclaredCas rows [path])

/-- `cas_download_infos`. -/
def downloadInfos (rows : List DeclaredCasSqliteEntry) : List (Path × String) :=
  rows.foldl (fun infos r => match r.entry.parentPath with
    | none => DataTree.setChild infos r.entry.path r.info
    | some _ => infos) []

/-- The loop that gives every artifact its information. -/
def takeInfos (infos : List (Path × String)) : List MaterializerStateEntry →
    Except MaterializerStateTableError (List MaterializerDeclaredCasStateEntry)
  | [] => .ok []
  | x :: entries => match DataTree.child infos x.path with
    | none => .error (.missingDownloadInfo x.path)
    | some _ => (takeInfos (DataTree.removeChild infos x.path) entries).map
        (⟨x.path, x.metadata⟩ :: ·)

/-- `convert_sqlite_entries_to_declared_cas_state`. -/
def convertToDeclaredCasState (dirs : Directories)
    (order : List (Path × DirectoryData) → List (Path × DirectoryData))
    (rows : List DeclaredCasSqliteEntry) :
    Except MaterializerStateTableError (List MaterializerDeclaredCasStateEntry) :=
  match convertToMaterializerState dirs order (rows.map (·.entry)) with
  | .error e => .error e
  | .ok entries => takeInfos (downloadInfos rows) entries

/-! ## Commands -/

/-- The tree and the two tables. -/
structure Persisted where
  state : State
  table : List SqliteEntry
  declaredCas : List DeclaredCasSqliteEntry

def onMaterialization (dirs : Directories) (p : Persisted) (path : Path) (metadata : Entry)
    (timestamp : Nat) : Option Persisted :=
  (insertArtifact dirs p.table path metadata timestamp).map fun table =>
    { p with table, declaredCas := deleteDeclaredCas p.declaredCas [path] }

/-- What a command finds, and the information of a download that persists what it declares. -/
structure DbEnv extends Env where
  persistDeclaredCas : Option String

section Commands

variable (cfg : Config) (dirs : Directories) (env : DbEnv)

def declareExistingDb (p : Persisted) (path : Path) (value : ArtifactValue) : Option Persisted :=
  if reusesExisting cfg env.toEnv p.state path value then
    some { p with state := declareExisting cfg env.toEnv p.state path value }
  else
    (onMaterialization dirs p path value.entry env.now).map fun p =>
      { p with state := declareExisting cfg env.toEnv p.state path value }

def declareDb (p : Persisted) (path : Path) (value : ArtifactValue) (method : Method) :
    Option Persisted :=
  let state := declare cfg env.toEnv p.state path value method
  if keepsDeclared cfg env.toEnv p.state path value then some { p with state }
  else if env.deleteFails then none
  else
    let removed := (p.state.tree.removePath path).map Prod.fst
    let table := deleteFromTable p.table removed
    let declaredCas := deleteDeclaredCas p.declaredCas removed
    match method, env.persistDeclaredCas with
    | .casDownload, some info =>
      (insertDeclaredCas dirs declaredCas path value.entry info env.now).map fun declaredCas =>
        { state, table, declaredCas }
    | _, _ => some { state, table, declaredCas }

/-- One command or message, with what it writes to the database. -/
def dbStep (p : Persisted) : DbEnv × Command → Option Persisted
  | (env, .declare path value method) => declareDb cfg dirs env p path value method
  | (env, .declareExisting artifacts) =>
    artifacts.foldlM (fun p (path, value) => declareExistingDb cfg dirs env p path value) p
  | (env, .invalidateFilePaths paths) =>
    let removed := invalidatedPaths p.state.tree paths
    if env.deleteFails then none
    else some
      { state := invalidatePaths p.state paths
        table := deleteFromTable p.table removed
        declaredCas := deleteDeclaredCas p.declaredCas removed }
  | (_, .finished index timestamp ok) => match p.state.running[index]? with
    | none => none
    | some task =>
      let state := { p.state with running := p.state.running.eraseIdx index }
      match materializes state task ok with
      | none => some { p with state := finish state task timestamp ok }
      | some entry => (onMaterialization dirs p task.path entry timestamp).map fun p =>
          { p with state := finish state task timestamp ok }
  | (env, .matchArtifacts artifacts) =>
    some { p with state := matchArtifacts cfg env.toEnv p.state artifacts }
  | (env, .hasArtifact path) => some { p with state := hasArtifact env.toEnv p.state path }
  | (env, .ensure paths) =>
    some { p with
      state := paths.foldl
        (fun s path => materializeArtifact cfg env.toEnv env.stackRoom [] path s) p.state }

end Commands

variable {cfg : Config} {dirs : Directories} {env : DbEnv} {p p' : Persisted} {path : Path}
  {value : ArtifactValue}

theorem onMaterialization_state {metadata : Entry} {time : Nat}
    (h : onMaterialization dirs p path metadata time = some p') : p'.state = p.state := by
  obtain ⟨table, -, rfl⟩ := Option.map_eq_some_iff.mp h
  rfl

theorem declareExistingDb_state (h : declareExistingDb cfg dirs env p path value = some p') :
    p'.state = declareExisting cfg env.toEnv p.state path value := by
  rw [declareExistingDb] at h
  split at h
  · cases h
    rfl
  · obtain ⟨p1, h1, rfl⟩ := Option.map_eq_some_iff.mp h
    rw [← onMaterialization_state h1]

theorem foldlM_declareExistingDb_state {artifacts : List (Path × ArtifactValue)}
    (h : artifacts.foldlM (fun p (path, value) => declareExistingDb cfg dirs env p path value) p =
      some p') :
    p'.state = artifacts.foldl (fun s (path, value) => declareExisting cfg env.toEnv s path value)
      p.state := by
  induction artifacts generalizing p with
  | nil =>
    cases h
    rfl
  | cons artifact artifacts ih =>
    obtain ⟨p1, h1, h⟩ := Option.bind_eq_some_iff.mp h
    rw [ih h, declareExistingDb_state h1]
    rfl

theorem declareDb_state {method : Method} (h : declareDb cfg dirs env p path value method =
    some p') : p'.state = declare cfg env.toEnv p.state path value method := by
  unfold declareDb at h
  split at h
  · cases h
    rfl
  · split at h
    · cases h
    · split at h
      · obtain ⟨rows, -, rfl⟩ := Option.map_eq_some_iff.mp h
        rfl
      · cases h
        rfl

/-- **The database does not change what a command does to the tree.** -/
theorem dbStep_state {l : DbEnv × Command} (h : dbStep cfg dirs p l = some p') :
    step cfg p.state (l.1.toEnv, l.2) = some p'.state := by
  obtain ⟨env, command⟩ := l
  cases command with
  | declare path value method => exact congrArg some (declareDb_state h).symm
  | declareExisting artifacts => exact congrArg some (foldlM_declareExistingDb_state h).symm
  | invalidateFilePaths paths =>
    rw [dbStep] at h
    split at h
    · cases h
    · cases h
      rfl
  | finished index timestamp ok =>
    rw [dbStep] at h
    split at h
    · cases h
    · next task htask =>
      rw [step, htask]
      dsimp only at h
      split at h
      · cases h
        rfl
      · obtain ⟨p1, -, rfl⟩ := Option.map_eq_some_iff.mp h
        rfl
  | matchArtifacts artifacts | hasArtifact path | ensure paths =>
    cases h
    rfl

/-! ## The tables and the tree -/

/-- The first table holds the materialized artifacts, whose empty files are read back as they are,
and the second some of those that are declared. -/
structure Stored (dirs : Directories) (m : Path → Option (Option Entry)) (p : Persisted) :
    Prop where
  table : Holds dirs p.table fun q e => m q = some (some e)
  declared : ∃ A, Holds dirs (p.declaredCas.map (·.entry)) A ∧ (∀ q e, A q e → m q = some none) ∧
    ∀ q e e', A q e → A q e' → e = e'
  nodup : ((p.declaredCas.map (·.entry)).map (·.path)).Nodup
  preferred : ∀ q e, m q = some (some e) → dirs.EmptyFilesPreferred e

section Stored

variable {m : Path → Option (Option Entry)}
  {info : String} {rows : List DeclaredCasSqliteEntry} {e : Entry}
  {rows' : List DeclaredCasSqliteEntry} {now : Nat}

theorem map_deleteDeclaredCas (paths : List Path) :
    (deleteDeclaredCas rows paths).map (·.entry) = deleteFromTable (rows.map (·.entry)) paths := by
  rw [deleteFromTable, filter_map]
  rfl

theorem map_foldlM_insert {es : List SqliteEntry}
    (hnodup : ((rows.map (·.entry)).map (·.path)).Nodup)
    (h : es.foldlM (fun rows e => if e.path ∈ rows.map (·.entry.path) then none else some (rows ++
      [⟨e, info⟩])) rows = some rows') :
    es.foldlM insertRow (rows.map (·.entry)) = some (rows'.map (·.entry)) ∧
      ((rows'.map (·.entry)).map (·.path)).Nodup := by
  induction es generalizing rows with
  | nil =>
    cases h
    exact ⟨rfl, hnodup⟩
  | cons e es ih =>
    rw [foldlM_cons] at h
    obtain ⟨rows1, h1, h⟩ := Option.bind_eq_some_iff.mp h
    split at h1
    · cases h1
    · next hnew =>
      cases h1
      have hpaths : e.path ∉ (rows.map (·.entry)).map (·.path) := by
        rw [map_map]
        exact hnew
      have hnodup' : (((rows ++ [(⟨e, info⟩ : DeclaredCasSqliteEntry)]).map (·.entry)).map
          (·.path)).Nodup := by
        rw [map_append, map_append]
        refine List.Nodup.append hnodup (nodup_singleton _) fun q hq hq' => ?_
        cases mem_singleton.mp hq'
        exact hpaths hq
      obtain ⟨hrest, hnodup''⟩ := ih hnodup' h
      refine ⟨?_, hnodup''⟩
      rw [foldlM_cons, insertRow, if_neg hpaths]
      rw [map_append] at hrest
      exact hrest

variable (h : Stored dirs m p)
include h

theorem Stored.congr {m' : Path → Option (Option Entry)}
    (heq : ∀ q, m' q = m q) : Stored dirs m' p := by
  rw [show m' = m from funext heq]
  exact h

theorem Stored.withState (state : State) : Stored dirs m { p with state } :=
  ⟨h.table, h.declared, h.nodup, h.preferred⟩

theorem Stored.remove {paths : List Path}
    (hpaths : ∀ q, m q ≠ none → q ∉ paths → ∀ r ∈ paths, ¬ q <+: r) :
    Stored dirs (fun q => if q ∈ paths then none else m q)
      { p with
        table := deleteFromTable p.table paths
        declaredCas := deleteDeclaredCas p.declaredCas paths } := by
  obtain ⟨A, hA, hdecl, huniq⟩ := h.declared
  refine ⟨?_, ⟨fun q e => A q e ∧ q ∉ paths, ?_, ?_, ?_⟩, ?_, fun q e hq => ?_⟩
  · refine (h.table.delete fun q e hq => hpaths q (by rw [hq]; simp)).congr fun q e => ?_
    by_cases hq : q ∈ paths <;> simp [hq]
  · rw [map_deleteDeclaredCas]
    exact hA.delete fun q e hq => hpaths q (by rw [hdecl q e hq]; simp)
  · rintro q e ⟨hq, hnot⟩
    rw [if_neg hnot]
    exact hdecl q e hq
  · exact fun q e e' hq hq' => huniq q e e' hq.1 hq'.1
  · exact h.nodup.sublist ((filter_sublist.map _).map _)
  · split at hq
    · cases hq
    · exact h.preferred q e hq

theorem Stored.record (hpath : ∀ q, m q ≠ none → Overlap q path → q = path)
    (hpreferred : dirs.EmptyFilesPreferred e) {time : Nat}
    (hrec : onMaterialization dirs p path e time = some p') :
    Stored dirs (fun q => if q = path then some (some e) else m q) p' := by
  obtain ⟨table, htable, rfl⟩ := Option.map_eq_some_iff.mp hrec
  obtain ⟨A, hA, hdecl, huniq⟩ := h.declared
  have habove (q : Path) (hq : m q ≠ none) (hne : q ≠ path) : ¬ q <+: path :=
    fun hle => hne (hpath q hq (.inl hle))
  refine ⟨?_, ⟨fun q e => A q e ∧ q ∉ [path], ?_, ?_, ?_⟩, ?_, fun q e' hq => ?_⟩
  · refine (h.table.insert (fun q e' hq => habove q (by rw [hq]; simp)) htable).congr fun q e' => ?_
    by_cases hq : q = path
    · simp [hq, eq_comm]
    · simp [hq]
  · rw [map_deleteDeclaredCas]
    refine hA.delete fun q e' hq hnot r hr => ?_
    cases mem_singleton.mp hr
    exact habove q (by rw [hdecl q e' hq]; simp) fun heq => hnot (mem_singleton.mpr heq)
  · rintro q e' ⟨hq, hnot⟩
    rw [if_neg fun heq => hnot (mem_singleton.mpr heq)]
    exact hdecl q e' hq
  · exact fun q e e' hq hq' => huniq q e e' hq.1 hq'.1
  · exact h.nodup.sublist ((filter_sublist.map _).map _)
  · split at hq
    · cases hq
      exact hpreferred
    · exact h.preferred q e' hq

theorem Stored.declare (hnone : m path = none) :
    Stored dirs (fun q => if q = path then some none else m q) p := by
  have hne {q : Path} (hq : m q ≠ none) : q ≠ path := fun heq => hq (heq ▸ hnone)
  obtain ⟨A, hA, hdecl, huniq⟩ := h.declared
  refine ⟨h.table.congr fun q e => ?_, ⟨A, hA, fun q e hq => ?_, huniq⟩, h.nodup,
    fun q e hq => ?_⟩
  · by_cases hq : q = path
    · simp [hq, hnone]
    · simp [hq]
  · rw [if_neg (hne (by rw [hdecl q e hq]; simp))]
    exact hdecl q e hq
  · split at hq
    · cases hq
    · exact h.preferred q e hq

theorem Stored.declareCas (hnone : m path = none) (hpath : ∀ q, m q ≠ none → ¬ Overlap q path)
    (hins : insertDeclaredCas dirs p.declaredCas path e info now = some rows) :
    Stored dirs (fun q => if q = path then some none else m q) { p with declaredCas := rows } := by
  obtain ⟨A, hA, hdecl, huniq⟩ := h.declared
  obtain ⟨es, hes, hins⟩ := Option.bind_eq_some_iff.mp hins
  have hkept : (((deleteDeclaredCas p.declaredCas [path]).map (·.entry)).map (·.path)).Nodup :=
    h.nodup.sublist ((filter_sublist.map _).map _)
  obtain ⟨hfold, hnodup⟩ := map_foldlM_insert hkept hins
  rw [map_deleteDeclaredCas] at hfold
  have hins : insertArtifact dirs (p.declaredCas.map (·.entry)) path e now =
      some (rows.map (·.entry)) := by
    rw [insertArtifact, hes]
    exact hfold
  have hdeclared := h.declare hnone
  refine ⟨hdeclared.table, ⟨_, hA.insert (fun q e' hq _ hle => ?_) hins, ?_, ?_⟩, hnodup,
    hdeclared.preferred⟩
  · exact hpath q (by rw [hdecl q e' hq]; simp) (.inl hle)
  · intro q e' hq
    split
    · rfl
    · next hne =>
      rw [if_neg hne] at hq
      exact hdecl q e' hq
  · intro q e1 e2 h1 h2
    split at h1
    · next heq =>
      rw [if_pos heq] at h2
      rw [h1, h2]
    · next hne =>
      rw [if_neg hne] at h2
      exact huniq q e1 e2 h1 h2

end Stored

/-! ## Reading the tables -/

section Reading

variable {m : Path → Option (Option Entry)}
  {order : List (Path × DirectoryData) → List (Path × DirectoryData)}
  {entries : List MaterializerStateEntry}

theorem takeInfos_ok {infos : List (Path × String)} (hnodup : (entries.map (·.path)).Nodup)
    (h : ∀ x ∈ entries, (DataTree.child infos x.path).isSome) :
    takeInfos infos entries = .ok (entries.map fun x => ⟨x.path, x.metadata⟩) := by
  induction entries generalizing infos with
  | nil => rfl
  | cons x entries ih =>
    rw [map_cons, nodup_cons] at hnodup
    obtain ⟨info, hinfo⟩ := Option.isSome_iff_exists.mp (h x mem_cons_self)
    rw [takeInfos, hinfo]
    rw [ih hnodup.2 fun y hy => ?_]
    · rfl
    · have hne : y.path ≠ x.path := fun heq =>
        hnodup.1 (heq ▸ mem_map_of_mem (f := (·.path)) hy)
      rw [child_removeChild, if_neg hne]
      exact h y (mem_cons_of_mem _ hy)

theorem child_downloadInfos {rows : List DeclaredCasSqliteEntry} {r : DeclaredCasSqliteEntry}
    (hr : r ∈ rows) (hparent : r.entry.parentPath = none) :
    (DataTree.child (downloadInfos rows) r.entry.path).isSome := by
  induction rows using List.reverseRecOn with
  | nil => cases hr
  | append_singleton rows r' ih =>
    rw [downloadInfos, foldl_append, foldl_cons, foldl_nil, ← downloadInfos]
    rcases mem_append.mp hr with hr | hr
    · cases r'.entry.parentPath with
      | some parent => exact ih hr
      | none =>
        rw [child_setChild]
        split
        · rfl
        · exact ih hr
    · cases mem_singleton.mp hr
      rw [hparent]
      rw [child_setChild, if_pos rfl]
      rfl

theorem RowsOf.exists_artifact {q : Path} {e : Entry} {rows : List SqliteEntry}
    (h : RowsOf q dirs e rows) : ∃ r ∈ rows, r.parentPath = none ∧ r.path = q := by
  cases h with
  | leaf path parent | dir shared path parent => exact ⟨_, mem_cons_self, parent, path⟩

/-- **The second table is read back** as declared artifacts. -/
theorem Stored.read_declared (h : Stored dirs m p)
    (horder : ∀ directories, (order directories).Perm directories)
    {rows : List DeclaredCasSqliteEntry} (hrows : rows.Perm p.declaredCas) :
    ∃ declared, convertToDeclaredCasState dirs order rows = .ok declared ∧
      (∀ x ∈ declared, m x.path = some none) ∧
      ∃ A, Holds dirs (p.declaredCas.map (·.entry)) A ∧ (∀ q e e', A q e → A q e' → e = e') ∧
        ∀ q e, A q e → ∃ x ∈ declared, x.path = q := by
  obtain ⟨A, hA, hdecl, huniq⟩ := h.declared
  have hperm := hrows.map (·.entry)
  obtain ⟨entries, hread, hsound, hcomplete, hnodup⟩ := read_ok horder (hA.perm hperm) huniq
  have hinfos : ∀ x ∈ entries, (DataTree.child (downloadInfos rows) x.path).isSome := by
    intro x hx
    obtain ⟨e, he, -⟩ := hsound x hx
    obtain ⟨es, hes, hmem⟩ := (hA.perm hperm).rowsOf x.path e he
    obtain ⟨r, hr, hparent, hpath⟩ := hes.exists_artifact
    obtain ⟨row, hrow, rfl⟩ := mem_map.mp ((hmem r).mp hr).1
    rw [← hpath]
    exact child_downloadInfos hrow hparent
  have htake := takeInfos_ok (hnodup ((hperm.map (·.path)).nodup_iff.mpr h.nodup)) hinfos
  refine ⟨_, by rw [convertToDeclaredCasState, hread]; exact htake, ?_, A, hA, huniq, ?_⟩
  · intro x hx
    obtain ⟨y, hy, rfl⟩ := mem_map.mp hx
    obtain ⟨e, he, -⟩ := hsound y hy
    exact hdecl _ _ he
  · intro q e hq
    obtain ⟨x, hx, rfl, -⟩ := hcomplete q e hq
    exact ⟨_, mem_map_of_mem hx, rfl⟩

/-- **A tree restored from artifacts that do not overlap holds these artifacts.** -/
theorem restored_metadataAt {declared : List MaterializerDeclaredCasStateEntry}
    (hm : ∀ q q', m q ≠ none → m q' ≠ none → Overlap q q' → q = q')
    (hentries : ∀ x ∈ entries, m x.path = some (some x.metadata))
    (hdeclared : ∀ x ∈ declared, m x.path = some none) :
    (∀ q e, (restored entries declared).metadataAt q = some (some e) ↔
      ∃ x ∈ entries, x.path = q ∧ x.metadata = e) ∧
    ∀ x ∈ declared, (restored entries declared).metadataAt x.path = some none := by
  let materialized : ArtifactTree := entries.foldl (fun tree x => tree.insert
    ⟨none, .materialized x.metadata x.lastAccessTime false, .done 0, 0⟩ x.path) .new
  let tree : ArtifactTree := declared.foldl (fun tree x => tree.insert
    ⟨none, .declared x.metadata .casDownload, .done 0, 0⟩ x.path) materialized
  have htree : (restored entries declared).tree = tree := rfl
  have hkey {q : Path} {e : Option Entry} (hq : m q = some e) : m q ≠ none := by
    rw [hq]
    simp
  -- the keys of each list do not overlap
  have hfirst : ∀ x ∈ entries, ∃ y ∈ entries, y.path = x.path ∧ materialized.get x.path =
      some ⟨none, .materialized y.metadata y.lastAccessTime false, .done 0, 0⟩ := fun x hx =>
    exists_get_foldl_insert (fun a ha b hb hover =>
      hm _ _ (hkey (hentries a ha)) (hkey (hentries b hb)) hover) hx .new
  have hsecond : ∀ x ∈ declared, ∃ y ∈ declared, y.path = x.path ∧ tree.get x.path =
      some ⟨none, .declared y.metadata .casDownload, .done 0, 0⟩ := fun x hx =>
    exists_get_foldl_insert (fun a ha b hb hover =>
      hm _ _ (hkey (hdeclared a ha)) (hkey (hdeclared b hb)) hover) hx materialized
  have hkept {q : Path} (hq : ∀ x ∈ declared, ¬ Overlap q x.path) :
      tree.get q = materialized.get q := get_foldl_insert_apart hq materialized
  have hnew {q : Path} (hq : ∀ x ∈ entries, ¬ Overlap q x.path) : materialized.get q = none :=
    (get_foldl_insert_apart hq .new).trans (get_new q)
  refine ⟨fun q e => ⟨fun hq => ?_, ?_⟩, fun x hx => ?_⟩
  · rw [State.metadataAt, htree, Option.map_eq_some_iff] at hq
    obtain ⟨data, hdata, hmetadata⟩ := hq
    have hapart : ∀ x ∈ declared, ¬ Overlap q x.path := by
      intro x hx hover
      obtain ⟨y, -, -, hget⟩ := hsecond x hx
      have heq : q = x.path := hover.eq_of_get hdata hget
      rw [heq, hget] at hdata
      cases hdata
      cases hmetadata
    rw [hkept hapart] at hdata
    by_cases hover : ∃ x ∈ entries, Overlap q x.path
    · obtain ⟨x, hx, hover⟩ := hover
      obtain ⟨y, hy, hpath, hget⟩ := hfirst x hx
      have heq : q = x.path := hover.eq_of_get hdata hget
      rw [heq, hget] at hdata
      cases hdata
      cases hmetadata
      exact ⟨y, hy, hpath.trans heq.symm, rfl⟩
    · rw [hnew fun x hx hx' => hover ⟨x, hx, hx'⟩] at hdata
      cases hdata
  · rintro ⟨x, hx, rfl, rfl⟩
    have hapart : ∀ y ∈ declared, ¬ Overlap x.path y.path := by
      intro y hy hover
      have heq := hm _ _ (hkey (hentries x hx)) (hkey (hdeclared y hy)) hover
      have := hentries x hx
      rw [heq, hdeclared y hy] at this
      cases this
    obtain ⟨y, hy, hpath, hget⟩ := hfirst x hx
    have hsame := hentries y hy
    rw [hpath, hentries x hx] at hsame
    rw [State.metadataAt, htree, hkept hapart, hget]
    exact hsame.symm
  · obtain ⟨y, -, -, hget⟩ := hsecond x hx
    rw [State.metadataAt, htree, hget]
    rfl

end Reading

end Bz.Materializer
