import Bz.Materializer.Versions

/-!
# The artifacts of a tree

What the commands of the materializer do to the artifacts that the tree holds: which of them there
are, and whether they are declared or materialized.

Principal results: one lemma for each command that says what `metadataAt` is afterwards;
`eq_of_overlap`, no artifact is above another one.
-/

namespace Bz.Materializer

open List

/-- The entries that an invalidation removes from the tree. -/
def invalidatedEntries : ArtifactTree → List Path → List (Path × Data)
  | _, [] => []
  | tree, path :: paths =>
    tree.removePath path ++ invalidatedEntries (tree.remove path).2 paths

/-- Their paths. -/
def invalidatedPaths (tree : ArtifactTree) (paths : List Path) : List Path :=
  (invalidatedEntries tree paths).map Prod.fst

/-- The entry that the message of a task lets become materialized. -/
def materializes (s : State) (task : Task) (ok : Bool) : Option Entry :=
  match task.kind, s.tree.prefixGet task.path with
  | .materialize _, some (_, info) =>
    if task.version < info.version ∨ ok = false then none
    else match info.stage with
      | .declared entry _ => some entry
      | .materialized _ _ _ => none
  | _, _ => none

variable {cfg : Config} {env : Env} {f : Data → Data}

/-! ## Which artifacts there are -/

/-- What the tree holds at a path: nothing, a declared artifact, or a materialized one. -/
def State.metadataAt (s : State) (q : Path) : Option (Option Entry) :=
  (s.tree.get q).map (·.stage.metadata)

/-- One of the paths is above the other, or they are equal. -/
def Overlap (q path : Path) : Prop := q <+: path ∨ path <+: q

instance (q path : Path) : Decidable (Overlap q path) := inferInstanceAs (Decidable (_ ∨ _))

section MetadataAt

variable {s : State} {q path : Path} {data : Data} {value : ArtifactValue}

theorem Overlap.of_le {a b c : Path} (hab : a <+: b) (h : Overlap b c) : Overlap a c := by
  rcases h with hbc | hcb
  · exact .inl (hab.trans hbc)
  · exact prefix_or_prefix_of_prefix hab hcb

theorem Overlap.eq_of_get {t : DataTree String Data} {data' : Data} (h : Overlap q path)
    (hq : t.get q = some data) (hpath : t.get path = some data') : q = path := by
  rcases h with hle | hle
  · exact DataTree.eq_of_above hq hpath hle
  · exact (DataTree.eq_of_above hpath hq hle).symm

theorem metadataAt_ne_none : s.metadataAt q ≠ none ↔ ∃ data, s.tree.get q = some data := by
  rw [State.metadataAt]
  cases s.tree.get q with
  | none | some data => simp

theorem eq_of_overlap {q' : Path} (hq : s.metadataAt q ≠ none) (hq' : s.metadataAt q' ≠ none)
    (h : Overlap q q') : q = q' := by
  obtain ⟨data, hdata⟩ := metadataAt_ne_none.mp hq
  obtain ⟨data', hdata'⟩ := metadataAt_ne_none.mp hq'
  exact h.eq_of_get hdata hdata'

section Changes

variable {B : Type} (g : Data → B)

theorem map_get_modify (hpath : s.tree.get path = some data) (q : Path) :
    ((s.modify path f).tree.get q).map g =
      if q = path then some (g (f data)) else (s.tree.get q).map g := by
  rw [State.modify, DataTree.get_update_key hpath]
  split <;> rfl

theorem map_get_touch (hpath : s.tree.get path = some data) (hf : g (f data) = g data) (q : Path) :
    ((s.modify path f).tree.get q).map g = (s.tree.get q).map g := by
  rw [map_get_modify g hpath]
  split
  · next heq => rw [heq, hpath, hf]; rfl
  · rfl

theorem map_get_insert (tree : ArtifactTree) (data : Data) (path q : Path) :
    (DataTree.get q (tree.insert data path)).map g =
      if q = path then some (g data)
      else if Overlap q path then none else (DataTree.get q tree).map g := by
  rw [DataTree.get_insert]
  by_cases heq : q = path
  · rw [if_pos heq, if_pos heq, Option.map_some]
  · rw [if_neg heq, if_neg heq]
    by_cases hover : q <+: path ∨ path <+: q
    · rw [if_pos hover, if_pos (show Overlap q path from hover)]
      rfl
    · rw [if_neg hover, if_neg (show ¬ Overlap q path from hover)]

theorem map_get_remove (tree : ArtifactTree) :
    (DataTree.get q (tree.remove path).2).map g =
      if Overlap q path then none else (DataTree.get q tree).map g := by
  rw [DataTree.get_remove]
  by_cases hover : q <+: path ∨ path <+: q
  · rw [if_pos hover, if_pos (show Overlap q path from hover)]
    rfl
  · rw [if_neg hover, if_neg (show ¬ Overlap q path from hover)]

end Changes

theorem metadataAt_modify (hpath : s.tree.get path = some data) :
    (s.modify path f).metadataAt q =
      if q = path then some (f data).stage.metadata else s.metadataAt q :=
  map_get_modify _ hpath q

theorem Extends.metadataAt {stack : List Path} {s' : State} (h : Extends stack s s') (q : Path) :
    s'.metadataAt q = s.metadataAt q := by
  rw [State.metadataAt, State.metadataAt]
  rcases h.entry q with heq | ⟨-, data, data', hdata, hdata', hsame⟩
  · rw [heq]
  · rw [hdata, hdata', Option.map_some, Option.map_some, hsame.2]

theorem declareExisting_reused (h : reusesExisting cfg env s path value) :
    (declareExisting cfg env s path value).metadataAt q =
        (if q = path then some (some value.entry) else s.metadataAt q) ∧
      ∃ data metadata, s.tree.get path = some data ∧ data.stage.metadata = some metadata ∧
        artifactMetadataMatchesEntry cfg.windows metadata value.entry := by
  obtain ⟨data, metadata, time, active, hget, hstage, hmatch, heq⟩ := declareExisting_of_reuses h
  rw [heq, metadataAt_modify hget]
  exact ⟨rfl, data, metadata, hget, by rw [hstage]; rfl, hmatch⟩

theorem declareExisting_inserted (h : ¬ reusesExisting cfg env s path value) :
    (declareExisting cfg env s path value).metadataAt q =
      if q = path then some (some value.entry)
      else if Overlap q path then none else s.metadataAt q := by
  rw [declareExisting_of_not_reuses h]
  exact map_get_insert _ _ _ _ _

theorem declareNew_metadataAt (method : Method) :
    (declareNew cfg env s path value method).metadataAt q =
      if q = path then some none else if Overlap q path then none else s.metadataAt q := by
  refine (map_get_insert _ _ _ _ _).trans ?_
  rw [map_get_remove]
  by_cases hover : Overlap q path
  · simp only [if_pos hover]
    rfl
  · simp only [if_neg hover]
    rfl

/-- The paths removed for one path are those of the artifacts it overlaps. -/
theorem metadataAt_removed (hq : s.metadataAt q ≠ none) :
    q ∈ (s.tree.removePath path).map Prod.fst ↔ Overlap q path := by
  obtain ⟨data, hdata⟩ := metadataAt_ne_none.mp hq
  constructor
  · intro h
    obtain ⟨e, he, rfl⟩ := mem_map.mp h
    exact DataTree.overlap_of_mem_removePath he
  · exact fun h => mem_map.mpr ⟨_, DataTree.mem_removePath hdata h, rfl⟩

/-- What stays is above nothing that is removed. -/
theorem not_le_removed (hq : ¬ Overlap q path) {r : Path}
    (hr : r ∈ (s.tree.removePath path).map Prod.fst) : ¬ q <+: r := by
  obtain ⟨e, he, rfl⟩ := mem_map.mp hr
  exact fun hle => hq (.of_le hle (DataTree.overlap_of_mem_removePath he))

theorem invalidatePaths_metadataAt (paths : List Path) (q : Path) :
    (invalidatePaths s paths).metadataAt q =
        (if q ∈ invalidatedPaths s.tree paths then none else s.metadataAt q) ∧
      (s.metadataAt q ≠ none → q ∉ invalidatedPaths s.tree paths →
        ∀ r ∈ invalidatedPaths s.tree paths, ¬ q <+: r) := by
  induction paths generalizing s with
  | nil => exact ⟨by simp [invalidatePaths, invalidatedPaths, invalidatedEntries], nofun⟩
  | cons path paths ih =>
    obtain ⟨ihget, ihle⟩ := ih (s := { s with tree := (s.tree.remove path).2 })
    have hremoved : State.metadataAt { s with tree := (s.tree.remove path).2 } q =
        if Overlap q path then none else s.metadataAt q := map_get_remove _ _
    rw [hremoved] at ihget ihle
    rw [show invalidatedPaths s.tree (path :: paths) = (s.tree.removePath path).map Prod.fst ++
      invalidatedPaths (s.tree.remove path).2 paths from map_append]
    constructor
    · refine Eq.trans ihget ?_
      by_cases hq : s.metadataAt q = none
      · simp [hq]
      · simp only [mem_append, metadataAt_removed hq]
        by_cases hover : Overlap q path
        · simp [hover]
        · simp [hover]
    · intro hq hnot r hr
      simp only [mem_append, metadataAt_removed hq, not_or] at hnot
      rw [if_neg hnot.1] at ihle
      rcases mem_append.mp hr with hr | hr
      · exact not_le_removed hnot.1 hr
      · exact ihle hq hnot.2 r hr

/-- A message lets an artifact become materialized, or changes nothing that is recorded. -/
theorem finish_metadataAt (hs : Versioned s) {task : Task} (ht : task ∈ s.tasks) (timestamp : Nat)
    (ok : Bool) (q : Path) : (finish s task timestamp ok).metadataAt q =
      match materializes s task ok with
      | none => s.metadataAt q
      | some entry => if q = task.path then some (some entry) else s.metadataAt q := by
  have hfinishes := finishes hs ht timestamp ok
  generalize finish s task timestamp ok = s' at hfinishes ⊢
  cases hfinishes with
  | ignored h =>
    have hnone : materializes s task ok = none := by
      unfold materializes
      split
      · next found info hkind hfound =>
        exact if_pos (.inl ((h found info hfound).resolve_right (by simp [hkind])))
      · rfl
    rw [hnone]
  | cleaned hkind hq =>
    simp only [materializes, hkind]
    exact map_get_touch (·.stage.metadata) hq rfl q
  | @written data entry hkind hq hcurrent =>
    have hfound := DataTree.prefixGet_eq_some.mpr ⟨prefix_rfl, hq⟩
    have hversion : ¬ task.version < data.version := hcurrent.version.ge.not_gt
    rw [metadataAt_modify hq]
    simp only [materializes, hkind, hfound, hversion, Bool.true_eq_false, or_self, if_false]
    cases hstage : data.stage with
    | materialized metadata time active =>
      split
      · next heq => rw [heq, State.metadataAt, hq, Option.map_some, hstage]
      · rfl
    | declared declared method => rfl
  | kept hkind hq | again hkind hq =>
    have hfound := DataTree.prefixGet_eq_some.mpr ⟨prefix_rfl, hq⟩
    simp only [materializes, hkind, hfound, or_true, if_true]
    exact map_get_touch (·.stage.metadata) hq rfl q

/-- What becomes materialized was declared. -/
theorem materializes_declared {task : Task} {ok : Bool} {entry : Entry}
    (h : materializes s task ok = some entry) :
    ∃ found data method, s.tree.prefixGet task.path = some (found, data) ∧
      data.stage = .declared entry method := by
  unfold materializes at h
  split at h
  · next found info _ hfound =>
    split at h
    · cases h
    · split at h
      · next entry' method hstage =>
        cases h
        exact ⟨found, info, method, hfound, hstage⟩
      · cases h
  · cases h

theorem materializes_metadataAt (hs : Versioned s) {task : Task} (ht : task ∈ s.tasks) {ok : Bool}
    {entry : Entry} (h : materializes s task ok = some entry) :
    s.metadataAt task.path = some none := by
  unfold materializes at h
  split at h
  · next found info _ hfound =>
    split at h
    · cases h
    · next hcond =>
      have hget := (hs.isCurrent ht hfound fun hlt => hcond (.inl hlt)).1
      split at h
      · next hstage => rw [State.metadataAt, hget, Option.map_some, hstage]; rfl
      · cases h
  · cases h

end MetadataAt

end Bz.Materializer
