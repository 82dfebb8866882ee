import Bz.Files.Metadata
import Mathlib.Data.List.Infix

/-!
# What the no-watchfs metadata cache answers

Directory reads follow symlinks and seed the cache under the path they were asked for, while
metadata reads stop at the first symlink.  Every entry that a metadata read can meet is right,
except one: a symlink that was listed before its metadata was read is seeded as a directory, and is
never read as a symlink again.

Principal results: `CacheHonest.perform`; `listed_symlink_read_as_directory`; `cached_read_iff`,
when a cached read answers what the uncached one does.
-/

namespace Bz.Files

open ExactPathSymlinkMetadata NoWatchFsMetadataCache ExactPathMetadata List Option

variable {os : Os} {root : Entry} {cache : NoWatchFsMetadataCache}
  {q curr a rest s : Path} {t : List Component} {x last : Option RawPathMetadataForNoWatchFs}
  {target : LinkTarget}
  {linkAt path : Path} {linkTo : RawSymlink} {l : Option RawPathMetadataForNoWatchFs}
  {entries : List RawDirEntry}

/-! ## The uncached walk over a tree -/

namespace Os.Shows

variable (hos : os.Shows root) {e : Entry} {p : Path} {c : String}
include hos

theorem fromExactPath_get (h : root.get p = some e) (hns : e.stat ≠ .symlink) :
    fromExactPath os p = .ok (.fileOrDirectory e.stat) := by
  unfold fromExactPath
  rw [hos.lstat h]
  cases hs : e.stat with
  | symlink => exact absurd hs hns
  | _ => rfl

theorem fromExactPath_symlink (h : root.get p = some (.symlink target)) :
    fromExactPath os p = (fromSymlinkPath os p).map .symlink := by
  unfold fromExactPath
  rw [hos.lstat h]
  rfl

theorem fromExactPath_missing (hq : root.get q = some e) (hns : e.stat ≠ .symlink)
    (h : root.get (q ++ [c]) = none) : fromExactPath os (q ++ [c]) = .ok .doesNotExist ∧
        (∃ children, e = .directory children) ∨
      ∃ err, fromExactPath os (q ++ [c]) = .error (.io err) := by
  have hfile : (∃ proxy, e.stat = .file proxy) →
      ∃ err, fromExactPath os (q ++ [c]) = .error (.io err) := by
    intro he
    obtain ⟨err, herr⟩ := hos.lstat_below_file (c := c) hq he
    exact ⟨err, by rw [fromExactPath, herr]⟩
  cases e with
  | directory children =>
    left
    exact ⟨by rw [fromExactPath, hos.lstat_missing hq h], children, rfl⟩
  | symlink target => exact absurd rfl hns
  | file proxy | special proxy => exact .inr (hfile ⟨proxy, rfl⟩)

/-- A step of the walk that goes on has found an entry. -/
theorem get_of_fileOrDirectory {stat : Stat} (hq : root.get q = some e) (hns : e.stat ≠ .symlink)
    (h : fromExactPath os (q ++ [c]) = .ok (.fileOrDirectory stat)) :
    ∃ e', root.get (q ++ [c]) = some e' ∧ e'.stat = stat ∧ e'.stat ≠ .symlink := by
  cases hc : root.get (q ++ [c]) with
  | none =>
    rcases hos.fromExactPath_missing hq hns hc with ⟨hm, -⟩ | ⟨err, hm⟩ <;>
      · rw [hm] at h
        cases h
  | some e' =>
    refine ⟨e', rfl, ?_⟩
    by_cases hs : e'.stat = .symlink
    · cases e' with
      | symlink target =>
        rw [hos.fromExactPath_symlink hc] at h
        cases hl : fromSymlinkPath os (q ++ [c]) <;> rw [hl] at h <;> cases h
      | _ => cases hs
    · rw [hos.fromExactPath_get hc hs] at h
      cases h
      exact ⟨rfl, hs⟩

theorem fromSymlinkPath_cases (h : root.get p = some (.symlink target)) :
    (∃ s, fromSymlinkPath os p = .ok s) ∨
      ∃ dest, fromSymlinkPath os p = .error (.invalidSymlink p dest) := by
  unfold fromSymlinkPath
  rw [hos.readLink h]
  cases target with
  | absolute dest => exact .inl ⟨_, rfl⟩
  | relative dest =>
    cases hj : joinNormalized p.dropLast dest with
    | none => exact .inr ⟨dest, by simp [hj]⟩
    | some linkPath => exact .inl ⟨.internalSymlink linkPath dest, by simp [hj]⟩

/-- The walk stops at the first symlink of the path. -/
theorem readPathMetadataFrom_symlink {F : Type}
    {convert : Path → Stat → Except ReadError (PathMetadata F)}
    {last : Option Stat} (hq : q ≠ []) (h : root.get (curr ++ q) = some (.symlink target)) :
    readPathMetadataFrom os convert curr last (q ++ rest) = (fromSymlinkPath os (curr ++ q)).map
        fun s => some (s.intoRawPathMetadata (curr ++ q) rest) := by
  induction q generalizing curr last with
  | nil => exact absurd rfl hq
  | cons c q ih =>
    rw [cons_append, readPathMetadataFrom]
    cases q with
    | nil =>
      rw [hos.fromExactPath_symlink h]
      cases fromSymlinkPath os (curr ++ [c]) <;> rfl
    | cons c' q =>
      rw [append_cons curr c (c' :: q)] at h ⊢
      obtain ⟨children, hd⟩ := Entry.directory_of_get_append (cons_ne_nil c' q) h
      rw [hos.fromExactPath_get hd (by simp [Entry.stat])]
      exact ih (cons_ne_nil c' q) h

end Os.Shows

/-! ## Seeding -/

section Seed

variable {α : Type} {m : Path → Option α} {key : Path} {value x : α}

theorem orInsert_keeps (h : m q = some x) : orInsert m key value q = some x := by
  unfold orInsert
  split
  · next hq => rw [← hq, h]; rfl
  · exact h

theorem orInsert_cases (h : orInsert m key value q = some x) :
    m q = some x ∨ (m q = none ∧ q = key ∧ x = value) := by
  unfold orInsert at h
  split at h
  · next hq =>
    subst hq
    cases hm : m q with
    | none => exact .inr ⟨rfl, rfl, by simpa [hm] using h.symm⟩
    | some y => exact .inl (by simpa [hm] using h)
  · exact .inl h

end Seed

namespace NoWatchFsMetadataCache

variable {dir : Path} {metadata : Path → Option (Option RawPathMetadataForNoWatchFs)}

theorem foldl_seedEntry_keeps (h : metadata q = some x) :
    entries.foldl (seedEntry dir) metadata q = some x := by
  induction entries generalizing metadata with
  | nil => exact h
  | cons entry entries ih =>
    refine ih ?_
    unfold seedEntry
    split
    · exact orInsert_keeps h
    · exact h

theorem foldl_seedEntry_cases (h : entries.foldl (seedEntry dir) metadata q = some x) :
    metadata q = some x ∨ x = some .directory ∧
      ∃ entry ∈ entries, entry.fileType = .directory ∧ q = dir ++ [entry.fileName] := by
  induction entries generalizing metadata with
  | nil => exact .inl h
  | cons entry entries ih =>
    rcases ih h with h | ⟨rfl, entry', hmem, hentry⟩
    · unfold seedEntry at h
      split at h
      · next htype =>
        rcases orInsert_cases h with h | ⟨-, rfl, rfl⟩
        · exact .inl h
        · exact .inr ⟨rfl, entry, mem_cons_self, htype.1, rfl⟩
      · exact .inl h
    · exact .inr ⟨rfl, entry', mem_cons_of_mem _ hmem, hentry⟩

/-- An entry after seeding was there before, or is the directory or a directory that it lists. -/
theorem seedReaddir_cases (h : (cache.seedReaddir dir entries).metadata q = some x) :
    cache.metadata q = some x ∨ x = some .directory ∧
      (q = dir ∨ ∃ entry ∈ entries, entry.fileType = .directory ∧ q = dir ++ [entry.fileName]) := by
  rcases foldl_seedEntry_cases h with h | ⟨hx, hentry⟩
  · rcases orInsert_cases h with h | ⟨-, hq, hx⟩
    · exact .inl h
    · exact .inr ⟨hx, .inl hq⟩
  · exact .inr ⟨hx, .inr hentry⟩

theorem seedReaddir_self (h : cache.metadata dir = none) :
    (cache.seedReaddir dir entries).metadata dir = some (some .directory) :=
  foldl_seedEntry_keeps (by simp [orInsert, h])

end NoWatchFsMetadataCache

/-! ## Honest caches -/

/-- Below paths that are no symlinks, metadata are what `lstat` says, unless a symlink was seeded as
a directory; listings are those of directories of the tree. -/
structure CacheHonest (os : Os) (root : Entry) (cache : NoWatchFsMetadataCache) : Prop where
  metadata : ∀ {q e c x}, root.get q = some e → e.stat ≠ .symlink →
    cache.metadata (q ++ [c]) = some x → exactPathMetadataForNoWatchfs os (q ++ [c]) = .ok x ∨
      x = some .directory ∧ ∃ target, root.get (q ++ [c]) = some (.symlink target)
  readdirs : ∀ {q e entries}, root.get q = some e → e.stat ≠ .symlink →
    cache.readdirs q = some entries → (∃ children, e = .directory children) ∧
      ∀ d : RawDirEntry, d ∈ entries ↔
        ∃ e', root.get (q ++ [d.fileName]) = some e' ∧ e'.fileType = d.fileType
  linkAt : ∀ {q linkAt linkTo}, cache.metadata q = some (some (.symlink linkAt linkTo)) → linkAt = q

variable (hos : os.Shows root) (h : CacheHonest os root cache) {e : Entry} {c : String}

theorem CacheHonest.default : CacheHonest os root .default where
  metadata _ _ h := by cases h
  readdirs _ _ h := by cases h
  linkAt h := by cases h

include hos h in
/-- The type of a directory entry says as much as `lstat`. -/
theorem CacheHonest.withCachedType (hq : root.get q = some e) (hns : e.stat ≠ .symlink) :
    exactPathMetadataForNoWatchfsWithCachedType os (q ++ [c]) cache =
      exactPathMetadataForNoWatchfs os (q ++ [c]) := by
  unfold exactPathMetadataForNoWatchfsWithCachedType NoWatchFsMetadataCache.cachedDirentType
  simp only [getLast?_append, getLast?_singleton, some_or, dropLast_concat]
  cases hr : cache.readdirs q with
  | none => rfl
  | some entries =>
    obtain ⟨⟨children, rfl⟩, hlist⟩ := h.readdirs hq hns hr
    cases hf : entries.find? fun entry => decide (entry.fileName = c) with
    | none =>
      have hmissing : root.get (q ++ [c]) = none := by
        by_contra hne
        obtain ⟨e', he'⟩ := ne_none_iff_exists'.mp hne
        have hmem := (hlist ⟨c, e'.fileType⟩).mpr ⟨e', he', rfl⟩
        simpa using find?_eq_none.mp hf _ hmem
      simp only [hf, exactPathMetadataForNoWatchfs, fromExactPath, hos.lstat_missing hq hmissing]
      rfl
    | some entry =>
      obtain ⟨e', he', htype⟩ := (hlist entry).mp (mem_of_find?_eq_some hf)
      have hname : entry.fileName = c := by simpa using find?_some hf
      rw [hname] at he'
      simp only [hf, ← htype]
      cases e' with
      | file proxy | special proxy => rfl
      | directory cs =>
        simp only [Entry.fileType, exactPathMetadataForNoWatchfs,
          hos.fromExactPath_get he' (by simp [Entry.stat])]
        rfl
      | symlink target =>
        simp only [Entry.fileType, exactPathMetadataForNoWatchfs, hos.fromExactPath_symlink he']
        cases fromSymlinkPath os (q ++ [c]) <;> rfl

/-! ## One step of the cached walk -/

/-- What was read for a symlink names the path that was read. -/
theorem exactPathMetadataForNoWatchfs_linkAt
    (h : exactPathMetadataForNoWatchfs os curr = .ok (some (.symlink linkAt linkTo))) :
    linkAt = curr := by
  unfold exactPathMetadataForNoWatchfs at h
  cases hx : fromExactPath os curr with
  | error e => rw [hx] at h; cases h
  | ok m =>
    rw [hx] at h
    cases m with
    | doesNotExist => cases h
    | symlink s => cases s <;> · cases h; rfl
    | fileOrDirectory stat => cases stat <;> cases h

theorem withCachedType_linkAt
    (h : exactPathMetadataForNoWatchfsWithCachedType os curr cache = .ok (some
      (.symlink linkAt linkTo))) : linkAt = curr := by
  unfold exactPathMetadataForNoWatchfsWithCachedType at h
  split at h
  · cases h
  · cases hs : fromSymlinkPath os curr with
    | error e => rw [hs] at h; cases h
    | ok s =>
      rw [hs] at h
      cases s <;> · cases h; rfl
  · cases h
  all_goals exact exactPathMetadataForNoWatchfs_linkAt h

theorem fromSymlinkPath_linkAt (h : fromSymlinkPath os curr = .error (.invalidSymlink a t)) :
    a = curr := by
  unfold fromSymlinkPath at h
  split at h
  · cases h
  · cases h
  · split at h <;> cases h
    rfl

theorem fromExactPath_error
    (h : fromExactPath os curr = .error (.invalidSymlink a t)) : a = curr := by
  unfold fromExactPath at h
  split at h
  · cases h
  · cases hs : fromSymlinkPath os curr <;> rw [hs] at h <;> cases h
    exact fromSymlinkPath_linkAt hs
  · cases h
  · cases h

theorem withCachedType_error
    (h : exactPathMetadataForNoWatchfsWithCachedType os curr cache = .error (.invalidSymlink a t)) :
    a = curr := by
  have hexact (h : exactPathMetadataForNoWatchfs os curr = .error (.invalidSymlink a t)) :
      a = curr := by
    unfold exactPathMetadataForNoWatchfs at h
    cases hx : fromExactPath os curr <;> rw [hx] at h <;> cases h
    exact fromExactPath_error hx
  unfold exactPathMetadataForNoWatchfsWithCachedType at h
  split at h
  · cases h
  · cases hs : fromSymlinkPath os curr <;> rw [hs] at h <;> cases h
    exact fromSymlinkPath_linkAt hs
  · cases h
  all_goals exact hexact h

/-- A step keeps what is cached and adds the path it asks for only. -/
theorem cached_metadata_keeps (h : cache.metadata q = some x) :
    (exactPathMetadataForNoWatchfsCached os curr cache).2.metadata q = some x := by
  fun_cases exactPathMetadataForNoWatchfsCached os curr cache with
  | case1 | case3 => exact h
  | case2 hnone y =>
    have hne : q ≠ curr := by
      rintro rfl
      rw [hnone] at h
      cases h
    exact (Function.update_of_ne hne _ _).trans h

theorem cached_metadata_of_ne (hne : q ≠ curr) :
    (exactPathMetadataForNoWatchfsCached os curr cache).2.metadata q = cache.metadata q := by
  fun_cases exactPathMetadataForNoWatchfsCached os curr cache with
  | case1 | case3 => rfl
  | case2 => exact Function.update_of_ne hne _ _

theorem cached_metadata_cases
    (h : (exactPathMetadataForNoWatchfsCached os curr cache).2.metadata q = some x) :
    cache.metadata q = some x ∨
      q = curr ∧ exactPathMetadataForNoWatchfsWithCachedType os curr cache = .ok x := by
  by_cases hq : q = curr
  · subst hq
    revert h
    fun_cases exactPathMetadataForNoWatchfsCached os q cache with
    | case1 | case3 => exact .inl
    | case2 hnone y hy =>
      intro h
      obtain rfl : y = x := by simpa using h
      exact .inr ⟨rfl, hy⟩
  · exact .inl (cached_metadata_of_ne hq ▸ h)

theorem cached_error_linkAt
    (h : (exactPathMetadataForNoWatchfsCached os curr cache).1 = .error (.invalidSymlink a t)) :
    a = curr := by
  revert h
  fun_cases exactPathMetadataForNoWatchfsCached os curr cache with
  | case1 | case2 => exact nofun
  | case3 _ e he =>
    intro h
    cases h
    exact withCachedType_error he

theorem cached_readdirs :
    (exactPathMetadataForNoWatchfsCached os curr cache).2.readdirs = cache.readdirs := by
  fun_cases exactPathMetadataForNoWatchfsCached os curr cache <;> rfl

namespace CacheHonest

include hos h in
theorem step (curr : Path) :
    CacheHonest os root (exactPathMetadataForNoWatchfsCached os curr cache).2 where
  metadata hq hns hx := by
    rcases cached_metadata_cases hx with hx | ⟨rfl, hx⟩
    · exact h.metadata hq hns hx
    · exact .inl (h.withCachedType hos hq hns ▸ hx)
  readdirs hq hns hes := h.readdirs hq hns (cached_readdirs ▸ hes)
  linkAt hx := by
    rcases cached_metadata_cases hx with hx | ⟨rfl, hx⟩
    · exact h.linkAt hx
    · exact withCachedType_linkAt hx

theorem cached_linkAt (h : CacheHonest os root cache) {t : RawSymlink}
    (hx : (exactPathMetadataForNoWatchfsCached os curr cache).1 = .ok (some (.symlink a t))) :
    a = curr := by
  revert hx
  fun_cases exactPathMetadataForNoWatchfsCached os curr cache with
  | case1 x hm =>
    intro hx
    cases hx
    exact h.linkAt hm
  | case2 _ y hy =>
    intro hx
    cases hx
    exact withCachedType_linkAt hy
  | case3 => exact nofun

include hos h in
/-- A step below a path that is no symlink answers what `lstat` says, unless a symlink was seeded
as a directory. -/
theorem cached_eq (hq : root.get q = some e) (hns : e.stat ≠ .symlink)
    (hclean : ∀ target, root.get (q ++ [c]) = some (.symlink target) →
      cache.metadata (q ++ [c]) ≠ some (some .directory)) :
    (exactPathMetadataForNoWatchfsCached os (q ++ [c]) cache).1 =
      exactPathMetadataForNoWatchfs os (q ++ [c]) := by
  fun_cases exactPathMetadataForNoWatchfsCached os (q ++ [c]) cache with
  | case1 x hx =>
    rcases h.metadata hq hns hx with hexact | ⟨rfl, target, ht⟩
    · exact hexact.symm
    · exact absurd hx (hclean target ht)
  | case2 _ y hy => rw [← h.withCachedType hos hq hns, hy]
  | case3 _ e he => rw [← h.withCachedType hos hq hns, he]

include hos h in
theorem seedReaddir {dir : Path} (hread : readDirUncached os dir = .ok entries) :
    CacheHonest os root (cache.seedReaddir dir entries) := by
  unfold readDirUncached at hread
  cases hos_dir : os.readDir dir with
  | error e => rw [hos_dir] at hread; cases hread
  | ok listed =>
    rw [hos_dir] at hread
    cases hread
    -- what can be listed and is no symlink is a directory
    have hdirectory : ∀ {e}, root.get dir = some e → e.stat ≠ .symlink →
        ∃ children, e = .directory children := by
      intro e he hns
      cases e with
      | directory children => exact ⟨children, rfl⟩
      | symlink target => exact absurd rfl hns
      | _ =>
        obtain ⟨err, herr⟩ := hos.readDir_file he ⟨_, rfl⟩
        rw [hos_dir] at herr
        cases herr
    refine ⟨fun {q e c x} hq hns hx => ?_, fun {q e es} hq hns hes => ?_, fun {q a t} hx => ?_⟩
    · rcases seedReaddir_cases hx with hx | ⟨rfl, hdir | hchild⟩
      · exact h.metadata hq hns hx
      · subst hdir
        cases he' : root.get (q ++ [c]) with
        | none =>
          obtain ⟨err, herr⟩ := hos.readDir_missing hq hns he'
          rw [hos_dir] at herr
          cases herr
        | some e' =>
          by_cases hs : e'.stat = .symlink
          · cases e' with
            | symlink target => exact .inr ⟨rfl, target, rfl⟩
            | _ => cases hs
          · obtain ⟨children, rfl⟩ := hdirectory he' hs
            left
            simp only [exactPathMetadataForNoWatchfs, hos.fromExactPath_get he' hs]
            rfl
      · obtain ⟨entry, hmem, htype, hqc⟩ := hchild
        obtain ⟨rfl, hc⟩ := append_inj' hqc rfl
        cases hc
        obtain ⟨children, rfl⟩ := hdirectory hq hns
        obtain ⟨e', he', htype'⟩ :=
          (hos.readDir hq hos_dir entry).mp (mem_insertionSort _ |>.mp hmem)
        rw [htype] at htype'
        have hs : e'.stat = .directory := by cases e' <;> first | rfl | cases htype'
        left
        simp only [exactPathMetadataForNoWatchfs, hos.fromExactPath_get he' (by simp [hs]), hs]
        rfl
    · rcases orInsert_cases hes with hes | ⟨-, rfl, rfl⟩
      · exact h.readdirs hq hns hes
      · obtain ⟨children, rfl⟩ := hdirectory hq hns
        refine ⟨⟨children, rfl⟩, fun d => ?_⟩
        rw [mem_insertionSort]
        exact hos.readDir hq hos_dir d
    · rcases seedReaddir_cases hx with hx | ⟨hx, -⟩
      · exact h.linkAt hx
      · cases hx

end CacheHonest

/-! ## The cached walk -/

/-- What every step of a walk preserves, the walk preserves. -/
theorem readCachedFrom_induction {P : NoWatchFsMetadataCache → Prop}
    (hstep : ∀ q cache, q <+: curr ++ rest → curr.length < q.length → P cache → P
      (exactPathMetadataForNoWatchfsCached os q cache).2)
    (h : P cache) : P (readCachedFrom os curr last rest cache).2 := by
  induction rest generalizing curr last cache with
  | nil => cases last <;> exact h
  | cons c rest ih =>
    have hp : P (exactPathMetadataForNoWatchfsCached os (curr ++ [c]) cache).2 :=
      hstep _ cache ⟨rest, by simp⟩ (by simp) h
    rw [readCachedFrom]
    rcases hx : exactPathMetadataForNoWatchfsCached os (curr ++ [c]) cache with ⟨r, cache'⟩
    rw [hx] at hp
    have hrest : ∀ last', P (readCachedFrom os (curr ++ [c]) last' rest cache').2 := by
      refine fun last' => ih (fun q cache hq hlt hc => hstep q cache ?_ ?_ hc) hp
      · simpa using hq
      · rw [length_append] at hlt
        omega
    rcases r with e | _ | _ | _ | _
    · exact hp
    · exact hp
    · exact hp
    · exact hrest _
    · exact hrest _

theorem readCachedFrom_keeps (h : cache.metadata q = some x) :
    (readCachedFrom os curr last rest cache).2.metadata q = some x :=
  readCachedFrom_induction (P := fun cache => cache.metadata q = some x)
    (fun _ _ _ _ hc => cached_metadata_keeps hc) h

theorem readCachedFrom_of_not_below (hq : ¬ q <+: curr ++ rest) (h : cache.metadata q = none) :
    (readCachedFrom os curr last rest cache).2.metadata q = none := by
  refine readCachedFrom_induction (P := fun cache => cache.metadata q = none)
    (fun q' cache hq' _ hc => ?_) h
  rw [cached_metadata_of_ne, hc]
  rintro rfl
  exact hq hq'

include hos h in
/-- Without seeded symlinks on the way, the cached walk gives what the uncached one gives. -/
theorem CacheHonest.readCachedFrom_eq {l : Option Stat} (hcurr : root.get curr =
    some e) (hns : e.stat ≠ .symlink)
    (hclean : ∀ q target, q <+: curr ++ rest → root.get q = some (.symlink target) →
      cache.metadata q ≠ some (some .directory)) :
    (Bz.Files.readCachedFrom os curr (l.map convertMetadataForNoWatchfs) rest cache).1 =
      readPathMetadataFrom os (fun _ stat => .ok (convertMetadataForNoWatchfs stat)) curr l
        rest := by
  induction rest generalizing curr e l cache with
  | nil => cases l <;> rfl
  | cons c rest ih =>
    have hstep := h.cached_eq hos (c := c) hcurr hns fun target ht =>
      hclean _ target ⟨rest, by simp⟩ ht
    rw [Bz.Files.readCachedFrom, readPathMetadataFrom]
    rcases hx : exactPathMetadataForNoWatchfsCached os (curr ++ [c]) cache with ⟨r, cache'⟩
    rw [hx] at hstep
    subst hstep
    unfold exactPathMetadataForNoWatchfs
    cases hf : fromExactPath os (curr ++ [c]) with
    | error err => rfl
    | ok m =>
      cases m with
      | doesNotExist => rfl
      | symlink s =>
        -- appending the rest to a symlink gives what reading it with the rest gives
        cases s <;> by_cases hr : rest = [] <;>
          simp [intoRawPathMetadata, appendSymlinkRestForNoWatchfs, Except.map, hr]
      | fileOrDirectory stat =>
        obtain ⟨e', he', hstat, hns'⟩ := hos.get_of_fileOrDirectory hcurr hns hf
        have hcache' : CacheHonest os root cache' := by
          have := h.step hos (curr ++ [c])
          rwa [hx] at this
        have hclean' : ∀ q target, q <+: curr ++ [c] ++ rest → root.get q = some (.symlink target) →
            cache'.metadata q ≠ some (some .directory) := by
          intro q target hq ht
          have hne : q ≠ curr ++ [c] := by
            rintro rfl
            rw [he'] at ht
            cases ht
            exact hns' rfl
          have hsame : (exactPathMetadataForNoWatchfsCached os (curr ++ [c]) cache).2.metadata q =
            cache.metadata q := cached_metadata_of_ne hne
          rw [hx] at hsame
          rw [hsame]
          exact hclean q target (by simpa using hq) ht
        have hrest := ih (l := some stat) hcache' he' hns' hclean'
        cases stat <;> exact hrest

/-! ## Symlinks that were seeded as directories -/

include hos h in
/-- Every part of a path into the tree that has something below it is cached as a directory, so the
cached walk goes down to it. -/
theorem CacheHonest.readCachedFrom_down (rest : Path) {children : List (String × Entry)}
    (hq : q ≠ []) (hget : root.get (curr ++ q) = some (.directory children)) :
    ∃ cache', CacheHonest os root cache' ∧
      (∀ p x, cache.metadata p = some x → cache'.metadata p = some x) ∧
      (∀ p, ¬ p <+: curr ++ q → cache'.metadata p = cache.metadata p) ∧
      Bz.Files.readCachedFrom os curr l (q ++ rest) cache =
        Bz.Files.readCachedFrom os (curr ++ q) (some .directory) rest cache' := by
  induction q generalizing curr l cache with
  | nil => exact absurd rfl hq
  | cons c q ih =>
    obtain ⟨cs, hcurr⟩ := Entry.directory_of_get_append_directory hget
    rw [append_cons] at hget
    obtain ⟨cs', hc⟩ := Entry.directory_of_get_append_directory hget
    have hstep := h.cached_eq hos (c := c) hcurr (by simp [Entry.stat]) fun target ht => by
      rw [hc] at ht
      cases ht
    have hexact : exactPathMetadataForNoWatchfs os (curr ++ [c]) = .ok (some .directory) := by
      simp only [exactPathMetadataForNoWatchfs, hos.fromExactPath_get hc (by simp [Entry.stat])]
      rfl
    rw [hexact] at hstep
    have hhonest := h.step hos (curr ++ [c])
    have hkeeps : ∀ p x, cache.metadata p = some x →
        (exactPathMetadataForNoWatchfsCached os (curr ++ [c]) cache).2.metadata p = some x :=
      fun p x hx => cached_metadata_keeps hx
    have hother : ∀ p, p ≠ curr ++ [c] →
        (exactPathMetadataForNoWatchfsCached os (curr ++ [c]) cache).2.metadata p =
          cache.metadata p := fun p hne => cached_metadata_of_ne hne
    rw [cons_append, Bz.Files.readCachedFrom]
    rcases hx : exactPathMetadataForNoWatchfsCached os (curr ++ [c]) cache with ⟨r, cache1⟩
    rw [hx] at hstep hhonest hkeeps hother
    subst hstep
    have hne_of : ∀ p : Path, ¬ p <+: curr ++ c :: q → p ≠ curr ++ [c] := by
      rintro p hp rfl
      exact hp ⟨q, by simp⟩
    cases q with
    | nil =>
      refine ⟨cache1, hhonest, hkeeps, fun p hp => hother p (hne_of p hp), ?_⟩
      rfl
    | cons c' q =>
      obtain ⟨cache', hh, hk, ho, heq⟩ := ih hhonest (l := some .directory) (cons_ne_nil c' q) hget
      refine ⟨cache', hh, fun p x hp => hk p x (hkeeps p x hp), fun p hp => ?_, ?_⟩
      · rw [ho p (by simpa using hp)]
        exact hother p (hne_of p hp)
      · rw [append_cons curr c (c' :: q)]
        exact heq

include hos h in
/-- Behind a path that was passed, a walk names symlinks further down only. -/
theorem CacheHonest.readCachedFrom_linkAt (curr rest : Path) (hlast : ∀ linkAt linkTo, l ≠ some
    (.symlink linkAt linkTo)) : (∀ linkAt linkTo, (Bz.Files.readCachedFrom os curr l rest cache).1 =
        .ok (some (.symlink linkAt linkTo)) → curr.length < linkAt.length) ∧
      ∀ linkAt target, (Bz.Files.readCachedFrom os curr l rest cache).1 =
        .error (.invalidSymlink linkAt target) → curr.length < linkAt.length := by
  induction rest generalizing curr l cache with
  | nil =>
    cases l with
    | none => exact ⟨nofun, nofun⟩
    | some m =>
      refine ⟨fun a t h => ?_, nofun⟩
      cases h
      exact absurd rfl (hlast a t)
  | cons c rest ih =>
    have hlen : curr.length < (curr ++ [c]).length := by simp
    have hok : ∀ a t, (exactPathMetadataForNoWatchfsCached os (curr ++ [c]) cache).1 =
        .ok (some (.symlink a t)) → a = curr ++ [c] := fun a t hx => h.cached_linkAt hx
    have herr : ∀ a t, (exactPathMetadataForNoWatchfsCached os (curr ++ [c]) cache).1 =
        .error (.invalidSymlink a t) → a = curr ++ [c] := fun a t hx => cached_error_linkAt hx
    have hhonest := h.step hos (curr ++ [c])
    rw [Bz.Files.readCachedFrom]
    rcases hx : exactPathMetadataForNoWatchfsCached os (curr ++ [c]) cache with ⟨r, cache'⟩
    rw [hx] at hok herr hhonest
    rcases r with e | _ | ⟨a, t⟩ | proxy | _
    · refine ⟨nofun, fun a t h => ?_⟩
      cases h
      rw [herr a t rfl]
      exact hlen
    · exact ⟨nofun, nofun⟩
    · refine ⟨fun a' t' h => ?_, nofun⟩
      cases h
      rw [hok a t rfl]
      exact hlen
    · obtain ⟨h1, h2⟩ := ih hhonest (curr ++ [c]) (l := some (.file proxy)) nofun
      exact ⟨fun a t h => hlen.trans (h1 a t h), fun a t h => hlen.trans (h2 a t h)⟩
    · obtain ⟨h1, h2⟩ := ih hhonest (curr ++ [c]) (l := some .directory) nofun
      exact ⟨fun a t h => hlen.trans (h1 a t h), fun a t h => hlen.trans (h2 a t h)⟩

include hos h in
theorem CacheHonest.readCached_symlink (hs : root.get s = some (.symlink target)) (rest : Path) :
    ∃ q c last cache', s = q ++ [c] ∧ CacheHonest os root cache' ∧
      cache'.metadata s = cache.metadata s ∧ (∃ e, root.get q = some e ∧ e.stat ≠ .symlink) ∧
      readPathMetadataForNoWatchfsCached os (s ++ rest) cache =
        Bz.Files.readCachedFrom os q last (c :: rest) cache' := by
  rcases eq_nil_or_concat' s with rfl | ⟨q, c, rfl⟩
  · obtain ⟨children, rfl⟩ := hos.isDirectory
    cases hs
  · obtain ⟨children, hq⟩ := Entry.directory_of_get_snoc hs
    have hget : ∃ e, root.get q = some e ∧ e.stat ≠ .symlink := ⟨_, hq, by simp [Entry.stat]⟩
    rw [append_assoc]
    by_cases hne : q = []
    · subst hne
      exact ⟨[], c, none, cache, rfl, h, rfl, hget, rfl⟩
    · obtain ⟨cache', hh, -, hother, heq⟩ :=
        h.readCachedFrom_down hos (c :: rest) (l := none) hne
          (show root.get ([] ++ q) = some (.directory children) from hq)
      refine ⟨q, c, some .directory, cache', rfl, hh, hother _ fun hpre => ?_, hget, heq⟩
      simpa using hpre.length_le

include hos h in
/-- **A symlink that is cached as a directory is answered wrongly.** -/
theorem CacheHonest.readCached_ne (hs : root.get s = some (.symlink target))
    (hm : cache.metadata s = some (some .directory)) (rest : Path) :
    (readPathMetadataForNoWatchfsCached os (s ++ rest) cache).1 ≠
      readPathMetadataForNoWatchfs os (s ++ rest) := by
  obtain ⟨q, c, last, cache', rfl, hh, hsame, -, heq⟩ := h.readCached_symlink hos hs rest
  -- a seeded symlink is passed like a directory
  have hcached : exactPathMetadataForNoWatchfsCached os (q ++ [c]) cache' =
      (.ok (some .directory), cache') := by
    simp [exactPathMetadataForNoWatchfsCached, hsame.trans hm]
  rw [heq, Bz.Files.readCachedFrom, hcached, readPathMetadataForNoWatchfs,
    hos.readPathMetadataFrom_symlink (by simp) (show root.get ([] ++ (q ++ [c])) = _ from hs),
    nil_append]
  obtain ⟨hok, herr⟩ := hh.readCachedFrom_linkAt hos (q ++ [c]) rest (l := some .directory) nofun
  intro hcontra
  rcases hos.fromSymlinkPath_cases hs with ⟨m, hx⟩ | ⟨dest, hx⟩
  · rw [hx] at hcontra
    cases m <;> exact absurd (hok _ _ hcontra) (lt_irrefl _)
  · rw [hx] at hcontra
    exact absurd (herr _ _ hcontra) (lt_irrefl _)

/-! ## Sequences of reads -/

/-- Among these reads, the symlink is listed before its metadata is read. -/
def listedFirst (os : Os) (s : Path) : List CacheRead → Bool
  | [] => false
  | .readDir q :: reads =>
    if q = s ∧ (os.readDir q).isOk = true then true else listedFirst os s reads
  | .metadata q :: reads =>
    if s <+: q ∧ (fromSymlinkPath os s).isOk = true then false else listedFirst os s reads

theorem perform_readDir_cases :
    (∃ e, readDirUncached os path = .error e ∧ (CacheRead.readDir path).perform os cache = cache) ∨
      ∃ entries, readDirUncached os path = .ok entries ∧
        (CacheRead.readDir path).perform os cache = cache.seedReaddir path entries := by
  have hperform : (CacheRead.readDir path).perform os cache = (readDirWithCache os path cache).2 :=
    rfl
  rw [hperform]
  unfold readDirWithCache
  cases hread : readDirUncached os path with
  | error e => exact .inl ⟨e, rfl, rfl⟩
  | ok entries => exact .inr ⟨entries, rfl, rfl⟩

include hos h in
theorem CacheHonest.perform (read : CacheRead) : CacheHonest os root (read.perform os cache) := by
  cases read with
  | readDir path =>
    rcases perform_readDir_cases with ⟨_, -, heq⟩ | ⟨entries, hread, heq⟩ <;> rw [heq]
    · exact h
    · exact h.seedReaddir hos hread
  | metadata path => exact readCachedFrom_induction (fun q _ _ _ hc => hc.step hos q) h

include hos h in
theorem CacheHonest.cacheAfter (reads : List CacheRead) : CacheHonest os root
    (Bz.Files.cacheAfter os cache reads) := by
  induction reads generalizing cache with
  | nil => exact h
  | cons read reads ih => exact ih (h.perform hos read)

theorem perform_keeps {read : CacheRead} (h : cache.metadata q = some x) :
    (read.perform os cache).metadata q = some x := by
  cases read with
  | readDir path =>
    rcases perform_readDir_cases with ⟨_, -, heq⟩ | ⟨entries, -, heq⟩ <;> rw [heq]
    · exact h
    · exact foldl_seedEntry_keeps (orInsert_keeps h)
  | metadata path => exact readCachedFrom_keeps h

theorem cacheAfter_keeps {reads : List CacheRead} (h : cache.metadata q = some x) :
    (cacheAfter os cache reads).metadata q = some x := by
  induction reads generalizing cache with
  | nil => exact h
  | cons read reads ih => exact ih (perform_keeps h)

theorem readDirUncached_isOk (h : readDirUncached os path = .ok entries) :
    ∃ listed, os.readDir path = .ok listed ∧ ∀ d, d ∈ entries ↔ d ∈ listed := by
  unfold readDirUncached at h
  cases hr : os.readDir path with
  | error e => rw [hr] at h; cases h
  | ok listed =>
    rw [hr] at h
    cases h
    exact ⟨listed, rfl, fun d => mem_insertionSort _⟩

theorem seedReaddir_symlink (hos : os.Shows root)
    (hs : root.get s = some (.symlink target)) (hread : readDirUncached os path = .ok entries)
    (hne : path ≠ s) (hm : cache.metadata s = none) :
    (cache.seedReaddir path entries).metadata s = none := by
  by_contra hsome
  obtain ⟨x, hx⟩ := ne_none_iff_exists'.mp hsome
  rcases seedReaddir_cases hx with hold | ⟨-, rfl | ⟨entry, hmem, htype,
    rfl⟩⟩
  · rw [hm] at hold
    cases hold
  · exact hne rfl
  · obtain ⟨children, hq⟩ := Entry.directory_of_get_snoc hs
    obtain ⟨listed, hl, hiff⟩ := readDirUncached_isOk hread
    obtain ⟨e, he, htype'⟩ := (hos.readDir hq hl entry).mp ((hiff entry).mp hmem)
    rw [hs] at he
    cases he
    rw [htype] at htype'
    cases htype'

include hos h in
/-- Reading the metadata at or below a symlink that is not cached caches the symlink. -/
theorem CacheHonest.metadata_symlink (hs : root.get s = some (.symlink target))
    (hm : cache.metadata s = none) (rest : Path) :
    (readPathMetadataForNoWatchfsCached os (s ++ rest) cache).2.metadata s =
      match fromSymlinkPath os s with
      | .ok m => some (some (m.intoRawPathMetadata s []))
      | .error _ => none := by
  obtain ⟨q, c, last, cache', rfl, hh, hsame, ⟨e, hq, hns⟩, heq⟩ := h.readCached_symlink hos hs rest
  rw [hm] at hsame
  have hexact : exactPathMetadataForNoWatchfsWithCachedType os (q ++ [c]) cache' =
      (fromSymlinkPath os (q ++ [c])).map fun m => some (m.intoRawPathMetadata (q ++ [c]) []) := by
    rw [hh.withCachedType hos hq hns, exactPathMetadataForNoWatchfs, hos.fromExactPath_symlink hs]
    cases fromSymlinkPath os (q ++ [c]) <;> rfl
  rw [heq, Bz.Files.readCachedFrom, exactPathMetadataForNoWatchfsCached, hsame]
  simp only [hexact]
  cases fromSymlinkPath os (q ++ [c]) with
  | error e => exact hsame
  | ok m =>
    cases m <;> exact Function.update_self ..

include hos h in
/-- **A symlink is cached as a directory exactly when it was listed first.** -/
theorem CacheHonest.seeded_iff (hs : root.get s = some (.symlink target))
    (hm : cache.metadata s = none) (reads : List CacheRead) :
    (Bz.Files.cacheAfter os cache reads).metadata s = some (some .directory) ↔
      listedFirst os s reads := by
  induction reads generalizing cache with
  | nil =>
    show cache.metadata s = _ ↔ _
    simp [hm, listedFirst]
  | cons read reads ih =>
    have hnext := h.perform hos read
    show (Bz.Files.cacheAfter os (read.perform os cache) reads).metadata s = _ ↔ _
    cases read with
    | readDir path =>
      rw [listedFirst]
      rcases perform_readDir_cases with ⟨e, hread, heq⟩ | ⟨entries, hread, heq⟩
      · have herr : ¬ (path = s ∧ (os.readDir path).isOk) := by
          rintro ⟨-, hok⟩
          unfold readDirUncached at hread
          cases hr : os.readDir path <;> rw [hr] at hread hok
          · cases hok
          · cases hread
        rw [if_neg herr, heq]
        exact ih h hm
      · obtain ⟨listed, hl, -⟩ := readDirUncached_isOk hread
        by_cases hp : path = s
        · subst hp
          rw [if_pos ⟨rfl, by rw [hl]; rfl⟩, heq]
          simp [cacheAfter_keeps (seedReaddir_self hm)]
        · rw [if_neg fun hc => hp hc.1]
          refine ih hnext ?_
          rw [heq]
          exact seedReaddir_symlink hos hs hread hp hm
    | metadata path =>
      rw [listedFirst]
      by_cases hpre : s <+: path
      · obtain ⟨rest, rfl⟩ := hpre
        have hread := h.metadata_symlink hos hs hm rest
        cases hx : fromSymlinkPath os s with
        | error e =>
          rw [hx] at hread
          rw [if_neg fun hc => by simpa [Except.isOk, Except.toBool] using hc.2]
          exact ih hnext hread
        | ok m =>
          rw [hx] at hread
          rw [if_pos ⟨prefix_append s rest, rfl⟩]
          have hkept : (Bz.Files.cacheAfter os
              (readPathMetadataForNoWatchfsCached os (s ++ rest) cache).2 reads).metadata s =
            some (some (m.intoRawPathMetadata s [])) := cacheAfter_keeps hread
          constructor
          · intro hdir
            have := hkept.symm.trans hdir
            cases m <;> cases this
          · intro hf
            cases hf
      · rw [if_neg fun hc => hpre hc.1]
        exact ih hnext (readCachedFrom_of_not_below hpre hm)

/-- **Exactly when the cache is transparent.** After any reads that share a cache, a cached read
answers what the uncached one does iff no symlink on the path was listed before its metadata was
read. -/
theorem cached_read_iff (os : Os) (root : Entry) (hos : os.Shows root) (reads : List CacheRead)
    (path : Path) :
    (readPathMetadataForNoWatchfsCached os path (cacheAfter os .default reads)).1 =
        readPathMetadataForNoWatchfs os path ↔
      ∀ s target, s <+: path → root.get s = some (.symlink target) →
        listedFirst os s reads = false := by
  have hhonest : CacheHonest os root (cacheAfter os .default reads) :=
    CacheHonest.default.cacheAfter hos reads
  have hseeded : ∀ s target, root.get s = some (.symlink target) →
      ((cacheAfter os .default reads).metadata s = some (some .directory) ↔
        listedFirst os s reads = true) :=
    fun s target hs => CacheHonest.default.seeded_iff hos hs rfl reads
  constructor
  · rintro heq s target ⟨rest, rfl⟩ hs
    by_contra hfirst
    rw [Bool.not_eq_false] at hfirst
    exact hhonest.readCached_ne hos hs ((hseeded s target hs).mpr hfirst) rest heq
  · intro hfirst
    obtain ⟨children, rfl⟩ := hos.isDirectory
    refine hhonest.readCachedFrom_eq hos (l := none) (Entry.get_nil _) (by simp [Entry.stat])
      fun s target hpre hs hm => ?_
    have := (hseeded s target hs).mp hm
    rw [hfirst s target hpre hs] at this
    cases this

/-- A directory with a file, and a symlink to the directory. -/
def linkedTree : Entry :=
  .directory [("dir", .directory [("file", .file ⟨1, 0, 0, 0, 0, 7, false⟩)]),
    ("link", .symlink (.relative [.normal "dir"]))]

def linkedOs : Os := treeOs linkedTree fun _ => .error .notFound

theorem linkedOs_shows : linkedOs.Shows linkedTree := treeOs_shows _ _

/-- The symlink is read, then listed: reading behind it still finds the symlink. -/
theorem cached_read_iff_linked :
    (readPathMetadataForNoWatchfsCached linkedOs ["link", "file"]
        (cacheAfter linkedOs .default [.metadata ["link"], .readDir ["link"]])).1 =
      readPathMetadataForNoWatchfs linkedOs ["link", "file"] := by
  refine (cached_read_iff linkedOs linkedTree linkedOs_shows _ _).mpr fun s target hpre hs => ?_
  have hmem : s ∈ [[], ["link"], ["link", "file"]] := (mem_inits _ _).mpr hpre
  simp only [mem_cons, not_mem_nil, or_false] at hmem
  rcases hmem with rfl | rfl | rfl
  · cases hs
  · rfl
  · cases hs

/-- The symlink is listed, then read: it is answered as a directory. -/
theorem listed_symlink_read_as_directory :
    linkedOs.Shows linkedTree ∧ (linkedOs.readDir ["link"]).isOk = true ∧
      (linkedOs.lstat ["link"]) = .ok (some .symlink) ∧
      (readPathMetadataForNoWatchfsCached linkedOs ["link"]
        (cacheAfter linkedOs .default [.readDir ["link"]])).1 = .ok (some .directory) ∧
      readPathMetadataForNoWatchfs linkedOs ["link"] =
        .ok (some (.symlink ["link"] (.relative ["dir"] [.normal "dir"]))) :=
  ⟨linkedOs_shows, rfl, rfl, rfl, rfl⟩

end Bz.Files
