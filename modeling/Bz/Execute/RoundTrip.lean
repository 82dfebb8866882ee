import Bz.Execute.ReTree

/-!
# Round trips of remote execution trees

What `re_tree_to_directory` makes of `directory_to_re_tree`.  The children of a tree carry no
digests; `dfs_build` finds a child by digesting all of them, so a directory is read back if its
messages and those of the interned directories have no collisions.  An external symlink is sent
without its remaining path, and an empty file is read back with the digest that the preferred
algorithm gives no content.

Principal results: `dfsBuild_ok`, the message of a directory is read back; `message_inj`;
`re_tree_round_trip`.
-/

namespace Bz.Execute

open BuckOut Directory Fallible DirectoryBuilder ReDirectorySerializer FileName List Option

/-! ## Fingerprinted directories -/

/-- A leaf with a wire form. -/
def ReDirectorySerializer.Wire (s : ReDirectorySerializer) : ActionDirectoryMember → Prop
  | .file f => ∃ algo, f.digest.OfConfig s.casDigestConfig algo
  | .sourceFile _ => False
  | .symlink target => target.head? ≠ some '/'
  | .externalSymlink e => e.absTarget.head? = some '/'

/-- Every directory has the fingerprint of its entries. -/
inductive ReDirectorySerializer.Fingerprinted (s : ReDirectorySerializer) :
    ActionDirectoryBuilder → Prop where
  | node {kind : Kind FileDigest} {entries : List (FileName × ActionDirectoryEntry)}
      (fingerprint : ∃ fingerprint, kind.fingerprint = some fingerprint ∧
        s.hashEntries entries = some fingerprint)
      (dir : ∀ k d, (k, .dir d) ∈ entries → s.Fingerprinted d) : s.Fingerprinted
        (.node kind entries)

/-- A fingerprinted directory without proxies of source files, whose external symlinks are absolute
and whose other ones are relative. -/
structure ReDirectorySerializer.ActionDirectory (s : ReDirectorySerializer)
    (d : ActionDirectoryBuilder) : Prop where
  valid : d.Valid
  fingerprinted : s.Fingerprinted d
  wire : ∀ p l, d.tree p = some (.leaf l) → s.Wire l

/-- No external symlink has a remaining path. -/
def NoRemainingPath (d : ActionDirectoryBuilder) : Prop :=
  ∀ p e, d.tree p = some (.leaf (.externalSymlink e)) → e.remainingPath = .empty

/-- The empty files have the digest of the preferred algorithm. -/
def ReDirectorySerializer.EmptyFilesPreferred (s : ReDirectorySerializer)
    (d : ActionDirectoryBuilder) : Prop :=
  ∀ p f, d.tree p = some (.leaf (.file f)) → f.digest.size = 0 →
    FileDigest.fromContent s.hashes [] s.casDigestConfig = some f.digest

/-- What is read back of a leaf. -/
def ReDirectorySerializer.received (s : ReDirectorySerializer) :
    ActionDirectoryMember → ActionDirectoryMember
  | .file f => .file ⟨(f.digest.tracked s.hashes s.casDigestConfig).getD f.digest, f.isExecutable⟩
  | .externalSymlink e => .externalSymlink ⟨e.absTarget, .empty⟩
  | l => l

/-- A message of the directory or of one in it. -/
def IsMessage (d : ActionDirectoryBuilder) (m : ReDirectory) : Prop :=
  ∃ x, (x = d ∨ x ∈ orderedWalkDirs d) ∧ createReDirectory x.entries = some m

/-- Different messages have different digests. -/
def ReDirectorySerializer.CollisionFree (s : ReDirectorySerializer) (M : ReDirectory → Prop) :
    Prop :=
  ∀ m m', M m → M m' → s.digest m = s.digest m' → m = m'

/-! ## Walking -/

variable {k : FileName} {d sub x : ActionDirectoryBuilder} {m : ReDirectory}

theorem mem_walkDirs {entries : List (FileName × ActionDirectoryEntry)}
    {ds : List ActionDirectoryBuilder} :
    (k, ds) ∈ walkDirs entries ↔ ∃ d, (k, .dir d) ∈ entries ∧ ds = d :: orderedWalkDirs d := by
  induction entries with
  | nil => simp [walkDirs]
  | cons e entries ih =>
    obtain ⟨k', d | l⟩ := e
    · rw [walkDirs, mem_cons, ih]
      constructor
      · rintro (heq | ⟨d', hd', rfl⟩)
        · cases heq
          exact ⟨d, mem_cons_self, rfl⟩
        · exact ⟨d', mem_cons_of_mem _ hd', rfl⟩
      · rintro ⟨d', hd', rfl⟩
        rcases mem_cons.mp hd' with heq | hd'
        · cases heq
          exact .inl rfl
        · exact .inr ⟨d', hd', rfl⟩
    · rw [walkDirs, ih]
      simp

theorem mem_orderedWalkDirs :
    x ∈ orderedWalkDirs d ↔ ∃ k sub, (k, .dir sub) ∈ d.entries ∧ (x = sub ∨
      x ∈ orderedWalkDirs sub) := by
  cases d with
  | node kind entries =>
    rw [orderedWalkDirs, mem_flatMap]
    simp only [mem_insertionSort]
    constructor
    · rintro ⟨⟨k, ds⟩, he, hx⟩
      obtain ⟨sub, hsub, rfl⟩ := mem_walkDirs.mp he
      exact ⟨k, sub, hsub, mem_cons.mp hx⟩
    · rintro ⟨k, sub, hsub, hx⟩
      exact ⟨(k, sub :: orderedWalkDirs sub), mem_walkDirs.mpr ⟨sub, hsub, rfl⟩, mem_cons.mpr hx⟩

theorem IsMessage.entry (hk : (k, .dir sub) ∈ d.entries) (h : IsMessage sub m) : IsMessage d m := by
  obtain ⟨x, hx, hm⟩ := h
  exact ⟨x, .inr (mem_orderedWalkDirs.mpr ⟨k, sub, hk, hx⟩), hm⟩

/-! ## Parts of a directory -/

variable {s : ReDirectorySerializer} {l : ActionDirectoryMember} {e : ActionDirectoryEntry}
  {M : ReDirectory → Prop} {remaining : ForwardRelativePath}

namespace ReDirectorySerializer.ActionDirectory

theorem tree_entry (h : d.Valid) (hk : (k, e) ∈ d.entries)
    (p : List FileName) : d.tree (k :: p) = e.tree p := by
  rw [tree_cons, h.get_iff.mpr hk]
  rfl

variable (h : s.ActionDirectory d)
include h

theorem entry (hk : (k, .dir sub) ∈ d.entries) : s.ActionDirectory sub where
  valid := h.valid.entry hk
  fingerprinted := by
    cases h.fingerprinted with
    | node fingerprint dir => exact dir k sub hk
  wire p l hl := h.wire (k :: p) l ((tree_entry h.valid hk p).trans hl)

theorem leaf (hk : (k, .leaf l) ∈ d.entries) : s.Wire l :=
  h.wire [k] l ((tree_entry h.valid hk []).trans rfl)

theorem fingerprint : createReDirectory d.entries = some (message d.entries) ∧
    ∃ fingerprint, d.fingerprint = some fingerprint ∧
      s.digest (message d.entries) = some fingerprint := by
  cases h.fingerprinted with
  | node fingerprint dir =>
    obtain ⟨fp, hkind, hhash⟩ := fingerprint
    obtain ⟨m, hm, hfp⟩ := bind_eq_some_iff.mp hhash
    obtain ⟨-, rfl⟩ := createReDirectory_eq_some.mp hm
    exact ⟨hm, fp, hkind, hfp⟩

theorem isMessage : IsMessage d (message d.entries) :=
  ⟨d, .inl rfl, h.fingerprint.1⟩

theorem walk (hx : x ∈ orderedWalkDirs d) : s.ActionDirectory x := by
  induction d using recurse with
  | h d ih =>
    obtain ⟨k, sub, hsub, rfl | hx⟩ := mem_orderedWalkDirs.mp hx
    · exact h.entry hsub
    · exact ih k sub hsub (h.entry hsub) hx

theorem isMessage_walk (hx : x ∈ orderedWalkDirs d) : IsMessage d (message x.entries) :=
  ⟨x, .inr hx, (h.walk hx).fingerprint.1⟩

end ReDirectorySerializer.ActionDirectory

/-! ## Plain directories -/

/-- The directories that the wire form describes completely. -/
structure ReDirectorySerializer.Plain (s : ReDirectorySerializer) (d : ActionDirectoryBuilder) :
    Prop extends s.ActionDirectory d where
  received : ∀ p l, d.tree p = some (.leaf l) → s.received l = l

namespace ReDirectorySerializer.Plain

theorem entry (h : s.Plain d) (hk : (k, .dir sub) ∈ d.entries) : s.Plain sub where
  toActionDirectory := h.toActionDirectory.entry hk
  received p l hl :=
    h.received (k :: p) l ((ActionDirectory.tree_entry h.valid hk p).trans hl)

theorem leaf_received (h : s.Plain d) (hk : d.get k = some (.leaf l)) : s.received l = l :=
  h.received [k] l ((ActionDirectory.tree_entry h.valid (h.valid.get_iff.mp hk) []).trans rfl)

theorem tree_map (h : s.Plain d) : d.tree.map s.received = d.tree :=
  PathMap.map_eq_self.mpr h.received

end ReDirectorySerializer.Plain

theorem received_file_iff {f : FileMetadata} (hconfig : s.casDigestConfig.Configured) :
    s.received (.file f) = .file f ↔ (f.digest.size = 0 →
      FileDigest.fromContent s.hashes [] s.casDigestConfig = some f.digest) := by
  obtain ⟨digest, isExecutable⟩ := f
  obtain ⟨empty, hempty⟩ := FileDigest.fromContent_isSome s.hashes [] hconfig
  simp only [received, FileDigest.tracked, hempty]
  by_cases hsize : digest.size = 0 <;> simp [hsize]

/-- **A directory comes back as it was** iff its external symlinks have no remaining path and its
empty files are hashed with the preferred algorithm. -/
theorem tree_map_received_iff (hconfig : s.casDigestConfig.Configured) :
    d.tree.map s.received = d.tree ↔ NoRemainingPath d ∧ s.EmptyFilesPreferred d := by
  rw [PathMap.map_eq_self]
  constructor
  · intro h
    refine ⟨fun p e he => ?_, fun p f hf => (received_file_iff hconfig).mp (h p _ hf)⟩
    obtain ⟨absTarget, remainingPath⟩ := e
    exact (ExternalSymlink.mk.inj (ActionDirectoryMember.externalSymlink.inj (h p _ he))).2.symm
  · rintro ⟨hremaining, hempty⟩ p l hl
    cases l with
    | file f => exact (received_file_iff hconfig).mpr (hempty p f hl)
    | sourceFile size | symlink target => rfl
    | externalSymlink e =>
      have hrem := hremaining p e hl
      obtain ⟨absTarget, remainingPath⟩ := e
      subst hrem
      rfl

/-! ## Building a directory -/

/-- An entry and what has been made of it. -/
def SameEntry (s : ReDirectorySerializer)
    (P : ActionDirectoryBuilder → ActionDirectoryBuilder → Prop) :
    ActionDirectoryEntry → ActionDirectoryEntry → Prop
  | .leaf l, e' => e' = .leaf (s.received l)
  | .dir sub, e' => ∃ sub', e' = .dir sub' ∧ P sub sub'

/-- A builder with some of the entries of a directory. -/
structure Partial (s : ReDirectorySerializer)
    (P : ActionDirectoryBuilder → ActionDirectoryBuilder → Prop) (d b : ActionDirectoryBuilder) :
    Prop where
  kind : b.kind = .mutable
  nodup : (b.entries.map Prod.fst).Nodup
  same : ∀ k e', b.get k = some e' → ∃ e, d.get k = some e ∧ SameEntry s P e e'

/-- The builder has an entry of the name. -/
def HasName (name : Text) (b : ActionDirectoryBuilder) : Prop :=
  ∃ k : FileName, k.text = name ∧ b.get k ≠ none

namespace Partial

variable {P : ActionDirectoryBuilder → ActionDirectoryBuilder → Prop} {b : ActionDirectoryBuilder}

theorem empty : Partial s P d .empty where
  kind := rfl
  nodup := nodup_nil
  same _ _ h := nomatch h

theorem setEntry (h : Partial s P d b) {e' : ActionDirectoryEntry}
    (hk : d.get k = some e) (he : SameEntry s P e e') : Partial s P d (b.setEntry k e') where
  kind := rfl
  nodup := nodup_insertEntry h.nodup
  same l e1 hl := by
    rw [get_setEntry] at hl
    split at hl
    · next heq =>
      cases hl
      exact ⟨e, heq ▸ hk, he⟩
    · exact h.same l e1 hl

theorem tree (h : Partial s P d b)
    (hP : ∀ sub sub', P sub sub' → sub'.tree = sub.tree.map s.received)
    (hall : ∀ k, d.get k ≠ none → b.get k ≠ none) : b.tree = d.tree.map s.received := by
  funext p
  cases p with
  | nil =>
    rw [PathMap.map, tree_nil, tree_nil]
    rfl
  | cons k p =>
    rw [PathMap.map, tree_cons, tree_cons]
    cases hb : b.get k with
    | none =>
      have hd : d.get k = none := by
        by_contra hd
        exact hall k hd hb
      rw [hd]
      rfl
    | some e' =>
      obtain ⟨e, hd, hsame⟩ := h.same k e' hb
      rw [hd]
      cases e with
      | leaf l =>
        rw [show e' = .leaf (s.received l) from hsame]
        cases p with
        | nil => rfl
        | cons l p => rfl
      | dir sub =>
        obtain ⟨sub', rfl, hsub⟩ := hsame
        exact congrFun (hP sub sub' hsub) p

end Partial

theorem HasName.setEntry {name : Text} {b : ActionDirectoryBuilder} (h : HasName name b)
    (k : FileName) (e : ActionDirectoryEntry) : HasName name (b.setEntry k e) := by
  obtain ⟨l, hl, hget⟩ := h
  refine ⟨l, hl, ?_⟩
  rw [get_setEntry]
  split
  · exact nofun
  · exact hget

theorem hasName_setEntry (b : ActionDirectoryBuilder) : HasName k.text (b.setEntry k e) :=
  ⟨k, rfl, by rw [get_setEntry, if_pos rfl]; exact nofun⟩

theorem fileName_text (dir : Text) : fileName k.text dir = .ok k := by
  rw [fileName, tryFrom_text]

theorem insertSymlink_ok {n : SymlinkNode} (hn : symlinkNode (k, .leaf l) = some n)
    (hwire : s.Wire l) (dir : Text) (b : ActionDirectoryBuilder) :
    insertSymlink dir b n = .ok (b.setEntry k (.leaf (s.received l))) := by
  have hmember : memberOfSymlinkNode n = s.received l ∧ n.name = k.text := by
    cases l with
    | file f | sourceFile size => cases hn
    | symlink target =>
      cases hn
      exact ⟨if_neg hwire, rfl⟩
    | externalSymlink e =>
      cases hn
      exact ⟨if_pos hwire, rfl⟩
  simp only [insertSymlink, hmember.2, fileName_text, hmember.1]
  rfl

/-! ## Finding a child -/

/-- **A child is found** by its digest. -/
theorem dirMapGet_ok (hconfig : s.casDigestConfig.Configured)
    (hfree : s.CollisionFree M) {children : List ReDirectory} (hchildren : ∀ m ∈ children, M m)
    (hm : m ∈ children) {fingerprint : FileDigest} (hdigest : s.digest m = some fingerprint) :
    s.dirMapGet children s.casDigestConfig.preferredAlgorithm fingerprint = .ok (some m) := by
  have hsome : ∀ m, ∃ d, s.digest m = some d := fun m =>
    FileDigest.fromContent_isSome s.hashes (s.encode m) hconfig
  choose digest hdigests using hsome
  have hmap : children.mapM (fun d => (FileDigest.fromContentForAlgorithm s.hashes (s.encode d)
      s.casDigestConfig.preferredAlgorithm).map fun k => (k, d)) =
      some (children.map fun d => (digest d, d)) := by
    refine Fallible.mapM_eq_some fun d _ => ?_
    rw [show FileDigest.fromContentForAlgorithm s.hashes (s.encode d) _ = _ from hdigests d]
    rfl
  have hfp : digest m = fingerprint := Option.some.inj ((hdigests m).symm.trans hdigest)
  unfold dirMapGet
  simp only [hmap]
  cases hlookup : (children.map fun d => (digest d, d)).reverse.lookup fingerprint with
  | none =>
    rw [lookup_eq_none_iff] at hlookup
    have hne := hlookup (digest m, m) (mem_reverse.mpr (mem_map.mpr ⟨m, hm, rfl⟩))
    simp [hfp] at hne
  | some m' =>
    obtain ⟨m'', hm'', heq⟩ := mem_map.mp (mem_reverse.mp (mem_of_lookup hlookup))
    obtain ⟨hfp'', rfl⟩ := Prod.mk.inj heq
    have : m'' = m := hfree m'' m (hchildren m'' hm'') (hchildren m hm)
      (by rw [hdigests m'', hdigests m, hfp, hfp''])
    rw [this]

/-! ## Reading a message back -/

/-- The interned directories are plain, if what is read is interned. -/
def InternerOk (s : ReDirectorySerializer) (M : ReDirectory → Prop) (fingerprint : Bool)
    (interner : ActionInterner) : Prop :=
  fingerprint = true → ∀ x ∈ interner,
    s.Plain x ∧ x.kind.isShared = true ∧ ∀ m, IsMessage x m → M m

/-- What is read back, and whether it is interned. -/
def Rebuilt (s : ReDirectorySerializer) (M : ReDirectory → Prop) (fingerprint : Bool)
    (d b : ActionDirectoryBuilder) : Prop :=
  b.tree = d.tree.map s.received ∧ (fingerprint = true → s.Plain b ∧ b.kind.isShared = true ∧
    b.fingerprint = d.fingerprint ∧ ∀ m, IsMessage b m → M m)

section Build

variable {children : List ReDirectory} {fingerprint : Bool}

variable {P : ActionDirectoryBuilder → ActionDirectoryBuilder → Prop} {b : ActionDirectoryBuilder}
  {build : ActionInterner → ReDirectory → Text → Except ReConversionError
    (ActionDirectoryBuilder × ActionInterner)}
  {interner : ActionInterner}

theorem files_ok (hconfig : s.casDigestConfig.Configured) (hd : s.ActionDirectory d) (dir : Text)
    (hb : Partial s P d b) :
    ∃ b', (message d.entries).files.foldlM (s.insertFile dir) b = .ok b' ∧ Partial s P d b' ∧
      (∀ n ∈ (message d.entries).files, HasName n.name b') ∧
      ∀ name, HasName name b → HasName name b' := by
  refine foldlM_succeeds (fun n hn b hb => ?_) hb
  obtain ⟨⟨k, e⟩, he, hnode⟩ := mem_filterMap.mp ((mem_insertionSort _).mp hn)
  unfold fileNode at hnode
  split at hnode
  · next k f heq =>
    cases heq
    cases hnode
    obtain ⟨algo, halgo⟩ := hd.leaf he
    refine ⟨b.setEntry k (.leaf (s.received (.file f))), ?_,
      hb.setEntry (hd.valid.get_iff.mpr he) rfl, hasName_setEntry b,
      fun name hname => hname.setEntry k _⟩
    obtain ⟨digest, hdigest⟩ := FileDigest.tracked_isSome s.hashes f.digest hconfig
    have hreceived : s.received (.file f) = .file ⟨digest, f.isExecutable⟩ := by
      rw [received, hdigest]
      rfl
    have hgrpc : FileDigest.fromGrpc f.digest.toGrpc s.casDigestConfig = .ok f.digest := by
      rw [FileDigest.fromGrpc, FileDigest.fromGrpcWithAlgo_toGrpc halgo]
      rfl
    simp only [insertFile, fileName_text, hgrpc, hreceived, Except.mapError, ok_bind, hdigest]
    rfl
  · cases hnode

theorem symlinks_ok (hd : s.ActionDirectory d) (dir : Text) (hb : Partial s P d b) :
    ∃ b', (message d.entries).symlinks.foldlM (insertSymlink dir) b = .ok b' ∧
      Partial s P d b' ∧ (∀ n ∈ (message d.entries).symlinks, HasName n.name b') ∧
      ∀ name, HasName name b → HasName name b' := by
  refine foldlM_succeeds (fun n hn b hb => ?_) hb
  obtain ⟨⟨k, e⟩, he, hnode⟩ := mem_filterMap.mp ((mem_insertionSort _).mp hn)
  cases e with
  | dir sub => cases hnode
  | leaf l =>
    refine ⟨_, insertSymlink_ok hnode (hd.leaf he) dir b, hb.setEntry (hd.valid.get_iff.mpr he) rfl,
      ?_, fun name hname => hname.setEntry k _⟩
    rw [symlinkNode_name hnode]
    exact hasName_setEntry b

/-- A directory node is read back if the directory's message is. -/
theorem insertDirectory_ok (hconfig : s.casDigestConfig.Configured) (hfree : s.CollisionFree M)
    (hchildren : ∀ m ∈ children, M m)
    (hsub : s.ActionDirectory sub) (hmem : message sub.entries ∈ children) {n : DirectoryNode}
    (hn : directoryNode (k, .dir sub) = some n) (dir : Text)
    {st r : ActionDirectoryBuilder × ActionInterner} {name : FileDigest}
    (hname : sub.fingerprint = some name)
    (hbuild : build st.2 (message sub.entries) name.toText = .ok r) :
    s.insertDirectory children build dir st n = .ok (st.1.setEntry k (.dir r.1), r.2) := by
  obtain ⟨-, fp, hfp, hdigest⟩ := hsub.fingerprint
  cases hname.symm.trans hfp
  rw [directoryNode, hfp] at hn
  cases hn
  have hof := FileDigest.OfConfig.fromContent hconfig hdigest
  simp only [insertDirectory, FileDigest.fromGrpcWithAlgo_toGrpc hof, Except.mapError]
  show (s.dirMapGet children _ name >>= _) = _
  rw [dirMapGet_ok hconfig hfree hchildren hmem hdigest]
  show (build st.2 (message sub.entries) _ >>= _) = _
  rw [hbuild]
  rw [fileName_text]
  rfl

theorem directories_ok (hconfig : s.casDigestConfig.Configured) (hfree : s.CollisionFree M)
    (hchildren : ∀ m ∈ children, M m) (hd : s.ActionDirectory d)
    (hmem : ∀ k sub, (k, .dir sub) ∈ d.entries → message sub.entries ∈ children)
    (hbuild : ∀ k sub, (k, .dir sub) ∈ d.entries → ∀ interner name,
      InternerOk s M fingerprint interner →
      ∃ b interner', build interner (message sub.entries) name = .ok (b, interner') ∧
        Rebuilt s M fingerprint sub b ∧ InternerOk s M fingerprint interner')
    (dir : Text) (hb : Partial s (Rebuilt s M fingerprint) d b)
    (hinterner : InternerOk s M fingerprint interner) :
    ∃ st, (message d.entries).directories.foldlM (s.insertDirectory children build dir)
        (b, interner) = .ok st ∧
      (Partial s (Rebuilt s M fingerprint) d st.1 ∧ InternerOk s M fingerprint st.2) ∧
      (∀ n ∈ (message d.entries).directories, HasName n.name st.1) ∧
      ∀ name, HasName name b → HasName name st.1 := by
  refine @foldlM_succeeds _ _ _ _ _
    (fun st => Partial s (Rebuilt s M fingerprint) d st.1 ∧ InternerOk s M fingerprint st.2) _
    DirectoryNode.name
    (fun name st => HasName name st.1) (fun n hn st hst => ?_) (b, interner) ⟨hb, hinterner⟩
  obtain ⟨⟨k, e⟩, he, hnode⟩ := mem_filterMap.mp ((mem_insertionSort _).mp hn)
  cases e with
  | leaf l => cases hnode
  | dir sub =>
    have hsub := hd.entry he
    obtain ⟨-, fp, hfp, -⟩ := hsub.fingerprint
    obtain ⟨b', interner', hr, hrebuilt, hinterner'⟩ := hbuild k sub he st.2 fp.toText hst.2
    refine ⟨_, insertDirectory_ok hconfig hfree hchildren hsub (hmem k sub he) hnode dir hfp hr,
      ⟨hst.1.setEntry (hd.valid.get_iff.mpr he) ⟨b', rfl, hrebuilt⟩, hinterner'⟩, ?_,
      fun name hname => hname.setEntry k _⟩
    rw [directoryNode_name hnode]
    exact hasName_setEntry st.1

theorem hasName_all (hd : s.ActionDirectory d)
    (hfile : ∀ n ∈ (message d.entries).files, HasName n.name b)
    (hsymlink : ∀ n ∈ (message d.entries).symlinks, HasName n.name b)
    (hdir : ∀ n ∈ (message d.entries).directories, HasName n.name b) (k : FileName)
    (hk : d.get k ≠ none) : b.get k ≠ none := by
  obtain ⟨e, he⟩ := ne_none_iff_exists'.mp hk
  have hmem := hd.valid.get_iff.mp he
  have hname : HasName k.text b := by
    cases e with
    | dir sub =>
      obtain ⟨-, fp, hfp, -⟩ := (hd.entry hmem).fingerprint
      have hnode : directoryNode (k, .dir sub) = some ⟨k.text, some fp.toGrpc⟩ := by
        rw [directoryNode, hfp]
        rfl
      exact hdir _ ((mem_insertionSort _).mpr (mem_filterMap.mpr ⟨_, hmem, hnode⟩))
    | leaf l =>
      cases l with
      | file f =>
        exact hfile ⟨k.text, some f.digest.toGrpc, f.isExecutable⟩
          ((mem_insertionSort _).mpr (mem_filterMap.mpr ⟨_, hmem, rfl⟩))
      | sourceFile size => exact (hd.leaf hmem).elim
      | symlink target =>
        exact hsymlink ⟨k.text, target⟩
          ((mem_insertionSort _).mpr (mem_filterMap.mpr ⟨_, hmem, rfl⟩))
      | externalSymlink e =>
        exact hsymlink ⟨k.text, e.absTarget⟩
          ((mem_insertionSort _).mpr (mem_filterMap.mpr ⟨_, hmem, rfl⟩))
  obtain ⟨l, hl, hget⟩ := hname
  rw [ext hl] at hget
  exact hget

/-! ## Fingerprinting what was read -/

theorem mem_filterMap_iff {N : Type} {f : FileName × ActionDirectoryEntry → Option N}
    (hdir : ∀ k sub sub', P sub sub' → f (k, .dir sub') = f (k, .dir sub)) (hd : s.Plain d)
    (hb : Partial s P d b) (hall : ∀ k, d.get k ≠ none → b.get k ≠ none) (n : N) :
    n ∈ b.entries.filterMap f ↔ n ∈ d.entries.filterMap f := by
  have hf (k : FileName) (e e' : ActionDirectoryEntry) (he : d.get k = some e)
      (hsame : SameEntry s P e e') : f (k, e') = f (k, e) := by
    cases e with
    | leaf l => rw [show e' = .leaf (s.received l) from hsame, hd.leaf_received he]
    | dir sub =>
      obtain ⟨sub', rfl, hsub⟩ := hsame
      exact hdir k sub sub' hsub
  rw [mem_filterMap, mem_filterMap]
  constructor
  · rintro ⟨⟨k, e'⟩, he', hn⟩
    obtain ⟨e, he, hsame⟩ := hb.same k e' (lookup_of_mem hb.nodup he')
    exact ⟨(k, e), hd.valid.get_iff.mp he, (hf k e e' he hsame).symm.trans hn⟩
  · rintro ⟨⟨k, e⟩, he, hn⟩
    have hget : d.get k ≠ none := by
      rw [hd.valid.get_iff.mpr he]
      exact nofun
    obtain ⟨e', he'⟩ := ne_none_iff_exists'.mp (hall k hget)
    obtain ⟨e1, he1, hsame⟩ := hb.same k e' he'
    cases (hd.valid.get_iff.mpr he).symm.trans he1
    exact ⟨(k, e'), mem_of_lookup he', (hf k e e' he1 hsame).trans hn⟩

theorem serializable_of_rebuilt (hd : s.Plain d) (hb : Partial s (Rebuilt s M true) d b)
    {e : FileName × ActionDirectoryEntry} (he : e ∈ b.entries) : Serializable e := by
  obtain ⟨k, e'⟩ := e
  obtain ⟨e, hget, hsame⟩ := hb.same k e' (lookup_of_mem hb.nodup he)
  have hmem := hd.valid.get_iff.mp hget
  have hall := (createReDirectory_eq_some.mp hd.fingerprint.1).1 _ hmem
  cases e with
  | leaf l => rwa [show e' = .leaf (s.received l) from hsame, hd.leaf_received hget]
  | dir sub =>
    obtain ⟨sub', rfl, -, hsub⟩ := hsame
    obtain ⟨-, fp, hfp, -⟩ := (hsub rfl).1.fingerprint
    exact ⟨_, by rw [pushEntry, hfp]; rfl⟩

theorem Partial.interned (hb : Partial s (Rebuilt s M true) d b)
    {sub' : ActionDirectoryBuilder} (hk : (k, .dir sub') ∈ b.entries) :
    s.Plain sub' ∧ sub'.kind.isShared ∧ ∀ m, IsMessage sub' m → M m := by
  obtain ⟨e, -, hsame⟩ := hb.same k _ (lookup_of_mem hb.nodup hk)
  cases e with
  | leaf l => cases hsame
  | dir sub =>
    obtain ⟨sub'', heq, -, hrest⟩ := hsame
    cases heq
    exact ⟨(hrest rfl).1, (hrest rfl).2.1, (hrest rfl).2.2.2⟩

theorem createReDirectory_of_rebuilt (hd : s.Plain d) (hb : Partial s (Rebuilt s M true) d b)
    (hall : ∀ k, d.get k ≠ none → b.get k ≠ none) :
    createReDirectory (sorted le b.entries) = some (message d.entries) := by
  have hsorted {N : Type} (f : FileName × ActionDirectoryEntry → Option N) (n : N) :
      n ∈ (sorted le b.entries).filterMap f ↔ n ∈ b.entries.filterMap f := by
    simp only [mem_filterMap, mem_sorted]
  refine createReDirectory_eq_some.mpr
    ⟨fun _ he => serializable_of_rebuilt hd hb (mem_sorted.mp he), Eq.symm ?_⟩
  refine message_congr (nodup_sorted hb.nodup) hd.valid.nodup
    (fun n => (hsorted _ n).trans (mem_filterMap_iff (fun _ _ _ _ => rfl) hd hb hall n))
    (fun n => (hsorted _ n).trans (mem_filterMap_iff (fun k sub sub' hsub => ?_) hd hb hall n))
    (fun n => (hsorted _ n).trans (mem_filterMap_iff (fun _ _ _ _ => rfl) hd hb hall n))
  rw [directoryNode, directoryNode, (hsub.2 rfl).2.2.1]

theorem rebuilt_shared (hd : s.Plain d) (hM : ∀ m, IsMessage d m → M m)
    (hb : Partial s (Rebuilt s M true) d b) (hall : ∀ k, d.get k ≠ none → b.get k ≠ none)
    {fp : FileDigest} (hfp : d.fingerprint = some fp)
    (hhash : s.hashEntries (sorted le b.entries) = some fp) (size : Nat) :
    Rebuilt s M true d (.node (.shared fp size) (sorted le b.entries)) := by
  have htree : (node (.shared fp size) (sorted le b.entries)).tree = d.tree := by
    rw [tree_sorted hb.nodup _ b.kind, ← eq_node, hb.tree (fun _ _ h => h.1) hall, hd.tree_map]
  have hsub (k : FileName) (sub' : ActionDirectoryBuilder)
      (hk : (k, .dir sub') ∈ sorted le b.entries) :=
    hb.interned (mem_sorted.mp hk)
  refine ⟨htree.trans hd.tree_map.symm, fun _ =>
    ⟨⟨⟨?_, ?_, fun p l hl => hd.wire p l (htree ▸ hl)⟩,
      fun p l hl => hd.received p l (htree ▸ hl)⟩, rfl, hfp.symm, ?_⟩⟩
  · refine .node (nodup_sorted hb.nodup) (fun k sub' hk => ?_)
      fun k sub' hk => (hsub k sub' hk).1.valid
    have hshared := (hsub k sub' hk).2.1
    cases hkind : sub'.kind with
    | shared => trivial
    | mutable | exclusive => rw [hkind] at hshared; cases hshared
  · exact .node ⟨fp, rfl, hhash⟩ fun k sub' hk => (hsub k sub' hk).1.fingerprinted
  · rintro m ⟨x, rfl | hx, hm⟩
    · cases (createReDirectory_of_rebuilt hd hb hall).symm.trans hm
      exact hM _ hd.isMessage
    · obtain ⟨k, sub', hk, hx⟩ := mem_orderedWalkDirs.mp hx
      exact (hsub k sub' hk).2.2 m ⟨x, hx, hm⟩

/-- **What was read is interned** as a directory with the same fingerprint and the same tree. -/
theorem finish_ok (hfree : s.CollisionFree M)
    (hinj : ∀ x y, s.Plain x → s.Plain y → (∀ m, IsMessage x m → M m) → (∀ m, IsMessage y m →
      M m) → message x.entries = message y.entries → x.tree = y.tree)
    (hd : s.Plain d) (hM : ∀ m, IsMessage d m → M m) (hb : Partial s (Rebuilt s M true) d b)
    (hall : ∀ k, d.get k ≠ none → b.get k ≠ none) (hinterner : InternerOk s M true interner) :
    ∃ r interner', s.finish true (b, interner) = .ok (r, interner') ∧ Rebuilt s M true d r ∧
      InternerOk s M true interner' := by
  obtain ⟨-, fp, hfp, hdigest⟩ := hd.fingerprint
  have hhash : s.hashEntries (sorted le b.entries) = some fp := by
    rw [hashEntries, createReDirectory_of_rebuilt hd hb hall]
    exact hdigest
  have hshared : ∀ k sub', (k, .dir sub') ∈ sorted le b.entries → sub'.kind.isShared :=
    fun k sub' hk => (hb.interned (mem_sorted.mp hk)).2.1
  have himm : ∀ k sub', (k, .dir sub') ∈ b.entries → sub'.kind.isMutable = false := by
    intro k sub' hk
    have hisShared := (hb.interned hk).2.1
    cases hkind : sub'.kind with
    | shared | exclusive => rfl
    | mutable => rw [hkind] at hisShared; cases hisShared
  obtain ⟨size, hfinish⟩ : ∃ size, s.finish true (b, interner) = .ok (shared
      interner (.node (.exclusive fp size) (sorted le b.entries))) := by
    have heq : .node .mutable b.entries = b := hb.kind ▸ (eq_node b).symm
    have hdir := fingerprintDir_eq himm (show s.digester.hashEntries _ = some fp from hhash)
    rw [heq] at hdir
    exact ⟨dataSize s.digester (sorted le b.entries), by simp [finish, hdir]⟩
  rw [hfinish]
  have hrebuilt := rebuilt_shared hd hM hb hall hfp hhash size
  rcases shared_eq interner hshared fp size with ⟨x, hx, hxfp, heq⟩ | heq
  · -- The directory was interned before: its message has the same digest.
    obtain ⟨hplain, hisShared, hxM⟩ := hinterner rfl x hx
    refine ⟨x, interner, by rw [heq], ⟨?_, fun _ => ⟨hplain, hisShared, hxfp.trans hfp.symm, hxM⟩⟩,
      hinterner⟩
    obtain ⟨-, fp', hfp', hdigest'⟩ := hplain.fingerprint
    cases hxfp.symm.trans hfp'
    rw [hd.tree_map]
    exact hinj x d hplain hd hxM hM (hfree _ _ (hxM _ hplain.isMessage) (hM _ hd.isMessage)
      (hdigest'.trans hdigest.symm))
  · refine ⟨_, _, by rw [heq], hrebuilt, fun _ x hx => ?_⟩
    obtain ⟨hplain, hisShared, -, hmessages⟩ := hrebuilt.2 rfl
    rcases mem_cons.mp hx with rfl | hx
    · exact ⟨hplain, hisShared, hmessages⟩
    · exact hinterner rfl x hx

/-- **The message of a directory is read back**, given enough fuel for its depth. -/
theorem dfsBuild_ok (hconfig : s.casDigestConfig.Configured) (hfree : s.CollisionFree M)
    (hchildren : ∀ m ∈ children, M m)
    (hinj : fingerprint → ∀ x y, s.Plain x → s.Plain y → (∀ m, IsMessage x m → M m) →
      (∀ m, IsMessage y m → M m) → message x.entries = message y.entries → x.tree = y.tree)
    (d : ActionDirectoryBuilder) (hd : s.ActionDirectory d) (hplain : fingerprint → s.Plain d)
    (hM : ∀ m, IsMessage d m → M m)
    (hmem : ∀ sub ∈ orderedWalkDirs d, message sub.entries ∈ children) (fuel : Nat)
    (hfuel : d.depth ≤ fuel) (interner : ActionInterner) (name : Text)
    (hinterner : InternerOk s M fingerprint interner) :
    ∃ b interner', s.dfsBuild children fingerprint fuel interner (message d.entries) name =
      .ok (b, interner') ∧ Rebuilt s M fingerprint d b ∧ InternerOk s M fingerprint interner' := by
  induction d using recurse generalizing fuel interner name with
  | h d ih =>
    obtain ⟨fuel, rfl⟩ : ∃ n, fuel = n + 1 := by
      cases fuel with
      | zero =>
        obtain ⟨kind, entries⟩ := d
        rw [depth] at hfuel
        omega
      | succ n => exact ⟨n, rfl⟩
    have hbuild : ∀ k sub, (k, .dir sub) ∈ d.entries → ∀ interner name,
        InternerOk s M fingerprint interner →
        ∃ b interner', s.dfsBuild children fingerprint fuel interner (message sub.entries) name =
          .ok (b, interner') ∧ Rebuilt s M fingerprint sub b ∧
            InternerOk s M fingerprint interner' := by
      intro k sub hk interner name hinterner
      have hdepth := depth_lt hk
      exact ih k sub hk (hd.entry hk) (fun h => (hplain h).entry hk)
        (fun m hm => hM m (hm.entry hk))
        (fun x hx => hmem x (mem_orderedWalkDirs.mpr ⟨k, sub, hk, .inr hx⟩)) fuel (by omega)
        interner name hinterner
    have hmemSub : ∀ k sub, (k, .dir sub) ∈ d.entries → message sub.entries ∈ children :=
      fun k sub hk => hmem sub (mem_orderedWalkDirs.mpr ⟨k, sub, hk, .inl rfl⟩)
    obtain ⟨b1, h1, hb1, hfiles1, -⟩  :=
      files_ok hconfig hd name (.empty (P := Rebuilt s M fingerprint))
    obtain ⟨b2, h2, hb2, hsymlinks2, hkeep2⟩ := symlinks_ok hd name hb1
    obtain ⟨st, h3, ⟨hb3, hinterner3⟩, hdirs3, hkeep3⟩ :=
      directories_ok hconfig hfree hchildren hd hmemSub hbuild name hb2 hinterner
    have hall : ∀ k, d.get k ≠ none → st.1.get k ≠ none :=
      hasName_all hd (fun n hn => hkeep3 _ (hkeep2 _ (hfiles1 n hn)))
        (fun n hn => hkeep3 _ (hsymlinks2 n hn)) hdirs3
    have hrun : s.dfsBuild children fingerprint (fuel + 1) interner (message d.entries) name =
        s.finish fingerprint st := by
      rw [dfsBuild, h1, ok_bind, h2, ok_bind, h3, ok_bind]
    rw [hrun]
    cases fingerprint with
    | true => exact finish_ok hfree (hinj rfl) (hplain rfl) hM hb3 hall hinterner3
    | false => exact ⟨st.1, st.2, rfl, ⟨hb3.tree (fun _ _ h => h.1) hall, fun h => by cases h⟩,
      hinterner3⟩

end Build

/-- **The message determines the directory.** -/
theorem message_inj (hconfig : s.casDigestConfig.Configured)
    (hfree : s.CollisionFree M) {d' : ActionDirectoryBuilder} (hd : s.Plain d) (hd' : s.Plain d')
    (hM : ∀ m, IsMessage d m → M m) (hM' : ∀ m, IsMessage d' m → M m)
    (h : message d.entries = message d'.entries) : d.tree = d'.tree := by
  -- The message is read back from the children of both, and it is one message.
  have hchildren : ∀ m ∈ (orderedWalkDirs d ++ orderedWalkDirs d').map fun x => message x.entries,
      M m := by
    intro m hm
    obtain ⟨x, hx, rfl⟩ := mem_map.mp hm
    rcases mem_append.mp hx with hx | hx
    · exact hM _ (hd.isMessage_walk hx)
    · exact hM' _ (hd'.isMessage_walk hx)
  obtain ⟨b, _, hb, ⟨htree, -⟩, -⟩ := @dfsBuild_ok s M _ false hconfig hfree hchildren nofun d
    hd.toActionDirectory nofun hM (fun x hx => mem_map.mpr ⟨x, mem_append_left _ hx, rfl⟩)
    (max d.depth d'.depth) (le_max_left _ _) [] [] nofun
  obtain ⟨b', _, hb', ⟨htree', -⟩, -⟩ :=
      @dfsBuild_ok s M _ false hconfig hfree hchildren nofun d' hd'.toActionDirectory nofun
    hM' (fun x hx => mem_map.mpr ⟨x, mem_append_right _ hx, rfl⟩)
    (max d.depth d'.depth) (le_max_right _ _) [] [] nofun
  rw [h, hb'] at hb
  cases hb
  rw [← hd.tree_map, ← hd'.tree_map]
  exact htree.symm.trans htree'

/-- The tree that is sent of a directory. -/
theorem directoryToReTree_eq (hd : s.ActionDirectory d) :
    directoryToReTree d = some ⟨some (message d.entries),
      (orderedWalkDirs d).map fun x => message x.entries⟩ := by
  unfold directoryToReTree
  rw [Fallible.mapM_eq_some fun x hx => (hd.walk hx).fingerprint.1, hd.fingerprint.1]
  rfl

/-- **Remote execution trees round trip.** Read back without fingerprinting, the tree of a directory
denotes the same iff no external symlink has a remaining path and its empty files have the digest of
the preferred algorithm.  If this holds of the interned directories as well, so does a fingerprinted
directory, and equal fingerprints mean equal trees.  The digests of the messages have no collisions.
-/
theorem re_tree_round_trip {algorithms : List DigestAlgorithm} {source : Option DigestAlgorithm}
    (hconfig : CasDigestConfig.new algorithms source = .ok s.casDigestConfig)
    {d d' : ActionDirectoryBuilder} {interner : ActionInterner}
    (hshared : ∀ x ∈ interner, x.kind.isShared = true)
    (hdir : ∀ x ∈ d :: d' :: interner, s.ActionDirectory x)
    (hfree : s.CollisionFree fun m => ∃ x ∈ d :: d' :: interner, IsMessage x m) :
    ∃ tree, directoryToReTree d = some tree ∧
      (∀ fuel, d.depth ≤ fuel →
        ∃ b interner', s.reTreeToDirectory false fuel interner tree = .ok (b, interner') ∧
          (b.tree = d.tree ↔ NoRemainingPath d ∧ s.EmptyFilesPreferred d)) ∧
      ((∀ x ∈ d :: d' :: interner, NoRemainingPath x ∧ s.EmptyFilesPreferred x) →
        (∀ fingerprint fuel, d.depth ≤ fuel →
          ∃ b interner', s.reTreeToDirectory fingerprint fuel interner tree = .ok (b, interner') ∧
            b.tree = d.tree) ∧
        (d.fingerprint = d'.fingerprint → d.tree = d'.tree)) := by
  have hconfigured := (CasDigestConfig.new_spec hconfig).1
  have hM {x : ActionDirectoryBuilder} (hx : x ∈ d :: d' :: interner) (m : ReDirectory)
      (hm : IsMessage x m) : ∃ x ∈ d :: d' :: interner, IsMessage x m := ⟨x, hx, hm⟩
  have hd := hdir d mem_cons_self
  have hchildren : ∀ m ∈ (orderedWalkDirs d).map fun x => message x.entries,
      ∃ x ∈ d :: d' :: interner, IsMessage x m := by
    intro m hm
    obtain ⟨x, hx, rfl⟩ := mem_map.mp hm
    exact hM mem_cons_self _ (hd.isMessage_walk hx)
  have hinj (x y : ActionDirectoryBuilder) (hx : s.Plain x) (hy : s.Plain y)
      (hMx : ∀ m, IsMessage x m → ∃ x ∈ d :: d' :: interner, IsMessage x m)
      (hMy : ∀ m, IsMessage y m → ∃ x ∈ d :: d' :: interner, IsMessage x m)
      (hmessage : message x.entries = message y.entries) : x.tree = y.tree :=
    message_inj hconfigured hfree hx hy hMx hMy hmessage
  have hbuild (fingerprint : Bool) (hplain : fingerprint → s.Plain d) (hinterner) (fuel : Nat)
      (hfuel : d.depth ≤ fuel) :=
    @dfsBuild_ok s _ _ fingerprint hconfigured hfree hchildren (fun _ => hinj) d hd hplain
      (hM mem_cons_self) (fun x hx => mem_map.mpr ⟨x, hx, rfl⟩) fuel hfuel interner
      "root directory".toList hinterner
  refine ⟨_, directoryToReTree_eq hd, fun fuel hfuel => ?_, fun hcond => ?_⟩
  · obtain ⟨b, interner', hb, ⟨htree, -⟩, -⟩ := hbuild false nofun nofun fuel hfuel
    refine ⟨b, interner', hb, ?_⟩
    rw [htree]
    exact tree_map_received_iff hconfigured
  · have hplain : ∀ x ∈ d :: d' :: interner, s.Plain x := fun x hx =>
      ⟨hdir x hx, PathMap.map_eq_self.mp ((tree_map_received_iff hconfigured).mpr (hcond x hx))⟩
    have hd := hplain d mem_cons_self
    have hd' := hplain d' (mem_cons_of_mem _ mem_cons_self)
    constructor
    · intro fingerprint fuel hfuel
      have hinterner : InternerOk s (fun m => ∃ x ∈ d :: d' :: interner, IsMessage x m) fingerprint
          interner := fun _ x hx =>
        have hx' := mem_cons_of_mem _ (mem_cons_of_mem _ hx)
        ⟨hplain x hx', hshared x hx, hM hx'⟩
      obtain ⟨b, interner', hb, ⟨htree, -⟩, -⟩ :=
        hbuild fingerprint (fun _ => hd) hinterner fuel hfuel
      exact ⟨b, interner', hb, htree.trans hd.tree_map⟩
    · intro hfp
      obtain ⟨-, fp, hfpd, hdigest⟩ := hd.fingerprint
      obtain ⟨-, fp', hfpd', hdigest'⟩ := hd'.fingerprint
      have heq : fp = fp' := Option.some.inj (hfpd.symm.trans (hfp.trans hfpd'))
      refine message_inj hconfigured hfree hd hd' (hM mem_cons_self)
        (hM (mem_cons_of_mem _ mem_cons_self)) (hfree _ _ ?_ ?_ ?_)
      · exact hM mem_cons_self _ hd.isMessage
      · exact hM (mem_cons_of_mem _ mem_cons_self) _ hd'.isMessage
      · rw [hdigest, hdigest', heq]

/-! ### An example -/

namespace Example

/-- Hashing forgets everything but the size of what is hashed; the size of a message is the number
of its symlinks. -/
def serializer : ReDirectorySerializer where
  casDigestConfig := ⟨.sha1, some .sha1, none⟩
  hashes := ⟨fun _ => ⟨List.replicate 20 0, rfl⟩, fun _ => ⟨List.replicate 32 0, rfl⟩,
    fun _ => ⟨List.replicate 32 0, rfl⟩, fun _ => ⟨List.replicate 32 0, rfl⟩⟩
  encode m := List.replicate m.symlinks.length 0

def digestOfSize (size : UInt64) : FileDigest := ⟨.sha1 ⟨List.replicate 20 0, rfl⟩, size⟩

def nameD : FileName := ⟨['d'], by decide⟩

def nameF : FileName := ⟨['f'], by decide⟩

def nameL : FileName := ⟨['l'], by decide⟩

/-- A directory with an empty file. -/
def files : ActionDirectoryBuilder :=
  .node (.shared (digestOfSize 0) 0) [(nameF, .leaf (.file ⟨digestOfSize 0, true⟩))]

/-- A directory with a symlink out of the project. -/
def links (remaining : ForwardRelativePath) : ActionDirectoryBuilder :=
  .node (.shared (digestOfSize 1) 0) [(nameD, .dir files),
    (nameL, .leaf (.externalSymlink ⟨"/x".toList, remaining⟩))]

theorem files_action : serializer.ActionDirectory files where
  valid := .node (by decide) (by simp) (by simp)
  fingerprinted := .node ⟨digestOfSize 0, rfl, by decide +kernel⟩ (by simp)
  wire := by
    refine forall_leaf (fun k l hk => ?_) (by simp [files])
    cases mem_singleton.mp hk
    exact ⟨.sha1, rfl, rfl⟩

theorem eq_files_of_mem (remaining : ForwardRelativePath)
    (h : (k, .dir d) ∈ (links remaining).entries) : d = files := by
  simp only [links, entries_node, mem_cons, Prod.mk.injEq,
    DirectoryEntry.dir.injEq, reduceCtorEq, and_false, not_mem_nil, or_false] at h
  exact h.2

theorem eq_link_of_mem
    (h : (k, .leaf l) ∈ (links remaining).entries) :
    l = .externalSymlink ⟨"/x".toList, remaining⟩ := by
  simp only [links, entries_node, mem_cons, Prod.mk.injEq,
    DirectoryEntry.leaf.injEq, reduceCtorEq, and_false, not_mem_nil, or_false, false_or] at h
  exact h.2

theorem links_action (remaining : ForwardRelativePath) :
    serializer.ActionDirectory (links remaining) where
  valid := by
    refine .node (show [nameD, nameL].Nodup by decide) (fun k d hk => ?_) fun k d hk => ?_
    all_goals rw [eq_files_of_mem remaining hk]
    · trivial
    · exact files_action.valid
  fingerprinted := by
    refine .node ⟨digestOfSize 1, rfl, rfl⟩ fun k d hk => ?_
    rw [eq_files_of_mem remaining hk]
    exact files_action.fingerprinted
  wire := by
    refine forall_leaf (fun k l hk => ?_) fun k d hk => ?_
    · rw [eq_link_of_mem hk]
      exact rfl
    · rw [eq_files_of_mem remaining hk]
      exact files_action.wire

theorem configured : serializer.casDigestConfig.Configured :=
  have hnew : CasDigestConfig.new [.sha1] none = .ok serializer.casDigestConfig := rfl
  (CasDigestConfig.new_spec hnew).1

theorem files_received : ∀ p l, files.tree p = some (.leaf l) → serializer.received l = l := by
  refine forall_leaf (fun k l hk => ?_) (by simp [files])
  cases mem_singleton.mp hk
  rfl

theorem links_received :
    ∀ p l, (links .empty).tree p = some (.leaf l) → serializer.received l = l := by
  refine forall_leaf (fun k l hk => ?_) (fun k d hk => ?_)
  · rw [eq_link_of_mem hk]
    rfl
  · rw [eq_files_of_mem .empty hk]
    exact files_received

/-- The messages of the example. -/
def filesMessage : ReDirectory := ⟨[⟨['f'], some (digestOfSize 0).toGrpc, true⟩], [], []⟩

def linksMessage : ReDirectory :=
  ⟨[], [⟨['d'], some (digestOfSize 0).toGrpc⟩], [⟨['l'], "/x".toList⟩]⟩

theorem isMessage_files (h : IsMessage files m) : m = filesMessage := by
  obtain ⟨x, rfl | hx, hm⟩ := h
  · exact (Option.some.inj (show some filesMessage = some m from hm)).symm
  · cases hx

theorem isMessage_links
    (h : IsMessage (links remaining) m) : m = linksMessage ∨ m = filesMessage := by
  obtain ⟨x, rfl | hx, hm⟩ := h
  · exact .inl (Option.some.inj (show some linksMessage = some m from hm)).symm
  · cases mem_singleton.mp (show x ∈ [files] from hx)
    exact .inr (isMessage_files ⟨files, .inl rfl, hm⟩)

theorem collisionFree (h : ∀ m, M m → m = linksMessage ∨ m = filesMessage) :
    serializer.CollisionFree M := by
  have hne : serializer.digest linksMessage ≠ serializer.digest filesMessage := by decide +kernel
  intro m m' hm hm' heq
  rcases h m hm with rfl | rfl <;> rcases h m' hm' with rfl | rfl
  · rfl
  · exact absurd heq hne
  · exact absurd heq.symm hne
  · rfl

end Example

open Example in
/-- The hypotheses of `re_tree_round_trip` hold of a directory with a sub-directory that is interned
already and has an empty file. -/
theorem re_tree_round_trip_links :
    (∃ tree, directoryToReTree (links .empty) = some tree ∧ ∀ fingerprint fuel, 2 ≤ fuel →
      ∃ b interner', serializer.reTreeToDirectory fingerprint fuel [files] tree =
        .ok (b, interner') ∧ b.tree = (links .empty).tree) := by
  have hboth : ∀ x ∈ [links .empty, files, files], x = links .empty ∨ x = files := by simp
  have hreceived : ∀ x ∈ [links .empty, files, files],
      NoRemainingPath x ∧ serializer.EmptyFilesPreferred x := by
    intro x hx
    refine (tree_map_received_iff configured).mp (PathMap.map_eq_self.mpr ?_)
    rcases hboth x hx with rfl | rfl
    · exact links_received
    · exact files_received
  have hdir : ∀ x ∈ [links .empty, files, files], serializer.ActionDirectory x := by
    intro x hx
    rcases hboth x hx with rfl | rfl
    · exact links_action _
    · exact files_action
  have hfree : serializer.CollisionFree fun m => ∃ x ∈ [links .empty, files, files],
      IsMessage x m := by
    refine collisionFree ?_
    rintro m ⟨x, hx, hm⟩
    rcases hboth x hx with rfl | rfl
    · exact isMessage_links hm
    · exact .inr (isMessage_files hm)
  have hshared : ∀ x ∈ [files], x.kind.isShared = true := by
    intro x hx
    cases mem_singleton.mp hx
    rfl
  obtain ⟨tree, htree, -, hround⟩ := @re_tree_round_trip serializer [.sha1] none rfl (links .empty)
    files [files] hshared hdir hfree
  exact ⟨tree, htree, (hround hreceived).1⟩

open Example in
/-- **A remaining path is lost**: a directory with a symlink to `/x` and the remaining path `y` is
read back as one without it, and both have one fingerprint. -/
theorem re_tree_drops_remaining_path :
    CasDigestConfig.new [.sha1] none = .ok serializer.casDigestConfig ∧
    (∀ remaining, serializer.ActionDirectory (links remaining)) ∧
    serializer.CollisionFree (fun m => ∃ remaining, IsMessage (links remaining) m) ∧
    (∃ tree b interner', directoryToReTree (links ⟨[['y']], by decide⟩) = some tree ∧
      serializer.reTreeToDirectory false 2 [] tree = .ok (b, interner') ∧
      b.tree ≠ (links ⟨[['y']], by decide⟩).tree) ∧
    (links ⟨[['y']], by decide⟩).fingerprint = (links .empty).fingerprint ∧
    (links ⟨[['y']], by decide⟩).tree ≠ (links .empty).tree := by
  refine ⟨rfl, links_action, collisionFree ?_, ?_, rfl, ?_⟩
  · rintro m ⟨remaining, hm⟩
    exact isMessage_links hm
  · refine ⟨⟨some linksMessage, [filesMessage]⟩, _, _, rfl, rfl, ?_⟩
    intro h
    have := congrFun h [nameL]
    revert this
    decide +kernel
  · intro h
    have := congrFun h [nameL]
    revert this
    decide +kernel

end Bz.Execute
