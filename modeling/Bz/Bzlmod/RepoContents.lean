import Bz.Machine
import Mathlib.Logic.Function.Basic

/-!
# Generated repositories and their contents cache

`materialize_generated_with_repo_contents_cache` of `bz_external_cells/src/bzlmod.rs`: a generated
repository is a directory at its own path, or a symlink to an entry of the contents cache, with two
files beside it, the stamp and `recorded_inputs.json`.  A run decides what to do and then makes its
changes one after another; the process may stop between any two of them.

A predeclared input hash covers the whole invocation of a rule, so an evaluation is known by it.
Of the candidates, which the value file, the `latest` file and modification times only order, any
current one may be taken.

Principal results: `only_reproducible_shared`, what gets into the cache; `uncacheable_promoted`.
-/

namespace Bz.Bzlmod.RepoContents

open Bz.Machine Function

/-- What `materialize_generated_contents` did: `ownLinks` absolute symlinks lead into the repository
itself, and with `cellLinks` one to another external cell. -/
structure Evaluation (H I : Type) where
  predeclaredInputHash : H
  isLocal : Bool
  cacheable : Bool
  recordedInputs : List I
  ownLinks : Nat
  cellLinks : Bool

/-- The directory of an evaluation, with the links into itself that are still absolute. -/
structure Repo (H I : Type) where
  evaluation : Evaluation H I
  ownLinks : Nat
  complete : Bool

/-- What is at the path of a repository. -/
inductive Root (H I : Type) where
  | absent
  | dir (repo : Repo H I)
  | link (hash : H) (entry : Nat)

/-- A file is torn while it is written. -/
inductive File (A : Type) where
  | missing
  | torn
  | written (content : A)

/-- The content of a stamp is a hash of the setup and of the predeclared input hash.  A name of a
cache entry is never used twice. -/
structure Disk (P S H I : Type) where
  root : P → Root H I
  stamp : P → File (S × H)
  recordedInputs : P → File (List I)
  cache : H → Nat → Option (Repo H I)
  cacheRecordedInputs : H → Nat → File (List I)
  entries : Nat
  remote : H → Option (Repo H I × List I)

/-- A change on disk. -/
inductive Op (P S H I : Type) where
  | setRoot (p : P) (root : Root H I)
  | setStamp (p : P) (stamp : File (S × H))
  | setRecordedInputs (p : P) (inputs : File (List I))
  | moveToCache (p : P) (hash : H) (entry : Nat)
  | setCacheRecordedInputs (hash : H) (entry : Nat) (inputs : File (List I))
  | download (hash : H) (entry : Nat) (repo : Repo H I)
  | upload (hash : H) (entry : Nat)

/-- A repository to be materialized. -/
structure Request (P S H : Type) where
  path : P
  setup : S
  hash : H
  isLocal : Bool

/-- The recorded inputs that are current, and the repositories whose links out of them resolve. -/
structure Env (H I : Type) where
  isCurrent : I → Bool
  targetsExist : Repo H I → Bool

/-- Which way a run goes. -/
inductive Choice (H I : Type) where
  | current
  | candidate (entry : Nat)
  | fetch
  | fail
  | evaluate (evaluation : Evaluation H I)

/-- The steps of the system. -/
inductive Label (P S H I : Type) where
  | start (request : Request P S H) (env : Env H I) (choice : Choice H I)
  | advance
  | stop
  | share (hash : H) (repo : Repo H I)

/-- The disk, and the changes still to be made. -/
structure State (P S H I : Type) where
  disk : Disk P S H I
  pending : List (Op P S H I)

variable {P S H I : Type}

def Request.stamp (r : Request P S H) : S × H := (r.setup, r.hash)

/-! ## The changes of a run -/

def writeStamp (p : P) (stamp : S × H) : List (Op P S H I) :=
  [.setStamp p .torn, .setStamp p (.written stamp)]

def writeRecordedInputs (p : P) (inputs : List I) : List (Op P S H I) :=
  [.setRecordedInputs p .torn, .setRecordedInputs p (.written inputs)]

def writeCacheRecordedInputs (hash : H) (entry : Nat) (inputs : List I) : List (Op P S H I) :=
  [.setCacheRecordedInputs hash entry .torn, .setCacheRecordedInputs hash entry (.written inputs)]

/-- `remove_all`: a directory goes file by file. -/
def removeAll (p : P) : Root H I → List (Op P S H I)
  | .dir repo => [.setRoot p (.dir { repo with complete := false }), .setRoot p .absent]
  | _ => [.setRoot p .absent]

/-- `replant_bzlmod_generated_repo_symlinks`: each link is removed and made again. -/
def replantRepoSymlinks (p : P) (repo : Repo H I) : Nat → List (Op P S H I)
  | 0 => []
  | n + 1 =>
    .setRoot p (.dir { repo with ownLinks := n, complete := false }) ::
      .setRoot p (.dir { repo with ownLinks := n }) :: replantRepoSymlinks p repo n

/-- `prepare_bzlmod_external_cell_root_with_stamp`, when the root is not current. -/
def prepareRootWithStamp (p : P) (root : Root H I) (entry : Nat) (stamp : S × H) :
    List (Op P S H I) :=
  .setStamp p .missing :: removeAll p root ++ .setRoot p (.link stamp.2 entry) :: writeStamp p stamp

/-- `promote_current_bzlmod_generated_repo_to_cache` of a directory. -/
def promoteCurrentRepoToCache (p : P) (stamp : S × H) (repo : Repo H I) (inputs : List I)
    (entry : Nat) : List (Op P S H I) :=
  replantRepoSymlinks p repo repo.ownLinks ++
    if repo.evaluation.cellLinks then writeStamp p stamp
    else
      .moveToCache p stamp.2 entry :: (writeCacheRecordedInputs stamp.2 entry inputs ++
        (prepareRootWithStamp p .absent entry stamp ++ writeRecordedInputs p inputs))

/-- The critical section, after an evaluation that succeeds. -/
def reevaluate (p : P) (stamp : S × H) (root : Root H I) (e : Evaluation H I) (entry : Nat) :
    List (Op P S H I) :=
  .setStamp p .missing :: (removeAll p root ++ (.setRoot p (.dir ⟨e, e.ownLinks, true⟩) ::
    (writeRecordedInputs p e.recordedInputs ++
      if e.cacheable && !e.isLocal then
        promoteCurrentRepoToCache p stamp ⟨e, e.ownLinks, true⟩ e.recordedInputs entry ++
          if e.cellLinks then [] else [.upload stamp.2 entry]
      else writeStamp p stamp)))

/-! ## Runs -/

def Root.contents (cache : H → Nat → Option (Repo H I)) : Root H I → Option (Repo H I)
  | .absent => none
  | .dir repo => some repo
  | .link hash entry => cache hash entry

variable [DecidableEq H]

section Runs

variable [DecidableEq S] (d : Disk P S H I)

/-- `bzlmod_generated_materialization_is_current_with_stamp_content`. -/
def materializationIsCurrent (env : Env H I) (p : P) (stamp : S × H) : Bool :=
  match (d.root p).contents d.cache, d.stamp p, d.recordedInputs p with
  | some repo, .written content, .written inputs =>
    content == stamp && inputs.all env.isCurrent && env.targetsExist repo
  | _, _, _ => false

/-- An entry of the cache that may be taken. -/
def isCandidate (env : Env H I) (hash : H) (entry : Nat) : Bool :=
  match d.cache hash entry, d.cacheRecordedInputs hash entry with
  | some repo, .written inputs => env.targetsExist repo && inputs.all env.isCurrent
  | _, _ => false

/-- `bzlmod_external_cell_root_is_current_with_stamp` of an entry that exists. -/
def rootIsCurrent (p : P) (entry : Nat) (stamp : S × H) : Bool :=
  match d.root p, d.stamp p with
  | .link hash entry', .written content => hash == stamp.2 && entry' == entry && content == stamp
  | _, _ => false

/-- No entry of the cache is used. -/
def misses (env : Env H I) (r : Request P S H) : Bool :=
  !materializationIsCurrent d env r.path r.stamp &&
    (r.isLocal || (List.range d.entries).all fun n => !isCandidate d env r.hash n)

/-- When `materialize_generated_with_repo_contents_cache` goes a way.  What follows a fetch is a run
of its own here. -/
def takes (env : Env H I) (r : Request P S H) : Choice H I → Bool
  | .current => materializationIsCurrent d env r.path r.stamp
  | .candidate entry =>
    !materializationIsCurrent d env r.path r.stamp && !r.isLocal && isCandidate d env r.hash entry
  | .fetch => misses d env r && !r.isLocal && match d.remote r.hash with
    | some (_, inputs) => inputs.all env.isCurrent
    | none => false
  | .fail => misses d env r
  | .evaluate e => misses d env r && e.predeclaredInputHash == r.hash && e.isLocal == r.isLocal

/-- What it changes then. -/
def changes (r : Request P S H) : Choice H I → List (Op P S H I)
  | .current =>
    match r.isLocal, d.root r.path, d.recordedInputs r.path with
    | false, .dir repo, .written inputs =>
      promoteCurrentRepoToCache r.path r.stamp repo inputs d.entries
    | _, _, _ => []
  | .candidate entry =>
    match d.cacheRecordedInputs r.hash entry with
    | .written inputs =>
      (if rootIsCurrent d r.path entry r.stamp then []
        else prepareRootWithStamp r.path (d.root r.path) entry r.stamp) ++
        writeRecordedInputs r.path inputs
    | _ => []
  | .fetch =>
    match d.remote r.hash with
    | some (repo, inputs) =>
      .download r.hash d.entries repo :: writeCacheRecordedInputs r.hash d.entries inputs
    | none => []
  | .fail => [.setStamp r.path .missing]
  | .evaluate e => reevaluate r.path r.stamp (d.root r.path) e d.entries

end Runs

def Disk.enter (d : Disk P S H I) (hash : H) (entry : Nat) (repo : Repo H I) : Disk P S H I :=
  { d with cache := update d.cache hash (update (d.cache hash) entry repo), entries := entry + 1 }

def Disk.share (d : Disk P S H I) (hash : H) (repo : Repo H I) (inputs : List I) : Disk P S H I :=
  { d with remote := update d.remote hash (some (repo, inputs)) }

variable [DecidableEq P]

def Op.exec (d : Disk P S H I) : Op P S H I → Disk P S H I
  | .setRoot p root => { d with root := update d.root p root }
  | .setStamp p stamp => { d with stamp := update d.stamp p stamp }
  | .setRecordedInputs p inputs => { d with recordedInputs := update d.recordedInputs p inputs }
  | .moveToCache p hash entry =>
    match d.root p with
    | .dir repo => { d.enter hash entry repo with root := update d.root p .absent }
    | _ => d
  | .setCacheRecordedInputs hash entry inputs =>
    { d with cacheRecordedInputs :=
        update d.cacheRecordedInputs hash (update (d.cacheRecordedInputs hash) entry inputs) }
  | .download hash entry repo => d.enter hash entry repo
  | .upload hash entry =>
    match d.cache hash entry, d.cacheRecordedInputs hash entry with
    | some repo, .written inputs => d.share hash repo inputs
    | _, _ => d

variable [DecidableEq S] in
/-- Other hosts share complete results through the remote cache; it is enough to let them do so
between runs. -/
def step (s : State P S H I) : Label P S H I → Option (State P S H I)
  | .start r env choice =>
    if s.pending.isEmpty && takes s.disk env r choice then some ⟨s.disk, changes s.disk r choice⟩
    else none
  | .advance =>
    match s.pending with
    | [] => none
    | op :: ops => some ⟨op.exec s.disk, ops⟩
  | .stop => some ⟨s.disk, []⟩
  | .share hash repo =>
    if s.pending.isEmpty && repo.complete && repo.evaluation.cacheable &&
        !repo.evaluation.isLocal && repo.evaluation.predeclaredInputHash == hash then
      some ⟨s.disk.share hash repo repo.evaluation.recordedInputs, []⟩
    else none

def State.initial : State P S H I :=
  ⟨⟨fun _ => .absent, fun _ => .missing, fun _ => .missing, fun _ _ => none,
    fun _ _ => .missing, 0, fun _ => none⟩, []⟩

/-! ## What holds at every point of a run -/

/-- `C` holds of the disk and of what is still to be done, now and after each change. -/
def Throughout (C : Disk P S H I → List (Op P S H I) → Prop) :
    Disk P S H I → List (Op P S H I) → Prop
  | d, [] => C d []
  | d, op :: ops => C d (op :: ops) ∧ Throughout C (op.exec d) ops

variable {C : Disk P S H I → List (Op P S H I) → Prop} {d : Disk P S H I} {p : P}
  {repo : Repo H I} {inputs : List I} {stamp : S × H} {op : Op P S H I}
  {ops rest : List (Op P S H I)} {s : State P S H I} {Q : State P S H I → Label P S H I → Prop}

theorem Throughout.now (h : Throughout C d ops) : C d ops := by
  cases ops with
  | nil => exact h
  | cons op ops => exact h.1

/-- It suffices to look at the starts of runs, at the stops, and at what other hosts do. -/
theorem Throughout.reach [DecidableEq S] (hs : Reach step Q State.initial s)
    (hinit : C State.initial.disk [])
    (hstart : ∀ d r env choice, Q ⟨d, []⟩ (.start r env choice) → C d [] →
      takes d env r choice → Throughout C d (changes d r choice))
    (hstop : ∀ d ops, Q ⟨d, ops⟩ .stop → C d ops → C d [])
    (hshare : ∀ d (repo : Repo H I), repo.complete → repo.evaluation.cacheable →
      repo.evaluation.isLocal = false → C d [] →
      C (d.share repo.evaluation.predeclaredInputHash repo repo.evaluation.recordedInputs) []) :
    Throughout C s.disk s.pending := by
  have h0 : Throughout C (State.initial (P := P) (S := S)).disk State.initial.pending := hinit
  refine Reach.invariant (I := fun s => Throughout C s.disk s.pending) ?_ hs h0
  rintro ⟨d, pending⟩ l s' hd hQ hstep
  cases l with
  | start r env choice =>
    simp only [step] at hstep
    split at hstep
    · next htakes =>
      cases hstep
      rw [Bool.and_eq_true, List.isEmpty_iff] at htakes
      obtain ⟨rfl, htakes⟩ := htakes
      exact hstart d r env choice hQ hd htakes
    · cases hstep
  | advance =>
    cases pending with
    | nil => cases hstep
    | cons op ops =>
      cases hstep
      exact hd.2
  | stop =>
    cases hstep
    exact hstop d pending hQ hd.now
  | share hash repo =>
    simp only [step] at hstep
    split at hstep
    · next hrepo =>
      cases hstep
      simp only [Bool.and_eq_true, Bool.not_eq_true', beq_iff_eq, List.isEmpty_iff] at hrepo
      obtain ⟨⟨⟨⟨rfl, hcomplete⟩, hcacheable⟩, hlocal⟩, rfl⟩ := hrepo
      exact hshare d repo hcomplete hcacheable hlocal hd
    · cases hstep

/-! ## What is shared -/

/-- The rule reported itself reproducible and is not local. -/
def Repo.Sharable (repo : Repo H I) : Prop :=
  repo.evaluation.cacheable = true ∧ repo.evaluation.isLocal = false

/-- Everything in the two caches may be there. -/
structure Shared (d : Disk P S H I) : Prop where
  cache : ∀ hash entry repo, d.cache hash entry = some repo → repo.Sharable
  remote : ∀ hash repo inputs, d.remote hash = some (repo, inputs) → repo.Sharable

/-- Whether a rule is local is known from the predeclared input hash, and one that is not reports
itself reproducible or leaves a link to another external cell. -/
def Reproducible (isLocal : H → Bool) (_ : State P S H I) : Label P S H I → Prop
  | .start r _ choice => r.isLocal = isLocal r.hash ∧ match choice with
    | .evaluate e => e.isLocal = false → e.cacheable = true ∨ e.cellLinks = true
    | _ => True
  | _ => True

/-- The directory is one that may be left at a path. -/
def Repo.Made (isLocal : H → Bool) (repo : Repo H I) : Prop :=
  repo.evaluation.isLocal = isLocal repo.evaluation.predeclaredInputHash ∧
    (repo.evaluation.isLocal = false →
      repo.evaluation.cacheable = true ∨ repo.evaluation.cellLinks = true)

/-- The stamp is not written, or it has the hash. -/
def StampedWith (stamp : File (S × H)) (hash : H) : Prop :=
  ∀ content, stamp = .written content → content.2 = hash

/-- The caches have what may be there, and the stamp of a directory has its hash. -/
structure Kept (isLocal : H → Bool) (d : Disk P S H I) : Prop extends Shared d where
  made : ∀ p repo, d.root p = .dir repo → repo.Made isLocal
  stamped : ∀ p repo, d.root p = .dir repo →
    StampedWith (d.stamp p) repo.evaluation.predeclaredInputHash

omit [DecidableEq P] in
theorem Shared.enter (h : Shared d) (hash : H) (entry : Nat) (hrepo : repo.Sharable) :
    Shared (d.enter hash entry repo) := by
  refine ⟨fun hash' entry' repo' hget => ?_, h.remote⟩
  simp only [Disk.enter, update_apply] at hget
  grind [Shared]

omit [DecidableEq P] in
theorem Shared.share (h : Shared d) (hash : H) (hrepo : repo.Sharable) :
    Shared (d.share hash repo inputs) := by
  refine ⟨h.cache, fun hash' repo' inputs' hget => ?_⟩
  simp only [Disk.share, update_apply] at hget
  grind [Shared]

variable {isLocal : H → Bool}

/-- The next change may be made. -/
def Op.Allowed (isLocal : H → Bool) (d : Disk P S H I) : Op P S H I → Prop
  | .setRoot p (.dir repo) => repo.Made isLocal ∧
      StampedWith (d.stamp p) repo.evaluation.predeclaredInputHash
  | .setStamp p stamp => ∀ repo, d.root p = .dir repo →
      StampedWith stamp repo.evaluation.predeclaredInputHash
  | .moveToCache p _ _ => ∀ repo, d.root p = .dir repo → repo.Sharable
  | .download _ _ repo => repo.Sharable
  | _ => True

/-- So may all that are still to be made. -/
def Armed (isLocal : H → Bool) : Disk P S H I → List (Op P S H I) → Prop
  | _, [] => True
  | d, op :: ops => op.Allowed isLocal d ∧ Armed isLocal (op.exec d) ops

omit [DecidableEq H] in
theorem Kept.setRoot {root : Root H I} (h : Kept isLocal d)
    (hroot : ∀ repo, root = .dir repo → repo.Made isLocal ∧
      StampedWith (d.stamp p) repo.evaluation.predeclaredInputHash) :
    Kept isLocal { d with root := update d.root p root } := by
  have hcases (p' : P) (repo) (hrepo : update d.root p root p' = .dir repo) :
      repo.Made isLocal ∧ StampedWith (d.stamp p') repo.evaluation.predeclaredInputHash := by
    by_cases hp : p' = p
    · subst hp
      exact hroot repo (by rwa [update_self] at hrepo)
    · rw [update_of_ne hp] at hrepo
      exact ⟨h.made p' repo hrepo, h.stamped p' repo hrepo⟩
  exact ⟨⟨h.cache, h.remote⟩, fun p' repo hrepo => (hcases p' repo hrepo).1,
    fun p' repo hrepo => (hcases p' repo hrepo).2⟩

theorem Kept.exec (h : Kept isLocal d) (hop : op.Allowed isLocal d) :
    Kept isLocal (op.exec d) := by
  cases op with
  | setRecordedInputs | setCacheRecordedInputs =>
    exact ⟨⟨h.cache, h.remote⟩, h.made, h.stamped⟩
  | setRoot p root =>
    refine h.setRoot fun repo hroot => ?_
    subst hroot
    exact hop
  | setStamp p stamp =>
    refine ⟨⟨h.cache, h.remote⟩, h.made, fun p' repo hroot => ?_⟩
    by_cases hp : p' = p
    · subst hp
      simpa [Op.exec] using hop repo hroot
    · simpa [Op.exec, hp] using h.stamped p' repo hroot
  | moveToCache p hash entry =>
    simp only [Op.exec]
    split
    · next repo hroot =>
      have henter := h.enter hash entry (hop repo hroot)
      have hkept : Kept isLocal { d with root := update d.root p .absent } :=
        h.setRoot fun _ h => by cases h
      exact ⟨⟨henter.cache, henter.remote⟩, hkept.made, hkept.stamped⟩
    · exact h
  | download hash entry repo =>
    have henter := h.enter hash entry hop
    exact ⟨⟨henter.cache, henter.remote⟩, h.made, h.stamped⟩
  | upload hash entry =>
    simp only [Op.exec]
    split
    · next repo inputs hcache _ =>
      have hshare : Shared (d.share hash repo inputs) := h.share hash (h.cache _ _ _ hcache)
      exact ⟨⟨hshare.cache, hshare.remote⟩, h.made, h.stamped⟩
    · exact h

theorem Kept.throughout (h : Kept isLocal d) (hops : Armed isLocal d ops) :
    Throughout (fun d _ => Kept isLocal d) d ops := by
  induction ops generalizing d with
  | nil => exact h
  | cons op ops ih => exact ⟨h, ih (h.exec hops.1) hops.2⟩

omit [DecidableEq H] in
theorem stampedWith_missing (hash : H) : StampedWith (.missing : File (S × H)) hash :=
  fun _ h => by cases h

omit [DecidableEq H] in
theorem stampedWith_torn (hash : H) : StampedWith (.torn : File (S × H)) hash :=
  fun _ h => by cases h

/-- The stamp is written beside the directory of its hash. -/
theorem armed_writeStamp
    (hroot : ∀ repo, d.root p = .dir repo → repo.evaluation.predeclaredInputHash = stamp.2)
    (hrest : ∀ d', Armed isLocal d' rest) : Armed isLocal d (writeStamp p stamp ++ rest) := by
  refine ⟨fun repo _ => stampedWith_torn _, fun repo hrepo content hcontent => ?_, hrest _⟩
  cases hcontent
  exact (hroot repo hrepo).symm

/-- What is at a path is removed after its stamp. -/
theorem armed_removeAll {root : Root H I} (hmade : ∀ repo, root = .dir repo → repo.Made isLocal)
    (hrest : ∀ d' : Disk P S H I, d'.stamp p = .missing → d'.root p = .absent →
      Armed isLocal d' rest) :
    Armed isLocal d (.setStamp p .missing :: (removeAll p root ++ rest)) := by
  refine ⟨fun repo _ => stampedWith_missing _, ?_⟩
  have hstamp : (Op.exec d (.setStamp p .missing)).stamp p = .missing := update_self ..
  cases root with
  | dir repo =>
    refine ⟨⟨hmade repo rfl, ?_⟩, trivial, hrest _ hstamp (update_self ..)⟩
    rw [hstamp]
    exact stampedWith_missing _
  | absent | link => exact ⟨trivial, hrest _ hstamp (update_self ..)⟩

theorem armed_prepareRoot {root : Root H I} {entry : Nat}
    (hmade : ∀ repo, root = .dir repo → repo.Made isLocal)
    (hrest : ∀ d', Armed isLocal d' rest) :
    Armed isLocal d (prepareRootWithStamp p root entry stamp ++ rest) := by
  have heq : prepareRootWithStamp p root entry stamp ++ rest = .setStamp p .missing ::
      (removeAll p root ++ (.setRoot p (.link stamp.2 entry) :: (writeStamp p stamp ++ rest))) := by
    simp [prepareRootWithStamp]
  rw [heq]
  refine armed_removeAll hmade fun d' _ _ =>
    ⟨trivial, armed_writeStamp (fun repo hrepo => ?_) hrest⟩
  cases (update_self p _ d'.root).symm.trans hrepo

theorem armed_replant {repo' : Repo H I} (n : Nat) (hmade : repo.Made isLocal)
    (hroot : d.root p = .dir repo') (he : repo'.evaluation = repo.evaluation)
    (hstamp : StampedWith (d.stamp p) repo.evaluation.predeclaredInputHash)
    (hrest : ∀ d' repo', d'.root p = .dir repo' → repo'.evaluation = repo.evaluation →
      Armed isLocal d' rest) :
    Armed isLocal d (replantRepoSymlinks p repo n ++ rest) := by
  induction n generalizing d repo' with
  | zero => exact hrest d repo' hroot he
  | succ n ih => exact ⟨⟨hmade, hstamp⟩, ⟨hmade, hstamp⟩, ih (update_self ..) rfl hstamp⟩

theorem armed_promote {entry : Nat} (hmade : repo.Made isLocal) (hroot : d.root p = .dir repo)
    (hstamp : StampedWith (d.stamp p) repo.evaluation.predeclaredInputHash)
    (hhash : repo.evaluation.predeclaredInputHash = stamp.2)
    (hlocal : repo.evaluation.isLocal = false) (hrest : ∀ d', Armed isLocal d' rest) :
    Armed isLocal d (promoteCurrentRepoToCache p stamp repo inputs entry ++ rest) := by
  unfold promoteCurrentRepoToCache
  rw [List.append_assoc]
  refine armed_replant _ hmade hroot rfl hstamp fun d' repo' hroot' he => ?_
  cases hcell : repo.evaluation.cellLinks with
  | true =>
    refine armed_writeStamp (fun repo'' hroot'' => ?_) hrest
    cases hroot'.symm.trans hroot''
    rw [he, hhash]
  | false =>
    refine ⟨fun repo'' hroot'' => ?_, trivial, trivial, ?_⟩
    · cases hroot'.symm.trans hroot''
      rw [Repo.Sharable, he]
      exact ⟨(hmade.2 hlocal).resolve_right (by simp [hcell]), hlocal⟩
    · change Armed isLocal _ ((prepareRootWithStamp p .absent entry stamp ++
        writeRecordedInputs p inputs) ++ rest)
      rw [List.append_assoc]
      exact armed_prepareRoot (fun _ h => by cases h) fun d'' => ⟨trivial, trivial, hrest _⟩

theorem armed_reevaluate {root : Root H I} {e : Evaluation H I} {entry : Nat}
    (hmade : ∀ repo, root = .dir repo → repo.Made isLocal)
    (he : Repo.Made isLocal ⟨e, e.ownLinks, true⟩) (hhash : e.predeclaredInputHash = stamp.2) :
    Armed isLocal d (reevaluate p stamp root e entry) := by
  refine armed_removeAll hmade fun d' hstamp _ => ?_
  have hmissing : StampedWith (d'.stamp p) e.predeclaredInputHash := by
    rw [hstamp]
    exact stampedWith_missing _
  refine ⟨⟨he, hmissing⟩, trivial, trivial, ?_⟩
  split
  · next hcacheable =>
    simp only [Bool.and_eq_true, Bool.not_eq_true'] at hcacheable
    refine armed_promote he (update_self ..) hmissing hhash hcacheable.2 fun d'' => ?_
    split
    · trivial
    · exact ⟨trivial, trivial⟩
  · rw [← List.append_nil (writeStamp ..)]
    refine armed_writeStamp (fun repo hrepo => ?_) fun _ => trivial
    cases (update_self p _ d'.root).symm.trans hrepo
    exact hhash

theorem armed_changes [DecidableEq S] {env : Env H I} {r : Request P S H} {choice : Choice H I}
    (h : Kept isLocal d) (hstart : Reproducible isLocal ⟨d, []⟩ (.start r env choice))
    (htakes : takes d env r choice) : Armed isLocal d (changes d r choice) := by
  cases choice with
  | current =>
    simp only [changes]
    split
    · next repo inputs hlocal hroot hinputs =>
      -- the stamp is the one of the request, so the directory has its hash
      have hhash : repo.evaluation.predeclaredInputHash = r.stamp.2 := by
        simp only [takes, materializationIsCurrent, hroot, hinputs, Root.contents] at htakes
        split at htakes
        · next content _ _ hcontent heq =>
          simp only [Bool.and_eq_true, beq_iff_eq] at htakes
          rw [← htakes.1.1]
          exact (h.stamped _ _ hroot _ hcontent).symm
        · cases htakes
      have hmade := h.made _ _ hroot
      have hlocal' : repo.evaluation.isLocal = false := by
        rw [hmade.1, hhash, ← hlocal]
        exact hstart.1.symm
      rw [← List.append_nil (promoteCurrentRepoToCache ..)]
      exact armed_promote hmade hroot (h.stamped _ _ hroot) hhash hlocal' fun _ => trivial
    · trivial
  | candidate entry =>
    simp only [changes]
    split
    · split
      · exact ⟨trivial, trivial, trivial⟩
      · exact armed_prepareRoot (h.made _) fun d' => ⟨trivial, trivial, trivial⟩
    · trivial
  | fetch =>
    simp only [changes]
    split
    · next hremote => exact ⟨h.remote _ _ _ hremote, trivial, trivial, trivial⟩
    · trivial
  | fail => exact ⟨fun repo _ => stampedWith_missing _, trivial⟩
  | evaluate e =>
    simp only [takes, Bool.and_eq_true, beq_iff_eq] at htakes
    obtain ⟨⟨-, hhash⟩, hlocal⟩ := htakes
    refine armed_reevaluate (h.made _) ⟨?_, hstart.2⟩ hhash
    rw [hlocal, hhash]
    exact hstart.1

/-- **Only reproducible repositories are shared**, in every run in which the rules that are not
local report themselves reproducible. -/
theorem only_reproducible_shared [DecidableEq S] (isLocal : H → Bool)
    (hs : Reach step (Reproducible isLocal) State.initial s) :
    (∀ hash entry repo, s.disk.cache hash entry = some repo →
      repo.evaluation.cacheable = true ∧ repo.evaluation.isLocal = false) ∧
    (∀ p hash entry repo, s.disk.root p = .link hash entry →
      (s.disk.root p).contents s.disk.cache = some repo →
      repo.evaluation.cacheable = true ∧ repo.evaluation.isLocal = false) ∧
    ∀ hash repo inputs, s.disk.remote hash = some (repo, inputs) →
      repo.evaluation.cacheable = true ∧ repo.evaluation.isLocal = false := by
  have hempty : Kept isLocal (State.initial : State P S H I).disk :=
    ⟨⟨fun _ _ _ h => (by cases h), fun _ _ _ h => (by cases h)⟩, fun _ _ h => (by cases h),
      fun _ _ h => (by cases h)⟩
  have hkept : Kept isLocal s.disk := by
    refine (Throughout.reach (C := fun d _ => Kept isLocal d) hs hempty
      (fun d r env choice hstart h htakes => h.throughout (armed_changes h hstart htakes))
      (fun d ops _ h => h) fun d repo _ hcacheable hlocal h => ?_).now
    have hshare : Shared (d.share repo.evaluation.predeclaredInputHash repo
        repo.evaluation.recordedInputs) := h.share _ ⟨hcacheable, hlocal⟩
    exact ⟨⟨hshare.cache, hshare.remote⟩, h.made, h.stamped⟩
  refine ⟨hkept.cache, fun p hash entry repo hroot hrepo => ?_, hkept.remote⟩
  rw [hroot] at hrepo
  exact hkept.cache hash entry repo hrepo

namespace Example

/-- Evaluations of one rule with one input. -/
def evaluated (cacheable input : Bool) : Evaluation Unit Bool :=
  ⟨(), false, cacheable, [input], 0, false⟩

def env (input : Bool) : Env Unit Bool := ⟨(· == input), fun _ => true⟩

/-- A run and its first changes. -/
def materialize (input : Bool) (choice : Choice Unit Bool) (changes : Nat) :
    List (Label Unit Unit Unit Bool) :=
  .start ⟨(), (), (), false⟩ (env input) choice :: List.replicate changes .advance

/-- What the runs of a rule do that is reproducible and not local. -/
def shares : Label Unit Unit Unit Bool → Bool
  | .start r _ (.evaluate e) => !r.isLocal && e.cacheable
  | .start r _ .current => !r.isLocal
  | .advance => true
  | _ => false

/-- A repository that is evaluated and promoted in one run, and current in the next. -/
def promoted : State Unit Unit Unit Bool :=
  (run step (fun _ l => shares l = true) .initial
    (materialize true (.evaluate (evaluated true true)) 16 ++
      materialize true .current 0)).getD .initial

end Example

open Example in
/-- The hypothesis holds of a run with a promotion and of one that finds the repository current. -/
theorem only_reproducible_shared_promoted :
    promoted.disk.cache () 0 = some ⟨evaluated true true, 0, true⟩ ∧
      (evaluated true true).cacheable = true ∧ (evaluated true true).isLocal = false := by
  have hreach : Reach step (fun _ l => shares l = true) State.initial promoted :=
    reach_of_run (materialize true (.evaluate (evaluated true true)) 16 ++
      materialize true .current 0) rfl
  have hreproducible := hreach.mono (Q := Reproducible fun _ => false) fun _ l hl => by
    cases l with
    | start r env choice =>
      cases choice with
      | evaluate e =>
        simp only [shares, Bool.and_eq_true, Bool.not_eq_true'] at hl
        exact ⟨hl.1, fun _ => .inl hl.2⟩
      | current => exact ⟨by simpa [shares] using hl, trivial⟩
      | _ => cases hl
    | _ => trivial
  exact ⟨rfl, (only_reproducible_shared (fun _ => false) hreproducible).1 () 0 _ rfl⟩

open Example in
/-- **An uncacheable repository is promoted**: its stamp does not say that it is one, and the next
run finds it current. -/
theorem uncacheable_promoted :
    ∃ s : State Unit Unit Unit Bool, Reach step (fun _ _ => True) State.initial s ∧
      ∃ repo, s.disk.cache () 0 = some repo ∧ repo.evaluation.cacheable = false ∧
        s.disk.root () = .link () 0 :=
  ⟨_, reach_of_run
    (materialize true (.evaluate (evaluated false true)) 7 ++ materialize true .current 10) rfl,
    _, rfl, rfl, rfl⟩

end Bz.Bzlmod.RepoContents
