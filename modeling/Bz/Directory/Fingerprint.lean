import Mathlib.Algebra.Group.Nat.Defs
import Bz.Directory.Merge

/-!
# Fingerprinting and interning directories

`DirectoryBuilder::fingerprint`, `DirectoryData::new`, `shared` of immutable and exclusive
directories, and `DashMapDirectoryInterner`, all of `bz_directory/src/directory`.  Of the interner's
weak pointers only those count that still lead to a directory, so an interner is the list of the
shared directories that are alive.

Principal results: `fingerprintDir_eq` and `shared_eq`, for builders whose sub-directories are done;
`tree_fingerprintDir` and `tree_shared`: both keep what a directory denotes.
-/

namespace Bz.Directory

open List Option

/-- `DirectoryDigester`; hashing may panic. -/
structure DirectoryDigester (K L H : Type) where
  hashEntries : List (K × BuilderEntry K L H) → Option H
  leafSize : L → Nat

def Kind.size {H : Type} : Kind H → Nat
  | .mutable => 0
  | .exclusive _ size => size
  | .shared _ size => size

def Kind.isMutable {H : Type} : Kind H → Bool
  | .mutable => true
  | _ => false

namespace DirectoryBuilder

variable {K L H : Type} (le : K → K → Prop) [DecidableRel le]

/-- The entries as a `SortedVectorMap`. -/
def sorted (entries : List (K × BuilderEntry K L H)) : List (K × BuilderEntry K L H) :=
  entries.insertionSort fun a b => le a.1 b.1

section Fingerprint

variable (hasher : DirectoryDigester K L H)

/-- The size that `DirectoryData::new` computes. -/
def dataSize (entries : List (K × BuilderEntry K L H)) : Nat :=
  entries.foldl (fun acc e => min (acc + match e.2 with
    | .leaf l => hasher.leafSize l
    | .dir d => d.kind.size) (2 ^ 64 - 1)) 0

mutual

/-- `DirectoryBuilder::fingerprint`. -/
def fingerprintDir : DirectoryBuilder K L H → Option (DirectoryBuilder K L H)
  | node .mutable entries => match fingerprintEntries entries with
    | none => none
    | some entries => (hasher.hashEntries (sorted le entries)).map fun fingerprint =>
        node (.exclusive fingerprint (dataSize hasher (sorted le entries))) (sorted le entries)
  | node (.exclusive fingerprint size) entries => some (node (.exclusive fingerprint size) entries)
  | node (.shared fingerprint size) entries => some (node (.shared fingerprint size) entries)

def fingerprintEntries :
    List (K × BuilderEntry K L H) → Option (List (K × BuilderEntry K L H))
  | [] => some []
  | (k, .leaf l) :: entries => (fingerprintEntries entries).map ((k, .leaf l) :: ·)
  | (k, .dir d) :: entries => match fingerprintDir d with
    | none => none
    | some d => (fingerprintEntries entries).map ((k, .dir d) :: ·)

end

end Fingerprint

/-! ## Interning -/

/-- `DashMapDirectoryInterner`. -/
abbrev Interner (K L H : Type) := List (DirectoryBuilder K L H)

variable [DecidableEq H]

def Interner.get (interner : Interner K L H) (fingerprint : H) : Option (DirectoryBuilder K L H) :=
  interner.find? fun d => d.fingerprint = some fingerprint

def Interner.intern (interner : Interner K L H) (fingerprint : H) (data : DirectoryBuilder K L H) :
    DirectoryBuilder K L H × Interner K L H :=
  match interner.get fingerprint with
  | some shared => (shared, interner)
  | none => (data, data :: interner)

mutual

/-- `shared`: interns the directory. -/
def shared : Interner K L H → DirectoryBuilder K L H → DirectoryBuilder K L H × Interner K L H
  | interner, node .mutable entries => (node .mutable entries, interner)
  | interner, node (.shared fingerprint size) entries =>
    (node (.shared fingerprint size) entries, interner)
  | interner, node (.exclusive fingerprint size) entries => match interner.get fingerprint with
    | some shared => (shared, interner)
    | none =>
      let r := sharedEntries interner entries
      r.2.intern fingerprint (node (.shared fingerprint size) r.1)

def sharedEntries : Interner K L H → List (K × BuilderEntry K L H) →
    List (K × BuilderEntry K L H) × Interner K L H
  | interner, [] => ([], interner)
  | interner, (k, .leaf l) :: entries =>
    let r := sharedEntries interner entries
    ((k, .leaf l) :: r.1, r.2)
  | interner, (k, .dir d) :: entries =>
    let s := shared interner d
    let r := sharedEntries s.2 entries
    ((k, .dir s.1) :: r.1, r.2)

end

end DirectoryBuilder

/-! ## What they do -/

namespace DirectoryBuilder

variable {K L H : Type} {le : K → K → Prop} [DecidableRel le]
  {entries : List (K × BuilderEntry K L H)} {hasher : DirectoryDigester K L H}

theorem mem_sorted {e : K × BuilderEntry K L H} : e ∈ sorted le entries ↔ e ∈ entries :=
  mem_insertionSort _

theorem nodup_sorted (h : (entries.map Prod.fst).Nodup) :
    ((sorted le entries).map Prod.fst).Nodup :=
  ((perm_insertionSort _ entries).map Prod.fst).nodup_iff.mpr h

/-- **The order of the entries** does not matter. -/
theorem tree_sorted [DecidableEq K] (h : (entries.map Prod.fst).Nodup) (kind kind' : Kind H) :
    (node kind (sorted le entries)).tree = (node kind' entries).tree := by
  refine tree_congr fun k => ?_
  apply Option.ext
  intro e
  exact ⟨fun he => lookup_of_mem h (mem_sorted.mp (mem_of_lookup he)),
    fun he => lookup_of_mem (nodup_sorted h) (mem_sorted.mpr (mem_of_lookup he))⟩

section

variable (h : ∀ k d, (k, .dir d) ∈ entries → d.kind.isMutable = false)
include h

theorem fingerprintEntries_eq : fingerprintEntries le hasher entries = some entries := by
  induction entries with
  | nil => rfl
  | cons e entries ih =>
    have ih := ih fun k d hd => h k d (mem_cons_of_mem _ hd)
    obtain ⟨k, d | l⟩ := e
    · have hd : fingerprintDir le hasher d = some d := by
        have himm := h k d mem_cons_self
        obtain ⟨kind, entries⟩ := d
        cases kind with
        | mutable => cases himm
        | exclusive | shared => rw [fingerprintDir]
      rw [fingerprintEntries, hd, ih]
      rfl
    · rw [fingerprintEntries, ih]
      rfl

/-- **Fingerprinting** a builder whose sub-directories are immutable. -/
theorem fingerprintDir_eq {fingerprint : H}
    (hhash : hasher.hashEntries (sorted le entries) = some fingerprint) :
    fingerprintDir le hasher (node .mutable entries) =
      some (node (.exclusive fingerprint (dataSize hasher (sorted le entries)))
        (sorted le entries)) := by
  rw [fingerprintDir, fingerprintEntries_eq h]
  simp only [hhash, map_some]

end

section

variable [DecidableEq H]

theorem sharedEntries_eq (interner : Interner K L H)
    (h : ∀ k d, (k, .dir d) ∈ entries → d.kind.isShared = true) :
    sharedEntries interner entries = (entries, interner) := by
  induction entries with
  | nil => rfl
  | cons e entries ih =>
    have ih := ih fun k d hd => h k d (mem_cons_of_mem _ hd)
    obtain ⟨k, d | l⟩ := e
    · have hd : shared interner d = (d, interner) := by
        have hshared := h k d mem_cons_self
        obtain ⟨kind, entries⟩ := d
        cases kind with
        | shared => rw [shared]
        | mutable | exclusive => cases hshared
      rw [sharedEntries, hd, ih]
    · rw [sharedEntries, ih]

/-- **Interning** a directory whose sub-directories are shared: it is a directory of the same
fingerprint that is there already, or becomes a shared one itself. -/
theorem shared_eq (interner : Interner K L H)
    (h : ∀ k d, (k, .dir d) ∈ entries → d.kind.isShared = true) (fingerprint : H) (size : Nat) :
    (∃ s ∈ interner, s.fingerprint = some fingerprint ∧
      shared interner (node (.exclusive fingerprint size) entries) = (s, interner)) ∨
    shared interner (node (.exclusive fingerprint size) entries) =
      (node (.shared fingerprint size) entries,
        node (.shared fingerprint size) entries :: interner) := by
  cases hget : interner.get fingerprint with
  | some s =>
    have hfound := find?_some hget
    exact .inl ⟨s, mem_of_find?_eq_some hget, by simpa using hfound, by rw [shared, hget]⟩
  | none =>
    refine .inr ?_
    rw [shared, hget]
    simp only [sharedEntries_eq interner h, Interner.intern, hget]

end

/-! ## What fingerprinting and interning keep -/

section Keep

variable {entries' : List (K × BuilderEntry K L H)}

theorem keys_eq_of_forall2 {R : K × BuilderEntry K L H → K × BuilderEntry K L H → Prop}
    (hR : ∀ e e', R e e' → e'.1 = e.1) (h : List.Forall₂ R entries entries') :
    entries'.map Prod.fst = entries.map Prod.fst := by
  induction h with
  | nil => rfl
  | cons he _ ih => rw [map_cons, map_cons, hR _ _ he, ih]

theorem fingerprintEntries_forall2 {P : DirectoryBuilder K L H → DirectoryBuilder K L H → Prop}
    (hdir : ∀ k d d', (k, .dir d) ∈ entries → fingerprintDir le hasher d = some d' → P d d')
    (h : fingerprintEntries le hasher entries = some entries') :
    List.Forall₂ (fun e e' => e'.1 = e.1 ∧
      ((∃ l, e.2 = .leaf l ∧ e'.2 = .leaf l) ∨ ∃ d d', e.2 = .dir d ∧ e'.2 = .dir d' ∧ P d d'))
      entries entries' := by
  induction entries generalizing entries' with
  | nil =>
    cases h
    exact .nil
  | cons e entries ih =>
    have ih' {es : List (K × BuilderEntry K L H)} :=
      @ih es fun k d d' hd => hdir k d d' (mem_cons_of_mem _ hd)
    obtain ⟨k, d | l⟩ := e
    · rw [fingerprintEntries] at h
      split at h
      · cases h
      · next d' hd' =>
        obtain ⟨es, hes, rfl⟩ := map_eq_some_iff.mp h
        exact .cons ⟨rfl, .inr ⟨d, d', rfl, rfl, hdir k d d' mem_cons_self hd'⟩⟩ (ih' hes)
    · obtain ⟨es, hes, rfl⟩ := map_eq_some_iff.mp h
      exact .cons ⟨rfl, .inl ⟨l, rfl, rfl⟩⟩ (ih' hes)

theorem forall_dir_fingerprintEntries {P : DirectoryBuilder K L H → Prop}
    (hdir : ∀ k d d', (k, .dir d) ∈ entries → fingerprintDir le hasher d = some d' → P d')
    (h : fingerprintEntries le hasher entries = some entries') {k : K} {d : DirectoryBuilder K L H}
    (hk : (k, .dir d) ∈ entries') : P d := by
  have hall := fingerprintEntries_forall2 (P := fun _ d' => P d') hdir h
  clear h hdir
  induction hall with
  | nil => cases hk
  | cons he _ ih =>
    rcases mem_cons.mp hk with rfl | hk
    · obtain ⟨l, -, hl⟩ | ⟨_, d', -, hd', hP⟩ := he.2
      · cases hl
      · cases hd'
        exact hP
    · exact ih hk

variable [DecidableEq K]

theorem tree_eq_of_entries {kind kind' : Kind H}
    (h : List.Forall₂ (fun e e' => e'.1 = e.1 ∧ e'.2.tree = e.2.tree) entries entries') :
    (node kind' entries').tree = (node kind entries).tree := by
  funext p
  cases p with
  | nil => rw [tree_nil, tree_nil]
  | cons k p =>
    rw [tree_cons, tree_cons]
    show (entries'.lookup k).bind _ = (entries.lookup k).bind _
    induction h with
    | nil => rfl
    | @cons e e' _ _ he _ ih =>
      obtain ⟨k1, e1⟩ := e
      obtain ⟨k2, e2⟩ := e'
      obtain ⟨rfl, htree⟩ : k2 = k1 ∧ e2.tree = e1.tree := he
      rw [lookup_cons_ite, lookup_cons_ite]
      split
      · exact congrFun htree p
      · exact ih

/-- **Fingerprinting keeps the tree.** -/
theorem tree_fingerprintDir {d d' : DirectoryBuilder K L H}
    (hd : d.Valid) (h : fingerprintDir le hasher d = some d') : d'.tree = d.tree := by
  induction d using recurse generalizing d' with
  | h d ih =>
    obtain ⟨kind, entries⟩ := d
    cases kind with
    | exclusive fingerprint size | shared fingerprint size =>
      cases h
      rfl
    | mutable =>
      rw [fingerprintDir] at h
      split at h
      · cases h
      · next es hes =>
        obtain ⟨fp, -, rfl⟩ := map_eq_some_iff.mp h
        have hall := fingerprintEntries_forall2 (fun k d d' hk h => ih k d hk (hd.entry hk) h) hes
        have hnd : (es.map Prod.fst).Nodup := by
          rw [keys_eq_of_forall2 (fun _ _ h => h.1) hall]
          exact hd.nodup
        rw [tree_sorted hnd _ .mutable]
        refine tree_eq_of_entries (hall.imp fun e e' h => ⟨h.1, ?_⟩)
        obtain ⟨l, hl, hl'⟩ | ⟨sub, sub', hsub, hsub', htree⟩ := h.2
        · rw [hl, hl']
        · rw [hsub, hsub']
          exact htree

/-- The directory is the one that its fingerprint stands for. -/
def Means (meaning : H → PathMap K L) (d : DirectoryBuilder K L H) : Prop :=
  ∀ h, d.fingerprint = some h → d.tree = meaning h

variable [DecidableEq H] {meaning : H → PathMap K L}

theorem Interner.get_means {interner : Interner K L H} (h : ∀ x ∈ interner, Means meaning x)
    {fingerprint : H} {s : DirectoryBuilder K L H} (hs : interner.get fingerprint = some s) :
    s.tree = meaning fingerprint := by
  have hfound := find?_some hs
  exact h s (mem_of_find?_eq_some hs) fingerprint (by simpa using hfound)

theorem sharedEntries_forall2
    (hdir : ∀ k d, (k, .dir d) ∈ entries → ∀ interner, (∀ x ∈ interner, Means meaning x) →
      (shared interner d).1.tree = d.tree ∧ ∀ x ∈ (shared interner d).2, Means meaning x)
    (interner : Interner K L H) (h : ∀ x ∈ interner, Means meaning x) :
    List.Forall₂ (fun e e' => e'.1 = e.1 ∧ e'.2.tree = e.2.tree) entries
        (sharedEntries interner entries).1 ∧
      ∀ x ∈ (sharedEntries interner entries).2, Means meaning x := by
  induction entries generalizing interner with
  | nil => exact ⟨.nil, h⟩
  | cons e entries ih =>
    have ih' := ih fun k d hd => hdir k d (mem_cons_of_mem _ hd)
    obtain ⟨k, d | l⟩ := e
    · obtain ⟨htree, hmeans⟩ := hdir k d mem_cons_self interner h
      obtain ⟨hall, hmeans⟩ := ih' _ hmeans
      exact ⟨.cons ⟨rfl, htree⟩ hall, hmeans⟩
    · obtain ⟨hall, hmeans⟩ := ih' interner h
      exact ⟨.cons ⟨rfl, rfl⟩ hall, hmeans⟩

/-- **Interning keeps the tree** if the interned directories and those of the directory are what
their fingerprints stand for. -/
theorem tree_shared {d : DirectoryBuilder K L H} (hd : ∀ x, In x d → Means meaning x)
    (interner : Interner K L H) (h : ∀ x ∈ interner, Means meaning x) :
    (shared interner d).1.tree = d.tree ∧ ∀ x ∈ (shared interner d).2, Means meaning x := by
  induction d using recurse generalizing interner with
  | h d ih =>
    have hself := hd d (.self d)
    obtain ⟨kind, entries⟩ := d
    cases kind with
    | mutable | shared fingerprint size =>
      exact ⟨rfl, h⟩
    | exclusive fingerprint size =>
      have hmeaning : (node (.exclusive fingerprint size) entries).tree = meaning fingerprint :=
        hself fingerprint rfl
      rw [shared]
      cases hget : interner.get fingerprint with
      | some s => exact ⟨(Interner.get_means h hget).trans hmeaning.symm, h⟩
      | none =>
        obtain ⟨hall, hmeans⟩ := sharedEntries_forall2
          (fun k sub hk => ih k sub hk fun x hx => hd x (.entry hk hx)) interner h
        have htree : (node (.shared fingerprint size) (sharedEntries interner entries).1).tree =
            (node (.exclusive fingerprint size) entries).tree := tree_eq_of_entries hall
        show (Interner.intern _ _ _).1.tree = _ ∧ ∀ x ∈ (Interner.intern _ _ _).2, _
        unfold Interner.intern
        cases hget' : (sharedEntries interner entries).2.get fingerprint with
        | some s => exact ⟨(Interner.get_means hmeans hget').trans hmeaning.symm, hmeans⟩
        | none =>
          refine ⟨htree, fun x hx => ?_⟩
          rcases mem_cons.mp hx with rfl | hx
          · intro fp hfp
            cases hfp
            exact htree.trans hmeaning
          · exact hmeans x hx

end Keep

end DirectoryBuilder

end Bz.Directory
