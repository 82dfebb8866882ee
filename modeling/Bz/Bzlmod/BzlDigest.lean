import Mathlib.Data.Fin.VecNotation
import Mathlib.Data.Fintype.Card
import Mathlib.Data.Fintype.Order
import Bz.Execute.Digest
import Bz.Search

/-!
# The transitive digest of a `.bzl` file

`bzlmod_bazel_bzl_transitive_digest` of `bazel/repository.rs`: the modules that a `.bzl` file leads
to, other than those of the prelude cell, are listed in postorder, and the digest of each one is the
hash of the hash of its source followed by the digests of the modules that it loads.

A module is known by its path as a text, which does not say for which package it was loaded.  One
file that is loaded for two packages is two modules, whose loads may lead to different files, and
only the first one is followed (`module_never_hashed`).  What is loaded from a JSON or TOML file is
not hashed at all.

Principal result: `bzl_transitive_digest`, when the digest tells what is loaded.
-/

namespace Bz.Bzlmod.BzlDigest

open Execute Search List

/-- The kinds of `StarlarkModulePath`. -/
inductive ModuleKind where
  | loadFile
  | bxlFile
  | jsonFile
  | tomlFile
  deriving DecidableEq

/-- A `.bzl` file and the modules that it leads to.  `path` is `module.path().to_string()`, with the
cell of the file, and `source` the text of the file at a path. -/
structure LoadedModules (M : Type) where
  path : M → String
  kind : M → ModuleKind
  cell : M → String
  source : String → List UInt8
  orderedModules : M → List M
  root : M
  root_scanned : kind root = .loadFile ∧ cell root ≠ "prelude"
  acyclic : WellFounded fun a b => a ∈ orderedModules b

/-- The errors of the computation; `outOfFuel` is none of the source. -/
inductive DigestError where
  | notIncluded (module : String)
  | missing (module : String)
  | missingRoot (module : String)
  | outOfFuel

variable {M M' : Type} {ls : List M}

/-- The digests by the paths of the modules. -/
abbrev Digests := String → Option (ByteArr 32)

namespace LoadedModules

/-- `loaded_module_bazel_digest_path` gives a path. -/
def scanned (g : LoadedModules M) (m : M) : Bool := g.kind m = .loadFile ∧ g.cell m ≠ "prelude"

/-- The loaded modules that are not skipped. -/
def loads (g : LoadedModules M) (m : M) : List M := (g.orderedModules m).filter g.scanned

/-- The loaded modules outside the prelude cell. -/
def visible (g : LoadedModules M) (m : M) : List M :=
  (g.orderedModules m).filter (g.cell · ≠ "prelude")

/-- The text of a module. -/
def text (g : LoadedModules M) (m : M) : List UInt8 := g.source (g.path m)

variable (sha256 : List UInt8 → ByteArr 32)

/-- What is hashed for a module. -/
def preimage (g : LoadedModules M) (m : M) (loaded : List (ByteArr 32)) : List UInt8 :=
  (sha256 (g.text m)).1 ++ loaded.flatMap (·.1)

/-- The digest of a loaded module is looked up. -/
def loadedDigest (g : LoadedModules M) (digests : Digests) (l : M) :
    Except DigestError (ByteArr 32) :=
  match digests (g.path l) with
  | some digest => .ok digest
  | none => .error (.missing (g.path l))

/-- `collect_loaded_module_bazel_digest_postorder`, with a bound on the depth. -/
def collect (g : LoadedModules M) : Nat → M → List String × List M → Option (List String × List M)
  | 0, _, _ => none
  | n + 1, m, (seen, modules) =>
    if g.path m ∈ seen then some (seen, modules)
    else do
      let (seen, modules) ←
        (g.loads m).foldlM (fun st l => g.collect n l st) (g.path m :: seen, modules)
      some (seen, if g.scanned m then modules ++ [m] else modules)

/-- The modules in postorder. -/
def collectPostorder [Fintype M] (g : LoadedModules M) : Option (List M) :=
  (g.collect (Fintype.card M + 1) g.root ([], [])).map (·.2)

/-- The body of the loop over the modules. -/
def addDigest (g : LoadedModules M) (digests : Digests) (m : M) : Except DigestError Digests :=
  if g.scanned m then do
    let loaded ← (g.loads m).mapM (g.loadedDigest digests)
    .ok (Function.update digests (g.path m) (some (sha256 (g.preimage sha256 m loaded))))
  else .error (.notIncluded (g.path m))

/-- The digests of all modules. -/
def digestTable [Fintype M] (g : LoadedModules M) : Except DigestError Digests :=
  match g.collectPostorder with
  | none => .error .outOfFuel
  | some modules => modules.foldlM (g.addDigest sha256) fun _ => none

/-- `bzlmod_bazel_bzl_transitive_digest`. -/
def bazelBzlTransitiveDigest [Fintype M] (encode : ByteArr 32 → String) (g : LoadedModules M) :
    Except DigestError String := do
  let digests ← g.digestTable sha256
  match digests (g.path g.root) with
  | some digest => .ok (encode digest)
  | none => .error (.missingRoot (g.path g.root))

variable {g : LoadedModules M} {g' : LoadedModules M'} {m : M} {digests digests' : Digests}
  {sha256}

/-! ## Listing the modules -/

/-- The modules that the root leads to. -/
def Reached (g : LoadedModules M) : M → Prop := Reachable (· = g.root) g.loads

theorem scanned_of_reached (h : g.Reached m) : g.scanned m := by
  cases h with
  | root hroot =>
    rw [hroot, scanned]
    exact decide_eq_true g.root_scanned
  | step _ hm => exact (mem_filter.mp hm).2

/-- What visits add: modules with new paths, each once. -/
structure Adds (g : LoadedModules M) (st st' : List String × List M) : Prop where
  seen : st.1 ⊆ st'.1
  new : ∃ new, st'.2 = st.2 ++ new ∧ (new.map g.path).Nodup ∧
    ∀ m ∈ new, g.Reached m ∧ g.path m ∉ st.1 ∧ g.path m ∈ st'.1

theorem Adds.refl (st : List String × List M) : Adds g st st :=
  ⟨Subset.refl _, [], by simp, by simp, by simp⟩

theorem Adds.trans {st st' st'' : List String × List M} (h : Adds g st st') (h' : Adds g st' st'') :
    Adds g st st'' := by
  obtain ⟨new, hnew, hnodup, hmem⟩ := h.new
  obtain ⟨new', hnew', hnodup', hmem'⟩ := h'.new
  refine ⟨fun k hk => h'.seen (h.seen hk), new ++ new', by rw [hnew', hnew, append_assoc], ?_, ?_⟩
  · rw [map_append]
    refine nodup_append.mpr ⟨hnodup, hnodup', fun k hk k' hk' heq => ?_⟩
    obtain ⟨a, ha, rfl⟩ := mem_map.mp hk
    obtain ⟨b, hb, rfl⟩ := mem_map.mp hk'
    exact (hmem' b hb).2.1 (heq ▸ (hmem a ha).2.2)
  · intro m hm
    rcases mem_append.mp hm with hm | hm
    · obtain ⟨hr, hold, hseen⟩ := hmem m hm
      exact ⟨hr, hold, h'.seen hseen⟩
    · obtain ⟨hr, hold, hseen⟩ := hmem' m hm
      exact ⟨hr, fun hk => hold (h.seen hk), hseen⟩

theorem collect_adds {n : Nat} {st st' : List String × List M} (hm : g.Reached m)
    (h : g.collect n m st = some st') : Adds g st st' := by
  induction n generalizing m st st' with
  | zero => cases h
  | succ n ih =>
    have hloop {ls : List M} {st st' : List String × List M} (hls : ∀ l ∈ ls, g.Reached l)
        (h : ls.foldlM (fun st l => g.collect n l st) st = some st') : Adds g st st' := by
      induction ls generalizing st with
      | nil =>
        cases h
        exact .refl _
      | cons l ls ihls =>
        obtain ⟨hl, hls⟩ := forall_mem_cons.mp hls
        obtain ⟨st1, h1, h2⟩ := Option.bind_eq_some_iff.mp h
        exact (ih hl h1).trans (ihls hls h2)
    obtain ⟨seen, modules⟩ := st
    rw [collect] at h
    split at h
    · cases h
      exact .refl _
    · next hnew =>
      obtain ⟨⟨seen1, modules1⟩, h1, h2⟩ := Option.bind_eq_some_iff.mp h
      cases h2
      obtain ⟨hseen, new, hmodules, hnodup, hmem⟩ := hloop (fun l hl => .step hm hl) h1
      rw [if_pos (scanned_of_reached hm)]
      have hleft : modules1 ++ [m] = modules ++ (new ++ [m]) :=
        (congrArg (· ++ [m]) hmodules).trans (append_assoc _ _ _)
      refine ⟨fun k hk => hseen (mem_cons_of_mem _ hk), new ++ [m], hleft, ?_, fun a ha => ?_⟩
      · rw [map_append, map_cons, map_nil, ← concat_eq_append]
        refine hnodup.concat fun hk => ?_
        obtain ⟨a, ha, heq⟩ := mem_map.mp hk
        exact (hmem a ha).2.1 (heq ▸ mem_cons_self)
      · rcases mem_append.mp ha with ha | ha
        · obtain ⟨hr, hold, hk⟩ := hmem a ha
          exact ⟨hr, fun hk => hold (mem_cons_of_mem _ hk), hk⟩
        · rw [mem_singleton.mp ha]
          exact ⟨hm, hnew, hseen mem_cons_self⟩

/-- No two modules have one path. -/
def PathsDistinct (g : LoadedModules M) : Prop :=
  ∀ m m', g.Reached m → g.Reached m' → g.path m = g.path m' → m = m'

/-- Without two modules of one path, it makes no difference that paths are compared. -/
theorem collect_eq_postorder [DecidableEq M] (hpaths : g.PathsDistinct) {n : Nat}
    {st : List M × List M} (hm : g.Reached m) (hst : ∀ a ∈ st.1, g.Reached a) :
    g.collect n m (st.1.map g.path, st.2) =
        (postorder g.scanned g.loads n m st).map (fun st => (st.1.map g.path, st.2)) ∧
      ∀ st', postorder g.scanned g.loads n m st = some st' → ∀ a ∈ st'.1, g.Reached a := by
  induction n generalizing m st with
  | zero => exact ⟨rfl, fun st' h => by cases h⟩
  | succ n ih =>
    have hloop {ls : List M} {st : List M × List M} (hls : ∀ l ∈ ls, g.Reached l)
        (hst : ∀ a ∈ st.1, g.Reached a) :
        ls.foldlM (fun st l => g.collect n l st) (st.1.map g.path, st.2) =
            (ls.foldlM (fun st l => postorder g.scanned g.loads n l st) st).map
              (fun st => (st.1.map g.path, st.2)) ∧
          ∀ st', ls.foldlM (fun st l => postorder g.scanned g.loads n l st) st = some st' →
            ∀ a ∈ st'.1, g.Reached a := by
      induction ls generalizing st with
      | nil => exact ⟨rfl, fun st' h => by cases h; exact hst⟩
      | cons l ls ihls =>
        obtain ⟨hl, hls⟩ := forall_mem_cons.mp hls
        obtain ⟨heq, hreached⟩ := ih hl hst
        rw [foldlM_cons, foldlM_cons, heq]
        cases hst1 : postorder g.scanned g.loads n l st with
        | none => exact ⟨rfl, fun st' h => by cases h⟩
        | some st1 => exact ihls hls (hreached st1 hst1)
    obtain ⟨seen, left⟩ := st
    have hseen : g.path m ∈ seen.map g.path ↔ m ∈ seen := by
      refine ⟨fun h => ?_, mem_map_of_mem⟩
      obtain ⟨a, ha, heq⟩ := mem_map.mp h
      exact hpaths a m (hst a ha) hm heq ▸ ha
    have hscanned := scanned_of_reached hm
    rw [collect, postorder]
    simp only [hseen, hscanned, Bool.true_eq_false, false_or, if_true]
    split
    · exact ⟨rfl, fun st' h => by cases h; exact hst⟩
    · obtain ⟨heq, hreached⟩ := @hloop (g.loads m) (m :: seen, left) (fun l hl => .step hm hl)
        (forall_mem_cons.mpr ⟨hm, hst⟩)
      rw [map_cons] at heq
      rw [heq]
      cases hst1 : (g.loads m).foldlM (fun st l => postorder g.scanned g.loads n l st)
          (m :: seen, left) with
      | none => exact ⟨rfl, fun st' h => by cases h⟩
      | some st1 => exact ⟨rfl, fun st' h => by cases h; exact hreached st1 hst1⟩

/-- The modules are listed, each after what it loads, and no two with one path. -/
structure Listed (g : LoadedModules M) (modules : List M) : Prop where
  nodup : (modules.map g.path).Nodup
  mem_iff : ∀ m, m ∈ modules ↔ g.Reached m
  ordered : ∀ before m after, modules = before ++ m :: after → ∀ l ∈ g.loads m, l ∈ before

theorem collect_nodup [Fintype M] {modules : List M} (h : g.collectPostorder = some modules) :
    (modules.map g.path).Nodup := by
  obtain ⟨st, hst, rfl⟩ := Option.map_eq_some_iff.mp h
  obtain ⟨new, hnew, hnodup, -⟩ := (collect_adds (.root rfl) hst).new
  rw [hnew]
  exact hnodup

theorem collect_listed [Fintype M] (hpaths : g.PathsDistinct) :
    ∃ modules, g.collectPostorder = some modules ∧ Listed g modules := by
  classical
  obtain ⟨st, hst, hvisits, hroots, hordered⟩ := @postorders_spec M _ g.scanned g.loads
    .univ (fun a _ => Finset.mem_univ a) (Fintype.card M + 1) [g.root] ([], []) (by simp)
  rw [postorders, foldlM_cons] at hst
  obtain ⟨st1, hst1, heq⟩ := Option.bind_eq_some_iff.mp hst
  obtain rfl : st1 = st := Option.some.inj heq
  have hcollect : g.collect (Fintype.card M + 1) g.root ([], []) =
      some (st1.1.map g.path, st1.2) := by
    have hnone : ∀ a ∈ (([], []) : List M × List M).1, g.Reached a := by simp
    refine (collect_eq_postorder hpaths (.root rfl) hnone).1.trans ?_
    rw [hst1]
    rfl
  have hmodules : g.collectPostorder = some st1.2 := by
    rw [collectPostorder, hcollect]
    rfl
  obtain ⟨new, hleft, -, -, hmem⟩ := hvisits.left
  rw [nil_append] at hleft
  obtain ⟨added, hadded, -, hreached⟩ := (collect_adds (.root rfl) hcollect).new
  rw [nil_append] at hadded
  have hbefore : ∀ before m after, st1.2 = before ++ m :: after → ∀ l ∈ g.loads m,
      l ∈ before := by
    intro before m after heq l hl
    refine (hordered (fun _ h => by cases h) (fun _ _ _ h => by simp at h) before m after heq l hl
      (mem_filter.mp hl).2).resolve_right fun hreach => ?_
    have hloads : Relation.ReflTransGen (fun a b => b ∈ g.orderedModules a) l m :=
      hreach.lift id fun _ _ hstep => (mem_filter.mp hstep.1).1
    have hback := Relation.reflTransGen_swap.mp hloads
    exact g.acyclic.transGen.irrefl.irrefl m (.tail' hback (mem_filter.mp hl).1)
  refine ⟨st1.2, hmodules, collect_nodup hmodules, fun m => ⟨fun hm => ?_, fun hm => ?_⟩, hbefore⟩
  · exact (hreached m (hadded ▸ hm)).1
  · induction hm with
    | root hroot =>
      rw [hroot, hleft]
      have hroot := hroots g.root mem_cons_self (scanned_of_reached (.root rfl))
      exact ((hmem g.root).mp hroot).resolve_left not_mem_nil
    | step _ hl ih =>
      obtain ⟨before, after, heq⟩ := append_of_mem ih
      exact heq ▸ mem_append_left _ (hbefore before _ after heq _ hl)

/-! ## The loop over the modules -/

theorem mapM_digests (h : ∀ l ∈ ls, digests (g.path l) ≠ none) :
    ls.mapM (g.loadedDigest digests) = .ok (ls.filterMap fun l => digests (g.path l)) := by
  induction ls with
  | nil => rfl
  | cons l ls ih =>
    obtain ⟨digest, hdigest⟩ := Option.ne_none_iff_exists'.mp (h l mem_cons_self)
    have hcons : (l :: ls).filterMap (fun l => digests (g.path l)) =
        digest :: ls.filterMap fun l => digests (g.path l) := filterMap_cons_some hdigest
    rw [mapM_cons, ih fun l hl => h l (mem_cons_of_mem _ hl), loadedDigest, hdigest, hcons]
    rfl

variable (sha256 g digests) in
/-- The digest of a module is the hash of its own hash and the digests of what it loads. -/
def IsDigest (m : M) (digest : ByteArr 32) : Prop :=
  (∀ l ∈ g.loads m, digests (g.path l) ≠ none) ∧
    digest = sha256 (g.preimage sha256 m ((g.loads m).filterMap fun l => digests (g.path l)))

/-- The table has the digests of the modules and no others. -/
structure Settled (sha256 : List UInt8 → ByteArr 32) (g : LoadedModules M) (digests : Digests)
    (modules : List M) : Prop where
  mem_iff : ∀ path, digests path ≠ none ↔ path ∈ modules.map g.path
  isDigest : ∀ m ∈ modules, ∀ digest, digests (g.path m) = some digest →
    IsDigest sha256 g digests m digest

theorem Settled.concat {modules : List M} (h : Settled sha256 g digests modules)
    (hscanned : g.scanned m) (hnew : g.path m ∉ modules.map g.path)
    (hloads : ∀ l ∈ g.loads m, digests (g.path l) ≠ none) :
    ∃ digests', g.addDigest sha256 digests m = .ok digests' ∧
      Settled sha256 g digests' (modules ++ [m]) := by
  have hnone : digests (g.path m) = none := by
    simpa using mt (h.mem_iff (g.path m)).mp hnew
  refine ⟨_, by rw [addDigest, if_pos hscanned, mapM_digests hloads]; rfl, ⟨fun path => ?_,
    fun a ha digest hdigest => ?_⟩⟩
  · by_cases hpath : path = g.path m
    · simp [hpath]
    · simp [h.mem_iff, hpath]
  obtain ⟨hpresent, hvalue⟩ : IsDigest sha256 g digests a digest := by
    rcases mem_append.mp ha with ha | ha
    · have hne : g.path a ≠ g.path m := fun heq => hnew (heq ▸ mem_map_of_mem ha)
      rw [Function.update_of_ne hne] at hdigest
      exact h.isDigest a ha digest hdigest
    · obtain rfl := mem_singleton.mp ha
      rw [Function.update_self, Option.some.injEq] at hdigest
      exact ⟨hloads, hdigest.symm⟩
  -- what is in the table does not load the new module
  have hkeep (d l) (hl : l ∈ g.loads a) :
      Function.update digests (g.path m) d (g.path l) = digests (g.path l) :=
    Function.update_of_ne (fun heq => hpresent l hl (by rw [heq, hnone])) _ _
  exact ⟨fun l hl => hkeep _ l hl ▸ hpresent l hl, by rwa [filterMap_congr (hkeep _)]⟩

theorem foldlM_settled (sha256) {modules : List M} (hnodup : (modules.map g.path).Nodup)
    (hscanned : ∀ m ∈ modules, g.scanned m) (hordered : ∀ before m after,
      modules = before ++ m :: after → ∀ l ∈ g.loads m, l ∈ before) :
    ∃ digests, modules.foldlM (g.addDigest sha256) (fun _ => none) = .ok digests ∧
      Settled sha256 g digests modules := by
  induction modules using reverseRecOn with
  | nil => exact ⟨_, rfl, by simp, by simp⟩
  | append_singleton modules m ih =>
    rw [map_append] at hnodup
    obtain ⟨hnodup, -, hdisjoint⟩ := nodup_append.mp hnodup
    obtain ⟨digests, hfold, hsettled⟩ := ih hnodup (fun a ha => hscanned a (mem_append_left _ ha))
      fun before a after heq => hordered before a (after ++ [m]) (by simp [heq])
    have hloads (l) (hl : l ∈ g.loads m) : digests (g.path l) ≠ none :=
      (hsettled.mem_iff _).mpr (mem_map_of_mem (hordered modules m [] rfl l hl))
    obtain ⟨digests', hadd, hsettled'⟩ := hsettled.concat (hscanned m (by simp))
      (fun hm => hdisjoint _ hm _ (by simp) rfl) hloads
    refine ⟨digests', ?_, hsettled'⟩
    rw [foldlM_append, hfold, Fallible.ok_bind]
    simpa using hadd

/-! ## What the digests tell -/

/-- What the code takes for granted: no two modules have one path, and only `.bzl` files are loaded.
-/
structure Clean (g : LoadedModules M) : Prop where
  paths : g.PathsDistinct
  files : ∀ m, g.Reached m → ∀ l ∈ g.orderedModules m, g.cell l ≠ "prelude" →
    g.kind l = .loadFile

theorem Clean.visible_eq (h : g.Clean) (hm : g.Reached m) : g.visible m = g.loads m := by
  refine filter_congr fun l hl => ?_
  rw [scanned, decide_eq_decide]
  exact ⟨fun hcell => ⟨h.files m hm l hl hcell, hcell⟩, And.right⟩

/-- The same source and the same loads in order, down to the leaves. -/
inductive Same (g : LoadedModules M) (g' : LoadedModules M') : M → M' → Prop
  | node {m : M} {m' : M'} : g.text m = g'.text m' →
      Forall₂ (Same g g') (g.visible m) (g'.visible m') → Same g g' m m'

/-- The strings that are hashed. -/
def Hashed [Fintype M] (sha256 : List UInt8 → ByteArr 32) (g : LoadedModules M)
    (x : List UInt8) : Prop :=
  ∃ digests, g.digestTable sha256 = .ok digests ∧ ∃ m, g.Reached m ∧
    (x = g.text m ∨
      x = g.preimage sha256 m ((g.loads m).filterMap fun l => digests (g.path l)))

/-- The bytes of the digests tell them apart, as all have one length. -/
theorem forall₂_of_flatMap_eq {R : M → M' → Prop} {ls' : List M'} {d : M → Option (ByteArr 32)}
    {d' : M' → Option (ByteArr 32)} (h : ∀ l ∈ ls, d l ≠ none) (h' : ∀ l ∈ ls', d' l ≠ none)
    (heq : (ls.filterMap d).flatMap (·.1) = (ls'.filterMap d').flatMap (·.1))
    (hR : ∀ l ∈ ls, ∀ l' ∈ ls', ∀ x, d l = some x → d' l' = some x → R l l') :
    Forall₂ R ls ls' := by
  have hne (x : ByteArr 32) (rest : List UInt8) : x.1 ++ rest ≠ [] :=
    append_ne_nil_of_left_ne_nil (ne_nil_of_length_pos (by rw [x.2]; decide)) _
  induction ls generalizing ls' with
  | nil =>
    cases ls' with
    | nil => exact .nil
    | cons l' ls' =>
      obtain ⟨x', hx'⟩ := Option.ne_none_iff_exists'.mp (h' l' mem_cons_self)
      rw [filterMap_cons_some hx', flatMap_cons] at heq
      exact absurd heq.symm (hne x' _)
  | cons l ls ih =>
    obtain ⟨hl, hls⟩ := forall_mem_cons.mp h
    obtain ⟨x, hx⟩ := Option.ne_none_iff_exists'.mp hl
    rw [filterMap_cons_some hx, flatMap_cons] at heq
    cases ls' with
    | nil => exact absurd heq (hne x _)
    | cons l' ls' =>
      obtain ⟨hl', hls'⟩ := forall_mem_cons.mp h'
      obtain ⟨x', hx'⟩ := Option.ne_none_iff_exists'.mp hl'
      rw [filterMap_cons_some hx', flatMap_cons] at heq
      obtain ⟨hxx, hrest⟩ := append_inj heq (x.2.trans x'.2.symm)
      cases Subtype.ext hxx
      exact .cons (hR l mem_cons_self l' mem_cons_self x hx hx') (ih hls hls' hrest
        fun l hl l' hl' => hR l (mem_cons_of_mem _ hl) l' (mem_cons_of_mem _ hl'))

/-- **The digest is found** if no two modules have one path. -/
theorem digest_found [Fintype M] (sha256) (encode : ByteArr 32 → String)
    (hpaths : g.PathsDistinct) :
    ∃ digests digest, g.digestTable sha256 = .ok digests ∧
      (∀ m, g.Reached m → ∃ digest, digests (g.path m) = some digest ∧
        IsDigest sha256 g digests m digest) ∧
      digests (g.path g.root) = some digest ∧
      g.bazelBzlTransitiveDigest sha256 encode = .ok (encode digest) := by
  obtain ⟨modules, hcollect, hlisted⟩ := collect_listed hpaths
  obtain ⟨digests, hfold, hsettled⟩ := foldlM_settled sha256 hlisted.nodup
    (fun m hm => scanned_of_reached ((hlisted.mem_iff m).mp hm)) hlisted.ordered
  have ht : g.digestTable sha256 = .ok digests := by
    rw [digestTable, hcollect]
    exact hfold
  have hall (m) (hm : g.Reached m) : ∃ digest, digests (g.path m) = some digest ∧
      IsDigest sha256 g digests m digest := by
    have hmem := (hlisted.mem_iff m).mpr hm
    obtain ⟨digest, hdigest⟩ := Option.ne_none_iff_exists'.mp
      ((hsettled.mem_iff _).mpr (mem_map_of_mem hmem))
    exact ⟨digest, hdigest, hsettled.isDigest m hmem digest hdigest⟩
  obtain ⟨digest, hdigest, -⟩ := hall g.root (.root rfl)
  refine ⟨digests, digest, ht, hall, hdigest, ?_⟩
  rw [bazelBzlTransitiveDigest, ht]
  simp [hdigest, bind, Except.bind]

theorem same_of_digest [Fintype M] [Fintype M'] (hg : g.Clean) (hg' : g'.Clean)
    {S : Set (List UInt8)} (hfree : Set.InjOn sha256 S) (hS : ∀ x, g.Hashed sha256 x → x ∈ S)
    (hS' : ∀ x, g'.Hashed sha256 x → x ∈ S)
    (ht : g.digestTable sha256 = .ok digests) (ht' : g'.digestTable sha256 = .ok digests')
    (h : ∀ m, g.Reached m → ∃ digest, digests (g.path m) = some digest ∧
      IsDigest sha256 g digests m digest)
    (h' : ∀ m, g'.Reached m → ∃ digest, digests' (g'.path m) = some digest ∧
      IsDigest sha256 g' digests' m digest)
    (m : M) {m' : M'} (hm : g.Reached m) (hm' : g'.Reached m')
    (heq : digests (g.path m) = digests' (g'.path m')) : Same g g' m m' := by
  induction g.acyclic.apply m generalizing m' with
  | intro m _ ih =>
    obtain ⟨digest, hdigest, hpresent, rfl⟩ := h m hm
    obtain ⟨digest', hdigest', hpresent', rfl⟩ := h' m' hm'
    have hhash := Option.some.inj (hdigest.symm.trans (heq.trans hdigest'))
    have hpre := hfree (hS _ ⟨digests, ht, m, hm, .inr rfl⟩)
      (hS' _ ⟨digests', ht', m', hm', .inr rfl⟩) hhash
    obtain ⟨htext, hloads⟩ := append_inj hpre
      ((sha256 (g.text m)).2.trans (sha256 (g'.text m')).2.symm)
    refine .node ?_ ?_
    · exact hfree (hS _ ⟨digests, ht, m, hm, .inl rfl⟩)
        (hS' _ ⟨digests', ht', m', hm', .inl rfl⟩) (Subtype.ext htext)
    · rw [hg.visible_eq hm, hg'.visible_eq hm']
      refine forall₂_of_flatMap_eq hpresent hpresent' hloads fun l hl l' hl' x hx hx' => ?_
      exact ih l (mem_filter.mp hl).1 (.step hm hl) (.step hm' hl') (hx.trans hx'.symm)

/-! ## Files that are not hashed -/

/-- The modules without those that are skipped. -/
def strip (g : LoadedModules M) : LoadedModules M where
  path := g.path
  kind := g.kind
  cell := g.cell
  source := g.source
  orderedModules := g.loads
  root := g.root
  root_scanned := g.root_scanned
  acyclic := Subrelation.wf (fun h => (mem_filter.mp h).1) g.acyclic

theorem loads_strip (m : M) : g.strip.loads m = g.loads m := by
  have h : g.strip.loads m = (g.loads m).filter g.scanned := rfl
  rw [h, loads, filter_filter]
  simp

theorem visible_strip (m : M) : g.strip.visible m = g.loads m := by
  have h : g.strip.visible m = (g.loads m).filter (g.cell · ≠ "prelude") := rfl
  rw [h, filter_eq_self]
  intro l hl
  have hscanned := (mem_filter.mp hl).2
  rw [scanned, decide_eq_true_iff] at hscanned
  exact decide_eq_true hscanned.2

theorem collect_strip (n : Nat) (m : M) (st : List String × List M) :
    g.strip.collect n m st = g.collect n m st := by
  induction n generalizing m st with
  | zero => rfl
  | succ n ih =>
    rw [collect, collect, loads_strip]
    simp only [ih]
    rfl

theorem addDigest_strip : g.strip.addDigest sha256 = g.addDigest sha256 := by
  funext digests m
  rw [addDigest, addDigest, loads_strip]
  rfl

theorem digestTable_strip [Fintype M] : g.strip.digestTable sha256 = g.digestTable sha256 := by
  rw [digestTable, digestTable, collectPostorder, collectPostorder, collect_strip, addDigest_strip]
  rfl

theorem digest_strip [Fintype M] (encode : ByteArr 32 → String) :
    g.strip.bazelBzlTransitiveDigest sha256 encode = g.bazelBzlTransitiveDigest sha256 encode := by
  rw [bazelBzlTransitiveDigest, bazelBzlTransitiveDigest, digestTable_strip]
  rfl

theorem reached_strip : g.strip.Reached m ↔ g.Reached m := by
  have h : g.strip.Reached = g.Reached := congrArg (Reachable (· = g.root)) (funext loads_strip)
  rw [h]

theorem hashed_strip [Fintype M] {x : List UInt8} (h : g.strip.Hashed sha256 x) :
    g.Hashed sha256 x := by
  obtain ⟨digests, ht, m, hm, hx⟩ := h
  rw [digestTable_strip] at ht
  rw [loads_strip] at hx
  exact ⟨digests, ht, m, reached_strip.mp hm, hx⟩

theorem clean_strip (hpaths : g.PathsDistinct) : g.strip.Clean where
  paths m m' hm hm' := hpaths m m' (reached_strip.mp hm) (reached_strip.mp hm')
  files m _ l hl _ := by
    have hscanned := (mem_filter.mp hl).2
    rw [scanned, decide_eq_true_iff] at hscanned
    exact hscanned.1

/-- A module that is the same without what is skipped skips nothing. -/
theorem Same.of_strip (h : Same g g.strip m m) :
    g.visible m = g.loads m ∧ ∀ l ∈ g.loads m, Same g g.strip l l := by
  obtain ⟨-, hloads⟩ := h
  rw [visible_strip] at hloads
  have hsub : g.loads m <+ g.visible m := by
    have heq : g.loads m = (g.visible m).filter g.scanned := by
      rw [loads, visible, filter_filter]
      refine filter_congr fun l _ => ?_
      simp [scanned]
    rw [heq]
    exact filter_sublist
  have heq := hsub.eq_of_length hloads.length_eq.symm
  rw [← heq] at hloads
  exact ⟨heq.symm, forall₂_same.mp hloads⟩

/-! ## The theorem -/

/-- Each module that the root leads to is visited once. -/
def VisitsOnce [Fintype M] (g : LoadedModules M) : Prop :=
  ∃ modules, g.collectPostorder = some modules ∧ modules.Nodup ∧ ∀ m, m ∈ modules ↔ g.Reached m

/-- The digest is found, and another file has it only if it and what it loads have the same sources;
the strings that are hashed are in `S`. -/
def Identified [Fintype M] (sha256 : List UInt8 → ByteArr 32)
    (encode : ByteArr 32 → String) (S : Set (List UInt8)) (g : LoadedModules M) : Prop :=
  ∃ digest, g.bazelBzlTransitiveDigest sha256 encode = .ok digest ∧
    ∀ (M' : Type) [Fintype M'] (g' : LoadedModules M'), g'.Clean →
      (∀ x, g'.Hashed sha256 x → x ∈ S) →
      g'.bazelBzlTransitiveDigest sha256 encode = .ok digest → Same g g' g.root g'.root

/-- **The transitive digest** visits each module once and tells what is loaded exactly if no two
modules have one path and only `.bzl` files are loaded; on the strings that are hashed, the hash
function has no collisions. -/
theorem bzl_transitive_digest [Fintype M] (sha256 : List UInt8 → ByteArr 32)
    (encode : ByteArr 32 → String) (hencode : Function.Injective encode) (S : Set (List UInt8))
    (hfree : Set.InjOn sha256 S) (g : LoadedModules M) (hS : ∀ x, g.Hashed sha256 x → x ∈ S) :
    g.VisitsOnce ∧ g.Identified sha256 encode S ↔ g.Clean := by
  constructor
  · rintro ⟨⟨modules, hcollect, -, hmem⟩, digest, hdigest, hsame⟩
    have hpaths : g.PathsDistinct := fun m m' hm hm' => inj_on_of_nodup_map
      (collect_nodup hcollect) ((hmem m).mpr hm) ((hmem m').mpr hm')
    refine ⟨hpaths, fun m hm l hl hcell => ?_⟩
    have hroot := hsame M g.strip (clean_strip hpaths) (fun x hx => hS x (hashed_strip hx))
      ((digest_strip encode).trans hdigest)
    have hself : ∀ m, g.Reached m → Same g g.strip m m := by
      intro m hm
      induction hm with
      | root hm =>
        rw [hm]
        exact hroot
      | step _ hl ih => exact ih.of_strip.2 _ hl
    have hvisible : l ∈ g.visible m := mem_filter.mpr ⟨hl, decide_eq_true hcell⟩
    rw [(hself m hm).of_strip.1] at hvisible
    have hscanned := (mem_filter.mp hvisible).2
    rw [scanned, decide_eq_true_iff] at hscanned
    exact hscanned.1
  · intro hg
    obtain ⟨modules, hcollect, hlisted⟩ := collect_listed hg.paths
    obtain ⟨digests, digest, ht, hall, hroot, hresult⟩ := digest_found sha256 encode hg.paths
    refine ⟨⟨modules, hcollect, .of_map _ hlisted.nodup, hlisted.mem_iff⟩, encode digest, hresult,
      fun M' _ g' hg' hS' hresult' => ?_⟩
    obtain ⟨digests', digest', ht', hall', hroot', hdigest'⟩ := digest_found sha256 encode hg'.paths
    rw [hdigest', Except.ok.injEq] at hresult'
    refine same_of_digest hg hg' hfree hS hS' ht ht' hall hall' g.root (.root rfl) (.root rfl) ?_
    rw [hroot, hroot', hencode hresult']

/-! ## One file for two packages -/

/-- The root loads `//a:b/f.bzl` and `//a/b:f.bzl`, which is one file, and each of them loads
`:d.bzl` from its package. -/
def twoPackages (text : List UInt8) : LoadedModules (Fin 5) where
  path := ![ "root//ext.bzl", "root//a/b/f.bzl", "root//a/b/f.bzl", "root//a/d.bzl",
    "root//a/b/d.bzl"]
  kind _ := .loadFile
  cell _ := "root"
  source path := if path = "root//a/b/d.bzl" then text else []
  orderedModules := ![[1, 2], [3], [4], [], []]
  root := 0
  root_scanned := by decide
  acyclic := Subrelation.wf (fun {a b} h => (by decide : ∀ a b : Fin 5, a ∈
    (![[1, 2], [3], [4], [], []] : Fin 5 → List (Fin 5)) b → a > b) a b h) wellFounded_gt

/-- **A module is never hashed**: the second module with the path of `f.bzl` is not visited, nor is
the file that it loads. -/
theorem module_never_hashed : (twoPackages [1]).collectPostorder = some [3, 1, 0] ∧
    (twoPackages [1]).Reached 2 ∧ (twoPackages [1]).Reached 4 ∧
    (twoPackages [1]).text 4 ≠ (twoPackages [2]).text 4 ∧
    ∀ sha256 encode, ∃ digest, (twoPackages [1]).bazelBzlTransitiveDigest sha256 encode =
        .ok digest ∧ (twoPackages [2]).bazelBzlTransitiveDigest sha256 encode = .ok digest := by
  have hb : (twoPackages [1]).Reached 2 := .step (.root rfl) (by decide)
  exact ⟨by decide, hb, .step hb (by decide), by decide, fun sha256 encode => ⟨_, rfl, rfl⟩⟩

/-- The root loads one file. -/
def oneLoad (text : List UInt8) : LoadedModules (Fin 2) where
  path := ![ "root//ext.bzl", "root//lib.bzl"]
  kind _ := .loadFile
  cell _ := "root"
  source path := if path = "root//lib.bzl" then text else []
  orderedModules := ![[1], []]
  root := 0
  root_scanned := by decide
  acyclic := Subrelation.wf (fun {a b} h => (by decide : ∀ a b : Fin 2, a ∈
    (![[1], []] : Fin 2 → List (Fin 2)) b → a > b) a b h) wellFounded_gt

theorem oneLoad_clean (text : List UInt8) : (oneLoad text).Clean where
  paths m m' _ _ := (by decide : ∀ m m' : Fin 2, (![ "root//ext.bzl", "root//lib.bzl"] :
    Fin 2 → String) m = (![ "root//ext.bzl", "root//lib.bzl"] : Fin 2 → String) m' → m = m') m m'
  files _ _ _ _ _ := rfl

/-- A hash of the length and the sum of the bytes. -/
def lengthAndSum (x : List UInt8) : ByteArr 32 :=
  ⟨UInt8.ofNat x.length :: x.foldl (· + ·) 0 :: replicate 30 0, rfl⟩

/-- Each byte is a character. -/
def latin1 (x : ByteArr 32) : String := String.ofList (x.1.map Char.ofUInt8)

theorem latin1_injective : Function.Injective latin1 := by
  intro x y h
  refine Subtype.ext ((map_injective_iff.mpr fun b c hbc => ?_) (String.ofList_injective h))
  have hnat : b.toUInt32.toNat = c.toUInt32.toNat := congrArg Char.toNat hbc
  simp only [UInt8.toNat_toUInt32] at hnat
  exact UInt8.toNat_inj.mp hnat

/-- The strings that are hashed for the root and the file that it loads. -/
def oneLoadHashed (text : List UInt8) : List (List UInt8) :=
  let loaded := (lengthAndSum text).1
  [[], text, loaded, (lengthAndSum []).1 ++ (lengthAndSum loaded).1]

theorem mem_oneLoadHashed {text x : List UInt8} (h : (oneLoad text).Hashed lengthAndSum x) :
    x ∈ oneLoadHashed text := by
  obtain ⟨digests, ht, m, -, hx⟩ := h
  obtain rfl := Except.ok.inj ht
  match m with
  | 0 =>
    obtain rfl | rfl := hx
    · exact .head _
    · exact .tail _ (.tail _ (.tail _ (.head _)))
  | 1 =>
    obtain rfl | rfl := hx
    · exact .tail _ (.head _)
    · refine .tail _ (.tail _ ?_)
      rw [preimage, loads]
      exact .head _

/-- The text of a loaded file is changed, and so is the digest. -/
theorem bzl_transitive_digest_changed :
    (oneLoad [1]).bazelBzlTransitiveDigest lengthAndSum latin1 ≠
      (oneLoad [2]).bazelBzlTransitiveDigest lengthAndSum latin1 := by
  have hfree : Set.InjOn lengthAndSum {x | x ∈ oneLoadHashed [1] ++ oneLoadHashed [2]} :=
    fun x hx y hy => (by decide +kernel : ∀ x ∈ oneLoadHashed [1] ++ oneLoadHashed [2],
      ∀ y ∈ oneLoadHashed [1] ++ oneLoadHashed [2], lengthAndSum x = lengthAndSum y → x = y) x hx y
      hy
  obtain ⟨-, digest, hdigest, hsame⟩ := (bzl_transitive_digest lengthAndSum latin1 latin1_injective
    _ hfree (oneLoad [1]) fun x hx => mem_append_left _ (mem_oneLoadHashed hx)).mpr
    (oneLoad_clean [1])
  intro heq
  obtain ⟨-, hloads⟩ := hsame _ (oneLoad [2]) (oneLoad_clean [2])
    (fun x hx => mem_append_right _ (mem_oneLoadHashed hx)) (heq.symm.trans hdigest)
  obtain _ | ⟨⟨htext, -⟩, -⟩ := hloads
  exact absurd htext (by decide)

end LoadedModules

end Bz.Bzlmod.BzlDigest
