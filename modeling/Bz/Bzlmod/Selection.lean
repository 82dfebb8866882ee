import Mathlib.Algebra.Ring.Nat
import Bz.Bzlmod.Version
import Bz.Search

/-!
# Selection of bzlmod modules

`select_bzlmod_modules` of `bz_common/src/bazel/bzlmod.rs`: the greatest discovered version of every
module name is selected, and the modules that the root depends on, through dependencies whose
versions are replaced by the selected ones, are kept.  The walk over the dependencies is a
breadth-first search and a depth-first one; both count down their steps in the model, and never run
out of them.

Principal results: `dependency_first`; `select_bzlmod_modules_spec`: the selection succeeds, with
the least set that contains the dependencies of the root and is closed under dependencies.
-/

namespace Bz.Bzlmod

open List Option

open Std (TreeMap TreeSet TransCmp OrientedCmp ReflCmp LawfulEqCmp)

/-- The name and the version of a module, ordered by name and then by version. -/
abbrev ModuleKey := String × String

instance : Ord ModuleKey := lexOrd

/-- A dependency on a module. -/
structure BazelDep where
  name : String
  version : String

/-- `DiscoveredBcrModule`, as far as the selection reads it. -/
structure DiscoveredBcrModule where
  dep : BazelDep
  deps : List BazelDep

abbrev DiscoveredBcrModules := TreeMap ModuleKey DiscoveredBcrModule

/-- Why the selection fails. -/
inductive SelectionError where
  | invalidVersion (name : String) (error : VersionError)
  | notDiscovered (key : ModuleKey)
  | outOfSteps

/-- What is selected. -/
structure BzlmodSelectionResult where
  discovered : DiscoveredBcrModules
  selectedKeys : TreeSet ModuleKey
  selectedKeysInBfsOrder : List ModuleKey
  selectedKeysInDependencyOrder : List ModuleKey
  canonicalRepoNamesByKey : TreeMap ModuleKey String

/-! ## The selected versions -/

/-- The body of the loop over the discovered keys. -/
def selectVersion (selected : TreeMap String String) (key : ModuleKey) :
    Except SelectionError (TreeMap String String) :=
  match selected[key.1]? with
  | some existing => match bzlmodVersionCmp key.2 existing with
    | .error e => .error (.invalidVersion key.1 e)
    | .ok .gt => .ok (selected.insert key.1 key.2)
    | .ok _ => .ok selected
  | none => .ok (selected.insert key.1 key.2)

def selectVersions (keys : List ModuleKey) (selected : TreeMap String String) :
    Except SelectionError (TreeMap String String) :=
  keys.foldlM selectVersion selected

/-! ## The walks -/

/-- The dependencies that have a discovered version, with their selected versions. -/
def selectedDeps (selected : TreeMap String String) (deps : List BazelDep) : List ModuleKey :=
  deps.filterMap fun dep => selected[dep.name]?.map fun version => (dep.name, version)

def successors (discovered : DiscoveredBcrModules) (selected : TreeMap String String)
    (key : ModuleKey) : List ModuleKey :=
  match discovered[key]? with
  | some module => selectedDeps selected module.deps
  | none => []

/-- The loop over the queue: the selected keys as a set and as they are visited. -/
def visitSelected (discovered : DiscoveredBcrModules) (selected : TreeMap String String) :
    Nat → List ModuleKey → TreeSet ModuleKey → List ModuleKey →
      Except SelectionError (TreeSet ModuleKey × List ModuleKey)
  | 0, _, _, _ => .error .outOfSteps
  | _ + 1, [], keys, order => .ok (keys, order)
  | n + 1, key :: visit, keys, order =>
    if key ∈ keys then visitSelected discovered selected n visit keys order
    else match discovered[key]? with
      | none => .error (.notDiscovered key)
      | some module =>
        visitSelected discovered selected n (visit ++ selectedDeps selected module.deps)
          (keys.insert key) (order ++ [key])

/-- What the queue starts with. -/
def initialVisit (selected : TreeMap String String) (rootDeps : List BazelDep) : List ModuleKey :=
  selectedDeps selected rootDeps ++
    match selected["bazel_tools"]? with
    | some version => [("bazel_tools", version)]
    | none => []

/-- More steps than keys can enter the queue. -/
def visitBound (discovered : DiscoveredBcrModules) (selected : TreeMap String String)
    (rootDeps : List BazelDep) : Nat :=
  (initialVisit selected rootDeps).length +
    (discovered.keys.map fun key => (successors discovered selected key).length).sum + 1

def bzlmodSelectedKeysDependencyFirst (discovered : DiscoveredBcrModules)
    (rootDeps : List BazelDep) (selected : TreeMap String String)
    (selectedKeys : TreeSet ModuleKey) : Except SelectionError (List ModuleKey) :=
  let visits := Search.postorders selectedKeys.contains (successors discovered selected)
    (selectedKeys.toList.length + 1)
  match visits (selectedDeps selected rootDeps ++ selectedKeys.toList) ([], []) with
  | none => .error .outOfSteps
  | some (_, ordered) => .ok ordered

/-! ## The canonical names -/

def bzlmodCanonicalRepoName (moduleName version : String) (multipleVersions : Bool) : String :=
  if moduleName = "bazel_tools" then "bazel_tools"
  else if moduleName = "platforms" then "platforms"
  else if multipleVersions then moduleName ++ "+" ++ version
  else moduleName ++ "+"

def bzlmodCanonicalRepoNamesByKey (selectedKeys : TreeSet ModuleKey) :
    TreeMap ModuleKey String :=
  TreeMap.ofList <| selectedKeys.toList.map fun key =>
    (key, bzlmodCanonicalRepoName key.1 key.2
      (decide (1 < (selectedKeys.toList.filter fun other => other.1 = key.1).length)))

/-! ## The selection -/

/-- `select_bzlmod_modules`. -/
def selectBzlmodModules (rootDeps : List BazelDep) (builtinBazelToolsModule : DiscoveredBcrModule)
    (discovered : DiscoveredBcrModules) : Except SelectionError BzlmodSelectionResult := do
  let discovered := discovered.insert
    (builtinBazelToolsModule.dep.name, builtinBazelToolsModule.dep.version) builtinBazelToolsModule
  let selected ← selectVersions discovered.keys ∅
  let (selectedKeys, bfsOrder) ← visitSelected discovered selected
    (visitBound discovered selected rootDeps) (initialVisit selected rootDeps) ∅ []
  let dependencyOrder ←
    bzlmodSelectedKeysDependencyFirst discovered rootDeps selected selectedKeys
  .ok ⟨discovered, selectedKeys, bfsOrder, dependencyOrder,
    bzlmodCanonicalRepoNamesByKey selectedKeys⟩

/-! ## What is selected -/

/-- `version` is a greatest discovered version of `name`, and the smallest string among those. -/
def IsSelected (keys : List ModuleKey) (name version : String) : Prop :=
  (name, version) ∈ keys ∧ ∀ other, (name, other) ∈ keys →
    bzlmodVersionCmp other version = .ok .lt ∨
      bzlmodVersionCmp other version = .ok .eq ∧ version ≤ other

variable {a v new : String}

theorem bzlmodVersionCmp_of_parse {b : String} {va vb : BzlmodVersion}
    (ha : parseBzlmodVersion a = .ok va) (hb : parseBzlmodVersion b = .ok vb) :
    bzlmodVersionCmp a b = .ok (va.cmp vb) := by
  simp only [bzlmodVersionCmp, ha, hb]
  rfl

theorem bzlmodVersionCmp_self (ha : Parseable a) : bzlmodVersionCmp a a = .ok .eq := by
  obtain ⟨va, ha⟩ := ha
  rw [bzlmodVersionCmp_of_parse ha ha]
  exact congrArg Except.ok ReflCmp.compare_self

variable {keys : List ModuleKey} {name version : String} {key : ModuleKey}
  {selected : TreeMap String String} {rootDeps : List BazelDep} {discovered : DiscoveredBcrModules}

theorem IsSelected.unique {v' : String} (hp : ∀ key ∈ keys, Parseable key.2)
    (h : IsSelected keys name v) (h' : IsSelected keys name v') : v = v' := by
  obtain ⟨pv, hv⟩ := hp _ h.1
  obtain ⟨pv', hv'⟩ := hp _ h'.1
  have h1 := h.2 v' h'.1
  have h2 := h'.2 v h.1
  rw [bzlmodVersionCmp_of_parse hv' hv] at h1
  rw [bzlmodVersionCmp_of_parse hv hv'] at h2
  simp only [Except.ok.injEq] at h1 h2
  have hswap : pv.cmp pv' = (pv'.cmp pv).swap := OrientedCmp.eq_swap
  rcases h1 with h1 | ⟨h1, hle⟩ <;> rcases h2 with h2 | ⟨h2, hle'⟩ <;> rw [h1] at hswap
  · rw [hswap] at h2
    cases h2
  · rw [hswap] at h2
    cases h2
  · rw [hswap] at h2
    cases h2
  · exact le_antisymm hle hle'

/-- A version that is not greater, and comes later, is not selected. -/
theorem IsSelected.append (h : IsSelected keys name version) (hnew : name = key.1 →
      bzlmodVersionCmp key.2 version = .ok .lt ∨
        bzlmodVersionCmp key.2 version = .ok .eq ∧ version ≤ key.2) :
    IsSelected (keys ++ [key]) name version := by
  refine ⟨mem_append_left _ h.1, fun other hother => ?_⟩
  rcases mem_append.mp hother with hother | hother
  · exact h.2 other hother
  · cases mem_singleton.mp hother
    exact hnew rfl

theorem IsSelected.append_greater (hp : ∀ key ∈ keys, Parseable key.2) (hpnew : Parseable new)
    (h : IsSelected keys name version) (hnew : bzlmodVersionCmp new version = .ok .gt) :
    IsSelected (keys ++ [(name, new)]) name new := by
  refine ⟨mem_append_right _ (mem_singleton_self _), fun other hother => ?_⟩
  rcases mem_append.mp hother with hother | hother
  · obtain ⟨pn, hpn⟩ := hpnew
    obtain ⟨pv, hpv⟩ := hp _ h.1
    obtain ⟨po, hpo⟩ := hp _ hother
    have hle := h.2 other hother
    rw [bzlmodVersionCmp_of_parse hpn hpv, Except.ok.injEq] at hnew
    rw [bzlmodVersionCmp_of_parse hpo hpv] at hle
    left
    rw [bzlmodVersionCmp_of_parse hpo hpn]
    refine congrArg Except.ok (TransCmp.lt_of_isLE_of_lt ?_ (OrientedCmp.gt_iff_lt.mp hnew))
    rcases hle with hle | ⟨hle, -⟩ <;>
      · rw [Except.ok.inj hle]
        rfl
  · cases mem_singleton.mp hother
    exact .inr ⟨bzlmodVersionCmp_self hpnew, le_rfl⟩

/-- The selected versions of these keys. -/
structure SelectsFrom (keys : List ModuleKey) (selected : TreeMap String String) : Prop where
  isSelected : ∀ name version, selected[name]? = some version → IsSelected keys name version
  isSome : ∀ key ∈ keys, (selected[key.1]?).isSome = true

theorem getElem?_insert_version (n : String) :
    (selected.insert name version)[n]? = if name = n then some version else selected[n]? := by
  rw [TreeMap.getElem?_insert]
  simp only [compare_eq_iff_eq]

theorem SelectsFrom.step (h : SelectsFrom keys selected) (hp : ∀ k ∈ keys, Parseable k.2)
    (hpkey : Parseable key.2) (hlt : ∀ version, (key.1, version) ∈ keys → version < key.2) :
    ∃ selected', selectVersion selected key = .ok selected' ∧
      SelectsFrom (keys ++ [key]) selected' := by
  obtain ⟨name, new⟩ := key
  -- a version of the name that is put into the map
  have hinsert : IsSelected (keys ++ [(name, new)]) name new →
      SelectsFrom (keys ++ [(name, new)]) (selected.insert name new) := by
    intro hnew
    refine ⟨fun n v hv => ?_, fun k hk => ?_⟩
    · rw [getElem?_insert_version] at hv
      split at hv
      · next heq =>
        cases hv
        exact heq ▸ hnew
      · next hne => exact (h.isSelected n v hv).append fun heq => absurd heq.symm hne
    · rw [getElem?_insert_version]
      split
      · rfl
      · next hne =>
        rcases mem_append.mp hk with hk | hk
        · exact h.isSome k hk
        · cases mem_singleton.mp hk
          exact absurd rfl hne
  -- the version that is there stays
  have hkeep : ∀ existing, selected[name]? = some existing →
      IsSelected (keys ++ [(name, new)]) name existing →
      SelectsFrom (keys ++ [(name, new)]) selected := by
    intro existing hex hsel
    refine ⟨fun n v hv => ?_, fun k hk => ?_⟩
    · by_cases hn : n = name
      · subst hn
        rw [hex] at hv
        cases hv
        exact hsel
      · exact (h.isSelected n v hv).append fun heq => absurd heq hn
    · rcases mem_append.mp hk with hk | hk
      · exact h.isSome k hk
      · cases mem_singleton.mp hk
        rw [hex]
        rfl
  unfold selectVersion
  cases hex : selected[name]? with
  | none =>
    refine ⟨_, rfl, hinsert ⟨mem_append_right _ (mem_singleton_self _), fun v hv => ?_⟩⟩
    rcases mem_append.mp hv with hv | hv
    · have := h.isSome _ hv
      rw [hex] at this
      cases this
    · cases mem_singleton.mp hv
      exact .inr ⟨bzlmodVersionCmp_self hpkey, le_rfl⟩
  | some existing =>
    have hsel := h.isSelected name existing hex
    obtain ⟨pn, hpn⟩ := hpkey
    obtain ⟨pe, hpe⟩ := hp _ hsel.1
    have hcmp := bzlmodVersionCmp_of_parse hpn hpe
    simp only [hcmp]
    cases hc : pn.cmp pe with
    | gt =>
      rw [hc] at hcmp
      exact ⟨_, rfl, hinsert (hsel.append_greater hp ⟨pn, hpn⟩ hcmp)⟩
    | lt =>
      rw [hc] at hcmp
      exact ⟨_, rfl, hkeep existing hex (hsel.append fun _ => .inl hcmp)⟩
    | eq =>
      rw [hc] at hcmp
      exact ⟨_, rfl, hkeep existing hex
        (hsel.append fun _ => .inr ⟨hcmp, (hlt existing hsel.1).le⟩)⟩

theorem SelectsFrom.fold {rest : List ModuleKey} (h : SelectsFrom keys selected)
    (hp : ∀ k ∈ keys ++ rest, Parseable k.2)
    (hsorted : (keys ++ rest).Pairwise fun a b => compare a b = .lt) :
    ∃ selected', selectVersions rest selected = .ok selected' ∧
      SelectsFrom (keys ++ rest) selected' := by
  induction rest generalizing keys selected with
  | nil => exact ⟨selected, rfl, by rwa [append_nil]⟩
  | cons key rest ih =>
    have hlt : ∀ version, (key.1, version) ∈ keys → version < key.2 := by
      intro version hmem
      have hlex : (compare key.1 key.1).then (compare version key.2) = .lt :=
        (pairwise_append.mp hsorted).2.2 _ hmem key mem_cons_self
      rw [compare_eq_iff_eq.mpr rfl] at hlex
      exact compare_lt_iff_lt.mp hlex
    obtain ⟨selected1, hstep, h1⟩ := h.step (fun k hk => hp k (mem_append_left _ hk))
      (hp key (by simp)) hlt
    rw [append_cons] at hp hsorted ⊢
    obtain ⟨selected', hfold, h'⟩ := ih h1 hp hsorted
    refine ⟨selected', ?_, h'⟩
    rw [selectVersions, foldlM_cons, hstep]
    exact hfold

/-- **The selected versions.**  For parseable versions, the loop selects the greatest version of
every discovered name. -/
theorem selectVersions_spec (discovered : DiscoveredBcrModules)
    (hp : ∀ key ∈ discovered, Parseable key.2) :
    ∃ selected, selectVersions discovered.keys ∅ = .ok selected ∧
      ∀ name version, selected[name]? = some version ↔ IsSelected discovered.keys name version := by
  have hp' : ∀ key ∈ discovered.keys, Parseable key.2 := fun key hk =>
    hp key (TreeMap.mem_keys.mp hk)
  have hnil : SelectsFrom [] ∅ :=
    ⟨fun name version h => by simp at h, fun key hk => absurd hk not_mem_nil⟩
  obtain ⟨selected, hsel, h⟩ : ∃ selected, selectVersions discovered.keys ∅ = .ok selected ∧
      SelectsFrom discovered.keys selected := hnil.fold hp' TreeMap.ordered_keys
  refine ⟨selected, hsel, fun name version => ⟨h.isSelected name version, fun hs => ?_⟩⟩
  obtain ⟨v, hv⟩ := isSome_iff_exists.mp (h.isSome _ hs.1)
  rw [hv, (h.isSelected name v hv).unique hp' hs]

/-! ## The selected keys -/

theorem mem_selectedDeps {deps : List BazelDep} :
    key ∈ selectedDeps selected deps ↔ ∃ dep ∈ deps, dep.name = key.1 ∧
      selected[key.1]? = some key.2 := by
  simp only [selectedDeps, mem_filterMap, map_eq_some_iff]
  constructor
  · rintro ⟨dep, hdep, version, hv, rfl⟩
    exact ⟨dep, hdep, rfl, hv⟩
  · rintro ⟨dep, hdep, hname, hv⟩
    exact ⟨dep, hdep, key.2, hname ▸ hv, by rw [hname]⟩

theorem mem_initialVisit :
    key ∈ initialVisit selected rootDeps ↔
      ((∃ dep ∈ rootDeps, dep.name = key.1) ∨ key.1 = "bazel_tools") ∧
        selected[key.1]? = some key.2 := by
  rw [initialVisit, mem_append, mem_selectedDeps]
  constructor
  · rintro (⟨dep, hdep, hname, hv⟩ | h)
    · exact ⟨.inl ⟨dep, hdep, hname⟩, hv⟩
    · cases hv : selected["bazel_tools"]? with
      | none =>
        rw [hv] at h
        cases h
      | some version =>
        rw [hv] at h
        cases mem_singleton.mp h
        exact ⟨.inr rfl, hv⟩
  · rintro ⟨⟨dep, hdep, hname⟩ | hname, hv⟩
    · exact .inl ⟨dep, hdep, hname, hv⟩
    · right
      obtain ⟨name, version⟩ := key
      subst hname
      rw [hv]
      exact mem_singleton_self _

/-- The loop over the queue is breadth-first search, as long as every key is discovered. -/
theorem visitSelected_eq_bfs
    (hsel : ∀ name version, selected[name]? = some version → (name, version) ∈ discovered) {n : Nat}
    {visit order result : List ModuleKey} {keys : TreeSet ModuleKey}
    (hvisit : ∀ key ∈ visit, key ∈ discovered) (hkeys : ∀ key, key ∈ keys ↔ key ∈ order)
    (h : Search.bfs (successors discovered selected) n visit order = some result) :
    ∃ keys', visitSelected discovered selected n visit keys order = .ok (keys', result) ∧
      ∀ key, key ∈ keys' ↔ key ∈ result := by
  induction n generalizing visit order keys with
  | zero => cases h
  | succ n ih =>
    cases visit with
    | nil =>
      cases h
      exact ⟨keys, rfl, hkeys⟩
    | cons key visit =>
      obtain ⟨hkey, hvisit⟩ := forall_mem_cons.mp hvisit
      rw [Search.bfs] at h
      rw [visitSelected]
      by_cases hold : key ∈ order
      · rw [if_pos hold] at h
        rw [if_pos ((hkeys key).mpr hold)]
        exact ih hvisit hkeys h
      · rw [if_neg hold] at h
        rw [if_neg fun hk => hold ((hkeys key).mp hk)]
        obtain ⟨module, hmodule⟩ :=
          isSome_iff_exists.mp (TreeMap.mem_iff_isSome_getElem?.mp hkey)
        rw [show successors discovered selected key = selectedDeps selected module.deps by
          rw [successors, hmodule]] at h
        rw [hmodule]
        refine ih (fun k hk => ?_) (fun k => ?_) h
        · rcases mem_append.mp hk with hk | hk
          · exact hvisit k hk
          · obtain ⟨_, -, -, hv⟩ := mem_selectedDeps.mp hk
            exact hsel _ _ hv
        · rw [TreeSet.mem_insert, hkeys, mem_append, mem_singleton, LawfulEqCmp.compare_eq_iff_eq]
          tauto

/-- The least set of keys that contains the dependencies of the root and of `bazel_tools`, as they
are selected, and those of its members. -/
inductive Required (rootDeps : List BazelDep) (discovered : DiscoveredBcrModules) :
    ModuleKey → Prop where
  | root {dep : BazelDep} {version : String} (hdep : dep ∈ rootDeps)
      (hsel : IsSelected discovered.keys dep.name version) :
      Required rootDeps discovered (dep.name, version)
  | tools {version : String} (hsel : IsSelected discovered.keys "bazel_tools" version) :
      Required rootDeps discovered ("bazel_tools", version)
  | dep {key : ModuleKey} {module : DiscoveredBcrModule} {dep : BazelDep} {version : String}
      (h : Required rootDeps discovered key) (hmodule : discovered[key]? = some module)
      (hdep : dep ∈ module.deps) (hsel : IsSelected discovered.keys dep.name version) :
      Required rootDeps discovered (dep.name, version)

theorem Required.isSelected (h : Required rootDeps discovered key) :
    IsSelected discovered.keys key.1 key.2 := by
  cases h <;> assumption

theorem reachable_iff_required (hsel : ∀ name version, selected[name]? = some version ↔
      IsSelected discovered.keys name version) (key : ModuleKey) :
    Search.Reachable (· ∈ initialVisit selected rootDeps) (successors discovered selected) key ↔
      Required rootDeps discovered key := by
  constructor
  · intro h
    induction h with
    | @root key h =>
      obtain ⟨name, version⟩ := key
      obtain ⟨⟨dep, hdep, rfl⟩ | rfl, hv⟩ := mem_initialVisit.mp h
      · exact .root hdep ((hsel _ _).mp hv)
      · exact .tools ((hsel _ _).mp hv)
    | @step key key' _ hmem ih =>
      obtain ⟨name, version⟩ := key'
      cases hmodule : discovered[key]? with
      | none =>
        rw [successors, hmodule] at hmem
        cases hmem
      | some module =>
        rw [successors, hmodule] at hmem
        obtain ⟨dep, hdep, rfl, hv⟩ := mem_selectedDeps.mp hmem
        exact .dep ih hmodule hdep ((hsel _ _).mp hv)
  · intro h
    induction h with
    | root hdep h =>
      exact .root (mem_initialVisit.mpr ⟨.inl ⟨_, hdep, rfl⟩, (hsel _ _).mpr h⟩)
    | tools h => exact .root (mem_initialVisit.mpr ⟨.inr rfl, (hsel _ _).mpr h⟩)
    | dep _ hmodule hdep h ih =>
      refine .step ih ?_
      rw [successors, hmodule]
      exact mem_selectedDeps.mpr ⟨_, hdep, rfl, (hsel _ _).mpr h⟩

theorem bfs_visitBound
    (hsel : ∀ name version, selected[name]? = some version → (name, version) ∈ discovered)
    (rootDeps : List BazelDep) :
    ∃ order, Search.bfs (successors discovered selected) (visitBound discovered selected rootDeps)
      (initialVisit selected rootDeps) [] = some order := by
  have nodup : discovered.keys.Nodup := TreeMap.nodup_keys
  refine Search.bfs_exists discovered.keys.toFinset (fun key _ key' hmem => ?_)
    (fun key hkey => ?_) ?_
  · cases hmodule : discovered[key]? with
    | none =>
      rw [successors, hmodule] at hmem
      cases hmem
    | some module =>
      rw [successors, hmodule] at hmem
      obtain ⟨_, -, -, hv⟩ := mem_selectedDeps.mp hmem
      exact mem_toFinset.mpr (TreeMap.mem_keys.mpr (hsel _ _ hv))
  · exact mem_toFinset.mpr (TreeMap.mem_keys.mpr (hsel _ _ (mem_initialVisit.mp hkey).2))
  · rw [toFinset_nil, Finset.sdiff_empty, sum_toFinset _ nodup, visitBound]
    exact Nat.lt_succ_self _

/-- The dependency-first order lists every selected key once, and dependencies first. -/
theorem bzlmodSelectedKeysDependencyFirst_spec (discovered : DiscoveredBcrModules)
    (rootDeps : List BazelDep) (selected : TreeMap String String)
    (selectedKeys : TreeSet ModuleKey) :
    ∃ order, bzlmodSelectedKeysDependencyFirst discovered rootDeps selected selectedKeys =
        .ok order ∧ order.Nodup ∧ (∀ key, key ∈ order ↔ key ∈ selectedKeys) ∧
      Search.Ordered selectedKeys.contains (successors discovered selected) order := by
  have hcard : (selectedKeys.toList.toFinset \ ([] : List ModuleKey).toFinset).card <
      selectedKeys.toList.length + 1 :=
    Nat.lt_succ_of_le ((Finset.card_le_card Finset.sdiff_subset).trans (toFinset_card_le _))
  obtain ⟨⟨entered, order⟩, hrun, ⟨new, horder, hnodup, hnew, hmem⟩, hroots, hordered⟩ :=
    @Search.postorders_spec ModuleKey _ selectedKeys.contains (successors discovered selected)
      selectedKeys.toList.toFinset
      (fun key hkey => mem_toFinset.mpr (TreeSet.mem_toList.mpr hkey)) _
      (selectedDeps selected rootDeps ++ selectedKeys.toList) ([], []) hcard
  subst horder
  refine ⟨order, ?_, hnodup, fun key => ⟨fun hk => (hnew key hk).2, fun hk => ?_⟩,
    hordered (by simp [Search.OpenReach]) (by simp [Search.Ordered])⟩
  · rw [bzlmodSelectedKeysDependencyFirst, hrun]
  · have hin := hroots key (mem_append_right _ (TreeSet.mem_toList.mpr hk)) hk
    exact ((hmem key).mp hin).resolve_left not_mem_nil

/-- **Dependencies first**: a selected dependency comes before the module, unless the module can be
reached from it. -/
theorem dependency_first (discovered : DiscoveredBcrModules) (rootDeps : List BazelDep)
    (selected : TreeMap String String) (selectedKeys : TreeSet ModuleKey) :
    ∃ order, bzlmodSelectedKeysDependencyFirst discovered rootDeps selected selectedKeys =
        .ok order ∧ order.Nodup ∧ ∀ u ∈ selectedKeys, ∀ v ∈ selectedKeys,
      v ∈ successors discovered selected u →
      ¬ Search.Reaches selectedKeys.contains (successors discovered selected) v u →
        ∃ before between after, order = before ++ v :: (between ++ u :: after) := by
  obtain ⟨order, hrun, hnodup, hmem, hordered⟩ :=
    bzlmodSelectedKeysDependencyFirst_spec discovered rootDeps selected selectedKeys
  refine ⟨order, hrun, hnodup, fun u hu v hv hdep hreach => ?_⟩
  obtain ⟨before, after, rfl⟩ := mem_iff_append.mp ((hmem u).mpr hu)
  obtain ⟨first, between, rfl⟩ := mem_iff_append.mp
    ((hordered before u after rfl v hdep hv).resolve_right hreach)
  exact ⟨first, between, after, by rw [append_assoc, cons_append]⟩

/-! ## The result -/

/-- The keys after the built-in module has been added. -/
def withBuiltin (builtin : DiscoveredBcrModule) (discovered : DiscoveredBcrModules) :
    DiscoveredBcrModules :=
  discovered.insert (builtin.dep.name, builtin.dep.version) builtin

/-- **The selection.** For parseable versions it succeeds; the selected keys are the least set that
contains the dependencies of the root and `bazel_tools` and is closed under dependencies, no name
has two of them, and both orders list each once. -/
theorem select_bzlmod_modules_spec (rootDeps : List BazelDep) (builtin : DiscoveredBcrModule)
    (discovered : DiscoveredBcrModules)
    (hp : ∀ key ∈ withBuiltin builtin discovered, Parseable key.2) :
    ∃ result, selectBzlmodModules rootDeps builtin discovered = .ok result ∧
      result.discovered = withBuiltin builtin discovered ∧
      (∀ key, key ∈ result.selectedKeys ↔ Required rootDeps (withBuiltin builtin discovered) key) ∧
      (∀ key ∈ result.selectedKeys, ∀ key' ∈ result.selectedKeys, key.1 = key'.1 → key = key') ∧
      (result.selectedKeysInBfsOrder.Nodup ∧
        result.selectedKeysInBfsOrder.Perm result.selectedKeys.toList) ∧
      result.selectedKeysInDependencyOrder.Nodup ∧
        result.selectedKeysInDependencyOrder.Perm result.selectedKeys.toList := by
  obtain ⟨selected, hversions, hsel⟩ := selectVersions_spec _ hp
  have hmem : ∀ name version, selected[name]? = some version →
      (name, version) ∈ withBuiltin builtin discovered := fun name version h =>
    TreeMap.mem_keys.mp ((hsel name version).mp h).1
  obtain ⟨bfsOrder, hbfs⟩ := bfs_visitBound hmem rootDeps
  have hempty : ∀ key : ModuleKey, key ∈ (∅ : TreeSet ModuleKey) ↔ key ∈ [] := by simp
  obtain ⟨keys, hvisit, hkeys⟩ := visitSelected_eq_bfs hmem
    (fun key hkey => hmem _ _ (mem_initialVisit.mp hkey).2) hempty hbfs
  obtain ⟨order, hdfs, hnodup, horder, -⟩ := bzlmodSelectedKeysDependencyFirst_spec
    (withBuiltin builtin discovered) rootDeps selected keys
  have hreq : ∀ key, key ∈ keys ↔ Required rootDeps (withBuiltin builtin discovered) key :=
    fun key => by
      rw [hkeys, Search.mem_bfs_iff hbfs, reachable_iff_required hsel]
  have hlist : keys.toList.Nodup := TreeSet.distinct_toList.imp fun hne heq =>
    hne (LawfulEqCmp.compare_eq_iff_eq.mpr heq)
  have hbfsNodup : bfsOrder.Nodup := Search.nodup_bfs hbfs nodup_nil
  refine ⟨⟨withBuiltin builtin discovered, keys, bfsOrder, order,
    bzlmodCanonicalRepoNamesByKey keys⟩, ?_, rfl, hreq, ?_, ⟨hbfsNodup, ?_⟩, hnodup, ?_⟩
  · unfold withBuiltin at hversions hvisit hdfs
    simp only [selectBzlmodModules, bind, Except.bind, hversions, hvisit, hdfs, withBuiltin]
  · rintro ⟨name, v⟩ hk ⟨_, v'⟩ hk' rfl
    have hp' : ∀ key ∈ (withBuiltin builtin discovered).keys, Parseable key.2 := fun key hkey =>
      hp key (TreeMap.mem_keys.mp hkey)
    exact Prod.ext rfl (((hreq _).mp hk).isSelected.unique hp' ((hreq _).mp hk').isSelected)
  · refine (perm_ext_iff_of_nodup hbfsNodup hlist).mpr fun key => ?_
    rw [TreeSet.mem_toList, hkeys]
  · refine (perm_ext_iff_of_nodup hnodup hlist).mpr fun key => ?_
    rw [TreeSet.mem_toList, horder]

/-- Two versions of `a`, the second of which depends on `b`, which depends on `a` again. -/
def cyclicModules : DiscoveredBcrModules :=
  TreeMap.empty.insert ("a", "1.0") ⟨⟨"a", "1.0"⟩, []⟩
    |>.insert ("a", "1.1") ⟨⟨"a", "1.1"⟩, [⟨"b", "2"⟩]⟩
    |>.insert ("b", "2") ⟨⟨"b", "2"⟩, [⟨"a", "1.0"⟩]⟩

def bazelTools : DiscoveredBcrModule := ⟨⟨"bazel_tools", ""⟩, []⟩

theorem select_bzlmod_modules_cyclic :
    (∀ key ∈ (withBuiltin bazelTools cyclicModules).keys, Parseable key.2) ∧
      ∃ result, selectBzlmodModules [⟨"a", "1.0"⟩] bazelTools cyclicModules = .ok result ∧
        result.selectedKeysInDependencyOrder.Nodup ∧
        result.selectedKeysInBfsOrder = [("a", "1.1"), ("bazel_tools", ""), ("b", "2")] := by
  have hp : ∀ key ∈ (withBuiltin bazelTools cyclicModules).keys, Parseable key.2 := by decide
  refine ⟨hp, ?_⟩
  obtain ⟨result, hresult, -, -, -, -, hnodup, -⟩ := select_bzlmod_modules_spec [⟨"a", "1.0"⟩]
    bazelTools cyclicModules fun key hkey => hp key (TreeMap.mem_keys.mpr hkey)
  have hrun : (selectBzlmodModules [⟨"a", "1.0"⟩] bazelTools cyclicModules).map
      (·.selectedKeysInBfsOrder) = .ok [("a", "1.1"), ("bazel_tools", ""), ("b", "2")] := rfl
  rw [hresult] at hrun
  exact ⟨result, hresult, hnodup, Except.ok.inj hrun⟩

end Bz.Bzlmod
