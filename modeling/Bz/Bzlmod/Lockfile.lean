import Bz.Bzlmod.Selection
import Bz.Encoding
import Bz.Json

/-!
# The lockfile

`bzlmod_lockfile_data_from_str` and `bzlmod_write_back_lockfile` of
`bz_common/src/bazel/bzlmod/lockfile.rs`: the reader takes the hashes of registry files, which may
be absent, the yanked versions and what Bazel has recorded of extensions; the writer adds new hashes
and yanked versions to the file and carries the other fields through as they are.

Principal results: `write_back_lockfile_spec`, when the reader accepts what is written;
`null_hash_drops_hashes`: one absent hash in a file drops all of them.
-/

namespace Bz.Bzlmod.Lockfile

open Std (ExtTreeMap ExtTreeSet TransCmp LawfulEqCmp)
open Json List Option

/-! ## Reading -/

/-- What the reader takes from the file. -/
structure BzlmodModuleLockfileData where
  registryFileHashes : ExtTreeMap String (Option String)
  selectedYankedVersions : ExtTreeMap ModuleKey String
  extensionGeneratedRepos : ExtTreeMap String (ExtTreeSet String)
  extensionFacts : ExtTreeSet String

/-- `BZLMOD_LOCKFILE_NOT_FOUND_MARKER`. -/
def notFoundMarker : String := "not found"

def bzlmodLockfileVersion : Nat := 26

def emptyBzlmodLockfileData : BzlmodModuleLockfileData := ⟨∅, ∅, ∅, ∅⟩

/-- `rsplit_once('@')`. -/
def rsplitOnceAt (key : String) : Option ModuleKey :=
  (Encoding.rsplitOnce '@' key.toList).map fun (name, version) => (.ofList name, .ofList version)

/-- A map that may be missing. -/
def readField {α : Type} (read : Value → Option α) : Option Value →
    Option (ExtTreeMap String α)
  | none => some ∅
  | some value => readMap read value

/-- `BzlmodModuleLockfileExtension`: the names of its repositories. -/
def readExtension (value : Value) : Option (List String) := do
  match ← readRecord ["generatedRepoSpecs"] value with
  | [specs] => (readField some specs).map (·.keys)
  | _ => none

/-- The hashes of the files that were found. -/
def foundHashes (hashes : ExtTreeMap String (Option String)) : ExtTreeMap String (Option String) :=
  hashes.map fun _ hash => hash.filter (· ≠ notFoundMarker)

/-- The versions of the keys that have one. -/
def yankedVersions (yanked : ExtTreeMap String String) : ExtTreeMap ModuleKey String :=
  ExtTreeMap.ofList <| yanked.toList.filterMap fun (key, info) =>
    (rsplitOnceAt key).map fun moduleKey => (moduleKey, info)

def generatedRepos (extensions : ExtTreeMap String (ExtTreeMap String (List String))) :
    ExtTreeMap String (ExtTreeSet String) :=
  extensions.toList.foldl (fun repos (key, evaluations) => evaluations.toList.foldl
    (fun repos (_, names) => repos.insert key ((repos.getD key ∅).insertMany names)) repos) ∅

/-- The fields of `BzlmodModuleLockfile`. -/
def recordFields : List String :=
  ["registryFileHashes", "selectedYankedVersions", "moduleExtensions", "facts"]

/-- `bzlmod_lockfile_data_from_str`; `none` is a parse error. -/
def bzlmodLockfileDataFromStr (contents : JsonText) : Option BzlmodModuleLockfileData := do
  match ← readRecord recordFields contents.value with
  | [hashes, yanked, extensions, facts] =>
    let hashes ← readField readOptString hashes
    let yanked ← readField readString yanked
    let extensions ← readField (readMap readExtension) extensions
    let facts ← readField some facts
    some ⟨foundHashes hashes, yankedVersions yanked, generatedRepos extensions, .ofList facts.keys⟩
  | _ => none

/-- `bzlmod_lockfile_data`, after the file has been read, if there is one. -/
def bzlmodLockfileData : Option JsonText → Option BzlmodModuleLockfileData
  | none => some emptyBzlmodLockfileData
  | some contents => bzlmodLockfileDataFromStr contents

/-! ## Writing back -/

/-- The top-level fields of a text as they stand; none if the text is not an object. -/
def rawFields (existing : Option JsonText) : ExtTreeMap String Value :=
  (existing.bind fun text => readMap some text.value).getD ∅

/-- A map of strings in a field; empty if it cannot be read as one. -/
def stringField (fields : ExtTreeMap String Value) (name : String) : ExtTreeMap String String :=
  (fields[name]?.bind (readMap readString)).getD ∅

/-- `parse::<u64>()` of a raw value. -/
def parseU64 : Value → Option Nat
  | .number text =>
    if text.toList ≠ [] ∧ text.toList.all Char.isDigit ∧ Nat.ofDigitChars 10 text.toList 0 < 2 ^ 64
    then some (Nat.ofDigitChars 10 text.toList 0) else none
  | _ => none

def bzlmodLockfileStringMapJson (map : ExtTreeMap String String) : Value :=
  objectOf "  " (map.toList.map fun e => (e.1, .string (printString e.2)))

def bzlmodLockfileJson (fields : List (String × Value)) : JsonText := ⟨"", objectOf "" fields, "\n"⟩

variable (existing : ExtTreeMap String Value) {value : Value}

def mergedHashes
    (registryFileHashes : ExtTreeMap String (Option String)) : ExtTreeMap String String :=
  (stringField existing "registryFileHashes").insertMany
    (registryFileHashes.toList.map fun e => (e.1, e.2.getD notFoundMarker))

def yankedKey (key : ModuleKey) : String := key.1 ++ "@" ++ key.2

def mergedYanked
    (selectedYankedVersions : ExtTreeMap ModuleKey String) : ExtTreeMap String String :=
  (stringField existing "selectedYankedVersions").insertMany
    (selectedYankedVersions.toList.map fun e => (yankedKey e.1, e.2))

/-- The fields that are written in a fixed order before the others. -/
def knownFields : List String :=
  ["lockFileVersion", "registryFileHashes", "selectedYankedVersions", "moduleExtensions", "facts"]

/-- The fields in the order in which they are written. -/
def lockfileFields (registryFileHashes : ExtTreeMap String (Option String))
    (selectedYankedVersions : ExtTreeMap ModuleKey String) : List (String × Value) :=
  let version := (existing["lockFileVersion"]?.bind parseU64).getD bzlmodLockfileVersion
  [("lockFileVersion", .number version.repr),
    ("registryFileHashes",
      bzlmodLockfileStringMapJson (mergedHashes existing registryFileHashes)),
    ("selectedYankedVersions",
      bzlmodLockfileStringMapJson (mergedYanked existing selectedYankedVersions)),
    ("moduleExtensions", existing.getD "moduleExtensions" (.object "" [])),
    ("facts", existing.getD "facts" (.object "" []))] ++
  (knownFields.foldl ExtTreeMap.erase existing).toList

/-- `bzlmod_write_back_lockfile`: the text that the file has afterwards. -/
def bzlmodWriteBackLockfile (existing : Option JsonText)
    (registryFileHashes : ExtTreeMap String (Option String))
    (selectedYankedVersions : ExtTreeMap ModuleKey String) : JsonText :=
  bzlmodLockfileJson
    (lockfileFields (rawFields existing) registryFileHashes selectedYankedVersions)

/-! ## The fields that are written -/

section Fields

variable (existing : ExtTreeMap String Value)
  (registryFileHashes : ExtTreeMap String (Option String))
  (selectedYankedVersions : ExtTreeMap ModuleKey String) {name : String}

/-- The fields other than the known ones are left as they are. -/
theorem getElem?_foldl_erase (names : List String) :
    (names.foldl ExtTreeMap.erase existing)[name]? =
      if name ∈ names then none else existing[name]? := by
  induction names generalizing existing with
  | nil => simp
  | cons n names ih =>
    rw [foldl_cons, ih, ExtTreeMap.getElem?_erase]
    by_cases hn : n = name
    · simp [hn]
    · simp [hn, Ne.symm hn]

theorem nodup_lockfileFields :
    ((lockfileFields existing registryFileHashes selectedYankedVersions).map (·.1)).Nodup := by
  rw [lockfileFields, map_append, nodup_append]
  refine ⟨?_, ?_, ?_⟩
  · change knownFields.Nodup
    decide
  · rw [ExtTreeMap.map_fst_toList_eq_keys]
    exact ExtTreeMap.nodup_keys
  · intro a ha b hb
    rw [ExtTreeMap.map_fst_toList_eq_keys, ExtTreeMap.mem_keys,
      ExtTreeMap.mem_iff_isSome_getElem?, getElem?_foldl_erase] at hb
    rintro rfl
    rw [if_pos (show a ∈ knownFields from ha)] at hb
    cases hb

/-- What is read back of the fields. -/
def writtenFields : ExtTreeMap String Value :=
  ExtTreeMap.ofList (lockfileFields existing registryFileHashes selectedYankedVersions)

theorem getElem?_writtenFields_of_mem
    (h : (name, value) ∈ lockfileFields existing registryFileHashes selectedYankedVersions) :
    (writtenFields existing registryFileHashes selectedYankedVersions)[name]? = some value := by
  refine ExtTreeMap.getElem?_ofList_of_mem (compare_eq_iff_eq.mpr rfl) ?_ h
  have hnodup := nodup_lockfileFields existing registryFileHashes selectedYankedVersions
  rw [List.Nodup, pairwise_map] at hnodup
  exact hnodup.imp fun hne heq => hne (compare_eq_iff_eq.mp heq)

theorem getElem?_writtenFields_version :
    (writtenFields existing registryFileHashes selectedYankedVersions)["lockFileVersion"]? =
      some (.number
        ((existing["lockFileVersion"]?.bind parseU64).getD bzlmodLockfileVersion).repr) :=
  getElem?_writtenFields_of_mem _ _ _ (by simp [lockfileFields])

theorem getElem?_writtenFields_hashes :
    (writtenFields existing registryFileHashes selectedYankedVersions)["registryFileHashes"]? =
      some (bzlmodLockfileStringMapJson (mergedHashes existing registryFileHashes)) :=
  getElem?_writtenFields_of_mem _ _ _ (by simp [lockfileFields])

theorem getElem?_writtenFields_yanked :
    (writtenFields existing registryFileHashes selectedYankedVersions)["selectedYankedVersions"]? =
      some (bzlmodLockfileStringMapJson (mergedYanked existing selectedYankedVersions)) :=
  getElem?_writtenFields_of_mem _ _ _ (by simp [lockfileFields])

/-- A field of an extension's results, or an empty object if there was none. -/
theorem getElem?_writtenFields_kept (h : name = "moduleExtensions" ∨ name = "facts") :
    (writtenFields existing registryFileHashes selectedYankedVersions)[name]? =
      some (existing.getD name (.object "" [])) := by
  refine getElem?_writtenFields_of_mem _ _ _ ?_
  rcases h with rfl | rfl <;> simp [lockfileFields]

theorem getElem?_writtenFields_other (h : name ∉ knownFields) :
    (writtenFields existing registryFileHashes selectedYankedVersions)[name]? =
      existing[name]? := by
  have hrest : (knownFields.foldl ExtTreeMap.erase existing)[name]? = existing[name]? := by
    rw [getElem?_foldl_erase, if_neg h]
  cases hvalue : existing[name]? with
  | some value =>
    refine getElem?_writtenFields_of_mem _ _ _ (mem_append_right _ ?_)
    rw [ExtTreeMap.mem_toList_iff_getElem?_eq_some, hrest, hvalue]
  | none =>
    refine ExtTreeMap.getElem?_ofList_of_contains_eq_false (Bool.eq_false_iff.mpr fun hmem => ?_)
    rw [contains_iff_mem, lockfileFields, map_append, mem_append] at hmem
    rcases hmem with hmem | hmem
    · exact h hmem
    · rw [ExtTreeMap.map_fst_toList_eq_keys, ExtTreeMap.mem_keys,
        ExtTreeMap.mem_iff_isSome_getElem?, hrest, hvalue] at hmem
      cases hmem

end Fields

theorem readMap_stringMapJson (map : ExtTreeMap String String) :
    readMap readString (bzlmodLockfileStringMapJson map) = some map := by
  have hprint : ∀ s, readString ((fun s => Value.string (printString s)) s) = some s := fun _ => rfl
  exact readMap_objectOf hprint "  " map

variable {n : Nat} {fields : ExtTreeMap String Value} {κ ν : Type} [Ord κ]

theorem parseU64_number (hn : n < 2 ^ 64) : parseU64 (.number n.repr) = some n := by
  have hdigits : (Nat.toDigits 10 n).all Char.isDigit = true :=
    all_eq_true.mpr fun c hc => Nat.isDigit_of_mem_toDigits (by decide) (by decide) hc
  rw [parseU64, Nat.toList_repr, Nat.ofDigitChars_ten_toDigits,
    if_pos ⟨Nat.toDigits_ne_nil, hdigits, hn⟩]

theorem parseU64_lt (h : parseU64 value = some n) : n < 2 ^ 64 := by
  cases value with
  | number text =>
    rw [parseU64] at h
    split at h
    · next hcond =>
      cases h
      exact hcond.2.2
    · cases h
  | _ => cases h

/-! ## The second run -/

theorem insertMany_insertMany [TransCmp (compare : κ → κ → Ordering)]
    [LawfulEqCmp (compare : κ → κ → Ordering)] (t : ExtTreeMap κ ν) (l : List (κ × ν)) :
    (t.insertMany l).insertMany l = t.insertMany l := by
  classical
  refine ExtTreeMap.ext_getElem? fun k => ?_
  rw [ExtTreeMap.getElem?_insertMany_list, ExtTreeMap.getElem?_insertMany_list, ← Option.or_assoc,
    Option.or_self]

variable {registryFileHashes : ExtTreeMap String (Option String)}
  {selectedYankedVersions : ExtTreeMap ModuleKey String}

/-- The fields that are written are written again. -/
theorem lockfileFields_writtenFields :
    lockfileFields (writtenFields existing registryFileHashes selectedYankedVersions)
        registryFileHashes selectedYankedVersions =
      lockfileFields existing registryFileHashes selectedYankedVersions := by
  have hversion : ((writtenFields existing registryFileHashes selectedYankedVersions)[
      "lockFileVersion"]?.bind parseU64).getD bzlmodLockfileVersion =
      (existing["lockFileVersion"]?.bind parseU64).getD bzlmodLockfileVersion := by
    rw [getElem?_writtenFields_version, bind_some, parseU64_number]
    · rfl
    · cases hparse : existing["lockFileVersion"]?.bind parseU64 with
      | none => decide
      | some n =>
        obtain ⟨value, -, hvalue⟩ := bind_eq_some_iff.mp hparse
        exact parseU64_lt hvalue
  have hhashes : mergedHashes (writtenFields existing registryFileHashes selectedYankedVersions)
      registryFileHashes = mergedHashes existing registryFileHashes := by
    rw [mergedHashes, stringField, getElem?_writtenFields_hashes, bind_some,
      readMap_stringMapJson, getD_some, mergedHashes, insertMany_insertMany]
  have hyanked : mergedYanked (writtenFields existing registryFileHashes selectedYankedVersions)
      selectedYankedVersions = mergedYanked existing selectedYankedVersions := by
    rw [mergedYanked, stringField, getElem?_writtenFields_yanked, bind_some,
      readMap_stringMapJson, getD_some, mergedYanked, insertMany_insertMany]
  have hkept : ∀ name, name = "moduleExtensions" ∨ name = "facts" →
      (writtenFields existing registryFileHashes selectedYankedVersions).getD name (.object "" []) =
        existing.getD name (.object "" []) := fun name hname => by
    rw [ExtTreeMap.getD_eq_getD_getElem?, getElem?_writtenFields_kept _ _ _ hname, getD_some]
  have hrest : knownFields.foldl ExtTreeMap.erase
      (writtenFields existing registryFileHashes selectedYankedVersions) =
        knownFields.foldl ExtTreeMap.erase existing := by
    refine ExtTreeMap.ext_getElem? fun name => ?_
    rw [getElem?_foldl_erase, getElem?_foldl_erase]
    split
    · rfl
    · next hname => rw [getElem?_writtenFields_other _ _ _ hname]
  rw [lockfileFields, lockfileFields, hversion, hhashes, hyanked, hkept _ (.inl rfl),
    hkept _ (.inr rfl), hrest]

/-! ## What the reader gets -/

/-- The data in the fields of a file. -/
def dataOfFields (fields : ExtTreeMap String Value) : Option BzlmodModuleLockfileData := do
  let hashes ← readField readOptString fields["registryFileHashes"]?
  let yanked ← readField readString fields["selectedYankedVersions"]?
  let extensions ← readField (readMap readExtension) fields["moduleExtensions"]?
  let facts ← readField some fields["facts"]?
  some ⟨foundHashes hashes, yankedVersions yanked, generatedRepos extensions, .ofList facts.keys⟩

variable {data : BzlmodModuleLockfileData}

theorem rsplitOnceAt_eq_some_iff {key : String} {moduleKey : ModuleKey} :
    rsplitOnceAt key = some moduleKey ↔ key = yankedKey moduleKey ∧ '@' ∉ moduleKey.2.toList := by
  have hkey : key = yankedKey moduleKey ↔
      key.toList = moduleKey.1.toList ++ '@' :: moduleKey.2.toList := by
    rw [← String.toList_inj]
    simp [yankedKey]
  rw [hkey, ← Encoding.rsplitOnce_eq_some_iff, rsplitOnceAt, map_eq_some_iff]
  constructor
  · rintro ⟨⟨name, version⟩, hsplit, rfl⟩
    simpa using hsplit
  · intro hsplit
    exact ⟨_, hsplit, by simp⟩

theorem getElem?_yankedVersions (yanked : ExtTreeMap String String) (moduleKey : ModuleKey) :
    (yankedVersions yanked)[moduleKey]? =
      if '@' ∈ moduleKey.2.toList then none else yanked[yankedKey moduleKey]? := by
  have hmem : ∀ info, (moduleKey, info) ∈ yanked.toList.filterMap (fun (key, info) =>
      (rsplitOnceAt key).map fun moduleKey => (moduleKey, info)) ↔
      '@' ∉ moduleKey.2.toList ∧ yanked[yankedKey moduleKey]? = some info := by
    intro info
    simp only [mem_filterMap, map_eq_some_iff, rsplitOnceAt_eq_some_iff]
    constructor
    · rintro ⟨⟨key, info'⟩, hin, moduleKey', ⟨rfl, hplain⟩, heq⟩
      cases heq
      exact ⟨hplain, ExtTreeMap.mem_toList_iff_getElem?_eq_some.mp hin⟩
    · rintro ⟨hplain, hin⟩
      exact ⟨(yankedKey moduleKey, info), ExtTreeMap.mem_toList_iff_getElem?_eq_some.mpr hin,
        moduleKey, ⟨rfl, hplain⟩, rfl⟩
  have hdistinct : (yanked.toList.filterMap fun (key, info) =>
      (rsplitOnceAt key).map fun moduleKey => (moduleKey, info)).Pairwise
        fun a b => ¬ compare a.1 b.1 = .eq := by
    rw [pairwise_filterMap]
    refine ExtTreeMap.distinct_keys_toList.imp fun {a b} hne p hp q hq heq => ?_
    obtain ⟨k, hk, rfl⟩ := map_eq_some_iff.mp hp
    obtain ⟨k', hk', rfl⟩ := map_eq_some_iff.mp hq
    cases LawfulEqCmp.compare_eq_iff_eq.mp heq
    refine hne (compare_eq_iff_eq.mpr ?_)
    rw [(rsplitOnceAt_eq_some_iff.mp hk).1, (rsplitOnceAt_eq_some_iff.mp hk').1]
  cases hinfo : if '@' ∈ moduleKey.2.toList then none else yanked[yankedKey moduleKey]? with
  | some info =>
    split at hinfo
    · cases hinfo
    · next hplain =>
      exact ExtTreeMap.getElem?_ofList_of_mem (LawfulEqCmp.compare_eq_iff_eq.mpr rfl) hdistinct
        ((hmem info).mpr ⟨hplain, hinfo⟩)
  | none =>
    refine ExtTreeMap.getElem?_ofList_of_contains_eq_false (Bool.eq_false_iff.mpr fun hin => ?_)
    obtain ⟨⟨k, info⟩, hpair, rfl⟩ := mem_map.mp (contains_iff_mem.mp hin)
    obtain ⟨hplain, hget⟩ := (hmem info).mp hpair
    rw [if_neg hplain, hget] at hinfo
    cases hinfo

section InsertMany

variable [TransCmp (compare : κ → κ → Ordering)] [LawfulEqCmp (compare : κ → κ → Ordering)]
  (t : ExtTreeMap String String) (m : ExtTreeMap κ ν) {f : κ → String} {g : ν → String}

theorem fst_mem_of_mem_toList {e : κ × ν} (he : e ∈ m.toList) : e.1 ∈ m :=
  ExtTreeMap.mem_keys.mp (ExtTreeMap.map_fst_toList_eq_keys (t := m) ▸ mem_map_of_mem he)

theorem getElem?_insertMany_map (hf : ∀ k ∈ m, ∀ k' ∈ m, f k = f k' → k = k') {k : κ} {v : ν}
    (hk : m[k]? = some v) :
    (t.insertMany (m.toList.map fun e => (f e.1, g e.2)))[f k]? = some (g v) := by
  have hdistinct : (m.toList.map fun e => (f e.1, g e.2)).Pairwise
      fun a b => ¬ compare a.1 b.1 = .eq := by
    rw [pairwise_map]
    refine ExtTreeMap.distinct_keys_toList.imp_of_mem fun {a b} ha hb hne heq => hne ?_
    exact LawfulEqCmp.compare_eq_iff_eq.mpr (hf a.1 (fst_mem_of_mem_toList m ha) b.1
      (fst_mem_of_mem_toList m hb) (compare_eq_iff_eq.mp heq))
  exact ExtTreeMap.getElem?_insertMany_list_of_mem (compare_eq_iff_eq.mpr rfl) hdistinct
    (mem_map_of_mem (f := fun e : κ × ν => (f e.1, g e.2))
      (ExtTreeMap.mem_toList_iff_getElem?_eq_some.mpr hk))

theorem getElem?_insertMany_map_of_ne {name : String} (hname : ∀ k ∈ m, f k ≠ name) :
    (t.insertMany (m.toList.map fun e => (f e.1, g e.2)))[name]? = t[name]? := by
  refine ExtTreeMap.getElem?_insertMany_list_of_contains_eq_false
    (Bool.eq_false_iff.mpr fun hmem => ?_)
  obtain ⟨_, hpair, rfl⟩ := mem_map.mp (contains_iff_mem.mp hmem)
  obtain ⟨e, he, rfl⟩ := mem_map.mp hpair
  exact hname e.1 (fst_mem_of_mem_toList m he) rfl

end InsertMany

/-! ## Preservation and convergence -/

/-- A text that is an array, whose elements are read as the fields. -/
def IsArray (old : Option JsonText) : Prop :=
  ∃ text ∈ old, ∃ space elements, text.value = .array space elements

/-- The fields of a file as the reader takes them. -/
def fieldsRead : Option JsonText → ExtTreeMap String Value
  | none => ∅
  | some ⟨_, .array _ elements, _⟩ =>
    ExtTreeMap.ofList (recordFields.zip (elements.map fun e => e.2.1))
  | some ⟨_, value, _⟩ => (readMap some value).getD ∅

section Read

variable {old : Option JsonText}

/-- The writer finds the same fields, or none. -/
theorem rawFields_eq (old : Option JsonText) :
    ¬ IsArray old ∧ rawFields old = fieldsRead old ∨ IsArray old ∧ rawFields old = ∅ := by
  match old with
  | none => exact .inl ⟨nofun, rfl⟩
  | some ⟨before, value, after⟩ =>
    cases value with
    | array space elements => exact .inr ⟨⟨_, rfl, space, elements, rfl⟩, rfl⟩
    | _ =>
      refine .inl ⟨?_, rfl⟩
      rintro ⟨text, htext, space, elements, hvalue⟩
      cases htext
      cases hvalue

theorem getElem?_fieldsRead_of_isArray (h : IsArray old) (hname : name ∉ recordFields) :
    (fieldsRead old)[name]? = none := by
  obtain ⟨⟨before, value, after⟩, rfl, space, elements, rfl⟩ := h
  refine ExtTreeMap.getElem?_ofList_of_contains_eq_false
    (Bool.eq_false_iff.mpr fun hmem => hname ?_)
  obtain ⟨entry, hentry, rfl⟩ := mem_map.mp (contains_iff_mem.mp hmem)
  exact (of_mem_zip hentry).1

theorem readRecord_array {space : String} {elements : List (String × Value × String)}
    {fields : List (Option Value)}
    (h : readRecord recordFields (.array space elements) = some fields) :
    fields = recordFields.map
      ((ExtTreeMap.ofList (recordFields.zip (elements.map fun e => e.2.1)) :
        ExtTreeMap String Value)[·]?) := by
  rw [readRecord] at h
  split at h
  · next hlength =>
    cases h
    obtain _ | ⟨a, _ | ⟨b, _ | ⟨c, _ | ⟨d, _ | ⟨e, elements⟩⟩⟩⟩⟩ := elements
    case cons.cons.cons.cons.cons =>
      have hle : elements.length + 5 ≤ 4 := hlength
      omega
    all_goals simp [recordFields, getElem?_ofList, List.range_succ]
  · cases h

/-- The reader finds its data in these fields. -/
theorem dataOfFields_fieldsRead (hread : bzlmodLockfileData old = some data) :
    dataOfFields (fieldsRead old) = some data := by
  match old with
  | none =>
    cases hread
    rfl
  | some ⟨before, value, after⟩ =>
    obtain ⟨fields, hfields, hdata⟩ := bind_eq_some_iff.mp hread
    cases value with
    | array space elements =>
      rw [readRecord_array hfields] at hdata
      exact hdata
    | object space members =>
      obtain ⟨t, ht, rfl⟩ := readRecord_object hfields
      have hraw : fieldsRead (some ⟨before, .object space members, after⟩) = t := by
        change (readMap some (.object space members)).getD ∅ = t
        rw [ht]
        rfl
      rw [hraw]
      exact hdata
    | _ => cases hfields

end Read

/-- What the file has to be like for these new entries: its hashes are strings or replaced, its
version is a number of 64 bits; an array has yanked versions only, all replaced; and the reader gets
the new entries back, which are neither the marker nor contain the separator. -/
structure Preservable (old : Option JsonText)
    (registryFileHashes : ExtTreeMap String (Option String))
    (selectedYankedVersions : ExtTreeMap ModuleKey String) : Prop where
  hashes : ∀ value, (fieldsRead old)["registryFileHashes"]? = some value →
    (¬ IsArray old ∧ ∃ map, readMap readString value = some map) ∨
      ∀ map, readMap readOptString value = some map → ∀ url ∈ map, url ∈ registryFileHashes
  found : ∀ url : String, registryFileHashes[url]? ≠ some (some notFoundMarker)
  yanked : IsArray old → ∀ key ∈ stringField (fieldsRead old) "selectedYankedVersions",
    ∃ moduleKey ∈ selectedYankedVersions, yankedKey moduleKey = key
  separated : ∀ key ∈ selectedYankedVersions, '@' ∉ key.2.toList
  version : ∀ value, (fieldsRead old)["lockFileVersion"]? = some value →
    ∃ n < 2 ^ 64, value = .number n.repr
  extensions : IsArray old → ∀ name value, name = "moduleExtensions" ∨ name = "facts" →
    (fieldsRead old)[name]? = some value → value = .object "" []

/-- The file is written back: the reader gets `data'` from it, with the new entries and the others
of `data`, the other fields are kept, and the next run changes nothing. -/
structure WrittenBack (old : Option JsonText)
    (registryFileHashes : ExtTreeMap String (Option String))
    (selectedYankedVersions : ExtTreeMap ModuleKey String) (data data' : BzlmodModuleLockfileData)
    (new : JsonText) : Prop where
  read : bzlmodLockfileDataFromStr new = some data'
  oldHashes : ∀ url : String, url ∉ registryFileHashes →
    data'.registryFileHashes[url]? = data.registryFileHashes[url]?
  newHashes : ∀ (url : String) (hash : Option String), registryFileHashes[url]? = some hash →
    data'.registryFileHashes[url]? = some hash
  oldYanked : ∀ key : ModuleKey, key ∉ selectedYankedVersions →
    data'.selectedYankedVersions[key]? = data.selectedYankedVersions[key]?
  newYanked : ∀ (key : ModuleKey) (info : String), selectedYankedVersions[key]? = some info →
    data'.selectedYankedVersions[key]? = some info
  oldYankedKeys : ∀ key : String,
    (∀ moduleKey ∈ selectedYankedVersions, yankedKey moduleKey ≠ key) →
    (stringField (rawFields (some new)) "selectedYankedVersions")[key]? =
      (stringField (fieldsRead old) "selectedYankedVersions")[key]?
  fields : ∀ (name : String) (value : Value), name ≠ "registryFileHashes" →
    name ≠ "selectedYankedVersions" → (fieldsRead old)[name]? = some value →
      (rawFields (some new))[name]? = some value
  again : (bzlmodWriteBackLockfile (some new) registryFileHashes selectedYankedVersions).render =
    new.render

/-- The hashes that the reader gets from a map of strings. -/
def readHashes (hashes : ExtTreeMap String String) : ExtTreeMap String (Option String) :=
  foundHashes (hashes.map fun _ hash => some hash)

theorem getElem?_readHashes (hashes : ExtTreeMap String String) (url : String) :
    (readHashes hashes)[url]? =
      hashes[url]?.map fun hash => (some hash).filter (· ≠ notFoundMarker) := by
  rw [readHashes, foundHashes, ExtTreeMap.getElem?_map, ExtTreeMap.getElem?_map, Option.map_map]
  rfl

theorem readField_getD {α : Type} (read : Value → Option α)
    (name : String) :
    readField read (some (fields.getD name (.object "" []))) = readField read fields[name]? := by
  rw [ExtTreeMap.getD_eq_getD_getElem?]
  cases fields[name]? with
  | none | some value => rfl

theorem exists_of_dataOfFields (hdata : dataOfFields fields = some data) :
    ∃ hashes extensions facts,
      readField readOptString fields["registryFileHashes"]? = some hashes ∧
      readField (readMap readExtension) fields["moduleExtensions"]? = some extensions ∧
      readField some fields["facts"]? = some facts ∧
      data = ⟨foundHashes hashes, yankedVersions (stringField fields "selectedYankedVersions"),
        generatedRepos extensions, .ofList facts.keys⟩ := by
  obtain ⟨hashes, hh, hdata⟩ := bind_eq_some_iff.mp hdata
  obtain ⟨yanked, hy, hdata⟩ := bind_eq_some_iff.mp hdata
  obtain ⟨extensions, he, hdata⟩ := bind_eq_some_iff.mp hdata
  obtain ⟨facts, hf, hdata⟩ := bind_eq_some_iff.mp hdata
  cases hdata
  refine ⟨hashes, extensions, facts, hh, he, hf, ?_⟩
  have hyank : yanked = stringField fields "selectedYankedVersions" := by
    rw [stringField]
    cases hvalue : fields["selectedYankedVersions"]? with
    | none =>
      rw [hvalue] at hy
      cases hy
      rfl
    | some value =>
      rw [hvalue, readField] at hy
      rw [bind_some, hy]
      rfl
  rw [hyank]

theorem dataOfFields_writtenFields
    {extensions : ExtTreeMap String (ExtTreeMap String (List String))}
    {facts : ExtTreeMap String Value}
    (he : readField (readMap readExtension) fields["moduleExtensions"]? = some extensions)
    (hf : readField some fields["facts"]? = some facts) :
    dataOfFields (writtenFields fields registryFileHashes selectedYankedVersions) =
      some ⟨readHashes (mergedHashes fields registryFileHashes),
        yankedVersions (mergedYanked fields selectedYankedVersions), generatedRepos extensions,
        .ofList facts.keys⟩ := by
  have hh := readMap_readOptString (readMap_stringMapJson (mergedHashes fields registryFileHashes))
  simp only [dataOfFields, getElem?_writtenFields_hashes, getElem?_writtenFields_yanked,
    getElem?_writtenFields_kept _ _ _ (.inl rfl), getElem?_writtenFields_kept _ _ _ (.inr rfl),
    readField_getD, he, hf]
  simp only [readField, hh, readMap_stringMapJson, bind_eq_bind, bind_some]
  rfl

theorem yankedKey_inj {key key' : ModuleKey} (hkey : '@' ∉ key.2.toList)
    (hkey' : '@' ∉ key'.2.toList) (h : yankedKey key = yankedKey key') : key = key' :=
  Option.some.inj (((rsplitOnceAt_eq_some_iff.mpr ⟨rfl, hkey⟩).symm.trans
    (congrArg rsplitOnceAt h)).trans (rsplitOnceAt_eq_some_iff.mpr ⟨rfl, hkey'⟩))

section Entries

variable {old : Option JsonText}

/-- The old hashes are there: the writer can read them, or all of them are replaced. -/
theorem oldHashes_iff {hashes : ExtTreeMap String (Option String)}
    (hh : readField readOptString (fieldsRead old)["registryFileHashes"]? = some hashes) :
    (∀ url : String, url ∉ registryFileHashes →
      (readHashes (mergedHashes (rawFields old) registryFileHashes))[url]? =
        (foundHashes hashes)[url]?) ↔
    ∀ value, (fieldsRead old)["registryFileHashes"]? = some value →
      (¬ IsArray old ∧ ∃ map, readMap readString value = some map) ∨
        ∀ map, readMap readOptString value = some map → ∀ url ∈ map, url ∈ registryFileHashes := by
  have hmerged {url : String} (hurl : url ∉ registryFileHashes) :
      (mergedHashes (rawFields old) registryFileHashes)[url]? =
        (stringField (rawFields old) "registryFileHashes")[url]? :=
    @getElem?_insertMany_map_of_ne String (Option String) _ _ _
      (stringField (rawFields old) "registryFileHashes") registryFileHashes id
      (·.getD notFoundMarker) url fun k hk (heq : k = url) => hurl (heq ▸ hk)
  -- hashes that the writer cannot read are there only if they are replaced
  have hlost (hnone : stringField (rawFields old) "registryFileHashes" = ∅) :
      (∀ url : String, url ∉ registryFileHashes →
        (readHashes (mergedHashes (rawFields old) registryFileHashes))[url]? =
          (foundHashes hashes)[url]?) ↔ ∀ url ∈ hashes, url ∈ registryFileHashes := by
    have hentry {url : String} (hurl : url ∉ registryFileHashes) :
        (readHashes (mergedHashes (rawFields old) registryFileHashes))[url]? =
          (foundHashes hashes)[url]? ↔ url ∉ hashes := by
      rw [getElem?_readHashes, hmerged hurl, hnone, foundHashes, ExtTreeMap.getElem?_map,
        ExtTreeMap.mem_iff_isSome_getElem?]
      cases hashes[url]? with
      | none | some hash => simp
    exact ⟨fun h url hin => by_contra fun hurl => (hentry hurl).mp (h url hurl) hin,
      fun h url hurl => (hentry hurl).mpr fun hin => hurl (h url hin)⟩
  cases hvalue : (fieldsRead old)["registryFileHashes"]? with
  | none =>
    rw [hvalue] at hh
    cases hh
    have hnone : stringField (rawFields old) "registryFileHashes" = ∅ := by
      obtain ⟨-, hraw⟩ | ⟨-, hraw⟩ := rawFields_eq old <;> simp [stringField, hraw, hvalue]
    simp [hlost hnone]
  | some value =>
    rw [hvalue, readField] at hh
    simp only [some.injEq, forall_eq', hh]
    by_cases hreads : ¬ IsArray old ∧ ∃ map, readMap readString value = some map
    · refine iff_of_true (fun url hurl => ?_) (.inl hreads)
      obtain ⟨harray, map, hmap⟩ := hreads
      obtain ⟨-, hraw⟩ | ⟨harray', -⟩ := rawFields_eq old
      · rw [readMap_readOptString hmap] at hh
        cases hh
        rw [getElem?_readHashes, hmerged hurl, hraw, stringField, hvalue, bind_some, hmap,
          ← getElem?_readHashes]
        rfl
      · exact absurd harray' harray
    · rw [or_iff_right hreads]
      refine hlost ?_
      obtain ⟨harray, hraw⟩ | ⟨-, hraw⟩ := rawFields_eq old
      · have hnone : readMap readString value = none :=
          eq_none_iff_forall_ne_some.mpr fun map hmap => hreads ⟨harray, map, hmap⟩
        rw [stringField, hraw, hvalue, bind_some, hnone]
        rfl
      · simp [stringField, hraw]

theorem newHashes_iff :
    (∀ (url : String) (hash : Option String), registryFileHashes[url]? = some hash →
      (readHashes (mergedHashes fields registryFileHashes))[url]? = some hash) ↔
    ∀ url : String, registryFileHashes[url]? ≠ some (some notFoundMarker) := by
  have hread {url : String} {hash : Option String} (hhash : registryFileHashes[url]? = some hash) :
      (readHashes (mergedHashes fields registryFileHashes))[url]? =
        some ((some (hash.getD notFoundMarker)).filter (· ≠ notFoundMarker)) := by
    rw [getElem?_readHashes]
    exact congrArg _ (getElem?_insertMany_map _ _ (f := id) (g := (·.getD notFoundMarker))
      (fun _ _ _ _ heq => heq) hhash)
  constructor
  · intro h url hmarker
    have heq := (hread hmarker).symm.trans (h url _ hmarker)
    simp at heq
  · intro h url hash hhash
    rw [hread hhash]
    cases hash with
    | none => rfl
    | some hash =>
      have hne : hash ≠ notFoundMarker := fun heq => h url (heq ▸ hhash)
      simp [hne]

theorem oldYankedKeys_iff :
    (∀ key : String, (∀ moduleKey ∈ selectedYankedVersions, yankedKey moduleKey ≠ key) →
      (mergedYanked (rawFields old) selectedYankedVersions)[key]? =
        (stringField (fieldsRead old) "selectedYankedVersions")[key]?) ↔
    (IsArray old → ∀ key ∈ stringField (fieldsRead old) "selectedYankedVersions",
      ∃ moduleKey ∈ selectedYankedVersions, yankedKey moduleKey = key) := by
  have hmerged {key : String}
      (hkey : ∀ moduleKey ∈ selectedYankedVersions, yankedKey moduleKey ≠ key) :
      (mergedYanked (rawFields old) selectedYankedVersions)[key]? =
        (stringField (rawFields old) "selectedYankedVersions")[key]? :=
    getElem?_insertMany_map_of_ne _ _ (g := id) hkey
  obtain ⟨harray, hraw⟩ | ⟨harray, hraw⟩ := rawFields_eq old
  · simp only [harray, false_imp_iff, iff_true]
    intro key hkey
    rw [hmerged hkey, hraw]
  · simp only [harray, true_imp_iff]
    have hentry {key : String}
        (hkey : ∀ moduleKey ∈ selectedYankedVersions, yankedKey moduleKey ≠ key) :
        (mergedYanked (rawFields old) selectedYankedVersions)[key]? =
          (stringField (fieldsRead old) "selectedYankedVersions")[key]? ↔
        key ∉ stringField (fieldsRead old) "selectedYankedVersions" := by
      have hnone : stringField (∅ : ExtTreeMap String Value) "selectedYankedVersions" = ∅ := by
        simp [stringField]
      rw [hmerged hkey, hraw, hnone, ExtTreeMap.mem_iff_isSome_getElem?]
      cases (stringField (fieldsRead old) "selectedYankedVersions")[key]? with
      | none | some info => simp
    constructor
    · intro h key hin
      by_contra hkey
      push Not at hkey
      exact (hentry hkey).mp (h key hkey) hin
    · intro h key hkey
      refine (hentry hkey).mpr fun hin => ?_
      obtain ⟨moduleKey, hmem, heq⟩ := h key hin
      exact hkey moduleKey hmem heq

theorem newYanked_iff :
    (∀ (key : ModuleKey) (info : String), selectedYankedVersions[key]? = some info →
      (yankedVersions (mergedYanked fields selectedYankedVersions))[key]? = some info) ↔
    ∀ key ∈ selectedYankedVersions, '@' ∉ key.2.toList := by
  constructor
  · intro h key hkey hplain
    obtain ⟨info, hinfo⟩ := isSome_iff_exists.mp (ExtTreeMap.mem_iff_isSome_getElem?.mp hkey)
    have hget := h key info hinfo
    rw [getElem?_yankedVersions, if_pos hplain] at hget
    cases hget
  · intro h key info hinfo
    have hin : key ∈ selectedYankedVersions := by
      rw [ExtTreeMap.mem_iff_isSome_getElem?, hinfo]
      rfl
    rw [getElem?_yankedVersions, if_neg (h key hin)]
    exact getElem?_insertMany_map _ _ (g := id)
      (fun k hk k' hk' => yankedKey_inj (h k hk) (h k' hk')) hinfo

theorem fields_iff :
    (∀ (name : String) (value : Value), name ≠ "registryFileHashes" →
      name ≠ "selectedYankedVersions" → (fieldsRead old)[name]? = some value →
      (writtenFields (rawFields old) registryFileHashes selectedYankedVersions)[name]? =
        some value) ↔
    (∀ value, (fieldsRead old)["lockFileVersion"]? = some value →
      ∃ n < 2 ^ 64, value = .number n.repr) ∧
    (IsArray old → ∀ name value, name = "moduleExtensions" ∨ name = "facts" →
      (fieldsRead old)[name]? = some value → value = .object "" []) := by
  have hkept {name : String} (hname : name = "moduleExtensions" ∨ name = "facts") :
      name ≠ "registryFileHashes" ∧ name ≠ "selectedYankedVersions" := by
    rcases hname with rfl | rfl <;> decide
  constructor
  · refine fun h => ⟨fun value hvalue => ?_, fun harray name value hname hvalue => ?_⟩
    · have hwritten := h _ value (by decide) (by decide) hvalue
      rw [getElem?_writtenFields_version] at hwritten
      refine ⟨_, ?_, (Option.some.inj hwritten).symm⟩
      cases hparse : (rawFields old)["lockFileVersion"]?.bind parseU64 with
      | none => decide
      | some n =>
        obtain ⟨_, -, hparse⟩ := bind_eq_some_iff.mp hparse
        exact parseU64_lt hparse
    · have hwritten := h name value (hkept hname).1 (hkept hname).2 hvalue
      obtain ⟨hnot, -⟩ | ⟨-, hraw⟩ := rawFields_eq old
      · exact absurd harray hnot
      · rw [getElem?_writtenFields_kept _ _ _ hname, hraw] at hwritten
        simpa using hwritten.symm
  · rintro ⟨hversion, hextensions⟩ name value hhashes hyanked hvalue
    by_cases hknown : name ∈ knownFields
    · simp only [knownFields, mem_cons, not_mem_nil, or_false] at hknown
      obtain ⟨harray, hraw⟩ | ⟨harray, hraw⟩ := rawFields_eq old
      · rw [← hraw] at hvalue
        rcases hknown with rfl | rfl | rfl | hname
        · obtain ⟨n, hn, rfl⟩ := hversion value (hraw ▸ hvalue)
          rw [getElem?_writtenFields_version, hvalue, bind_some, parseU64_number hn]
          rfl
        · exact absurd rfl hhashes
        · exact absurd rfl hyanked
        · rw [getElem?_writtenFields_kept _ _ _ hname, ExtTreeMap.getD_eq_getD_getElem?, hvalue]
          rfl
      · rcases hknown with rfl | rfl | rfl | hname
        · rw [getElem?_fieldsRead_of_isArray harray (by decide)] at hvalue
          cases hvalue
        · exact absurd rfl hhashes
        · exact absurd rfl hyanked
        · rw [getElem?_writtenFields_kept _ _ _ hname, hraw, hextensions harray _ _ hname hvalue]
          simp
    · rw [getElem?_writtenFields_other _ _ _ hknown]
      obtain ⟨-, hraw⟩ | ⟨harray, -⟩ := rawFields_eq old
      · rw [hraw, hvalue]
      · have hnot : name ∉ recordFields := fun hmem => hknown (by
          simp only [recordFields, knownFields, mem_cons] at hmem ⊢
          exact .inr hmem)
        rw [getElem?_fieldsRead_of_isArray harray hnot] at hvalue
        cases hvalue

end Entries

/-- **Writing back.** An accepted file is written back, with all new entries and all old ones whose
keys are not new, and nothing left for the next run to change, exactly if it is preservable. -/
theorem write_back_lockfile_spec (old : Option JsonText)
    (registryFileHashes : ExtTreeMap String (Option String))
    (selectedYankedVersions : ExtTreeMap ModuleKey String) (data : BzlmodModuleLockfileData)
    (hread : bzlmodLockfileData old = some data) :
    (∃ data', WrittenBack old registryFileHashes selectedYankedVersions data data'
      (bzlmodWriteBackLockfile old registryFileHashes selectedYankedVersions)) ↔
    Preservable old registryFileHashes selectedYankedVersions := by
  have hraw : rawFields (some (bzlmodWriteBackLockfile old registryFileHashes
      selectedYankedVersions)) =
      writtenFields (rawFields old) registryFileHashes selectedYankedVersions := by
    change (readMap some (objectOf "" _)).getD ∅ = _
    rw [readMap_some, entries_objectOf]
    rfl
  have hyankedKeys : stringField (rawFields (some (bzlmodWriteBackLockfile old registryFileHashes
      selectedYankedVersions))) "selectedYankedVersions" =
      mergedYanked (rawFields old) selectedYankedVersions := by
    rw [hraw, stringField, getElem?_writtenFields_yanked, bind_some, readMap_stringMapJson]
    rfl
  obtain ⟨hashes, extensions, facts, hh, he, hf, rfl⟩ :=
    exists_of_dataOfFields (dataOfFields_fieldsRead hread)
  obtain ⟨extensions', facts', he', hf'⟩ : ∃ extensions' facts',
      readField (readMap readExtension) (rawFields old)["moduleExtensions"]? = some extensions' ∧
      readField some (rawFields old)["facts"]? = some facts' := by
    obtain ⟨-, hsame⟩ | ⟨-, hsame⟩ := rawFields_eq old
    · exact ⟨extensions, facts, hsame ▸ he, hsame ▸ hf⟩
    · exact ⟨∅, ∅, by simp [hsame, readField], by simp [hsame, readField]⟩
  have hdata : bzlmodLockfileDataFromStr
      (bzlmodWriteBackLockfile old registryFileHashes selectedYankedVersions) = dataOfFields
        (writtenFields (rawFields old) registryFileHashes selectedYankedVersions) := by
    rw [bzlmodLockfileDataFromStr, bzlmodWriteBackLockfile, bzlmodLockfileJson]
    simp only [readRecord_objectOf (nodup_lockfileFields _ _ _), bind_eq_bind, bind_some]
    rfl
  rw [dataOfFields_writtenFields he' hf'] at hdata
  constructor
  · rintro ⟨data', h⟩
    obtain rfl := Option.some.inj (hdata.symm.trans h.read)
    have hfields := fields_iff.mp (hraw ▸ h.fields)
    exact
      { hashes := (oldHashes_iff hh).mp h.oldHashes
        found := newHashes_iff.mp h.newHashes
        yanked := oldYankedKeys_iff.mp (hyankedKeys ▸ h.oldYankedKeys)
        separated := newYanked_iff.mp h.newYanked
        version := hfields.1
        extensions := hfields.2 }
  · intro h
    have hkeys := oldYankedKeys_iff.mpr h.yanked
    refine ⟨_,
      { read := hdata
        oldHashes := (oldHashes_iff hh).mpr h.hashes
        newHashes := newHashes_iff.mpr h.found
        oldYanked := fun key hkey => ?_
        newYanked := newYanked_iff.mpr h.separated
        oldYankedKeys := hyankedKeys ▸ hkeys
        fields := hraw ▸ fields_iff.mpr ⟨h.version, h.extensions⟩
        again := ?_ }⟩
    · rw [getElem?_yankedVersions, getElem?_yankedVersions]
      split
      · rfl
      · next hplain =>
        refine hkeys (yankedKey key) fun k hk heq => hkey ?_
        rw [← yankedKey_inj (h.separated k hk) hplain heq]
        exact hk
    · rw [bzlmodWriteBackLockfile, hraw, lockfileFields_writtenFields]
      rfl

/-- A member without white space. -/
def member (name : String) (value : Value) : Spaces × JsonString × Value :=
  (⟨"", "", "", ""⟩, printString name, value)

def hashFile (hashes : List (Spaces × JsonString × Value)) : JsonText :=
  ⟨"", .object "" [member "registryFileHashes" (.object "" hashes)], ""⟩

/-- A file with an absent hash that is replaced, and another new hash. -/
theorem write_back_lockfile_new_hash :
    bzlmodLockfileData (some (hashFile [member "b" .null])) ≠ none ∧
      ∃ data', bzlmodLockfileDataFromStr (bzlmodWriteBackLockfile
        (some (hashFile [member "b" .null]))
        ((ExtTreeMap.empty.insert "a" none).insert "b" (some "h")) ∅) = some data' ∧
        data'.registryFileHashes["b"]? = some (some "h") := by
  have hnot : ¬ IsArray (some (hashFile [member "b" .null])) := by
    rintro ⟨text, htext, space, elements, hvalue⟩
    cases htext
    cases hvalue
  obtain ⟨data', h⟩ := (write_back_lockfile_spec (some (hashFile [member "b" .null]))
    ((ExtTreeMap.empty.insert "a" none).insert "b" (some "h")) ∅ _ rfl).mpr
    { hashes := fun value hvalue => by
        cases hvalue
        refine .inr fun map hmap url hurl => ?_
        cases hmap
        obtain rfl : "b" = url := by simpa using hurl
        simp
      found := fun url => by
        rw [ExtTreeMap.getElem?_insert, ExtTreeMap.getElem?_insert]
        split
        · simp [notFoundMarker]
        · split <;> simp
      yanked := fun harray => absurd harray hnot
      separated := fun key hkey => absurd hkey ExtTreeMap.not_mem_empty
      version := fun value hvalue => by cases hvalue
      extensions := fun harray => absurd harray hnot }
  exact ⟨nofun, data', h.read, h.newHashes "b" (some "h") (by simp)⟩

/-- **Absent hashes.** One hash that is `null`, which the reader accepts, makes the next run drop
all hashes; and a version that is not a number of 64 bits is replaced. -/
theorem null_hash_drops_hashes :
    (∃ data data',
      bzlmodLockfileData (some (hashFile [member "a" .null,
        member "b" (.string (printString "h"))])) = some data ∧
      data.registryFileHashes["b"]? = some (some "h") ∧
      bzlmodLockfileDataFromStr (bzlmodWriteBackLockfile (some (hashFile [member "a" .null,
        member "b" (.string (printString "h"))])) ∅ ∅) = some data' ∧
      data'.registryFileHashes["b"]? = none) ∧
    (bzlmodWriteBackLockfile
      (some ⟨"", .object "" [member "lockFileVersion" (.number "1e1")], ""⟩) ∅ ∅).render =
      "\x7b\n  \"lockFileVersion\": 26,\n  \"registryFileHashes\": \x7b\x7d,\n  " ++
        "\"selectedYankedVersions\": \x7b\x7d,\n  \"moduleExtensions\": \x7b\x7d,\n  " ++
        "\"facts\": \x7b\x7d\n\x7d\n" :=
  ⟨⟨_, _, rfl, rfl, rfl, rfl⟩, by decide⟩

end Bz.Bzlmod.Lockfile
