import Mathlib.Data.List.Sort
import Bz.PathMap

/-!
# Directories

The directories of `bz_directory/src/directory`: `DirectoryBuilder` (`builder.rs`) with the
immutable directories it may contain (`immutable_directory.rs`, `exclusive_directory.rs`,
`shared_directory.rs`), `find` (`find.rs`) and `insert`.

A builder, an exclusive and a shared directory have the same entries, so one type describes all of
them; `Kind` says which one a directory is, and `Valid` which directories there are.  The map of the
entries is a list without repeated names.  A path in an error is written from the root.

`tree` is what a directory denotes.  Principal results: `insert_ok` and `insert_error`, what an
insertion does to it; `find_ok`, what is found.
-/

namespace Bz.Directory

open PathMap List Option

/-! ## Maps -/

section SmallMap

variable {K A : Type} [DecidableEq K] {a : A} {entries : List (K × A)} {k : K}

/-- `SmallMap::insert`: an entry keeps its place. -/
def insertEntry : List (K × A) → K → A → List (K × A)
  | [], k, a => [(k, a)]
  | e :: entries, k, a => if e.1 = k then (k, a) :: entries else e :: insertEntry entries k a

theorem lookup_cons_ite (l : K) :
    ((k, a) :: entries).lookup l = if l = k then some a else entries.lookup l := by
  rw [lookup_cons]
  by_cases h : l = k
  · simp [h]
  · simp [h, beq_false_of_ne h]

theorem lookup_insertEntry (l : K) :
    (insertEntry entries k a).lookup l = if l = k then some a else entries.lookup l := by
  induction entries with
  | nil => exact lookup_cons_ite l
  | cons e entries ih =>
    obtain ⟨k', a'⟩ := e
    by_cases hk : k' = k
    · subst hk
      rw [insertEntry, if_pos rfl, lookup_cons_ite, lookup_cons_ite]
      split <;> rfl
    · rw [insertEntry, if_neg hk, lookup_cons_ite, lookup_cons_ite, ih]
      by_cases h : l = k'
      · rw [if_pos h, if_pos h, if_neg (h ▸ hk)]
      · rw [if_neg h, if_neg h]

theorem mem_insertEntry {e : K × A} (h : e ∈ insertEntry entries k a) :
    e = (k, a) ∨ e ∈ entries := by
  induction entries with
  | nil => exact .inl (mem_singleton.mp h)
  | cons e' entries ih =>
    rw [insertEntry] at h
    split at h
    · exact (mem_cons.mp h).imp_right (mem_cons_of_mem _)
    · rcases mem_cons.mp h with rfl | h
      · exact .inr mem_cons_self
      · exact (ih h).imp_right (mem_cons_of_mem _)

theorem nodup_insertEntry (h : (entries.map Prod.fst).Nodup) :
    ((insertEntry entries k a).map Prod.fst).Nodup := by
  induction entries with
  | nil => simp [insertEntry]
  | cons e entries ih =>
    obtain ⟨he, hnd⟩ := nodup_cons.mp h
    rw [insertEntry]
    split
    · next hk => exact nodup_cons.mpr ⟨hk ▸ he, hnd⟩
    · next hk =>
      refine nodup_cons.mpr ⟨fun hmem => ?_, ih hnd⟩
      obtain ⟨e', he', hfst⟩ := mem_map.mp hmem
      rcases mem_insertEntry he' with rfl | he'
      · exact hk hfst.symm
      · exact he (mem_map.mpr ⟨e', he', hfst⟩)

theorem lookup_of_mem (hnd : (entries.map Prod.fst).Nodup) (h : (k, a) ∈ entries) :
    entries.lookup k = some a := by
  induction entries with
  | nil => cases h
  | cons e entries ih =>
    obtain ⟨he, hnd⟩ := nodup_cons.mp hnd
    rcases mem_cons.mp h with rfl | h
    · simp
    · have hne : k ≠ e.1 := fun heq => he (mem_map.mpr ⟨_, h, heq⟩)
      rw [lookup_cons_ite, if_neg hne]
      exact ih hnd h

theorem mem_of_lookup (h : entries.lookup k = some a) : (k, a) ∈ entries := by
  obtain ⟨l1, l2, rfl, -⟩ := lookup_eq_some_iff.mp h
  simp

end SmallMap

/-! ## Directories -/

/-- A directory or a leaf. -/
inductive DirectoryEntry (D L : Type) where
  | dir (dir : D)
  | leaf (leaf : L)

/-- A mutable directory, or an immutable one with the fingerprint and the size of its
`DirectoryData`. -/
inductive Kind (H : Type) where
  | mutable
  | exclusive (fingerprint : H) (size : Nat)
  | shared (fingerprint : H) (size : Nat)

/-- A directory of the kind may have a directory of the other kind as an entry. -/
def Kind.Contains {H : Type} : Kind H → Kind H → Prop
  | .mutable, _ => True
  | .exclusive _ _, .mutable => False
  | .exclusive _ _, _ => True
  | .shared _ _, .shared _ _ => True
  | .shared _ _, _ => False

/-- The fingerprint of an immutable directory. -/
def Kind.fingerprint {H : Type} : Kind H → Option H
  | .mutable => none
  | .exclusive fingerprint _ => some fingerprint
  | .shared fingerprint _ => some fingerprint

def Kind.isShared {H : Type} : Kind H → Bool
  | .shared _ _ => true
  | _ => false

/-- A directory of any kind. -/
inductive DirectoryBuilder (K L H : Type) where
  | node (kind : Kind H) (entries : List (K × DirectoryEntry (DirectoryBuilder K L H) L))

/-- An entry of a builder, `BuilderEntry`. -/
abbrev BuilderEntry (K L H : Type) := DirectoryEntry (DirectoryBuilder K L H) L

namespace DirectoryBuilder

variable {K L H : Type}

def kind : DirectoryBuilder K L H → Kind H
  | node kind _ => kind

def entries : DirectoryBuilder K L H → List (K × BuilderEntry K L H)
  | node _ entries => entries

variable (d : DirectoryBuilder K L H) {k : K}

def fingerprint : Option H := d.kind.fingerprint

def len : Nat := d.entries.length

def empty : DirectoryBuilder K L H := node .mutable []

/-- `DirectoryBuilder::as_mut`: an own copy of the entries. -/
def asMut : DirectoryBuilder K L H := node .mutable d.entries

@[simp] theorem entries_node (kind : Kind H) (entries : List (K × BuilderEntry K L H)) :
    (node kind entries).entries = entries := rfl

@[simp] theorem entries_asMut (d : DirectoryBuilder K L H) : d.asMut.entries = d.entries := rfl

theorem eq_node (d : DirectoryBuilder K L H) : d = node d.kind d.entries := by cases d; rfl

/-- The directories that there are: no name twice, and immutable directories have immutable entries,
shared ones shared entries. -/
inductive Valid : DirectoryBuilder K L H → Prop where
  | node {kind : Kind H} {entries : List (K × BuilderEntry K L H)}
      (nodup : (entries.map Prod.fst).Nodup)
      (contains : ∀ k d, (k, .dir d) ∈ entries → kind.Contains d.kind)
      (entry : ∀ k d, (k, .dir d) ∈ entries → Valid d) : Valid (node kind entries)

mutual

/-- How deep the directories are nested. -/
def depth : DirectoryBuilder K L H → Nat
  | node _ entries => depthBelow entries + 1

def depthBelow : List (K × BuilderEntry K L H) → Nat
  | [] => 0
  | (_, .dir d) :: entries => max d.depth (depthBelow entries)
  | (_, .leaf _) :: entries => depthBelow entries

end

theorem depth_le_depthBelow {entries : List (K × BuilderEntry K L H)}
    {d : DirectoryBuilder K L H} (h : (k, .dir d) ∈ entries) : d.depth ≤ depthBelow entries := by
  induction entries with
  | nil => cases h
  | cons e entries ih =>
    obtain ⟨k', _ | l⟩ := e
    · rcases mem_cons.mp h with heq | h
      · cases heq
        exact le_max_left _ _
      · exact (ih h).trans (le_max_right _ _)
    · rcases mem_cons.mp h with heq | h
      · cases heq
      · exact ih h

theorem depth_lt {d sub : DirectoryBuilder K L H} (h : (k, .dir sub) ∈ d.entries) :
    sub.depth < d.depth := by
  cases d with
  | node kind entries =>
    exact Nat.lt_succ_of_le (depth_le_depthBelow h)

/-- Induction over the directories among the entries. -/
theorem recurse {motive : DirectoryBuilder K L H → Prop}
    (h : ∀ d, (∀ k sub, (k, .dir sub) ∈ d.entries → motive sub) → motive d)
    (d : DirectoryBuilder K L H) : motive d := by
  induction hn : d.depth using Nat.strong_induction_on generalizing d with
  | h n ih => exact h d fun k sub hsub => ih _ (hn ▸ depth_lt hsub) sub rfl

variable [DecidableEq K]

def get (d : DirectoryBuilder K L H) (needle : K) : Option (BuilderEntry K L H) :=
  d.entries.lookup needle

/-- What a directory has at a path. -/
def tree : DirectoryBuilder K L H → PathMap K L
  | _, [] => some .dir
  | d, k :: p => match d.get k with
    | none => none
    | some (.dir sub) => sub.tree p
    | some (.leaf l) => if p = [] then some (.leaf l) else none

end DirectoryBuilder

/-- What is at and below an entry. -/
def DirectoryEntry.tree {K L H : Type} [DecidableEq K] (e : BuilderEntry K L H) : PathMap K L :=
  fun p => match e with
    | .dir d => d.tree p
    | .leaf l => if p = [] then some (.leaf l) else none

theorem DirectoryEntry.eq_of_tree_leaf {K L H : Type} [DecidableEq K] {l : L} {p : List K}
    {n : Node L} (h : (leaf l : BuilderEntry K L H).tree p = some n) : p = [] ∧ n = .leaf l := by
  simp only [tree] at h
  split at h
  · next hp =>
    cases h
    exact ⟨hp, rfl⟩
  · cases h

namespace DirectoryBuilder

variable {K L H : Type} [DecidableEq K] {d : DirectoryBuilder K L H} {k : K}
  {e : BuilderEntry K L H}

@[simp] theorem tree_nil (d : DirectoryBuilder K L H) : d.tree [] = some .dir := by
  rfl

theorem tree_cons (d : DirectoryBuilder K L H) (k : K) (p : List K) :
    d.tree (k :: p) = (d.get k).bind fun e => e.tree p := by
  rw [tree]
  cases d.get k with
  | none => rfl
  | some e => cases e <;> rfl

theorem below_of_get (h : d.get k = some e) : d.tree.below k = e.tree := by
  funext p
  rw [below, tree_cons, h]
  rfl

theorem below_of_get_none (h : d.get k = none) (p : List K) : d.tree.below k p = none := by
  rw [below, tree_cons, h]
  rfl

theorem get_of_tree_ne_none {p : List K} (h : d.tree (k :: p) ≠ none) :
    ∃ e, d.get k = some e ∧ e.tree p ≠ none := by
  rw [tree_cons] at h
  cases hget : d.get k with
  | none => simp [hget] at h
  | some e => exact ⟨e, rfl, by simpa [hget] using h⟩

theorem empty_tree_cons (k : K) (p : List K) :
    (empty : DirectoryBuilder K L H).tree (k :: p) = none := by
  rfl

theorem isTree (d : DirectoryBuilder K L H) : PathMap.IsTree d.tree := by
  refine ⟨tree_nil d, fun p k hp => ?_⟩
  induction p generalizing d with
  | nil => exact tree_nil d
  | cons k' p ih =>
    rw [cons_append, tree_cons] at hp
    rw [tree_cons]
    cases hk : d.get k' with
    | none => simp [hk] at hp
    | some e =>
      rw [hk, bind_some] at hp
      cases e with
      | dir sub => exact ih sub hp
      | leaf l => simp [DirectoryEntry.tree] at hp

theorem tree_congr {d' : DirectoryBuilder K L H} (h : ∀ k, d.get k = d'.get k) :
    d.tree = d'.tree := by
  funext p
  cases p with
  | nil => rw [tree_nil, tree_nil]
  | cons k p => rw [tree_cons, tree_cons, h k]

@[simp] theorem tree_asMut (d : DirectoryBuilder K L H) : d.asMut.tree = d.tree :=
  tree_congr fun _ => rfl

/-- What is true of the leaves among the entries and of those in the directories among them is true
of all leaves. -/
theorem forall_leaf {P : L → Prop} (hleaf : ∀ k l, (k, .leaf l) ∈ d.entries → P l)
    (hdir : ∀ k sub, (k, .dir sub) ∈ d.entries → ∀ p l, sub.tree p = some (.leaf l) → P l)
    (p : List K) (l : L) (h : d.tree p = some (.leaf l)) : P l := by
  cases p with
  | nil => rw [tree_nil] at h; cases h
  | cons k p =>
    rw [tree_cons] at h
    obtain ⟨e, he, h⟩ := bind_eq_some_iff.mp h
    cases e with
    | dir sub => exact hdir k sub (mem_of_lookup he) p l h
    | leaf l' =>
      obtain ⟨rfl, hl⟩ := DirectoryEntry.eq_of_tree_leaf h
      cases hl
      exact hleaf k l (mem_of_lookup he)

omit [DecidableEq K] in
theorem Valid.nodup (h : d.Valid) : (d.entries.map Prod.fst).Nodup := by
  cases h with
  | node nodup contains entry => exact nodup

omit [DecidableEq K] in
theorem Valid.entry (h : d.Valid) {sub : DirectoryBuilder K L H}
    (hk : (k, .dir sub) ∈ d.entries) : sub.Valid := by
  cases h with
  | node nodup contains entry => exact entry k sub hk

theorem Valid.get_iff (h : d.Valid) : d.get k = some e ↔ (k, e) ∈ d.entries :=
  ⟨mem_of_lookup, lookup_of_mem h.nodup⟩

omit [DecidableEq K] in
theorem Valid.asMut (h : d.Valid) : d.asMut.Valid :=
  .node h.nodup (fun _ _ _ => trivial) fun _ _ hk => h.entry hk

omit [DecidableEq K] in
theorem Valid.empty : (empty : DirectoryBuilder K L H).Valid :=
  .node nodup_nil (fun _ _ hk => nomatch hk) fun _ _ hk => nomatch hk

end DirectoryBuilder

/-- The directory of an entry is one that there is. -/
def DirectoryEntry.Valid {K L H : Type} (e : BuilderEntry K L H) : Prop := ∀ d, e = .dir d → d.Valid

namespace DirectoryBuilder

variable {K L H : Type} [DecidableEq K] {d : DirectoryBuilder K L H}
  {e val : BuilderEntry K L H} {path rest c : List K} {d' : DirectoryBuilder K L H}
  {needle : K} {old : Option (BuilderEntry K L H)} {k : K}

/-- A mutable directory with another entry. -/
def setEntry (d : DirectoryBuilder K L H) (k : K) (e : BuilderEntry K L H) :
    DirectoryBuilder K L H :=
  node .mutable (insertEntry d.entries k e)

theorem get_setEntry (d : DirectoryBuilder K L H) (k l : K) :
    (d.setEntry k e).get l = if l = k then some e else d.get l :=
  lookup_insertEntry l

theorem tree_setEntry (d : DirectoryBuilder K L H) (k l : K) (p : List K) :
    (d.setEntry k e).tree (l :: p) = if l = k then e.tree p else d.tree (l :: p) := by
  rw [tree_cons, get_setEntry]
  split
  · rfl
  · rw [tree_cons]

theorem Valid.setEntry (h : d.Valid) (k : K) (he : e.Valid) : (d.setEntry k e).Valid := by
  refine .node (nodup_insertEntry h.nodup) (fun _ _ _ => trivial) fun l sub hl => ?_
  rcases mem_insertEntry hl with heq | hl
  · obtain ⟨-, rfl⟩ := Prod.mk.inj heq
    exact he sub rfl
  · exact h.entry hl

/-! ## Hereditary properties -/

/-- A property that passes to the directories inside, and stays when entries are removed or replaced
by entries that have it. -/
structure Hereditary (R : DirectoryBuilder K L H → Prop) : Prop where
  empty : R empty
  entry : ∀ {d sub : DirectoryBuilder K L H} {k : K}, R d → (k, .dir sub) ∈ d.entries → R sub
  setEntry : ∀ {d : DirectoryBuilder K L H} {e : BuilderEntry K L H} (k : K), R d →
    (∀ sub, e = .dir sub → R sub) → R (d.setEntry k e)
  filter : ∀ {d : DirectoryBuilder K L H} (p : K × BuilderEntry K L H → Bool), R d →
    R (node .mutable (d.entries.filter p))

theorem hereditary_valid : Hereditary (Valid : DirectoryBuilder K L H → Prop) where
  empty := .empty
  entry h hk := h.entry hk
  setEntry k h he := h.setEntry k he
  filter _ h := .node (h.nodup.sublist (filter_sublist.map _)) (fun _ _ _ => trivial)
    fun _ _ hk => h.entry (mem_of_mem_filter hk)

theorem Hereditary.asMut {R : DirectoryBuilder K L H → Prop} (hR : Hereditary R) (h : R d) :
    R d.asMut := by
  have hfilter := hR.filter (fun _ => true) h
  rwa [filter_true] at hfilter

/-! ## Insertion -/

/-- Why an insertion fails. -/
inductive DirectoryInsertError (K : Type) where
  | emptyPath
  | cannotTraverseLeaf (path : List K)

/-- `DirectoryBuilder::insert_inner`: the directory afterwards, and the entry that was replaced or
the path of the leaf in the way. -/
def insertInner (val : BuilderEntry K L H) : List K → K → DirectoryBuilder K L H →
    DirectoryBuilder K L H × Except (List K) (Option (BuilderEntry K L H))
  | [], needle, d => (d.setEntry needle val, .ok (d.get needle))
  | next :: rest, needle, d => match d.get needle with
    | some (.dir sub) => match insertInner val rest next sub with
      | (sub, .ok old) => (d.setEntry needle (.dir sub), .ok old)
      | (sub, .error acc) => (d.setEntry needle (.dir sub), .error (needle :: acc))
    | some (.leaf _) => (d.asMut, .error [needle])
    | none => match insertInner val rest next empty with
      | (sub, .ok _) => (d.setEntry needle (.dir sub), .ok none)
      | (_, .error acc) => (d.asMut, .error (needle :: acc))

def insert (d : DirectoryBuilder K L H) (path : List K) (val : BuilderEntry K L H) :
    DirectoryBuilder K L H × Except (DirectoryInsertError K) (Option (BuilderEntry K L H)) :=
  match path with
  | [] => (d, .error .emptyPath)
  | needle :: rest => match insertInner val rest needle d with
    | (d, .ok old) => (d, .ok old)
    | (d, .error path) => (d, .error (.cannotTraverseLeaf path))

theorem tree_setEntry_dir {sub : DirectoryBuilder K L H} {B : PathMap K L}
    (h : sub.tree = putAt (d.tree.below k) B path) :
    (d.setEntry k (.dir sub)).tree = putAt d.tree B (k :: path) := by
  funext p
  cases p with
  | nil => rw [tree_nil]; rfl
  | cons l p =>
    rw [tree_setEntry]
    simp only [putAt, DirectoryEntry.tree, h]

theorem tree_setEntry_same {sub sub' : DirectoryBuilder K L H}
    (hget : d.get k = some (.dir sub)) (h : sub'.tree = sub.tree) :
    (d.setEntry k (.dir sub')).tree = d.tree := by
  funext p
  cases p with
  | nil => rw [tree_nil, tree_nil]
  | cons l p =>
    rw [tree_setEntry]
    split
    · next hl =>
      rw [hl, tree_cons, hget]
      exact congrFun h p
    · rfl

/-- What is below a name that is not there is what is below the root of an empty directory, except
for the root itself. -/
theorem putAt_empty (hk : d.get k = none) (B : PathMap K L) (l : K) :
    putAt (empty : DirectoryBuilder K L H).tree B (l :: path) =
      putAt (d.tree.below k) B (l :: path) := by
  funext p
  cases p with
  | nil => rfl
  | cons l' p =>
    have heq : (empty : DirectoryBuilder K L H).tree.below l = (d.tree.below k).below l := by
      funext p
      rw [below, empty_tree_cons, below, below_of_get_none hk]
    simp only [putAt, heq, empty_tree_cons, below_of_get_none hk]

/-- **An insertion that succeeds** puts the entry at the path. -/
theorem insertInner_ok (h : insertInner val rest needle d = (d', .ok old)) :
    d'.tree = putAt d.tree val.tree (needle :: rest) ∧
      ∀ q, d.tree (needle :: rest ++ q) = old.bind fun e => e.tree q := by
  fun_induction insertInner val rest needle d generalizing d' old with
  | case1 needle d =>
    cases h
    refine ⟨?_, fun q => tree_cons d needle q⟩
    funext p
    cases p with
    | nil => rw [tree_nil]; rfl
    | cons l p => rw [tree_setEntry]; rfl
  | case2 next rest needle d sub hsub sub' old' hins ih =>
    cases h
    obtain ⟨htree, hold⟩ := ih hins
    exact ⟨tree_setEntry_dir (by rw [below_of_get hsub]; exact htree),
      fun q => (congrFun (below_of_get hsub) (next :: rest ++ q)).trans (hold q)⟩
  | case3 | case4 | case6 => cases h
  | case5 next rest needle d hnone sub' old' hins ih =>
    cases h
    refine ⟨tree_setEntry_dir (by rw [← putAt_empty hnone]; exact (ih hins).1), fun q => ?_⟩
    exact below_of_get_none hnone (next :: rest ++ q)

/-- **An insertion that fails** leaves the tree alone and names a leaf above the path. -/
theorem insertInner_error (h : insertInner val rest needle d = (d', .error c)) :
    d'.tree = d.tree ∧ c <+: needle :: rest ∧ c ≠ needle :: rest ∧
      ∃ l, d.tree c = some (.leaf l) := by
  fun_induction insertInner val rest needle d generalizing d' c with
  | case1 | case2 | case5 => cases h
  | case3 next rest needle d sub hsub sub' acc hins ih =>
    cases h
    obtain ⟨htree, hpre, hne, l, hl⟩ := ih hins
    refine ⟨tree_setEntry_same hsub htree, cons_prefix_cons.mpr ⟨rfl, hpre⟩,
      by simpa using hne, l, ?_⟩
    rw [tree_cons, hsub]
    exact hl
  | case4 next rest needle d l hl =>
    cases h
    refine ⟨tree_asMut d, cons_prefix_cons.mpr ⟨rfl, nil_prefix⟩, by simp, l, ?_⟩
    rw [tree_cons, hl]
    rfl
  | case6 next rest needle d hnone sub' acc hins ih =>
    obtain ⟨-, -, -, l, hl⟩ := ih hins
    cases acc with
    | nil => rw [tree_nil] at hl; cases hl
    | cons k acc => rw [empty_tree_cons] at hl; cases hl

/-- Nothing is inserted below a leaf. -/
theorem insertInner_open (h : insertInner val rest needle d = (d', .ok old)) :
    PathMap.Open d.tree (needle :: rest) := by
  fun_induction insertInner val rest needle d generalizing d' old with
  | case1 needle d => exact (open_cons d.isTree.root).mpr ⟨.inl rfl, open_nil _⟩
  | case2 next rest needle d sub hsub sub' old' hins ih =>
    refine (open_cons d.isTree.root).mpr ⟨.inr fun l => ?_, ?_⟩
    · simp [tree_cons, hsub, DirectoryEntry.tree]
    · rw [below_of_get hsub]
      exact ih hins
  | case3 | case4 | case6 => cases h
  | case5 next rest needle d hnone sub' old' hins ih =>
    refine (open_cons d.isTree.root).mpr ⟨.inr fun l => ?_, ?_⟩
    · simp [tree_cons, hnone]
    · intro q l _ _
      rw [below_of_get_none hnone]
      simp

theorem Hereditary.insertInner {R : DirectoryBuilder K L H → Prop} (hR : Hereditary R) (hd : R d)
    (hval : ∀ sub, val = .dir sub → R sub) (rest : List K) (needle : K) :
    R (insertInner val rest needle d).1 := by
  have hset {d sub : DirectoryBuilder K L H} {needle : K} (hd : R d) (hsub : R sub) :
      R (d.setEntry needle (.dir sub)) :=
    hR.setEntry needle hd fun _ heq => by cases heq; exact hsub
  fun_induction DirectoryBuilder.insertInner val rest needle d with
  | case1 needle d => exact hR.setEntry needle hd hval
  | case2 next rest needle d sub hsub sub' old' hins ih
  | case3 next rest needle d sub hsub sub' acc hins ih =>
    rw [hins] at ih
    exact hset hd (ih (hR.entry hd (mem_of_lookup hsub)))
  | case4 next rest needle d l hl => exact hR.asMut hd
  | case5 next rest needle d hnone sub' old' hins ih =>
    rw [hins] at ih
    exact hset hd (ih hR.empty)
  | case6 next rest needle d hnone sub' acc hins ih => exact hR.asMut hd

theorem insert_ok (h : d.insert path val = (d', .ok old)) :
    path ≠ [] ∧ PathMap.Open d.tree path ∧ d'.tree = putAt d.tree val.tree path ∧
      ∀ q, d.tree (path ++ q) = old.bind fun e => e.tree q := by
  unfold insert at h
  split at h
  · cases h
  · split at h
    · next hins =>
      cases h
      exact ⟨by simp, insertInner_open hins, insertInner_ok hins⟩
    · cases h

theorem insert_error {e : DirectoryInsertError K} (h : d.insert path val = (d', .error e)) :
    d'.tree = d.tree ∧ (path = [] ∧ e = .emptyPath ∨
      ∃ c l, e = .cannotTraverseLeaf c ∧ c <+: path ∧ c ≠ path ∧ d.tree c = some (.leaf l)) := by
  unfold insert at h
  split at h
  · cases h
    exact ⟨rfl, .inl ⟨rfl, rfl⟩⟩
  · split at h
    · cases h
    · next hins =>
      cases h
      obtain ⟨htree, hpre, hne, l, hl⟩ := insertInner_error hins
      exact ⟨htree, .inr ⟨_, l, rfl, hpre, hne, hl⟩⟩

theorem Hereditary.insert {R : DirectoryBuilder K L H → Prop} (hR : Hereditary R) (hd : R d)
    (hval : ∀ sub, val = .dir sub → R sub) (path : List K) : R (d.insert path val).1 := by
  unfold DirectoryBuilder.insert
  split
  · exact hd
  · next needle rest =>
    have := hR.insertInner hd hval rest needle
    split <;> next h => rw [h] at this; exact this

theorem Valid.insert (hd : d.Valid) (hval : val.Valid) (path : List K) :
    (d.insert path val).1.Valid := hereditary_valid.insert hd hval path

/-! ## Finding -/

/-- `find_inner`, with the path of `PathAccumulator`: the name of the leaf itself is left out. -/
def findInner : List K → K → DirectoryBuilder K L H →
    Except (List K) (Option (BuilderEntry K L H))
  | rest, needle, d => match d.get needle with
    | none => .ok none
    | some entry => match rest with
      | [] => .ok (some entry)
      | next :: rest => match entry with
        | .dir sub => (findInner rest next sub).mapError (needle :: ·)
        | .leaf _ => .error [next]

def find (d : DirectoryBuilder K L H) : List K → Except (List K) (Option (BuilderEntry K L H))
  | [] => .ok (some (.dir d))
  | needle :: rest => findInner rest needle d

theorem findInner_ok {e : Option (BuilderEntry K L H)} (h : findInner rest needle d = .ok e)
    (q : List K) : d.tree (needle :: rest ++ q) = e.bind fun e => e.tree q := by
  fun_induction findInner rest needle d generalizing e with
  | case1 rest needle d hnone =>
    cases h
    exact below_of_get_none hnone (rest ++ q)
  | case2 needle d entry hsome =>
    cases h
    exact congrFun (below_of_get hsome) q
  | case3 needle d next rest sub hsome ih =>
    rw [cons_append, tree_cons, hsome]
    cases hsub : findInner rest next sub with
    | error c => simp [hsub, Except.mapError] at h
    | ok e' =>
      simp only [hsub, Except.mapError, Except.ok.injEq] at h
      subst h
      exact ih hsub
  | case4 => cases h

/-- **What is found** is what the directory has at the path. -/
theorem find_ok {e : Option (BuilderEntry K L H)} (h : d.find path = .ok e) (q : List K) :
    d.tree (path ++ q) = e.bind fun e => e.tree q := by
  cases path with
  | nil => cases h; rfl
  | cons needle rest => exact findInner_ok h q

/-- **A search that fails** has met a leaf above the path, but names the path with the next name in
the place of the leaf's own. -/
theorem findInner_error (h : findInner rest needle d = .error c) :
    ∃ r k n l, r ++ [k, n] <+: needle :: rest ∧ d.tree (r ++ [k]) = some (.leaf l) ∧
      c = r ++ [n] := by
  fun_induction findInner rest needle d generalizing c with
  | case1 | case2 => cases h
  | case3 needle d next rest sub hsome ih =>
    cases hsub : findInner rest next sub with
    | ok e => simp [hsub, Except.mapError] at h
    | error c' =>
      obtain ⟨r, k, n, l, hpre, hl, rfl⟩ := ih hsub
      refine ⟨needle :: r, k, n, l, cons_prefix_cons.mpr ⟨rfl, hpre⟩, ?_, ?_⟩
      · rw [cons_append, tree_cons, hsome]
        exact hl
      · simpa [hsub, Except.mapError] using h.symm
  | case4 needle d next rest l hsome =>
    cases h
    refine ⟨[], needle, next, l, ⟨rest, rfl⟩, ?_, rfl⟩
    rw [nil_append, tree_cons, hsome]
    rfl

theorem find_error (h : d.find path = .error c) :
    ∃ r k n l, r ++ [k, n] <+: path ∧ d.tree (r ++ [k]) = some (.leaf l) ∧ c = r ++ [n] := by
  cases path with
  | nil => cases h
  | cons needle rest => exact findInner_error h

theorem Hereditary.findInner {R : DirectoryBuilder K L H → Prop} (hR : Hereditary R) (hd : R d)
    (h : findInner rest needle d = .ok (some e)) : ∀ sub, e = .dir sub → R sub := by
  fun_induction DirectoryBuilder.findInner rest needle d with
  | case1 | case4 => cases h
  | case2 needle d entry hsome =>
    cases h
    rintro sub rfl
    exact hR.entry hd (mem_of_lookup hsome)
  | case3 needle d next rest sub hsome ih =>
    cases hsub : DirectoryBuilder.findInner rest next sub with
    | error c => simp [hsub, Except.mapError] at h
    | ok e' =>
      simp only [hsub, Except.mapError, Except.ok.injEq] at h
      subst h
      exact ih (hR.entry hd (mem_of_lookup hsome)) hsub

theorem Hereditary.find {R : DirectoryBuilder K L H → Prop} (hR : Hereditary R) (hd : R d)
    (h : d.find path = .ok (some e)) : ∀ sub, e = .dir sub → R sub := by
  cases path with
  | nil =>
    cases h
    rintro sub heq
    cases heq
    exact hd
  | cons needle rest => exact hR.findInner hd h

theorem find_leaf {l : L} (h : d.tree path = some (.leaf l)) :
    d.find path = .ok (some (.leaf l)) := by
  cases hfind : d.find path with
  | error c =>
    obtain ⟨r, k, n, l', ⟨rest, rfl⟩, hl', -⟩ := find_error hfind
    have hne : d.tree (r ++ [k] ++ n :: rest) ≠ none := by
      rw [append_assoc] at h ⊢
      exact ne_none_iff_exists'.mpr ⟨_, h⟩
    rw [d.isTree.dir_of_append (cons_ne_nil n rest) hne] at hl'
    cases hl'
  | ok e =>
    have := find_ok hfind []
    rw [append_nil, h] at this
    cases e with
    | none => cases this
    | some e =>
      cases e with
      | dir sub => rw [bind_some, DirectoryEntry.tree, tree_nil] at this; cases this
      | leaf l' => cases this; rfl

/-! ## Walking -/

section Walk

variable (le : K → K → Prop) [DecidableRel le]

mutual

/-- `ordered_walk_leaves` with paths: the leaves in the order of the names. -/
def orderedWalkLeaves : DirectoryBuilder K L H → List (List K × L)
  | node _ entries => ((walkEntries entries).insertionSort fun a b => le a.1 b.1).flatMap
      fun e => e.2.map fun x => (e.1 :: x.1, x.2)

def walkEntries : List (K × BuilderEntry K L H) → List (K × List (List K × L))
  | [] => []
  | (k, .dir d) :: entries => (k, orderedWalkLeaves d) :: walkEntries entries
  | (k, .leaf l) :: entries => (k, [([], l)]) :: walkEntries entries

end

end Walk

end DirectoryBuilder

end Bz.Directory
