import Bz.Directory.Builder

/-!
# Directories rebuilt from their nodes

`DirectoryBuilder::mkdir` (`bz_directory/src/directory/builder.rs`) and the walk that visits the
directories as well as the leaves (`walk.rs`).

Principal results: `mem_unorderedWalk`, the walk visits every node; `mkdir_within` and
`insert_within`, adding a node of a tree to a part of that tree gives a larger part.
-/

namespace Bz.Directory.DirectoryBuilder

open List

variable {K L H : Type}

/-! ## Making directories -/

section Mkdir

variable [DecidableEq K] {d d' : DirectoryBuilder K L H} {path : List K}

/-- `mkdir_inner`: the directory afterwards, and the path of the leaf in the way. -/
def mkdirInner : List K → DirectoryBuilder K L H → DirectoryBuilder K L H × Except (List K) Unit
  | [], d => (d.asMut, .ok ())
  | needle :: path, d => match d.get needle with
    | some (.dir sub) => match mkdirInner path sub with
      | (sub, .ok ()) => (d.setEntry needle (.dir sub), .ok ())
      | (sub, .error acc) => (d.setEntry needle (.dir sub), .error (needle :: acc))
    | some (.leaf _) => (d.asMut, .error [needle])
    | none => match mkdirInner path empty with
      | (sub, .ok ()) => (d.setEntry needle (.dir sub), .ok ())
      | (_, .error acc) => (d.asMut, .error (needle :: acc))

/-- `DirectoryBuilder::mkdir`, with the path of `DirectoryMkdirError::CannotTraverseLeaf`. -/
def mkdir (d : DirectoryBuilder K L H) (path : List K) :
    DirectoryBuilder K L H × Except (List K) Unit :=
  mkdirInner path d

/-- **A directory is made together with those above it.** -/
theorem mkdirInner_ok (h : mkdirInner path d = (d', .ok ())) (p : List K) :
    d'.tree p = if p <+: path then some .dir else d.tree p := by
  -- the directory at `k` is one in which the rest of the path has been made
  have hset {d sub sub' : DirectoryBuilder K L H} {k : K} {path : List K}
      (hmade : ∀ p, sub'.tree p = if p <+: path then some .dir else sub.tree p)
      (hold : ∀ q, ¬ q <+: path → d.tree (k :: q) = sub.tree q) (p : List K) :
      (d.setEntry k (.dir sub')).tree p = if p <+: k :: path then some .dir else d.tree p := by
    cases p with
    | nil => simp
    | cons l p =>
      rw [tree_setEntry]
      by_cases hl : l = k
      · subst hl
        rw [if_pos rfl, DirectoryEntry.tree, hmade p]
        by_cases hp : p <+: path
        · simp [hp]
        · simp [hp, hold p hp]
      · simp [hl]
  fun_induction mkdirInner path d generalizing d' p with
  | case1 d =>
    cases h
    cases p <;> simp
  | case2 k path d sub hget sub' hsub ih =>
    cases h
    exact hset (ih hsub) (fun q _ => congrFun (below_of_get hget) q) p
  | case3 | case4 | case6 => cases h
  | case5 k path d hget sub' hsub ih =>
    cases h
    refine hset (ih hsub) (fun q hq => ?_) p
    cases q with
    | nil => exact absurd nil_prefix hq
    | cons l q => rw [empty_tree_cons, ← below_of_get_none hget (l :: q), PathMap.below]

/-- **A directory cannot be made at or below a leaf.** -/
theorem mkdirInner_error {c : List K} (h : mkdirInner path d = (d', .error c)) :
    d'.tree = d.tree ∧ c <+: path ∧ ∃ l, d.tree c = some (.leaf l) := by
  fun_induction mkdirInner path d generalizing d' c with
  | case1 | case2 | case5 => cases h
  | case3 k path d sub hget sub' acc hsub ih =>
    cases h
    obtain ⟨htree, hc, l, hl⟩ := ih hsub
    refine ⟨tree_setEntry_same hget htree, cons_prefix_cons.mpr ⟨rfl, hc⟩, l, ?_⟩
    rw [tree_cons, hget]
    exact hl
  | case4 k path d l hget =>
    cases h
    refine ⟨tree_asMut d, cons_prefix_cons.mpr ⟨rfl, nil_prefix⟩, l, ?_⟩
    rw [tree_cons, hget]
    rfl
  | case6 k path d hget sub' acc hsub ih =>
    obtain ⟨-, -, l, hl⟩ := ih hsub
    cases acc with
    | nil => rw [tree_nil] at hl; cases hl
    | cons k' acc => rw [empty_tree_cons] at hl; cases hl

theorem mkdirInner_open (h : mkdirInner path d = (d', .ok ())) {q : List K} (hq : q <+: path)
    (l : L) : d.tree q ≠ some (.leaf l) := by
  cases q with
  | nil => simp
  | cons k q =>
    fun_induction mkdirInner path d generalizing d' k q with
    | case1 => cases prefix_nil.mp hq
    | case2 k' path d sub hget sub' hsub ih =>
      obtain ⟨rfl, hpre⟩ := cons_prefix_cons.mp hq
      rw [tree_cons, hget]
      cases q with
      | nil => simp [DirectoryEntry.tree]
      | cons k' q => exact ih hsub k' q hpre
    | case3 | case4 | case6 => cases h
    | case5 k' path d hget sub' hsub ih =>
      obtain ⟨rfl, -⟩ := cons_prefix_cons.mp hq
      simp [tree_cons, hget]

end Mkdir

end Bz.Directory.DirectoryBuilder

/-! ## Parts of a tree -/

namespace Bz.PathMap

variable {K L : Type} {A B : PathMap K L}

/-- Every node of the one tree is one of the other. -/
def Within (A B : PathMap K L) : Prop := ∀ p n, A p = some n → B p = some n

/-- A part with all nodes of the tree is the tree. -/
theorem Within.antisymm (h : Within A B) (h' : Within B A) : A = B := by
  funext p
  cases hA : A p with
  | none =>
    cases hB : B p with
    | none => rfl
    | some n =>
      rw [h' p n hB] at hA
      cases hA
  | some n => exact (h p n hA).symm

end Bz.PathMap

namespace Bz.Directory.DirectoryBuilder

open List

variable {K L H : Type} [DecidableEq K] {d : DirectoryBuilder K L H} {T : PathMap K L}
  {path : List K} {p : List K}

/-- **A directory of the tree can be made in a part of it.** -/
theorem mkdir_within (hT : PathMap.IsTree T) (hd : PathMap.Within d.tree T)
    (hpath : T path = some .dir) : ∃ d', d.mkdir path = (d', .ok ()) ∧ PathMap.Within d'.tree T ∧
      PathMap.Within d.tree d'.tree ∧ d'.tree path = some .dir := by
  have habove : ∀ p, p <+: path → T p = some .dir := by
    intro p hp
    by_cases hne : p = path
    · rw [hne, hpath]
    · exact hT.dir_above hp hne (by simp [hpath])
  match h : mkdirInner path d with
  | (d', .error c) =>
    obtain ⟨-, hc, l, hl⟩ := mkdirInner_error h
    have hleaf := hd _ _ hl
    rw [habove c hc] at hleaf
    cases hleaf
  | (d', .ok ()) =>
    have htree := mkdirInner_ok h
    refine ⟨d', h, ?_, ?_, by rw [htree, if_pos prefix_rfl]⟩
    · intro p n hp
      rw [htree] at hp
      split at hp
      · next hle => rw [← hp, habove p hle]
      · exact hd p n hp
    · intro p n hp
      rw [htree]
      split
      · next hle => rw [← hd p n hp, habove p hle]
      · exact hp

/-- **A leaf of the tree can be inserted into a part of it.** -/
theorem insert_within {l : L} (hT : PathMap.IsTree T) (hd : PathMap.Within d.tree T)
    (hpath : T path = some (.leaf l)) :
    ∃ d' old, d.insert path (.leaf l) = (d', .ok old) ∧ PathMap.Within d'.tree T ∧
      PathMap.Within d.tree d'.tree ∧ d'.tree path = some (.leaf l) := by
  have habove : ∀ p, p <+: path → p ≠ path → T p = some .dir :=
    fun p hp hne => hT.dir_above hp hne (by simp [hpath])
  match h : d.insert path (.leaf l) with
  | (d', .error e) =>
    obtain ⟨-, ⟨rfl, -⟩ | ⟨c, l', -, hc, hne, hl⟩⟩ := insert_error h
    · rw [hT.root] at hpath
      cases hpath
    · have hleaf := hd _ _ hl
      rw [habove c hc hne] at hleaf
      cases hleaf
  | (d', .ok old) =>
    obtain ⟨-, -, htree, -⟩ := insert_ok h
    have hself : d'.tree path = some (.leaf l) := by
      have := PathMap.putAt_append d.tree (DirectoryEntry.tree (.leaf l :
          BuilderEntry K L H)) path []
      rw [append_nil, ← htree] at this
      rw [this]
      rfl
    refine ⟨d', old, rfl, ?_, ?_, hself⟩
    · intro p n hp
      by_cases hbelow : path <+: p
      · obtain ⟨q, rfl⟩ := hbelow
        rw [htree, PathMap.putAt_append] at hp
        cases q with
        | nil =>
          cases hp
          rw [append_nil, hpath]
        | cons k q => cases hp
      · by_cases hle : p <+: path
        · have hne : p ≠ path := fun heq => hbelow (by rw [heq])
          rw [htree, PathMap.putAt_above hle hne] at hp
          rw [← hp, habove p hle hne]
        · rw [htree, PathMap.putAt_apart hbelow hle] at hp
          exact hd p n hp
    · intro p n hp
      have hTp := hd p n hp
      by_cases hbelow : path <+: p
      · by_cases hne : path = p
        · subst hne
          rw [hself, ← hTp, hpath]
        · -- nothing of the tree is below the leaf
          have := hT.dir_above hbelow hne (by simp [hTp])
          rw [hpath] at this
          cases this
      · by_cases hle : p <+: path
        · have hne : p ≠ path := fun heq => hbelow (by rw [heq])
          rw [htree, PathMap.putAt_above hle hne, ← hTp, habove p hle hne]
        · rw [htree, PathMap.putAt_apart hbelow hle]
          exact hp

/-! ## Walking over all nodes -/

mutual

/-- `unordered_walk`: the nodes below the root, each directory before what is in it. -/
def unorderedWalk : DirectoryBuilder K L H → List (List K × Node L)
  | node _ entries => unorderedWalkBelow entries

def unorderedWalkBelow : List (K × BuilderEntry K L H) → List (List K × Node L)
  | [] => []
  | (k, .dir d) :: entries =>
    ([k], .dir) :: (unorderedWalk d).map (fun x => (k :: x.1, x.2)) ++ unorderedWalkBelow entries
  | (k, .leaf l) :: entries => ([k], .leaf l) :: unorderedWalkBelow entries

end

omit [DecidableEq K] in
theorem unorderedWalkBelow_eq (entries : List (K × BuilderEntry K L H)) :
    unorderedWalkBelow entries = entries.flatMap fun e => match e.2 with
      | .dir sub => ([e.1], .dir) :: (unorderedWalk sub).map fun x => (e.1 :: x.1, x.2)
      | .leaf l => [([e.1], .leaf l)] := by
  induction entries with
  | nil => rfl
  | cons e entries ih =>
    obtain ⟨k, sub | l⟩ := e
    · rw [unorderedWalkBelow, ih, flatMap_cons]
    · rw [unorderedWalkBelow, ih, flatMap_cons, singleton_append]

omit [DecidableEq K] in
theorem mem_unorderedWalkBelow {entries : List (K × BuilderEntry K L H)}
    {n : Node L} : (p, n) ∈ unorderedWalkBelow entries ↔
      (∃ k l, (k, .leaf l) ∈ entries ∧ p = [k] ∧ n = .leaf l) ∨ ∃ k sub, (k, .dir sub) ∈ entries ∧
        (p = [k] ∧ n = .dir ∨ ∃ q, p = k :: q ∧ (q, n) ∈ sub.unorderedWalk) := by
  rw [unorderedWalkBelow_eq, mem_flatMap]
  constructor
  · rintro ⟨⟨k, sub | l⟩, hk, h⟩
    · refine .inr ⟨k, sub, hk, ?_⟩
      rcases mem_cons.mp h with heq | h
      · cases heq
        exact .inl ⟨rfl, rfl⟩
      · obtain ⟨x, hx, heq⟩ := mem_map.mp h
        cases heq
        exact .inr ⟨x.1, rfl, hx⟩
    · cases mem_singleton.mp h
      exact .inl ⟨k, l, hk, rfl, rfl⟩
  · rintro (⟨k, l, hk, rfl, rfl⟩ | ⟨k, sub, hk, ⟨rfl, rfl⟩ | ⟨q, rfl, hq⟩⟩)
    · exact ⟨_, hk, mem_singleton.mpr rfl⟩
    · exact ⟨_, hk, mem_cons_self⟩
    · exact ⟨_, hk, mem_cons_of_mem _ (mem_map.mpr ⟨(q, n), hq, rfl⟩)⟩

/-- **The walk visits the nodes below the root.** -/
theorem mem_unorderedWalk (hd : d.Valid) {n : Node L} :
    (p, n) ∈ d.unorderedWalk ↔ p ≠ [] ∧ d.tree p = some n := by
  induction d using recurse generalizing p n with
  | h d ih =>
    obtain ⟨kind, entries⟩ := d
    rw [unorderedWalk, mem_unorderedWalkBelow]
    constructor
    · rintro (⟨k, l, hk, rfl, rfl⟩ | ⟨k, sub, hk, ⟨rfl, rfl⟩ | ⟨q, rfl, hq⟩⟩)
      · refine ⟨cons_ne_nil _ _, ?_⟩
        rw [tree_cons, hd.get_iff.mpr hk]
        rfl
      · refine ⟨cons_ne_nil _ _, ?_⟩
        rw [tree_cons, hd.get_iff.mpr hk]
        exact tree_nil sub
      · refine ⟨cons_ne_nil _ _, ?_⟩
        rw [tree_cons, hd.get_iff.mpr hk]
        exact ((ih k sub hk (hd.entry hk)).mp hq).2
    · rintro ⟨hne, hp⟩
      cases p with
      | nil => exact absurd rfl hne
      | cons k q =>
        rw [tree_cons] at hp
        obtain ⟨e, he, hp⟩ := Option.bind_eq_some_iff.mp hp
        have hk := hd.get_iff.mp he
        cases e with
        | leaf l =>
          obtain ⟨rfl, hp⟩ := DirectoryEntry.eq_of_tree_leaf hp
          cases hp
          exact .inl ⟨k, l, hk, rfl, rfl⟩
        | dir sub =>
          refine .inr ⟨k, sub, hk, ?_⟩
          cases q with
          | nil =>
            cases hp
            exact .inl ⟨rfl, rfl⟩
          | cons k' q =>
            exact .inr ⟨_, rfl, (ih k sub hk (hd.entry hk)).mpr ⟨cons_ne_nil _ _, hp⟩⟩

end Bz.Directory.DirectoryBuilder
