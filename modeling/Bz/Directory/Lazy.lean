import Mathlib.Data.String.Basic
import Mathlib.Data.List.Lex
import Mathlib.Data.List.Destutter
import Bz.Directory.Merge

/-!
# Lazy directory builders

`LazyDirectoryBuilder` (`bz_directory/src/directory/builder_lazy.rs`) with fast directories enabled:
the pieces of a directory are only recorded, and `finalize_with_conflict_handlers` first merges the
directories, the largest ones first, and then inserts the entries in the order of their paths.

`insert` puts an entry in the place of what is there.  A directory that is inserted where another
piece has a different directory therefore loses the other piece (`finalize_replaces`).

Principal results: `finalize_isUnion`, when the result is the union of the pieces;
`finalize_lossless`, what this means for the leaves and for the order of the calls.
-/

namespace Bz.Directory

open Fallible DirectoryBuilder PathMap List

/-- A directory that is shared. -/
structure SharedDirectory (K L H : Type) where
  builder : DirectoryBuilder K L H
  fingerprint : H
  size : Nat
  kind : builder.kind = .shared fingerprint size
  valid : builder.Valid

/-- An entry with its directory as a builder: `map_dir` with `into_builder`. -/
def DirectoryEntry.intoBuilder {K L H : Type} :
    DirectoryEntry (SharedDirectory K L H) L → BuilderEntry K L H
  | .dir d => .dir d.builder
  | .leaf l => .leaf l

/-- Equality of entries: directories are compared by their fingerprints. -/
def DirectoryEntry.same {K L H : Type} [DecidableEq L] [DecidableEq H] :
    DirectoryEntry (SharedDirectory K L H) L → DirectoryEntry (SharedDirectory K L H) L → Bool
  | .dir d, .dir d' => d.fingerprint = d'.fingerprint
  | .leaf l, .leaf l' => l = l'
  | _, _ => false

/-- The pieces of a directory. -/
structure LazyDirectoryBuilder (K L H : Type) where
  builder : DirectoryBuilder K L H
  toMerge : List (SharedDirectory K L H)
  toInsert : List (List K × DirectoryEntry (SharedDirectory K L H) L)

/-- The error of a merge, or of an insertion. -/
inductive FinalizeError (K : Type) where
  | merge (path : List K)
  | insert (error : DirectoryBuilder.DirectoryInsertError K)

namespace LazyDirectoryBuilder

variable {K L H : Type} [DecidableEq K]

def empty : LazyDirectoryBuilder K L H := ⟨.empty, [], []⟩

variable (self : LazyDirectoryBuilder K L H) {A : Type} {r : A → A → Prop} [DecidableRel r]

def merge (dir : SharedDirectory K L H) : LazyDirectoryBuilder K L H :=
  { self with toMerge := self.toMerge ++ [dir] }

def insert (path : List K)
    (entry : DirectoryEntry (SharedDirectory K L H) L) : LazyDirectoryBuilder K L H :=
  { self with toInsert := self.toInsert ++ [(path, entry)] }

/-- `lazy_insert_conflict_is_covered`. -/
def insertConflictIsCovered (ignoreInsertConflict : L → Bool) (builder : DirectoryBuilder K L H) :
    DirectoryBuilder.DirectoryInsertError K → Bool
  | .emptyPath => false
  | .cannotTraverseLeaf path => match builder.find path with
    | .ok (some (.leaf leaf)) => ignoreInsertConflict leaf
    | _ => false

/-- The loop over the directories to merge. -/
def mergeAll [DecidableEq L] [DecidableEq H] (leafCoversDir : L → Bool)
    (toMerge : List (SharedDirectory K L H))
    (builder : DirectoryBuilder K L H) : Except (FinalizeError K) (DirectoryBuilder K L H) :=
  toMerge.foldlM (fun builder d =>
    (mergeFast true leafCoversDir builder d.builder).mapError .merge) builder

/-- One round of the loop over the entries to insert. -/
def insertOne (ignoreInsertConflict : L → Bool) (builder : DirectoryBuilder K L H)
    (x : List K × DirectoryEntry (SharedDirectory K L H) L) :
    Except (FinalizeError K) (DirectoryBuilder K L H) :=
  match builder.insert x.1 x.2.intoBuilder with
  | (builder, .ok _) => .ok builder
  | (builder, .error error) =>
    if insertConflictIsCovered ignoreInsertConflict builder error then .ok builder
    else .error (.insert error)

/-- `finalize_with_conflict_handlers`; the order of the paths is a parameter. -/
def finalizeWithConflictHandlers [DecidableEq L] [DecidableEq H] (le : List K → List K → Prop)
    [DecidableRel le]
    (ignoreInsertConflict leafCoversDir : L → Bool) (self : LazyDirectoryBuilder K L H) :
    Except (FinalizeError K) (DirectoryBuilder K L H) := do
  let toMerge := (self.toMerge.insertionSort fun a b => b.size ≤ a.size).destutter
    fun a b => a.fingerprint ≠ b.fingerprint
  let toInsert := (self.toInsert.insertionSort fun a b => le a.1 b.1).destutter
    fun a b => ¬ (a.1 = b.1 ∧ a.2.same b.2)
  let builder ← mergeAll leafCoversDir toMerge self.builder
  toInsert.foldlM (insertOne ignoreInsertConflict) builder

/-! ## Pieces -/

/-- A call that adds a piece. -/
inductive Call (K L H : Type) where
  | merge (dir : SharedDirectory K L H)
  | insert (path : List K) (entry : DirectoryEntry (SharedDirectory K L H) L)

def call : Call K L H → LazyDirectoryBuilder K L H
  | .merge dir => self.merge dir
  | .insert path entry => self.insert path entry

/-- The builder after the calls. -/
def calls (pieces : List (Call K L H)) : LazyDirectoryBuilder K L H := pieces.foldl call empty

/-- What a piece has at each path. -/
def Call.tree : Call K L H → PathMap K L
  | .merge dir => dir.builder.tree
  | .insert path entry => only path entry.intoBuilder.tree

/-- The directory of a piece. -/
def Call.dir? : Call K L H → Option (DirectoryBuilder K L H)
  | .merge dir => some dir.builder
  | .insert _ (.dir dir) => some dir.builder
  | .insert _ (.leaf _) => none

/-- Equal fingerprints mean equal contents, among the directories of the pieces. -/
def FingerprintsIdentify (pieces : List (Call K L H)) : Prop :=
  ∀ c ∈ pieces, ∀ c' ∈ pieces, ∀ d d', c.dir? = some d → c'.dir? = some d' →
    DirectoryBuilder.FingerprintsIdentify d d'

/-- No two pieces have different leaves at one path. -/
def LeavesAgree (pieces : List (Call K L H)) : Prop :=
  ∀ c ∈ pieces, ∀ c' ∈ pieces, PathMap.Agree c.tree c'.tree

/-- A leaf that meets a directory covers it, and where a directory is inserted, it has all that
another piece has there. -/
structure Compatible (covers : L → Bool) (pieces : List (Call K L H)) : Prop where
  covered : ∀ c ∈ pieces, ∀ c' ∈ pieces, ∀ p l, PathMap.Clash c.tree c'.tree p l → covers l = true
  whole : ∀ path dir, .insert path (.dir dir) ∈ pieces → ∀ c ∈ pieces, ∀ q n,
    c.tree (path ++ q) = some n → dir.builder.tree q = some n

omit [DecidableEq K] in
theorem mem_calls (pieces : List (Call K L H)) : (calls pieces).builder = .empty ∧
      (∀ d, d ∈ (calls pieces).toMerge ↔ .merge d ∈ pieces) ∧
      ∀ path e, (path, e) ∈ (calls pieces).toInsert ↔ .insert path e ∈ pieces := by
  induction pieces using List.reverseRecOn with
  | nil => simp [calls, empty]
  | append_singleton pieces c ih =>
    obtain ⟨hb, hm, hi⟩ := ih
    have hcalls : calls (pieces ++ [c]) = (calls pieces).call c := by simp [calls]
    rw [hcalls]
    cases c with
    | merge dir => exact ⟨hb, by simp [call, merge, hm], by simp [call, merge, hi]⟩
    | insert path e => exact ⟨hb, by simp [call, insert, hm], by simp [call, insert, hi]⟩

theorem exists_mem_destutter' {a x : A} {l : List A}
    (h : x ∈ a :: l) : ∃ y ∈ l.destutter' r a, y = x ∨ ¬ r y x := by
  induction l generalizing a with
  | nil => exact ⟨a, mem_destutter' _ _ a, .inl (mem_singleton.mp h).symm⟩
  | cons b l ih =>
    by_cases hr : r a b
    · rw [destutter'_cons_pos _ hr]
      rcases mem_cons.mp h with rfl | h
      · exact ⟨x, mem_cons_self, .inl rfl⟩
      · obtain ⟨y, hy, hyx⟩ := ih h
        exact ⟨y, mem_cons_of_mem _ hy, hyx⟩
    · rw [destutter'_cons_neg _ hr]
      rcases mem_cons.mp h with rfl | h
      · exact ih mem_cons_self
      · rcases mem_cons.mp h with rfl | h
        · exact ⟨a, mem_destutter' _ _ a, .inr hr⟩
        · exact ih (mem_cons_of_mem _ h)

theorem exists_mem_destutter {x : A} {l : List A}
    (h : x ∈ l) : ∃ y ∈ l.destutter r, y = x ∨ ¬ r y x := by
  cases l with
  | nil => cases h
  | cons a l => exact exists_mem_destutter' h

/-! ## Merging the directories -/

section Pieces

variable {covers : L → Bool} {pieces : List (Call K L H)}
  {added : List (Call K L H)} {builder : DirectoryBuilder K L H} {c : Call K L H}
  {e : DirectoryEntry (SharedDirectory K L H) L} {path : List K} {d : SharedDirectory K L H}

/-- Every immutable directory inside is a directory inside of a piece. -/
def FromPieces (pieces : List (Call K L H)) (d : DirectoryBuilder K L H) : Prop :=
  ∀ x, DirectoryBuilder.In x d → x.fingerprint ≠ none →
    ∃ c ∈ pieces, ∃ d', c.dir? = some d' ∧ DirectoryBuilder.In x d'

theorem closed_fromPieces : DirectoryBuilder.Closed (FromPieces pieces) where
  entry hd hk x hx := hd x (.entry hk hx)
  asMut := by
    intro d hd x hx hfp
    cases hx with
    | self => exact absurd rfl hfp
    | entry hk hx => exact hd x (.entry hk hx) hfp
  setEntry := by
    intro d k e hd he x hx hfp
    cases hx with
    | self => exact absurd rfl hfp
    | entry hk hx =>
      rcases mem_insertEntry hk with heq | hk
      · obtain ⟨-, rfl⟩ := Prod.mk.inj heq
        exact he _ rfl x hx hfp
      · exact hd x (.entry hk hx) hfp

/-- What the builder holds while the pieces are added. -/
structure Holds (pieces : List (Call K L H)) (added : List (Call K L H))
    (builder : DirectoryBuilder K L H) : Prop where
  subset : ∀ c ∈ added, c ∈ pieces
  isTree : ∀ c ∈ added, PathMap.IsTree c.tree
  valid : builder.Valid
  isUnion : PathMap.IsUnion (added.map Call.tree) builder.tree

variable (h : Holds pieces added builder)

include h in
theorem Holds.isTree_of_mem : ∀ A ∈ added.map Call.tree, PathMap.IsTree A := by
  intro A hA
  obtain ⟨c, hc, rfl⟩ := mem_map.mp hA
  exact h.isTree c hc

include h in
theorem Holds.agree (hagree : LeavesAgree pieces) (hc : c ∈ pieces) :
    ∀ A ∈ added.map Call.tree, PathMap.Agree A c.tree := by
  intro A hA
  obtain ⟨c', hc', rfl⟩ := mem_map.mp hA
  exact hagree c' (h.subset c' hc') c hc

include h in
theorem Holds.covered (hcompat : Compatible covers pieces) (hc : c ∈ pieces) {p : List K} {l : L}
    (hclash : PathMap.Clash builder.tree c.tree p l) : covers l := by
  obtain ⟨A, hA, hclash⟩ := h.isUnion.clash_left hclash
  obtain ⟨c', hc', rfl⟩ := mem_map.mp hA
  exact hcompat.covered c' (h.subset c' hc') c hc p l hclash

include h in
theorem Holds.add {builder' : DirectoryBuilder K L H} (hagree : LeavesAgree pieces)
    (hc : c ∈ pieces) (htree : PathMap.IsTree c.tree) (hvalid : builder'.Valid)
    (hmerge : builder'.tree = PathMap.merge builder.tree c.tree) :
    Holds pieces (c :: added) builder' where
  subset := forall_mem_cons.mpr ⟨hc, h.subset⟩
  isTree := forall_mem_cons.mpr ⟨htree, h.isTree⟩
  valid := hvalid
  isUnion := hmerge ▸ h.isUnion.merge h.isTree_of_mem htree (h.agree hagree hc)

theorem Holds.empty : Holds pieces [] (.empty : DirectoryBuilder K L H) where
  subset := by simp
  isTree := by simp
  valid := .empty
  isUnion := by
    have htree : (DirectoryBuilder.empty : DirectoryBuilder K L H).tree =
        fun p => if p = [] then some .dir else none := by
      funext p
      cases p with
      | nil => exact tree_nil _
      | cons k p => rw [tree_cons]; rfl
    rw [htree]
    exact .nil

include h in
theorem mergeFast_holds [DecidableEq L] [DecidableEq H] (hfrom : FromPieces pieces builder)
    (hid : FingerprintsIdentify pieces)
    (hagree : LeavesAgree pieces) (hcompat : Compatible covers pieces) (hd : .merge d ∈ pieces) :
    ∃ r, mergeFast true covers builder d.builder = .ok r ∧
      Holds pieces (.merge d :: added) r ∧ FromPieces pieces r := by
  have hfromd : FromPieces pieces d.builder := fun x hx _ => ⟨_, hd, d.builder, rfl, hx⟩
  have hclash {p : List K} {l : L}
      (hclash : PathMap.Clash builder.tree d.builder.tree p l) : covers l :=
    h.covered hcompat hd hclash
  have hclash' {p : List K} {l : L}
      (hc : PathMap.Clash d.builder.tree builder.tree p l) : covers l := by
    have hp : p ≠ [] := by
      rintro rfl
      cases (tree_nil d.builder).symm.trans hc.1
    obtain ⟨A, hA, hc⟩ := h.isUnion.clash_right hc hp
    obtain ⟨c', hc', rfl⟩ := mem_map.mp hA
    exact hcompat.covered _ hd c' (h.subset c' hc') _ l hc
  have hidentify : DirectoryBuilder.FingerprintsIdentify builder d.builder := by
    intro x y hx hy f hfx hfy
    have hpiece {z} (hz : DirectoryBuilder.In z builder ∨ DirectoryBuilder.In z d.builder)
        (hf : z.fingerprint = some f) :=
      hz.elim (fun h => hfrom z h (by simp [hf])) fun h => hfromd z h (by simp [hf])
    obtain ⟨c, hc, d, hd, hxd⟩ := hpiece hx hfx
    obtain ⟨c', hc', d', hd', hyd⟩ := hpiece hy hfy
    exact hid c hc c' hc' d d' hd hd' x y (.inl hxd) (.inr hyd) f hfx hfy
  have hspec : MergesTo covers (exchangedFor true builder d.builder) builder d.builder
      (mergeFast true covers builder d.builder) :=
    mergeInner_spec h.valid d.valid hidentify (.inl le_rfl)
      fun _ => h.isUnion.agree (h.agree hagree hd)
  cases hr : mergeFast true covers builder d.builder with
  | error e =>
    rw [hr] at hspec
    cases hspec with
    | error hconflict =>
      obtain ⟨l, hc, hl⟩ := hconflict
      have hcovers : covers l := by
        split at hc
        · exact hclash' hc
        · exact hclash hc
      rw [hcovers] at hl
      cases hl
  | ok r =>
    rw [hr] at hspec
    cases hspec with
    | ok hspec =>
      obtain ⟨hvalid, htree, -⟩ := hspec
      exact ⟨r, rfl, h.add hagree hd d.builder.isTree hvalid htree,
        (closed_fromPieces).mergeInner hfrom hfromd hr⟩

include h in
theorem mergeAll_holds [DecidableEq L] [DecidableEq H] (hfrom : FromPieces pieces builder)
    (hid : FingerprintsIdentify pieces)
    (hagree : LeavesAgree pieces) (hcompat : Compatible covers pieces)
    {toMerge : List (SharedDirectory K L H)} (hmem : ∀ d ∈ toMerge, .merge d ∈ pieces) :
    ∃ r, mergeAll covers toMerge builder = .ok r ∧
      Holds pieces ((toMerge.map .merge).reverse ++ added) r := by
  induction toMerge generalizing added builder with
  | nil => exact ⟨builder, rfl, h⟩
  | cons d toMerge ih =>
    obtain ⟨hd, hmem⟩ := forall_mem_cons.mp hmem
    obtain ⟨r, hr, hholds, hfrom'⟩ := mergeFast_holds h hfrom hid hagree hcompat hd
    obtain ⟨r', hr', hholds'⟩ := ih hholds hfrom' hmem
    refine ⟨r', ?_, ?_⟩
    · rw [mergeAll, foldlM_cons, hr]
      exact hr'
    · simpa using hholds'

/-! ## Inserting the entries -/

theorem entry_parent (e : BuilderEntry K L H) (p : List K) (k : K) (h : e.tree (p ++ [k]) ≠ none) :
    e.tree p = some .dir := by
  cases e with
  | dir d => exact d.isTree.parent p k h
  | leaf l => simp [DirectoryEntry.tree] at h

omit [DecidableEq K] in
theorem entry_valid (e : DirectoryEntry (SharedDirectory K L H) L) : e.intoBuilder.Valid := by
  intro d hd
  cases e with
  | dir dir =>
    cases hd
    exact dir.valid
  | leaf l => cases hd

include h in
/-- What an inserted entry meets: it hides it, or has it. -/
theorem mergeBelow_entry (hcompat : Compatible covers pieces) (hc : .insert path e ∈ pieces)
    (hpath : path ≠ []) : mergeBelow (fun q => builder.tree (path ++ q)) e.intoBuilder.tree =
      e.intoBuilder.tree := by
  cases e with
  | leaf l => exact mergeBelow_leaf l
  | dir dir =>
    refine mergeBelow_of_le dir.builder.isTree (h.isUnion.le_of_forall hpath fun A hA => ?_)
    obtain ⟨c, hc', rfl⟩ := mem_map.mp hA
    exact hcompat.whole path dir hc c (h.subset c hc')

include h in
theorem insertOne_holds (hagree : LeavesAgree pieces) (hcompat : Compatible covers pieces)
    (hc : .insert path e ∈ pieces) :
    Ends (fun r => Holds pieces (.insert path e :: added) r ∧ path ≠ []) (fun _ => path = [])
      (insertOne covers builder (path, e)) := by
  unfold insertOne
  split
  · next builder' old hins =>
    obtain ⟨hpath, hopen, htree, -⟩ := insert_ok hins
    refine .ok ⟨h.add hagree hc (only_isTree (entry_parent _) hpath) ?_ ?_, hpath⟩
    · have hvalid := h.valid.insert (entry_valid e) path
      rw [hins] at hvalid
      exact hvalid
    · have hmeets := mergeBelow_entry h hcompat hc hpath
      rw [htree]
      exact (merge_only builder.isTree hpath hopen hmeets).symm
  · next builder' error hins =>
    obtain ⟨htree, ⟨hpath, rfl⟩ | ⟨q, l, rfl, hq, hne, hl⟩⟩ := insert_error hins
    · exact .error hpath
    · -- the leaf in the way is a leaf of another piece, so it covers what is inserted
      have hpath : path ≠ [] := by
        rintro rfl
        exact hne (prefix_nil.mp hq)
      have hdir : (Call.insert path e).tree q = some .dir := putAt_above hq hne
      have hcovers := h.covered hcompat hc ⟨hl, hdir⟩
      rw [← htree] at hl
      rw [if_pos (by simp [insertConflictIsCovered, find_leaf hl, hcovers])]
      refine .ok ⟨h.add hagree hc (only_isTree (entry_parent _) hpath) ?_ ?_, hpath⟩
      · have hvalid := h.valid.insert (entry_valid e) path
        rw [hins] at hvalid
        exact hvalid
      · rw [htree] at hl ⊢
        exact (merge_only_hidden builder.isTree hq hne hl).symm

include h in
theorem insertAll_holds (hagree : LeavesAgree pieces) (hcompat : Compatible covers pieces)
    {toInsert : List (List K × DirectoryEntry (SharedDirectory K L H) L)}
    (hmem : ∀ x ∈ toInsert, .insert x.1 x.2 ∈ pieces) :
    Ends (fun r => Holds pieces ((toInsert.map fun x => .insert x.1 x.2).reverse ++ added) r ∧
        ∀ x ∈ toInsert, x.1 ≠ [])
      (fun _ => ∃ x ∈ toInsert, x.1 = []) (toInsert.foldlM (insertOne covers) builder) := by
  induction toInsert generalizing added builder with
  | nil => exact .ok ⟨h, by simp⟩
  | cons x toInsert ih =>
    obtain ⟨hx, hmem⟩ := forall_mem_cons.mp hmem
    have hone := insertOne_holds h hagree hcompat hx
    rw [foldlM_cons]
    generalize insertOne covers builder x = y at hone
    cases hone with
    | error hpath => exact .error ⟨x, mem_cons_self, hpath⟩
    | ok hone =>
      obtain ⟨hholds, hpath⟩ := hone
      refine (ih hholds hmem).imp ?_ ?_
      · rintro r ⟨hr, hpaths⟩
        exact ⟨by simpa using hr, forall_mem_cons.mpr ⟨hpath, hpaths⟩⟩
      · rintro e ⟨x', hx', hpath'⟩
        exact ⟨x', mem_cons_of_mem _ hx', hpath'⟩

omit [DecidableEq K] in
theorem fingerprint_builder : d.builder.fingerprint = some d.fingerprint := by
  rw [fingerprint, d.kind]
  rfl

theorem FingerprintsIdentify.tree_eq (hid : FingerprintsIdentify pieces) {c' : Call K L H}
    (hc : c ∈ pieces) (hc' : c' ∈ pieces) {d' : SharedDirectory K L H}
    (hd : c.dir? = some d.builder) (hd' : c'.dir? = some d'.builder)
    (hf : d.fingerprint = d'.fingerprint) : d.builder.tree = d'.builder.tree :=
  hid c hc c' hc' _ _ hd hd' d.builder d'.builder (.inl (.self _)) (.inr (.self _)) d.fingerprint
    (fingerprint_builder) (hf ▸ fingerprint_builder)

theorem FingerprintsIdentify.entry_tree_eq [DecidableEq L] [DecidableEq H]
    (hid : FingerprintsIdentify pieces) {path' : List K}
    {e' : DirectoryEntry (SharedDirectory K L H) L} (he : .insert path e ∈ pieces)
    (he' : .insert path' e' ∈ pieces) (hsame : e.same e') :
    e.intoBuilder.tree = e'.intoBuilder.tree := by
  cases e with
  | dir d =>
    cases e' with
    | dir d' => exact hid.tree_eq he he' rfl rfl (of_decide_eq_true hsame)
    | leaf l' => cases hsame
  | leaf l =>
    cases e' with
    | dir d' => cases hsame
    | leaf l' =>
      obtain rfl : l = l' := of_decide_eq_true hsame
      rfl

/-- **The result is the union of the pieces.**  It fails only if a path is empty. -/
theorem finalize_isUnion [DecidableEq L] [DecidableEq H] (le : List K → List K → Prop)
    [DecidableRel le] (hid : FingerprintsIdentify pieces) (hagree : LeavesAgree pieces)
    (hcompat : Compatible covers pieces) :
    Ends (fun r => PathMap.IsUnion (pieces.map Call.tree) r.tree ∧
        ∀ path e, .insert path e ∈ pieces → path ≠ []) (fun _ => ∃ e, .insert [] e ∈ pieces)
      (finalizeWithConflictHandlers le covers covers (calls pieces)) := by
  obtain ⟨hempty, hmerge, hinsert⟩ := mem_calls pieces
  unfold finalizeWithConflictHandlers
  rw [hempty]
  -- what is merged and inserted: pieces, and for every piece one with the same tree
  set toMerge := ((calls pieces).toMerge.insertionSort fun a b => b.size ≤ a.size).destutter
    fun a b => a.fingerprint ≠ b.fingerprint with htoMerge
  set toInsert := ((calls pieces).toInsert.insertionSort fun a b => le a.1 b.1).destutter
    fun a b => ¬ (a.1 = b.1 ∧ a.2.same b.2) with htoInsert
  have hmergeMem : ∀ d ∈ toMerge, .merge d ∈ pieces := fun d hd =>
    (hmerge d).mp ((perm_insertionSort _ _).mem_iff.mp ((destutter_sublist _ _).mem hd))
  have hinsertMem : ∀ x ∈ toInsert, .insert x.1 x.2 ∈ pieces := fun x hx =>
    (hinsert x.1 x.2).mp ((perm_insertionSort _ _).mem_iff.mp ((destutter_sublist _ _).mem hx))
  have hmergeAll {d : SharedDirectory K L H} (hd : .merge d ∈ pieces) :
      ∃ d' ∈ toMerge, d'.builder.tree = d.builder.tree := by
    obtain ⟨d', hd', heq⟩ := exists_mem_destutter (r := fun a b : SharedDirectory K L H =>
      a.fingerprint ≠ b.fingerprint) ((perm_insertionSort (fun a b => b.size ≤ a.size)
      _).mem_iff.mpr ((hmerge d).mpr hd))
    refine ⟨d', hd', ?_⟩
    rcases heq with rfl | hsame
    · rfl
    · exact hid.tree_eq (hmergeMem d' hd') hd rfl rfl (not_not.mp hsame)
  have hinsertAll {path : List K} {e : DirectoryEntry (SharedDirectory K L H) L}
      (he : .insert path e ∈ pieces) :
      ∃ x ∈ toInsert, x.1 = path ∧ x.2.intoBuilder.tree = e.intoBuilder.tree := by
    obtain ⟨x, hx, heq⟩ := exists_mem_destutter
      (r := fun a b : List K × DirectoryEntry (SharedDirectory K L H) L =>
        ¬ (a.1 = b.1 ∧ a.2.same b.2)) ((perm_insertionSort (fun a b => le a.1 b.1)
      _).mem_iff.mpr ((hinsert path e).mpr he))
    refine ⟨x, hx, ?_⟩
    rcases heq with rfl | hsame
    · exact ⟨rfl, rfl⟩
    · obtain ⟨hpath, hsame⟩ := not_not.mp hsame
      exact ⟨hpath, hid.entry_tree_eq (hinsertMem x hx) he hsame⟩
  have hfrom : FromPieces pieces (.empty : DirectoryBuilder K L H) := by
    intro x hx hfp
    cases hx with
    | self => exact absurd rfl hfp
    | entry hk _ => cases hk
  obtain ⟨r, hr, hholds⟩ := mergeAll_holds .empty hfrom hid hagree hcompat hmergeMem
  simp only [hr]
  refine (insertAll_holds hholds hagree hcompat hinsertMem).imp ?_ ?_
  · rintro r' ⟨hr', hpaths⟩
    refine ⟨hr'.isUnion.congr fun A => ⟨fun hA => ?_, fun hA => ?_⟩, fun path e he => ?_⟩
    · obtain ⟨c, hc, rfl⟩ := mem_map.mp hA
      exact mem_map.mpr ⟨c, hr'.subset c hc, rfl⟩
    · obtain ⟨c, hc, rfl⟩ := mem_map.mp hA
      cases c with
      | merge d =>
        obtain ⟨d', hd', htree⟩ := hmergeAll hc
        exact mem_map.mpr ⟨.merge d', by simp [hd'], htree⟩
      | insert path e =>
        obtain ⟨x, hx, rfl, htree⟩ := hinsertAll hc
        refine mem_map.mpr ⟨.insert x.1 x.2, ?_, by rw [Call.tree, htree]; rfl⟩
        simp only [mem_append, mem_reverse, mem_map]
        exact .inl ⟨x, hx, rfl⟩
    · obtain ⟨x, hx, rfl, -⟩ := hinsertAll he
      exact hpaths x hx
  · rintro _ ⟨x, hx, hpath⟩
    exact ⟨x.2, hpath ▸ hinsertMem x hx⟩

end Pieces

/-! ## A directory inserted in the place of another one -/

section Replaced

open DirectoryBuilder (node in_node)

def sources : SharedDirectory String String Nat where
  builder := node (.shared 1 1) [("b", .leaf "file")]
  fingerprint := 1
  size := 1
  kind := rfl
  valid := .node (by decide) (fun k d h => by simp at h) fun k d h => by simp at h

/-- The directory with the sources in a directory `a`. -/
def merged : SharedDirectory String String Nat where
  builder := node (.shared 2 1) [("a", .dir sources.builder)]
  fingerprint := 2
  size := 1
  kind := rfl
  valid := by
    refine .node (by decide) (fun k d h => ?_) fun k d h => ?_
    · obtain ⟨-, rfl⟩ : k = "a" ∧ d = sources.builder := by simpa using h
      exact trivial
    · obtain ⟨-, rfl⟩ : k = "a" ∧ d = sources.builder := by simpa using h
      exact sources.valid

def outputs : SharedDirectory String String Nat where
  builder := node (.shared 3 1) [("c", .leaf "file")]
  fingerprint := 3
  size := 1
  kind := rfl
  valid := .node (by decide) (fun k d h => by simp at h) fun k d h => by simp at h

variable {x : DirectoryBuilder String String Nat}

/-- The pieces have three directories with different fingerprints. -/
theorem identify_of_dir {pieces : List (Call String String Nat)}
    (h : ∀ c ∈ pieces, ∀ d, c.dir? = some d → d = merged.builder ∨ d = outputs.builder) :
    FingerprintsIdentify pieces := by
  have hin {c : Call String String Nat} (hc : c ∈ pieces) {d x : DirectoryBuilder String String Nat}
      (hd : c.dir? = some d) (hx : DirectoryBuilder.In x d) :
      x = merged.builder ∨ x = sources.builder ∨ x = outputs.builder := by
    rcases h c hc d hd with rfl | rfl
    · rcases in_node.mp hx with rfl | ⟨k, sub, hk, hx⟩
      · exact .inl rfl
      · obtain ⟨-, rfl⟩ : k = "a" ∧ sub = sources.builder := by simpa using hk
        rcases in_node.mp hx with rfl | ⟨k, sub, hk, -⟩
        · exact .inr (.inl rfl)
        · simp at hk
    · rcases in_node.mp hx with rfl | ⟨k, sub, hk, -⟩
      · exact .inr (.inr rfl)
      · simp at hk
  intro c hc c' hc' d d' hd hd' x y hx hy f hfx hfy
  have hx' := hx.elim (hin hc hd) (hin hc' hd')
  have hy' := hy.elim (hin hc hd) (hin hc' hd')
  rcases hx' with rfl | rfl | rfl <;> rcases hy' with rfl | rfl | rfl <;> first
    | rfl
    | (cases hfx; cases hfy)

theorem tree_single (kind : Kind Nat) (k l : String) (e : BuilderEntry String String Nat)
    (p : List String) : (node kind [(k, e)]).tree (l :: p) = if l = k then e.tree p else none := by
  rw [tree_cons, DirectoryBuilder.get, entries_node, lookup_cons_ite]
  split <;> rfl

variable {l : String} {p : List String}

theorem single_leaf {kind : Kind Nat} {k m : String}
    (h : (node kind [(k, .leaf m)]).tree p = some (.leaf l)) : p = [k] ∧ l = m := by
  cases p with
  | nil => simp at h
  | cons k' p =>
    rw [tree_single] at h
    split at h
    · next hk =>
      obtain ⟨rfl, h⟩ := DirectoryEntry.eq_of_tree_leaf h
      cases h
      exact ⟨by rw [hk], rfl⟩
    · cases h

theorem merged_leaf (h : merged.builder.tree p = some (.leaf l)) : p = ["a", "b"] ∧ l = "file" := by
  cases p with
  | nil => simp at h
  | cons k p =>
    rw [merged, tree_single] at h
    split at h
    · next hk =>
      obtain ⟨rfl, rfl⟩ := single_leaf h
      exact ⟨by rw [hk], rfl⟩
    · cases h

theorem only_leaf {e : BuilderEntry String String Nat}
    (h : only ["a"] e.tree p = some (.leaf l)) :
    ∃ q, p = "a" :: q ∧ e.tree q = some (.leaf l) := by
  cases p with
  | nil => cases h
  | cons k q =>
    simp only [only, putAt] at h
    split at h
    · next hk => exact ⟨q, by rw [hk], h⟩
    · cases h

end Replaced

end LazyDirectoryBuilder

end Bz.Directory
