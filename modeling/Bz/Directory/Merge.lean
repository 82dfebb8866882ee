import Bz.Directory.Builder
import Bz.Fallible

/-!
# Merging directories

`merge_inner`, `map_entry` and `map_entry_fasttrack` of `bz_directory/src/directory/builder.rs`, and
`merge_inner_old`, the implementation that they replace.

The new implementation merges into the larger directory: where leaves are known to be compatible it
exchanges its operands.  The two implementations treat a leaf and a directory at one path by which
side the leaf is on, so an exchange changes what happens there unless the leaf covers directories
(`mergeInner_exchanged`).

Principal results: `mergeInnerOld_spec` and `mergeInner_spec`; `mergeInner_agrees`, for which
directories the two agree.
-/

namespace Bz.Directory

open Fallible PathMap List

namespace DirectoryBuilder

variable {K L H : Type} [DecidableEq K]
  {entries : List (K × BuilderEntry K L H)} {A B : PathMap K L} {n : Nat}
  {self r : DirectoryBuilder K L H} {l : L}

/-! ## The implementation that was replaced -/

/-- The directories are immutable and have the same fingerprint. -/
def sameFingerprint [DecidableEq H] (a b : DirectoryBuilder K L H) : Bool :=
  a.fingerprint.isSome && a.fingerprint = b.fingerprint

mutual

/-- `merge_inner_old`. -/
def mergeInnerOld [DecidableEq H] (leafCoversDir : L → Bool) (self : DirectoryBuilder K L H) :
    DirectoryBuilder K L H → Except (List K) (DirectoryBuilder K L H)
  | node kind entries =>
    if self.fingerprint.isSome && self.fingerprint = kind.fingerprint then .ok self
    else mergeEntriesOld leafCoversDir self.asMut entries

/-- The loop of `merge_inner_old`. -/
def mergeEntriesOld [DecidableEq H] (leafCoversDir : L → Bool) (self : DirectoryBuilder K L H) :
    List (K × BuilderEntry K L H) → Except (List K) (DirectoryBuilder K L H)
  | [] => .ok self
  | (k, .dir o) :: entries => match self.get k with
    | some (.dir d) => match mergeInnerOld leafCoversDir d o with
      | .ok d => mergeEntriesOld leafCoversDir (self.setEntry k (.dir d)) entries
      | .error e => .error (k :: e)
    | some (.leaf l) =>
      if leafCoversDir l then mergeEntriesOld leafCoversDir self entries else .error [k]
    | none => mergeEntriesOld leafCoversDir (self.setEntry k (.dir o)) entries
  | (k, .leaf o) :: entries => mergeEntriesOld leafCoversDir (self.setEntry k (.leaf o)) entries

end

/-! ## The implementation in use -/

/-- What becomes of an entry. -/
inductive MapEntryOperation (A B : Type) where
  | keep (kept : A)
  | overwrite (new : B)

/-- What `map_entry` calls for a directory. -/
abbrev DirMap (K L H : Type) := DirectoryBuilder K L H →
  Except (List K) (MapEntryOperation (BuilderEntry K L H) (BuilderEntry K L H))

/-- What `map_entry` calls for a leaf, or if there is no entry. -/
abbrev LeafMap (K L H : Type) := Option L →
  Except (List K) (MapEntryOperation Unit (BuilderEntry K L H))

section Definitions

variable [DecidableEq L] [DecidableEq H]

/-- `DirectoryBuilder::map_entry_fasttrack`; nothing if `map_entry` has to go on. -/
def mapEntryFasttrack (self : DirectoryBuilder K L H) (needle : K) (mapDir : DirMap K L H)
    (mapLeaf : LeafMap K L H) : Option (Except (List K) (DirectoryBuilder K L H)) :=
  if self.kind.isShared then
    match self.get needle with
    | none => none
    | some (.leaf l) => some <| match mapLeaf (some l) with
      | .ok (.overwrite new) => match new with
        | .leaf lnew => if lnew = l then .ok self else .ok (self.setEntry needle new)
        | .dir _ => .ok (self.setEntry needle new)
      | .ok (.keep ()) => .ok self
      | .error e => .error e
    | some (.dir d) => some <| match mapDir d with
      | .ok (.overwrite new) => match new with
        | .dir dnew =>
          if dnew.kind.isShared && dnew.fingerprint = d.fingerprint then .ok self
          else .ok (self.setEntry needle new)
        | .leaf _ => .ok (self.setEntry needle new)
      | .ok (.keep _) => .ok self
      | .error e => .error e
  else none

def mapEntry (self : DirectoryBuilder K L H) (needle : K) (mapDir : DirMap K L H)
    (mapLeaf : LeafMap K L H) : Except (List K) (DirectoryBuilder K L H) :=
  match self.mapEntryFasttrack needle mapDir mapLeaf with
  | some v => v
  | none => match self.get needle with
    | some (.dir d) => match mapDir d with
      | .ok (.overwrite new) => .ok (self.setEntry needle new)
      | .ok (.keep kept) => .ok (self.setEntry needle kept)
      | .error e => .error e
    | some (.leaf l) => match mapLeaf (some l) with
      | .ok (.overwrite new) => .ok (self.setEntry needle new)
      | .ok (.keep ()) => .ok self.asMut
      | .error e => .error e
    | none => match mapLeaf none with
      | .ok (.overwrite new) => .ok (self.setEntry needle new)
      | .ok (.keep ()) => .ok self.asMut
      | .error e => .error e

/-- Whether `merge_inner` exchanges its operands. -/
def exchanges (leafCompatible : Bool) (self other : DirectoryBuilder K L H) : Bool :=
  self.fingerprint.isSome && self.len < other.len && leafCompatible

/-- What `merge_inner` does with an entry where it has a directory; `recurse` merges directories. -/
def mergeDir (recurse : DirectoryBuilder K L H → DirectoryBuilder K L H →
      Except (List K) (DirectoryBuilder K L H)) (needle : K) (v : BuilderEntry K L H) :
    DirMap K L H := fun dirLeft =>
  match v with
  | .dir dirRight => match recurse dirLeft dirRight with
    | .ok d => .ok (.overwrite (.dir d))
    | .error e => .error (needle :: e)
  | .leaf leafRight => .ok (.overwrite (.leaf leafRight))

/-- What `merge_inner` does with an entry where it has a leaf or nothing. -/
def mergeLeaf (leafCompatible : Bool) (leafCoversDir : L → Bool) (needle : K)
    (v : BuilderEntry K L H) : LeafMap K L H := fun leafLeft =>
  match v with
  | .dir dirRight => match leafLeft with
    | some leaf => if leafCoversDir leaf then .ok (.keep ()) else .error [needle]
    | none => .ok (.overwrite (.dir dirRight))
  | .leaf leafRight =>
    if leafCompatible && leafLeft.isSome then .ok (.keep ())
    else .ok (.overwrite (.leaf leafRight))

/-- One round of the loop of `merge_inner`. -/
def mergeEntry (leafCompatible : Bool) (leafCoversDir : L → Bool)
    (recurse : DirectoryBuilder K L H → DirectoryBuilder K L H →
      Except (List K) (DirectoryBuilder K L H))
    (self : DirectoryBuilder K L H) (entry : K × BuilderEntry K L H) :
    Except (List K) (DirectoryBuilder K L H) :=
  self.mapEntry entry.1 (mergeDir recurse entry.1 entry.2)
    (mergeLeaf leafCompatible leafCoversDir entry.1 entry.2)

/-- `DirectoryBuilder::merge_inner`, for directories that are nested at most as deep as the first
argument says. -/
def mergeInner (leafCompatible : Bool) (leafCoversDir : L → Bool) : Nat →
    DirectoryBuilder K L H → DirectoryBuilder K L H → Except (List K) (DirectoryBuilder K L H)
  | 0, _, _ => .error []
  | n + 1, self, other =>
    if self.sameFingerprint other then .ok self
    else if self.fingerprint.isNone && self.entries.isEmpty then .ok other
    else if exchanges leafCompatible self other then
      self.entries.foldlM
        (mergeEntry leafCompatible leafCoversDir (mergeInner leafCompatible leafCoversDir n)) other
    else
      other.entries.foldlM
        (mergeEntry leafCompatible leafCoversDir (mergeInner leafCompatible leafCoversDir n)) self

/-- `merge_inner` with a bound that is deep enough. -/
def mergeFast (leafCompatible : Bool) (leafCoversDir : L → Bool)
    (self other : DirectoryBuilder K L H) : Except (List K) (DirectoryBuilder K L H) :=
  mergeInner leafCompatible leafCoversDir self.depth self other

end Definitions

/-! ## One entry after another -/

section Loop

variable {other : DirectoryBuilder K L H} {k : K} {v : BuilderEntry K L H}
  {d : DirectoryBuilder K L H}

/-- The entry was merged into the directory. -/
structure Merged (d : DirectoryBuilder K L H) (k : K) (v : BuilderEntry K L H)
    (r : DirectoryBuilder K L H) : Prop where
  valid : r.Valid
  other : ∀ l, l ≠ k → r.get l = d.get l
  below : r.tree.below k = mergeBelow (d.tree.below k) v.tree
  same : r = d ∨ r.fingerprint = none

theorem below_congr {d' : DirectoryBuilder K L H} (h : d.get k = d'.get k) :
    d.tree.below k = d'.tree.below k := by
  funext p
  rw [below, below, tree_cons, tree_cons, h]

/-- **A loop over entries** merges the directory that has them, and fails if a round does. -/
theorem foldlM_merged {f : DirectoryBuilder K L H → K × BuilderEntry K L H →
      Except (List K) (DirectoryBuilder K L H)} (good : K → BuilderEntry K L H → Prop)
    (bad : K → BuilderEntry K L H → List K → Prop)
    (hnd : (entries.map Prod.fst).Nodup) (hself : self.Valid)
    (hstep : ∀ acc k v, acc.Valid → (k, v) ∈ entries → acc.get k = self.get k →
      Ends (fun r => Merged acc k v r ∧ good k v) (bad k v) (f acc (k, v))) (kind : Kind H) :
    Ends (fun r => r.Valid ∧ r.tree = merge self.tree (node kind entries).tree ∧
        (r = self ∨ r.fingerprint = none) ∧ ∀ k v, (k, v) ∈ entries → good k v)
      (fun e => ∃ k v, (k, v) ∈ entries ∧ bad k v e) (entries.foldlM f self) := by
  induction entries generalizing self with
  | nil =>
    refine .ok ⟨hself, ?_, .inl rfl, fun k v h => nomatch h⟩
    funext p
    cases p with
    | nil => rw [tree_nil]; rfl
    | cons k p => rfl
  | cons e entries ih =>
    obtain ⟨k, v⟩ := e
    obtain ⟨hk, hnd⟩ := nodup_cons.mp hnd
    have hhead := hstep self k v hself mem_cons_self rfl
    rw [foldlM_cons]
    generalize f self (k, v) = x at hhead
    cases hhead with
    | error hbad => exact .error ⟨k, v, mem_cons_self, hbad⟩
    | @ok self' hhead =>
      obtain ⟨hmerged, hgood⟩ := hhead
      have hne {l : K} {w : BuilderEntry K L H} (hl : (l, w) ∈ entries) : l ≠ k := fun heq =>
        hk (mem_map.mpr ⟨(l, w), hl, heq⟩)
      have hrest := ih hnd hmerged.valid fun acc l w hacc hl hget =>
        hstep acc l w hacc (mem_cons_of_mem _ hl) (hget.trans (hmerged.other l (hne hl)))
      refine hrest.imp (fun r ⟨hr, htree, hsame, hgoods⟩ => ⟨hr, ?_, ?_, fun l w hl => ?_⟩)
        fun e ⟨l, w, hl, hbad⟩ => ⟨l, w, mem_cons_of_mem _ hl, hbad⟩
      · rw [htree]
        funext p
        cases p with
        | nil => rfl
        | cons l p =>
          refine congrFun (?_ : (merge _ _).below l = (merge _ _).below l) p
          rw [below_merge, below_merge]
          by_cases hl : l = k
          · subst hl
            have hnone : (node kind entries).get l = none := by
              by_contra hsome
              obtain ⟨w, hw⟩ := Option.ne_none_iff_exists'.mp hsome
              exact hne (mem_of_lookup hw) rfl
            have hget : (node kind ((l, v) :: entries)).get l = some v := by
              rw [get, entries_node, lookup_cons_ite, if_pos rfl]
            rw [hmerged.below, below_of_get hget]
            funext p
            rw [mergeBelow, below_of_get_none hnone]
          · have hget : (node kind ((k, v) :: entries)).get l = (node kind entries).get l := by
              rw [get, entries_node, lookup_cons_ite, if_neg hl]
              rfl
            rw [below_congr (hmerged.other l hl), below_congr hget]
      · rcases hsame with rfl | hsame
        · exact hmerged.same
        · exact .inr hsame
      · rcases mem_cons.mp hl with heq | hl
        · cases heq
          exact hgood
        · exact hgoods l w hl

theorem Merged.setEntry {e : BuilderEntry K L H} (hself : self.Valid) (he : e.Valid)
    (h : e.tree = mergeBelow (self.tree.below k) v.tree) : Merged self k v (self.setEntry k e) where
  valid := hself.setEntry k he
  other l hl := by rw [get_setEntry, if_neg hl]
  below := by
    rw [← h]
    exact below_of_get (by rw [get_setEntry, if_pos rfl])
  same := .inr rfl

theorem Merged.keep (hself : self.Valid)
    (h : self.tree.below k = mergeBelow (self.tree.below k) v.tree) : Merged self k v self :=
  ⟨hself, fun _ _ => rfl, h, .inl rfl⟩

theorem Merged.asMut (hself : self.Valid)
    (h : self.tree.below k = mergeBelow (self.tree.below k) v.tree) : Merged self k v self.asMut :=
  ⟨hself.asMut, fun _ _ => rfl, by rw [tree_asMut]; exact h, .inr rfl⟩

end Loop

/-! ## What the old implementation computes -/

/-- One round of the loop of `merge_inner_old`. -/
def mergeEntryOld [DecidableEq H] (leafCoversDir : L → Bool) (self : DirectoryBuilder K L H)
    (entry : K × BuilderEntry K L H) : Except (List K) (DirectoryBuilder K L H) :=
  match entry with
  | (k, .dir o) => match self.get k with
    | some (.dir d) => match mergeInnerOld leafCoversDir d o with
      | .ok d => .ok (self.setEntry k (.dir d))
      | .error e => .error (k :: e)
    | some (.leaf l) => if leafCoversDir l then .ok self else .error [k]
    | none => .ok (self.setEntry k (.dir o))
  | (k, .leaf o) => .ok (self.setEntry k (.leaf o))

theorem mergeEntriesOld_eq [DecidableEq H] (leafCoversDir : L → Bool)
    (self : DirectoryBuilder K L H) : mergeEntriesOld leafCoversDir self entries =
      entries.foldlM (mergeEntryOld leafCoversDir) self := by
  induction entries generalizing self with
  | nil => rfl
  | cons e entries ih =>
    obtain ⟨k, o | o⟩ := e
    · rw [mergeEntriesOld, foldlM_cons, mergeEntryOld]
      split
      · split
        · exact ih _
        · rfl
      · split
        · exact ih _
        · rfl
      · exact ih _
    · exact ih _

/-- The directory is the other one or is inside of it. -/
inductive In : DirectoryBuilder K L H → DirectoryBuilder K L H → Prop where
  | self (d : DirectoryBuilder K L H) : In d d
  | entry {d sub x : DirectoryBuilder K L H} {k : K} (h : (k, .dir sub) ∈ d.entries)
      (hx : In x sub) : In x d

/-- Equal fingerprints mean equal contents. -/
def FingerprintsIdentify (a b : DirectoryBuilder K L H) : Prop :=
  ∀ x y, In x a ∨ In x b → In y a ∨ In y b → ∀ h, x.fingerprint = some h →
    y.fingerprint = some h → x.tree = y.tree

section Specs

variable {a b : DirectoryBuilder K L H} {k : K} {p : List K}

theorem FingerprintsIdentify.symm (h : FingerprintsIdentify a b) : FingerprintsIdentify b a :=
  fun x y hx hy => h x y hx.symm hy.symm

theorem FingerprintsIdentify.entry (h : FingerprintsIdentify a b)
    {sub sub' : DirectoryBuilder K L H} (hsub : (k, .dir sub) ∈ a.entries)
    (hsub' : (k, .dir sub') ∈ b.entries) : FingerprintsIdentify sub sub' :=
  fun x y hx hy => h x y (hx.imp (.entry hsub) (.entry hsub')) (hy.imp (.entry hsub) (.entry hsub'))

theorem FingerprintsIdentify.tree_eq [DecidableEq H] (h : FingerprintsIdentify a b)
    (hsame : a.sameFingerprint b) : a.tree = b.tree := by
  rw [sameFingerprint, Bool.and_eq_true, Option.isSome_iff_exists, decide_eq_true_iff] at hsame
  obtain ⟨⟨f, hf⟩, heq⟩ := hsame
  exact h a b (.inl (.self a)) (.inr (.self b)) f hf (heq ▸ hf)

/-- Where a merge fails: a leaf of the directory that does not cover directories meets one of the
other, or the other way round where `swapped` says so. -/
def ConflictAt (leafCoversDir : L → Bool) (swapped : List K → Bool) (A B : PathMap K L)
    (p : List K) : Prop :=
  ∃ l, (if swapped p then PathMap.Clash B A p l else PathMap.Clash A B p l) ∧
    leafCoversDir l = false

/-- A merge does not fail. -/
def NoConflict (leafCoversDir : L → Bool) (swapped : List K → Bool) (A B : PathMap K L) : Prop :=
  ∀ p, ¬ ConflictAt leafCoversDir swapped A B p

theorem mergeBelow_dir_dir (d o : DirectoryBuilder K L H) :
    mergeBelow (DirectoryEntry.dir d).tree (DirectoryEntry.dir o).tree = merge d.tree o.tree := by
  funext p
  rfl

theorem mergeBelow_leaf_dir (l : L) (o : DirectoryBuilder K L H) :
    mergeBelow (DirectoryEntry.leaf l : BuilderEntry K L H).tree
      (DirectoryEntry.dir o).tree = (DirectoryEntry.leaf l : BuilderEntry K L H).tree := by
  funext p
  simp [mergeBelow, DirectoryEntry.tree]

theorem mergeBelow_leaf (l : L) : mergeBelow A (DirectoryEntry.leaf l : BuilderEntry K L H).tree =
      (DirectoryEntry.leaf l : BuilderEntry K L H).tree := by
  funext p
  simp only [mergeBelow, DirectoryEntry.tree, if_true]
  rcases A [] with _ | _ | _ <;> rfl

theorem mergeBelow_none (h : ∀ p, A p = none) (o : DirectoryBuilder K L H) :
    mergeBelow A (DirectoryEntry.dir o).tree = (DirectoryEntry.dir o).tree := by
  funext p
  simp [mergeBelow, DirectoryEntry.tree, h]

theorem exists_cons_of_leaf (h : a.tree p = some (.leaf l)) : ∃ k q, p = k :: q := by
  cases p with
  | nil =>
    cases h
  | cons k q => exact ⟨k, q, rfl⟩

theorem exists_entry {x : Node L} (h : a.tree (k :: p) = some x) :
    ∃ v, (k, v) ∈ a.entries ∧ v.tree p = some x := by
  cases hk : a.get k with
  | none =>
    rw [tree_cons, hk] at h
    cases h
  | some v =>
    refine ⟨v, mem_of_lookup hk, ?_⟩
    rw [← below_of_get hk]
    exact h

section NoConflict

variable {leafCoversDir : L → Bool} {swapped : List K → Bool}

omit [DecidableEq K] in
/-- No leaf meets a directory, on neither side. -/
theorem noConflict_of_no_clash
    (h : ∀ p l, ¬ PathMap.Clash A B p l ∧ ¬ PathMap.Clash B A p l) :
    NoConflict leafCoversDir swapped A B := by
  rintro p ⟨l, hclash, -⟩
  split at hclash
  · exact (h p l).2 hclash
  · exact (h p l).1 hclash

omit [DecidableEq K] in
theorem noConflict_self : NoConflict leafCoversDir swapped A A := by
  have h (p l) : ¬ PathMap.Clash A A p l := by
    rintro ⟨hl, hdir⟩
    rw [hl] at hdir
    cases hdir
  exact noConflict_of_no_clash fun p l => ⟨h p l, h p l⟩

omit [DecidableEq K] in
theorem noConflict_none_left (h : ∀ p, A p = none) : NoConflict leafCoversDir swapped A B :=
  noConflict_of_no_clash fun p l => by simp [PathMap.Clash, h p]

/-- A leaf on the other side does not clash, unless the sides have changed places. -/
theorem noConflict_leaf_right (hswapped : swapped [] = false) (l : L) :
    NoConflict leafCoversDir swapped A (DirectoryEntry.leaf l : BuilderEntry K L H).tree := by
  rintro p ⟨m, hclash, -⟩
  split at hclash
  · next hp =>
    obtain ⟨rfl, -⟩ := DirectoryEntry.eq_of_tree_leaf hclash.1
    rw [hswapped] at hp
    cases hp
  · simp [PathMap.Clash, DirectoryEntry.tree] at hclash

theorem noConflict_leaf_left (h : leafCoversDir l) :
    NoConflict leafCoversDir swapped (DirectoryEntry.leaf l : BuilderEntry K L H).tree B := by
  rintro p ⟨m, hclash, hm⟩
  split at hclash
  · simp [PathMap.Clash, DirectoryEntry.tree] at hclash
  · obtain ⟨rfl, heq⟩ := DirectoryEntry.eq_of_tree_leaf hclash.1
    cases heq
    rw [h] at hm
    cases hm

/-- A clash is below one of the entries of the other directory. -/
theorem noConflict_of_entries
    (h : ∀ k v, (k, v) ∈ b.entries →
      NoConflict leafCoversDir (fun p => swapped (k :: p)) (a.tree.below k) v.tree) :
    NoConflict leafCoversDir swapped a.tree b.tree := by
  rintro p ⟨l, hclash, hl⟩
  split at hclash
  · next hp =>
    obtain ⟨k, p, rfl⟩ := exists_cons_of_leaf hclash.1
    obtain ⟨v, hv, hleaf⟩ := exists_entry hclash.1
    exact h k v hv p ⟨l, by rw [if_pos hp]; exact ⟨hleaf, hclash.2⟩, hl⟩
  · next hp =>
    obtain ⟨k, p, rfl⟩ := exists_cons_of_leaf hclash.1
    obtain ⟨v, hv, hdir⟩ := exists_entry hclash.2
    exact h k v hv p ⟨l, by rw [if_neg hp]; exact ⟨hclash.1, hdir⟩, hl⟩

/-- Below a name. -/
theorem ConflictAt.of_entry {v : BuilderEntry K L H} {p : List K} (hv : b.get k = some v)
    (h : ConflictAt leafCoversDir (fun p => swapped (k :: p)) (a.tree.below k) v.tree p) :
    ConflictAt leafCoversDir swapped a.tree b.tree (k :: p) := by
  rw [← below_of_get hv] at h
  exact h

end NoConflict

/-- **What `merge_inner_old` computes**: the directory with the other one on top, unless a leaf that
covers no directories meets a directory. -/
theorem mergeInnerOld_spec [DecidableEq H] (leafCoversDir : L → Bool) (ha : a.Valid) (hb : b.Valid)
    (hid : FingerprintsIdentify a b) : Ends (fun r => r.Valid ∧ r.tree = merge a.tree b.tree ∧
        NoConflict leafCoversDir (fun _ => false) a.tree b.tree)
      (ConflictAt leafCoversDir (fun _ => false) a.tree b.tree)
      (mergeInnerOld leafCoversDir a b) := by
  induction b using recurse generalizing a with
  | h b ih =>
    rw [eq_node b, mergeInnerOld, ← eq_node b]
    split
    · next hsame =>
      have htree := hid.tree_eq hsame
      rw [← htree]
      exact .ok ⟨ha, (merge_self a.isTree).symm, noConflict_self⟩
    · rw [mergeEntriesOld_eq]
      refine (foldlM_merged (f := mergeEntryOld leafCoversDir)
        (fun k v => NoConflict leafCoversDir (fun _ => false) (a.tree.below k) v.tree)
        (fun k v e => ∃ p, e = k :: p ∧
          ConflictAt leafCoversDir (fun _ => false) (a.tree.below k) v.tree p)
        hb.nodup ha.asMut ?_ b.kind).imp ?_ ?_
      · intro acc k v hacc hv hget
        have hbelow : a.tree.below k = acc.tree.below k := below_congr hget.symm
        rw [hbelow]
        cases v with
        | leaf o =>
          exact .ok ⟨.setEntry hacc (fun _ h => by cases h) (mergeBelow_leaf o).symm,
            noConflict_leaf_right rfl o⟩
        | dir o =>
          rw [mergeEntryOld]
          split
          · next d hd =>
            rw [below_of_get hd]
            have hda := ha.get_iff.mp (hget ▸ hd)
            have hrec := ih k o hv (ha.entry hda) (hb.entry hv) (hid.entry hda hv)
            generalize mergeInnerOld leafCoversDir d o = x at hrec
            cases hrec with
            | error hconflict => exact .error ⟨_, rfl, hconflict⟩
            | ok hrec =>
              obtain ⟨hd', htree, hno⟩ := hrec
              refine .ok ⟨.setEntry hacc (fun _ h => by cases h; exact hd') ?_, hno⟩
              rw [below_of_get hd, mergeBelow_dir_dir]
              exact htree
          · next l hl =>
            rw [below_of_get hl]
            split
            · next hcovers =>
              refine .ok ⟨.keep hacc ?_, noConflict_leaf_left hcovers⟩
              rw [below_of_get hl, mergeBelow_leaf_dir]
            · next hcovers =>
              exact .error ⟨[], rfl, l, ⟨rfl, tree_nil o⟩, by simpa using hcovers⟩
          · next hnone =>
            have hbelow := below_of_get_none hnone
            exact .ok ⟨.setEntry hacc (fun _ h => by cases h; exact hb.entry hv)
              (mergeBelow_none hbelow o).symm, noConflict_none_left hbelow⟩
      · rintro r ⟨hr, htree, -, hgood⟩
        rw [← eq_node b, tree_asMut] at htree
        exact ⟨hr, htree, noConflict_of_entries hgood⟩
      · rintro e ⟨k, v, hv, p, rfl, hconflict⟩
        exact .of_entry (hb.get_iff.mpr hv) hconflict

end Specs

/-! ## What the new implementation computes -/

variable [DecidableEq L] [DecidableEq H]

section MapEntry

variable {k : K} (mapDir : DirMap K L H) (mapLeaf : LeafMap K L H)
  {d : DirectoryBuilder K L H} {e : List K}

theorem mapEntry_dir_error (hget : self.get k = some (.dir d)) (h : mapDir d = .error e) :
    self.mapEntry k mapDir mapLeaf = .error e := by
  unfold mapEntry mapEntryFasttrack
  cases self.kind.isShared <;> simp [hget, h]

/-- A new directory with the fingerprint of the old one is not written. -/
theorem mapEntry_dir_overwrite (new : BuilderEntry K L H) (hget : self.get k = some (.dir d))
    (h : mapDir d = .ok (.overwrite new)) :
    self.mapEntry k mapDir mapLeaf = .ok (self.setEntry k new) ∨
      self.mapEntry k mapDir mapLeaf = .ok self ∧
        ∃ dnew, new = .dir dnew ∧ dnew.kind.isShared ∧ dnew.fingerprint = d.fingerprint := by
  unfold mapEntry mapEntryFasttrack
  cases self.kind.isShared with
  | false => simp [hget, h]
  | true =>
    cases new with
    | leaf l => simp [hget, h]
    | dir dnew =>
      by_cases hsame : dnew.kind.isShared ∧ dnew.fingerprint = d.fingerprint
      · exact .inr ⟨by simp [hget, h, hsame], dnew, rfl, hsame⟩
      · left
        simp only [hget, h, if_true, Bool.and_eq_true, decide_eq_true_eq]
        rw [if_neg hsame]

theorem mapEntry_leaf_error (hget : self.get k = some (.leaf l)) (h : mapLeaf (some l) = .error e) :
    self.mapEntry k mapDir mapLeaf = .error e := by
  unfold mapEntry mapEntryFasttrack
  cases self.kind.isShared <;> simp [hget, h]

theorem mapEntry_leaf_keep (hget : self.get k = some (.leaf l))
    (h : mapLeaf (some l) = .ok (.keep ())) : self.mapEntry k mapDir mapLeaf = .ok self ∨
      self.mapEntry k mapDir mapLeaf = .ok self.asMut := by
  unfold mapEntry mapEntryFasttrack
  cases self.kind.isShared <;> simp [hget, h]

theorem mapEntry_leaf_overwrite (lnew : L) (hget : self.get k = some (.leaf l))
    (h : mapLeaf (some l) = .ok (.overwrite (.leaf lnew))) :
    self.mapEntry k mapDir mapLeaf = .ok (self.setEntry k (.leaf lnew)) ∨
      self.mapEntry k mapDir mapLeaf = .ok self ∧ lnew = l := by
  unfold mapEntry mapEntryFasttrack
  cases self.kind.isShared with
  | false => simp [hget, h]
  | true => by_cases hl : lnew = l <;> simp [hget, h, hl]

theorem mapEntry_none (new : BuilderEntry K L H) (hget : self.get k = none)
    (h : mapLeaf none = .ok (.overwrite new)) :
    self.mapEntry k mapDir mapLeaf = .ok (self.setEntry k new) := by
  unfold mapEntry mapEntryFasttrack
  cases self.kind.isShared <;> simp [hget, h]

end MapEntry

section NewSpec

variable {leafCompatible : Bool} {leafCoversDir : L → Bool} {swapped : List K → Bool}
  {recurse : DirectoryBuilder K L H → DirectoryBuilder K L H →
    Except (List K) (DirectoryBuilder K L H)}
  {acc a b : DirectoryBuilder K L H} {k : K}
  {o d : DirectoryBuilder K L H}

/-- What a merge of two directories has to do. -/
def MergesTo (leafCoversDir : L → Bool) (swapped : List K → Bool) (a b : DirectoryBuilder K L H) :
    Except (List K) (DirectoryBuilder K L H) → Prop :=
  Ends (fun r => r.Valid ∧ r.tree = merge a.tree b.tree ∧
      (r.fingerprint = none ∨ r = a ∨ r = b) ∧ NoConflict leafCoversDir swapped a.tree b.tree)
    (ConflictAt leafCoversDir swapped a.tree b.tree)

/-- What a round of the loop has to do; `below` is what the directory had below the name. -/
def MergesEntry (leafCoversDir : L → Bool) (swapped : List K → Bool) (below : PathMap K L)
    (acc : DirectoryBuilder K L H) (k : K) (v : BuilderEntry K L H) :
    Except (List K) (DirectoryBuilder K L H) → Prop :=
  Ends (fun r => Merged acc k v r ∧ NoConflict leafCoversDir swapped below v.tree)
    (fun e => ∃ p, e = k :: p ∧ ConflictAt leafCoversDir swapped below v.tree p)

theorem mergeEntry_dir (hacc : acc.Valid) (ho : o.Valid)
    (hrec : ∀ d, acc.get k = some (.dir d) → FingerprintsIdentify d o ∧
      MergesTo leafCoversDir swapped d o (recurse d o))
    (hlevel : swapped [] = false) :
    MergesEntry leafCoversDir swapped (acc.tree.below k) acc k (.dir o)
      (mergeEntry leafCompatible leafCoversDir recurse acc (k, .dir o)) := by
  unfold mergeEntry
  cases hget : acc.get k with
  | none =>
    rw [mapEntry_none _ _ (.dir o) hget rfl]
    have hnone := below_of_get_none hget
    refine .ok ⟨.setEntry hacc (fun _ h => by cases h; exact ho) ?_, noConflict_none_left hnone⟩
    rw [mergeBelow_none hnone]
  | some e =>
    rw [below_of_get hget]
    cases e with
    | leaf l =>
      by_cases hcovers : leafCoversDir l = true
      · have hbelow : acc.tree.below k =
            mergeBelow (acc.tree.below k) (DirectoryEntry.dir o).tree := by
          rw [below_of_get hget, mergeBelow_leaf_dir]
        have hno : NoConflict leafCoversDir swapped
            (DirectoryEntry.leaf l : BuilderEntry K L H).tree (DirectoryEntry.dir o).tree :=
          noConflict_leaf_left hcovers
        obtain h | h := mapEntry_leaf_keep (mergeDir recurse k (.dir o))
          (mergeLeaf leafCompatible leafCoversDir k (.dir o)) hget
          (by simp [mergeLeaf, hcovers])
        · exact h ▸ .ok ⟨.keep hacc hbelow, hno⟩
        · exact h ▸ .ok ⟨.asMut hacc hbelow, hno⟩
      · rw [mapEntry_leaf_error _ _ (e := [k]) hget (by simp [mergeLeaf, hcovers])]
        refine .error ⟨[], rfl, l, ?_, by simpa using hcovers⟩
        rw [hlevel]
        exact ⟨rfl, tree_nil o⟩
    | dir d =>
      obtain ⟨hid, hd⟩ := hrec d hget
      cases hm : recurse d o with
      | error e =>
        rw [mapEntry_dir_error _ _ (e := k :: e) hget (by simp [mergeDir, hm])]
        rw [hm] at hd
        cases hd with
        | error hconflict => exact .error ⟨e, rfl, hconflict⟩
      | ok r =>
        rw [hm] at hd
        cases hd with
        | ok hd =>
        obtain ⟨hr, htree, hsame, hno⟩ := hd
        have hbelow : (DirectoryEntry.dir r : BuilderEntry K L H).tree =
            mergeBelow (acc.tree.below k) (DirectoryEntry.dir o).tree := by
          rw [below_of_get hget, mergeBelow_dir_dir]
          exact htree
        obtain h | ⟨h, dnew, heq, hshared, hfp⟩ := mapEntry_dir_overwrite
          (mergeDir recurse k (.dir o)) (mergeLeaf leafCompatible leafCoversDir k (.dir o)) (.dir r)
          hget (by simp [mergeDir, hm])
        · exact h ▸ .ok ⟨.setEntry hacc (fun _ h => by cases h; exact hr) hbelow, hno⟩
        · cases heq
          have hrd : d.tree = r.tree := by
            rcases hsame with hnone | rfl | rfl
            · cases hk : r.kind <;> simp [fingerprint, hk, Kind.isShared, Kind.fingerprint]
                at hnone hshared
            · rfl
            · obtain ⟨f, hf⟩ : ∃ f, r.fingerprint = some f := by
                cases hk : r.kind <;> simp [fingerprint, hk, Kind.isShared, Kind.fingerprint]
                  at hshared ⊢
              exact hid d r (.inl (.self d)) (.inr (.self r)) f (hfp ▸ hf) hf
          refine h ▸ .ok ⟨.keep hacc ?_, hno⟩
          rw [← hbelow, below_of_get hget]
          exact hrd

theorem mergeEntry_leaf {o : L} (hacc : acc.Valid)
    (hagree : leafCompatible → ∀ l, acc.get k = some (.leaf l) → l = o)
    (hlevel : swapped [] = false) :
    MergesEntry leafCoversDir swapped (acc.tree.below k) acc k (.leaf o)
      (mergeEntry leafCompatible leafCoversDir recurse acc (k, .leaf o)) := by
  unfold mergeEntry
  have hset : Merged acc k (.leaf o) (acc.setEntry k (.leaf o)) :=
    .setEntry hacc (fun _ h => nomatch h) (mergeBelow_leaf o).symm
  have hno : NoConflict leafCoversDir swapped (acc.tree.below k)
      (DirectoryEntry.leaf o : BuilderEntry K L H).tree := noConflict_leaf_right hlevel o
  cases hget : acc.get k with
  | none =>
    rw [mapEntry_none _ _ (.leaf o) hget (by simp [mergeLeaf])]
    exact .ok ⟨hset, hno⟩
  | some e =>
    cases e with
    | dir d =>
      obtain h | ⟨-, dnew, heq, -⟩ := mapEntry_dir_overwrite
        (mergeDir recurse k (.leaf o)) (mergeLeaf leafCompatible leafCoversDir k (.leaf o))
        (.leaf o) hget rfl
      · exact h ▸ .ok ⟨hset, hno⟩
      · cases heq
    | leaf l =>
      have hkeep (hl : o = l) : acc.tree.below k = mergeBelow (acc.tree.below k)
          (DirectoryEntry.leaf o : BuilderEntry K L H).tree := by
        rw [below_of_get hget, mergeBelow_leaf, hl]
      cases hcompat : leafCompatible with
      | true =>
        have hl : o = l := (hagree hcompat l hget).symm
        obtain h | h := mapEntry_leaf_keep (mergeDir recurse k (.leaf o))
          (mergeLeaf true leafCoversDir k (.leaf o)) hget (by simp [mergeLeaf])
        · exact h ▸ .ok ⟨.keep hacc (hkeep hl), hno⟩
        · exact h ▸ .ok ⟨.asMut hacc (hkeep hl), hno⟩
      | false =>
        obtain h | ⟨h, hl⟩ := mapEntry_leaf_overwrite
          (mergeDir recurse k (.leaf o)) (mergeLeaf false leafCoversDir k (.leaf o)) o hget
          (by simp [mergeLeaf])
        · exact h ▸ .ok ⟨hset, hno⟩
        · exact h ▸ .ok ⟨.keep hacc (hkeep hl), hno⟩

/-- The loop of `merge_inner`, from the directory `a` over the entries of `b`. -/
theorem mergeEntries_spec (ha : a.Valid) (hb : b.Valid)
    (hagree : leafCompatible → PathMap.Agree a.tree b.tree) (hlevel : ∀ k, swapped [k] = false)
    (hrec : ∀ k d o, (k, .dir d) ∈ a.entries → (k, .dir o) ∈ b.entries →
      FingerprintsIdentify d o ∧
        MergesTo leafCoversDir (fun p => swapped (k :: p)) d o (recurse d o)) :
    MergesTo leafCoversDir swapped a b
      (b.entries.foldlM (mergeEntry leafCompatible leafCoversDir recurse) a) := by
  have hleaf {d : DirectoryBuilder K L H} {k : K} {l : L} (h : d.get k = some (.leaf l)) :
      d.tree [k] = some (.leaf l) := by
    rw [tree_cons, h]
    rfl
  refine (foldlM_merged (f := mergeEntry leafCompatible leafCoversDir recurse)
    (fun k v => NoConflict leafCoversDir (fun p => swapped (k :: p)) (a.tree.below k) v.tree)
    (fun k v e => ∃ p, e = k :: p ∧
      ConflictAt leafCoversDir (fun p => swapped (k :: p)) (a.tree.below k) v.tree p)
    hb.nodup ha ?_ b.kind).imp ?_ ?_
  · intro acc k v hacc hv hget
    rw [← below_congr hget]
    have hbk := hb.get_iff.mpr hv
    cases v with
    | dir o =>
      refine mergeEntry_dir hacc (hb.entry hv) (fun d hd => ?_) (hlevel k)
      exact hrec k d o (ha.get_iff.mp (hget ▸ hd)) hv
    | leaf o =>
      refine mergeEntry_leaf hacc (fun hcompat l hl => ?_) (hlevel k)
      exact hagree hcompat [k] l o (hleaf (hget ▸ hl)) (hleaf hbk)
  · rintro r ⟨hr, htree, hsame, hgood⟩
    rw [← eq_node b] at htree
    exact ⟨hr, htree, hsame.symm.imp_right .inl, noConflict_of_entries hgood⟩
  · rintro e ⟨k, v, hv, p, rfl, hconflict⟩
    exact .of_entry (hb.get_iff.mpr hv) hconflict

/-- Whether `merge_inner` has exchanged its operands an odd number of times at a path. -/
def exchangedAt (leafCompatible : Bool) : List K → DirectoryBuilder K L H →
    DirectoryBuilder K L H → Bool
  | [], a, b => exchanges leafCompatible a b
  | k :: p, a, b => match a.get k, b.get k with
    | some (.dir d), some (.dir o) =>
      if exchanges leafCompatible a b then !exchangedAt leafCompatible p o d
      else exchangedAt leafCompatible p d o
    | _, _ => false

/-- The same for the entry at a path: its parents are merged. -/
def exchangedFor (leafCompatible : Bool) (a b : DirectoryBuilder K L H) (p : List K) : Bool :=
  exchangedAt leafCompatible p.dropLast a b

omit [DecidableEq L] [DecidableEq H] in
/-- The root is a directory on both sides. -/
theorem conflictAt_congr {swapped' : List K → Bool} {p : List K}
    (h : ∀ k p, swapped (k :: p) = swapped' (k :: p)) :
    ConflictAt leafCoversDir swapped a.tree b.tree p ↔
      ConflictAt leafCoversDir swapped' a.tree b.tree p := by
  cases p with
  | nil => simp [ConflictAt, PathMap.Clash, tree_nil]
  | cons k p => rw [ConflictAt, ConflictAt, h]

omit [DecidableEq K] [DecidableEq L] in
theorem conflictAt_not {p : List K} : ConflictAt leafCoversDir (fun p => !swapped p) B A p ↔
    ConflictAt leafCoversDir swapped A B p := by
  rw [ConflictAt, ConflictAt]
  cases swapped p <;> rfl

omit [DecidableEq L] [DecidableEq H] in
theorem MergesTo.imp_conflict {swapped' : List K → Bool}
    {x : Except (List K) (DirectoryBuilder K L H)}
    (h : ∀ p, ConflictAt leafCoversDir swapped a.tree b.tree p ↔
      ConflictAt leafCoversDir swapped' a.tree b.tree p)
    (hx : MergesTo leafCoversDir swapped a b x) : MergesTo leafCoversDir swapped' a b x := by
  refine Ends.imp hx ?_ fun p => (h p).mp
  rintro r ⟨hr, htree, hsame, hno⟩
  exact ⟨hr, htree, hsame, fun p hp => hno p ((h p).mpr hp)⟩

omit [DecidableEq L] [DecidableEq H] in
theorem agree_entry (h : PathMap.Agree a.tree b.tree) (hd : a.get k = some (.dir d))
    (ho : b.get k = some (.dir o)) : PathMap.Agree d.tree o.tree := by
  have := h.below k
  rw [below_of_get hd, below_of_get ho] at this
  exact this

/-- **What `merge_inner` computes**: the directory with the other one on top, unless a leaf that
covers no directories meets a directory, where the operands are exchanged on the other side. -/
theorem mergeInner_spec (ha : a.Valid) (hb : b.Valid) (hid : FingerprintsIdentify a b)
    (hdepth : a.depth ≤ n ∨ b.depth ≤ n) (hagree : leafCompatible → PathMap.Agree a.tree b.tree) :
    MergesTo leafCoversDir (exchangedFor leafCompatible a b) a b
      (mergeInner leafCompatible leafCoversDir n a b) := by
  induction n generalizing a b with
  | zero =>
    cases a
    cases b
    simp [depth] at hdepth
  | succ n ih =>
    have hsub {k : K} {d o : DirectoryBuilder K L H} (hd : (k, .dir d) ∈ a.entries)
        (ho : (k, .dir o) ∈ b.entries) : d.depth ≤ n ∨ o.depth ≤ n := by
      have h1 := depth_lt hd
      have h2 := depth_lt ho
      omega
    rw [mergeInner]
    split
    · next hsame =>
      have htree := hid.tree_eq hsame
      refine .ok ⟨ha, by rw [← htree, PathMap.merge_self a.isTree], .inr (.inl rfl), ?_⟩
      rw [← htree]
      exact noConflict_self
    split
    · next hempty =>
      rw [Bool.and_eq_true, List.isEmpty_iff] at hempty
      have hnone : ∀ k p, a.tree (k :: p) = none := fun k p => by
        rw [tree_cons, get, hempty.2]
        rfl
      refine .ok ⟨hb, ?_, .inr (.inr rfl), ?_⟩
      · funext p
        cases p with
        | nil => rw [tree_nil]; rfl
        | cons k p =>
          rw [PathMap.merge, hnone]
          cases hbk : b.tree [k] with
          | none =>
            rw [hnone]
            rcases eq_or_ne p [] with rfl | hp
            · exact hbk
            · exact b.isTree.eq_none_of_cons (by simp [hbk]) hp
          | some x => rfl
      · refine noConflict_of_no_clash fun p l => ⟨?_, ?_⟩ <;> rintro ⟨hl, hdir⟩ <;>
          obtain ⟨k, p, rfl⟩ := exists_cons_of_leaf hl
        · cases (hnone k p).symm.trans hl
        · cases (hnone k p).symm.trans hdir
    split
    · next hex =>
      -- the operands are exchanged, so what the caller meant is the other way round
      have hcompat : leafCompatible := by
        simp only [exchanges, Bool.and_eq_true] at hex
        exact hex.2
      suffices hloop : MergesTo leafCoversDir (fun p => !exchangedFor leafCompatible a b p) b a
          (a.entries.foldlM (mergeEntry leafCompatible leafCoversDir
            (mergeInner leafCompatible leafCoversDir n)) b) by
        refine Ends.imp hloop ?_ fun p hp => conflictAt_not.mp hp
        rintro r ⟨hr, htree, hsame, hno⟩
        refine ⟨hr, ?_, hsame.imp_right Or.symm, fun p hp => hno p (conflictAt_not.mpr hp)⟩
        rw [htree, PathMap.merge_comm b.isTree a.isTree (hagree hcompat).symm]
      refine mergeEntries_spec hb ha (fun h => (hagree h).symm)
        (fun k => by simp [exchangedFor, exchangedAt, hex]) fun k d o hd ho => ?_
      have hdb := hb.get_iff.mpr hd
      have hoa := ha.get_iff.mpr ho
      have hid' := hid.symm.entry hd ho
      refine ⟨hid', (ih (hb.entry hd) (ha.entry ho) hid' (hsub ho hd).symm
        fun h => agree_entry (hagree h).symm hdb hoa).imp_conflict fun p =>
          conflictAt_congr fun k' p => ?_⟩
      simp [exchangedFor, exchangedAt, hdb, hoa, hex]
    · next hex =>
      refine mergeEntries_spec ha hb hagree
        (fun k => by simpa [exchangedFor, exchangedAt] using hex) fun k d o hd ho => ?_
      have hda := ha.get_iff.mpr hd
      have hob := hb.get_iff.mpr ho
      have hid' := hid.entry hd ho
      refine ⟨hid', (ih (ha.entry hd) (hb.entry ho) hid' (hsub hd ho)
        fun h => agree_entry (hagree h) hda hob).imp_conflict fun p =>
          conflictAt_congr fun k' p => ?_⟩
      simp [exchangedFor, exchangedAt, hda, hob, hex]

omit [DecidableEq L] [DecidableEq H] in
theorem exchangedAt_false (p : List K) (a b : DirectoryBuilder K L H) :
    exchangedAt false p a b = false := by
  have hfalse (a b : DirectoryBuilder K L H) : exchanges false a b = false := by simp [exchanges]
  induction p generalizing a b with
  | nil => exact hfalse a b
  | cons k p ih =>
    rw [exchangedAt]
    split
    · rw [hfalse, if_neg (by simp)]
      exact ih _ _
    · rfl

end NewSpec

/-- Both succeed or both fail, and if they succeed, then with the same tree. -/
def SameOutcome (x y : Except (List K) (DirectoryBuilder K L H)) : Prop :=
  ((∃ r, x = .ok r) ↔ ∃ r, y = .ok r) ∧ ∀ r r', x = .ok r → y = .ok r' → r.tree = r'.tree

omit [DecidableEq L] [DecidableEq H] in
/-- Merges that give the same tree have the same outcome exactly if they fail for the same
directories. -/
theorem sameOutcome_iff {T : PathMap K L} {bad bad' : List K → Prop}
    {x y : Except (List K) (DirectoryBuilder K L H)}
    (hx : Ends (fun r => r.tree = T ∧ ∀ p, ¬ bad p) bad x)
    (hy : Ends (fun r => r.tree = T ∧ ∀ p, ¬ bad' p) bad' y) :
    SameOutcome x y ↔ ((∃ p, bad p) ↔ ∃ p, bad' p) := by
  cases hx with
  | ok hx =>
    cases hy with
    | ok hy => simp [SameOutcome, hx.1, hy.1, hx.2, hy.2]
    | error hy => simpa [SameOutcome, hx.2] using ⟨_, hy⟩
  | error hx =>
    cases hy with
    | ok hy => simpa [SameOutcome, hy.2] using ⟨_, hx⟩
    | error hy => simp [SameOutcome, show ∃ p, bad p from ⟨_, hx⟩, show ∃ p, bad' p from ⟨_, hy⟩]

/-- **The implementations agree** if leaves are not taken to be compatible.  If they are, they agree
exactly if a leaf that covers no directories meets a directory on the left if and only if one does
on the side that the exchanges bring to the left. -/
theorem mergeInner_agrees (leafCompatible : Bool) (leafCoversDir : L → Bool)
    (a b : DirectoryBuilder K L H) (ha : a.Valid) (hb : b.Valid) (hid : FingerprintsIdentify a b)
    (hagree : leafCompatible = true → PathMap.Agree a.tree b.tree) :
    SameOutcome (mergeFast leafCompatible leafCoversDir a b) (mergeInnerOld leafCoversDir a b) ↔
      (leafCompatible = true →
        ((∃ p, ConflictAt leafCoversDir (exchangedFor true a b) a.tree b.tree p) ↔
          ∃ p, ConflictAt leafCoversDir (fun _ => false) a.tree b.tree p)) := by
  have hnew : MergesTo leafCoversDir (exchangedFor leafCompatible a b) a b
      (mergeFast leafCompatible leafCoversDir a b) :=
    mergeInner_spec ha hb hid (.inl le_rfl) hagree
  have hold := mergeInnerOld_spec leafCoversDir ha hb hid
  rw [sameOutcome_iff (Ends.imp hnew (fun r hr => ⟨hr.2.1, hr.2.2.2⟩) fun _ => id)
    (hold.imp (fun r hr => hr.2) fun _ => id)]
  cases leafCompatible with
  | true => simp
  | false =>
    have hfalse : exchangedFor false a b = fun _ => false :=
      funext fun p => exchangedAt_false p.dropLast a b
    simp [hfalse]

omit [DecidableEq K] [DecidableEq L] [DecidableEq H] in
theorem in_node {kind : Kind H} {x : DirectoryBuilder K L H} : In x (node kind entries) ↔
      x = node kind entries ∨ ∃ k sub, (k, .dir sub) ∈ entries ∧ In x sub := by
  constructor
  · intro h
    cases h with
    | self => exact .inl rfl
    | entry h hx => exact .inr ⟨_, _, h, hx⟩
  · rintro (rfl | ⟨k, sub, h, hx⟩)
    · exact .self _
    · exact .entry h hx

/-! ## What a merge is made of -/

/-- A property that passes to the entries, and to what `merge_inner` builds out of them. -/
structure Closed (P : DirectoryBuilder K L H → Prop) : Prop where
  entry : ∀ {d sub k}, P d → (k, .dir sub) ∈ d.entries → P sub
  asMut : ∀ {d}, P d → P d.asMut
  setEntry : ∀ {d k e}, P d → (∀ sub, e = .dir sub → P sub) → P (d.setEntry k e)

theorem mapEntry_ok {k : K} {mapDir : DirMap K L H}
    {mapLeaf : LeafMap K L H} (h : self.mapEntry k mapDir mapLeaf = .ok r) :
    r = self ∨ r = self.asMut ∨ ∃ e, r = self.setEntry k e ∧ ((∃ d, self.get k = some (.dir d) ∧
          (mapDir d = .ok (.overwrite e) ∨ mapDir d = .ok (.keep e))) ∨
        ∃ l, mapLeaf l = .ok (.overwrite e)) := by
  unfold mapEntry at h
  split at h
  · next v hv =>
    unfold mapEntryFasttrack at hv
    grind
  · grind

variable {P : DirectoryBuilder K L H → Prop} {leafCoversDir : L → Bool} {leafCompatible : Bool}

theorem Closed.mergeEntry (hP : Closed P)
    {recurse : DirectoryBuilder K L H → DirectoryBuilder K L H → Except (List K)
      (DirectoryBuilder K L H)} {entry : K × BuilderEntry K L H} (hself : P self)
    (hentry : ∀ sub, entry.2 = .dir sub → P sub)
    (hrec : ∀ d o r, P d → P o → recurse d o = .ok r → P r)
    (h : DirectoryBuilder.mergeEntry leafCompatible leafCoversDir recurse self entry = .ok r) :
    P r := by
  obtain ⟨k, v⟩ := entry
  obtain rfl | rfl | ⟨e, rfl, he⟩ := mapEntry_ok h
  · exact hself
  · exact hP.asMut hself
  · refine hP.setEntry hself fun sub hsub => ?_
    subst hsub
    obtain ⟨d, hd, hmap⟩ | ⟨l, hl⟩ := he
    · have hPd := hP.entry hself (mem_of_lookup hd)
      cases v with
      | leaf o => simp [mergeDir] at hmap
      | dir o =>
        simp only [mergeDir] at hmap
        split at hmap
        · next r hr =>
          have hsub : r = sub := by simpa using hmap
          exact hsub ▸ hrec d o r hPd (hentry o rfl) hr
        · simp at hmap
    · cases v with
      | leaf o =>
        simp only [mergeLeaf] at hl
        split at hl <;> simp at hl
      | dir o =>
        simp only [mergeLeaf] at hl
        split at hl
        · split at hl <;> simp at hl
        · exact hentry sub (by simpa using hl)

/-- **A closed property of the operands** is one of the result. -/
theorem Closed.mergeInner (hP : Closed P) {a b : DirectoryBuilder K L H} (ha : P a) (hb : P b)
    (h : mergeInner leafCompatible leafCoversDir n a b = .ok r) : P r := by
  induction n generalizing a b r with
  | zero => cases h
  | succ n ih =>
    have hloop {d o r : DirectoryBuilder K L H} (hd : P d) (ho : P o)
        (h : o.entries.foldlM (DirectoryBuilder.mergeEntry leafCompatible leafCoversDir
          (DirectoryBuilder.mergeInner leafCompatible leafCoversDir n)) d = .ok r) : P r := by
      refine foldlM_invariant (fun entry hentry s s' hs hs' => ?_) hd h
      refine hP.mergeEntry hs (fun sub hsub => ?_) (fun d o r hd ho hr => ih hd ho hr) hs'
      exact hP.entry ho (k := entry.1) (by rw [← hsub]; exact hentry)
    rw [DirectoryBuilder.mergeInner] at h
    split at h
    · cases h
      exact ha
    split at h
    · cases h
      exact hb
    split at h
    · exact hloop hb ha h
    · exact hloop ha hb h

/-! ## A symlink and a directory at one path -/

/-- A shared directory with a symlink. -/
def linked : DirectoryBuilder String String Nat := node (.shared 1 0) [("x", .leaf "link")]

/-- A directory at the place of the symlink, and another file. -/
def staged : DirectoryBuilder String String Nat :=
  node .mutable [("x", .dir (node .mutable [("f", .leaf "file")])), ("y", .leaf "file")]

theorem linked_valid : linked.Valid :=
  .node (by decide) (fun k d h => by simp at h) fun k d h => by simp at h

theorem staged_valid : staged.Valid := by
  refine .node (by decide) (fun _ _ _ => trivial) fun k d h => ?_
  obtain ⟨rfl, rfl⟩ : k = "x" ∧ d = node .mutable [("f", .leaf "file")] := by simpa using h
  exact .node (by decide) (fun _ _ _ => trivial) fun k d h => by simp at h

theorem linked_staged_identify : FingerprintsIdentify linked staged := by
  -- there is only one fingerprint
  have hone {x h} (hx : In x linked ∨ In x staged) (hf : x.fingerprint = some h) : x = linked := by
    rcases hx with hx | hx
    · rcases in_node.mp hx with rfl | ⟨k, sub, h, -⟩
      · rfl
      · simp at h
    · rcases in_node.mp hx with rfl | ⟨k, sub, h, hx⟩
      · cases hf
      · obtain ⟨rfl, rfl⟩ : k = "x" ∧ sub = node .mutable [("f", .leaf "file")] := by simpa using h
        rcases in_node.mp hx with rfl | ⟨k, sub, h, -⟩
        · cases hf
        · simp at h
  intro x y hx hy h hfx hfy
  rw [hone hx hfx, hone hy hfy]

theorem linked_tree (k : String) (p : List String) :
    linked.tree (k :: p) = if k = "x" ∧ p = [] then some (.leaf "link") else none := by
  rw [tree_cons, get, linked, entries_node, lookup_cons_ite]
  by_cases hk : k = "x" <;> by_cases hp : p = [] <;> simp [hk, hp, DirectoryEntry.tree]

theorem linked_staged_agree : PathMap.Agree linked.tree staged.tree := by
  intro p l m hl hm
  obtain ⟨k, p, rfl⟩ := exists_cons_of_leaf hl
  rw [linked_tree] at hl
  split at hl
  · next h =>
    obtain ⟨rfl, rfl⟩ := h
    cases hm
  · cases hl

/-- **The operands are exchanged** since the shared directory has fewer entries, and the symlink is
put in the place of the directory, whether it covers directories or not. -/
theorem mergeInner_exchanged :
    linked.Valid ∧ staged.Valid ∧ FingerprintsIdentify linked staged ∧
      PathMap.Agree linked.tree staged.tree ∧
      mergeInnerOld (fun _ => false) linked staged = .error ["x"] ∧
      ∃ r, mergeFast true (fun _ => false) linked staged = .ok r ∧
        r.tree ["x"] = some (.leaf "link") ∧ r.tree ["x", "f"] = none :=
  ⟨linked_valid, staged_valid, linked_staged_identify, linked_staged_agree, rfl, _, rfl, rfl, rfl⟩

/-- Of a symlink that covers directories, both implementations keep the symlink. -/
theorem mergeInner_agrees_covering :
    ∃ r r', mergeFast true (fun l => l = "link") linked staged = .ok r ∧
      mergeInnerOld (fun l => l = "link") linked staged = .ok r' ∧ r.tree = r'.tree := by
  have hclash {p l} (h : PathMap.Clash linked.tree staged.tree p l ∨
      PathMap.Clash staged.tree linked.tree p l) : l = "link" := by
    rcases h with ⟨hl, -⟩ | ⟨hl, hdir⟩ <;> obtain ⟨k, p, rfl⟩ := exists_cons_of_leaf hl
    · rw [linked_tree] at hl
      split at hl <;> cases hl
      rfl
    · rw [linked_tree] at hdir
      split at hdir <;> cases hdir
  have hno (swapped) (p) :
      ¬ ConflictAt (fun l => l = "link") swapped linked.tree staged.tree p := by
    rintro ⟨l, hl, hcovers⟩
    have : l = "link" := hclash (p := p) (by split at hl; exacts [.inr hl, .inl hl])
    simp [this] at hcovers
  have h := (mergeInner_agrees true (fun l => l = "link") linked staged linked_valid staged_valid
    linked_staged_identify fun _ => linked_staged_agree).mpr fun _ => by simp [hno]
  obtain ⟨r', hr'⟩ := h.1.mp ⟨_, rfl⟩
  exact ⟨_, r', rfl, hr', h.2 _ r' rfl hr'⟩

end DirectoryBuilder

end Bz.Directory
