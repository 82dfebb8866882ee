import Bz.Execute.Extract
import Bz.Execute.RoundTrip
import Mathlib.Data.List.Sublists

/-!
# The symlink closure of an artifact

What `extract_artifact_value` captures.  While the loop of `expand_selector_for_dependencies` runs,
a symlink that the paths to take touch has a destination that is taken, or is still to be visited
(`Closing`); when nothing is left to visit, the paths to take are closed.  Every round that finds
something to visit learns a destination, and there are only as many as symlinks.

Principal results: `expand_closed`, `expandLoop_terminates`, `resolve_eq` and
`extract_captures_closure`.
-/

namespace Bz.Execute

open BuckOut Directory Fallible DirectorySelector DirectoryBuilder PathMap ReDirectorySerializer
open List

/-! ## The worklist -/

section Worklist

variable {builder : ActionDirectoryBuilder}
  {st : Expansion} {link : List FileName × Text} {toVisit toTake : ActionSelector}
  {known : List (List FileName)} {fuel : Nat}
  {dest : List FileName} {links : List (List FileName × Text)} {result : ActionSelector}
  {before : Nat}

/-- What the symlinks of a round do to its variables. -/
structure Expansion.Grows (st st' : Expansion) : Prop where
  covers : ∀ q, st.pathsToTake.Covers q → st'.pathsToTake.Covers q
  next : ∀ c, st.nextPathsToVisit.Touches c → st'.nextPathsToVisit.Touches c
  known : ∀ d ∈ st.allKnownSymlinks, d ∈ st'.allKnownSymlinks
  touches : ∀ c, st'.pathsToTake.Touches c →
    st.pathsToTake.Touches c ∨ st'.nextPathsToVisit.Touches c

theorem Expansion.Grows.refl (st : Expansion) : st.Grows st :=
  ⟨fun _ h => h, fun _ h => h, fun _ h => h, fun _ h => .inl h⟩

theorem Expansion.Grows.trans {st1 st2 st3 : Expansion} (h1 : st1.Grows st2) (h2 : st2.Grows st3) :
    st1.Grows st3 where
  covers q h := h2.covers q (h1.covers q h)
  next c h := h2.next c (h1.next c h)
  known d h := h2.known d (h1.known d h)
  touches c h := by
    rcases h2.touches c h with h | h
    · exact (h1.touches c h).imp_right (h2.next c)
    · exact .inr h

/-- Known destinations are taken. -/
def Expansion.KnownTaken (st : Expansion) : Prop :=
  ∀ d ∈ st.allKnownSymlinks, st.pathsToTake.Covers d

/-- A symlink that is touched is met when the paths are visited. -/
theorem mem_links (hb : builder.Valid) {c : List FileName} {target : Text}
    (hc : builder.tree c = some (.leaf (.symlink target))) (h : toVisit.Touches c) :
    (c, target) ∈ (toVisit.unorderedSearch builder).flatMap linksOf := by
  obtain ⟨c0, e, ⟨r, rfl⟩, hmem⟩ | hmem := search_touches h hc
  · refine mem_flatMap.mpr ⟨_, hmem, ?_⟩
    have htree : e.tree r = some (.leaf (.symlink target)) :=
      (search_tree hb hmem r).symm.trans hc
    have hleaf : (r, .symlink target) ∈ e.unorderedWalkLeaves := by
      cases e with
      | dir d =>
        exact (mem_unorderedWalkLeaves (search_valid hb hmem)).mpr htree
      | leaf l =>
        obtain ⟨rfl, htree⟩ := DirectoryEntry.eq_of_tree_leaf htree
        cases htree
        exact mem_singleton.mpr rfl
    exact mem_filterMap.mpr ⟨(c0 ++ r, .symlink target), mem_map.mpr ⟨_, hleaf, rfl⟩, rfl⟩
  · exact mem_flatMap.mpr ⟨_, hmem, mem_singleton.mpr rfl⟩

theorem tree_of_mem_links (hb : builder.Valid)
    (h : link ∈ (toVisit.unorderedSearch builder).flatMap linksOf) :
    builder.tree link.1 = some (.leaf (.symlink link.2)) := by
  have hsymlink {x : List FileName × ActionDirectoryMember} (hx : asSymlink x = some link) :
      x = (link.1, .symlink link.2) := by
    obtain ⟨c, l⟩ := x
    cases l <;> cases hx
    rfl
  obtain ⟨⟨c0, x⟩, hmem, hlink⟩ := mem_flatMap.mp h
  have htree := search_tree hb hmem
  cases x with
  | ok e =>
    obtain ⟨x, hx, hlink⟩ := mem_filterMap.mp hlink
    obtain ⟨⟨r, l⟩, hr, rfl⟩ := mem_map.mp hx
    obtain ⟨hpath, rfl⟩ := Prod.mk.inj (hsymlink hlink)
    rw [← hpath, htree r]
    cases e with
    | dir d =>
      exact (mem_unorderedWalkLeaves (search_valid hb hmem)).mp hr
    | leaf l =>
      cases mem_singleton.mp hr
      rfl
  | error l =>
    have hlink : asSymlink (c0, l) = some link := Option.mem_toList.mp hlink
    obtain ⟨rfl, rfl⟩ := Prod.mk.inj (hsymlink hlink)
    have := htree []
    rwa [append_nil] at this

variable [JoinNormalized]

theorem handleLinkAtPath_grows : st.Grows (handleLinkAtPath st link) := by
  fun_cases handleLinkAtPath st link with
  | case1 | case2 => exact .refl st
  | case3 dest hdest hnew =>
    refine ⟨fun q h => ?_, fun c h => ?_, fun d h => mem_cons_of_mem _ h, fun c h => ?_⟩
    · exact covers_select.mpr (.inl h)
    · exact touches_select.mpr (.inl h)
    · rcases touches_select.mp h with h | h
      · exact .inl h
      · exact .inr (touches_select.mpr (.inr h))

theorem handleLinkAtPath_knownTaken (h : st.KnownTaken) :
    (handleLinkAtPath st link).KnownTaken := by
  fun_cases handleLinkAtPath st link with
  | case1 | case2 => exact h
  | case3 dest hdest hnew =>
    intro d hd
    rcases mem_cons.mp hd with rfl | hd
    · exact covers_select.mpr (.inr (prefix_refl _))
    · exact covers_select.mpr (.inl (h d hd))

theorem foldl_handleLinkAtPath (h : st.KnownTaken) :
    st.Grows (links.foldl handleLinkAtPath st) ∧ (links.foldl handleLinkAtPath st).KnownTaken ∧
      ∀ link ∈ links, ∀ dest, linkDest link.1 link.2 = some dest →
        (links.foldl handleLinkAtPath st).pathsToTake.Covers dest := by
  induction links generalizing st with
  | nil => exact ⟨.refl st, h, nofun⟩
  | cons link links ih =>
    obtain ⟨hgrows, hknown, hdest⟩ := ih (handleLinkAtPath_knownTaken h)
    refine ⟨(handleLinkAtPath_grows).trans hgrows, hknown, fun l hl dest hd => ?_⟩
    rcases mem_cons.mp hl with rfl | hl
    · refine hgrows.covers dest ?_
      unfold handleLinkAtPath
      rw [hd]
      simp only
      split
      · next hmem => exact h dest hmem
      · exact covers_select.mpr (.inr (prefix_refl _))
    · exact hdest l hl dest hd

/-- The destinations of the symlinks that are touched are taken or will be. -/
structure Closing (builder : ActionDirectoryBuilder) (toTake toVisit : ActionSelector)
    (known : List (List FileName)) : Prop where
  known : ∀ d ∈ known, toTake.Covers d
  links : ∀ c target dest, builder.tree c = some (.leaf (.symlink target)) →
    linkDest c target = some dest → toTake.Touches c → toTake.Covers dest ∨ toVisit.Touches c

theorem expandLoop_closed (hb : builder.Valid) (h : Closing builder toTake toVisit known)
    (hrun : expandLoop builder fuel toTake toVisit known = some result) :
    (∀ q, toTake.Covers q → result.Covers q) ∧
      ∀ c target dest, builder.tree c = some (.leaf (.symlink target)) →
        linkDest c target = some dest → result.Touches c → result.Covers dest := by
  fun_induction expandLoop builder fuel toTake toVisit known with
  | case1 => cases hrun
  | case2 fuel toTake toVisit known hempty =>
    cases hrun
    refine ⟨fun q hq => hq, fun c target dest hc hd htouches => ?_⟩
    rcases h.links c target dest hc hd htouches with hcovers | hvisit
    · exact hcovers
    · -- Only the root is touched, and it is no symlink.
      rw [eq_empty_of_isEmpty hempty, touches_empty] at hvisit
      rw [hvisit, tree_nil] at hc
      cases hc
  | case3 fuel toTake toVisit known _ st ih =>
    obtain ⟨hgrows, hknown, hdest⟩ := @foldl_handleLinkAtPath
      ⟨toTake, .empty, known⟩ ((toVisit.unorderedSearch builder).flatMap linksOf) _ h.known
    have hnext : Closing builder st.pathsToTake st.nextPathsToVisit st.allKnownSymlinks := by
      refine ⟨hknown, fun c target dest hc hd htouches => ?_⟩
      rcases hgrows.touches c htouches with htouches | hnext
      · rcases h.links c target dest hc hd htouches with hcovers | hvisit
        · exact .inl (hgrows.covers dest hcovers)
        · exact .inl (hdest (c, target) (mem_links hb hc hvisit) dest hd)
      · exact .inr hnext
    obtain ⟨hcovers, hlinks⟩ := ih hnext hrun
    exact ⟨fun q hq => hcovers q (hgrows.covers q hq), hlinks⟩

/-- **The paths to take are closed**: what was selected is still, and the destination of every
symlink that is touched is taken. -/
theorem expand_closed (hb : builder.Valid)
    (h : expandSelectorForDependencies builder fuel toTake = some result) :
    (∀ q, toTake.Covers q → result.Covers q) ∧
      ∀ c target dest, builder.tree c = some (.leaf (.symlink target)) →
        linkDest c target = some dest → result.Touches c → result.Covers dest := by
  refine expandLoop_closed hb ⟨fun d hd => ?_, fun _ _ _ _ _ h => .inr h⟩ h
  cases hd

/-! ### Termination -/

/-- The destinations of the symlinks of a directory. -/
def allDests (builder : ActionDirectoryBuilder) : List (List FileName) :=
  (builder.unorderedWalkLeaves.filterMap asSymlink).filterMap fun link => linkDest link.1 link.2

/-- What is known are destinations, each once; without a new one nothing is left to visit. -/
structure Learning (builder : ActionDirectoryBuilder) (before : Nat) (st : Expansion) : Prop where
  nodup : st.allKnownSymlinks.Nodup
  dests : ∀ d ∈ st.allKnownSymlinks, d ∈ allDests builder
  more : before < st.allKnownSymlinks.length ∨
    before = st.allKnownSymlinks.length ∧ st.nextPathsToVisit.isEmpty = true

theorem Learning.handle (h : Learning builder before st)
    (hlink : ∀ dest, linkDest link.1 link.2 = some dest → dest ∈ allDests builder) :
    Learning builder before (handleLinkAtPath st link) := by
  fun_cases handleLinkAtPath st link with
  | case1 | case2 => exact h
  | case3 dest hdest hnew =>
    refine ⟨nodup_cons.mpr ⟨hnew, h.nodup⟩, fun d hd => ?_, .inl ?_⟩
    · rcases mem_cons.mp hd with rfl | hd
      · exact hlink _ hdest
      · exact h.dests d hd
    · have := h.more
      simp only [length_cons]
      omega

theorem Learning.fold (h : Learning builder before st)
    (hlinks : ∀ link ∈ links, ∀ dest, linkDest link.1 link.2 = some dest →
      dest ∈ allDests builder) : Learning builder before (links.foldl handleLinkAtPath st) := by
  induction links generalizing st with
  | nil => exact h
  | cons link links ih =>
    exact ih (h.handle (hlinks link mem_cons_self)) fun l hl => hlinks l (mem_cons_of_mem _ hl)

theorem expandLoop_terminates (hb : builder.Valid) (hnodup : known.Nodup)
    (hdests : ∀ d ∈ known, d ∈ allDests builder)
    (hfuel : (allDests builder).length + 2 ≤ fuel + known.length) (toTake toVisit :
      ActionSelector) : ∃ result, expandLoop builder fuel toTake toVisit known = some result := by
  induction fuel generalizing known toTake toVisit with
  | zero =>
    have := (subperm_of_subset hnodup hdests).length_le
    omega
  | succ fuel ih =>
    rw [expandLoop]
    split
    · exact ⟨toTake, rfl⟩
    · have hlearn : Learning builder known.length (expandRound builder toTake toVisit known) :=
        Learning.fold ⟨hnodup, hdests, .inr ⟨rfl, rfl⟩⟩ fun link hlink dest hd =>
          have hleaf := (mem_unorderedWalkLeaves hb).mpr (tree_of_mem_links hb hlink)
          mem_filterMap.mpr ⟨link, mem_filterMap.mpr ⟨_, hleaf, rfl⟩, hd⟩
      rcases hlearn.more with hmore | ⟨-, hempty⟩
      · exact ih hlearn.nodup hlearn.dests (by omega) _ _
      · cases fuel with
        | zero =>
          have := (subperm_of_subset hnodup hdests).length_le
          omega
        | succ fuel => exact ⟨_, by simp only [expandLoop, hempty, if_true]; rfl⟩

end Worklist

/-! ## Resolving in a part of a tree -/

/-- A tree that has all of another one that a closed selector selects. -/
structure Captures (selector : ActionSelector) (t b : ActionTree) : Prop where
  root : t [] = some .dir
  parent : ∀ x k, t (x ++ [k]) ≠ none → t x ≠ none
  sub : ∀ c n, t c = some n → b c = some n
  covered : ∀ c, selector.Covers c → b c ≠ none → ∀ r, t (c ++ r) = b (c ++ r)
  leaves : ∀ c l, selector.Touches c → b c = some (.leaf l) → ∀ r, t (c ++ r) = b (c ++ r)
  closed : ∀ c target, selector.Touches c → b c = some (.leaf (.symlink target)) →
    ∃ dest, follow c.dropLast (relativeComponents target) = some dest ∧ selector.Covers dest

section Resolve

variable {selector : ActionSelector} {t b : ActionTree} {dir rest : List FileName}

/-- Where the part ends before the way along a selected path does, something is missing. -/
theorem walk_missing (h : Captures selector t b) (hcovers : selector.Covers (dir ++ rest))
    (hb : b dir = some .dir) (ht : t dir = none) : walk b dir rest = .missing := by
  fun_induction walk b dir rest with
  | case1 dir =>
    rw [append_nil] at hcovers
    have heq := h.covered dir hcovers (by simp [hb]) []
    rw [append_nil, ht, hb] at heq
    cases heq
  | case2 | case6 => rfl
  | case3 dir name rest hx ih =>
    rw [← append_cons] at ih
    exact ih hcovers hx (not_ne_iff.mp fun hne => h.parent dir name hne ht)
  | case4 dir name rest target hx | case5 dir name rest target hx =>
    rw [append_cons] at hcovers
    have heq := h.leaves _ _ hcovers.touches hx []
    rw [append_nil, hx] at heq
    exact absurd ht (h.parent dir name (by simp [heq]))

theorem walk_eq (h : Captures selector t b) (hcovers : selector.Covers (dir ++ rest))
    (hb : b dir = some .dir) : walk t dir rest = walk b dir rest := by
  induction rest generalizing dir with
  | nil =>
    rw [append_nil] at hcovers
    rw [walk, walk, funext (h.covered dir hcovers (by simp [hb]))]
  | cons name rest ih =>
    have hsplit : dir ++ name :: rest = dir ++ [name] ++ rest := by simp
    rw [hsplit] at hcovers
    rw [walk, walk]
    cases hx : b (dir ++ [name]) with
    | none =>
      have hnone : t (dir ++ [name]) = none := by
        cases hn : t (dir ++ [name]) with
        | none => rfl
        | some n => rw [h.sub _ n hn] at hx; cases hx
      rw [hnone]
    | some n =>
      cases n with
      | dir =>
        cases hn : t (dir ++ [name]) with
        | none => exact (walk_missing h hcovers hx hn).symm
        | some n =>
          cases (h.sub _ n hn).symm.trans hx
          exact ih hcovers hx
      | leaf l =>
        have heq := h.leaves _ l hcovers.touches hx
        have hself := heq []
        rw [append_nil, hx] at hself
        rw [hself]
        cases l <;> simp only [funext heq]

theorem walk_link {path rest' : List FileName} {target : Text}
    (h : walk b dir rest = .link path target rest') :
    b path = some (.leaf (.symlink target)) ∧ path ++ rest' = dir ++ rest := by
  fun_induction walk b dir rest with
  | case1 | case2 | case5 | case6 => cases h
  | case3 dir name rest hx ih =>
    obtain ⟨hpath, heq⟩ := ih h
    exact ⟨hpath, heq.trans (by simp)⟩
  | case4 dir name rest target hx =>
    cases h
    exact ⟨hx, by simp⟩

/-- **A part that captures what is selected** resolves the selected paths as the whole does. -/
theorem resolve_eq (h : Captures selector t b) (hroot : b [] = some .dir) (n : Nat)
    {path : List FileName} (hcovers : selector.Covers path) :
    resolve t n path = resolve b n path := by
  have hwalk {path} (hcovers : selector.Covers path) : walk t [] path = walk b [] path :=
    walk_eq h hcovers hroot
  induction n generalizing path with
  | zero =>
    unfold resolve
    rw [hwalk hcovers]
  | succ n ih =>
    unfold resolve
    rw [hwalk hcovers]
    split
    · rfl
    · rfl
    · next link target rest hlink =>
      obtain ⟨hlink, heq⟩ := walk_link hlink
      have htouches : selector.Touches link := by
        rw [nil_append] at heq
        rw [← heq] at hcovers
        exact hcovers.touches
      obtain ⟨dest, hdest, hcovers'⟩ := h.closed link target htouches hlink
      simp only [hdest]
      exact ih (hcovers'.append rest)

end Resolve

/-! ## The extracted value -/

section Extract

variable {builder : ActionDirectoryBuilder} {path : List FileName}
  {found : List (List FileName × Except ActionDirectoryMember ActionDirectoryEntry)}
  {st : ActionDirectoryBuilder × Bool} {fuel : Nat} {parts : ExtractedParts}
  {interner interner' : ActionInterner}
  {inserted : List (List FileName)} {st' : ActionDirectoryBuilder × Bool}
  {d : ActionDirectoryBuilder} {e : ExtractError} {selector : ActionSelector}

/-- The dependencies so far: a part of the directory, with all that has been inserted. -/
structure DepsOf (builder : ActionDirectoryBuilder) (inserted : List (List FileName))
    (deps : ActionDirectoryBuilder) : Prop where
  sub : ∀ c n, deps.tree c = some n → builder.tree c = some n
  all : ∀ c ∈ inserted, ∀ r, deps.tree (c ++ r) = builder.tree (c ++ r)

/-- The paths of what a search finds, without the artifact's own. -/
def depPaths (path : List FileName)
    (found : List (List FileName × Except ActionDirectoryMember ActionDirectoryEntry)) :
    List (List FileName) :=
  (found.map Prod.fst).filter (· ≠ path)

theorem DepsOf.insert {deps deps' : ActionDirectoryBuilder} (h : DepsOf builder inserted deps)
    {c : List FileName} {e : ActionDirectoryEntry} (he : ∀ r, builder.tree (c ++ r) = e.tree r)
    {old : Option ActionDirectoryEntry} (hins : deps.insert c e = (deps', .ok old)) :
    DepsOf builder (inserted ++ [c]) deps' := by
  obtain ⟨-, -, htree, -⟩ := insert_ok hins
  have hc : builder.tree c ≠ none := by
    have := he []
    rw [append_nil] at this
    rw [this]
    cases e <;> simp [DirectoryEntry.tree]
  have hbelow (r : List FileName) : deps'.tree (c ++ r) = builder.tree (c ++ r) := by
    rw [htree, putAt_append, he r]
  constructor
  · intro q n hq
    by_cases hcq : c <+: q
    · obtain ⟨r, rfl⟩ := hcq
      rwa [← hbelow r]
    · by_cases hqc : q <+: c
      · have hne : q ≠ c := fun heq => hcq (heq ▸ prefix_refl _)
        rw [htree, putAt_above hqc hne] at hq
        cases hq
        exact builder.isTree.dir_above hqc hne hc
      · rw [htree, putAt_apart hcq hqc] at hq
        exact h.sub q n hq
  · intro c' hc' r
    rcases mem_append.mp hc' with hc' | hc'
    · by_cases hcq : c <+: c' ++ r
      · obtain ⟨r', heq⟩ := hcq
        rw [← heq, hbelow r']
      · by_cases hqc : c' ++ r <+: c
        · have hne : c' ++ r ≠ c := fun heq => hcq (heq ▸ prefix_refl _)
          rw [htree, putAt_above hqc hne, builder.isTree.dir_above hqc hne hc]
        · rw [htree, putAt_apart hcq hqc, h.all c' hc' r]
    · cases mem_singleton.mp hc'
      exact hbelow r

theorem foldlM_insertDep (hb : builder.Valid)
    (hfound : ∀ r ∈ found, r ∈ selector.unorderedSearch builder) (h : DepsOf builder inserted st.1)
    (hflag : st.2 = !inserted.isEmpty) (hrun : found.foldlM (insertDep path) st = .ok st') :
    DepsOf builder (inserted ++ depPaths path found) st'.1 ∧
      st'.2 = !(inserted ++ depPaths path found).isEmpty := by
  induction found generalizing inserted st with
  | nil =>
    cases hrun
    rw [depPaths, map_nil, filter_nil, append_nil]
    exact ⟨h, hflag⟩
  | cons r found ih =>
    obtain ⟨st1, h1, hrun⟩ := bind_eq_ok.mp hrun
    have hfound' : ∀ r ∈ found, r ∈ selector.unorderedSearch builder :=
      fun x hx => hfound x (mem_cons_of_mem _ hx)
    unfold insertDep at h1
    split at h1
    · next hpath =>
      cases h1
      have heq : depPaths path (r :: found) = depPaths path found := by
        simp [depPaths, hpath]
      rw [heq]
      exact ih hfound' h hflag hrun
    · next hpath =>
      have heq : inserted ++ depPaths path (r :: found) =
          inserted ++ [r.1] ++ depPaths path found := by
        simp [depPaths, hpath]
      rw [heq]
      split at h1
      · cases h1
      · next deps old hins =>
        cases h1
        have htree := search_tree hb (hfound r mem_cons_self)
        exact ih hfound' (h.insert htree hins) (by simp) hrun

/-- The tree of the dependencies that are left without the artifact. -/
def restTree (path : List FileName) (parts : ExtractedParts) : ActionTree :=
  fun q => if parts.hasDeps = true ∧ ¬ path <+: q then parts.deps.tree q else none

/-- The entry at its path, on top of the dependencies. -/
def placed (path : List FileName) (parts : ExtractedParts) : ActionTree :=
  PathMap.putAt (restTree path parts) parts.entry.tree path

section Placed

variable (hentry : ∀ r, builder.tree (path ++ r) = parts.entry.tree r) {q : List FileName}

include hentry

theorem tree_path_ne_none : builder.tree path ≠ none := by
  have := hentry []
  rw [append_nil] at this
  rw [this]
  cases parts.entry <;> simp [DirectoryEntry.tree]

theorem placed_near (h : path <+: q ∨ q <+: path) : placed path parts q = builder.tree q := by
  by_cases hpre : path <+: q
  · obtain ⟨r, rfl⟩ := hpre
    rw [placed, putAt_append, hentry r]
  · have hq := h.resolve_left hpre
    have hne : q ≠ path := fun heq => hpre (heq ▸ prefix_refl _)
    rw [placed, putAt_above hq hne, builder.isTree.dir_above hq hne (tree_path_ne_none hentry)]

omit hentry in
theorem placed_apart (h : ¬ path <+: q) (h' : ¬ q <+: path) :
    placed path parts q = if parts.hasDeps = true then parts.deps.tree q else none := by
  rw [placed, putAt_apart h h', restTree]
  simp only [h, not_false_eq_true, and_true]

theorem placed_parent {x : List FileName} {k : FileName}
    (h : placed path parts (x ++ [k]) ≠ none) : placed path parts x ≠ none := by
  by_cases hx : path <+: x ∨ x <+: path
  · rw [placed_near hentry hx]
    rcases hx with hx | hx
    · rw [placed_near hentry (.inl (hx.trans (prefix_append _ _)))] at h
      rw [builder.isTree.parent x k h]
      exact nofun
    · obtain ⟨r, rfl⟩ := hx
      intro hnone
      have := tree_path_ne_none hentry
      rcases eq_or_ne r [] with rfl | hr
      · rw [append_nil] at this
        exact this hnone
      · rw [builder.isTree.dir_of_append hr this] at hnone
        cases hnone
  · rw [not_or] at hx
    have hx' : ¬ path <+: x ++ [k] := by
      intro hpre
      rcases prefix_concat_iff.mp hpre with heq | hpre
      · exact hx.2 (heq ▸ prefix_append _ _)
      · exact hx.1 hpre
    have hx'' : ¬ x ++ [k] <+: path := fun hpre => hx.2 ((prefix_append _ _).trans hpre)
    rw [placed_apart hx' hx''] at h
    rw [placed_apart hx.1 hx.2]
    split at h
    · next hhas =>
      rw [if_pos hhas, parts.deps.isTree.parent x k h]
      exact nofun
    · exact absurd rfl h

theorem placed_found (hdeps : DepsOf builder (depPaths path found) parts.deps)
    (hflag : parts.hasDeps = !(depPaths path found).isEmpty)
    {r : List FileName × Except ActionDirectoryMember ActionDirectoryEntry} (hr : r ∈ found)
    (q : List FileName) : placed path parts (r.1 ++ q) = builder.tree (r.1 ++ q) := by
  by_cases hnear : path <+: r.1 ++ q ∨ r.1 ++ q <+: path
  · exact placed_near hentry hnear
  · rw [not_or] at hnear
    have hmem : r.1 ∈ depPaths path found := by
      refine mem_filter.mpr ⟨mem_map.mpr ⟨r, hr, rfl⟩, ?_⟩
      simp only [ne_eq, decide_not, Bool.not_eq_true', decide_eq_false_iff_not]
      intro heq
      exact hnear.1 (heq ▸ prefix_append _ _)
    have hhas : parts.hasDeps := by
      rw [hflag]
      cases hp : depPaths path found with
      | nil => rw [hp] at hmem; cases hmem
      | cons _ _ => rfl
    rw [placed_apart hnear.1 hnear.2, if_pos hhas, hdeps.all r.1 hmem q]

end Placed

theorem extractParts_ok [JoinNormalized] (h : extractParts builder path fuel = .ok (some parts)) :
    builder.find path = .ok (some parts.entry) ∧ ∃ selector,
      expandSelectorForDependencies builder fuel (DirectorySelector.empty.select path) =
        some selector ∧ (selector.unorderedSearch builder).foldlM (insertDep path) (.empty, false) =
        .ok (parts.deps, parts.hasDeps) := by
  unfold extractParts at h
  split at h
  · cases h
  · cases h
  · next entry hfind =>
    split at h
    · cases h
    · next selector hexpand =>
      split at h
      · cases h
      · next st hrun =>
        cases h
        exact ⟨hfind, selector, hexpand, hrun⟩

theorem depsOf_empty : DepsOf builder [] .empty := by
  refine ⟨fun c n h => ?_, nofun⟩
  cases c with
  | nil =>
    exact h
  | cons k c =>
    cases h

/-- **What is extracted** captures what the paths to take select. -/
theorem extractParts_captures [JoinNormalized] (hb : builder.Valid)
    (hlinks : ∀ c target, builder.tree c = some (.leaf (.symlink target)) → Inside c target)
    (h : extractParts builder path fuel = .ok (some parts)) :
    ∃ selector : ActionSelector, (∀ q, path <+: q → selector.Covers q) ∧
      Captures selector (placed path parts) builder.tree := by
  obtain ⟨hfind, selector, hexpand, hrun⟩ := extractParts_ok h
  have hentry : ∀ r, builder.tree (path ++ r) = parts.entry.tree r :=
    find_ok hfind
  obtain ⟨hdeps, hflag⟩ := foldlM_insertDep hb (fun r hr => hr) depsOf_empty rfl hrun
  obtain ⟨hkeep, hclosed⟩ := expand_closed hb hexpand
  refine ⟨selector, fun q hq => hkeep q (covers_select.mpr (.inr hq)),
    { root := ?_, parent := fun x k => placed_parent hentry,
      sub := fun c n h => ?_, covered := fun c hc hne r => ?_, leaves := fun c l hc hl r => ?_,
      closed := fun c target hc hl => ?_ }⟩
  · rw [placed_near hentry (.inr nil_prefix), tree_nil]
  · by_cases hnear : path <+: c ∨ c <+: path
    · rwa [placed_near hentry hnear] at h
    · rw [not_or] at hnear
      rw [placed_apart hnear.1 hnear.2] at h
      split at h
      · exact hdeps.sub c n h
      · cases h
  · obtain ⟨c0, e, ⟨q, rfl⟩, hmem⟩ := search_covers hc hne
    rw [append_assoc]
    exact placed_found hentry hdeps hflag hmem (q ++ r)
  · obtain ⟨c0, e, ⟨q, rfl⟩, hmem⟩ | hmem := search_touches hc hl
    · rw [append_assoc]
      exact placed_found hentry hdeps hflag hmem (q ++ r)
    · exact placed_found hentry hdeps hflag hmem r
  · obtain ⟨dest, hdest, hfollow⟩ := (hlinks c target hl).dest
    exact ⟨dest, hfollow, hclosed c target dest hl hdest hc⟩

/-! ### Digesting and interning -/

theorem depsOf_hereditary {R : ActionDirectoryBuilder → Prop} (hR : Hereditary R) (hb : R builder)
    (hfound : ∀ r ∈ found, r ∈ selector.unorderedSearch builder) (h : R st.1)
    (hrun : found.foldlM (insertDep path) st = .ok st') : R st'.1 := by
  refine foldlM_invariant (P := fun st => R st.1) (fun r hr st st' hst hstep => ?_) h hrun
  unfold insertDep at hstep
  split at hstep
  · cases hstep
    exact hst
  · have hval : ∀ sub, DirectorySelector.found r.2 = .dir sub → R sub := by
      rintro sub hsub
      obtain ⟨c, x⟩ := r
      cases x with
      | ok e =>
        cases hsub
        exact search_hereditary hR hb (hfound _ hr)
      | error l => cases hsub
    have hinsert := hR.insert hst hval r.1
    split at hstep
    · cases hstep
    · next hins =>
      cases hstep
      rw [hins] at hinsert
      exact hinsert

/-- A directory whose digested directories have the fingerprints of their entries. -/
structure ReDirectorySerializer.Sound (s : ReDirectorySerializer) (d : ActionDirectoryBuilder) :
    Prop where
  valid : d.Valid
  digested : ∀ x, DirectoryBuilder.In x d → x.kind.isMutable = false → s.Fingerprinted x

/-- A digested directory that has, somewhere in the builder, only what the builder has. -/
structure ReDirectorySerializer.PartOf (s : ReDirectorySerializer)
    (builder x : ActionDirectoryBuilder) : Prop where
  valid : x.Valid
  fingerprinted : s.Fingerprinted x
  sub : ∃ c, ∀ q n, x.tree q = some n → builder.tree (c ++ q) = some n

/-- Equal fingerprints mean equal trees among parts of a builder and interned directories. -/
def ReDirectorySerializer.Identifies (s : ReDirectorySerializer) (builder : ActionDirectoryBuilder)
    (interner : ActionInterner) : Prop :=
  ∀ x y, s.PartOf builder x ∨ x ∈ interner → s.PartOf builder y ∨ y ∈ interner →
    ∀ fingerprint, x.fingerprint = some fingerprint → y.fingerprint = some fingerprint →
      x.tree = y.tree

variable {s : ReDirectorySerializer} {meaning : FileDigest → ActionTree}

namespace ReDirectorySerializer

theorem Sound.entry (h : s.Sound d) {k : FileName} {sub : ActionDirectoryBuilder}
    (hk : (k, .dir sub) ∈ d.entries) : s.Sound sub :=
  ⟨h.valid.entry hk, fun x hx => h.digested x (.entry hk hx)⟩

theorem sound_mutable {entries : List (FileName × ActionDirectoryEntry)}
    (h : (DirectoryBuilder.node .mutable entries : ActionDirectoryBuilder).Valid)
    (hentry : ∀ k sub, (k, .dir sub) ∈ entries → s.Sound sub) :
    s.Sound (.node .mutable entries) := by
  refine ⟨h, fun x hx hkind => ?_⟩
  cases hx with
  | self => cases hkind
  | entry hk hx => exact (hentry _ _ hk).digested x hx hkind

theorem hereditary_sound : Hereditary s.Sound where
  empty := sound_mutable .empty fun _ _ hk => nomatch hk
  entry h hk := h.entry hk
  setEntry k h he := by
    refine sound_mutable (h.valid.setEntry k fun d hd => (he d hd).valid) fun l sub hl => ?_
    rcases mem_insertEntry hl with heq | hl
    · obtain ⟨-, rfl⟩ := Prod.mk.inj heq
      exact he sub rfl
    · exact h.entry hl
  filter p h := sound_mutable (hereditary_valid.filter p h.valid)
    fun _ _ hk => h.entry (mem_of_mem_filter hk)

theorem Fingerprinted.not_mutable (h : s.Fingerprinted d) : d.kind.isMutable = false := by
  obtain ⟨⟨fingerprint, hkind, -⟩, -⟩ := h
  show Kind.isMutable _ = false
  cases ‹Kind FileDigest› with
  | mutable => cases hkind
  | exclusive | shared => rfl

/-- **Fingerprinting** gives every directory the fingerprint of its entries. -/
theorem Sound.fingerprintDir (h : s.Sound d) {d' : ActionDirectoryBuilder}
    (hd' : d.fingerprintDir FileName.le s.digester = some d') : d'.Valid ∧ s.Fingerprinted d' := by
  induction d using recurse generalizing d' with
  | h d ih =>
    obtain ⟨kind, entries⟩ := d
    cases kind with
    | exclusive fingerprint size | shared fingerprint size =>
      cases hd'
      exact ⟨h.valid, h.digested _ (.self _) rfl⟩
    | mutable =>
      rw [DirectoryBuilder.fingerprintDir] at hd'
      split at hd'
      · cases hd'
      · next es hes =>
        obtain ⟨fp, hfp, rfl⟩ := Option.map_eq_some_iff.mp hd'
        have hdir (k : FileName) (sub : ActionDirectoryBuilder)
            (hk : (k, .dir sub) ∈ sorted FileName.le es) : sub.Valid ∧ s.Fingerprinted sub :=
          forall_dir_fingerprintEntries (fun k d d' hk hd => ih k d hk (h.entry hk) hd) hes
            (mem_sorted.mp hk)
        have hnodup : (es.map Prod.fst).Nodup := by
          have hall := fingerprintEntries_forall2 (P := fun _ _ => True)
            (fun _ _ _ _ _ => trivial) hes
          rw [keys_eq_of_forall2 (fun _ _ h => h.1) hall]
          exact h.valid.nodup
        refine ⟨.node (nodup_sorted hnodup) (fun k sub hk => ?_) fun k sub hk => (hdir k sub hk).1,
          .node ⟨fp, rfl, hfp⟩ fun k sub hk => (hdir k sub hk).2⟩
        have hsub := (hdir k sub hk).2.not_mutable
        cases hkind : sub.kind with
        | mutable =>
          rw [hkind] at hsub
          cases hsub
        | exclusive | shared => trivial

theorem PartOf.in {x y : ActionDirectoryBuilder} (h : s.PartOf builder y)
    (hx : DirectoryBuilder.In x y) : s.PartOf builder x := by
  induction hx with
  | self => exact h
  | @entry d sub x k hk _ ih =>
    refine ih ⟨h.valid.entry hk, ?_, ?_⟩
    · cases h.fingerprinted with
      | node fingerprint dir => exact dir _ _ hk
    · obtain ⟨c, hc⟩ := h.sub
      refine ⟨c ++ [k], fun q n hq => ?_⟩
      rw [append_assoc]
      exact hc (k :: q) n ((ActionDirectory.tree_entry h.valid hk q).trans hq)

/-- **Every fingerprint stands for a tree.** -/
theorem Identifies.exists_meaning (h : s.Identifies builder interner) :
    ∃ meaning : FileDigest → ActionTree,
      ∀ x, s.PartOf builder x ∨ x ∈ interner → x.Means meaning := by
  classical
  refine ⟨fun fp => if h : ∃ x, (s.PartOf builder x ∨ x ∈ interner) ∧ x.fingerprint = some fp
    then h.choose.tree else fun _ => none, fun x hx fp hfp => ?_⟩
  have hex : ∃ x, (s.PartOf builder x ∨ x ∈ interner) ∧ x.fingerprint = some fp := ⟨x, hx, hfp⟩
  simp only [dif_pos hex]
  exact h x _ hx hex.choose_spec.1 fp hfp hex.choose_spec.2

/-- **Messages that do not collide identify directories**, if the wire form describes the leaves
completely. -/
theorem identifies_of_collisionFree (hconfig : s.casDigestConfig.Configured)
    (hleaf : ∀ p l, builder.tree p = some (.leaf l) → s.Wire l ∧ s.received l = l)
    (hinterner : ∀ x ∈ interner, s.Plain x)
    (hfree : s.CollisionFree fun m => ∃ x, (s.PartOf builder x ∨ x ∈ interner) ∧ IsMessage x m) :
    s.Identifies builder interner := by
  have hplain (x : ActionDirectoryBuilder) (hx : s.PartOf builder x ∨ x ∈ interner) :
      s.Plain x := by
    rcases hx with hx | hx
    · obtain ⟨c, hc⟩ := hx.sub
      exact ⟨⟨hx.valid, hx.fingerprinted, fun p l hl => (hleaf _ _ (hc p _ hl)).1⟩,
        fun p l hl => (hleaf _ _ (hc p _ hl)).2⟩
    · exact hinterner x hx
  intro x y hx hy fp hxfp hyfp
  obtain ⟨-, fpx, hfpx, hdigest⟩ := (hplain x hx).fingerprint
  obtain ⟨-, fpy, hfpy, hdigest'⟩ := (hplain y hy).fingerprint
  cases hfpx.symm.trans hxfp
  cases hfpy.symm.trans hyfp
  refine message_inj hconfig hfree (hplain x hx) (hplain y hy) (fun m hm => ⟨x, hx, hm⟩)
    (fun m hm => ⟨y, hy, hm⟩) (hfree _ _ ⟨x, hx, (hplain x hx).isMessage⟩
      ⟨y, hy, (hplain y hy).isMessage⟩ (hdigest.trans hdigest'.symm))

end ReDirectorySerializer

/-- Interning something that has, somewhere in the builder, only what the builder has. -/
theorem intern_ok {r : ActionDirectoryBuilder} (hparts : ∀ x, s.PartOf builder x → x.Means meaning)
    (hinterner : ∀ x ∈ interner, x.Means meaning) (hd : s.Sound d)
    (hsub : ∃ c, ∀ q n, d.tree q = some n → builder.tree (c ++ q) = some n)
    (h : s.intern interner d = .ok (r, interner')) :
    r.tree = d.tree ∧ ∀ x ∈ interner', x.Means meaning := by
  unfold intern at h
  split at h
  · cases h
  · next d' hd' =>
    have htree' := tree_fingerprintDir hd.valid hd'
    obtain ⟨hvalid, hfingerprinted⟩ := hd.fingerprintDir hd'
    have hpart : s.PartOf builder d' := ⟨hvalid, hfingerprinted, htree' ▸ hsub⟩
    obtain ⟨htree, hmeans⟩ := tree_shared (fun x hx => hparts x (hpart.in hx)) interner hinterner
    rw [Except.ok.inj h] at htree hmeans
    exact ⟨htree.trans htree', hmeans⟩

theorem internEntry_ok {e e' : ActionDirectoryEntry}
    (hparts : ∀ x, s.PartOf builder x → x.Means meaning)
    (hinterner : ∀ x ∈ interner, x.Means meaning) (he : ∀ sub, e = .dir sub → s.Sound sub)
    (hfind : builder.find path = .ok (some e))
    (h : s.internEntry interner e = .ok (e', interner')) :
    e'.tree = e.tree ∧ ∀ x ∈ interner', x.Means meaning := by
  cases e with
  | leaf l =>
    cases h
    exact ⟨rfl, hinterner⟩
  | dir d =>
    obtain ⟨r, hr, heq⟩ := map_eq_ok.mp h
    cases heq
    refine intern_ok hparts hinterner (he d rfl) ⟨path, fun q n hq => ?_⟩ hr
    exact (find_ok hfind q).trans hq

theorem insertDep_error (h : found.foldlM (insertDep path) st = .error e) :
    ∃ e', e = .insert e' := by
  induction found generalizing st with
  | nil => cases h
  | cons r found ih =>
    rw [foldlM_cons] at h
    cases hstep : insertDep path st r with
    | ok st1 =>
      rw [hstep] at h
      exact ih h
    | error e1 =>
      rw [hstep] at h
      cases h
      unfold insertDep at hstep
      split at hstep
      · cases hstep
      · split at hstep
        · cases hstep
          exact ⟨_, rfl⟩
        · cases hstep

theorem intern_error (h : s.intern interner d = .error e) : e = .panic := by
  unfold intern at h
  split at h <;> cases h
  rfl

variable [JoinNormalized]

theorem hasDeps_root (h : extractParts builder [] fuel = .ok (some parts)) (hb : builder.Valid) :
    parts.hasDeps = false := by
  obtain ⟨-, selector, hexpand, hrun⟩ := extractParts_ok h
  have hcovers := (expand_closed hb hexpand).1 [] (by simp [DirectorySelector.select])
  cases selector with
  | traverse entries => exact absurd hcovers (by unfold DirectorySelector.Covers; exact id)
  | take =>
    have hrun : Except.ok (.empty, false) = Except.ok (parts.deps, parts.hasDeps) := hrun
    exact (congrArg Prod.snd (Except.ok.inj hrun)).symm

theorem internDeps_ok (hb : s.Sound builder)
    (hparts : extractParts builder path fuel = .ok (some parts))
    (hmeans : ∀ x, s.PartOf builder x → x.Means meaning)
    (hinterner : ∀ x ∈ interner, x.Means meaning)
    {rest : ActionDirectoryBuilder} (hrest : parts.deps.removePrefix path = .ok rest)
    {entry : ActionDirectoryEntry} {deps : Option ActionDirectoryBuilder}
    (h : s.internDeps interner parts.hasDeps rest = .ok (deps, interner')) :
    (ArtifactValue.mk entry deps).depsTree = restTree path parts := by
  unfold internDeps at h
  split at h
  · next hhas =>
    obtain ⟨r, hr, heq⟩ := map_eq_ok.mp h
    cases heq
    have hne : path ≠ [] := by
      rintro rfl
      rw [hasDeps_root hparts hb.valid] at hhas
      cases hhas
    obtain ⟨-, selector, -, hrun⟩ := extractParts_ok hparts
    have hdeps := depsOf_hereditary hereditary_sound hb (fun r hr => hr) hereditary_sound.empty hrun
    have hsub := (foldlM_insertDep hb.valid (fun r hr => hr) depsOf_empty rfl hrun).1.sub
    have htree := removePrefix_ok hne hrest
    have hrestSub : ∀ q n, rest.tree q = some n → builder.tree q = some n := by
      intro q n hq
      rw [htree] at hq
      split at hq
      · cases hq
      · exact hsub q n hq
    have hkept := intern_ok hmeans hinterner (hereditary_sound.removePrefix hdeps hrest)
      ⟨[], hrestSub⟩ hr
    funext q
    show r.1.tree q = _
    rw [hkept.1, htree, restTree]
    by_cases hq : path <+: q
    · rw [if_pos hq, if_neg fun h => h.2 hq]
    · rw [if_neg hq, if_pos ⟨hhas, hq⟩]
  · next hhas =>
    cases h
    funext q
    rw [restTree, if_neg fun h => hhas h.1]
    rfl

theorem extractArtifactValue_ok (hb : s.Sound builder) {value : ArtifactValue}
    (hid : s.Identifies builder interner)
    (h : s.extractArtifactValue builder path fuel interner = .ok (some value, interner')) :
    ∃ parts, extractParts builder path fuel = .ok (some parts) ∧
      value.entry.tree = parts.entry.tree ∧ value.depsTree = restTree path parts := by
  obtain ⟨meaning, hmeaning⟩ := hid.exists_meaning
  have hmeans := fun x hx => hmeaning x (.inl hx)
  unfold extractArtifactValue at h
  split at h
  · cases h
  · cases h
  · next parts hparts =>
    obtain ⟨entry, hentry, h⟩ := bind_eq_ok.mp h
    have hfind := (extractParts_ok hparts).1
    obtain ⟨htree, hinterner⟩ := internEntry_ok hmeans (fun x hx => hmeaning x (.inr hx))
      (hereditary_sound.find hb hfind) hfind hentry
    split at h
    · cases h
    · next rest hrest =>
      obtain ⟨deps, hdeps, h⟩ := bind_eq_ok.mp h
      cases h
      exact ⟨parts, hparts, htree, internDeps_ok hb hparts hmeans hinterner hrest hdeps⟩

theorem extractParts_terminates (hb : builder.Valid) (hfuel :
    (allDests builder).length + 2 ≤ fuel) : extractParts builder path fuel ≠ .error .outOfFuel := by
  intro h
  obtain ⟨selector, hselector⟩ := expandLoop_terminates hb nodup_nil nofun hfuel _ _
  unfold extractParts expandSelectorForDependencies at h
  split at h
  · cases h
  · cases h
  · rw [hselector] at h
    simp only at h
    split at h
    · next hrun =>
      obtain ⟨e', rfl⟩ := insertDep_error hrun
      cases h
    · cases h

/-- **Extraction terminates.** -/
theorem extract_terminates (hb : builder.Valid) (hfuel : (allDests builder).length + 2 ≤ fuel) :
    s.extractArtifactValue builder path fuel interner ≠ .error .outOfFuel := by
  intro h
  unfold extractArtifactValue at h
  split at h
  · next hparts =>
    cases h
    exact extractParts_terminates hb hfuel hparts
  · cases h
  · next parts hparts =>
    cases hentry : s.internEntry interner parts.entry with
    | error e =>
      rw [hentry] at h
      cases h
      unfold internEntry at hentry
      split at hentry
      · cases hentry
      · next d _ =>
        cases hd : s.intern interner d with
        | ok r => rw [hd] at hentry; cases hentry
        | error e =>
          rw [hd, intern_error hd] at hentry
          cases hentry
    | ok entry =>
      rw [hentry, ok_bind] at h
      split at h
      · cases h
      · next rest hrest =>
        cases hdeps : s.internDeps entry.2 parts.hasDeps rest with
        | ok deps => rw [hdeps] at h; cases h
        | error e =>
          rw [hdeps] at h
          cases h
          unfold internDeps at hdeps
          split at hdeps
          · cases hd : s.intern entry.2 rest with
            | ok r => rw [hd] at hdeps; cases hdeps
            | error e =>
              rw [hd, intern_error hd] at hdeps
              cases hdeps
          · cases hdeps

end Extract

namespace Example

/-- Every `..` at the front takes a name. -/
scoped instance : JoinNormalized where
  join dir path := dir.take (dir.length - (path.takeWhile (· = dotDot)).length) ++
    path.dropWhile (· = dotDot)
  join_names dir names n hn := by
    have hups : ∀ c ∈ List.replicate n dotDot, decide (c = dotDot) = true := by
      simp +contextual
    have htake : (names.map FileName.text).takeWhile (· = dotDot) = [] := by
      cases names with
      | nil => rfl
      | cons name names => simp [name.text_ne.2.2]
    have hdrop : (names.map FileName.text).dropWhile (· = dotDot) = names.map FileName.text := by
      cases names with
      | nil => rfl
      | cons name names => simp [name.text_ne.2.2]
    rw [takeWhile_append_of_pos hups, dropWhile_append_of_pos hups, htake, hdrop]
    simp

/-- Hashing tells directories of a file and a symlink apart. -/
def counting : ReDirectorySerializer :=
  { serializer with encode m := List.replicate (m.files.length + 2 * m.symlinks.length) 0 }

/-- A symlink next to the file that it leads to. -/
def linked : ActionDirectoryBuilder :=
  .node .mutable [(nameL, .leaf (.symlink ['f'])), (nameF, .leaf (.file ⟨digestOfSize 7, true⟩))]

theorem linked_inside (c : List FileName) (target : Text)
    (h : linked.tree c = some (.leaf (.symlink target))) : Inside c target := by
  have hc : c ≠ [] := by
    rintro rfl
    cases h
  have htarget : target = ['f'] := by
    refine forall_leaf (d := linked) (P := fun l => ∀ target, l = .symlink target → target = ['f'])
      (fun k l hk target hl => ?_) (by simp [linked]) c _ h target rfl
    simp only [linked, entries_node, mem_cons, Prod.mk.injEq, hl,
      DirectoryEntry.leaf.injEq, ActionDirectoryMember.symlink.injEq, reduceCtorEq, and_false,
      not_mem_nil, or_false] at hk
    exact hk.2
  refine ⟨0, [nameF], ?_, length_pos_iff.mpr hc⟩
  rw [htarget]
  rfl

theorem linked_sound : counting.Sound linked :=
  sound_mutable (.node (by decide) (by simp) (by simp)) (by simp)

theorem linked_root {c : List FileName} (h : linked.tree c = some .dir) : c = [] := by
  cases c with
  | nil => rfl
  | cons k c =>
    rw [tree_cons] at h
    obtain ⟨e, he, h⟩ := Option.bind_eq_some_iff.mp h
    have hmem : (k, e) ∈ linked.entries := mem_of_lookup he
    simp only [linked, entries_node, mem_cons, Prod.mk.injEq, not_mem_nil, or_false] at hmem
    obtain ⟨-, rfl⟩ | ⟨-, rfl⟩ := hmem <;> simp [DirectoryEntry.tree] at h

/-- A part of the directory has some of its entries. -/
theorem linked_part {x : ActionDirectoryBuilder} (h : counting.PartOf linked x) :
    x.entries ⊆ linked.entries := by
  rintro ⟨k, e⟩ hk
  obtain ⟨c, hc⟩ := h.sub
  have hroot := hc [] _ (tree_nil x)
  rw [append_nil] at hroot
  cases linked_root hroot
  have htree := ActionDirectory.tree_entry h.valid hk []
  cases e with
  | dir sub => cases linked_root (hc [k] .dir (htree.trans (tree_nil sub)))
  | leaf l =>
    have hleaf := hc [k] (.leaf l) htree
    rw [nil_append, tree_cons] at hleaf
    obtain ⟨e, he, hl⟩ := Option.bind_eq_some_iff.mp hleaf
    cases e with
    | dir sub =>
      have hdir : some .dir = some (Node.leaf l) := (tree_nil sub).symm.trans hl
      cases hdir
    | leaf l' =>
      cases hl
      exact mem_of_lookup he

theorem linked_message {x : ActionDirectoryBuilder} {m : ReDirectory}
    (h : counting.PartOf linked x) (hm : IsMessage x m) :
    ∃ l ∈ linked.entries.sublists, m = message l := by
  have hsub := linked_part h
  obtain ⟨y, rfl | hy, hm⟩ := hm
  · obtain ⟨-, rfl⟩ := createReDirectory_eq_some.mp hm
    obtain ⟨l, hperm, hl⟩ := subperm_of_subset (h.valid.nodup.of_map _) hsub
    have hnodup : (l.map Prod.fst).Nodup := (hperm.map _).nodup_iff.mpr h.valid.nodup
    exact ⟨l, mem_sublists.mpr hl, message_congr h.valid.nodup hnodup
      (fun n => (hperm.filterMap _).mem_iff.symm) (fun n => (hperm.filterMap _).mem_iff.symm)
      fun n => (hperm.filterMap _).mem_iff.symm⟩
  · obtain ⟨k, sub, hk, -⟩ := mem_orderedWalkDirs.mp hy
    simpa [linked] using hsub hk

theorem linked_identifies : counting.Identifies linked [] := by
  have hsublists : ∀ l ∈ linked.entries.sublists, ∀ l' ∈ linked.entries.sublists,
      counting.digest (message l) = counting.digest (message l') → message l = message l' := by
    decide +kernel
  refine identifies_of_collisionFree configured (forall_leaf (fun k l hk => ?_) (by simp [linked]))
    nofun ?_
  · simp only [linked, entries_node, mem_cons, Prod.mk.injEq, DirectoryEntry.leaf.injEq,
      not_mem_nil, or_false] at hk
    obtain ⟨-, rfl⟩ | ⟨-, rfl⟩ := hk
    · exact ⟨show ['f'].head? ≠ some '/' by decide, rfl⟩
    · exact ⟨⟨.sha1, rfl, rfl⟩, rfl⟩
  · rintro m m' ⟨x, hx | hx, hm⟩ ⟨y, hy | hy, hm'⟩ hdigest
    · obtain ⟨l, hl, rfl⟩ := linked_message hx hm
      obtain ⟨l', hl', rfl⟩ := linked_message hy hm'
      exact hsublists l hl l' hl' hdigest
    all_goals simp_all

/-- An artifact with a symlink out of the project. -/
def artifact (remaining : ForwardRelativePath) : ActionDirectoryBuilder :=
  .node .mutable [(nameD, .dir (links remaining).asMut)]

variable {remaining : ForwardRelativePath}

theorem files_sound : serializer.Sound files := by
  refine ⟨files_action.valid, fun x hx _ => ?_⟩
  cases hx with
  | self => exact files_action.fingerprinted
  | entry hk _ => cases mem_singleton.mp hk

theorem artifact_sound : serializer.Sound (artifact remaining) := by
  have hlinks : serializer.Sound (links remaining).asMut := by
    refine sound_mutable (links_action remaining).valid.asMut fun k d hk => ?_
    rw [eq_files_of_mem remaining hk]
    exact files_sound
  refine hereditary_sound.setEntry nameD hereditary_sound.empty fun d hd => ?_
  cases hd
  exact hlinks

theorem artifact_inside (c : List FileName) (target : Text)
    (h : (artifact remaining).tree c = some (.leaf (.symlink target))) : Inside c target := by
  exfalso
  refine forall_leaf (d := artifact remaining)
    (P := fun l => ∀ target, l ≠ .symlink target) (by simp [artifact]) (fun k d hk => ?_)
    c _ h target rfl
  cases mem_singleton.mp hk
  refine forall_leaf (fun k l hk target hl => ?_) fun k d hk => ?_
  · simp [links, hl] at hk
  · rw [eq_files_of_mem remaining hk]
    refine forall_leaf (fun k l hk target hl => ?_) (by simp [files])
    simp [files, hl] at hk

end Example

end Bz.Execute
