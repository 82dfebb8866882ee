import Bz.Directory.Builder

/-!
# Directory selectors

`DirectorySelector` of `bz_directory/src/directory/directory_selector.rs`: a trie of paths that are
taken with everything below them, and the search for its entries in a directory, which also reports
the leaves that stand in the way of a path.  The unordered walk of an entry (`walk.rs`) and
`remove_prefix` (`builder.rs`) are here as well.

Principal results: `covers_select` and `touches_select`, what selecting a path changes;
`search_tree`, `search_covers` and `search_touches`, what a search finds.
-/

namespace Bz.Directory

open DirectoryBuilder List

/-- A trie of paths to take. -/
inductive DirectorySelector (K : Type) where
  | traverse (entries : List (K × DirectorySelector K))
  | take

namespace DirectorySelector

variable {K L H : Type} [DecidableEq K]

def empty : DirectorySelector K := traverse []

def isEmpty : DirectorySelector K → Bool
  | traverse entries => entries.isEmpty
  | take => false

/-- `DirectorySelector::select_inner`. -/
def select : DirectorySelector K → List K → DirectorySelector K
  | _, [] => take
  | take, _ :: _ => take
  | traverse s, k :: path => traverse (insertEntry s k (select ((s.lookup k).getD empty) path))

/-! ## What a selector selects -/

/-- The path is taken. -/
def Covers : DirectorySelector K → List K → Prop
  | take, _ => True
  | traverse _, [] => False
  | traverse s, k :: p => ∃ t, s.lookup k = some t ∧ t.Covers p

/-- The path is taken or leads to one that is. -/
def Touches : DirectorySelector K → List K → Prop
  | take, _ => True
  | traverse _, [] => True
  | traverse s, k :: p => ∃ t, s.lookup k = some t ∧ t.Touches p

variable {s : DirectorySelector K} {k : K} {p q : List K}

@[simp] theorem covers_take : (take : DirectorySelector K).Covers p := by
  unfold Covers
  trivial

@[simp] theorem not_covers_empty : ¬ (empty : DirectorySelector K).Covers p := by
  cases p with
  | nil => exact id
  | cons k p => rintro ⟨t, ht, -⟩; cases ht

@[simp] theorem touches_nil (s : DirectorySelector K) : s.Touches [] := by
  cases s <;> (unfold Touches; trivial)

@[simp] theorem touches_take : (take : DirectorySelector K).Touches p := by
  unfold Touches
  trivial

theorem touches_empty : (empty : DirectorySelector K).Touches p ↔ p = [] := by
  unfold empty Touches
  cases p with
  | nil | cons k p => simp

theorem Covers.append (h : s.Covers p) (q : List K) : s.Covers (p ++ q) := by
  fun_induction Covers s p with
  | case1 p => exact covers_take
  | case2 entries => exact h.elim
  | case3 entries k p ih =>
    obtain ⟨t, ht, hp⟩ := h
    exact ⟨t, ht, ih t hp⟩

/-- What is above a path that is taken, and the path itself, is touched. -/
theorem Covers.touches (h : s.Covers (p ++ q)) : s.Touches p := by
  induction p generalizing s with
  | nil => exact touches_nil s
  | cons k p ih =>
    cases s with
    | take => exact touches_take
    | traverse entries =>
      obtain ⟨t, ht, hp⟩ := h
      exact ⟨t, ht, ih hp⟩

/-- **Selecting a path** takes what is at and below it. -/
theorem covers_select : (s.select p).Covers q ↔ s.Covers q ∨ p <+: q := by
  induction p generalizing s q with
  | nil => simp [select]
  | cons k p ih =>
    cases s with
    | take => simp [select]
    | traverse entries =>
      rw [select]
      cases q with
      | nil => simp [Covers]
      | cons l q =>
        simp only [Covers, lookup_insertEntry, cons_prefix_cons]
        by_cases hl : l = k
        · subst hl
          cases hlookup : entries.lookup l with
          | none | some t => simp [ih]
        · simp [hl, Ne.symm hl]

/-- **Selecting a path** touches what is above it as well. -/
theorem touches_select : (s.select p).Touches q ↔ s.Touches q ∨ p <+: q ∨ q <+: p := by
  induction p generalizing s q with
  | nil => simp [select]
  | cons k p ih =>
    cases s with
    | take => simp [select]
    | traverse entries =>
      rw [select]
      cases q with
      | nil => simp
      | cons l q =>
        simp only [Touches, lookup_insertEntry, cons_prefix_cons]
        by_cases hl : l = k
        · subst hl
          cases hlookup : entries.lookup l with
          | none =>
            simp only [if_true, Option.some.injEq, Option.getD_none, exists_eq_left', ih,
              touches_empty, reduceCtorEq, false_and, exists_false, true_and, false_or]
            constructor
            · rintro (rfl | h)
              · exact .inr nil_prefix
              · exact h
            · exact .inr
          | some t => simp [ih]
        · simp [hl, Ne.symm hl]

omit [DecidableEq K] in
theorem eq_empty_of_isEmpty (h : s.isEmpty = true) : s = empty := by
  cases s with
  | take => cases h
  | traverse entries =>
    cases entries with
    | nil => rfl
    | cons e entries => cases h

/-! ## Searching -/

mutual

/-- The search of a stack frame: the entries that are taken, and the leaves that cannot be
traversed, with their paths. -/
def searchDir : List (K × DirectorySelector K) → DirectoryBuilder K L H →
    List (List K × Except L (BuilderEntry K L H))
  | s, .node _ entries => searchEntries s entries

def searchEntries : List (K × DirectorySelector K) → List (K × BuilderEntry K L H) →
    List (List K × Except L (BuilderEntry K L H))
  | _, [] => []
  | s, (k, .dir d) :: entries => (match s.lookup k with
      | none => []
      | some take => [([k], .ok (.dir d))]
      | some (traverse t) => (searchDir t d).map fun r => (k :: r.1,
        r.2)) ++ searchEntries s entries
  | s, (k, .leaf l) :: entries => (match s.lookup k with
      | none => []
      | some take => [([k], .ok (.leaf l))]
      | some (traverse _) => [([k], .error l)]) ++ searchEntries s entries

end

def unorderedSearch : DirectorySelector K → DirectoryBuilder K L H →
    List (List K × Except L (BuilderEntry K L H))
  | take, d => [([], .ok (.dir d))]
  | traverse s, d => searchDir s d

/-- What a search finds as an entry. -/
def found : Except L (BuilderEntry K L H) → BuilderEntry K L H
  | .ok e => e
  | .error l => .leaf l

variable {c : List K} {x : Except L (BuilderEntry K L H)}

theorem searchEntries_eq (s : List (K × DirectorySelector K))
    (entries : List (K × BuilderEntry K L H)) :
    searchEntries s entries = entries.flatMap fun e => match s.lookup e.1, e.2 with
      | none, _ => []
      | some take, e' => [([e.1], .ok e')]
      | some (traverse t), .dir d => (searchDir t d).map fun r => (e.1 :: r.1, r.2)
      | some (traverse _), .leaf l => [([e.1], .error l)] := by
  induction entries with
  | nil => rfl
  | cons e entries ih =>
    obtain ⟨k, d | l⟩ := e
    all_goals
      rw [searchEntries, ih, flatMap_cons]
      cases s.lookup k with
      | none => rfl
      | some t => cases t <;> rfl

theorem mem_searchEntries {s : List (K × DirectorySelector K)}
    {entries : List (K × BuilderEntry K L H)} :
    (c, x) ∈ searchEntries s entries ↔ ∃ k e, (k, e) ∈ entries ∧
      ((s.lookup k = some take ∧ c = [k] ∧ x = .ok e) ∨ ∃ t, s.lookup k = some (traverse t) ∧
          ((∃ l, e = .leaf l ∧ c = [k] ∧ x = .error l) ∨
            ∃ d c', e = .dir d ∧ c = k :: c' ∧ (c', x) ∈ searchDir t d)) := by
  rw [searchEntries_eq, mem_flatMap, Prod.exists]
  refine exists_congr fun k => exists_congr fun e => and_congr_right fun _ => ?_
  cases s.lookup k with
  | none => simp
  | some t =>
    cases t with
    | take => simp
    | traverse t =>
      cases e with
      | leaf l => simp
      | dir d =>
        simp only [mem_map, Prod.mk.injEq, Prod.exists]
        constructor
        · rintro ⟨c', x', h, rfl, rfl⟩
          exact .inr ⟨t, rfl, .inr ⟨d, c', rfl, rfl, h⟩⟩
        · rintro (⟨h, -⟩ | ⟨t', ht, ⟨l, h, -⟩ | ⟨d', c', hd, rfl, h⟩⟩)
          · cases h
          · cases h
          · cases ht
            cases hd
            exact ⟨c', x, h, rfl, rfl⟩

variable {d sub : DirectoryBuilder K L H} {entries : List (K × DirectorySelector K)}
  {e : BuilderEntry K L H}

theorem searchDir_tree (hd : d.Valid) {s : List (K × DirectorySelector K)}
    (h : (c, x) ∈ searchDir s d) (r : List K) : d.tree (c ++ r) = (found x).tree r := by
  induction d using DirectoryBuilder.recurse generalizing s c with
  | h d ih =>
    obtain ⟨kind, entries⟩ := d
    obtain ⟨k, e, hk, hfound⟩ := mem_searchEntries.mp h
    have hget := hd.get_iff.mpr hk
    obtain ⟨-, rfl, rfl⟩ | ⟨t, -, ⟨l, rfl, rfl, rfl⟩ | ⟨sub, c, rfl, rfl, hsub⟩⟩ := hfound
    · rw [singleton_append, tree_cons, hget]
      rfl
    · rw [singleton_append, tree_cons, hget]
      rfl
    · rw [cons_append, tree_cons, hget]
      exact ih k sub hk (hd.entry hk) hsub

/-- **What a search finds** is in the directory. -/
theorem search_tree (hd : d.Valid) (h : (c, x) ∈ s.unorderedSearch d) (r : List K) :
    d.tree (c ++ r) = (found x).tree r := by
  cases s with
  | take =>
    cases mem_singleton.mp h
    rfl
  | traverse entries => exact searchDir_tree hd h r

theorem searchDir_hereditary {R : DirectoryBuilder K L H → Prop} (hR : Hereditary R) (hd : R d)
    {s : List (K × DirectorySelector K)} (h : (c, .ok e) ∈ searchDir s d) :
    ∀ sub, e = .dir sub → R sub := by
  induction d using DirectoryBuilder.recurse generalizing s c with
  | h d ih =>
    obtain ⟨kind, entries⟩ := d
    obtain ⟨k, e', hk, hfound⟩ := mem_searchEntries.mp h
    obtain ⟨-, -, heq⟩ | ⟨t, -, ⟨l, -, -, heq⟩ | ⟨sub, c, rfl, -, hsub⟩⟩ := hfound
    · cases heq
      rintro sub rfl
      exact hR.entry hd hk
    · cases heq
    · exact ih k sub hk (hR.entry hd hk) hsub

theorem search_hereditary {R : DirectoryBuilder K L H → Prop} (hR : Hereditary R) (hd : R d)
    (h : (c, .ok (.dir sub)) ∈ s.unorderedSearch d) : R sub := by
  cases s with
  | take =>
    cases mem_singleton.mp h
    exact hd
  | traverse entries => exact searchDir_hereditary hR hd h sub rfl

theorem search_valid (hd : d.Valid) (h : (c, .ok (.dir sub)) ∈ s.unorderedSearch d) : sub.Valid :=
  search_hereditary hereditary_valid hd h

theorem mem_searchDir {s : List (K × DirectorySelector K)} :
    (c, x) ∈ searchDir s d ↔ (c, x) ∈ searchEntries s d.entries := by
  obtain ⟨kind, entries⟩ := d
  rfl

theorem mem_search_take (ht : entries.lookup k = some take) (he : d.get k = some e) :
    ([k], .ok e) ∈ (traverse entries).unorderedSearch d :=
  mem_searchDir.mpr (mem_searchEntries.mpr ⟨k, e, mem_of_lookup he, .inl ⟨ht, rfl, rfl⟩⟩)

theorem mem_search_below {t : List (K × DirectorySelector K)}
    (ht : entries.lookup k = some (traverse t)) (he : d.get k = some (.dir sub))
    (h : (c, x) ∈ (traverse t).unorderedSearch sub) :
    (k :: c, x) ∈ (traverse entries).unorderedSearch d :=
  mem_searchDir.mpr (mem_searchEntries.mpr
    ⟨k, .dir sub, mem_of_lookup he, .inr ⟨t, ht, .inr ⟨sub, c, rfl, rfl, h⟩⟩⟩)

/-- **A search finds what is covered.** -/
theorem search_covers (h : s.Covers q) (hq : d.tree q ≠ none) :
    ∃ c e, c <+: q ∧ (c, .ok e) ∈ s.unorderedSearch d := by
  fun_induction Covers s q generalizing d with
  | case1 q => exact ⟨[], .dir d, nil_prefix, mem_singleton.mpr rfl⟩
  | case2 entries => exact h.elim
  | case3 entries k q ih =>
    obtain ⟨t, ht, hcovers⟩ := h
    obtain ⟨e, he, hq⟩ := get_of_tree_ne_none hq
    cases t with
    | take => exact ⟨[k], e, ⟨q, rfl⟩, mem_search_take ht he⟩
    | traverse t =>
      cases e with
      | leaf l =>
        cases q with
        | nil => exact absurd hcovers (by unfold Covers; exact id)
        | cons k' q => simp [DirectoryEntry.tree] at hq
      | dir sub =>
        obtain ⟨c, e, hc, hmem⟩ := ih _ hcovers hq
        exact ⟨k :: c, e, cons_prefix_cons.mpr ⟨rfl, hc⟩, mem_search_below ht he hmem⟩

/-- **A search finds the leaves that are touched**: in something that is taken, or in the way. -/
theorem search_touches {l : L} (h : s.Touches q) (hq : d.tree q = some (.leaf l)) :
    (∃ c e, c <+: q ∧ (c, .ok e) ∈ s.unorderedSearch d) ∨ (q, .error l) ∈ s.unorderedSearch d := by
  induction q generalizing s d with
  | nil => rw [tree_nil] at hq; cases hq
  | cons k q ih =>
    cases s with
    | take => exact .inl ⟨[], .dir d, nil_prefix, mem_singleton.mpr rfl⟩
    | traverse entries =>
      obtain ⟨t, ht, htouches⟩ := h
      rw [tree_cons] at hq
      obtain ⟨e, he, hq⟩ := Option.bind_eq_some_iff.mp hq
      cases t with
      | take => exact .inl ⟨[k], e, ⟨q, rfl⟩, mem_search_take ht he⟩
      | traverse t =>
        cases e with
        | leaf l' =>
          obtain ⟨rfl, hq⟩ := DirectoryEntry.eq_of_tree_leaf hq
          cases hq
          exact .inr (mem_searchDir.mpr (mem_searchEntries.mpr ⟨k, .leaf l, mem_of_lookup he,
            .inr ⟨t, ht, .inl ⟨l, rfl, rfl, rfl⟩⟩⟩))
        | dir sub =>
          obtain ⟨c, e, hc, hmem⟩ | hmem := ih htouches hq
          · exact .inl ⟨k :: c, e, cons_prefix_cons.mpr ⟨rfl, hc⟩, mem_search_below ht he hmem⟩
          · exact .inr (mem_search_below ht he hmem)

end DirectorySelector

/-! ## Walking -/

namespace DirectoryBuilder

variable {K L H : Type}

mutual

/-- The leaves of `unordered_walk`, with their paths. -/
def unorderedWalkLeaves : DirectoryBuilder K L H → List (List K × L)
  | node _ entries => unorderedWalkEntries entries

def unorderedWalkEntries : List (K × BuilderEntry K L H) → List (List K × L)
  | [] => []
  | (k, .dir d) :: entries =>
    (unorderedWalkLeaves d).map (fun x => (k :: x.1, x.2)) ++ unorderedWalkEntries entries
  | (k, .leaf l) :: entries => ([k], l) :: unorderedWalkEntries entries

end

end DirectoryBuilder

/-- The leaves of `unordered_entry_walk`. -/
def DirectoryEntry.unorderedWalkLeaves {K L H : Type} : BuilderEntry K L H → List (List K × L)
  | .dir d => d.unorderedWalkLeaves
  | .leaf l => [([], l)]

namespace DirectoryBuilder

variable {K L H : Type} {d : DirectoryBuilder K L H} {path : List K}
  {l : L} {d' : DirectoryBuilder K L H} {p : List K}

theorem unorderedWalkEntries_eq (entries : List (K × BuilderEntry K L H)) :
    unorderedWalkEntries entries =
      entries.flatMap fun e => e.2.unorderedWalkLeaves.map fun x => (e.1 :: x.1, x.2) := by
  induction entries with
  | nil => rfl
  | cons e entries ih =>
    obtain ⟨k, d | l'⟩ := e
    all_goals
      rw [unorderedWalkEntries, ih]
      rfl

theorem mem_unorderedWalkEntries {entries : List (K × BuilderEntry K L H)} :
    (p, l) ∈ unorderedWalkEntries entries ↔
      ∃ k e q, (k, e) ∈ entries ∧ p = k :: q ∧ (q, l) ∈ e.unorderedWalkLeaves := by
  rw [unorderedWalkEntries_eq, mem_flatMap]
  constructor
  · rintro ⟨⟨k, e⟩, hk, h⟩
    obtain ⟨x, hx, heq⟩ := mem_map.mp h
    cases heq
    exact ⟨k, e, x.1, hk, rfl, hx⟩
  · rintro ⟨k, e, q, hk, rfl, hq⟩
    exact ⟨(k, e), hk, mem_map.mpr ⟨(q, l), hq, rfl⟩⟩

variable [DecidableEq K]

theorem mem_unorderedWalkLeaves (hd : d.Valid) :
    (p, l) ∈ d.unorderedWalkLeaves ↔ d.tree p = some (.leaf l) := by
  induction d using recurse generalizing p with
  | h d ih =>
    obtain ⟨kind, entries⟩ := d
    rw [unorderedWalkLeaves, mem_unorderedWalkEntries]
    cases p with
    | nil => simp
    | cons k p =>
      rw [tree_cons, Option.bind_eq_some_iff]
      constructor
      · rintro ⟨k', e, q, hk, heq, hq⟩
        cases heq
        refine ⟨e, hd.get_iff.mpr hk, ?_⟩
        cases e with
        | dir sub => exact (ih k sub hk (hd.entry hk)).mp hq
        | leaf l' =>
          cases mem_singleton.mp hq
          rfl
      · rintro ⟨e, he, hp⟩
        have hk := hd.get_iff.mp he
        refine ⟨k, e, p, hk, rfl, ?_⟩
        cases e with
        | dir sub => exact (ih k sub hk (hd.entry hk)).mpr hp
        | leaf l' =>
          obtain ⟨rfl, hp⟩ := DirectoryEntry.eq_of_tree_leaf hp
          cases hp
          exact mem_singleton.mpr rfl

/-! ## Removing -/

/-- `DirectoryBuilder::do_remove_prefix`: what is left. -/
def doRemovePrefix : DirectoryBuilder K L H → List K → DirectoryBuilder K L H
  | _, [] => empty
  | d, [last] => node .mutable (d.entries.filter fun e => e.1 ≠ last)
  | d, name :: rest => match d.get name with
    | some (.dir sub) => d.setEntry name (.dir (doRemovePrefix sub rest))
    | _ => d

def removePrefix (d : DirectoryBuilder K L H) (path : List K) :
    Except (List K) (DirectoryBuilder K L H) :=
  match d.find path with
  | .error e => .error e
  | .ok none => .ok d
  | .ok (some _) => .ok (doRemovePrefix d path)

theorem lookup_filter_ne (entries : List (K × BuilderEntry K L H)) (k l : K) :
    (entries.filter fun e => e.1 ≠ k).lookup l = if l = k then none else entries.lookup l := by
  induction entries with
  | nil => simp
  | cons e entries ih =>
    obtain ⟨k', e⟩ := e
    rw [filter_cons]
    by_cases hk : k' = k
    · subst hk
      simp only [ne_eq, not_true_eq_false, decide_false, Bool.false_eq_true, if_false]
      rw [ih, lookup_cons_ite]
      split <;> rfl
    · simp only [ne_eq, hk, not_false_eq_true, decide_true, if_true]
      rw [lookup_cons_ite, ih, lookup_cons_ite]
      by_cases hl : l = k'
      · rw [if_pos hl, if_neg (by rw [hl]; exact hk), if_pos hl]
      · rw [if_neg hl, if_neg hl]

theorem tree_doRemovePrefix (hne : path ≠ []) (h : d.tree path ≠ none) (q : List K) :
    (doRemovePrefix d path).tree q = if path <+: q then none else d.tree q := by
  fun_induction doRemovePrefix d path generalizing q with
  | case1 => exact absurd rfl hne
  | case2 d name =>
    cases q with
    | nil => simp
    | cons k q =>
      rw [tree_cons, tree_cons]
      show ((d.entries.filter fun e => e.1 ≠ name).lookup k).bind _ = _
      rw [lookup_filter_ne]
      by_cases hk : k = name
      · simp [hk]
      · simp [hk, Ne.symm hk, get]
  | case3 d name rest hrest sub he ih =>
    have hsub : sub.tree rest ≠ none := fun hnone =>
      h ((congrFun (below_of_get he) rest).trans hnone)
    cases q with
    | nil => simp
    | cons k q =>
      simp only [tree_setEntry, cons_prefix_cons]
      by_cases hk : k = name
      · subst hk
        simp [DirectoryEntry.tree, ih hrest hsub, tree_cons d, he]
      · rw [if_neg hk, if_neg (fun h => hk h.1.symm)]
  | case4 d name rest hrest hget =>
    obtain ⟨e, he, h⟩ := get_of_tree_ne_none h
    cases e with
    | dir sub => exact absurd he (hget sub)
    | leaf l => exact absurd (if_neg hrest) h

/-- **What removing leaves.** -/
theorem removePrefix_ok (hne : path ≠ []) (h : d.removePrefix path = .ok d') (q : List K) :
    d'.tree q = if path <+: q then none else d.tree q := by
  unfold removePrefix at h
  split at h
  · cases h
  · next hfind =>
    cases h
    split
    · next hpre =>
      obtain ⟨r, rfl⟩ := hpre
      exact find_ok hfind r
    · rfl
  · next e hfind =>
    cases h
    refine tree_doRemovePrefix hne ?_ q
    have := find_ok hfind []
    rw [append_nil] at this
    rw [this]
    cases e <;> simp [DirectoryEntry.tree]

theorem Hereditary.doRemovePrefix {R : DirectoryBuilder K L H → Prop} (hR : Hereditary R) (hd : R d)
    (path : List K) : R (d.doRemovePrefix path) := by
  fun_induction DirectoryBuilder.doRemovePrefix d path with
  | case1 d => exact hR.empty
  | case2 d last => exact hR.filter _ hd
  | case3 d name rest hrest sub hsub ih =>
    refine hR.setEntry name hd fun d' heq => ?_
    cases heq
    exact ih (hR.entry hd (mem_of_lookup hsub))
  | case4 d name rest hrest hget => exact hd

theorem Hereditary.removePrefix {R : DirectoryBuilder K L H → Prop} (hR : Hereditary R) (hd : R d)
    (h : d.removePrefix path = .ok d') : R d' := by
  unfold DirectoryBuilder.removePrefix at h
  split at h
  · cases h
  · cases h
    exact hd
  · cases h
    exact hR.doRemovePrefix hd path

end DirectoryBuilder

end Bz.Directory
