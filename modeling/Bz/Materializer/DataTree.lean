import Mathlib.Data.List.Infix

/-!
# Trees keyed by sequences

`DataTree` of `bz_execute_impl/src/materializers/deferred/data_tree.rs`: a map whose keys are
sequences, of which none is a prefix of another.  A value is found under its key and under every
extension of it.

Principal results: `prefixGet_eq_some`, `get_insert`, `get_remove`, `get_update`; `prefix_free_map`.
-/

namespace Bz.Materializer

open List

/-- `DataTree`; the map of the children as a list, in which the first entry counts. -/
inductive DataTree (K V : Type) where
  | tree (children : List (K × DataTree K V))
  | data (value : V)

namespace DataTree

variable {K V : Type} [DecidableEq K] {k : K}

section Children

variable {A : Type} {children : List (K × A)}

def child : List (K × A) → K → Option A
  | [], _ => none
  | (k', a) :: children, k => if k = k' then some a else child children k

def setChild (children : List (K × A)) (k : K) (a : A) : List (K × A) :=
  (k, a) :: children.filter (·.1 ≠ k)

def removeChild (children : List (K × A)) (k : K) : List (K × A) := children.filter (·.1 ≠ k)

theorem child_removeChild (k k' : K) :
    child (removeChild children k) k' = if k' = k then none else child children k' := by
  induction children with
  | nil => simp [removeChild, child]
  | cons entry children ih =>
    rw [removeChild] at ih ⊢
    by_cases hentry : entry.1 = k
    · rw [filter_cons_of_neg (by simpa using hentry), ih, child, hentry]
      split <;> rfl
    · rw [filter_cons_of_pos (by simpa using hentry), child, child, ih]
      by_cases hk : k' = entry.1
      · rw [if_pos hk, if_pos hk, if_neg fun h => hentry (hk ▸ h)]
      · rw [if_neg hk, if_neg hk]

theorem child_setChild (k : K) (a : A) (k' : K) :
    child (setChild children k a) k' = if k' = k then some a else child children k' := by
  rw [setChild, child, ← removeChild, child_removeChild]
  split <;> rfl

theorem nodup_setChild (h : (children.map Prod.fst).Nodup) (k : K) (a : A) :
    ((setChild children k a).map Prod.fst).Nodup := by
  rw [setChild, map_cons, nodup_cons]
  constructor
  · simp
  · exact h.sublist (filter_sublist.map Prod.fst)

theorem child_eq_some_iff (h : (children.map Prod.fst).Nodup) {a : A} :
    child children k = some a ↔ (k, a) ∈ children := by
  induction children with
  | nil => simp [child]
  | cons entry children ih =>
    obtain ⟨k', a'⟩ := entry
    rw [map_cons, nodup_cons] at h
    rw [child, mem_cons]
    by_cases hk : k = k'
    · subst hk
      rw [if_pos rfl]
      constructor
      · intro heq
        cases heq
        exact .inl rfl
      · rintro (heq | hmem)
        · cases heq
          rfl
        · exact absurd (mem_map_of_mem (f := Prod.fst) hmem) h.1
    · rw [if_neg hk, ih h.2]
      simp [hk]

theorem mem_of_child {a : A} (h : child children k = some a) : (k, a) ∈ children := by
  induction children with
  | nil => cases h
  | cons e children ih =>
    rw [child] at h
    split at h
    · next heq =>
      cases h
      rw [heq]
      exact mem_cons_self
    · exact mem_cons_of_mem _ (ih h)

end Children

/-! ## Operations -/

def new : DataTree K V := .tree []

/-- `prefix_get`: the value at the key or at one of its prefixes, with the prefix. -/
def prefixGet : List K → DataTree K V → Option (List K × V)
  | _, .data v => some ([], v)
  | [], .tree _ => none
  | k :: ks, .tree children => match child children k with
    | none => none
    | some t => (prefixGet ks t).map fun (found, v) => (k :: found, v)

/-- Change what `prefix_get_mut` returns. -/
def update (f : V → V) : List K → DataTree K V → DataTree K V
  | _, .data v => .data (f v)
  | [], .tree children => .tree children
  | k :: ks, .tree children => match child children k with
    | none => .tree children
    | some t => .tree (setChild children k (update f ks t))

def insert (v : V) : List K → DataTree K V → DataTree K V
  | [], _ => .data v
  | k :: ks, .data _ => .tree (setChild [] k (insert v ks new))
  | k :: ks, .tree children =>
    .tree (setChild children k (insert v ks ((child children k).getD new)))

/-- A node that `remove` drops from its parent. -/
def isVacant : DataTree K V → Bool
  | .tree children => children.isEmpty
  | .data _ => true

/-- The subtree that is removed, and what is left. -/
def remove : List K → DataTree K V → Option (DataTree K V) × DataTree K V
  | _, .data v => (some (.data v), new)
  | [], .tree children => (some (.tree children), new)
  | k :: ks, .tree children => match child children k with
    | none => (none, .tree children)
    | some t =>
      ((remove ks t).1, .tree (if (remove ks t).2.isVacant then removeChild children k
        else setChild children k (remove ks t).2))

mutual
/-- The values of a tree. -/
def values : DataTree K V → List V
  | .data v => [v]
  | .tree children => childValues children
def childValues : List (K × DataTree K V) → List V
  | [] => []
  | (_, t) :: children => values t ++ childValues children
end

mutual
/-- `iter_with_paths`: the values with their keys. -/
def iterWithPaths : DataTree K V → List (List K × V)
  | .data v => [([], v)]
  | .tree children => childPaths children
def childPaths : List (K × DataTree K V) → List (List K × V)
  | [] => []
  | (k, t) :: children => (iterWithPaths t).map (fun (p, v) => (k :: p, v)) ++ childPaths children
end

/-- `FileTree::remove_path`: what `remove` removes, with its keys. -/
def removePath : List K → DataTree K V → List (List K × V)
  | _, .data v => [([], v)]
  | [], .tree children => childPaths children
  | k :: ks, .tree children => match child children k with
    | none => []
    | some t => (removePath ks t).map fun (p, v) => (k :: p, v)

/-! ## What a tree answers -/

/-- The value at the key itself. -/
def get : List K → DataTree K V → Option V
  | [], .data v => some v
  | [], .tree _ => none
  | _ :: _, .data _ => none
  | k :: ks, .tree children => match child children k with
    | none => none
    | some t => get ks t

@[simp]
theorem get_new (q : List K) : get q (new : DataTree K V) = none := by
  cases q <;> rfl

@[simp]
theorem get_cons_data (k : K) (q : List K) (v : V) : get (k :: q) (.data v) = none := rfl

variable {children : List (K × DataTree K V)}

@[simp]
theorem get_nil_tree : get [] (.tree children) = none := rfl

theorem get_cons_tree (k : K) (q : List K) :
    get (k :: q) (.tree children) = (child children k).bind (get q) := by
  rw [get]
  cases child children k <;> rfl

variable {p q ks : List K} {t : DataTree K V} {v : V} {w : V}

theorem eq_of_above {a b : V} (hp : get p t = some a) (hq : get q t = some b) (h : p <+: q) :
    p = q := by
  induction p generalizing q t with
  | nil =>
    cases t with
    | tree children => cases hp
    | data v =>
      cases q with
      | nil => rfl
      | cons k q => cases hq
  | cons k p ih =>
    cases q with
    | nil => exact prefix_nil.mp h
    | cons k' q =>
      obtain ⟨rfl, hle⟩ := cons_prefix_cons.mp h
      cases t with
      | data v => cases hp
      | tree children =>
        rw [get_cons_tree] at hp hq
        obtain ⟨t, ht, hp⟩ := Option.bind_eq_some_iff.mp hp
        rw [ht] at hq
        rw [ih hp hq hle]

theorem prefixGet_eq_some : prefixGet ks t = some (p, v) ↔ p <+: ks ∧ get p t = some v := by
  fun_induction prefixGet ks t generalizing p with
  | case1 ks w =>
    cases p with
    | nil => simp [get]
    | cons k p => simp
  | case2 children => cases p <;> simp
  | case3 k ks children hchild =>
    cases p with
    | nil => simp
    | cons k' p =>
      simp only [reduceCtorEq, cons_prefix_cons, get_cons_tree, false_iff]
      rintro ⟨⟨rfl, -⟩, h⟩
      rw [hchild] at h
      cases h
  | case4 k ks children t hchild ih =>
    cases p with
    | nil => simp
    | cons k' p =>
      simp only [Option.map_eq_some_iff, Prod.mk.injEq, List.cons.injEq, cons_prefix_cons,
        get_cons_tree]
      constructor
      · rintro ⟨⟨p', v'⟩, hget, ⟨rfl, rfl⟩, rfl⟩
        obtain ⟨hle, hget⟩ := ih.mp hget
        exact ⟨⟨rfl, hle⟩, by rw [hchild]; exact hget⟩
      · rintro ⟨⟨rfl, hle⟩, h⟩
        rw [hchild] at h
        exact ⟨(p, v), ih.mpr ⟨hle, h⟩, ⟨rfl, rfl⟩, rfl⟩

theorem get_update (f : V → V) (t : DataTree K V) :
    get q (update f ks t) = if q <+: ks then (get q t).map f else get q t := by
  fun_induction update f ks t generalizing q with
  | case1 ks v => cases q <;> simp [get]
  | case2 children => cases q <;> simp
  | case3 k ks children hchild =>
    cases q with
    | nil => simp
    | cons k' q =>
      by_cases hk : k' = k
      · rw [hk, get_cons_tree, hchild]
        simp
      · simp [hk]
  | case4 k ks children t hchild ih =>
    cases q with
    | nil => simp
    | cons k' q =>
      simp only [get_cons_tree, child_setChild, cons_prefix_cons]
      by_cases hk : k' = k
      · simp [hk, hchild, ih]
      · simp [hk]

theorem get_insert (t : DataTree K V) :
    get q (insert v ks t) =
      if q = ks then some v else if q <+: ks ∨ ks <+: q then none else get q t := by
  induction ks generalizing q t with
  | nil => cases q <;> simp [insert, get]
  | cons k ks ih =>
    cases q with
    | nil => cases t <;> simp [insert]
    | cons k' q =>
      have hsplit (children : List (K × DataTree K V)) (t : DataTree K V) :
          get (k' :: q) (.tree (setChild children k (insert v ks t))) =
            if k' = k then get q (insert v ks t) else get (k' :: q) (.tree children) := by
        rw [get_cons_tree, child_setChild, get_cons_tree]
        split <;> rfl
      cases t with
      | data v' =>
        rw [insert, hsplit]
        by_cases hk : k' = k
        · simp [hk, ih]
        · have hnil : get (k' :: q) (.tree ([] : List (K × DataTree K V))) = none := rfl
          simp [hk, hnil]
      | tree children =>
        rw [insert, hsplit]
        by_cases hk : k' = k
        · rw [if_pos hk, ih, hk, get_cons_tree]
          cases child children k <;> simp
        · simp [hk, Ne.symm hk]

/-- What `remove` leaves is a tree, so a vacant one has no value. -/
theorem get_of_isVacant (h : (remove ks t).2.isVacant) : get q (remove ks t).2 = none := by
  have htree : ∃ children, (remove ks t).2 = .tree children := by
    fun_cases remove ks t <;> exact ⟨_, rfl⟩
  obtain ⟨children, hchildren⟩ := htree
  rw [hchildren, isVacant, List.isEmpty_iff] at h
  rw [hchildren, h]
  exact get_new q

theorem get_remove (t : DataTree K V) :
    get q (remove ks t).2 = if q <+: ks ∨ ks <+: q then none else get q t := by
  fun_induction remove ks t generalizing q with
  | case1 ks v => cases q <;> simp
  | case2 children => simp
  | case3 k ks children hchild =>
    cases q with
    | nil => simp
    | cons k' q =>
      by_cases hk : k' = k
      · rw [hk, get_cons_tree, hchild]
        simp
      · simp [hk, Ne.symm hk]
  | case4 k ks children t hchild ih =>
    cases q with
    | nil => simp
    | cons k' q =>
      simp only [get_cons_tree, cons_prefix_cons]
      by_cases hk : k' = k
      · subst hk
        simp only [true_and, hchild, Option.bind_some, ← ih]
        split
        · rename_i hvacant
          rw [child_removeChild, if_pos rfl, get_of_isVacant hvacant]
          rfl
        · rw [child_setChild, if_pos rfl]
          rfl
      · split <;> simp [child_removeChild, child_setChild, hk, Ne.symm hk]

omit [DecidableEq K] in
theorem childPaths_eq : childPaths children =
    children.flatMap fun e => (iterWithPaths e.2).map fun (p, v) => (e.1 :: p, v) := by
  induction children with
  | nil => rfl
  | cons e children ih => rw [childPaths, ih, flatMap_cons]

omit [DecidableEq K] in
theorem mem_childPaths : (q, v) ∈ childPaths children ↔
      ∃ k t p, (k, t) ∈ children ∧ (p, v) ∈ iterWithPaths t ∧ q = k :: p := by
  rw [childPaths_eq, mem_flatMap]
  constructor
  · rintro ⟨⟨k, t⟩, hk, h⟩
    obtain ⟨⟨p, v'⟩, hp, heq⟩ := mem_map.mp h
    cases heq
    exact ⟨k, t, p, hk, hp, rfl⟩
  · rintro ⟨k, t, p, hk, hp, rfl⟩
    exact ⟨(k, t), hk, mem_map.mpr ⟨(p, v), hp, rfl⟩⟩

theorem mem_iterWithPaths (h : get q t = some v) : (q, v) ∈ iterWithPaths t := by
  induction q generalizing t with
  | nil =>
    cases t with
    | tree children => cases h
    | data w =>
      cases h
      exact mem_singleton.mpr rfl
  | cons k q ih =>
    cases t with
    | data w => cases h
    | tree children =>
      rw [get_cons_tree] at h
      obtain ⟨t, ht, h⟩ := Option.bind_eq_some_iff.mp h
      exact mem_childPaths.mpr ⟨k, t, q, mem_of_child ht, ih h, rfl⟩

omit [DecidableEq K] in
mutual
theorem map_iterWithPaths (t : DataTree K V) : (iterWithPaths t).map Prod.snd = values t := by
  cases t with
  | data v => rfl
  | tree children => exact map_childPaths children
theorem map_childPaths (children : List (K × DataTree K V)) :
    (childPaths children).map Prod.snd = childValues children := by
  cases children with
  | nil => rfl
  | cons e children =>
    rw [childPaths, childValues, map_append, map_map, map_childPaths children,
      ← map_iterWithPaths e.2]
    rfl
end

theorem map_removePath (t : DataTree K V) :
    (removePath ks t).map Prod.snd = match (remove ks t).1 with
      | some subtree => subtree.values
      | none => [] := by
  fun_induction removePath ks t with
  | case1 ks v => simp [remove, values]
  | case2 children => exact map_childPaths children
  | case3 k ks children hchild => simp [remove, hchild]
  | case4 k ks children t hchild ih =>
    simp only [remove, hchild]
    rw [← ih, map_map]
    rfl

theorem mem_removePath (h : get q t = some v) (hover : q <+: ks ∨ ks <+: q) :
    (q, v) ∈ removePath ks t := by
  induction ks generalizing q t with
  | nil => cases t <;> exact mem_iterWithPaths h
  | cons k ks ih =>
    cases t with
    | data w => exact mem_iterWithPaths h
    | tree children =>
      cases q with
      | nil => cases h
      | cons k' q =>
        rw [cons_prefix_cons, cons_prefix_cons] at hover
        have hk : k' = k := hover.elim (·.1) (·.1.symm)
        subst hk
        rw [get_cons_tree] at h
        obtain ⟨t, ht, h⟩ := Option.bind_eq_some_iff.mp h
        rw [removePath, ht]
        exact mem_map.mpr ⟨(q, v), ih h (hover.imp (·.2) (·.2)), rfl⟩

theorem overlap_of_mem_removePath {e : List K × V} (h : e ∈ removePath ks t) :
    e.1 <+: ks ∨ ks <+: e.1 := by
  fun_induction removePath ks t generalizing e with
  | case1 ks w =>
    cases mem_singleton.mp h
    exact .inl nil_prefix
  | case2 children => exact .inr nil_prefix
  | case3 k ks children hchild => cases h
  | case4 k ks children t hchild ih =>
    obtain ⟨e', he', rfl⟩ := mem_map.mp h
    simp only [cons_prefix_cons, true_and]
    exact ih he'

/-! ## Each name once -/

mutual
/-- Below every node each name is there once, as in a map. -/
def WF : DataTree K V → Prop
  | .data _ => True
  | .tree children => (children.map Prod.fst).Nodup ∧ ChildrenWF children
def ChildrenWF : List (K × DataTree K V) → Prop
  | [] => True
  | (_, t) :: children => WF t ∧ ChildrenWF children
end

omit [DecidableEq K] in
theorem childrenWF_iff : ChildrenWF children ↔ ∀ e ∈ children, WF e.2 := by
  induction children with
  | nil => simp [ChildrenWF]
  | cons e children ih => simp [ChildrenWF, ih]

omit [DecidableEq K] in
theorem WF.new : WF (new : DataTree K V) := ⟨nodup_nil, trivial⟩

theorem WF.of_child (h : WF (.tree children)) (hchild : child children k = some t) : WF t :=
  childrenWF_iff.mp h.2 _ (mem_of_child hchild)

theorem WF.removeChild (h : WF (.tree children)) (k : K) : WF (.tree (removeChild children k)) := by
  refine ⟨h.1.sublist (filter_sublist.map Prod.fst), ?_⟩
  exact childrenWF_iff.mpr fun e he => childrenWF_iff.mp h.2 e (mem_of_mem_filter he)

theorem WF.setChild (h : WF (.tree children)) (k : K) (ht : WF t) :
    WF (.tree (setChild children k t)) :=
  ⟨nodup_setChild h.1 k t, ht, (h.removeChild k).2⟩

theorem WF.update (h : WF t) (f : V → V) (ks : List K) : WF (update f ks t) := by
  fun_induction DataTree.update f ks t with
  | case1 ks v => trivial
  | case2 children | case3 k ks children hchild => exact h
  | case4 k ks children t hchild ih => exact h.setChild k (ih (h.of_child hchild))

theorem WF.insert (h : WF t) (v : V) (ks : List K) : WF (insert v ks t) := by
  induction ks generalizing t with
  | nil => trivial
  | cons k ks ih =>
    cases t with
    | data v => exact WF.new.setChild k (ih .new)
    | tree children =>
      refine h.setChild k (ih ?_)
      cases hchild : child children k with
      | none => exact .new
      | some t => exact h.of_child hchild

theorem WF.remove (h : WF t) (ks : List K) : WF (remove ks t).2 := by
  fun_induction DataTree.remove ks t with
  | case1 ks v | case2 children => exact .new
  | case3 k ks children hchild => exact h
  | case4 k ks children t hchild ih =>
    split
    · exact h.removeChild k
    · exact h.setChild k (ih (h.of_child hchild))

theorem get_of_mem_iterWithPaths (h : WF t) (hmem : (q, v) ∈ iterWithPaths t) :
    get q t = some v := by
  induction q generalizing t with
  | nil =>
    cases t with
    | data w =>
      cases mem_singleton.mp hmem
      rfl
    | tree children =>
      obtain ⟨k, t, p, -, -, heq⟩ := mem_childPaths.mp hmem
      cases heq
  | cons k q ih =>
    cases t with
    | data w => cases mem_singleton.mp hmem
    | tree children =>
      obtain ⟨k', t, p, ht, hp, heq⟩ := mem_childPaths.mp hmem
      cases heq
      have hchild := (child_eq_some_iff h.1).mpr ht
      rw [get_cons_tree, hchild]
      exact ih (h.of_child hchild) hp

theorem get_of_mem_removePath (h : WF t) (hmem : (q, v) ∈ removePath ks t) : get q t = some v := by
  fun_induction removePath ks t generalizing q with
  | case1 ks w | case2 children => exact get_of_mem_iterWithPaths h hmem
  | case3 k ks children hchild => cases hmem
  | case4 k ks children t hchild ih =>
    obtain ⟨⟨q', v'⟩, hq', heq⟩ := mem_map.mp hmem
    cases heq
    rw [get_cons_tree, hchild]
    exact ih (h.of_child hchild) hq'

theorem get_of_get_insert (h : get q (insert v ks t) = some w) :
    q = ks ∧ w = v ∨ get q t = some w := by
  rw [get_insert] at h
  split at h
  · next heq => exact .inl ⟨heq, (Option.some.inj h).symm⟩
  · split at h
    · cases h
    · exact .inr h

theorem get_insert_self (t : DataTree K V) : get ks (insert v ks t) = some v := by
  rw [get_insert, if_pos rfl]

theorem get_of_get_remove (h : get q (remove ks t).2 = some w) : get q t = some w := by
  rw [get_remove] at h
  split at h
  · cases h
  · exact h

theorem get_update_key (h : get p t = some v) (f : V → V) (q : List K) :
    get q (update f p t) = if q = p then some (f v) else get q t := by
  rw [get_update]
  by_cases hq : q = p
  · rw [if_pos hq, hq, if_pos prefix_rfl, h]
    rfl
  · split
    · rename_i hle
      cases hget : get q t with
      | none => rfl
      | some w => exact absurd (eq_of_above hget h hle) hq
    · rfl

theorem get_of_get_update {f : V → V} (hp : get p t = some v)
    (h : get q (update f p t) = some w) : q = p ∧ w = f v ∨ get q t = some w := by
  rw [get_update_key hp] at h
  split at h
  · next heq => exact .inl ⟨heq, (Option.some.inj h).symm⟩
  · exact .inr h

/-! ## Inserting several values -/

section Inserted

variable {A : Type} {key : A → List K} {value : A → V} {items : List A}

theorem get_foldl_insert_apart (h : ∀ a ∈ items, ¬ (q <+: key a ∨ key a <+: q)) (t : DataTree K V) :
    get q (items.foldl (fun t a => t.insert (value a) (key a)) t) = get q t := by
  induction items generalizing t with
  | nil => rfl
  | cons a items ih =>
    have ha := h a mem_cons_self
    rw [foldl_cons, ih fun b hb => h b (mem_cons_of_mem _ hb), get_insert,
      if_neg fun heq => ha (.inl (by rw [heq])), if_neg ha]

/-- Of values with keys that do not overlap, none gets lost. -/
theorem exists_get_foldl_insert
    (h : ∀ a ∈ items, ∀ b ∈ items, key a <+: key b ∨ key b <+: key a → key a = key b) {a : A}
    (ha : a ∈ items) (t : DataTree K V) : ∃ b ∈ items, key b = key a ∧
      get (key a) (items.foldl (fun t a => t.insert (value a) (key a)) t) = some (value b) := by
  induction items using List.reverseRecOn with
  | nil => cases ha
  | append_singleton items b ih =>
    rw [foldl_append, foldl_cons, foldl_nil]
    by_cases hkey : key a = key b
    · refine ⟨b, by simp, hkey.symm, ?_⟩
      rw [hkey, get_insert_self]
    · have ha : a ∈ items := by
        rcases mem_append.mp ha with ha | ha
        · exact ha
        · exact absurd (congrArg key (mem_singleton.mp ha)) hkey
      obtain ⟨c, hc, hck, hget⟩ := ih (fun x hx y hy =>
        h x (mem_append_left _ hx) y (mem_append_left _ hy)) ha
      refine ⟨c, mem_append_left _ hc, hck, ?_⟩
      rw [get_insert, if_neg hkey, if_neg, hget]
      exact fun hover => hkey (h a (mem_append_left _ ha) b (by simp) hover)

/-- What holds of every value before, and of those inserted, holds of every value afterwards. -/
theorem forall_get_foldl_insert {P : V → Prop} (hitems : ∀ a ∈ items, P (value a))
    (ht : ∀ q v, get q t = some v → P v) (q : List K) (v : V)
    (h : get q (items.foldl (fun t a => t.insert (value a) (key a)) t) = some v) : P v := by
  induction items generalizing t with
  | nil => exact ht q v h
  | cons a items ih =>
    refine ih (fun b hb => hitems b (mem_cons_of_mem _ hb)) (fun q' v' h' => ?_) h
    obtain ⟨-, rfl⟩ | hold := get_of_get_insert h'
    · exact hitems a mem_cons_self
    · exact ht q' v' hold

theorem WF.foldl_insert (h : WF t) :
    WF (items.foldl (fun t a => t.insert (value a) (key a)) t) := by
  induction items generalizing t with
  | nil => exact h
  | cons a items ih => exact ih (h.insert _ _)

end Inserted

/-! ## What is left of a key -/

/-- `prefix_get` on an iterator: the value, and what is left of the iterator. -/
def prefixGetRest : List K → DataTree K V → Option (V × List K)
  | ks, .data v => some (v, ks)
  | [], .tree _ => none
  | k :: ks, .tree children => (child children k).bind (prefixGetRest ks)

theorem prefixGetRest_eq (t : DataTree K V) :
    prefixGetRest ks t = (prefixGet ks t).map fun (p, v) => (v, ks.drop p.length) := by
  fun_induction prefixGet ks t with
  | case1 ks v => simp [prefixGetRest]
  | case2 children => rfl
  | case3 k ks children hchild => simp [prefixGetRest, hchild]
  | case4 k ks children t hchild ih => simp [prefixGetRest, hchild, ih, Function.comp_def]

/-- What `remove` leaves of the iterator. -/
def removeRest : List K → DataTree K V → List K
  | ks, .data _ => ks
  | [], .tree _ => []
  | k :: ks, .tree children => match child children k with
    | none => ks
    | some t => removeRest ks t

/-- The path without as many elements; the root has no parent, which is a panic. -/
def rewind (path : List K) : List K → Option (List K)
  | [] => some path
  | _ :: rest => if path = [] then none else rewind path.dropLast rest

/-- `FileTree::remove_path` as the source has it. -/
def removePathRewound (path : List K) (t : DataTree K V) : Option (List (List K × V)) :=
  (rewind path (removeRest path t)).map fun found => match (remove path t).1 with
    | some subtree => subtree.iterWithPaths.map fun (p, v) => (found ++ p, v)
    | none => []

omit [DecidableEq K] in
theorem rewind_append (rest : List K) : rewind (p ++ rest) rest = some p := by
  suffices h : ∀ rest' : List K, rest'.length = rest.length → rewind (p ++ rest) rest' = some p from
    h rest rfl
  induction rest using List.reverseRecOn with
  | nil =>
    intro rest' h
    rw [length_eq_zero_iff.mp h, append_nil, rewind]
  | append_singleton rest k ih =>
    intro rest' h
    cases rest' with
    | nil => simp at h
    | cons k' rest' =>
      rw [rewind, if_neg (by simp), ← append_assoc, dropLast_concat]
      exact ih rest' (by simpa using h)

theorem removePathRewound_eq (path : List K) (t : DataTree K V) :
    removePathRewound path t = some (removePath path t) := by
  suffices h : ∃ found, path = found ++ removeRest path t ∧ removePath path t =
      match (remove path t).1 with
      | some subtree => subtree.iterWithPaths.map fun (p, v) => (found ++ p, v)
      | none => [] by
    obtain ⟨found, hpath, hremove⟩ := h
    have hrewind : rewind path (removeRest path t) = some found :=
      (congrArg (rewind · _) hpath).trans (rewind_append _)
    rw [removePathRewound, hrewind, hremove, Option.map_some]
  fun_induction removePath path t with
  | case1 path v => exact ⟨[], by simp [removeRest], by simp [remove, iterWithPaths]⟩
  | case2 children => exact ⟨[], rfl, by simp [remove, iterWithPaths]⟩
  | case3 k path children hchild => exact ⟨[k], by simp [removeRest, hchild], by simp [remove,
    hchild]⟩
  | case4 k path children t hchild ih =>
    obtain ⟨found, hpath, hremove⟩ := ih
    simp only [removeRest, remove, hchild]
    refine ⟨k :: found, congrArg (k :: ·) hpath, ?_⟩
    rw [hremove]
    cases (remove path t).1 <;> simp

/-! ## Whole runs -/

/-- No tree at or below the node is empty. -/
inductive Full : DataTree K V → Prop where
  | data (v : V) : Full (.data v)
  | tree {children : List (K × DataTree K V)} (hne : children ≠ []) (h : ∀ e ∈ children, Full e.2) :
      Full (.tree children)

/-- No tree below the root is empty. -/
def Pruned : DataTree K V → Prop
  | .data _ => True
  | .tree children => ∀ e ∈ children, Full e.2

omit [DecidableEq K] in
theorem Pruned.new : Pruned (new : DataTree K V) := forall_mem_nil _

omit [DecidableEq K] in
theorem Full.pruned (h : Full t) : Pruned t := by
  cases h with
  | data v => trivial
  | tree hne h => exact h

theorem Full.setChild (h : ∀ e ∈ children, Full e.2) (k : K) (ht : Full t) :
    Full (.tree (setChild children k t)) :=
  .tree (cons_ne_nil _ _) (forall_mem_cons.mpr ⟨ht, fun e he => h e (mem_of_mem_filter he)⟩)

theorem Pruned.insert (h : Pruned t) (v : V) (ks : List K) : Full (insert v ks t) := by
  induction ks generalizing t with
  | nil => exact .data v
  | cons k ks ih =>
    cases t with
    | data w => exact .setChild Pruned.new k (ih .new)
    | tree children =>
      refine .setChild h k (ih ?_)
      cases hchild : child children k with
      | none => exact .new
      | some t => exact (h _ (mem_of_child hchild)).pruned

theorem Pruned.remove (h : Pruned t) (ks : List K) : Pruned (remove ks t).2 := by
  fun_induction DataTree.remove ks t with
  | case1 ks v | case2 children => exact .new
  | case3 k ks children hchild => exact h
  | case4 k ks children t hchild ih =>
    split
    · exact fun e he => h e (mem_of_mem_filter he)
    · next hvacant =>
      refine (Full.setChild h k ?_).pruned
      have hpruned := ih (h _ (mem_of_child hchild)).pruned
      cases hleft : (DataTree.remove ks t).2 with
      | data v => exact .data v
      | tree children =>
        rw [hleft] at hvacant hpruned
        exact .tree (by simpa [isVacant] using hvacant) hpruned

/-- A change of a tree. -/
inductive Op (K V : Type) where
  | insert (key : List K) (value : V)
  | remove (key : List K)

def step (t : DataTree K V) : Op K V → DataTree K V
  | .insert key value => t.insert value key
  | .remove key => (t.remove key).2

/-- **A map with prefix-free keys**: after any operations the keys are incomparable and no node is
left over; insertions and removals take exactly the comparable keys out, which are reported. -/
theorem prefix_free_map (ops : List (Op K V)) (key : List K) (value : V) :
    let t := ops.foldl step (new : DataTree K V)
    Pruned t ∧ (∀ p q v w, get p t = some v → get q t = some w → p <+: q → p = q) ∧
    (∀ q, get q (t.insert value key) = if q = key then some value else
      if q <+: key ∨ key <+: q then none else get q t) ∧
    (∀ q, get q (t.remove key).2 = if q <+: key ∨ key <+: q then none else get q t) ∧
    (∃ removed, t.removePathRewound key = some removed ∧
      ∀ q v, (q, v) ∈ removed ↔ get q t = some v ∧ (q <+: key ∨ key <+: q)) ∧
    ∀ v rest, t.prefixGetRest key = some (v, rest) ↔ ∃ p, key = p ++ rest ∧ get p t = some v := by
  intro t
  have hkept : WF t ∧ Pruned t := by
    suffices h : ∀ s : DataTree K V, WF s ∧ Pruned s → WF (ops.foldl step s) ∧ Pruned
      (ops.foldl step s)
      from h new ⟨.new, .new⟩
    induction ops with
    | nil => exact fun s hs => hs
    | cons op ops ih =>
      rintro s ⟨hwf, hpruned⟩
      refine ih (step s op) ?_
      cases op with
      | insert key value => exact ⟨hwf.insert value key, (hpruned.insert value key).pruned⟩
      | remove key => exact ⟨hwf.remove key, hpruned.remove key⟩
  refine ⟨hkept.2, fun p q v w => eq_of_above, fun q => get_insert t,
    fun q => get_remove t, ⟨_, removePathRewound_eq key t, fun q v => ⟨fun h => ?_, ?_⟩⟩, ?_⟩
  · exact ⟨get_of_mem_removePath hkept.1 h, overlap_of_mem_removePath h⟩
  · rintro ⟨hget, hover⟩
    exact mem_removePath hget hover
  · intro v rest
    rw [prefixGetRest_eq, Option.map_eq_some_iff]
    constructor
    · rintro ⟨⟨p, w⟩, hfound, heq⟩
      cases heq
      obtain ⟨⟨rest, rfl⟩, hget⟩ := prefixGet_eq_some.mp hfound
      exact ⟨p, by rw [drop_left], hget⟩
    · rintro ⟨p, rfl, hget⟩
      exact ⟨(p, v), prefixGet_eq_some.mpr ⟨prefix_append _ _, hget⟩, by simp⟩

end DataTree

end Bz.Materializer
