import Bz.Directory.Rebuild
import Bz.Directory.Selector

/-!
# Leaves in the way of a path

The operations of a `DirectoryBuilder` that go along a path, `insert`, `mkdir`, `find` and
`remove_prefix`, fail at the leaves that are in the way.

Principal results: `path_operations`; `find_names_no_leaf`, an error of `find` that names no leaf.
-/

namespace Bz.Directory.DirectoryBuilder

open List

variable {K L H : Type} [DecidableEq K] {d : DirectoryBuilder K L H} {path c c' : List K}

/-- There is a leaf above the path. -/
def Blocks (d : DirectoryBuilder K L H) (path c : List K) : Prop :=
  c <+: path ∧ c ≠ path ∧ ∃ l, d.tree c = some (.leaf l)

theorem leaf_unique {l l' : L} (hc : c <+: path) (hl : d.tree c = some (.leaf l))
    (hc' : c' <+: path) (hl' : d.tree c' = some (.leaf l')) : c = c' := by
  have below {c c' : List K} {l l' : L} (hl : d.tree c = some (.leaf l))
      (hl' : d.tree c' = some (.leaf l')) (hle : c <+: c') : c = c' := by
    by_contra hne
    rw [d.isTree.dir_above hle hne (by simp [hl'])] at hl
    cases hl
  rcases prefix_or_prefix_of_prefix hc hc' with hle | hle
  · exact below hl hl' hle
  · exact (below hl' hl hle).symm

theorem Blocks.unique (h : d.Blocks path c) (h' : d.Blocks path c') : c = c' :=
  leaf_unique h.1 h.2.2.choose_spec h'.1 h'.2.2.choose_spec

/-- A leaf in the way has a last name, and a name follows it. -/
theorem Blocks.split (h : d.Blocks path c) : ∃ r k n rest l, c = r ++ [k] ∧
    path = r ++ k :: n :: rest ∧ d.tree (r ++ [k]) = some (.leaf l) := by
  obtain ⟨⟨rest, rfl⟩, hne, l, hl⟩ := h
  rcases eq_nil_or_concat' c with rfl | ⟨r, k, rfl⟩
  · cases hl
  · cases rest with
    | nil => exact absurd (append_nil _).symm hne
    | cons n rest => exact ⟨r, k, n, rest, l, rfl, by simp, hl⟩

theorem find_blocked {r rest : List K} {k n : K} {l : L} (h : d.tree (r ++ [k]) = some (.leaf l)) :
    d.find (r ++ k :: n :: rest) = .error (r ++ [n]) := by
  induction r generalizing d with
  | nil =>
    rw [nil_append, tree_cons] at h
    obtain ⟨e, he, h⟩ := Option.bind_eq_some_iff.mp h
    cases e with
    | dir sub => rw [DirectoryEntry.tree, tree_nil] at h; cases h
    | leaf l' => rw [nil_append, find, findInner, he]; rfl
  | cons a r ih =>
    rw [cons_append, tree_cons] at h
    obtain ⟨e, he, h⟩ := Option.bind_eq_some_iff.mp h
    cases e with
    | leaf l' => exact absurd (DirectoryEntry.eq_of_tree_leaf h).1 (by simp)
    | dir sub =>
      obtain ⟨b, path, hpath⟩ : ∃ b path, r ++ k :: n :: rest = b :: path := by
        cases r <;> simp
      rw [cons_append, hpath, find, findInner, he]
      have hsub : findInner path b sub = .error (r ++ [n]) := by
        rw [← ih h, hpath, find]
      simp only [hsub]
      rfl

theorem find_error_iff : d.find path = .error c ↔
    ∃ r k n rest l, path = r ++ k :: n :: rest ∧ d.tree (r ++ [k]) = some (.leaf l) ∧
      c = r ++ [n] := by
  constructor
  · intro h
    obtain ⟨r, k, n, l, ⟨rest, rfl⟩, hl, rfl⟩ := find_error h
    exact ⟨r, k, n, rest, l, by simp, hl, rfl⟩
  · rintro ⟨r, k, n, rest, l, rfl, hl, rfl⟩
    exact find_blocked hl

theorem removePrefix_error_iff : d.removePrefix path = .error c ↔ d.find path = .error c := by
  unfold removePrefix
  cases d.find path with
  | error e => simp
  | ok e => cases e <;> exact ⟨nofun, nofun⟩

/-- **Exactly when `find` names the leaf**: the name that follows it is its own. -/
theorem find_names_leaf_iff : (∀ c, d.find path = .error c ↔ d.Blocks path c) ↔
    ∀ r k, d.Blocks path (r ++ [k]) → r ++ [k, k] <+: path := by
  constructor
  · intro h r k hblocks
    obtain ⟨r', k', n, rest, l, heq, rfl, hl⟩ := hblocks.split
    obtain ⟨rfl, hk⟩ := append_inj' heq rfl
    cases hk
    have hnamed := (h _).mp (find_blocked hl)
    obtain ⟨-, hn⟩ := append_inj' (hnamed.unique hblocks) rfl
    cases hn
    exact ⟨rest, by simp⟩
  · intro h c
    rw [find_error_iff]
    constructor
    · rintro ⟨r, k, n, rest, l, rfl, hl, rfl⟩
      have hblocks : d.Blocks (r ++ k :: n :: rest) (r ++ [k]) :=
        ⟨⟨n :: rest, by simp⟩, by simp, l, hl⟩
      obtain ⟨rest', heq⟩ := h r k hblocks
      rw [append_assoc] at heq
      cases append_cancel_left heq
      exact hblocks
    · intro hblocks
      obtain ⟨r, k, n, rest, l, rfl, rfl, hl⟩ := hblocks.split
      obtain ⟨rest', heq⟩ := h r k hblocks
      rw [append_assoc] at heq
      cases append_cancel_left heq
      exact ⟨r, k, k, rest', l, rfl, hl, rfl⟩

theorem insert_error_iff (hne : path ≠ []) (val : BuilderEntry K L H) :
    (d.insert path val).2 = .error (.cannotTraverseLeaf c) ↔ d.Blocks path c := by
  rcases hins : d.insert path val with ⟨d', e | old⟩
  · obtain ⟨-, ⟨hnil, -⟩ | ⟨c', l, rfl, hpre, hne', hl⟩⟩ := insert_error hins
    · exact absurd hnil hne
    · have hblocks : d.Blocks path c' := ⟨hpre, hne', l, hl⟩
      constructor
      · intro h
        cases h
        exact hblocks
      · intro h
        rw [h.unique hblocks]
  · exact ⟨nofun, fun h =>
      absurd h.2.2.choose_spec ((insert_ok hins).2.1 c _ h.1 h.2.1)⟩

theorem mkdir_error_iff : (d.mkdir path).2 = .error c ↔
    c <+: path ∧ ∃ l, d.tree c = some (.leaf l) := by
  rcases hmk : d.mkdir path with ⟨d', e | ⟨⟩⟩
  · obtain ⟨-, hpre, l, hl⟩ := mkdirInner_error hmk
    constructor
    · intro h
      cases h
      exact ⟨hpre, l, hl⟩
    · rintro ⟨hpre', l', hl'⟩
      rw [leaf_unique hpre hl hpre' hl']
  · exact ⟨nofun, fun h => absurd h.2.choose_spec (mkdirInner_open hmk h.1 _)⟩

/-- **Operations along a path.** All four fail exactly at a leaf in the way; `insert` and `mkdir`
name its path, `find` and `remove_prefix` exactly when the name that follows on the path is the
leaf's own.  A failure changes nothing; a success of `insert` puts the entry at the path and makes
directories above it, one of `remove_prefix` removes what is at and below the path. -/
theorem path_operations (d : DirectoryBuilder K L H) (val : BuilderEntry K L H) (path : List K)
    (hne : path ≠ []) :
    ((∀ c, (d.insert path val).2 = .error (.cannotTraverseLeaf c) ↔ d.Blocks path c) ∧
      (∀ d' e, d.insert path val = (d', .error e) → d'.tree = d.tree) ∧
      ∀ d' old, d.insert path val = (d', .ok old) → ∀ q,
        (path <+: q → d'.tree q = val.tree (q.drop path.length)) ∧
        (q <+: path → q ≠ path → d'.tree q = some .dir ∧ (d.tree q = none ∨ d.tree q = some .dir)) ∧
        (¬ path <+: q → ¬ q <+: path → d'.tree q = d.tree q)) ∧
    ((∀ c, (d.mkdir path).2 = .error c ↔ c <+: path ∧ ∃ l, d.tree c = some (.leaf l)) ∧
      ∀ d' c, d.mkdir path = (d', .error c) → d'.tree = d.tree) ∧
    ((∃ c, d.find path = .error c) ↔ ∃ c, d.Blocks path c) ∧
    ((∀ c, d.find path = .error c ↔ d.Blocks path c) ↔
      ∀ r k, d.Blocks path (r ++ [k]) → r ++ [k, k] <+: path) ∧
    (∀ c, d.removePrefix path = .error c ↔ d.find path = .error c) ∧
    ∀ d', d.removePrefix path = .ok d' → ∀ q,
      d'.tree q = if path <+: q then none else d.tree q := by
  refine ⟨⟨fun c => insert_error_iff hne val, fun d' e h => (insert_error h).1, ?_⟩,
    ⟨fun c => mkdir_error_iff, fun d' c h => (mkdirInner_error h).1⟩, ?_, find_names_leaf_iff,
    fun c => removePrefix_error_iff, fun d' h => removePrefix_ok hne h⟩
  · intro d' old h q
    obtain ⟨-, hopen, htree, -⟩ := insert_ok h
    rw [htree]
    refine ⟨?_, fun hq hqp => ⟨PathMap.putAt_above hq hqp, ?_⟩,
      fun h h' => PathMap.putAt_apart h h'⟩
    · rintro ⟨r, rfl⟩
      rw [PathMap.putAt_append, drop_left]
    · rcases hnode : d.tree q with _ | _ | l
      · exact .inl rfl
      · exact .inr rfl
      · exact absurd hnode (hopen q l hq hqp)
  · constructor
    · rintro ⟨c, h⟩
      obtain ⟨r, k, n, rest, l, rfl, hl, -⟩ := find_error_iff.mp h
      exact ⟨r ++ [k], ⟨n :: rest, by simp⟩, by simp, l, hl⟩
    · rintro ⟨c, h⟩
      obtain ⟨r, k, n, rest, l, rfl, rfl, hl⟩ := h.split
      exact ⟨r ++ [n], find_blocked hl⟩

/-- The file `b` in the directory `a`. -/
def fileBelow : DirectoryBuilder Char Unit Unit :=
  node .mutable [('a', .dir (node .mutable [('b', .leaf ())]))]

/-- Below the file `a/b` all four operations name it, where its own name follows. -/
theorem path_operations_below :
    (fileBelow.insert ['a', 'b', 'b'] (.leaf ())).2 = .error (.cannotTraverseLeaf ['a', 'b']) ∧
      (fileBelow.mkdir ['a', 'b', 'b']).2 = .error ['a', 'b'] ∧
      fileBelow.find ['a', 'b', 'b'] = .error ['a', 'b'] ∧
      fileBelow.removePrefix ['a', 'b', 'b'] = .error ['a', 'b'] := by
  obtain ⟨⟨hinsert, -, -⟩, ⟨hmkdir, -⟩, -, hnames, hremove, -⟩ :=
    path_operations fileBelow (.leaf ()) ['a', 'b', 'b'] (by decide)
  have hleaf : fileBelow.tree ['a', 'b'] = some (.leaf ()) := by simp [fileBelow, tree, get]
  have hblocks : fileBelow.Blocks ['a', 'b', 'b'] ['a', 'b'] := ⟨by decide, by decide, (), hleaf⟩
  have hfind : fileBelow.find ['a', 'b', 'b'] = .error ['a', 'b'] := by
    refine (hnames.mpr (fun r k h => ?_) _).mpr hblocks
    have hrk : r ++ [k] = ['a'] ++ ['b'] := h.unique hblocks
    obtain ⟨rfl, hk⟩ := append_inj' hrk rfl
    cases hk
    decide
  exact ⟨(hinsert _).mpr hblocks, (hmkdir _).mpr ⟨hblocks.1, (), hleaf⟩, hfind,
    (hremove _).mpr hfind⟩

/-- `find` along `a/b/c` fails at the file `a/b`, and names `a/c`. -/
theorem find_names_no_leaf :
    fileBelow.find ['a', 'b', 'c'] = .error ['a', 'c'] ∧
      fileBelow.removePrefix ['a', 'b', 'c'] = .error ['a', 'c'] ∧
      fileBelow.tree ['a', 'b'] = some (.leaf ()) ∧ fileBelow.tree ['a', 'c'] = none := by
  refine ⟨rfl, rfl, ?_, ?_⟩
  · simp [fileBelow, tree, get]
  · simp [fileBelow, tree, get, lookup_cons]

end Bz.Directory.DirectoryBuilder
