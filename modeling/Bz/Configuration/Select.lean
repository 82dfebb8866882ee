import Mathlib.Data.List.Induction
import Mathlib.Data.String.Basic

/-!
# Which entry of a `select` is used

When more than one entry of a `select` matches, the most specific one is used.  The first loop keeps
one candidate, as long as any two entries can be compared; when it meets one that cannot, all
entries are read again and those that no other entry refines are kept.

Principal result: `select_most_specific`.
-/

namespace Bz.Configuration

open List

open Std (ExtTreeMap TransOrd LawfulEqOrd)

/-- What a `config_setting` asks for. -/
structure ConfigSettingData (C V : Type) [LinearOrder C] where
  constraints : ExtTreeMap C V
  buckconfigs : ExtTreeMap String String
  buildSettings : ExtTreeMap String String

namespace ConfigSettingData

section Subset

variable {K W : Type} [Ord K] [TransOrd K] [DecidableEq W] {a b c : ExtTreeMap K W} [LawfulEqOrd K]

def isSubset (a b : ExtTreeMap K W) : Bool :=
  a.size ≤ b.size && a.toList.all fun e => b[e.1]? == some e.2

theorem isSubset_iff :
    isSubset a b ↔ a.size ≤ b.size ∧ ∀ (k : K) (v : W), a[k]? = some v → b[k]? = some v := by
  simp [isSubset, ExtTreeMap.mem_toList_iff_getElem?_eq_some]

theorem isSubset_trans (h : isSubset a b) (h' : isSubset b c) : isSubset a c := by
  rw [isSubset_iff] at h h' ⊢
  exact ⟨h.1.trans h'.1, fun k v hk => h'.2 k v (h.2 k v hk)⟩

end Subset

variable {C V : Type} [LinearOrder C] [DecidableEq V] {a b c : ConfigSettingData C V}

def lenSum (a : ConfigSettingData C V) : Nat :=
  a.constraints.size + a.buckconfigs.size + a.buildSettings.size

def refines (self that : ConfigSettingData C V) : Bool :=
  that.lenSum < self.lenSum && isSubset that.constraints self.constraints &&
    isSubset that.buckconfigs self.buckconfigs && isSubset that.buildSettings self.buildSettings

theorem refines_irrefl (a : ConfigSettingData C V) : ¬ a.refines a := by
  simp [refines]

theorem refines_trans (h : a.refines b) (h' : b.refines c) : a.refines c := by
  simp only [refines, Bool.and_eq_true, decide_eq_true_eq] at h h' ⊢
  obtain ⟨⟨⟨hlen, hc⟩, hb⟩, hs⟩ := h
  obtain ⟨⟨⟨hlen', hc'⟩, hb'⟩, hs'⟩ := h'
  exact ⟨⟨⟨hlen'.trans hlen, isSubset_trans hc' hc⟩, isSubset_trans hb' hb⟩, isSubset_trans hs' hs⟩

end ConfigSettingData

variable {Key C V A : Type} [LinearOrder C] [DecidableEq V]

/-- An entry that matches: its key, the data of the setting and the value. -/
structure SelectEntry (Key C V A : Type) [LinearOrder C] where
  key : Key
  conf : ConfigSettingData C V
  value : A

/-! ## The entries that are kept -/

/-- The body of the loop of `select_the_most_specific_slow`. -/
def keepMostSpecific (kept : List (SelectEntry Key C V A)) (e : SelectEntry Key C V A) :
    List (SelectEntry Key C V A) :=
  if kept.any (·.conf.refines e.conf) then kept
  else kept.filter (fun prev => !e.conf.refines prev.conf) ++ [e]

variable {entries seen kept : List (SelectEntry Key C V A)} {m : SelectEntry Key C V A}

/-- No other entry refines it. -/
def MostSpecific (entries : List (SelectEntry Key C V A)) (e : SelectEntry Key C V A) : Prop :=
  e ∈ entries ∧ ∀ other ∈ entries, ¬ other.conf.refines e.conf

/-- What is kept: none of it refines another, and every other entry is refined by one of it. -/
structure Kept (seen kept : List (SelectEntry Key C V A)) : Prop where
  subset : ∀ e ∈ kept, e ∈ seen
  apart : ∀ e ∈ kept, ∀ p ∈ kept, ¬ p.conf.refines e.conf
  above : ∀ e ∈ seen, e ∈ kept ∨ ∃ p ∈ kept, p.conf.refines e.conf

open ConfigSettingData

theorem Kept.mem_iff (h : Kept seen kept) (e : SelectEntry Key C V A) :
    e ∈ kept ↔ MostSpecific seen e := by
  constructor
  · intro he
    refine ⟨h.subset e he, fun o ho hoe => ?_⟩
    rcases h.above o ho with ho | ⟨p, hp, hpo⟩
    · exact h.apart e he o ho hoe
    · exact h.apart e he p hp (refines_trans hpo hoe)
  · rintro ⟨he, hfree⟩
    refine (h.above e he).resolve_right ?_
    rintro ⟨p, hp, hpe⟩
    exact hfree p (h.subset p hp) hpe

theorem Kept.step (h : Kept seen kept) (e : SelectEntry Key C V A) :
    Kept (seen ++ [e]) (keepMostSpecific kept e) := by
  have hsubset := h.subset
  have hapart := h.apart
  unfold keepMostSpecific
  split
  · next hany =>
    obtain ⟨p, hp, hpe⟩ := any_eq_true.mp hany
    refine ⟨fun q hq => mem_append_left _ (hsubset q hq), hapart, fun q hq => ?_⟩
    rcases mem_append.mp hq with hq | hq
    · exact h.above q hq
    · exact .inr ⟨p, hp, mem_singleton.mp hq ▸ hpe⟩
  · next hnone =>
    have hirrefl := refines_irrefl e.conf
    constructor
    · grind
    · grind
    · intro q hq
      -- the new entry takes the place of what it refines
      have htrans {p} (hp : p ∈ kept) (hpq : p.conf.refines q.conf) := fun hep =>
        refines_trans (a := e.conf) (b := p.conf) hep hpq
      have habove := h.above q
      grind

theorem kept_foldl (entries : List (SelectEntry Key C V A)) :
    Kept entries (entries.foldl keepMostSpecific []) := by
  induction entries using reverseRecOn with
  | nil => exact ⟨nofun, nofun, nofun⟩
  | append_singleton entries e ih =>
    rw [foldl_append]
    exact ih.step e

/-! ## The answer -/

variable [DecidableEq A]

/-- The errors of the choice. -/
inductive SelectError (Key : Type) where
  /-- "no entries after slow select the most specific" -/
  | noEntries
  /-- "Both select keys match the configuration, but neither is more specific and they have
  different values" -/
  | ambiguous (first different : Key)

def selectTheMostSpecificSlow (entries : List (SelectEntry Key C V A)) :
    Except (SelectError Key) (Option A) :=
  match entries.foldl keepMostSpecific [] with
  | [] => .error .noEntries
  | [e] => .ok (some e.value)
  | first :: rest => match rest.find? (·.value ≠ first.value) with
    | some different => .error (.ambiguous first.key different.key)
    | none => .ok (some first.value)

/-- The loop of `select_the_most_specific`. -/
def selectLoop (entries : List (SelectEntry Key C V A)) (matching : SelectEntry Key C V A) :
    List (SelectEntry Key C V A) → Except (SelectError Key) (Option A)
  | [] => .ok (some matching.value)
  | e :: rest =>
    if e.conf.refines matching.conf then selectLoop entries e rest
    else if matching.conf.refines e.conf then selectLoop entries matching rest
    else selectTheMostSpecificSlow entries

def selectTheMostSpecific : List (SelectEntry Key C V A) → Except (SelectError Key) (Option A)
  | [] => .ok none
  | first :: rest => selectLoop (first :: rest) first rest

/-- What the answer says about the most specific entries. -/
inductive Selected (entries : List (SelectEntry Key C V A)) :
    Except (SelectError Key) (Option A) → Prop where
  | none : entries = [] → Selected entries (.ok none)
  | value {e} : MostSpecific entries e → (∀ e', MostSpecific entries e' → e'.value = e.value) →
      Selected entries (.ok (some e.value))
  | ambiguous {e e'} : MostSpecific entries e → MostSpecific entries e' → e.value ≠ e'.value →
      Selected entries (.error (.ambiguous e.key e'.key))

theorem selected_slow (hne : entries ≠ []) :
    Selected entries (selectTheMostSpecificSlow entries) := by
  have hkept := kept_foldl entries
  unfold selectTheMostSpecificSlow
  split
  · next hnil =>
    obtain ⟨e, he⟩ := exists_mem_of_ne_nil entries hne
    rw [hnil] at hkept
    simpa using hkept.above e he
  · next e hone =>
    rw [hone] at hkept
    refine .value ((hkept.mem_iff e).mp (by simp)) fun e' he' => ?_
    rw [mem_singleton.mp ((hkept.mem_iff e').mpr he')]
  · next first rest _ hmany =>
    rw [hmany] at hkept
    have hfirst := (hkept.mem_iff first).mp mem_cons_self
    split
    · next different hfind =>
      refine .ambiguous hfirst ((hkept.mem_iff _).mp ?_) ?_
      · exact mem_cons_of_mem _ (mem_of_find?_eq_some hfind)
      · exact Ne.symm (by simpa using find?_some hfind)
    · next hfind =>
      refine .value hfirst fun e' he' => ?_
      rcases mem_cons.mp ((hkept.mem_iff e').mpr he') with rfl | he'
      · rfl
      · simpa using find?_eq_none.mp hfind e' he'

/-- While the loop runs, its candidate refines all entries that it has seen. -/
theorem selectLoop_eq_slow (rest : List (SelectEntry Key C V A)) (hm : m ∈ seen)
    (hall : ∀ e ∈ seen, e = m ∨ m.conf.refines e.conf) (hentries : seen ++ rest = entries) :
    selectLoop entries m rest = selectTheMostSpecificSlow entries := by
  induction rest generalizing seen m with
  | nil =>
    rw [append_nil] at hentries
    subst hentries
    have honly {e} (he : MostSpecific seen e) : e = m :=
      (hall e he.1).resolve_right (he.2 m hm)
    have hmost : MostSpecific seen m := by
      refine ⟨hm, fun o ho hom => ?_⟩
      rcases hall o ho with rfl | hmo
      · exact refines_irrefl _ hom
      · exact refines_irrefl _ (refines_trans hom hmo)
    have hslow := selected_slow (ne_nil_of_mem hm)
    generalize selectTheMostSpecificSlow seen = r at hslow
    cases hslow with
    | none hnil => exact absurd hm (hnil ▸ not_mem_nil)
    | value he => rw [honly he]; rfl
    | ambiguous he he' hne => exact absurd (by rw [honly he, honly he']) hne
  | cons e rest ih =>
    unfold selectLoop
    have hsplit : (seen ++ [e]) ++ rest = entries := by simpa using hentries
    split
    · next hem =>
      refine ih (by simp) (fun o ho => ?_) hsplit
      rcases mem_append.mp ho with ho | ho
      · exact .inr ((hall o ho).elim (· ▸ hem) (refines_trans hem))
      · exact .inl (mem_singleton.mp ho)
    · split
      · next hme =>
        refine ih (mem_append_left _ hm) (fun o ho => ?_) hsplit
        rcases mem_append.mp ho with ho | ho
        · exact hall o ho
        · exact .inr (mem_singleton.mp ho ▸ hme)
      · rfl

theorem select_eq_slow (hne : entries ≠ []) :
    selectTheMostSpecific entries = selectTheMostSpecificSlow entries := by
  cases entries with
  | nil => exact absurd rfl hne
  | cons first rest => exact selectLoop_eq_slow rest mem_cons_self (by simp) singleton_append

theorem selected (entries : List (SelectEntry Key C V A)) :
    Selected entries (selectTheMostSpecific entries) := by
  by_cases hne : entries = []
  · subst hne
    exact .none rfl
  · rw [select_eq_slow hne]
    exact selected_slow hne

/-- **The most specific entry of a `select`.** The answer is the value that the entries that no
other entry refines have in common, whatever their order, and the two ways to find it agree. -/
theorem select_most_specific (entries : List (SelectEntry Key C V A)) :
    IsStrictOrder (ConfigSettingData C V) (fun a b => a.refines b) ∧
      (selectTheMostSpecific entries = .ok none ↔ entries = []) ∧
      (∀ v, selectTheMostSpecific entries = .ok (some v) ↔
        entries ≠ [] ∧ ∀ e, MostSpecific entries e → e.value = v) ∧
      ((∃ first different, selectTheMostSpecific entries = .error (.ambiguous first different)) ↔
        ∃ e e', MostSpecific entries e ∧ MostSpecific entries e' ∧ e.value ≠ e'.value) ∧
      (∀ entries', entries.Perm entries' →
        (selectTheMostSpecific entries').toOption = (selectTheMostSpecific entries).toOption) ∧
      (entries ≠ [] → selectTheMostSpecific entries = selectTheMostSpecificSlow entries ∧
        selectTheMostSpecificSlow entries ≠ .error .noEntries) := by
  have hslow (hne : entries ≠ []) : selectTheMostSpecificSlow entries ≠ .error .noEntries := by
    intro herror
    cases herror ▸ selected_slow hne
  have hsame {entries'} (hperm : entries.Perm entries') {e} :
      MostSpecific entries' e ↔ MostSpecific entries e := by
    simp [MostSpecific, hperm.mem_iff]
  have hstrict : IsStrictOrder (ConfigSettingData C V) (fun a b => a.refines b) :=
    { irrefl := refines_irrefl, trans := fun _ _ _ => refines_trans }
  refine ⟨hstrict, ?_, fun v => ?_, ?_, fun entries' hperm => ?_,
    fun hne => ⟨select_eq_slow hne, hslow hne⟩⟩
  all_goals
    have hselected := selected entries
    generalize selectTheMostSpecific entries = r at hselected
    cases hselected
  all_goals try grind [MostSpecific]
  all_goals
    have hselected' := selected entries'
    generalize selectTheMostSpecific entries' = r' at hselected'
    cases hselected' <;> grind [MostSpecific, Except.toOption]

end Bz.Configuration
