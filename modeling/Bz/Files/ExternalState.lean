import Bz.Machine
import Mathlib.Data.List.AList

/-!
# External file state

The files behind absolute symlinks are checked by `invalidate_changed_external_file_state` of
`bz_common/src/file_ops/dice.rs`, while other commands compute `ExternalPathMetadataKey`s.  A flag
lets it skip the check as long as there is no such key: `read_external_path_metadata` sets it before
its key is in the graph, and a check that finds no keys clears it.

Principal results: `known_keys_checked`: a flag that is cleared only while no key is on its way lets
no check be skipped; `key_never_checked`, a key inserted between the listing and the clearing.
-/

namespace Bz.ExternalState

open Machine List Option

variable {K V : Type}

/-- `DirtyExternalPathMetadata`. -/
inductive Dirty (V : Type) where
  | withValue (value : V)
  | withoutValue
  | unchanged

/-- What `check_external_path_metadata_direct` makes of the stored and the fresh value.  There is no
value for an error, which equals nothing. -/
def checkDirect [DecidableEq V] (old fresh : Option V) : Dirty V :=
  match fresh with
  | some x => if old = some x then .unchanged else .withValue x
  | none => .withoutValue

/-- A key that was listed, its value then, and what its check gave. -/
structure Entry (K V : Type) where
  key : K
  old : Option V
  dirty : Option (Dirty V)

/-- What the graph had. -/
def Entry.listed (e : Entry K V) : (_ : K) × Option V := ⟨e.key, e.old⟩

/-- The keys that `ctx.changed` is given at the end. -/
def changed (entries : List (Entry K V)) : List K :=
  entries.filterMap fun e => match e.dirty with
    | some .withoutValue => some e.key
    | _ => none

/-- The keys and values that `ctx.changed_to` is given at the end. -/
def changedTo (entries : List (Entry K V)) : List (K × V) :=
  entries.filterMap fun e => match e.dirty with
    | some (.withValue value) => some (e.key, value)
    | _ => none

/-- The call has read the flag, listed no keys, looks at those it listed, has recorded their
changes, or has ended without a look; `listed` is the graph at the listing. -/
inductive Stage (K V : Type) where
  | seen
  | foundNone
  | checking (listed : AList fun _ : K => Option V) (entries : List (Entry K V))
  | finished (listed : AList fun _ : K => Option V) (changed : List K) (changedTo : List (K × V))
  | skipped

def Stage.isOver : Stage K V → Bool
  | .finished .. => true
  | .skipped => true
  | _ => false

/-- A call of `invalidate_changed_external_file_state`: when it began, the keys of the graph then,
and where it stands. -/
structure Sync (K V : Type) where
  start : Nat
  known : List K
  stage : Stage K V

/-- `flag` is `EXTERNAL_FILE_STATE_SEEN`, `graph` the keys with their values, and `computing` the
keys whose computations have set the flag. -/
structure State (K V : Type) where
  now : Nat
  flag : Bool
  graph : AList fun _ : K => Option V
  computing : List K
  syncs : List (Sync K V)

def State.new : State K V := ⟨0, false, ∅, [], []⟩

/-- The steps of the system. -/
inductive Label (K V : Type) where
  /-- Time passes, and the files may change. -/
  | tick
  /-- `read_external_path_metadata` sets the flag. -/
  | compute (key : K)
  /-- A computation ends, and its key is in the graph with the value. -/
  | insert (index : Nat) (value : Option V)
  /-- A computation ends without a key in the graph: it is cancelled, or fails. -/
  | abandon (index : Nat)
  /-- A transaction gives a key of the graph another value. -/
  | commit (key : K) (value : Option V)
  | sync
  | list (sync : Nat)
  /-- The keys are checked in any order, each by `read_external_path_metadata`. -/
  | check (sync index : Nat)
  /-- All listed keys are checked, and the changes are recorded. -/
  | finish (sync : Nat)
  /-- The flag is cleared after a listing without keys. -/
  | clear (sync : Nat)

/-- The call goes on to another stage. -/
def State.setStage (s : State K V) (i : Nat) (σ : Sync K V) (stage : Stage K V) : State K V :=
  { s with syncs := s.syncs.set i { σ with stage := stage } }

/-- One step; `files` has the value that a key reads at a time. -/
def step [DecidableEq K] [DecidableEq V] (files : Nat → K → Option V) (s : State K V) :
    Label K V → Option (State K V)
  | .tick => some { s with now := s.now + 1 }
  | .compute key => some { s with flag := true, computing := s.computing ++ [key] }
  | .insert index value => (s.computing[index]?).map fun key =>
      { s with computing := s.computing.eraseIdx index, graph := s.graph.insert key value }
  | .abandon index => (s.computing[index]?).map fun _ =>
      { s with computing := s.computing.eraseIdx index }
  | .commit key value =>
    if key ∈ s.graph then some { s with graph := s.graph.insert key value } else none
  | .sync => some { s with
      syncs := s.syncs ++ [⟨s.now, s.graph.keys, if s.flag then .seen else .skipped⟩] }
  | .list i => (s.syncs[i]?).bind fun σ => match σ.stage with
    | .seen => some (s.setStage i σ (if s.graph.keys = [] then .foundNone else
        .checking s.graph (s.graph.entries.map fun ⟨key, old⟩ => ⟨key, old, none⟩)))
    | _ => none
  | .check i index => (s.syncs[i]?).bind fun σ => match σ.stage with
    | .checking listed entries => (entries[index]?).bind fun e =>
        if e.dirty.isSome then none
        else some ({ s with flag := true }.setStage i σ (.checking listed (entries.set index
          { e with dirty := checkDirect e.old (files s.now e.key) })))
    | _ => none
  | .finish i => (s.syncs[i]?).bind fun σ => match σ.stage with
    | .checking listed entries =>
      if entries.all (·.dirty.isSome) then
        some (s.setStage i σ (.finished listed (changed entries) (changedTo entries)))
      else none
    | _ => none
  | .clear i => (s.syncs[i]?).bind fun σ => match σ.stage with
    | .foundNone => some ({ s with flag := false }.setStage i σ .skipped)
    | _ => none

/-- The flag is cleared only while no key is in the graph or on its way there. -/
def Calm (s : State K V) : Label K V → Prop
  | .clear _ => s.graph.keys = [] ∧ s.computing = []
  | _ => True

section Checked

variable [DecidableEq V] (files : Nat → K → Option V) {s s' : State K V} {stage : Stage K V}

/-- What the check of a key gave is about its file at a time since the call began. -/
def Entry.Fresh (start now : Nat) (e : Entry K V) : Prop :=
  ∃ t, start ≤ t ∧ t ≤ now ∧ e.dirty = checkDirect e.old (files t e.key)

/-- The file of a key was looked at since the call began: it is as the graph has it, or it is
recorded as changed. -/
def Noticed (start now : Nat) (changed : List K) (changedTo : List (K × V)) (key : K)
    (old : Option V) : Prop :=
  ∃ t, start ≤ t ∧ t ≤ now ∧ match files t key with
    | some value => old = some value ∨ (key, value) ∈ changedTo
    | none => key ∈ changed

/-- What holds of a call that began with the keys in `known`. -/
def StageOk (s : State K V) (start : Nat) (known : List K) : Stage K V → Prop
  | .seen => known ⊆ s.graph.keys
  | .checking listed entries => known ⊆ listed.keys ∧
      entries.map Entry.listed = listed.entries ∧
      ∀ e ∈ entries, e.dirty ≠ none → e.Fresh files start s.now
  | .finished listed changed changedTo => known ⊆ listed.keys ∧
      ∀ e ∈ listed.entries, Noticed files start s.now changed changedTo e.1 e.2
  | _ => known = []

/-- The flag is set while a key is in the graph or on its way there. -/
structure Inv (s : State K V) : Prop where
  flag : s.flag = false → s.graph.keys = [] ∧ s.computing = []
  syncs : ∀ σ ∈ s.syncs, σ.start ≤ s.now ∧ StageOk files s σ.start σ.known σ.stage

variable {files}

theorem StageOk.mono {start : Nat} {known : List K} (h : StageOk files s start known stage)
    (hnow : s.now ≤ s'.now) (hgraph : s.graph.keys ⊆ s'.graph.keys) :
    StageOk files s' start known stage := by
  cases stage with
  | seen => exact fun k hk => hgraph (h hk)
  | checking listed entries =>
    refine ⟨h.1, h.2.1, fun e he hne => ?_⟩
    obtain ⟨t, hstart, ht, hdirty⟩ := h.2.2 e he hne
    exact ⟨t, hstart, Nat.le_trans ht hnow, hdirty⟩
  | finished listed changed changedTo =>
    refine ⟨h.1, fun e he => ?_⟩
    obtain ⟨t, hstart, ht, hnoticed⟩ := h.2 e he
    exact ⟨t, hstart, Nat.le_trans ht hnow, hnoticed⟩
  | foundNone | skipped => exact h

/-- **A changed file is recorded** by a check that found it. -/
theorem Entry.Fresh.noticed {start now : Nat} {entries : List (Entry K V)} {e : Entry K V}
    (h : e.Fresh files start now) (he : e ∈ entries) :
    Noticed files start now (changed entries) (changedTo entries) e.key e.old := by
  obtain ⟨t, hstart, hnow, hdirty⟩ := h
  refine ⟨t, hstart, hnow, ?_⟩
  cases hfile : files t e.key with
  | none => exact mem_filterMap.mpr ⟨e, he, by simp [hdirty, hfile, checkDirect]⟩
  | some value =>
    by_cases hold : e.old = some value
    · exact .inl hold
    · exact .inr (mem_filterMap.mpr ⟨e, he, by simp [hdirty, hfile, checkDirect, hold]⟩)

variable (h : Inv files s)
include h

/-- A step that changes the stage of one call, and the flag. -/
theorem Inv.setStage {flag : Bool} {i : Nat} {σ : Sync K V} (hi : s.syncs[i]? = some σ)
    (hflag : flag = false → s.graph.keys = [] ∧ s.computing = [])
    (hstage : StageOk files s σ.start σ.known stage) :
    Inv files ({ s with flag := flag }.setStage i σ stage) := by
  refine ⟨hflag, fun τ hτ => ?_⟩
  rcases mem_or_eq_of_mem_set hτ with hτ | rfl
  · exact h.syncs τ hτ
  · exact ⟨(h.syncs σ (mem_of_getElem? hi)).1, hstage⟩

theorem Inv.step [DecidableEq K] {l : Label K V} (hcalm : Calm s l)
    (hstep : step files s l = some s') : Inv files s' := by
  have hinsert : ∀ key (value : Option V), s.graph.keys ⊆ (s.graph.insert key value).keys :=
    fun key value k hk => (AList.mem_insert _).mpr (.inr hk)
  cases l with
  | tick =>
    cases hstep
    exact ⟨h.flag, fun σ hσ => (h.syncs σ hσ).imp Nat.le_succ_of_le
      (·.mono (Nat.le_succ _) (Subset.refl _))⟩
  | compute key =>
    cases hstep
    exact ⟨nofun, h.syncs⟩
  | insert index value =>
    obtain ⟨key, hkey, rfl⟩ := map_eq_some_iff.mp hstep
    refine ⟨fun hflag => ?_, fun σ hσ => (h.syncs σ hσ).imp_right
      (·.mono (Nat.le_refl _) (hinsert key value))⟩
    -- with the flag cleared no computation is on its way
    rw [(h.flag hflag).2] at hkey
    cases hkey
  | abandon index =>
    obtain ⟨key, hkey, rfl⟩ := map_eq_some_iff.mp hstep
    refine ⟨fun hflag => ?_, h.syncs⟩
    rw [(h.flag hflag).2] at hkey
    cases hkey
  | commit key value =>
    obtain ⟨hkey, heq⟩ := ite_none_right_eq_some.mp hstep
    cases heq
    refine ⟨fun hflag => ?_, fun σ hσ => (h.syncs σ hσ).imp_right
      (·.mono (Nat.le_refl _) (hinsert key value))⟩
    rw [AList.mem_keys, (h.flag hflag).1] at hkey
    cases hkey
  | sync =>
    cases hstep
    refine ⟨h.flag, fun σ hσ => ?_⟩
    rcases mem_append.mp hσ with hσ | hσ
    · exact h.syncs σ hσ
    · obtain rfl := mem_singleton.mp hσ
      refine ⟨Nat.le_refl _, ?_⟩
      -- a call that skips the check began without keys
      cases hflag : s.flag with
      | false => exact (h.flag hflag).1
      | true => exact Subset.refl _
  | list i =>
    obtain ⟨⟨start, known, stage⟩, hi, hstep⟩ := bind_eq_some_iff.mp hstep
    cases stage <;> cases hstep
    have hknown : known ⊆ s.graph.keys := (h.syncs _ (mem_of_getElem? hi)).2
    refine h.setStage hi h.flag ?_
    split
    · next hempty =>
      rw [hempty] at hknown
      exact subset_nil.mp hknown
    · refine ⟨hknown, ?_, fun e he hne => ?_⟩
      · rw [List.map_map]
        exact List.map_id _
      · obtain ⟨entry, -, rfl⟩ := mem_map.mp he
        exact absurd rfl hne
  | check i index =>
    obtain ⟨⟨start, known, stage⟩, hi, hstep⟩ := bind_eq_some_iff.mp hstep
    cases stage with
    | checking listed entries =>
      obtain ⟨e, he, hstep⟩ := bind_eq_some_iff.mp hstep
      obtain ⟨-, heq⟩ := ite_none_left_eq_some.mp hstep
      cases heq
      obtain ⟨hstart, hknown, hlisted, hentries⟩ := h.syncs _ (mem_of_getElem? hi)
      refine h.setStage hi nofun ⟨hknown, ?_, fun e' he' hne => ?_⟩
      -- what was listed stays, and the key that is checked now reads its file now
      · have hsame : (entries.map Entry.listed).set index e.listed = entries.map Entry.listed := by
          obtain ⟨hindex, rfl⟩ := List.getElem?_eq_some_iff.mp he
          rw [← map_set, set_getElem_self]
        rw [map_set]
        exact hsame.trans hlisted
      · rcases mem_or_eq_of_mem_set he' with hmem | rfl
        · exact hentries e' hmem hne
        · exact ⟨s.now, hstart, Nat.le_refl _, rfl⟩
    | seen | foundNone | finished | skipped => cases hstep
  | finish i =>
    obtain ⟨⟨start, known, stage⟩, hi, hstep⟩ := bind_eq_some_iff.mp hstep
    cases stage with
    | checking listed entries =>
      obtain ⟨hall, heq⟩ := ite_none_right_eq_some.mp hstep
      cases heq
      obtain ⟨-, hknown, hlisted, hentries⟩ := h.syncs _ (mem_of_getElem? hi)
      refine h.setStage hi h.flag ⟨hknown, fun e he => ?_⟩
      rw [← hlisted] at he
      obtain ⟨entry, hentry, rfl⟩ := mem_map.mp he
      have hdirty := isSome_iff_ne_none.mp (all_eq_true.mp hall entry hentry)
      exact (hentries entry hentry hdirty).noticed hentry
    | seen | foundNone | finished | skipped => cases hstep
  | clear i =>
    obtain ⟨⟨start, known, stage⟩, hi, hstep⟩ := bind_eq_some_iff.mp hstep
    cases stage <;> cases hstep
    exact h.setStage hi (fun _ => hcalm) (h.syncs _ (mem_of_getElem? hi)).2

end Checked

/-- **Known keys are checked.** If the flag is cleared only while no key is in the graph or on its
way there, a call that began with keys in the graph lists all of them and looks at the file of each;
a file that is not as the graph has it is recorded as changed. -/
theorem known_keys_checked [DecidableEq K] [DecidableEq V] (files : Nat → K → Option V)
    (s : State K V) (h : Reach (step files) Calm .new s) (σ : Sync K V) (hσ : σ ∈ s.syncs)
    (hknown : σ.known ≠ []) (hover : σ.stage.isOver) : ∃ listed changed changedTo,
      σ.stage = .finished listed changed changedTo ∧ σ.known ⊆ listed.keys ∧
      ∀ key old, listed.lookup key = some old →
        Noticed files σ.start s.now changed changedTo key old := by
  have hinv : Inv files s := h.invariant (fun _ _ _ hs hl => hs.step hl)
    ⟨fun _ => ⟨rfl, rfl⟩, nofun⟩
  obtain ⟨start, known, stage⟩ := σ
  obtain ⟨-, hstage⟩ := hinv.syncs _ hσ
  cases stage with
  | finished listed changed changedTo =>
    exact ⟨listed, changed, changedTo, rfl, hstage.1, fun key old hkey =>
      hstage.2 _ (AList.mem_lookup_iff.mp hkey)⟩
  | seen | foundNone | checking => cases hover
  | skipped => exact absurd hstage hknown

instance (s : State K V) (l : Label K V) : Decidable (Calm s l) := by
  unfold Calm
  split <;> infer_instance

/-- A file that is another one at each time. -/
def clock : Nat → Nat → Option Nat := fun t _ => some t

/-- One computation is over before the next call begins and another one was cancelled: the call
records that the file has changed. -/
theorem known_keys_checked_later : ∃ s, Reach (step clock) Calm .new s ∧ ∃ σ ∈ s.syncs,
    σ.known = [7] ∧ ∃ listed changed changedTo, σ.stage = .finished listed changed changedTo ∧
      σ.known ⊆ listed.keys ∧ ∀ key old, listed.lookup key = some old →
        Noticed clock σ.start s.now changed changedTo key old := by
  have hreach : Reach (step clock) Calm .new _ := reach_of_run [.compute 7, .insert 0 (some 0),
    .compute 8, .abandon 0, .tick, .sync, .list 0, .check 0 0, .finish 0] rfl
  exact ⟨_, hreach, _, mem_singleton.mpr rfl, rfl,
    known_keys_checked clock _ hreach _ (mem_singleton.mpr rfl) nofun rfl⟩

/-- A key is inserted between the listing and the clearing of the flag.  Its file changes, and the
next check does not look at it. -/
theorem key_never_checked : ∃ s, Reach (step clock) (fun _ _ => True) .new s ∧
    s.graph.lookup 7 = some (some 0) ∧ checkDirect (some 0) (clock s.now 7) = .withValue 1 ∧
    ⟨1, [7], .skipped⟩ ∈ s.syncs :=
  ⟨_, reach_of_run [.compute 7, .sync, .list 0, .insert 0 (some 0), .clear 0, .tick, .sync] rfl,
    rfl, rfl, .tail _ (.head _)⟩

end Bz.ExternalState
