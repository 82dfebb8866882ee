import Bz.FileWatcher.Notify

/-!
# Changes reach DICE

The buffer of the notify watcher is taken before it is known that the command commits, an error of a
callback is handed to the next command and forgotten, and a request for a rescan counts only if the
event names a path that is watched (`events_lost`).

Principal result: `changes_reach_dice`, for every run without these three.
-/

namespace Bz.FileWatcher

open Machine FileChangeTracker List

variable {P : Type} {project : Project P} {marked marked' : FileStateKey → Prop}

/-! ## What a commit owes -/

/-- The keys of every path that the event names are among those marked by `marked`. -/
def Event.CoveredBy (project : Project P) (event : Event P) (marked : FileStateKey → Prop) : Prop :=
  ∀ p, event.Names project p →
    (event.kind.isReported = true → marked (.pathMetadata p)) ∧
    (event.kind.changesEntry = true → ∀ dir, p.parent = some dir → marked (.readDir dir))

/-- The callback was no error and asked for no rescan, and its keys are marked. -/
def Accounted (project : Project P) (marked : FileStateKey → Prop) (callback : Callback P) : Prop :=
  ∃ event, callback = .ok event ∧ event.needRescan = false ∧ event.CoveredBy project marked

theorem Accounted.mono {callback : Callback P} (h : Accounted project marked callback)
    (hsub : ∀ k, marked k → marked' k) : Accounted project marked' callback := by
  obtain ⟨event, rfl, hr, hc⟩ := h
  exact ⟨event, rfl, hr, fun p hp => ⟨fun hk => hsub _ ((hc p hp).1 hk),
    fun hk dir hdir => hsub _ ((hc p hp).2 hk dir hdir)⟩⟩

namespace Watcher

/-- The key is marked changed by the command, or by a commit after the `i`-th happening. -/
def Marked (s : Watcher P) (c : Command) (i : Nat) (key : FileStateKey) : Prop :=
  key ∈ c.changed ∨ ∃ j changed, i < j ∧ s.log[j]? = some (.committed changed) ∧ key ∈ changed

/-- DICE was emptied at or after the sync of the last committed command. -/
def EmptiedSince (s : Watcher P) : Prop := ∃ i, s.committedSync ≤ i ∧ s.log[i]? = some .emptied

/-- DICE was emptied, or every callback between the syncs of the last committed command and of this
one is accounted for. -/
def CommitOwes (project : Project P) (s : Watcher P) (c : Command) : Prop :=
  s.EmptiedSince ∨ ∀ i callback, s.committedSync ≤ i → i < c.syncedAt →
    s.log[i]? = some (.callback callback) → Accounted project (s.Marked c i) callback

/-- Callbacks are no errors and name paths of the project, requests for a rescan name a watched
path, and a command fails after its sync only if it has nothing to mark or emptied DICE. -/
def Delivers (project : Project P) (s : Watcher P) : Action P → Prop
  | .callback callback => ∃ event, callback = .ok event ∧
      (∀ raw ∈ event.paths, (project.relativize raw).isSome = true) ∧
      (event.needRescan = true → ∃ raw ∈ event.paths, ∃ p, project.Watches raw p)
  | .fail => ∀ c, s.command = some c → c.changed = [] ∨ s.log[c.syncedAt]? = some .emptied
  | _ => True

/-! ## The invariant -/

/-- A callback that the buffer has noted. -/
def Buffered (project : Project P) (d : NotifyFileData) (callback : Callback P) : Prop :=
  ∃ event, callback = .ok event ∧ (event.needRescan = true → d.missedEvents = true) ∧
    ∀ p, event.Names project p → ignoreEventKind event.kind = false → (p, event.kind) ∈ d.events

/-- The callbacks between two happenings are accounted for by these keys. -/
def AccountedBetween (project : Project P) (s : Watcher P) (lo hi : Nat)
    (changed : List FileStateKey) : Prop :=
  ∀ i callback, lo ≤ i → i < hi → s.log[i]? = some (.callback callback) →
    Accounted project (· ∈ changed) callback

/-- Callbacks since the buffer was taken are in it; those before are accounted for by the command
that took it, or there is nothing to account for. -/
structure Faithful (project : Project P) (s : Watcher P) : Prop where
  taken : s.takenAt ≤ s.log.length
  sync : s.committedSync ≤ s.log.length
  buffered : ∃ d, s.data = .ok d ∧ ∀ i callback, s.takenAt ≤ i →
    s.log[i]? = some (.callback callback) → Buffered project d callback
  idle : s.command = none → s.EmptiedSince ∨
    AccountedBetween project s s.committedSync s.takenAt []
  busy : ∀ c, s.command = some c → s.takenAt = c.syncedAt + 1 ∧
    (∀ callback, s.log[c.syncedAt]? ≠ some (.callback callback)) ∧
    s.committedSync ≤ c.syncedAt ∧
    (s.EmptiedSince ∨ AccountedBetween project s s.committedSync c.syncedAt c.changed)

theorem Faithful.new : Faithful project (Watcher.new : Watcher P) where
  taken := Nat.le_refl 0
  sync := Nat.le_refl 0
  buffered := ⟨.new, rfl, fun i callback _ h => by cases h⟩
  idle _ := .inr fun i callback _ h => by cases h
  busy c h := by cases h

variable {i : Nat} {h : Happening P} {d : NotifyFileData}

theorem getElem?_append_one {α : Type} {xs : List α} {x : α} {y : α} (h : (xs ++ [x])[i]? =
    some y) : xs[i]? = some y ∨ i = xs.length ∧ y = x := by
  rcases Nat.lt_trichotomy i xs.length with hlt | rfl | hgt
  · rw [getElem?_append_left hlt] at h
    exact .inl h
  · simp only [getElem?_concat_length, Option.some.injEq] at h
    exact .inr ⟨rfl, h.symm⟩
  · rw [getElem?_eq_none (by simp; omega)] at h
    cases h

theorem EmptiedSince.append {s s' : Watcher P} (hlog : s'.log = s.log ++ [h])
    (hsync : s'.committedSync = s.committedSync) (he : s.EmptiedSince) : s'.EmptiedSince := by
  obtain ⟨i, hi, hlogi⟩ := he
  obtain ⟨hlt, -⟩ := List.getElem?_eq_some_iff.mp hlogi
  exact ⟨i, hsync ▸ hi, by rwa [hlog, getElem?_append_left hlt]⟩

/-- A new happening at the end does not matter for what came before. -/
theorem AccountedBetween.append {s s' : Watcher P} {lo hi : Nat} {changed : List FileStateKey}
    (hlog : s'.log = s.log ++ [h]) (hhi : hi ≤ s.log.length)
    (ha : AccountedBetween project s lo hi changed) :
    AccountedBetween project s' lo hi changed := by
  intro i callback hlo hlt hc
  rw [hlog] at hc
  rcases getElem?_append_one hc with hc | ⟨rfl, -⟩
  · exact ha i callback hlo hlt hc
  · omega

/-- A buffered callback is accounted for by what the sync marks, unless events were missed. -/
theorem Buffered.accounted {callback : Callback P} (h : Buffered project d callback)
    (hm : d.missedEvents = false) :
    Accounted project (· ∈ (d.events.foldl FileChangeTracker.addEvent .new).writeToDice)
      callback := by
  obtain ⟨event, rfl, hr, hn⟩ := h
  refine ⟨event, rfl, ?_, fun p hp => ⟨fun hk => ?_, fun hk dir hdir => ?_⟩⟩
  · by_contra hneed
    rw [Bool.not_eq_false] at hneed
    rw [hr hneed] at hm
    cases hm
  · have hmem := hn p hp (ignoreEventKind_of_isReported hk)
    exact mem_append_right _ (mem_map_of_mem
      ((FileChangeTracker.extends_markModifiedDirs _).paths ((addEvents_spec .new p hmem).1 hk)))
  · have hmem := hn p hp (ignoreEventKind_of_isReported (EventKind.isReported_of_changesEntry hk))
    exact mem_append_left _ (mem_map_of_mem ((FileChangeTracker.extends_markModifiedDirs _).dirs
      (((addEvents_spec .new p hmem).2 hk).parent dir hdir)))

/-! ## Steps keep the invariant -/

namespace Faithful

variable {s s' : Watcher P} {c : Command}

theorem callback (h : Faithful project s) {callback : Callback P}
    (hd : s.Delivers project (.callback callback)) : Faithful project { s with
      data := receive project s.data callback, log := s.log ++ [.callback callback] } := by
  obtain ⟨event, rfl, hpaths, hrescan⟩ := hd
  obtain ⟨d, hdata, hbuf⟩ := h.buffered
  obtain ⟨d', hd'⟩ := NotifyFileData.processPaths_ok d hpaths
  obtain ⟨hext, hspec⟩ := NotifyFileData.processPaths_spec hd'
  have hnew : Buffered project d' (.ok event) := by
    refine ⟨event, rfl, fun hneed => ?_, fun p hp hk => ?_⟩
    · obtain ⟨raw, hraw, p, hw⟩ := hrescan hneed
      exact (hspec raw hraw p hw).1 hneed
    · obtain ⟨hign, raw, hraw, hw⟩ := hp
      exact (hspec raw hraw p hw).2 hign hk
  have htaken := h.taken
  refine ⟨by simp; omega, by simpa using Nat.le_succ_of_le h.sync, ⟨d', ?_, ?_⟩, fun hc => ?_,
    fun c hc => ?_⟩
  · simpa [receive, hdata, NotifyFileData.process] using hd'
  · intro i cb hi hcb
    rcases getElem?_append_one hcb with hcb | ⟨-, heq⟩
    · obtain ⟨event, rfl, hr, hn⟩ := hbuf i cb hi hcb
      exact ⟨event, rfl, fun hneed => hext.missedEvents (hr hneed),
        fun p hp hk => hext.events (hn p hp hk)⟩
    · cases heq
      exact hnew
  · exact (h.idle hc).imp (.append rfl rfl) (.append rfl h.taken)
  · obtain ⟨htake, hno, hle, hacc⟩ := h.busy c hc
    have hlt : c.syncedAt < s.log.length := by omega
    refine ⟨htake, fun cb hcb => ?_, hle, hacc.imp (.append rfl rfl) (.append rfl (by omega))⟩
    rcases getElem?_append_one hcb with hcb | ⟨heq, -⟩
    · exact hno cb hcb
    · omega

theorem sync2 (h : Faithful project s) (hc : s.command = none) : Faithful project s.sync2 := by
  obtain ⟨d, hdata, hbuf⟩ := h.buffered
  have hsync := h.sync
  -- the new buffer is empty, and the sync itself is no callback
  have hfresh : ∀ (x : Happening P) i callback, s.log.length + 1 ≤ i →
      (s.log ++ [x])[i]? = some (.callback callback) → Buffered project .new callback := by
    intro x i callback hi hx
    rw [getElem?_eq_none (by simpa using hi)] at hx
    cases hx
  have hself : ∀ (x : Happening P), (s.log ++ [x])[s.log.length]? = some x :=
    fun x => getElem?_concat_length
  unfold Watcher.sync2 NotifyFileData.sync
  rw [hdata]
  dsimp only
  by_cases hm : d.missedEvents = true
  · rw [if_pos hm]
    refine ⟨by simp, by simp; omega, ⟨.new, rfl, hfresh _⟩, nofun, fun c heq => ?_⟩
    cases heq
    refine ⟨rfl, fun callback hcb => ?_, hsync, .inl ⟨s.log.length, hsync, hself _⟩⟩
    rw [hself] at hcb
    cases hcb
  · rw [if_neg hm]
    rw [Bool.not_eq_true] at hm
    refine ⟨by simp, by simp; omega, ⟨.new, rfl, hfresh _⟩, nofun, fun c heq => ?_⟩
    cases heq
    refine ⟨rfl, fun callback hcb => ?_, hsync, ?_⟩
    · rw [hself] at hcb
      cases hcb
    · refine (h.idle hc).imp (.append rfl rfl) fun hidle i callback hlo hlt hcb => ?_
      rcases getElem?_append_one hcb with hcb | ⟨heq, -⟩
      · by_cases hi : i < s.takenAt
        · exact (hidle i callback hlo hi hcb).mono fun k hk => absurd hk not_mem_nil
        · exact (hbuf i callback (by omega) hcb).accounted hm
      · exact absurd heq (Nat.ne_of_lt hlt)

theorem fail (h : Faithful project s) (hc : s.command = some c) (hd : s.Delivers project .fail) :
    Faithful project { s with command := none, log := s.log ++ [.failed] } := by
  obtain ⟨htake, hno, hle, hacc⟩ := h.busy c hc
  obtain ⟨d, hdata, hbuf⟩ := h.buffered
  have htaken := h.taken
  have hsync := h.sync
  refine ⟨by simp; omega, by simp; omega, ⟨d, hdata, fun i cb hi hcb => ?_⟩, fun _ => ?_, nofun⟩
  · rcases getElem?_append_one hcb with hcb | ⟨-, heq⟩
    · exact hbuf i cb hi hcb
    · cases heq
  · have hemptied : s.log[c.syncedAt]? = some .emptied → s.EmptiedSince := fun he => ⟨_, hle, he⟩
    rcases hacc with he | hacc
    · exact .inl (he.append rfl rfl)
    · rcases hd c hc with hnil | he
      · right
        rw [hnil] at hacc
        have hall : AccountedBetween project s s.committedSync s.takenAt [] := by
          intro i cb hlo hlt hcb
          rcases Nat.lt_or_ge i c.syncedAt with hi | hi
          · exact hacc i cb hlo hi hcb
          · obtain rfl : i = c.syncedAt := by omega
            exact absurd hcb (hno cb)
        exact hall.append rfl h.taken
      · exact .inl ((hemptied he).append rfl rfl)

theorem commit (h : Faithful project s) (hc : s.command = some c) : Faithful project { s with
      command := none, log := s.log ++ [.committed c.changed], committedSync := c.syncedAt } := by
  obtain ⟨htake, hno, hle, hacc⟩ := h.busy c hc
  obtain ⟨d, hdata, hbuf⟩ := h.buffered
  have htaken := h.taken
  refine ⟨by simp; omega, by simp; omega, ⟨d, hdata, fun i cb hi hcb => ?_⟩, fun _ => ?_, nofun⟩
  · rcases getElem?_append_one hcb with hcb | ⟨-, heq⟩
    · exact hbuf i cb hi hcb
    · cases heq
  · right
    intro i cb hlo hlt hcb
    dsimp only at hlo hlt
    obtain rfl : i = c.syncedAt := by omega
    rcases getElem?_append_one hcb with hcb | ⟨heq, -⟩
    · exact absurd hcb (hno cb)
    · omega

theorem step (h : Faithful project s) {a : Action P} (hd : s.Delivers project a)
    (hs : s.step project a = some s') : Faithful project s' := by
  cases a with
  | callback cb =>
    cases hs
    exact h.callback hd
  | sync =>
    cases hc : s.command with
    | none =>
      simp only [Watcher.step, hc, Option.some.injEq] at hs
      exact hs ▸ h.sync2 hc
    | some c => simp [Watcher.step, hc] at hs
  | fail =>
    cases hc : s.command with
    | none => simp [Watcher.step, hc] at hs
    | some c =>
      simp only [Watcher.step, hc, Option.some.injEq] at hs
      exact hs ▸ h.fail hc hd
  | commit =>
    cases hc : s.command with
    | none => simp [Watcher.step, hc] at hs
    | some c =>
      simp only [Watcher.step, hc, Option.some.injEq] at hs
      exact hs ▸ h.commit hc

end Faithful

/-- **Every change reaches DICE.** In every run in which callbacks are no errors, requests for a
rescan name a watched path and no command fails with changes to mark, every commit marks what was
reported since the sync of the last committed command, or DICE was emptied. -/
theorem changes_reach_dice (project : Project P) {s : Watcher P}
    (h : Reach (Watcher.step project) (Watcher.Delivers project) Watcher.new s) {c : Command}
    (hc : s.command = some c) : s.CommitOwes project c := by
  have hf : Faithful project s := h.invariant (fun _ _ _ hi hd hs => hi.step hd hs) .new
  refine (hf.busy c hc).2.2.2.imp id fun hacc i callback hlo hlt hcb => ?_
  exact (hacc i callback hlo hlt hcb).mono fun k hk => .inl hk

/-- One cell, in which nothing is ignored. -/
def oneCell : Project (List String) where
  relativize := some
  getCellPath path := ⟨"root", path⟩
  isBzlmodExternalCellPath _ := false
  isIgnored _ := false

def created (path : List String) : Callback (List String) := .ok ⟨.create .file, false, [path]⟩

/-- A file is created and a command syncs: its commit marks the file and its directory. -/
theorem changes_reach_dice_created : ∃ s : Watcher (List String),
    Reach (Watcher.step oneCell) (Watcher.Delivers oneCell) Watcher.new s ∧
    s.command = some ⟨1, [.readDir ⟨"root", ["pkg"]⟩, .pathMetadata ⟨"root", ["pkg", "file"]⟩]⟩ ∧
    s.CommitOwes oneCell
      ⟨1, [.readDir ⟨"root", ["pkg"]⟩, .pathMetadata ⟨"root", ["pkg", "file"]⟩]⟩ := by
  obtain ⟨s1, s2, hs1, hs2, hc⟩ : ∃ s1 s2 : Watcher (List String),
      Watcher.new.step oneCell (.callback (created ["pkg", "file"])) = some s1 ∧
      s1.step oneCell .sync = some s2 ∧ s2.command =
        some ⟨1, [.readDir ⟨"root", ["pkg"]⟩, .pathMetadata ⟨"root", ["pkg", "file"]⟩]⟩ :=
    ⟨_, _, rfl, rfl, rfl⟩
  have hreach : Reach (Watcher.step oneCell) (Watcher.Delivers oneCell) Watcher.new s2 :=
    (Reach.refl.tail ⟨_, rfl, fun _ _ => rfl, nofun⟩ hs1).tail (l := .sync) trivial hs2
  exact ⟨s2, hreach, hc, changes_reach_dice oneCell hreach hc⟩

/-- A request for a rescan that names no path; an event whose command fails after its sync; an error
that fails the next command.  In each case a later command commits as if nothing had happened. -/
theorem events_lost :
    (∃ s : Watcher (List String), Reach (Watcher.step oneCell) (fun _ _ => True) .new s ∧
      s.log = [.callback (.ok ⟨.other, true, []⟩), .synced] ∧
      s.command = some ⟨1, []⟩ ∧ ¬ s.CommitOwes oneCell ⟨1, []⟩) ∧
    (∃ s : Watcher (List String), Reach (Watcher.step oneCell) (fun _ _ => True) .new s ∧
      s.log = [.callback (created ["pkg", "file"]), .synced, .failed, .synced] ∧
      s.command = some ⟨3, []⟩ ∧ ¬ s.CommitOwes oneCell ⟨3, []⟩) ∧
    ∃ s : Watcher (List String), Reach (Watcher.step oneCell) (fun _ _ => True) .new s ∧
      s.log = [.callback (.error .notify), .failed, .synced] ∧
      s.command = some ⟨2, []⟩ ∧ ¬ s.CommitOwes oneCell ⟨2, []⟩ := by
  refine ⟨?_, ?_, ?_⟩
  · refine ⟨_, reach_of_run [.callback (.ok ⟨.other, true, []⟩), .sync] rfl, rfl, rfl, ?_⟩
    rintro (⟨i, -, hi⟩ | hacc)
    · rcases i with _ | _ | i <;> cases hi
    · obtain ⟨event, heq, hr, -⟩ := hacc 0 _ (Nat.le_refl 0) (by decide) rfl
      cases heq
      cases hr
  · refine ⟨_, reach_of_run [.callback (created ["pkg", "file"]), .sync, .fail, .sync] rfl, rfl,
      rfl, fun hok => ?_⟩
    rcases hok with ⟨i, -, hi⟩ | hacc
    · rcases i with _ | _ | _ | _ | i <;> cases hi
    · obtain ⟨event, heq, -, hcov⟩ := hacc 0 _ (Nat.le_refl 0) (by decide) rfl
      cases heq
      have hnames : Event.Names oneCell ⟨.create .file, false, [["pkg", "file"]]⟩
          ⟨"root", ["pkg", "file"]⟩ :=
        ⟨rfl, _, mem_singleton_self _, ["pkg", "file"], rfl, by decide, rfl, rfl⟩
      rcases (hcov _ hnames).1 rfl with hmem | ⟨j, changed, -, hj, -⟩
      · cases hmem
      · rcases j with _ | _ | _ | _ | j <;> cases hj
  · refine ⟨_, reach_of_run [.callback (.error .notify), .sync, .sync] rfl, rfl, rfl, fun hok => ?_⟩
    rcases hok with ⟨i, -, hi⟩ | hacc
    · rcases i with _ | _ | _ | i <;> cases hi
    · obtain ⟨event, heq, -⟩ := hacc 0 _ (Nat.le_refl 0) (by decide) rfl
      cases heq

end Watcher

end Bz.FileWatcher
