import Bz.BuckOut.Labels

/-!
# Where outputs are

`BaseDeferredKey::make_hashed_path` (`bz_core/src/deferred/base_deferred_key.rs`) and
`BuckOutPathResolver::resolve_gen` (`bz_core/src/fs/buck_out_path.rs`).

The path of an output names the cell, the configurations, the package, the target and the action.
An equals sign in the name of a target is written as `_eqsb_`, which no name contains.  This does
not make the written names different: the underscores of two occurrences may be shared
(`resolveGen_shared`).

Principal results: `escapeTargetName_inj` and `exists_escape_eq`, which names are written alike;
`resolveGen_inj`, exactly then the outputs of two targets are at one path.
-/

namespace Bz.BuckOut

open Encoding ForwardRelativePath List

/-! ## Definitions -/

def escapeTargetName (name : Text) : Text :=
  if '=' ∈ name then name.flatMap fun c => if c = '=' then eqSignSubst else [c] else name

variable {C : Type} (outputHash : C → ConfigurationHash)
  {c : Char} {name r : Text} {name' : Text}

/-- The output hashes of the configurations of a label. -/
def configurationText (label : ConfiguredTargetLabel C) : Text :=
  (outputHash label.cfg).text ++
    label.execCfg.elim [] fun cfg => '-' :: (outputHash cfg).text

/-- The parts of `path_identifier` that name the package, the target and the action. -/
def targetParts (target : ConfiguredTargetLabel C) (actionKey : Option Text) : List Text :=
  [target.package.asStr,
    if target.package.asStr = [] then [] else ['/'],
    "__".toList,
    escapeTargetName target.name,
    "__".toList,
    ['/'],
    if actionKey = none then [] else "__action__".toList,
    actionKey.getD [],
    if actionKey = none then [] else "__/".toList]

def pathIdentifier (target : ConfiguredTargetLabel C) (actionKey : Option Text)
    (path : ForwardRelativePath) (pathResolutionMethod : BuckOutPathKind)
    (contentHash : Option Text) : Except PathResolutionError (List Text) :=
  match pathResolutionMethod with
  | .configuration => .ok ([(outputHash target.cfg).text,
      if target.execCfg.isSome then ['-'] else [],
      target.execCfg.elim [] fun cfg => (outputHash cfg).text,
      ['/']] ++ targetParts target actionKey)
  | .contentHash => match contentHash with
    | some contentHash => .ok (targetParts target actionKey ++ [contentHash, ['/'], [], []])
    | none => .error (.contentBasedPathWithNoContentHash path)

/-- `BaseDeferredKey::make_hashed_path`; `hasher` gives the digits of a hash. -/
def makeHashedPath (hasher : List Text → Text) (self : BaseDeferredKey C) (base root : Text)
    (actionKey : Option Text) (path : ForwardRelativePath) (fullyHashPath : Bool)
    (pathResolutionMethod : BuckOutPathKind) (contentHash : Option Text) :
    Except PathResolutionError Text :=
  match self with
  | .targetLabel target =>
    match pathIdentifier outputHash target actionKey path pathResolutionMethod contentHash with
    | .error e => .error e
    | .ok identifier =>
      let pathOrHash := if fullyHashPath then hasher identifier ++ ['/'] else identifier.flatten
      .ok [base, ['/'], root, ['/'], target.cell.name, ['/'], pathOrHash, path.asStr].flatten
  | .dyn key => key.makeHashedPath base root actionKey path pathResolutionMethod contentHash

/-- `bazel_push_path_component`. -/
def pushPathComponent (path component : Text) : Text :=
  if component = [] then path
  else if path = [] then component
  else path ++ '/' :: component

def bazelLogicalPhysicalPath (path : BuildArtifactPath C) (label : ConfiguredTargetLabel C) :
    Text :=
  let result :=
    if path.bazelOutputPathKind = .packageRelative then
      let packagePath := label.package.asStr
      if packagePath ≠ [] ∧ path.path.asStr ≠ packagePath ∧
          Text.stripPrefix (packagePath ++ ['/']) path.path.asStr = none then
        pushPathComponent [] packagePath
      else []
    else []
  pushPathComponent result path.path.asStr

/-- The directory of all outputs. -/
structure BuckOutPathResolver where
  buckOut : Text

def bazelSharedPhysicalRoot (self : BuckOutPathResolver) (root : Text)
    (label : ConfiguredTargetLabel C) : Text :=
  [self.buckOut, root, label.cell.name,
    configurationText outputHash label].foldl pushPathComponent []

def bazelSharedPhysicalPath (self : BuckOutPathResolver) (root : Text)
    (path : BuildArtifactPath C) : Option Text :=
  if path.pathResolutionMethod ≠ .configuration then none
  else path.bazelOwner.map fun label =>
    pushPathComponent (bazelSharedPhysicalRoot outputHash self root label)
      (bazelLogicalPhysicalPath path label)

/-- `BuckOutPathResolver::resolve_gen`. -/
def resolveGen (hasher : List Text → Text) (self : BuckOutPathResolver) (path : BuildArtifactPath C)
    (contentHash : Option Text) : Except PathResolutionError Text :=
  match bazelSharedPhysicalPath outputHash self "art".toList path with
  | some path => .ok path
  | none => makeHashedPath outputHash hasher path.owner.owner self.buckOut "art".toList
      path.owner.actionKey path.path false path.pathResolutionMethod contentHash

/-! ## Escaped names -/

theorem escapeTargetName_eq : escapeTargetName name =
    name.flatMap fun c => if c = '=' then eqSignSubst else [c] := by
  unfold escapeTargetName
  split
  · rfl
  · next h =>
    symm
    induction name with
    | nil => rfl
    | cons c name ih =>
      obtain ⟨hc, hname⟩ := not_or.mp (mem_cons.not.mp h)
      rw [flatMap_cons, if_neg (Ne.symm hc), ih hname]
      rfl

theorem escape_eq_sign :
    escapeTargetName ('=' :: name) = '_' :: ("eqsb_".toList ++ escapeTargetName name) := by
  rw [escapeTargetName_eq, escapeTargetName_eq]
  rfl

theorem escape_cons (hc : c ≠ '=') : escapeTargetName (c :: name) = c :: escapeTargetName name := by
  rw [escapeTargetName_eq, escapeTargetName_eq, flatMap_cons, if_neg hc]
  rfl

/-- A written name that begins with something else than an underscore begins like the name. -/
theorem eq_cons_of_escape (hc : c ≠ '_') (h : escapeTargetName name = c :: r) :
    ∃ name', name = c :: name' ∧ escapeTargetName name' = r := by
  cases name with
  | nil => cases h
  | cons d name =>
    by_cases hd : d = '='
    · subst hd
      exact absurd (List.cons.inj h).1.symm hc
    · rw [escape_cons hd] at h
      obtain ⟨rfl, hr⟩ := List.cons.inj h
      exact ⟨name, rfl, hr⟩

theorem eq_cons_of_escape_underscore (h : escapeTargetName name = '_' :: r) :
    (∃ name', name = '_' :: name' ∧ escapeTargetName name' = r) ∨
      ∃ name', name = '=' :: name' ∧ r = "eqsb_".toList ++ escapeTargetName name' := by
  cases name with
  | nil => cases h
  | cons d name =>
    by_cases hd : d = '='
    · subst hd
      rw [escape_eq_sign] at h
      exact .inr ⟨name, rfl, (List.cons.inj h).2.symm⟩
    · rw [escape_cons hd] at h
      obtain ⟨rfl, hr⟩ := List.cons.inj h
      exact .inl ⟨name, rfl, hr⟩

/-- Where a written name goes on with `eqsb_`, the name has `eqsb` and one of the two signs. -/
theorem eq_of_escape_eqsb (h : escapeTargetName name = "eqsb_".toList ++ r) :
    (∃ name', name = "eqsb_".toList ++ name' ∧ escapeTargetName name' = r) ∨
      ∃ name', name = "eqsb=".toList ++ name' ∧ r = "eqsb_".toList ++ escapeTargetName name' := by
  have h0 : escapeTargetName name = 'e' :: 'q' :: 's' :: 'b' :: '_' :: r := h
  obtain ⟨n1, rfl, h1⟩ := eq_cons_of_escape (by decide) h0
  obtain ⟨n2, rfl, h2⟩ := eq_cons_of_escape (by decide) h1
  obtain ⟨n3, rfl, h3⟩ := eq_cons_of_escape (by decide) h2
  obtain ⟨n4, rfl, h4⟩ := eq_cons_of_escape (by decide) h3
  rcases eq_cons_of_escape_underscore h4 with ⟨n5, rfl, h5⟩ | ⟨n5, rfl, h5⟩
  · exact .inl ⟨n5, rfl, h5⟩
  · exact .inr ⟨n5, rfl, h5⟩

/-- An equals sign next to `eqsb`: it may share an underscore with the name. -/
def Overlaps (name : Text) : Prop :=
  "_eqsb=".toList <:+: name ∨ "=eqsb_".toList <:+: name ∨ "=eqsb=".toList <:+: name

instance (name : Text) : Decidable (Overlaps name) :=
  inferInstanceAs (Decidable (_ ∨ _ ∨ _))

theorem Overlaps.cons (c : Char) (h : Overlaps name) : Overlaps (c :: name) :=
  h.imp infix_cons (Or.imp infix_cons infix_cons)

theorem overlaps_of_escape_eq (hc : c ≠ '=') (hpattern : ¬ eqSignSubst <:+: c :: name')
    (h : escapeTargetName ('=' :: name) = escapeTargetName (c :: name')) :
    Overlaps ('=' :: name) ∧ Overlaps (c :: name') := by
  rw [escape_eq_sign, escape_cons hc] at h
  obtain ⟨rfl, htail⟩ := List.cons.inj h
  rcases eq_of_escape_eqsb htail.symm with ⟨n, rfl, -⟩ | ⟨n, rfl, hrest⟩
  · exact absurd ⟨[], n, rfl⟩ hpattern
  · refine ⟨?_, .inl ⟨[], n, rfl⟩⟩
    rcases eq_of_escape_eqsb hrest with ⟨m, rfl, -⟩ | ⟨m, rfl, -⟩
    · exact .inr (.inl ⟨[], m, rfl⟩)
    · exact .inr (.inr ⟨[], m, rfl⟩)

/-- **Names are written differently**, unless both have an equals sign next to `eqsb`. -/
theorem escapeTargetName_inj (hname : ¬ eqSignSubst <:+: name)
    (hname' : ¬ eqSignSubst <:+: name') (hoverlap : ¬ (Overlaps name ∧ Overlaps name'))
    (h : escapeTargetName name = escapeTargetName name') : name = name' := by
  induction name generalizing name' with
  | nil =>
    cases name' with
    | nil => rfl
    | cons d name' =>
      by_cases hd : d = '='
      · subst hd
        cases h
      · rw [escape_cons hd] at h
        cases h
  | cons c name ih =>
    cases name' with
    | nil =>
      by_cases hc : c = '='
      · subst hc
        cases h
      · rw [escape_cons hc] at h
        cases h
    | cons d name' =>
      have htail (htail : escapeTargetName name = escapeTargetName name') : name = name' :=
        ih (fun hn => hname (infix_cons hn)) (fun hn => hname' (infix_cons hn))
          (fun ho => hoverlap ⟨ho.1.cons c, ho.2.cons d⟩) htail
      by_cases hc : c = '=' <;> by_cases hd : d = '='
      · subst hc hd
        rw [escape_eq_sign, escape_eq_sign] at h
        rw [htail (append_cancel_left (List.cons.inj h).2)]
      · subst hc
        exact absurd (overlaps_of_escape_eq hd hname' h) hoverlap
      · subst hd
        exact absurd (overlaps_of_escape_eq hc hname h.symm).symm hoverlap
      · rw [escape_cons hc, escape_cons hd] at h
        obtain ⟨rfl, hescape⟩ := List.cons.inj h
        rw [htail hescape]

/-! ### Names that are written like another one -/

/-- A name written like the text: `_eqsb_` is read as `=`, from the left. -/
def decode : Text → Text
  | '_' :: 'e' :: 'q' :: 's' :: 'b' :: '_' :: text => '=' :: decode text
  | c :: text => c :: decode text
  | [] => []

theorem escape_decode {text : Text} (h : '=' ∉ text) : escapeTargetName (decode text) = text := by
  fun_induction decode text with
  | case1 text ih =>
    rw [escape_eq_sign, ih fun hmem => h (by simp [hmem])]
    rfl
  | case2 c text _ ih =>
    obtain ⟨hc, htext⟩ := not_or.mp (mem_cons.not.mp h)
    rw [escape_cons (Ne.symm hc), ih htext]
  | case3 => rfl

theorem eq_sign_notMem_escape (name : Text) : '=' ∉ escapeTargetName name := by
  rw [escapeTargetName_eq]
  intro hmem
  obtain ⟨c, -, hmem⟩ := mem_flatMap.mp hmem
  split at hmem
  · exact absurd hmem (by decide)
  · next hc => exact hc (mem_singleton.mp hmem).symm

/-- A name that goes on with `eqsb_` or `eqsb=` is written with `eqsb_`. -/
theorem escape_eqsb (h : "eqsb_".toList <+: name ∨ "eqsb=".toList <+: name) :
    "eqsb_".toList <+: escapeTargetName name := by
  obtain ⟨n, rfl⟩ | ⟨n, rfl⟩ := h
  · exact ⟨escapeTargetName n, by simp [escapeTargetName_eq]⟩
  · exact ⟨"eqsb_".toList ++ escapeTargetName n, by simp [escapeTargetName_eq, eqSignSubst]⟩

/-- A character in front of a name, where the text has no `_eqsb_`. -/
theorem not_infix_cons {text : Text} (htext : ∀ t, c :: text = eqSignSubst ++ t → False)
    (hescape : escapeTargetName name = text) (h : ¬ eqSignSubst <:+: name) :
    ¬ eqSignSubst <:+: c :: name := by
  intro hinfix
  rcases infix_cons_iff.mp hinfix with ⟨t, ht⟩ | hinfix
  · obtain ⟨rfl, hname⟩ := List.cons.inj ht
    obtain ⟨r, hr⟩ := escape_eqsb (.inl ⟨t, hname⟩)
    exact htext r (by rw [← hescape, ← hr]; rfl)
  · exact h hinfix

theorem not_infix_decode {text : Text} (h : '=' ∉ text) : ¬ eqSignSubst <:+: decode text := by
  fun_induction decode text with
  | case1 text ih =>
    intro hinfix
    rcases infix_cons_iff.mp hinfix with ⟨t, ht⟩ | hinfix
    · cases (List.cons.inj ht).1
    · exact ih (fun hmem => h (by simp [hmem])) hinfix
  | case2 c text hne ih =>
    have htext := (not_or.mp (mem_cons.not.mp h)).2
    exact not_infix_cons (fun t ht => by cases ht; exact hne t rfl rfl) (escape_decode htext)
      (ih htext)
  | case3 => decide

theorem overlaps_cons : Overlaps (c :: name) ↔ c = '_' ∧ "eqsb=".toList <+: name ∨
    c = '=' ∧ ("eqsb_".toList <+: name ∨ "eqsb=".toList <+: name) ∨ Overlaps name := by
  simp only [Overlaps, infix_cons_iff]
  simp [cons_prefix_cons]
  tauto

/-- **Where occurrences of `_eqsb_` share an underscore**, there is another name that is written
like the one that is read from the left. -/
theorem exists_ne_decode {text : Text} (h : '=' ∉ text) (hoverlap : Overlaps (decode text)) :
    ∃ name, name ≠ decode text ∧ escapeTargetName name = text ∧ ¬ eqSignSubst <:+: name := by
  fun_induction decode text with
  | case1 text ih =>
    have htext : '=' ∉ text := fun hmem => h (by simp [hmem])
    by_cases hnext : "eqsb_".toList <+: text
    · -- the second occurrence is read as the equals sign
      obtain ⟨r, rfl⟩ := hnext
      have hr : '=' ∉ r := fun hmem => htext (by simp [hmem])
      refine ⟨"_eqsb=".toList ++ decode r, by simp, ?_, ?_⟩
      · have hescape := escape_decode hr
        rw [escapeTargetName_eq] at hescape
        rw [escapeTargetName_eq, flatMap_append, hescape]
        rfl
      · have hname := not_infix_decode hr
        simpa [infix_cons_iff, cons_prefix_cons, eqSignSubst] using hname
    · have hdecode : ¬ ("eqsb_".toList <+: decode text ∨ "eqsb=".toList <+: decode text) :=
        fun hpre => hnext (escape_decode htext ▸ escape_eqsb hpre)
      have hoverlap' : Overlaps (decode text) := by
        rcases overlaps_cons.mp hoverlap with ⟨hc, -⟩ | ⟨-, hpre⟩ | hoverlap
        · cases hc
        · exact absurd hpre hdecode
        · exact hoverlap
      obtain ⟨name, hne, hescape, hname⟩ := ih htext hoverlap'
      refine ⟨'=' :: name, by simpa using hne, ?_, ?_⟩
      · rw [escape_eq_sign, hescape]
        rfl
      · intro hinfix
        rcases infix_cons_iff.mp hinfix with ⟨t, ht⟩ | hinfix
        · cases (List.cons.inj ht).1
        · exact hname hinfix
  | case2 c text hne ih =>
    obtain ⟨hc, htext⟩ := not_or.mp (mem_cons.not.mp h)
    have hne' (t : Text) (ht : c :: text = eqSignSubst ++ t) : False := by
      cases ht
      exact hne t rfl rfl
    have hoverlap' : Overlaps (decode text) := by
      rcases overlaps_cons.mp hoverlap with ⟨rfl, hpre⟩ | ⟨rfl, -⟩ | hoverlap
      · obtain ⟨r, hr⟩ := escape_decode htext ▸ escape_eqsb (.inr hpre)
        exact (hne' r (by rw [← hr]; rfl)).elim
      · exact absurd rfl hc
      · exact hoverlap
    obtain ⟨name, hne, hescape, hname⟩ := ih htext hoverlap'
    exact ⟨c :: name, by simpa using hne, by rw [escape_cons (Ne.symm hc), hescape],
      not_infix_cons hne' hescape hname⟩
  | case3 => exact absurd hoverlap (by decide)

theorem mem_escape (hc : c ∉ '=' :: eqSignSubst) : c ∈ escapeTargetName name ↔ c ∈ name := by
  rw [escapeTargetName_eq, mem_flatMap]
  constructor
  · rintro ⟨d, hd, hmem⟩
    split at hmem
    · exact absurd (mem_cons_of_mem '=' hmem) hc
    · exact mem_singleton.mp hmem ▸ hd
  · intro hmem
    refine ⟨c, hmem, ?_⟩
    rw [if_neg (by rintro rfl; exact hc (by decide))]
    exact mem_singleton_self c

/-- **A name with an equals sign next to `eqsb`** is written like another name. -/
theorem exists_escape_eq {softErrors : Bool} (hname : TargetName.verify softErrors name = .ok ())
    (hoverlap : Overlaps name) : ∃ name', name' ≠ name ∧
      escapeTargetName name' = escapeTargetName name ∧
      TargetName.verify softErrors name' = .ok () ∧ ('/' ∉ name → '/' ∉ name') := by
  obtain ⟨name', hne, hescape, hpattern⟩ : ∃ name', name' ≠ name ∧
      escapeTargetName name' = escapeTargetName name ∧ ¬ eqSignSubst <:+: name' := by
    have h := eq_sign_notMem_escape name
    by_cases hleft : decode (escapeTargetName name) = name
    · obtain ⟨name', hne, hescape, hpattern⟩ := exists_ne_decode h (by rwa [hleft])
      exact ⟨name', by rwa [hleft] at hne, hescape, hpattern⟩
    · exact ⟨_, hleft, escape_decode h, not_infix_decode h⟩
  have hmem {c : Char} (hc : c ∉ '=' :: eqSignSubst) : c ∈ name' ↔ c ∈ name := by
    rw [← mem_escape hc, hescape, mem_escape hc]
  have he : 'e' ∈ escapeTargetName name := by
    obtain ⟨s, t, rfl⟩ | ⟨s, t, rfl⟩ | ⟨s, t, rfl⟩ := hoverlap <;> simp [escapeTargetName_eq]
  obtain ⟨-, hchars, -, -, hcomma, hdollar⟩ := TargetName.verify_eq_ok.mp hname
  refine ⟨name', hne, hescape, TargetName.verify_eq_ok.mpr ⟨?_, fun c hc => ?_, hpattern, ?_, ?_,
    ?_⟩, fun h => (hmem (by decide)).not.mpr h⟩
  · rintro rfl
    exact absurd (hescape ▸ he) (by decide)
  · by_cases hsubst : c ∈ '=' :: eqSignSubst
    · obtain rfl | rfl | rfl | rfl | rfl | rfl | rfl :
          c = '=' ∨ c = '_' ∨ c = 'e' ∨ c = 'q' ∨ c = 's' ∨ c = 'b' ∨ c = '_' := by
        simpa [eqSignSubst] using hsubst
      all_goals rfl
    · exact hchars c ((hmem hsubst).mp hc)
  · rintro rfl
    exact absurd (hescape ▸ he) (by decide)
  · rwa [hmem (by decide)]
  · rwa [hmem (by decide)]

/-! ## Paths -/

theorem not_mem_hash (hc : isHexDigit c = false) (hash : ConfigurationHash) :
    c ∉ hash.text := fun hmem => by
  have := hash.hex c hmem
  rw [hc] at this
  cases this

variable {outputHash}

theorem slash_notMem_configurationText (label : ConfiguredTargetLabel C) :
    '/' ∉ configurationText outputHash label := by
  intro hmem
  rcases mem_append.mp hmem with hmem | hmem
  · exact not_mem_hash (by decide) _ hmem
  · cases hexec : label.execCfg with
    | none => simp [hexec] at hmem
    | some cfg =>
      rw [hexec] at hmem
      rcases mem_cons.mp hmem with hmem | hmem
      · cases hmem
      · exact not_mem_hash (by decide) _ hmem

/-- The hashes have one width, so they are read back. -/
theorem configurationText_inj (hash_inj : ∀ c c', (outputHash c).text = (outputHash c').text → c =
    c') {t u : ConfiguredTargetLabel C}
    (h : configurationText outputHash t = configurationText outputHash u) :
    t.cfg = u.cfg ∧ t.execCfg = u.execCfg := by
  obtain ⟨hcfg, hexec⟩ := append_inj h ((outputHash t.cfg).length.trans
    (outputHash u.cfg).length.symm)
  refine ⟨hash_inj _ _ hcfg, ?_⟩
  cases ht : t.execCfg with
  | none =>
    cases hu : u.execCfg with
    | none => rfl
    | some c => simp [ht, hu] at hexec
  | some c =>
    cases hu : u.execCfg with
    | none => simp [ht, hu] at hexec
    | some c' =>
      rw [ht, hu] at hexec
      rw [hash_inj _ _ (List.cons.inj hexec).2]

theorem package_flatMap (p : ForwardRelativePath) :
    p.asStr ++ (if p.asStr = [] then [] else ['/']) = p.components.flatMap (· ++ ['/']) := by
  by_cases h : p.components = []
  · rw [if_pos (asStr_eq_nil.mpr h), asStr_eq_nil.mpr h, h]
    rfl
  · rw [if_neg fun hnil => h (asStr_eq_nil.mp hnil)]
    exact joinComponents_append h

/-- The directory of an action. -/
def actionText (actionKey : Option Text) : Text :=
  actionKey.elim [] fun key => "__action__".toList ++ (key ++ "__".toList) ++ ['/']

def quotedName (target : ConfiguredTargetLabel C) : Text :=
  "__".toList ++ escapeTargetName target.name ++ "__".toList

/-- **The path of an output of a target**, part by part. -/
theorem makeHashedPath_eq (hasher : List Text → Text) (target : ConfiguredTargetLabel C)
    (base root : Text) (actionKey : Option Text) (path : ForwardRelativePath)
    (contentHash : Option Text) :
    makeHashedPath outputHash hasher (.targetLabel target) base root actionKey path false
        .configuration contentHash = .ok (base ++ '/' :: (root ++ '/' :: (target.cell.name ++ '/' ::
        (configurationText outputHash target ++ '/' ::
          (target.package.components.flatMap (· ++ ['/']) ++ (quotedName target ++ '/' ::
            (actionText actionKey ++ path.asStr))))))) := by
  simp only [makeHashedPath, pathIdentifier, targetParts, quotedName, actionText, configurationText,
    ← package_flatMap]
  cases target.execCfg <;> cases actionKey <;> simp

theorem actionText_inj {k k' : Option Text} {p p' : Text} (hk : ∀ key, k = some key → '/' ∉ key)
    (hk' : ∀ key, k' = some key → '/' ∉ key) (hp : ¬ "__action__".toList <+: p)
    (hp' : ¬ "__action__".toList <+: p') (h : actionText k ++ p = actionText k' ++ p') :
    k = k' ∧ p = p' := by
  cases k with
  | none =>
    cases k' with
    | none => exact ⟨rfl, h⟩
    | some key =>
      refine absurd ⟨key ++ "__".toList ++ ['/'] ++ p', ?_⟩ hp
      simpa [actionText] using h.symm
  | some key =>
    cases k' with
    | none =>
      refine absurd ⟨key ++ "__".toList ++ ['/'] ++ p, ?_⟩ hp'
      simpa [actionText] using h
    | some key' =>
      have hslash {key : Text} (h : '/' ∉ key) : '/' ∉ key ++ "__".toList := fun hmem =>
        (mem_append.mp hmem).elim h (by decide)
      have h1 : "__action__".toList ++ (key ++ "__".toList ++ '/' :: p) =
          "__action__".toList ++ (key' ++ "__".toList ++ '/' :: p') := by
        simpa [actionText] using h
      obtain ⟨hkey, hpath⟩ := first_separator_inj (hslash (hk key rfl)) (hslash (hk' key' rfl))
        (append_cancel_left h1)
      rw [append_cancel_right hkey, hpath]
      exact ⟨rfl, rfl⟩

/-- An output of a target whose path says what it is. -/
structure Ordinary (softErrors : Bool) (a : BuildArtifactPath C) (t : ConfiguredTargetLabel C) :
    Prop where
  owner : a.owner.owner = .targetLabel t
  bazelOwner : a.bazelOwner = none
  kind : a.pathResolutionMethod = .configuration
  name : TargetName.verify softErrors t.name = .ok ()
  slash : '/' ∉ t.name
  package : ∀ c ∈ t.package.components, ¬ "__".toList <+: c
  path : ¬ "__action__".toList <+: a.path.asStr
  cell : '/' ∉ t.cell.name

section Ordinary

variable {softErrors : Bool} {a b : BuildArtifactPath C} {t u : ConfiguredTargetLabel C}
  {hasher : List Text → Text} {resolver : BuckOutPathResolver}
  {contentHash contentHash' : Option Text}

theorem Ordinary.resolveGen_eq (h : Ordinary softErrors a t) :
    resolveGen outputHash hasher resolver a contentHash = .ok (resolver.buckOut ++ '/' ::
      ("art".toList ++ '/' :: (t.cell.name ++ '/' :: (configurationText outputHash t ++ '/' ::
        (t.package.components.flatMap (· ++ ['/']) ++ (quotedName t ++ '/' ::
          (actionText a.owner.actionKey ++ a.path.asStr))))))) := by
  rw [← makeHashedPath_eq hasher t resolver.buckOut "art".toList _ _ contentHash]
  simp [resolveGen, bazelSharedPhysicalPath, h.bazelOwner, h.kind, h.owner]

theorem Ordinary.quotedName (h : Ordinary softErrors a t) :
    '/' ∉ quotedName t ∧ "__".toList <+: quotedName t := by
  refine ⟨fun hmem => ?_, ⟨escapeTargetName t.name ++ "__".toList, by simp [BuckOut.quotedName]⟩⟩
  simp only [BuckOut.quotedName, mem_append] at hmem
  obtain (hmem | hmem) | hmem := hmem
  · exact absurd hmem (by decide)
  · exact h.slash ((mem_escape (by decide)).mp hmem)
  · exact absurd hmem (by decide)

theorem Ordinary.components (h : Ordinary softErrors a t) :
    ∀ c ∈ t.package.components, '/' ∉ c ∧ ¬ "__".toList <+: c := fun c hc =>
  ⟨slash_notMem_of_isFileName (t.package.valid c hc), h.package c hc⟩

/-- The path says everything but the name of the target, of which it says how it is written. -/
theorem Ordinary.eq_of_resolveGen_eq
    (hash_inj : ∀ c c', (outputHash c).text = (outputHash c').text → c = c')
    (ha : Ordinary softErrors a t) (hb : Ordinary softErrors b u)
    (h : resolveGen outputHash hasher resolver a contentHash =
      resolveGen outputHash hasher resolver b contentHash') :
    escapeTargetName t.name = escapeTargetName u.name ∧ t.cell = u.cell ∧ t.package = u.package ∧
      t.cfg = u.cfg ∧ t.execCfg = u.execCfg ∧ a.owner.actionKey = b.owner.actionKey ∧
      a.path = b.path := by
  -- the path is read from the left: root, cell, configurations, package, target, action
  rw [ha.resolveGen_eq, hb.resolveGen_eq] at h
  obtain ⟨-, hart⟩ := List.cons.inj (append_cancel_left (Except.ok.inj h))
  obtain ⟨-, hrest⟩ := List.cons.inj (append_cancel_left hart)
  obtain ⟨hcells, hrest⟩ := first_separator_inj ha.cell hb.cell hrest
  obtain ⟨hcfgs, hrest⟩ := first_separator_inj (slash_notMem_configurationText t)
    (slash_notMem_configurationText u) hrest
  obtain ⟨hpackages, hnames, hrest⟩ := flatMap_separator_inj ha.components hb.components
    ha.quotedName hb.quotedName hrest
  obtain ⟨hkeys, hpaths⟩ := actionText_inj
    (fun key hkey => DeferredHolderKey.slash_notMem_actionKey hkey)
    (fun key hkey => DeferredHolderKey.slash_notMem_actionKey hkey) ha.path hb.path hrest
  obtain ⟨hcfg, hexec⟩ := configurationText_inj hash_inj hcfgs
  exact ⟨append_cancel_left (append_cancel_right hnames), CellName.ext hcells,
    ForwardRelativePath.ext hpackages, hcfg, hexec, hkeys, asStr_inj hpaths⟩

/-- The output of another target that differs in its name. -/
theorem Ordinary.rename (h : Ordinary softErrors a t) {name : Text}
    (hname : TargetName.verify softErrors name = .ok ()) (hslash : '/' ∉ name) :
    ∃ b, Ordinary softErrors b { t with name := name } ∧ b.owner.actionKey = a.owner.actionKey ∧
      b.path = a.path := by
  have howner (key : DeferredHolderKey C) (x : BaseDeferredKey C) :
      ∃ key' : DeferredHolderKey C, key'.owner = x ∧ key'.actionKey = key.actionKey := by
    induction key with
    | base key => exact ⟨.base x, rfl, rfl⟩
    | dynamicLambda holder index ih =>
      obtain ⟨key', hx, hkey⟩ := ih
      exact ⟨.dynamicLambda key' index, hx, by simp [DeferredHolderKey.actionKey, hkey]⟩
  obtain ⟨key, hx, hkey⟩ := howner a.owner (.targetLabel { t with name := name })
  exact ⟨{ a with owner := key }, ⟨hx, h.bazelOwner, h.kind, hname, hslash, h.package, h.path,
    h.cell⟩, hkey, rfl⟩

end Ordinary

/-- **Outputs of targets are at different paths**: among cells without a slash in their names, no
other output is at the path of an output exactly if the name of its target has no `=` next to
`eqsb`. -/
theorem resolveGen_inj (hash_inj : ∀ c c', (outputHash c).text = (outputHash c').text → c = c')
    (hasher : List Text → Text) (resolver : BuckOutPathResolver) (softErrors : Bool)
    (a : BuildArtifactPath C) (t : ConfiguredTargetLabel C) (ha : Ordinary softErrors a t) :
    (∀ b u, Ordinary softErrors b u → ∀ contentHash contentHash',
        resolveGen outputHash hasher resolver a contentHash =
          resolveGen outputHash hasher resolver b contentHash' →
        t.cell = u.cell ∧ t.package = u.package ∧ t.name = u.name ∧ t.cfg = u.cfg ∧
          t.execCfg = u.execCfg ∧ a.owner.actionKey = b.owner.actionKey ∧ a.path = b.path) ↔
      ¬ Overlaps t.name := by
  constructor
  · intro hinj hoverlap
    obtain ⟨name, hne, hescape, hname, hslash⟩ := exists_escape_eq ha.name hoverlap
    obtain ⟨b, hb, hkey, hpath⟩ := ha.rename hname (hslash ha.slash)
    refine hne (hinj b _ hb none none ?_).2.2.1.symm
    rw [ha.resolveGen_eq, hb.resolveGen_eq, hkey, hpath]
    simp [quotedName, hescape, configurationText]
  · intro hoverlap b u hb contentHash contentHash' h
    obtain ⟨hescape, hcell, hpackage, hrest⟩ := ha.eq_of_resolveGen_eq hash_inj hb h
    have hverify (v : Text) (hv : TargetName.verify softErrors v = .ok ()) :=
      (TargetName.verify_eq_ok.mp hv).2.2.1
    exact ⟨hcell, hpackage, escapeTargetName_inj (hverify _ ha.name) (hverify _ hb.name)
      (fun hboth => hoverlap hboth.1) hescape, hrest⟩

/-! ## Two targets with one output path -/

def zeroHash : ConfigurationHash where
  text := List.replicate 16 '0'
  length := length_replicate
  hex c hc := by
    rw [eq_of_mem_replicate hc]
    decide

/-- A target of the package `lib` in the only configuration. -/
def libTarget (name : Text) : ConfiguredTargetLabel Unit where
  cell := ⟨"root".toList, by decide⟩
  package := ⟨["lib".toList], by decide⟩
  name := name
  cfg := ()
  execCfg := none

def outPath : ForwardRelativePath := ⟨["out".toList], by decide⟩

/-- The output `out` of a target. -/
def outputOf (name : Text) : BuildArtifactPath Unit where
  owner := .base (.targetLabel (libTarget name))
  bazelOwner := none
  bazelOutputRoot := .bin
  bazelOutputPathKind := .packageRelative
  path := outPath
  pathResolutionMethod := .configuration

def buckOut : BuckOutPathResolver := ⟨"buck-out/v2".toList⟩

/-- **The targets `_eqsb=` and `=eqsb_` have one output path**: both names are written
`_eqsb_eqsb_`. -/
theorem resolveGen_shared :
    TargetName.verify true "_eqsb=".toList = .ok () ∧
      TargetName.verify true "=eqsb_".toList = .ok () ∧
      resolveGen (fun _ => zeroHash) List.flatten buckOut (outputOf "_eqsb=".toList) none =
        .ok "buck-out/v2/art/root/0000000000000000/lib/___eqsb_eqsb___/out".toList ∧
      resolveGen (fun _ => zeroHash) List.flatten buckOut (outputOf "=eqsb_".toList) none =
        .ok "buck-out/v2/art/root/0000000000000000/lib/___eqsb_eqsb___/out".toList ∧
      (libTarget "_eqsb=".toList).name ≠ (libTarget "=eqsb_".toList).name := by
  exact ⟨rfl, rfl, rfl, rfl, by decide⟩

/-- A slash in the name of a cell: its last part may be taken for a configuration. -/
theorem resolveGen_shared_cell :
    let cell (name : Text) (hname : name ≠ []) (package : ForwardRelativePath) :
        BuildArtifactPath Unit :=
      { outputOf "a".toList with
        owner := .base (.targetLabel
          { libTarget "a".toList with cell := ⟨name, hname⟩, package := package }) }
    resolveGen (fun _ => zeroHash) List.flatten buckOut
        (cell "c".toList (by decide) ⟨[zeroHash.text, "lib".toList], by decide⟩) none =
      resolveGen (fun _ => zeroHash) List.flatten buckOut
        (cell ("c/".toList ++ zeroHash.text) (by decide) ⟨["lib".toList], by decide⟩) none := rfl

/-- Outputs that differ in what no path depends on have one path, and the same target and path in
its directory. -/
theorem resolveGen_inj_genfiles :
    let a := outputOf "a=b".toList
    let b := { a with bazelOutputRoot := .genfiles }
    resolveGen (fun _ => zeroHash) List.flatten buckOut a none =
        resolveGen (fun _ => zeroHash) List.flatten buckOut b (some "00".toList) ∧
      a.owner.actionKey = b.owner.actionKey ∧ a.path = b.path := by
  intro a b
  have houtPath : ¬ "__action__".toList <+: outPath.asStr := by decide
  have hordinary (root : BazelOutputRoot) : Ordinary true
      { a with bazelOutputRoot := root } (libTarget "a=b".toList) :=
    ⟨rfl, rfl, rfl, rfl, by decide, by decide, houtPath, by decide⟩
  refine ⟨rfl, ?_⟩
  exact ((@resolveGen_inj Unit (fun _ => zeroHash) (fun _ _ _ => rfl) List.flatten buckOut true a
    (libTarget "a=b".toList) (hordinary .bin)).mpr (by decide) b _ (hordinary .genfiles) none
    (some "00".toList) rfl).2.2.2.2.2

end Bz.BuckOut
