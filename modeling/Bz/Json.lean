import Bz.Fallible
import Mathlib.Data.List.Induction
import Mathlib.Data.List.Nodup
import Mathlib.Data.Option.Basic
import Mathlib.Data.String.Basic

/-!
# JSON texts

A JSON text with all of its layout: the white space between the tokens and the spelling of every
string and number.  Two texts are equal exactly when these trees are, and a part of a text that is
copied verbatim is a subtree.  Reading a text is a matter of its strings' values; printing builds a
tree with the layout of a pretty printer.

Principal results: `readMap_objectOf`, a map that has been printed is read back;
`getElem?_ofList_of_fieldValue`.
-/

namespace Bz.Json

open List

open Std (ExtTreeMap TransCmp LawfulEqCmp)

/-- A string literal: its spelling, and the string it stands for, if any. -/
structure JsonString where
  spelling : String
  value : Option String

/-- The white space around the name and the value of a member. -/
structure Spaces where
  before : String
  afterName : String
  beforeValue : String
  after : String

/-- A value.  The white space is that between empty brackets. -/
inductive Value where
  | null
  | bool (b : Bool)
  | number (text : String)
  | string (s : JsonString)
  | array (space : String) (elements : List (String × Value × String))
  | object (space : String) (members : List (Spaces × JsonString × Value))

/-- A value between white space. -/
structure JsonText where
  before : String
  value : Value
  after : String

/-! ## The characters of a text -/

mutual

def Value.render : Value → String
  | .null => "null"
  | .bool b => if b then "true" else "false"
  | .number text => text
  | .string s => s.spelling
  | .array space elements => "[" ++ space ++ renderElements elements ++ "]"
  | .object space members => "\x7b" ++ space ++ renderMembers members ++ "\x7d"

def renderElements : List (String × Value × String) → String
  | [] => ""
  | [(before, value, after)] => before ++ value.render ++ after
  | (before, value, after) :: rest => before ++ value.render ++ after ++ "," ++ renderElements rest

def renderMembers : List (Spaces × JsonString × Value) → String
  | [] => ""
  | [(s, name, value)] =>
    s.before ++ name.spelling ++ s.afterName ++ ":" ++ s.beforeValue ++ value.render ++ s.after
  | (s, name, value) :: rest =>
    s.before ++ name.spelling ++ s.afterName ++ ":" ++ s.beforeValue ++ value.render ++ s.after ++
      "," ++ renderMembers rest

end

def JsonText.render (text : JsonText) : String := text.before ++ text.value.render ++ text.after

/-! ## Reading -/

/-- The members of an object, if all their names stand for strings. -/
def Value.entries : Value → Option (List (String × Value))
  | .object _ members => members.mapM fun (_, name, value) => name.value.map fun n => (n, value)
  | _ => none

def readPair {α : Type} (read : Value → Option α) (entry : String × Value) :
    Option (String × α) :=
  (read entry.2).map fun v => (entry.1, v)

/-- An object as a map; of several members of one name the last counts. -/
def readMap {α : Type} (read : Value → Option α) (value : Value) : Option (ExtTreeMap String α) :=
    do
  let entries ← value.entries
  let pairs ← entries.mapM (readPair read)
  some (ExtTreeMap.ofList pairs)

def readString : Value → Option String
  | .string s => s.value
  | _ => none

/-- A string or `null`. -/
def readOptString : Value → Option (Option String)
  | .null => some none
  | .string s => s.value.map some
  | _ => none

/-- The value of a field of a record: there may be none, but not several. -/
def fieldValue (name : String) (entries : List (String × Value)) : Option (Option Value) :=
  match entries.filter (·.1 = name) with
  | [] => some none
  | [entry] => some (some entry.2)
  | _ => none

/-- A record as a derived reader takes it: an object, or an array of the fields in their order. -/
def readRecord (names : List String) : Value → Option (List (Option Value))
  | .array _ elements =>
    if elements.length ≤ names.length then
      some ((List.range names.length).map fun i => elements[i]?.map (·.2.1))
    else none
  | .object space members => do
    let entries ← (Value.object space members).entries
    names.mapM fun name => fieldValue name entries
  | _ => none

/-! ## Printing -/

def hexDigit (n : Nat) : Char := "0123456789abcdef".toList.getD n '0'

/-- How a character is spelled within a string. -/
def escape (c : Char) : List Char :=
  if c = '"' then ['\\', '"']
  else if c = '\\' then ['\\', '\\']
  else if c = '\n' then ['\\', 'n']
  else if c = '\r' then ['\\', 'r']
  else if c = '\t' then ['\\', 't']
  else if c.toNat = 0x8 then ['\\', 'b']
  else if c.toNat = 0xc then ['\\', 'f']
  else if c.toNat < 0x20 then ['\\', 'u', '0', '0', hexDigit (c.toNat / 16), hexDigit
    (c.toNat % 16)]
  else [c]

def printString (s : String) : JsonString :=
  ⟨.ofList ('"' :: s.toList.flatMap escape ++ ['"']), some s⟩

/-- Members on lines of their own; `indent` is the indentation of the object itself. -/
def layoutMembers (indent : String) : List (String × Value) → List (Spaces × JsonString × Value)
  | [] => []
  | [(name, value)] =>
    [(⟨"\n" ++ indent ++ "  ", "", " ", "\n" ++ indent⟩, printString name, value)]
  | (name, value) :: rest =>
    (⟨"\n" ++ indent ++ "  ", "", " ", ""⟩, printString name, value) :: layoutMembers indent rest

def objectOf (indent : String) (members : List (String × Value)) : Value :=
  .object "" (layoutMembers indent members)

/-! ## Reading what has been printed -/

section MapM

variable {α β γ : Type} {f : α → Option β}

/-- Where one reading succeeds, another one that agrees with it does. -/
theorem mapM_eq_some_of_imp {f' : α → Option γ} {g : β → γ}
    (h : ∀ a b, f a = some b → f' a = some (g b)) {l : List α} {l' : List β}
    (hl : l.mapM f = some l') : l.mapM f' = some (l'.map g) := by
  induction l generalizing l' with
  | nil =>
    cases hl
    rfl
  | cons a l ih =>
    rw [mapM_cons] at hl ⊢
    obtain ⟨b, hb, hl⟩ := Option.bind_eq_some_iff.mp hl
    obtain ⟨rest, hrest, hl⟩ := Option.bind_eq_some_iff.mp hl
    cases hl
    rw [h a b hb, ih hrest]
    rfl

end MapM

theorem entries_objectOf (indent : String) (members : List (String × Value)) :
    (objectOf indent members).entries = some members := by
  rw [objectOf, Value.entries]
  induction members with
  | nil => rfl
  | cons m rest ih =>
    cases rest with
    | nil => rfl
    | cons m' rest =>
      rw [layoutMembers, mapM_cons, ih]
      · rfl
      · simp

theorem ofList_toList {κ ν : Type} [Ord κ] [TransCmp (compare : κ → κ → Ordering)]
    [LawfulEqCmp (compare : κ → κ → Ordering)] (t : ExtTreeMap κ ν) :
    ExtTreeMap.ofList t.toList = t := by
  classical
  refine ExtTreeMap.ext_getElem? fun k => ?_
  cases hk : t[k]? with
  | some v =>
    have hself : compare k k = .eq := LawfulEqCmp.compare_eq_iff_eq.mpr rfl
    exact ExtTreeMap.getElem?_ofList_of_mem hself ExtTreeMap.distinct_keys_toList
      (ExtTreeMap.mem_toList_iff_getElem?_eq_some.mpr hk)
  | none =>
    refine ExtTreeMap.getElem?_ofList_of_contains_eq_false (Bool.eq_false_iff.mpr fun hmem => ?_)
    rw [ExtTreeMap.map_fst_toList_eq_keys] at hmem
    have hin := ExtTreeMap.mem_iff_isSome_getElem?.mp
      (ExtTreeMap.mem_keys.mp (contains_iff_mem.mp hmem))
    rw [hk] at hin
    cases hin

/-- **A printed map is read back.** -/
theorem readMap_objectOf {α : Type} {read : Value → Option α} {print : α → Value}
    (h : ∀ v, read (print v) = some v) (indent : String) (t : ExtTreeMap String α) :
    readMap read (objectOf indent (t.toList.map fun e => (e.1, print e.2))) = some t := by
  have hpairs : (t.toList.map fun e => (e.1, print e.2)).mapM (readPair read) = some t.toList := by
    rw [mapM_map]
    refine (Fallible.mapM_eq_some (g := id) fun e _ => ?_).trans (by rw [map_id])
    exact Option.map_eq_some_iff.mpr ⟨e.2, h e.2, rfl⟩
  simp [readMap, entries_objectOf, hpairs, ofList_toList]

/-- Of several pairs of one name, the last counts. -/
theorem getElem?_ofList {α : Type} (pairs : List (String × α)) (name : String) :
    (ExtTreeMap.ofList pairs : ExtTreeMap String α)[name]? =
      (pairs.filter (·.1 = name)).getLast?.map Prod.snd := by
  rw [ExtTreeMap.ofList_eq_foldl]
  induction pairs using List.reverseRecOn with
  | nil => simp
  | append_singleton pairs p ih =>
    rw [foldl_append, filter_append, foldl_cons, foldl_nil, ExtTreeMap.getElem?_insert, ih]
    by_cases hp : p.1 = name
    · simp [hp]
    · simp [hp]

variable {name : String} {names : List String} {entries : List (String × Value)}

/-- A record reads what a map has under the name. -/
theorem getElem?_ofList_of_fieldValue {value : Option Value}
    (h : fieldValue name entries = some value) :
    (ExtTreeMap.ofList entries : ExtTreeMap String Value)[name]? = value := by
  rw [getElem?_ofList]
  unfold fieldValue at h
  split at h
  · next hnil =>
    cases h
    rw [hnil]
    rfl
  · next entry hone =>
    cases h
    rw [hone]
    rfl
  · cases h

theorem fieldValue_of_nodup (h : (entries.map (·.1)).Nodup) : fieldValue name entries =
      some ((ExtTreeMap.ofList entries : ExtTreeMap String Value)[name]?) := by
  have hle : (entries.filter (·.1 = name)).length ≤ 1 := by
    rw [← countP_eq_length_filter]
    have hcount := nodup_iff_count_le_one.mp h name
    rw [List.count, countP_map] at hcount
    refine le_trans (countP_mono_left fun e _ he => ?_) hcount
    simpa using he
  have hsome : ∃ value, fieldValue name entries = some value := by
    unfold fieldValue
    split
    · exact ⟨_, rfl⟩
    · exact ⟨_, rfl⟩
    · next hnil hone =>
      cases hfilter : entries.filter (·.1 = name) with
      | nil => exact absurd hfilter hnil
      | cons a rest =>
        rw [hfilter, length_cons] at hle
        rw [eq_nil_of_length_eq_zero (by omega : rest.length = 0)] at hfilter
        exact absurd hfilter (hone a)
  obtain ⟨value, hvalue⟩ := hsome
  rw [hvalue, getElem?_ofList_of_fieldValue hvalue]

/-- A map of strings can be read as one of optional strings. -/
theorem readMap_readOptString {value : Value} {t : ExtTreeMap String String}
    (h : readMap readString value = some t) :
    readMap readOptString value = some (t.map fun _ s => some s) := by
  obtain ⟨entries, hentries, h⟩ := Option.bind_eq_some_iff.mp h
  obtain ⟨pairs, hpairs, h⟩ := Option.bind_eq_some_iff.mp h
  cases h
  have hopt : entries.mapM (readPair readOptString) = some (pairs.map fun p => (p.1, some p.2)) :=
      by
    refine mapM_eq_some_of_imp (fun entry pair hpair => ?_) hpairs
    obtain ⟨s, hs, rfl⟩ := Option.map_eq_some_iff.mp hpair
    refine Option.map_eq_some_iff.mpr ⟨some s, ?_, rfl⟩
    cases hvalue : entry.2 with
    | string text =>
      rw [hvalue] at hs
      exact Option.map_eq_some_iff.mpr ⟨s, hs, rfl⟩
    | _ =>
      rw [hvalue] at hs
      cases hs
  simp only [readMap, hentries, Option.bind_eq_bind, Option.bind_some, hopt]
  refine congrArg some (ExtTreeMap.ext_getElem? fun name => ?_)
  rw [ExtTreeMap.getElem?_map, getElem?_ofList, getElem?_ofList, filter_map,
    getLast?_map, Option.map_map, Option.map_map]
  rfl

theorem readMap_some (value : Value) :
    readMap some value = value.entries.map fun entries => ExtTreeMap.ofList entries := by
  have hpairs : ∀ l : List (String × Value), l.mapM (readPair some) = some l := fun l =>
    (Fallible.mapM_eq_some (g := id) fun _ _ => rfl).trans (by rw [map_id])
  cases hentries : value.entries with
  | none => simp [readMap, hentries]
  | some entries =>
    simp [readMap, hentries, hpairs]

theorem readRecord_object {space : String} {members : List (Spaces × JsonString × Value)}
    {fields : List (Option Value)} (h : readRecord names (.object space members) = some fields) :
    ∃ t : ExtTreeMap String Value, readMap some (.object space members) = some t ∧
      fields = names.map (t[·]?) := by
  obtain ⟨entries, hentries, h⟩ := Option.bind_eq_some_iff.mp h
  refine ⟨ExtTreeMap.ofList entries, by rw [readMap_some, hentries]; rfl, ?_⟩
  clear * - h
  induction names generalizing fields with
  | nil =>
    cases h
    rfl
  | cons name names ih =>
    rw [mapM_cons] at h
    obtain ⟨value, hvalue, h⟩ := Option.bind_eq_some_iff.mp h
    obtain ⟨rest, hrest, h⟩ := Option.bind_eq_some_iff.mp h
    cases h
    rw [map_cons, ← ih hrest, getElem?_ofList_of_fieldValue hvalue]

/-- A printed object without repeated names is read as a record. -/
theorem readRecord_objectOf {indent : String} {members : List (String × Value)}
    (h : (members.map (·.1)).Nodup) : readRecord names (objectOf indent members) =
      some (names.map ((ExtTreeMap.ofList members : ExtTreeMap String Value)[·]?)) := by
  rw [objectOf, readRecord]
  have hentries := entries_objectOf indent members
  rw [objectOf] at hentries
  simp only [hentries, Option.bind_eq_bind, Option.bind_some]
  induction names with
  | nil => rfl
  | cons name names ih =>
    rw [mapM_cons, ih, fieldValue_of_nodup h]
    rfl

end Bz.Json
