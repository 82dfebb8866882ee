import Mathlib.Algebra.Group.Nat.Defs
import Mathlib.Order.Lattice
import Bz.Machine

/-!
# The host sharing broker

Every `acquire` call takes the semaphores of its tokens one after another and then the permits it
runs with.  A step of a call is a lookup of a name in `NamedSemaphores`, the insertion of a new
semaphore after a failed lookup, or the grant of a semaphore, which is possible when enough permits
are free; the drop of a guard gives all its permits back.  Names are strings in the code, of which
only the order is used.
-/

namespace Bz.HostSharing

/-- At most 100 percent. -/
structure WeightPercentage where
  value : Nat
  le : value ≤ 100

/-- How many permits are asked for. -/
inductive WeightClass where
  | permits (required : Nat)
  | percentage (percentage : WeightPercentage)

/-- The elements are sorted; they may repeat. -/
structure SortedVec (N : Type) [LE N] where
  vec : List N
  sorted : vec.Pairwise (· ≤ ·)

/-- What an action asks for. -/
inductive HostSharingRequirements (N : Type) [LE N] where
  | exclusiveAccess
  | onePerToken (identifier : N) (weight : WeightClass)
  | onePerTokens (identifiers : SortedVec N) (weight : WeightClass)
  | shared (weight : WeightClass)

/-- `requested_permits` and `into_count`; the product is one of `usize`. -/
def requestedPermits (machinePermits : Nat) (weight : WeightClass) : Nat :=
  let count := match weight with
    | .permits required => required
    | .percentage percentage => (machinePermits * percentage.value % 2 ^ 64 + 99) / 100
  min count machinePermits

/-- Before the lookup of the next name, or before the permits if there is none; before an insertion;
waiting for a named semaphore; returned; the guard dropped. -/
inductive Stage where
  | lookup
  | insert
  | wait (semaphore : Nat)
  | held
  | dropped
  deriving DecidableEq, Repr

section Broker

variable {N : Type} [LinearOrder N] (machinePermits : Nat)

def HostSharingRequirements.permits : HostSharingRequirements N → Nat
  | .exclusiveAccess => machinePermits
  | .onePerToken _ weight | .onePerTokens _ weight | .shared weight =>
    requestedPermits machinePermits weight

def HostSharingRequirements.identifiers : HostSharingRequirements N → List N
  | .exclusiveAccess | .shared _ => []
  | .onePerToken identifier _ => [identifier]
  | .onePerTokens identifiers _ => identifiers.vec

variable (N) in
/-- An `acquire` call, with the names it has taken and their semaphores. -/
structure Call where
  requirements : HostSharingRequirements N
  nameGuards : List (N × Nat)
  remaining : List N
  stage : Stage

variable (N) in
/-- Semaphores are numbered; `buckets` is a map, the latest entry of a name first. -/
structure State where
  buckets : List (N × Nat)
  semaphores : List Nat
  permits : Nat
  calls : List (Call N)

def State.new : State N := ⟨[], [], machinePermits, []⟩

variable (N) in
/-- The steps of the broker. -/
inductive Label where
  | acquire (requirements : HostSharingRequirements N)
  | advance (call : Nat)
  | drop (call : Nat)

/-- Some semaphores get a permit back each. -/
def release (semaphores : List Nat) (released : List Nat) : List Nat :=
  released.foldl (fun semaphores k => semaphores.modify k (· + 1)) semaphores

/-- The next step of a call that is not waiting, in `acquire_from_permits_and_identifiers`. -/
def advance (s : State N) (i : Nat) (c : Call N) : Option (State N) :=
  match c.stage, c.remaining with
  | .lookup, name :: _ =>
    let stage := match s.buckets.lookup name with
      | some semaphore => .wait semaphore
      | none => .insert
    some { s with calls := s.calls.set i { c with stage } }
  | .insert, name :: _ =>
    some { s with
      buckets := (name, s.semaphores.length) :: s.buckets
      semaphores := s.semaphores ++ [1]
      calls := s.calls.set i { c with stage := .wait s.semaphores.length } }
  | .wait semaphore, name :: remaining =>
    match s.semaphores[semaphore]? with
    | some (free + 1) =>
      some { s with
        semaphores := s.semaphores.set semaphore free
        calls := s.calls.set i
          { c with nameGuards := c.nameGuards ++ [(name, semaphore)], remaining, stage :=
            .lookup } }
    | _ => none
  | .lookup, [] =>
    if c.requirements.permits machinePermits ≤ s.permits then
      some { s with
        permits := s.permits - c.requirements.permits machinePermits
        calls := s.calls.set i { c with stage := .held } }
    else none
  | _, _ => none

def step (s : State N) : Label N → Option (State N)
  | .acquire requirements =>
    some { s with calls := s.calls ++ [⟨requirements, [], requirements.identifiers, .lookup⟩] }
  | .advance i => s.calls[i]?.bind (advance machinePermits s i)
  | .drop i => match s.calls[i]? with
    | none => none
    | some c =>
      if c.stage = .held then
        some { s with
          semaphores := release s.semaphores (c.nameGuards.map Prod.snd)
          permits := s.permits + c.requirements.permits machinePermits
          calls := s.calls.set i { c with stage := .dropped } }
      else none

/-- No requirements name a token twice or ask for no permit, and no name is inserted between a
lookup and its insertion. -/
def orderly (s : State N) : Label N → Bool
  | .acquire requirements =>
    requirements.identifiers.Nodup && 1 ≤ requirements.permits machinePermits
  | .advance i => match s.calls[i]? with
    | some ⟨_, _, name :: _, .insert⟩ => (s.buckets.lookup name).isNone
    | _ => true
  | .drop _ => true

/-- The permits of a live guard. -/
def Call.held (c : Call N) : Nat :=
  if c.stage = .held then c.requirements.permits machinePermits else 0

/-- How often a call holds a named semaphore. -/
def Call.holds (k : Nat) (c : Call N) : Nat :=
  if c.stage = .dropped then 0 else (c.nameGuards.map Prod.snd).count k

/-- The call has not returned. -/
def Call.Pending (c : Call N) : Prop := c.stage ≠ .held ∧ c.stage ≠ .dropped

end Broker

end Bz.HostSharing
