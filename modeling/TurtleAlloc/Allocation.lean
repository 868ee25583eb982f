import TurtleAlloc.Interval
import TurtleAlloc.Log
import TurtleAlloc.Register

/-!
# Allocation of registers by linear scan

Intervals that have no register yet are visited in the order of their starts.  Each visit first
frees the registers of the intervals that have ended.  The visited interval then takes the lowest
free register.  If there is none, the one that lasts longest goes to a fresh spill slot: the
visited interval, or an earlier one, which hands its register over.

* `Candidate`, `Tenant`, `Home` — an interval that waits for a place, one that holds a register,
  and a place;
* `Scan` — the state between two visits, with `Scan.visit` and `Scan.run`; a visit is one turn of
  the loop in `allocate`, with `expire_old_intervals` and `spill_at_interval`;
* `allocate` — the intervals with their places, in the order they came in;
* `poolLimit`, `allocateWithin` — the size of the largest pool, and allocation that refuses a
  larger one.

Which registers are free is not stored: it follows from the tenants.  `lowestFree_eq_some_iff`
and `lowestFree_eq_none_iff` say which register is found and when there is none;
`perm_of_takeLongest` and `stop_le_of_takeLongest` say what it means to last longest.
-/

namespace TurtleAlloc

/-- A place for the value of an interval. -/
inductive Home where
  /-- The physical register with this number. -/
  | register (number : Nat)
  /-- The spill slot with this number. -/
  | slot (number : Nat)
  deriving DecidableEq, Repr

/-- The interval kept in a place. -/
def Interval.keepIn (interval : Interval) : Home → Interval
  | .register number => { interval with physical := some (Register.physical number) }
  | .slot number => { interval with slot := some number }

/-- An interval that waits for a place, with its position in the list it came from. -/
structure Candidate where
  position : Nat
  interval : Interval
  deriving DecidableEq, Repr

namespace Candidate

/-- Put a candidate in front of those that do not start before it. -/
def insert (candidate : Candidate) : List Candidate → List Candidate
  | [] => [candidate]
  | next :: later =>
    if candidate.interval.start ≤ next.interval.start then candidate :: next :: later
    else next :: insert candidate later

/-- Candidates in the order of their starts; of equal starts the earlier one stays in front. -/
def sort (candidates : List Candidate) : List Candidate :=
  candidates.foldr insert []

/-- The intervals that have no register yet, each with its position, in the order they came in. -/
def waiting (intervals : List Interval) : List Candidate :=
  intervals.zipIdx.filterMap fun (interval, position) =>
    if interval.physical.isNone then some ⟨position, interval⟩ else none

/-- The same in the order in which a scan visits them. -/
def ofIntervals (intervals : List Interval) : List Candidate :=
  sort (waiting intervals)

end Candidate

/-- A visited interval that has not ended yet, and the number of the register it holds. -/
structure Tenant where
  candidate : Candidate
  number : Nat
  deriving DecidableEq, Repr

namespace Tenant

/-- The register as the program names it. -/
def register (tenant : Tenant) : String := tenant.candidate.interval.register

/-- The line behind the tenant's interval. -/
def stop (tenant : Tenant) : Nat := tenant.candidate.interval.stop

/-- The tenant that lasts longest, the latest of several, and the others in their order. -/
def takeLongest : List Tenant → Option (Tenant × List Tenant)
  | [] => none
  | tenant :: later =>
    match takeLongest later with
    | none => some (tenant, [])
    | some (longest, others) =>
      if tenant.stop ≤ longest.stop then some (longest, tenant :: others) else some (tenant, later)

theorem takeLongest_eq_none_iff {tenants : List Tenant} :
    takeLongest tenants = none ↔ tenants = [] := by
  cases tenants with
  | nil => simp [takeLongest]
  | cons tenant later =>
    rw [takeLongest]
    split
    · simp
    · split <;> simp

theorem perm_of_takeLongest {tenants others : List Tenant} {longest : Tenant}
    (h : takeLongest tenants = some (longest, others)) : tenants.Perm (longest :: others) := by
  induction tenants generalizing longest others with
  | nil => cases h
  | cons tenant later ih =>
    rw [takeLongest] at h
    split at h
    · next none_later =>
      cases h
      rw [takeLongest_eq_none_iff.mp none_later]
    · next split_later =>
      split at h
      · cases h
        exact ((ih split_later).cons tenant).trans (.swap ..)
      · cases h
        exact .refl _

theorem mem_of_takeLongest {tenants others : List Tenant} {longest : Tenant}
    (h : takeLongest tenants = some (longest, others)) : longest ∈ tenants :=
  (perm_of_takeLongest h).mem_iff.mpr List.mem_cons_self

/-- No tenant lasts longer than the one that is taken. -/
theorem stop_le_of_takeLongest {tenants others : List Tenant} {longest tenant : Tenant}
    (h : takeLongest tenants = some (longest, others)) (mem : tenant ∈ tenants) :
    tenant.stop ≤ longest.stop := by
  induction tenants generalizing longest others with
  | nil => cases mem
  | cons first later ih =>
    rw [takeLongest] at h
    split at h
    · next none_later =>
      cases h
      rw [takeLongest_eq_none_iff.mp none_later] at mem
      simp_all
    · next latest rest split_later =>
      split at h
      · cases h
        rcases List.mem_cons.mp mem with rfl | later_mem
        · assumption
        · exact ih split_later later_mem
      · cases h
        rcases List.mem_cons.mp mem with rfl | later_mem
        · exact Nat.le_refl _
        · have := ih split_later later_mem
          omega

end Tenant

/-- The least number from `first` on that is not held, among the next `count` numbers. -/
def lowestFree (held : List Nat) (first : Nat) : (count : Nat) → Option Nat
  | 0 => none
  | count + 1 => if first ∈ held then lowestFree held (first + 1) count else some first

/-- The lowest free number is free, and all numbers below it are held. -/
theorem lowestFree_eq_some_iff {held : List Nat} {first count k : Nat} :
    lowestFree held first count = some k ↔
      (first ≤ k ∧ k < first + count) ∧ k ∉ held ∧ ∀ j, first ≤ j → j < k → j ∈ held := by
  induction count generalizing first with
  | zero =>
    simp only [lowestFree, reduceCtorEq, false_iff]
    omega
  | succ count ih =>
    rw [lowestFree]
    split
    · next held_first =>
      rw [ih]
      constructor
      · rintro ⟨⟨lower, upper⟩, free, below⟩
        refine ⟨⟨by omega, by omega⟩, free, fun j hj hk => ?_⟩
        by_cases h : j = first
        · exact h ▸ held_first
        · exact below j (by omega) hk
      · rintro ⟨⟨lower, upper⟩, free, below⟩
        have ne : k ≠ first := fun h => free (h ▸ held_first)
        exact ⟨⟨by omega, by omega⟩, free, fun j hj hk => below j (by omega) hk⟩
    · next free_first =>
      simp only [Option.some.injEq]
      constructor
      · rintro rfl
        exact ⟨⟨by omega, by omega⟩, free_first, fun j hj hk => by omega⟩
      · rintro ⟨⟨lower, _⟩, _, below⟩
        by_cases h : first = k
        · exact h
        · exact absurd (below first (by omega) (by omega)) free_first

theorem lowestFree_eq_none_iff {held : List Nat} {first count : Nat} :
    lowestFree held first count = none ↔
      ∀ j, first ≤ j → j < first + count → j ∈ held := by
  induction count generalizing first with
  | zero =>
    simp only [lowestFree, true_iff]
    intro j lower upper
    omega
  | succ count ih =>
    rw [lowestFree]
    split
    · next held_first =>
      rw [ih]
      constructor
      · intro h j lower upper
        by_cases eq : j = first
        · exact eq ▸ held_first
        · exact h j (by omega) (by omega)
      · intro h j lower upper
        exact h j (by omega) (by omega)
    · next free_first =>
      simp only [reduceCtorEq, false_iff]
      intro h
      exact free_first (h first (by omega) (by omega))

/-- What is known between two visits. -/
structure Scan where
  /-- The intervals that hold a register, in the order in which they got it. -/
  active : List Tenant := []
  /-- The places given out, by position, the latest first: it overrides the earlier ones. -/
  homes : List (Nat × Home) := []
  /-- The number of the next spill slot. -/
  nextSlot : Nat := 0
  deriving DecidableEq, Repr

namespace Scan

/-- The place of the interval at a position. -/
def home? (scan : Scan) (position : Nat) : Option Home :=
  scan.homes.lookup position

/-- The lowest register of the pool that no tenant holds. -/
def free? (pool : Nat) (scan : Scan) : Option Nat :=
  lowestFree (scan.active.map Tenant.number) 0 pool

/-- Drop the tenants that have ended when a line is reached. -/
def expire (line : Nat) (scan : Scan) : Logged Scan where
  events := (scan.active.filter fun tenant => tenant.stop ≤ line).map fun tenant =>
    .expired tenant.register (Register.physical tenant.number)
  value := { scan with active := scan.active.filter fun tenant => line < tenant.stop }

/-- Give a candidate a free register. -/
def assign (candidate : Candidate) (number : Nat) (scan : Scan) : Logged Scan where
  events := [.assigned candidate.interval.register (Register.physical number)]
  value := { scan with
    active := scan.active ++ [⟨candidate, number⟩]
    homes := (candidate.position, .register number) :: scan.homes }

/-- Give a candidate the next spill slot. -/
def spill (candidate : Candidate) (scan : Scan) : Logged Scan where
  events := [.spilled candidate.interval.register scan.nextSlot]
  value := { scan with
    homes := (candidate.position, .slot scan.nextSlot) :: scan.homes
    nextSlot := scan.nextSlot + 1 }

/-- Move a tenant to the next spill slot and give its register to a candidate. -/
def evict (tenant : Tenant) (others : List Tenant) (candidate : Candidate) (scan : Scan) :
    Logged Scan where
  events := [.evicted tenant.register scan.nextSlot candidate.interval.register
    (Register.physical tenant.number)]
  value := {
    active := others ++ [⟨candidate, tenant.number⟩]
    homes := (candidate.position, .register tenant.number) ::
      (tenant.candidate.position, .slot scan.nextSlot) :: scan.homes
    nextSlot := scan.nextSlot + 1 }

/-- Find a place for a candidate among the tenants that are left. -/
def place (pool : Nat) (candidate : Candidate) (scan : Scan) : Logged Scan :=
  match scan.free? pool with
  | some number => scan.assign candidate number
  | none =>
    match Tenant.takeLongest scan.active with
    | none => scan.spill candidate
    | some (tenant, others) =>
      if candidate.interval.stop < tenant.stop then scan.evict tenant others candidate
      else scan.spill candidate

/-- One visit. -/
def visit (pool : Nat) (scan : Scan) (candidate : Candidate) : Logged Scan := do
  let scan ← scan.expire candidate.interval.start
  scan.place pool candidate

/-- Visit candidates one after the other. -/
def run (pool : Nat) (scan : Scan) : List Candidate → Logged Scan
  | [] => pure scan
  | candidate :: later => do
    let scan ← scan.visit pool candidate
    scan.run pool later

/-- The interval at a position with the place it was given, if any. -/
def settle (scan : Scan) (interval : Interval) (position : Nat) : Interval :=
  match scan.home? position with
  | some home => interval.keepIn home
  | none => interval

end Scan

/-- Give every interval without a register a place, using the registers numbered below `pool`. -/
def allocate (pool : Nat) (intervals : List Interval) : Logged (List Interval) := do
  let scan ← Scan.run pool {} (Candidate.ofIntervals intervals)
  pure (intervals.zipIdx.map fun (interval, position) => scan.settle interval position)

/-! ## Pools that are too large -/

/-- A pool has fewer registers than this: a table of their numbers, of eight bytes each, has to fit
into `2 ^ 63` bytes, half of what a 64-bit machine can address. -/
def poolLimit : Nat := UInt64.size / 2 / 8

/-- The pool is too large. -/
structure PoolTooLarge where
  deriving DecidableEq, Repr

/-- The wording of the failure. -/
def PoolTooLarge.message : String := "capacity overflow"

/-- Allocate from a pool, unless it is too large. -/
def allocateWithin (pool : Nat) (intervals : List Interval) :
    Attempt PoolTooLarge (List Interval) :=
  if pool < poolLimit then ExceptT.lift (allocate pool intervals) else throw {}

theorem result_allocateWithin {pool : Nat} (h : pool < poolLimit) (intervals : List Interval) :
    (allocateWithin pool intervals).result = .ok (allocate pool intervals).value := by
  rw [allocateWithin, if_pos h]
  rfl

end TurtleAlloc
