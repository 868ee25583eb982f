import Mathlib
import TurtleAlloc.Proofs.Allocation.Scan

/-!
# Scans that differ in names and positions only

Of the candidates, a scan looks at nothing but their starts and stops.

* `Disguise` — a map of candidates that keeps these and changes positions by some function.
* `Candidate.sort_image` — the order of the visits is kept.
* `Scan.visit_image`, `Scan.run_image` — a scan of disguised candidates is the disguised scan.
* `Scan.home?_image` — so every position gets the same place, as long as none is confused with it.
-/

namespace TurtleAlloc

/-- Starts and stops stay, and positions change by a function. -/
structure Disguise (g : Candidate → Candidate) (f : Nat → Nat) : Prop where
  start : ∀ c, (g c).interval.start = c.interval.start
  stop : ∀ c, (g c).interval.stop = c.interval.stop
  position : ∀ c, (g c).position = f c.position

variable {g : Candidate → Candidate} {f : Nat → Nat}

/-! ## The order of the visits -/

namespace Candidate

variable (h : Disguise g f)

include h

theorem insert_image (candidate : Candidate) (candidates : List Candidate) :
    insert (g candidate) (candidates.map g) = (insert candidate candidates).map g := by
  induction candidates with
  | nil => rfl
  | cons next later ih =>
    rw [List.map_cons, insert, insert, h.start, h.start, ih]
    split <;> rfl

theorem sort_image (candidates : List Candidate) :
    sort (candidates.map g) = (sort candidates).map g := by
  induction candidates with
  | nil => rfl
  | cons candidate later ih =>
    show insert (g candidate) (sort (later.map g)) = _
    rw [ih, insert_image h]
    rfl

end Candidate

/-! ## The scan -/

/-- A tenant in disguise. -/
def Tenant.image (g : Candidate → Candidate) (tenant : Tenant) : Tenant :=
  { tenant with candidate := g tenant.candidate }

theorem Tenant.stop_image (h : Disguise g f) (tenant : Tenant) :
    (tenant.image g).stop = tenant.stop :=
  h.stop tenant.candidate

theorem Tenant.takeLongest_image (h : Disguise g f) (tenants : List Tenant) :
    takeLongest (tenants.map (image g)) =
      (takeLongest tenants).map fun (longest, others) =>
        (longest.image g, others.map (image g)) := by
  induction tenants with
  | nil => rfl
  | cons tenant later ih =>
    rw [List.map_cons, takeLongest, takeLongest, ih]
    cases takeLongest later with
    | none => rfl
    | some split_later =>
      obtain ⟨longest, others⟩ := split_later
      simp only [Option.map_some, stop_image h]
      split <;> rfl

namespace Scan

/-- A scan of candidates in disguise. -/
def image (g : Candidate → Candidate) (f : Nat → Nat) (scan : Scan) : Scan where
  active := scan.active.map (Tenant.image g)
  homes := scan.homes.map fun entry => (f entry.1, entry.2)
  nextSlot := scan.nextSlot

section Operations

variable (h : Disguise g f) (pool : Nat) (scan : Scan) (candidate : Candidate)

theorem free?_image : (scan.image g f).free? pool = scan.free? pool := by
  have hcomp : Tenant.number ∘ Tenant.image g = Tenant.number := rfl
  simp only [free?, image, List.map_map, hcomp]

include h

theorem expire_image (line : Nat) :
    ((scan.image g f).expire line).value = (scan.expire line).value.image g f := by
  have hstop : ((fun t : Tenant => decide (line < t.stop)) ∘ Tenant.image g) =
      fun t => decide (line < t.stop) := by
    funext t
    simp only [Function.comp_apply, Tenant.stop_image h]
  simp only [expire, image, List.filter_map, hstop]

theorem assign_image (number : Nat) :
    ((scan.image g f).assign (g candidate) number).value =
      (scan.assign candidate number).value.image g f := by
  simp only [assign, image, List.map_append, List.map_cons, h.position]
  rfl

theorem spill_image :
    ((scan.image g f).spill (g candidate)).value = (scan.spill candidate).value.image g f := by
  simp only [spill, image, List.map_cons, h.position]

theorem evict_image (tenant : Tenant) (others : List Tenant) :
    ((scan.image g f).evict (tenant.image g) (others.map (Tenant.image g)) (g candidate)).value =
      (scan.evict tenant others candidate).value.image g f := by
  simp only [evict, image, List.map_append, List.map_cons, h.position, Tenant.image]
  rfl

theorem place_image :
    ((scan.image g f).place pool (g candidate)).value =
      (scan.place pool candidate).value.image g f := by
  unfold place
  rw [free?_image]
  cases scan.free? pool with
  | some number => exact assign_image h scan candidate number
  | none =>
    rw [show (scan.image g f).active = scan.active.map (Tenant.image g) from rfl,
      Tenant.takeLongest_image h]
    cases Tenant.takeLongest scan.active with
    | none => exact spill_image h scan candidate
    | some entry =>
      obtain ⟨tenant, others⟩ := entry
      simp only [Option.map_some, h.stop, Tenant.stop_image h]
      split
      · exact evict_image h scan candidate tenant others
      · exact spill_image h scan candidate

/-- **One visit** to a candidate in disguise. -/
theorem visit_image :
    ((scan.image g f).visit pool (g candidate)).value =
      (scan.visit pool candidate).value.image g f := by
  show (((scan.image g f).expire (g candidate).interval.start).value.place pool _).value = _
  rw [h.start, expire_image h, place_image h]
  rfl

/-- **A whole run** over candidates in disguise. -/
theorem run_image (candidates : List Candidate) :
    (run pool (scan.image g f) (candidates.map g)).value =
      (run pool scan candidates).value.image g f := by
  induction candidates generalizing scan with
  | nil => rfl
  | cons candidate later ih =>
    show (run pool ((scan.image g f).visit pool (g candidate)).value _).value = _
    rw [visit_image h, ih]
    rfl

end Operations

/-- A position that is confused with none keeps its place. -/
theorem home?_image (scan : Scan) {position : Nat}
    (hinj : ∀ other, (scan.home? other).isSome → f other = f position → other = position) :
    (scan.image g f).home? (f position) = scan.home? position := by
  obtain ⟨_, homes, _⟩ := scan
  have hkeys : ∀ entry ∈ homes, f entry.1 = f position → entry.1 = position := by
    intro entry hmem
    exact hinj entry.1 (List.lookup_isSome_iff.mpr ⟨entry, hmem, beq_self_eq_true _⟩)
  show (homes.map fun entry => (f entry.1, entry.2)).lookup (f position) = homes.lookup position
  clear hinj
  induction homes with
  | nil => rfl
  | cons entry later ih =>
    obtain ⟨here, home⟩ := entry
    rw [List.map_cons, lookup_cons_home, lookup_cons_home,
      ih fun entry hmem => hkeys entry (List.mem_cons_of_mem _ hmem)]
    have hiff : f position = f here ↔ position = here :=
      ⟨fun heq => (hkeys (here, home) List.mem_cons_self heq.symm).symm, congrArg f⟩
    simp only [hiff]

end Scan

end TurtleAlloc
