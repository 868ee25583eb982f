/-!
# Register names

* `isPinned` — the registers with a fixed job, which allocation leaves alone;
* `physical` — the names of the registers that allocation hands out;
* `defaultPool` — how many of those there are unless the caller says otherwise.

`physical_inj` says that different numbers name different registers.
-/

namespace TurtleAlloc.Register

/-- Return address, stack pointer and frame pointer: no allocation touches them. -/
def pinned : List String := ["ra", "sp", "fp"]

/-- The return-address register, which also holds the address of a distant spill slot. -/
def returnAddress : String := "ra"

/-- The register that spill slots are addressed from. -/
def framePointer : String := "fp"

/-- Whether a name is one of the pinned registers. -/
def isPinned (name : String) : Bool := pinned.contains name

/-- The name of the allocatable register with the given number. -/
def physical (number : Nat) : String := "r" ++ number.repr

theorem physical_inj {a b : Nat} : physical a = physical b ↔ a = b := by
  refine ⟨fun h => ?_, fun h => h ▸ rfl⟩
  have digits : Nat.toDigits 10 a = Nat.toDigits 10 b := by
    simpa [physical, Nat.repr_eq_ofList_toDigits, String.ofList_inj] using h
  have read := congrArg (Nat.ofDigitChars 10 · 0) digits
  simpa [Nat.ofDigitChars_toDigits] using read

/-- No allocatable register is pinned. -/
theorem physical_ne_of_isPinned {name : String} (number : Nat) (h : isPinned name = true) :
    physical number ≠ name := by
  intro heq
  have digit : ∀ c ∈ Nat.toDigits 10 number, c.isDigit = true :=
    fun c hc => Nat.isDigit_of_mem_toDigits (by decide) (by decide) hc
  have chars : name.toList = 'r' :: Nat.toDigits 10 number := by
    rw [← heq, physical, Nat.repr_eq_ofList_toDigits]
    simp
  simp only [isPinned, pinned, List.contains_iff_mem, List.mem_cons, List.not_mem_nil,
    or_false] at h
  rcases h with rfl | rfl | rfl
  · have tail : Nat.toDigits 10 number = ['a'] := by simpa using chars.symm
    exact absurd (digit 'a' (by simp [tail])) (by decide)
  · simp at chars
  · simp at chars

/-- The number of allocatable registers of the machine. -/
def defaultPool : Nat := 5

end TurtleAlloc.Register
