/-!
# The journal of an allocation

Allocation tells what it decides while it works.  Its messages are values of `Event`; a
computation that may tell some is a `Logged` value, which holds its result beside them.  A
computation that may also fail is an `Except` inside a `Logged`, so what was told before the
failure is kept.

* `Event`, `Event.message` — what can be told, and its wording;
* `Logged` — the monad, with `Logged.tell`;
* `value_bind`, `result_bind` — results do not depend on what was told on the way.
-/

namespace TurtleAlloc

/-- One message of the journal. -/
inductive Event where
  /-- A basic block was found. -/
  | block (start stop : Nat)
  /-- A register was met for the first time. -/
  | firstReference (register : String) (index : Nat)
  /-- An interval ended, and its register is free again. -/
  | expired (register physical : String)
  /-- An interval got a register. -/
  | assigned (register physical : String)
  /-- An interval lost its register to another one and moved to a slot. -/
  | evicted (old : String) (slot : Nat) (register physical : String)
  /-- An interval got a slot. -/
  | spilled (register : String) (slot : Nat)
  /-- The frame was made larger for the slots of some intervals. -/
  | frameGrown (intervals : Nat) (size grown : Int32)
  /-- A slot is loaded in front of a line. -/
  | slotLoaded (index : Nat) (register : String) (slot : Nat) (temporary : String)
  /-- A slot is stored behind a line. -/
  | slotStored (index : Nat) (register : String) (slot : Nat) (temporary : String)
  /-- A register was set aside for spill code. -/
  | reserved (physical : String) (remaining : Nat)
  /-- The work on a subroutine began. -/
  | subroutine (name : String)
  deriving DecidableEq, Repr

namespace Event

/-- The level under which a message is told. -/
def level : Event → String
  | block .. | firstReference .. | expired .. | slotLoaded .. | slotStored .. => "TRACE"
  | assigned .. | evicted .. | spilled .. | frameGrown .. | reserved .. | subroutine .. => "DEBUG"

/-- The wording of a message, without its level. -/
def text : Event → String
  | block start stop => s!"basic block [{start.repr}, {stop.repr})"
  | firstReference register index => s!"{register} first referenced at {index.repr}"
  | expired register physical => s!"{register} expired, {physical} free"
  | assigned register physical => s!"{register} -> {physical}"
  | evicted old slot register physical =>
    s!"evicting {old} to spill slot {slot.repr}, {register} -> {physical}"
  | spilled register slot => s!"spilling {register} to spill slot {slot.repr}"
  | frameGrown intervals size grown =>
    s!"spilling {intervals.repr} intervals, frame {size.toInt.repr} -> {grown.toInt.repr}"
  | slotLoaded index register slot temporary =>
    s!"{index.repr}: load {register} from slot {slot.repr} into {temporary}"
  | slotStored index register slot temporary =>
    s!"{index.repr}: store {register} from {temporary} into slot {slot.repr}"
  | reserved physical remaining =>
    s!"reserving {physical} for spill code, retrying with {remaining.repr} registers"
  | subroutine name => s!"allocating registers in subroutine {name}"

/-- A message with its level in front. -/
def message (event : Event) : String :=
  event.level ++ " " ++ event.text

end Event

/-- A value together with what was told while it was computed, the earliest message first. -/
structure Logged (α : Type) where
  events : List Event
  value : α

namespace Logged

instance : Monad Logged where
  pure a := ⟨[], a⟩
  bind x f := ⟨x.events ++ (f x.value).events, (f x.value).value⟩

/-- Tell some messages. -/
def tell (events : List Event) : Logged Unit := ⟨events, ()⟩

variable {α β ε : Type}

@[simp] theorem value_pure (a : α) : (pure a : Logged α).value = a := rfl

@[simp] theorem value_bind (x : Logged α) (f : α → Logged β) :
    (x >>= f).value = (f x.value).value := rfl

@[simp] theorem events_pure (a : α) : (pure a : Logged α).events = [] := rfl

@[simp] theorem events_bind (x : Logged α) (f : α → Logged β) :
    (x >>= f).events = x.events ++ (f x.value).events := rfl

end Logged

/-- A computation that tells what it does and may fail. -/
abbrev Attempt (ε : Type) := ExceptT ε Logged

namespace Attempt

variable {α β ε : Type}

/-- What a computation comes to, without what it told. -/
def result (x : Attempt ε α) : Except ε α := x.run.value

/-- Tell one message. -/
def tell (event : Event) : Attempt ε Unit := ExceptT.lift (Logged.tell [event])

@[simp] theorem result_pure (a : α) : (pure a : Attempt ε α).result = .ok a := rfl

@[simp] theorem result_throw (e : ε) : (throw e : Attempt ε α).result = .error e := rfl

@[simp] theorem result_tell (event : Event) :
    (tell event : Attempt ε Unit).result = .ok () := rfl

/-- The result of a sequence depends on the results of its parts alone. -/
@[simp] theorem result_bind (x : Attempt ε α) (f : α → Attempt ε β) :
    (x >>= f).result = x.result >>= fun a => (f a).result := by
  obtain ⟨events, value⟩ := x
  cases value <;> rfl

@[simp] theorem result_lift (x : Logged α) :
    result (ExceptT.lift x : Attempt ε α) = .ok x.value := rfl

/-- The same for a sequence over a list. -/
theorem result_foldlM (f : β → α → Attempt ε β) (list : List α) (b : β) :
    (list.foldlM f b).result = list.foldlM (fun b a => (f b a).result) b := by
  induction list generalizing b with
  | nil => rfl
  | cons a rest ih =>
    rw [List.foldlM_cons, List.foldlM_cons, result_bind]
    exact congrArg _ (funext fun b => ih b)

end Attempt

end TurtleAlloc
