import Mathlib
import TurtleAlloc.Proofs.Compile.Rounds

/-!
# Compilation keeps the meaning of a stream

* `Tracks` — two states agree as far as the program can tell after some lines were executed: on the
  environment, on pinned registers, and on every register that was written and is still in use.
* `Tracks.executeAt` — a line and its renamed form lead from such states to such states, as long as
  lines are executed in their order and read what was written.
* `Alike` — what the states after two runs have in common.
* `compile_simulates` — renaming and spill code together: a compiled stream does the same as the
  stream itself along every forward path.
-/

namespace TurtleAlloc

namespace Code

/-- Along a path every register that is not pinned is written before it is read. -/
def WritesBeforeReads (code : Code) (path : List Nat) : Prop :=
  ∀ past index rest, path = past ++ index :: rest → ∀ line, code[index]? = some line →
    ∀ name ∈ line.sources, Register.isPinned name = false → ∃ p ∈ past, code.Writes p name

end Code

/-- The states of a stream and of its renamed form agree after the lines of `past`. -/
structure Tracks {machine : Machine} (code : Code) (allocated : List Interval) (past : List Nat)
    (source target : machine.State) : Prop where
  environment : source.environment = target.environment
  pinned : ∀ name, Register.isPinned name = true → source.registers name = target.registers name
  live : ∀ i ∈ allocated, (∃ p ∈ past, code.Writes p i.register) → (∀ p ∈ past, p < i.stop) →
    source.registers i.register = target.registers i.location

variable {code : Code} {pool registers : Nat} {allocated : List Interval} {machine : Machine}
  {past : List Nat} {index : Nat} {line : Line} {source target : machine.State}

/-! ## Renaming -/

section Line

variable (h : Tracks code allocated past source target) (hplacement : Placement code pool allocated)
  (hget : code[index]? = some line) (hpast : ∀ p ∈ past, p < index)
  (hwritten : ∀ name ∈ line.sources, Register.isPinned name = false →
    ∃ p ∈ past, code.Writes p name)

include h hplacement hget hpast hwritten

theorem Tracks.read {name : String} (hname : name ∈ line.sources) :
    source.registers name = target.registers (Code.physicalAt allocated index name) := by
  obtain ⟨i, hi, rfl, hcontains, hlocation⟩ :=
    hplacement.exists_mem_allocated hget (Line.mem_referenced_of_mem_sources hname)
  rw [hlocation]
  cases hpinned : Register.isPinned i.register with
  | true =>
    rw [hplacement.location_eq_self_of_pinned hi hpinned]
    exact h.pinned i.register hpinned
  | false =>
    refine h.live i hi (hwritten i.register hname hpinned) fun p hp => ?_
    have := hpast p hp
    rw [Interval.contains_iff] at hcontains
    omega

variable (havoids : code.Avoids registers) (hpool : pool ≤ registers)

include havoids hpool

/-- **A line and its renamed form lead from states that agree to states that agree.** -/
theorem Tracks.executeAt :
    Tracks code allocated (past ++ [index]) (machine.executeAt index line source)
      (machine.executeAt index (line.mapRegisters (Code.physicalAt allocated index)) target) := by
  obtain ⟨environment, value, hsource, htarget⟩ := Machine.executeAt_mapRegisters index
    (Code.physicalAt allocated index) line h.environment
    (fun name hname => h.read hplacement hget hpast hwritten hname)
  have hdestination : ∀ name ∈ line.destinations, ∃ i ∈ allocated, i.register = name ∧
      i.contains index = true ∧ Code.physicalAt allocated index name = i.location :=
    fun name hname =>
      hplacement.exists_mem_allocated hget (Line.mem_referenced_of_mem_destinations hname)
  rw [hsource, htarget]
  refine ⟨rfl, ?_, ?_⟩
  · intro name hpinned
    have hiff : name ∈ line.destinations.map (Code.physicalAt allocated index) ↔
        name ∈ line.destinations := by
      constructor
      · intro hmem
        obtain ⟨original, horiginal, heq⟩ := List.mem_map.mp hmem
        obtain ⟨i, hi, rfl, _, hlocation⟩ := hdestination original horiginal
        rw [← hplacement.register_eq_of_location_pinned hi hpinned (hlocation.symm.trans heq)]
        exact horiginal
      · intro hmem
        obtain ⟨i, hi, rfl, _, hlocation⟩ := hdestination name hmem
        rw [hplacement.location_eq_self_of_pinned hi hpinned] at hlocation
        exact List.mem_map.mpr ⟨i.register, hmem, hlocation⟩
    simp only [hiff, h.pinned name hpinned]
  · intro i hi hwrites hbound
    have hindex : index < i.stop := hbound index (by simp)
    by_cases hmem : i.register ∈ line.destinations
    · obtain ⟨j, hj, hregister, _, hlocation⟩ := hdestination i.register hmem
      rw [hplacement.eq_of_register hj hi hregister] at hlocation
      have hmem' : i.location ∈ line.destinations.map (Code.physicalAt allocated index) :=
        List.mem_map.mpr ⟨i.register, hmem, hlocation⟩
      simp only [if_pos hmem, if_pos hmem']
    · -- the register was written earlier, so its interval contains this line
      obtain ⟨p, hp, line', hget', hwrites'⟩ : ∃ p ∈ past, code.Writes p i.register := by
        obtain ⟨p, hp, line', hget', hwrites'⟩ := hwrites
        rcases List.mem_append.mp hp with hp | hp
        · exact ⟨p, hp, line', hget', hwrites'⟩
        · rw [List.mem_singleton.mp hp, hget] at hget'
          cases hget'
          exact absurd hwrites' hmem
      have hcontains : i.contains index = true := by
        obtain ⟨j, hj, hregister, hcontains⟩ := hplacement.contains p line' hget' i.register
          (Line.mem_referenced_of_mem_destinations hwrites')
        rw [hplacement.eq_of_register hj hi hregister] at hcontains
        have := hpast p hp
        rw [Interval.contains_iff] at hcontains ⊢
        omega
      have hmem' : i.location ∉ line.destinations.map (Code.physicalAt allocated index) := by
        intro hlocation
        obtain ⟨original, horiginal, heq⟩ := List.mem_map.mp hlocation
        obtain ⟨j, hj, rfl, hj_contains, hj_location⟩ := hdestination original horiginal
        have hij : j = i := hplacement.location_inj havoids hpool hj hi hj_contains hcontains
          (hj_location.symm.trans heq)
        exact hmem (hij ▸ horiginal)
      simp only [if_neg hmem, if_neg hmem']
      exact h.live i hi ⟨p, hp, line', hget', hwrites'⟩
        fun p hp => hbound p (List.mem_append_left _ hp)

theorem Tracks.observe :
    machine.observe index (.ofLine line) source = machine.observe index
      (.ofLine (line.mapRegisters (Code.physicalAt allocated index))) target := by
  have hread : line.sources.map source.registers =
      (line.mapRegisters (Code.physicalAt allocated index)).sources.map target.registers := by
    rw [Line.sources_mapRegisters, List.map_map]
    exact List.map_congr_left fun name hname => h.read hplacement hget hpast hwritten hname
  have henvironment := (h.executeAt hplacement hget hpast hwritten havoids hpool).environment
  unfold Machine.observe
  congr 1

end Line

/-- **A stream and its renamed form run alike** along every forward path that writes what it
reads. -/
theorem Tracks.run {path : List Nat} (h : Tracks code allocated [] source target)
    (hplacement : Placement code pool allocated) (havoids : code.Avoids registers)
    (hpool : pool ≤ registers) (hsorted : path.Pairwise (· < ·))
    (hwritten : code.WritesBeforeReads path) :
    Tracks code allocated path (machine.run (code.map .ofLine) path source)
      (machine.run ((code.assign allocated).map .ofLine) path target) ∧
    machine.trace (code.map .ofLine) path source =
      machine.trace ((code.assign allocated).map .ofLine) path target := by
  have hruns := Machine.simulates (code.map .ofLine) ((code.assign allocated).map .ofLine)
    (fun rest source target => ∃ past, path = past ++ rest ∧
      Tracks code allocated past source target)
    (by simp [Code.assign]) ?_ ?_ path ⟨[], rfl, h⟩
  · obtain ⟨⟨past, hpath, hend⟩, htrace⟩ := hruns
    rw [List.append_nil] at hpath
    exact ⟨hpath ▸ hend, htrace⟩
  · rintro index rest source target _ _ hbefore hafter ⟨past, hpath, h⟩
    rw [List.getElem?_map, Option.map_eq_some_iff] at hbefore hafter
    obtain ⟨line, hget, rfl⟩ := hbefore
    obtain ⟨_, hrenamed, rfl⟩ := hafter
    rw [Code.getElem?_assign, hget, Option.map_some, Option.some.injEq] at hrenamed
    subst hrenamed
    have hpast : ∀ p ∈ past, p < index := by
      rw [hpath, List.pairwise_append] at hsorted
      exact fun p hp => hsorted.2.2 p hp index List.mem_cons_self
    have hread := hwritten past index rest hpath line hget
    refine ⟨⟨past ++ [index], by simp [hpath], ?_⟩, ?_⟩
    · exact h.executeAt hplacement hget hpast hread havoids hpool
    · exact h.observe hplacement hget hpast hread havoids hpool
  · rintro index rest source target ⟨past, hpath, h⟩ hbefore
    rw [List.getElem?_map, Option.map_eq_none_iff] at hbefore
    refine ⟨past ++ [index], by simp [hpath], h.environment, h.pinned, ?_⟩
    intro i hi hwrites hbound
    obtain ⟨p, hp, line, hget, hmem⟩ := hwrites
    rcases List.mem_append.mp hp with hp | hp
    · exact h.live i hi ⟨p, hp, line, hget, hmem⟩ fun p hp => hbound p (List.mem_append_left _ hp)
    · rw [List.mem_singleton.mp hp, hbefore] at hget
      cases hget

/-! ## Renaming and spill code -/

theorem length_virtuals_le (code : Code) : code.virtuals.length ≤ code.names.dedup.length := by
  have hsub : code.virtuals ⊆ code.names.dedup := by
    intro name hname
    rw [Code.virtuals, List.mem_dedup] at hname
    exact List.mem_dedup.mpr (List.mem_filter.mp hname).1
  exact ((List.nodup_dedup _).subperm hsub).length_le

theorem Placement.not_hidden_of_pinned (h : Placement code pool allocated) {temporaries : List Nat}
    {groups : List Group} {name : String} (hpinned : Register.isPinned name = true)
    (hnear : name = Register.returnAddress → ¬ HasDistant groups) :
    ¬ Hidden (allocated.filter Interval.isSpilled) temporaries groups name := by
  rintro (hmem | hmem | ⟨heq, hdistant⟩)
  · exact h.not_spilled_of_pinned hpinned hmem
  · obtain ⟨t, _, heq⟩ := List.mem_map.mp hmem
    exact Register.physical_ne_of_isPinned t hpinned heq
  · exact hnear heq hdistant

/-- At the start there is a state of the renamed stream between one of the stream and one of the
groups. -/
theorem Placement.exists_middle (h : Placement code pool allocated) {temporaries : List Nat}
    (hspillable : Spillable (allocated.filter Interval.isSpilled) temporaries) (frame : Frame)
    (groups : List Group) (henvironment : source.environment = target.environment)
    (hpinned : ∀ name, Register.isPinned name = true →
      source.registers name = target.registers name) :
    ∃ middle : machine.State, Tracks code allocated [] source middle ∧
      Mirrors frame (allocated.filter Interval.isSpilled)
        (Hidden (allocated.filter Interval.isSpilled) temporaries groups) middle target := by
  obtain ⟨middle, hmirrors, hkept⟩ := exists_mirrored frame groups hspillable target
  have henvironment' := henvironment.trans hmirrors.environment.symm
  refine ⟨middle, ⟨henvironment', fun name hname => ?_, ?_⟩, hmirrors⟩
  · rw [hpinned name hname, hkept name (h.not_spilled_of_pinned hname)]
  · rintro i _ ⟨p, hp, _⟩
    cases hp

/-- Two states with the same environment and pinned registers, the return address apart if spill
code uses it. -/
structure Alike (groups : List Group) (source target : machine.State) : Prop where
  environment : source.environment = target.environment
  pinned : ∀ name, Register.isPinned name = true →
    (name = Register.returnAddress → ¬ HasDistant groups) →
    source.registers name = target.registers name

/-- **A stream and the groups of a round run alike** along every forward path that writes what it
reads, if the spilled registers share no cell. -/
theorem Code.round_simulates {groups : List Group} {path : List Nat} (hpool : pool ≤ registers)
    (hround : code.round registers pool = .ok groups) (havoids : code.Avoids registers)
    (hslots : code.virtuals.length < 2 ^ 31)
    (hreturn : Register.returnAddress ∈ code.names → ¬ HasDistant groups)
    (hcells : machine.Separates (code.renamedIn pool).frame (code.spilledIn pool))
    (hsorted : path.Pairwise (· < ·)) (hwritten : code.WritesBeforeReads path)
    (henvironment : source.environment = target.environment)
    (hpinned : ∀ name, Register.isPinned name = true →
      source.registers name = target.registers name) :
    machine.trace (code.map .ofLine) path source = machine.trace groups path target ∧
      Alike groups (machine.run (code.map .ofLine) path source)
        (machine.run groups path target) := by
  have hplacement := placement_allocate code pool
  have hplan := Code.spillPlan_round hpool havoids hslots
  obtain ⟨middle, htracks, hmirrors⟩ := hplacement.exists_middle hplan.toSpillable
    (code.renamedIn pool).frame groups henvironment hpinned
  obtain ⟨hend, htrace⟩ := htracks.run hplacement havoids hpool hsorted hwritten
  obtain ⟨hend', htrace'⟩ := hmirrors.run hplan
    (fun hname => hreturn (hplacement.mem_names_of_pinned (by decide) hname)) hround hcells path
  refine ⟨htrace.trans htrace', hend.environment.trans hend'.environment, ?_⟩
  intro name hname hnear
  exact (hend.pinned name hname).trans
    (hend'.registers name (hplacement.not_hidden_of_pinned hname hnear))

/-- **Compilation preserves meaning on forward paths.**  A compiled stream consists of one segment
for each line, and all spill code in it reads back as loads and stores of the slots that it is for.
Take a strictly increasing path that writes registers before it reads them, and states with the same
environment and pinned registers.  Then every line reads the same values and leaves the same
environment in both streams; at the end the pinned registers are the same too, unless spill code for
distant slots used the return-address register.  This holds of the groups if every offset has a cell
of its own.  It holds of the code itself on a machine with addresses of 16 bits, as long as it
spills no more registers than there are words. -/
theorem compile_simulates {options : Options} {out : Code} (machine : Machine)
    (hok : (code.compile options).result = .ok out) (hnames : code.names.dedup.length < 2 ^ 31)
    (havoids : code.Avoids options.registers) :
    ∃ pool groups, (pool ≤ options.registers ∧ code.Tries options.registers pool ∧
        code.round options.registers pool = .ok groups) ∧
      let segments := groups.map Group.segment
      (out = segments.flatMap Segment.code ∧ segments.length = code.length ∧
        ∀ group ∈ groups, group.ReadsBack) ∧
      ((Register.returnAddress ∈ code.names → ¬ HasDistant groups) →
        ∀ path : List Nat, path.Pairwise (· < ·) → code.WritesBeforeReads path →
        ∀ source target : machine.State, source.environment = target.environment →
        (∀ name, Register.isPinned name = true →
          source.registers name = target.registers name) →
        (machine.IsWide →
          machine.trace (code.map .ofLine) path source = machine.trace groups path target ∧
          Alike groups (machine.run (code.map .ofLine) path source)
            (machine.run groups path target)) ∧
        (machine.IsNarrow → (code.spilledIn pool).length ≤ 65536 → ∃ final,
          machine.runCode segments path target =
            some (machine.trace (code.map .ofLine) path source, final) ∧
          Alike groups (machine.run (code.map .ofLine) path source) final)) := by
  obtain ⟨groups, hgroups, hout⟩ := Code.exists_groups hok
  obtain ⟨pool, hpool, htries, hround⟩ := Code.exists_last_round hgroups
  have hslots : code.virtuals.length < 2 ^ 31 :=
    Nat.lt_of_le_of_lt (length_virtuals_le code) hnames
  have hplan := Code.spillPlan_round hpool havoids hslots
  refine ⟨pool, groups, ⟨hpool, htries, hround⟩, ⟨?_, ?_, fun group _ => group.readsBack⟩, ?_⟩
  · rw [hout, Code.ofGroups_eq_segments]
  · rw [List.length_map, (Code.spill_renders hplan.toSpillable hround).1, Code.length_renamedIn]
  · intro hreturn path hsorted hwritten source target henvironment hpinned
    refine ⟨fun hwide => ?_, fun hnarrow hlength => ?_⟩
    · exact Code.round_simulates hpool hround havoids hslots hreturn
        (hwide.separates hplan.slot hplan.slot_nodup _) hsorted hwritten henvironment hpinned
    · obtain ⟨htrace, hend⟩ := Code.round_simulates hpool hround havoids hslots hreturn
        (hnarrow.separates hplan.slot (Code.slotsApart_spilledIn hlength) _) hsorted hwritten
        henvironment hpinned
      refine ⟨_, ?_, hend⟩
      rw [Machine.runCode_segments hnarrow, htrace]

/-- Three registers for `sp := (a + b) + c`: two of them become temporaries, and `b`, `c` and the
sum `d` are spilled, the last two to distant slots. -/
theorem compile_simulates_spilled :
    let machine : Machine := ⟨Int, Int, fun _ operands values total =>
      (total + values.sum, values.sum + operands.length), fun offset => offset % 65536,
      fun _ _ => 0⟩
    let code : Code := [.instr .enter [.number 15], .instr .li [.register "a", .number 1],
      .instr .li [.register "b", .number 2], .instr .li [.register "c", .number 3],
      .instr .add [.register "d", .register "a", .register "b"],
      .instr .add [.register "sp", .register "d", .register "c"]]
    let b : Access := ⟨"b", 0, 2, -16⟩
    let c : Access := ⟨"c", 1, 2, -17⟩
    let d (temporary : Nat) : Access := ⟨"d", 2, temporary, -18⟩
    let groups : List Group := [.ofLine (.instr .enter [.number 18]),
      .ofLine (.instr .li [.register "r0", .number 1]),
      ⟨[], .instr .li [.register "r2", .number 2], [b]⟩,
      ⟨[], .instr .li [.register "r2", .number 3], [c]⟩,
      ⟨[b], .instr .add [.register "r2", .register "r0", .register "r2"], [d 2]⟩,
      ⟨[c, d 1], .instr .add [.register "sp", .register "r1", .register "r2"], []⟩]
    let path : List Nat := [1, 2, 3, 4, 5]
    let source : machine.State := ⟨0, fun _ => 7, fun _ => 8⟩
    let target : machine.State :=
      ⟨0, fun name => if Register.isPinned name then 7 else 9, fun _ => 10⟩
    ((code.compile ⟨3, true⟩).result = .ok (Code.ofGroups groups) ∧ HasDistant groups ∧
      path.Pairwise (· < ·) ∧ code.WritesBeforeReads path) ∧
    ∃ final, machine.runCode (groups.map Group.segment) path target =
        some (machine.trace (code.map .ofLine) path source, final) ∧
      (machine.run (code.map .ofLine) path source).registers "sp" = final.registers "sp" := by
  intro machine code b c d groups path source target
  have hok : (code.compile ⟨3, true⟩).result = .ok (Code.ofGroups groups) := by decide +kernel
  have hround : code.round 3 1 = .ok groups := by decide +kernel
  have hsorted : path.Pairwise (· < ·) := by decide
  have hwritten : code.WritesBeforeReads path := by
    intro past index rest hpath line hget
    have hlt : past.length < 5 := by
      have hlength := congrArg List.length hpath
      simp only [path, List.length_cons, List.length_nil, List.length_append] at hlength
      omega
    have hpast : past = path.take past.length := by simp [hpath]
    have hindex : path[past.length]? = some index := by simp [hpath]
    rw [hpast]
    generalize past.length = n at hlt hindex
    interval_cases n <;> cases hindex <;> cases hget <;> decide
  obtain ⟨pool, groups', ⟨hpool, htries, hround'⟩, _, hruns⟩ :=
    compile_simulates machine hok (by decide) (by decide)
  obtain rfl : pool = 1 :=
    htries.eq_of_ok (by decide +kernel) hpool (by decide) hround' hround
  cases hround.symm.trans hround'
  have hpinned : ∀ name, Register.isPinned name = true →
      source.registers name = target.registers name := fun name hname => (if_pos hname).symm
  obtain ⟨final, hrun, hend⟩ :=
    (hruns (by decide) path hsorted hwritten source target rfl hpinned).2 (fun _ _ => Iff.rfl)
      (by decide +kernel)
  exact ⟨⟨hok, by decide, hsorted, hwritten⟩, final, hrun, hend.pinned "sp" (by decide) (by decide)⟩

end TurtleAlloc
