import OsCourse.Rv32.Run

/-!
# Reservations

`LR.W` and `SC.W` over whole runs.  A run is recorded with the reservations and the
conditional stores that it executes.

`SC.W` compares its address with the slot in `EXTRAFLAGS` and leaves the slot as it
is, and an empty slot is the slot of the address 0.  A conditional store can thus
succeed a second time, or without any reservation.  Through traps, `MRET`, sleep and the
other atomic instructions the slot is the address of the last `LR.W` (`Tracks`), so that it
is known from the accesses of a run which conditional stores succeed by mistake.
-/

namespace OsCourse.Rv32

/-! ## Recorded runs -/

/-- The word that is executed in a step, after the update of the timer. -/
def fetched (s : CPUState) : Option Word :=
  let ofsPc := s.csrs .pc - s.memOffset
  if asleep s ∨ timerInterrupt s ∨ ofsPc ≥ s.memSize ∨ ofsPc &&& 3 ≠ 0 then none
  else (s.read32 ofsPc.toNat).toOption

/-- An `LR.W`, or an `SC.W` with what came of it. -/
inductive Access where
  | loadReserved (addr : Word)
  | storeConditional (addr : Word) (stored : Bool)
  deriving DecidableEq, Repr

def Access.isStoreConditional : Access → Bool
  | .loadReserved _ => false
  | .storeConditional _ _ => true

/-- What the instruction is, where it does not raise an access fault. -/
def atomicAccess (s : CPUState) (ir : Word) : Option Access :=
  let addr := rs1 s ir - s.memOffset
  if (ir &&& 0x7f).toNat = 0x2f ∧ ¬ addr ≥ s.memSize - 3 then
    match ((ir >>> 27) &&& 0x1f).toNat with
    | 2 => some (.loadReserved (rs1 s ir))
    | 3 => (s.read32 addr.toNat).toOption.map fun word =>
        let (rval, write, _) := amoOp s ir addr (rs2 s ir) word
        .storeConditional (rs1 s ir) (rval = 0 ∧ write.isSome)
    | _ => none
  else none

def access (s : CPUState) : Option Access := (fetched s).bind (atomicAccess s)

/-- The states that steps of the emulator lead to, and what was executed on the way. -/
inductive Run (s₀ : CPUState) : List Access → CPUState → Prop where
  | start : Run s₀ [] s₀
  | step {past s e s' code} (run : Run s₀ past s) (h : rv32imaStep s e = .ok (s', code)) :
      Run s₀ (past ++ (access (updateTimer s e)).toList) s'

/-- The loop of `main`, for a `debug_climit`. -/
def emulate : Nat → List Access → CPUState → Except Fault (List Access × CPUState)
  | 0, past, s => .ok (past, s)
  | climit + 1, past, s => do
      let past := past ++ (access (updateTimer s 1)).toList
      let (s, ret) ← rv32imaStep s 1
      if ret = 0 ∧ s.csrs .pc ≠ 0 then emulate climit past s else .ok (past, s)

theorem emulate_run {s₀ : CPUState} {climit : Nat} {past past' : List Access} {s s' : CPUState}
    (run : Run s₀ past s) (h : emulate climit past s = .ok (past', s')) : Run s₀ past' s' := by
  induction climit generalizing past s with
  | zero =>
      cases h
      exact run
  | succ climit ih =>
      obtain ⟨⟨t, ret⟩, hstep, h⟩ := bind_ok h
      have run' := run.step hstep
      dsimp only at h
      split at h
      · exact ih run' h
      · cases h
        exact run'

/-! ## Conditional stores that succeed -/

/-- There is an `LR.W` of `addr` after which no `SC.W` was executed. -/
def Reserved (past : List Access) (addr : Word) : Prop :=
  ∃ before between, past = before ++ .loadReserved addr :: between ∧
    ∀ x ∈ between, x.isStoreConditional = false

/-- What holds of each `SC.W`, by the accesses before it, its address and its outcome. -/
def EachConditional (p : List Access → Word → Bool → Prop) (run : List Access) : Prop :=
  ∀ past addr stored rest, run = past ++ .storeConditional addr stored :: rest → p past addr stored

/-- Each `SC.W` that stores was preceded by the `LR.W` of its address, with no other
`SC.W` between them. -/
def Sound : List Access → Prop :=
  EachConditional fun past addr stored => stored = true → Reserved past addr

/-- The address of the last `LR.W`, and 0 before the first one. -/
def lastReserved (past : List Access) : Word :=
  past.foldl (fun last x =>
    match x with
    | .loadReserved addr => addr
    | .storeConditional _ _ => last) 0

/-- Each `SC.W` was executed after an `LR.W`, of whatever address, with no other `SC.W`
between them, or its address is not that of the last `LR.W`. -/
def Fresh : List Access → Prop :=
  EachConditional fun past addr _ => (∃ b, Reserved past b) ∨ addr ≠ lastReserved past

section
variable {p : List Access → Word → Bool → Prop} {past : List Access}

theorem EachConditional.nil : EachConditional p [] := by
  intro past addr stored rest h
  simp at h

theorem eachConditional_append {x : Access} :
    EachConditional p (past ++ [x]) ↔ EachConditional p past ∧
      ∀ addr stored, x = .storeConditional addr stored → p past addr stored := by
  constructor
  · intro h
    refine ⟨fun before addr stored rest heq =>
      h before addr stored (rest ++ [x]) (by simp [heq]), ?_⟩
    rintro addr stored rfl
    exact h past addr stored [] rfl
  · rintro ⟨hpast, hx⟩ before addr stored rest heq
    -- The store is the last access, or lies in the past.
    rcases List.eq_nil_or_concat rest with rfl | ⟨rest, y, rfl⟩
    · obtain ⟨rfl, hlast⟩ := List.append_inj' heq rfl
      exact hx addr stored (List.singleton_inj.mp hlast)
    · rw [List.concat_eq_append, ← List.cons_append, ← List.append_assoc] at heq
      exact hpast before addr stored rest (List.append_inj' heq rfl).1

@[simp] theorem lastReserved_loadReserved (past : List Access) (addr : Word) :
    lastReserved (past ++ [.loadReserved addr]) = addr := by
  simp [lastReserved]

@[simp] theorem lastReserved_storeConditional (past : List Access) (addr : Word) (stored : Bool) :
    lastReserved (past ++ [.storeConditional addr stored]) = lastReserved past := by
  simp [lastReserved]

/-- After a reservation without a conditional store the last access is a reservation, and
it is the last reservation. -/
theorem Reserved.last {addr : Word} (h : Reserved past addr) :
    Reserved past (lastReserved past) := by
  obtain ⟨before, between, rfl, hbetween⟩ := h
  rcases List.eq_nil_or_concat between with rfl | ⟨between, y, rfl⟩
  · rw [lastReserved_loadReserved]
    exact ⟨before, [], rfl, hbetween⟩
  · have hy := hbetween y (by simp)
    cases y with
    | loadReserved last =>
        have hsplit : before ++ .loadReserved addr :: between.concat (.loadReserved last) =
            (before ++ .loadReserved addr :: between) ++ [.loadReserved last] := by simp
        rw [hsplit, lastReserved_loadReserved]
        exact ⟨_, [], rfl, by simp⟩
    | storeConditional => simp [Access.isStoreConditional] at hy

end

/-! ## The slot along a run -/

section
variable {s : CPUState} {ir : Word}

theorem fetched_eq_some : fetched s = some ir ↔ Fetches s ir := by
  unfold fetched
  dsimp only
  constructor
  · intro h
    split at h
    · cases h
    next hfetch =>
      simp only [not_or, not_not] at hfetch
      obtain ⟨hawake, hquiet, hin, halign⟩ := hfetch
      exact ⟨hawake, hquiet, hin, halign, toOption_eq_some.mp h⟩
  · rintro ⟨hawake, hquiet, hin, halign, hread⟩
    rw [if_neg (by simp only [not_or, not_not]; exact ⟨hawake, hquiet, hin, halign⟩)]
    exact toOption_eq_some.mpr hread

theorem access_eq_some {x : Access} :
    access s = some x ↔ ∃ ir, Fetches s ir ∧ atomicAccess s ir = some x := by
  simp only [access, Option.bind_eq_some_iff, fetched_eq_some]

theorem atomicAccess_loadReserved {addr : Word} :
    atomicAccess s ir = some (.loadReserved addr) ↔ Reserves s ir ∧ rs1 s ir = addr := by
  constructor
  · intro h
    unfold atomicAccess at h
    dsimp only at h
    split at h
    next hin =>
      split at h
      next hlr => exact ⟨⟨hin.1, hin.2, hlr⟩, by simpa using h⟩
      · simp at h
      · simp at h
    · simp at h
  · rintro ⟨⟨hop, hin, hlr⟩, rfl⟩
    unfold atomicAccess
    dsimp only
    rw [if_pos ⟨hop, hin⟩, hlr]
    rfl

theorem atomicAccess_storeConditional {addr : Word} {stored : Bool}
    (h : atomicAccess s ir = some (.storeConditional addr stored)) :
    ¬ addr - s.memOffset ≥ s.memSize - 3 ∧
      (stored = true ↔ slot s = (addr - s.memOffset) &&& 0x1fffffff) := by
  unfold atomicAccess at h
  dsimp only at h
  split at h
  next hin =>
    split at h
    · simp at h
    next h3 =>
      obtain ⟨word, -, hx⟩ := Option.map_eq_some_iff.mp h
      obtain ⟨rfl, hstored⟩ := Access.storeConditional.inj hx
      refine ⟨hin.2, ?_⟩
      rw [← hstored, amoOp_sc h3]
      split
      next hslot => exact iff_of_false (by simp) hslot
      next hslot => exact iff_of_true (by simp) (not_not.mp hslot)
    · simp at h
  · simp at h

/-- An access that is not a reservation is not the execution of `LR.W`. -/
theorem not_reserves_of_access (h : ∀ addr, access s ≠ some (.loadReserved addr))
    (hf : Fetches s ir) : ¬ Reserves s ir := fun hlr =>
  h (rs1 s ir) (access_eq_some.mpr ⟨ir, hf, atomicAccess_loadReserved.mpr ⟨hlr, rfl⟩⟩)

end

/-- Addresses of the memory that `main` allocates fit into the slot. -/
theorem toNat_lt_of_inside {addr : Word} (h : ¬ addr ≥ BitVec.ofNat 32 ramSize - 3) :
    addr.toNat < 2 ^ 29 := by
  have hsize : (BitVec.ofNat 32 ramSize - 3).toNat < 2 ^ 26 := by decide
  have hlt := BitVec.lt_def.mp (BitVec.not_le.mp h)
  omega

/-- The memory is the one that `main` allocates, and the slot is the address of the last
`LR.W`. -/
structure Tracks (past : List Access) (s : CPUState) : Prop where
  memOffset : s.memOffset = 0
  memSize : s.memSize = BitVec.ofNat 32 ramSize
  slot : slot s = lastReserved past

theorem Tracks.boot (image : List (BitVec 8)) (margs : List Word) :
    Tracks [] (boot image margs) := by
  refine ⟨rfl, rfl, ?_⟩
  have hzero : (0 : Word) >>> 3 = 0 := by decide
  exact hzero

section
variable {past : List Access} {s t : CPUState}

theorem Tracks.of_keeps (h : Tracks past s) (hk : Keeps s t) : Tracks past t where
  memOffset := hk.memOffset.trans h.memOffset
  memSize := hk.memSize.trans h.memSize
  slot := hk.slot.trans h.slot

/-- A step keeps track of the slot. -/
theorem Tracks.outcome {r : CPUState × Word} (h : Tracks past s) (hstep : Outcome s r) :
    Tracks (past ++ (access s).toList) r.1 := by
  match haccess : access s with
  | none =>
      rw [Option.toList_none, List.append_nil]
      exact h.of_keeps (hstep.keeps fun ir => not_reserves_of_access (by simp [haccess]))
  | some (.loadReserved addr) =>
      obtain ⟨ir, hf, hx⟩ := access_eq_some.mp haccess
      obtain ⟨hlr, rfl⟩ := atomicAccess_loadReserved.mp hx
      obtain ⟨hoffset, hsize, hslot⟩ := hstep.reserves hf hlr
      have hin := hlr.2.1
      have hzero : rs1 s ir - s.memOffset = rs1 s ir := by
        rw [h.memOffset]
        exact BitVec.sub_zero _
      rw [hzero, h.memSize] at hin
      rw [hzero, and_mask (toNat_lt_of_inside hin)] at hslot
      refine ⟨hoffset.trans h.memOffset, hsize.trans h.memSize, ?_⟩
      rw [Option.toList_some, lastReserved_loadReserved, hslot]
  | some (.storeConditional addr stored) =>
      have hk := hstep.keeps fun ir => not_reserves_of_access (by simp [haccess])
      refine ⟨hk.memOffset.trans h.memOffset, hk.memSize.trans h.memSize, ?_⟩
      rw [Option.toList_some, lastReserved_storeConditional, hk.slot, h.slot]

theorem Tracks.step {e : Word} {s' : CPUState} {code : Word} (h : Tracks past s)
    (hstep : rv32imaStep s e = .ok (s', code)) :
    Tracks (past ++ (access (updateTimer s e)).toList) s' :=
  (h.of_keeps (updateTimer_keeps s e)).outcome (rv32imaStep_outcome hstep)

theorem Run.tracks {image : List (BitVec 8)} {margs : List Word}
    (h : Run (boot image margs) past s) : Tracks past s := by
  induction h with
  | start => exact .boot image margs
  | step _ hstep ih => exact ih.step hstep

/-- A conditional store succeeds exactly if its address is that of the last `LR.W`. -/
theorem Tracks.stored_iff (h : Tracks past s) {addr : Word} {stored : Bool}
    (hstore : access s = some (.storeConditional addr stored)) :
    stored = true ↔ addr = lastReserved past := by
  obtain ⟨ir, -, hx⟩ := access_eq_some.mp hstore
  obtain ⟨hin, hstored⟩ := atomicAccess_storeConditional hx
  have hzero : addr - s.memOffset = addr := by
    rw [h.memOffset]
    exact BitVec.sub_zero addr
  rw [hzero, h.memSize] at hin
  rw [hstored, hzero, and_mask (toNat_lt_of_inside hin), h.slot, eq_comm]

/-- One conditional store is sound exactly if it is fresh. -/
theorem Tracks.sound_iff (h : Tracks past s) {addr : Word} {stored : Bool}
    (hstore : access s = some (.storeConditional addr stored)) :
    (stored = true → Reserved past addr) ↔
      (∃ b, Reserved past b) ∨ addr ≠ lastReserved past := by
  rw [h.stored_iff hstore]
  constructor
  · intro hsound
    by_cases haddr : addr = lastReserved past
    · exact .inl ⟨addr, hsound haddr⟩
    · exact .inr haddr
  · rintro (⟨b, hb⟩ | hne) haddr
    · exact haddr ▸ hb.last
    · exact absurd haddr hne

end

/-- In every run from the state that `main` builds, the conditional stores are sound exactly
when each `SC.W` without an `LR.W` since the `SC.W` before it has an address other than that of
the last `LR.W`. -/
theorem sound_iff_fresh (image : List (BitVec 8)) (margs : List Word) (past : List Access)
    (s : CPUState) (h : Run (boot image margs) past s) : Sound past ↔ Fresh past := by
  induction h with
  | start => exact ⟨fun _ => .nil, fun _ => .nil⟩
  | @step past s e s' code run hstep ih =>
      have htracks := run.tracks.of_keeps (updateTimer_keeps s e)
      match haccess : access (updateTimer s e) with
      | none => simpa using ih
      | some x =>
          rw [Option.toList_some, Sound, Fresh, eachConditional_append, eachConditional_append]
          refine and_congr ih (forall₃_congr fun addr stored hx => ?_)
          exact htracks.sound_iff (hx ▸ haccess)

/-- `lr.w t0, (zero)` and `sc.w t1, zero, (zero)`. -/
def reserveAndStore : List (BitVec 8) := [0xaf, 0x22, 0x00, 0x10, 0x2f, 0x23, 0x00, 0x18]

theorem sound_iff_fresh_reserveAndStore :
    ∃ s, Run (boot reserveAndStore []) [.loadReserved 0, .storeConditional 0 true] s ∧
      Sound [.loadReserved 0, .storeConditional 0 true] := by
  obtain ⟨s, hrun⟩ : ∃ s, emulate 2 [] (boot reserveAndStore []) =
      .ok ([.loadReserved 0, .storeConditional 0 true], s) := ⟨_, rfl⟩
  have hreserved : Reserved [.loadReserved 0] 0 := ⟨[], [], rfl, by simp⟩
  have hfresh : Fresh ([.loadReserved 0] ++ [.storeConditional 0 true]) :=
    eachConditional_append.mpr ⟨eachConditional_append.mpr ⟨.nil, by simp⟩,
      fun _ _ _ => .inl ⟨0, hreserved⟩⟩
  have hrun := emulate_run .start hrun
  exact ⟨s, hrun, (sound_iff_fresh _ _ _ s hrun).mpr hfresh⟩

/-- `sc.w t0, zero, (zero)` as the first instruction. -/
def storeConditionalFirst : List (BitVec 8) := [0xaf, 0x22, 0x00, 0x18]

/-- The first conditional store of a program stores, without any reservation. -/
theorem not_sound_storeConditionalFirst :
    ∃ s, Run (boot storeConditionalFirst []) [.storeConditional 0 true] s ∧
      ¬ Sound [.storeConditional 0 true] := by
  obtain ⟨s, hrun⟩ : ∃ s, emulate 1 [] (boot storeConditionalFirst []) =
      .ok ([.storeConditional 0 true], s) := ⟨_, rfl⟩
  refine ⟨s, emulate_run .start hrun, fun hsound => ?_⟩
  obtain ⟨before, between, h, -⟩ := hsound [] 0 true [] rfl rfl
  simp at h

end OsCourse.Rv32
