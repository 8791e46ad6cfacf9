import R3000.Machine.Restore
import R3000.Proofs.Machine.Running
import R3000.Proofs.Session.Validity

/-!
# Machines whose units keep a law

A law of units survives everything that can be done to a machine but a change of its breakpoints:
whatever replaces memory wholesale drops the units outside ROM, and everything else keeps the words
that hold code, or raises the watch.
-/

namespace R3000

namespace Machine

/-- The law holds of the units, at the memory, and of the machine's own list of breakpoints. -/
structure Valid (L : UnitLaw) (m : Machine) : Prop where
  shop : m.recompiler.shop.Valid L m.mem
  table : L.table m.breakpoints

variable {L : UnitLaw} {m m' : Machine}

/-! ## Requests that may be refused -/

theorem addBreakpoint_cases (m : Machine) (addr : Word) :
    (m.addBreakpoint addr).1 = m ∨ addr ∉ m.breakpoints ∧
      (m.recompiler.shop.addBreakpoint addr).2 = none ∧
      (m.addBreakpoint addr).1 = { m with
        recompiler := { m.recompiler with shop := (m.recompiler.shop.addBreakpoint addr).1 }
        breakpoints := m.breakpoints ++ [addr] } := by
  unfold Machine.addBreakpoint
  split
  · exact .inl rfl
  next hnew =>
    have hcases := m.recompiler.shop.addBreakpoint_cases addr
    generalize m.recompiler.shop.addBreakpoint addr = out at hcases ⊢
    obtain ⟨shop, refused⟩ := out
    cases refused with
    | none => exact .inr ⟨fun hmem => hnew (List.contains_iff_mem.mpr hmem), rfl, rfl⟩
    | some e =>
      obtain ⟨rfl, -⟩ | ⟨-, -, hset⟩ := hcases
      · exact .inl rfl
      · cases hset

theorem place_cases (m : Machine) (image : Bytes) (addr : Word) :
    (∃ e, m.place image addr = (m, some e)) ∨ ∃ mem, m.mem.loadBinary image addr = (mem, none) ∧
      m.place image addr = ({ m with mem }.clearCode, none) := by
  unfold Machine.place
  by_cases hfits : (locate addr).region = .ram ∧
      (locate addr).offset.toNat + image.size ≤ ramSize.toNat
  · exact .inr ⟨_, if_pos hfits, by rw [show m.mem.loadBinary image addr = _ from if_pos hfits]⟩
  · exact .inl ⟨_, by rw [show m.mem.loadBinary image addr = _ from if_neg hfits]⟩

theorem loadBinary_cases (m : Machine) (data : Bytes) (addr : Word) :
    (m.loadBinary data addr).1 = m ∨ ∃ image mem, m.mem.loadBinary image addr = (mem, none) ∧
      (m.loadBinary data addr).1 = { m with mem }.clearCode := by
  unfold Machine.loadBinary
  cases unpackImage data with
  | error e => exact .inl rfl
  | ok image =>
    obtain ⟨e, heq⟩ | ⟨mem, hmem, heq⟩ := m.place_cases image addr
    · exact .inl (congrArg Prod.fst heq)
    · exact .inr ⟨image, mem, hmem, congrArg Prod.fst heq⟩

theorem loadExe_cases (m : Machine) (data : Bytes) :
    (m.loadExe data).1 = m ∨ ∃ image addr mem header,
      m.mem.loadBinary image addr = (mem, none) ∧
        (m.loadExe data).1 = ({ m with mem } : Machine).clearCode.enter header := by
  unfold Machine.loadExe
  cases readExe data with
  | error e => exact .inl rfl
  | ok read =>
    obtain ⟨header, image⟩ := read
    dsimp only
    obtain ⟨e, heq⟩ | ⟨mem, hmem, heq⟩ := m.place_cases image header.textAddr
    · rw [heq]
      exact .inl rfl
    · rw [heq]
      exact .inr ⟨image, _, mem, header, hmem, rfl⟩

def takeOver (m : Machine) (s : Snapshot) : Machine :=
  { m with
    cpu := Cpu.restore s.cpu
    mem :=
      { m.mem with
        ram := Bank.ofBytes ramWords s.ram
        devices := m.mem.devices.load s.devices }.setRamWritable
          !(Cpu.restore s.cpu).control.cacheIsolated
    fatal := none
    resumeFrom := none
    pendingTicks := 0 }.clearCode

theorem restore_eq (m : Machine) (s : Snapshot) :
    m.restore s = if s.ram.size = ramSize.toNat then (m.takeOver s, none)
      else (m, some (.invalid (.ramSizeMismatch s.ram.size))) := by
  unfold restore AddressSpace.restoreRam
  by_cases hsize : s.ram.size = ramSize.toNat
  · rw [if_pos hsize, if_pos hsize]
    rfl
  · rw [if_neg hsize, if_neg hsize]

theorem restore_cases (m : Machine) (s : Snapshot) :
    (m.restore s).1 = m ∨ (m.restore s).1 = m.takeOver s := by
  rw [restore_eq]
  split
  · exact .inr rfl
  · exact .inl rfl

theorem restoreBytes_cases (m : Machine) (c : Compression) (data : Bytes) :
    (m.restoreBytes c data).1 = m ∨ ∃ s, (m.restoreBytes c data).1 = m.takeOver s := by
  unfold restoreBytes
  cases Snapshot.ofBytes c data with
  | error e => exact .inl rfl
  | ok s => exact (m.restore_cases s).imp_right fun h => ⟨s, h⟩

theorem Valid.units (h : m.Valid L) : m.recompiler.shop.registry.All (L.unit m.mem) :=
  h.shop.units

theorem Valid.of_mem (h : m.Valid L) (hr : m'.recompiler = m.recompiler)
    (hb : m'.breakpoints = m.breakpoints) (hk : m.mem.Keeps m'.mem) : m'.Valid L := by
  refine ⟨?_, hb ▸ h.table⟩
  rw [hr]
  exact h.shop.keeps hk

/-- Once compiled code is dropped, memory may be anything. -/
theorem Valid.clearCode (h : m.Valid L) (hrom : L.Fixed) (hr : m'.recompiler = m.recompiler)
    (hb : m'.breakpoints = m.breakpoints) : m'.clearCode.Valid L := by
  unfold Machine.clearCode Recompiler.clearCache
  refine ⟨?_, hb ▸ h.table⟩
  dsimp only
  rw [hr]
  exact h.shop.clearCache hrom _

/-! ## Running -/

theorem Valid.has (h : m.Valid L) : m.Has (fun w mem => True ∧ w.Valid L mem) m.breakpoints :=
  ⟨⟨trivial, h.shop⟩, rfl⟩

theorem Valid.of_has (h : m.Valid L)
    (h' : m'.Has (fun w mem => True ∧ w.Valid L mem) m.breakpoints) : m'.Valid L :=
  ⟨h'.holds.2, h'.table ▸ h.table⟩

theorem Valid.flushTicks (h : m.Valid L) : m.flushTicks.Valid L :=
  h.of_mem rfl rfl (.of_devices _ _)

theorem Valid.interpretOne (h : m.Valid L) : m.interpretOne.Valid L :=
  h.of_has (h.has.interpretOne (Workshop.lasting_valid L fun h _ => h))

theorem Valid.runDispatched (h : m.Valid L) (hrom : L.Fixed) (remaining : Nat) :
    (m.runDispatched remaining).Valid L :=
  h.of_has (h.has.runDispatched (Workshop.durable_valid hrom) remaining)

theorem Valid.stepOnce (h : m.Valid L) (hrom : L.Fixed) (remaining : Nat) :
    (m.stepOnce remaining).1.Valid L :=
  h.of_has (h.has.stepOnce (Workshop.durable_valid hrom) remaining)

theorem lasting_valid (hrom : L.Fixed) : Lasting (Machine.Valid L) where
  debugger _ _ h := ⟨h.shop, h.table⟩
  flushTicks h := h.flushTicks
  stepOnce remaining h := h.stepOnce hrom remaining

theorem Valid.work (h : m.Valid L) (htwo : L.two) (limit : Nat) : (m.work limit).1.Valid L :=
  ⟨(h.shop.pump htwo limit).valid, h.table⟩

/-! ## Everything else -/

theorem Valid.enter (h : m.Valid L) (header : ExeHeader) : (m.enter header).Valid L :=
  h.of_mem rfl rfl (.refl _)

theorem valid_create {config : Config} (hrom : L.Fixed) (hr : L.reach (Workshop.create config).reach)
    (ht : L.table []) : (create config).Valid L := by
  have hnew : ({ mem := .empty, recompiler := .create config } : Machine).Valid L :=
    ⟨Workshop.valid_create hr ht, ht⟩
  exact hnew.clearCode hrom rfl rfl

theorem Valid.loadBinary (h : m.Valid L) (hrom : L.Fixed) (data : Bytes) (addr : Word) :
    (m.loadBinary data addr).1.Valid L := by
  obtain heq | ⟨image, mem, -, heq⟩ := m.loadBinary_cases data addr <;> rw [heq]
  · exact h
  · exact h.clearCode hrom rfl rfl

theorem Valid.loadExe (h : m.Valid L) (hrom : L.Fixed) (data : Bytes) : (m.loadExe data).1.Valid L := by
  obtain heq | ⟨image, addr, mem, header, -, heq⟩ := m.loadExe_cases data <;> rw [heq]
  · exact h
  · refine Valid.enter ?_ header
    exact h.clearCode hrom rfl rfl

theorem Valid.takeOver (h : m.Valid L) (hrom : L.Fixed) (s : Snapshot) : (m.takeOver s).Valid L :=
  h.clearCode hrom rfl rfl

theorem Valid.reset (h : m.Valid L) (hrom : L.Fixed) : m.reset.Valid L := by
  unfold Machine.reset
  dsimp only
  split
  · exact h.clearCode hrom rfl rfl
  · exact h.clearCode hrom rfl rfl

theorem valid_boot {bios : Bytes} {config : Config} (hrom : L.Fixed)
    (hr : L.reach (Workshop.create config).reach) (ht : L.table [])
    (hb : boot bios config = .ok m) : m.Valid L := by
  unfold boot at hb
  split at hb
  · cases hb
    exact valid_create hrom hr ht
  · dsimp only at hb
    split at hb <;> cases hb
    exact (valid_create hrom hr ht).clearCode hrom rfl rfl

end Machine

end R3000
