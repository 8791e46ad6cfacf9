import R3000.Cpu.Step

/-!
# What no access ends

Memory changes in a few ways only: a tag is set, a word of RAM or of the scratchpad is stored, a
register of a device is read or written, RAM writes are switched on or off.  A relation between an
earlier and a later memory that survives the first three (`AddressSpace.Accessed`) survives every
access, and with the last one every interpreted instruction.  Most relations survive all of them and
whatever else devices do (`AddressSpace.Enduring`).
-/

namespace R3000

namespace AddressSpace

/-- A relation between an earlier and a later memory that no tag ends. -/
structure Tagging (R : AddressSpace → AddressSpace → Prop) : Prop where
  refl : ∀ m : AddressSpace, R m m
  trans : ∀ {m m' m'' : AddressSpace}, R m m' → R m' m'' → R m m''
  setTag : ∀ (m : AddressSpace) (addr : Word) (bits : UInt8), R m (m.setTag addr bits)

/-- A relation that no store to a buffer ends. -/
structure Stored (R : AddressSpace → AddressSpace → Prop) : Prop extends Tagging R where
  writeRam : ∀ (m : AddressSpace) (offset : Word) (width : Width) (value : Word),
    R m (m.writeRam offset width value)
  writeScratch : ∀ (m : AddressSpace) (offset : Word) (width : Width) (value : Word),
    R m (m.writeScratch offset width value)

/-- A relation that no access ends. -/
structure Enduring (R : AddressSpace → AddressSpace → Prop) : Prop extends Stored R where
  setRamWritable : ∀ (m : AddressSpace) (enabled : Bool), R m (m.setRamWritable enabled)
  devices : ∀ (m : AddressSpace) (devices : Peripherals), R m { m with devices }

/-- A relation that no access ends, those to devices included. -/
structure Accessed (R : AddressSpace → AddressSpace → Prop) : Prop extends Stored R where
  readDevice : ∀ (m : AddressSpace) (phys : Word) (width : Width),
    R m { m with devices := (m.devices.read phys width).2 }
  writeDevice : ∀ (m : AddressSpace) (phys : Word) (width : Width) (value : Word),
    R m { m with devices := m.devices.write phys width value }

theorem Enduring.accessed {R : AddressSpace → AddressSpace → Prop} (hR : Enduring R) :
    Accessed R where
  toStored := hR.toStored
  readDevice m _ _ := hR.devices m _
  writeDevice m _ _ _ := hR.devices m _

theorem Enduring.of_imp {R : AddressSpace → AddressSpace → Prop} (hR : Enduring R)
    {Q : AddressSpace → Prop} (h : ∀ {m m' : AddressSpace}, R m m' → Q m → Q m') :
    Enduring fun m m' => Q m → Q m' where
  refl _ hm := hm
  trans h h' hm := h' (h hm)
  setTag m addr bits := h (hR.setTag m addr bits)
  writeRam m offset width value := h (hR.writeRam m offset width value)
  writeScratch m offset width value := h (hR.writeScratch m offset width value)
  setRamWritable m enabled := h (hR.setRamWritable m enabled)
  devices m devices := h (hR.devices m devices)

namespace Accessed

variable {R : AddressSpace → AddressSpace → Prop} (hR : Accessed R) (m : AddressSpace)
include hR

theorem bufferStore (region : Region) (offset : Word) (width : Width) (value : Word) :
    R m (m.bufferStore region offset width value) := by
  unfold AddressSpace.bufferStore
  split
  · exact hR.writeRam m offset width value
  · exact hR.writeScratch m offset width value
  · exact hR.refl m

theorem read (addr : Word) (width : Width) : R m (m.read addr width).2 := by
  unfold AddressSpace.read
  simp only
  split <;> first
    | exact hR.refl m
    | exact hR.readDevice m _ width

theorem write (addr : Word) (width : Width) (value : Word) : R m (m.write addr width value) := by
  unfold AddressSpace.write
  simp only
  split
  · exact hR.writeRam m _ width value
  · exact hR.writeScratch m _ width value
  · exact hR.writeDevice m _ width value
  · exact hR.refl m
  · exact hR.refl m
  · exact hR.refl m

theorem readBytes (addr : Word) (size : Nat) (out : Bytes) :
    R m (m.readBytes addr size out).2 := by
  induction size generalizing m addr out with
  | zero => exact hR.refl m
  | succ size ih => exact hR.trans (hR.read m addr .byte) (ih _ _ _)

theorem loadAs (op : Op) (addr current : Word) : R m (m.loadAs op addr current).2 := by
  unfold AddressSpace.loadAs
  split <;> first
    | exact hR.read m _ _
    | exact hR.refl m

theorem storeAs (op : Op) (addr value : Word) : R m (m.storeAs op addr value) := by
  unfold AddressSpace.storeAs
  split <;> first
    | exact hR.write m _ _ _
    | exact hR.trans (hR.read m _ _) (hR.write _ _ _ _)
    | exact hR.refl m

/-! ## Interpreted instructions -/

theorem executeAccess_noted (c : Cpu) (i : Instr) :
    R (m.setTag c.currentPc (locate (c.reg i.rs + i.simm)).region.tag) (c.executeAccess i m).mem := by
  unfold Cpu.executeAccess
  simp only
  generalize m.setTag c.currentPc (locate (c.reg i.rs + i.simm)).region.tag = t
  have hpoll : ∀ (b : Bool) (pc : Word), R t (if b then t.setTag pc Tag.poll else t) := by
    intro b pc
    cases b with
    | true => exact hR.setTag t pc Tag.poll
    | false => exact hR.refl t
  split
  · exact hpoll _ _
  · split
    · exact hR.trans (hpoll _ _) (hR.loadAs _ _ _ _)
    · exact hR.trans (hpoll _ _) (hR.storeAs _ _ _ _)

variable (hset : ∀ (m : AddressSpace) (enabled : Bool), R m (m.setRamWritable enabled))
include hset

theorem executeSpecial (c : Cpu) (i : Instr) : R m (c.executeSpecial i m).mem := by
  unfold Cpu.executeSpecial
  simp only
  split <;> first
    | exact hR.refl m
    | (split <;> first
        | exact hset m _
        | exact hR.refl m)

theorem execute (c : Cpu) (i : Instr) : R m (c.execute i m).mem := by
  unfold Cpu.execute
  split
  · split
    · exact hR.refl m
    · split <;> exact hR.refl m
  · split
    · exact hR.refl m
    · split
      · exact hR.trans (hR.setTag m _ _) (hR.executeAccess_noted m c i)
      · exact hR.executeSpecial m hset c i

theorem step (c : Cpu) : R m (c.step m).mem := by
  unfold Cpu.step
  simp only
  split
  · exact hR.refl m
  · have hread := hR.read m c.pc .word
    split <;> exact hR.trans hread (hR.execute _ hset _ _)

theorem stepHandled (c : Cpu) : R m (c.stepHandled m).mem := by
  unfold Cpu.stepHandled
  simp only
  split <;> exact hR.step m hset c

end Accessed

theorem Enduring.stepHandled {R : AddressSpace → AddressSpace → Prop} (hR : Enduring R)
    (m : AddressSpace) (c : Cpu) : R m (c.stepHandled m).mem :=
  hR.accessed.stepHandled m hR.setRamWritable c

end AddressSpace

end R3000
