import R3000.Proofs.Memory.Contents

/-!
# What is noted about accesses

The interpreter notes in the tags of a load or store which region it touched and whether it polls.
`AddressSpace.unprofiled` forgets these notes and nothing else.  Every access commutes with it, so
two memories that differ in notes only still do so after the same accesses.
-/

namespace R3000

namespace Tag

def profile : UInt8 := regions ||| poll

def unprofiled (t : UInt8) : UInt8 :=
  t &&& ~~~profile

theorem unprofiled_or {bits : UInt8} (h : unprofiled bits = 0) (t : UInt8) :
    unprofiled (t ||| bits) = unprofiled t := by
  have hsplit : (t ||| bits) &&& ~~~profile = t &&& ~~~profile ||| bits &&& ~~~profile := by
    apply UInt8.toBitVec_inj.mp
    exact BitVec.and_or_distrib_right
  unfold unprofiled at h ⊢
  rw [hsplit, h, UInt8.or_zero]

theorem unprofiled_and (t u : UInt8) : unprofiled (t &&& u) = unprofiled t &&& u := by
  unfold unprofiled
  rw [UInt8.and_assoc, UInt8.and_comm u, ← UInt8.and_assoc]

theorem unprofiled_and_code (t : UInt8) : unprofiled t &&& code = t &&& code := by
  have hcode : ~~~profile &&& code = code := by decide
  rw [unprofiled, UInt8.and_assoc, hcode]

theorem unprofiled_tag (r : Region) : unprofiled r.tag = 0 := by
  cases r <;> decide

end Tag

namespace Bank

variable {n : Nat}

def unprofiled (b : Bank n) : Bank n :=
  { b with tags := b.tags.map Tag.unprofiled }

theorem tag_unprofiled (b : Bank n) (i : Nat) : b.unprofiled.tag i = Tag.unprofiled (b.tag i) := by
  unfold tag unprofiled
  split
  · exact Vector.getElem_map Tag.unprofiled ‹_›
  · rfl

theorem unprofiled_setTag (b : Bank n) (i : Nat) (t : UInt8) :
    (b.setTag i t).unprofiled = b.unprofiled.setTag i (Tag.unprofiled t) := by
  unfold setTag unprofiled
  split
  · simp only [Vector.map_set]
  · rfl

theorem setTag_tag (b : Bank n) (i : Nat) : b.setTag i (b.tag i) = b := by
  unfold setTag tag
  split
  · simp only [Vector.set_getElem_self]
  · rfl

theorem unprofiled_setTag_or (b : Bank n) (i : Nat) {bits : UInt8} (h : Tag.unprofiled bits = 0) :
    (b.setTag i (b.tag i ||| bits)).unprofiled = b.unprofiled := by
  rw [unprofiled_setTag, Tag.unprofiled_or h, ← tag_unprofiled, setTag_tag]

theorem unprofiled_store (b : Bank n) (offset : Word) (width : Width) (value : Word) :
    (b.store offset width value).unprofiled = b.unprofiled.store offset width value := by
  show (b.setWord _ _).unprofiled = b.unprofiled.setWord _ _
  unfold setWord
  split <;> rfl

end Bank

namespace AddressSpace

variable (m : AddressSpace) (addr : Word)

def unprofiled (m : AddressSpace) : AddressSpace :=
  { m with ram := m.ram.unprofiled, bios := m.bios.unprofiled, scratch := m.scratch.unprofiled }

theorem contents_of_unprofiled {m m' : AddressSpace} (h : m.unprofiled = m'.unprofiled) :
    m.contents = m'.contents := by
  show m.unprofiled.contents = m'.unprofiled.contents
  rw [h]

theorem unprofiled_setTag {bits : UInt8} (h : Tag.unprofiled bits = 0) :
    (m.setTag addr bits).unprofiled = m.unprofiled := by
  unfold setTag
  dsimp only
  split
  · rfl
  · unfold putTags tags unprofiled
    dsimp only
    cases (locate addr).region with
    | ram | bios | scratch => simp only [Bank.unprofiled_setTag_or _ _ h]
    | _ => rfl

/-! ## Accesses -/

theorem unprofiled_store_code {n : Nat} (b : Bank n) (offset : Word) (width : Width)
    (value : Word) :
    ((b.store offset width value).setTag (offset.toNat / 4)
        (b.tag (offset.toNat / 4) &&& ~~~Tag.code)).unprofiled =
      (b.unprofiled.store offset width value).setTag (offset.toNat / 4)
        (b.unprofiled.tag (offset.toNat / 4) &&& ~~~Tag.code) := by
  rw [Bank.unprofiled_setTag, Bank.unprofiled_store, Tag.unprofiled_and, Bank.tag_unprofiled]

theorem unprofiled_writeRam (offset : Word) (width : Width) (value : Word) :
    (m.writeRam offset width value).unprofiled = m.unprofiled.writeRam offset width value := by
  have htag : (m.unprofiled.ram.tag (offset.toNat / 4) &&& Tag.code = 0) =
      (m.ram.tag (offset.toNat / 4) &&& Tag.code = 0) := by
    rw [show m.unprofiled.ram = m.ram.unprofiled from rfl, Bank.tag_unprofiled,
      Tag.unprofiled_and_code]
  unfold writeRam
  dsimp only
  rw [show m.unprofiled.ramWritable = m.ramWritable from rfl]
  split
  · simp only [htag]
    split <;> unfold unprofiled <;> simp only [Bank.unprofiled_store, unprofiled_store_code]
  · rfl

theorem unprofiled_writeScratch (offset : Word) (width : Width) (value : Word) :
    (m.writeScratch offset width value).unprofiled =
      m.unprofiled.writeScratch offset width value := by
  have htag : (m.unprofiled.scratch.tag (offset.toNat / 4) &&& Tag.code = 0) =
      (m.scratch.tag (offset.toNat / 4) &&& Tag.code = 0) := by
    rw [show m.unprofiled.scratch = m.scratch.unprofiled from rfl, Bank.tag_unprofiled,
      Tag.unprofiled_and_code]
  unfold writeScratch
  dsimp only
  simp only [htag]
  split <;> unfold unprofiled <;> simp only [Bank.unprofiled_store, unprofiled_store_code]

theorem unprofiled_write (width : Width) (value : Word) :
    (m.write addr width value).unprofiled = m.unprofiled.write addr width value := by
  unfold write
  dsimp only
  split
  · exact m.unprofiled_writeRam _ _ _
  · exact m.unprofiled_writeScratch _ _ _
  all_goals rfl

theorem read_unprofiled (width : Width) :
    m.unprofiled.read addr width = ((m.read addr width).1, (m.read addr width).2.unprofiled) := by
  unfold read
  dsimp only
  split <;> rfl

theorem loadAs_unprofiled (op : Op) (addr current : Word) :
    m.unprofiled.loadAs op addr current =
      ((m.loadAs op addr current).1, (m.loadAs op addr current).2.unprofiled) := by
  unfold loadAs
  split <;> first
    | exact m.read_unprofiled _ _
    | exact congrArg (Prod.map _ id) (m.read_unprofiled _ _)
    | rfl

theorem unprofiled_storeAs (op : Op) (addr value : Word) :
    (m.storeAs op addr value).unprofiled = m.unprofiled.storeAs op addr value := by
  unfold storeAs
  split
  · exact m.unprofiled_write _ _ _
  · exact m.unprofiled_write _ _ _
  · exact m.unprofiled_write _ _ _
  · rw [read_unprofiled]
    exact unprofiled_write _ _ _ _
  · rw [read_unprofiled]
    exact unprofiled_write _ _ _ _
  · rfl

end AddressSpace

end R3000
