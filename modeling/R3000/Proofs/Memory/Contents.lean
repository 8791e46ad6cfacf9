import R3000.Cpu.Access

/-!
# What programs see of memory

A program sees storage words, devices and whether RAM can be written.  Tags and the watch are kept
for whoever compiles code; no access depends on them.
-/

namespace R3000

structure Contents where
  ram : Vector Word ramWords
  bios : Vector Word biosWords
  scratch : Vector Word scratchWords
  devices : Peripherals
  ramWritable : Bool

namespace AddressSpace

def contents (m : AddressSpace) : Contents :=
  { ram := m.ram.words
    bios := m.bios.words
    scratch := m.scratch.words
    devices := m.devices
    ramWritable := m.ramWritable }

variable {m m' : AddressSpace}

/-! ## Tags are not observed -/

theorem words_setTag {n : Nat} (b : Bank n) (i : Nat) (t : UInt8) :
    (b.setTag i t).words = b.words := by
  unfold Bank.setTag
  split <;> rfl

theorem contents_putTags (m : AddressSpace) (addr : Word) (t : UInt8) :
    (m.putTags addr t).contents = m.contents := by
  unfold putTags contents
  simp only
  split <;> simp only [words_setTag]

theorem contents_setTag (m : AddressSpace) (addr : Word) (bits : UInt8) :
    (m.setTag addr bits).contents = m.contents := by
  unfold setTag
  simp only
  split
  · rfl
  · exact contents_putTags m _ _

/-! ## Stores stay in their bank -/

theorem writeRam_eq (m : AddressSpace) (offset : Word) (width : Width) (value : Word) :
    m.writeRam offset width value =
      { m with
        ram := (m.writeRam offset width value).ram
        watch := (m.writeRam offset width value).watch } := by
  unfold writeRam
  split
  · dsimp only
    split <;> rfl
  · rfl

theorem writeScratch_eq (m : AddressSpace) (offset : Word) (width : Width) (value : Word) :
    m.writeScratch offset width value =
      { m with
        scratch := (m.writeScratch offset width value).scratch
        watch := (m.writeScratch offset width value).watch } := by
  unfold writeScratch
  dsimp only
  split <;> rfl

/-! ## Accesses depend on contents -/

theorem words_store {n : Nat} {b b' : Bank n} (h : b.words = b'.words) (offset : Word)
    (width : Width) (value : Word) :
    (b.store offset width value).words = (b'.store offset width value).words := by
  unfold Bank.store Bank.setWord Bank.word
  simp only
  split
  · simp only [h]
  · exact h

theorem load_congr {n : Nat} {b b' : Bank n} (h : b.words = b'.words) (offset : Word)
    (width : Width) : b.load offset width = b'.load offset width := by
  unfold Bank.load Bank.word
  rw [h]

theorem contents_writeRam (h : m.contents = m'.contents) (offset : Word) (width : Width)
    (value : Word) :
    (m.writeRam offset width value).contents = (m'.writeRam offset width value).contents := by
  have hw : m.ramWritable = m'.ramWritable := congrArg Contents.ramWritable h
  have hram := words_store (congrArg Contents.ram h) offset width value
  -- the words are stored whether or not the tag says code
  have hstore : ∀ n : AddressSpace, n.ramWritable = true →
      (n.writeRam offset width value).contents =
        { n.contents with ram := (n.ram.store offset width value).words } := by
    intro n hn
    unfold writeRam
    rw [if_pos hn]
    simp only
    split
    · rfl
    · unfold contents
      simp only [words_setTag]
  cases hb : m.ramWritable with
  | true =>
    rw [hstore m hb, hstore m' (hw ▸ hb), h, hram]
  | false =>
    have hb' : m'.ramWritable = false := hw ▸ hb
    unfold writeRam
    rw [hb, hb']
    exact h

theorem contents_writeScratch (h : m.contents = m'.contents) (offset : Word) (width : Width)
    (value : Word) :
    (m.writeScratch offset width value).contents =
      (m'.writeScratch offset width value).contents := by
  have hscratch := words_store (congrArg Contents.scratch h) offset width value
  have hstore : ∀ n : AddressSpace, (n.writeScratch offset width value).contents =
      { n.contents with scratch := (n.scratch.store offset width value).words } := by
    intro n
    unfold writeScratch
    simp only
    split
    · rfl
    · unfold contents
      simp only [words_setTag]
  rw [hstore, hstore, h, hscratch]

theorem contents_withDevices (h : m.contents = m'.contents) (d : Peripherals) :
    { m with devices := d }.contents = { m' with devices := d }.contents := by
  show { m.contents with devices := d } = { m'.contents with devices := d }
  rw [h]

theorem read_congr (h : m.contents = m'.contents) (addr : Word) (width : Width) :
    (m.read addr width).1 = (m'.read addr width).1 ∧
      (m.read addr width).2.contents = (m'.read addr width).2.contents := by
  have hdev : m.devices = m'.devices := congrArg Contents.devices h
  unfold read
  simp only
  split
  · exact ⟨load_congr (congrArg Contents.ram h) _ _, h⟩
  · exact ⟨load_congr (congrArg Contents.bios h) _ _, h⟩
  · exact ⟨load_congr (congrArg Contents.scratch h) _ _, h⟩
  · rw [hdev]
    exact ⟨rfl, contents_withDevices h _⟩
  · exact ⟨rfl, h⟩
  · exact ⟨rfl, h⟩

theorem contents_write (h : m.contents = m'.contents) (addr : Word) (width : Width)
    (value : Word) : (m.write addr width value).contents = (m'.write addr width value).contents := by
  have hdev : m.devices = m'.devices := congrArg Contents.devices h
  unfold write
  simp only
  split
  · exact contents_writeRam h _ _ _
  · exact contents_writeScratch h _ _ _
  · rw [hdev]
    exact contents_withDevices h _
  · exact h
  · exact h
  · exact h

theorem loadAs_congr_contents (h : m.contents = m'.contents) (op : Op) (addr current : Word) :
    (m.loadAs op addr current).1 = (m'.loadAs op addr current).1 ∧
      (m.loadAs op addr current).2.contents = (m'.loadAs op addr current).2.contents := by
  have hread := fun addr width => read_congr h addr width
  unfold loadAs
  split <;> simp only [Prod.map, id, hread, h] <;> exact ⟨trivial, trivial⟩

theorem contents_storeAs (h : m.contents = m'.contents) (op : Op) (addr value : Word) :
    (m.storeAs op addr value).contents = (m'.storeAs op addr value).contents := by
  obtain ⟨hword, hmem⟩ := read_congr h (alignDown addr) .word
  unfold storeAs
  split
  · exact contents_write h _ _ _
  · exact contents_write h _ _ _
  · exact contents_write h _ _ _
  · simp only [hword]
    exact contents_write hmem _ _ _
  · simp only [hword]
    exact contents_write hmem _ _ _
  · exact h

theorem contents_setRamWritable (h : m.contents = m'.contents) (enabled : Bool) :
    (m.setRamWritable enabled).contents = (m'.setRamWritable enabled).contents := by
  show { m.contents with ramWritable := enabled } = { m'.contents with ramWritable := enabled }
  rw [h]

end AddressSpace

end R3000
