import R3000.Proofs.Cpu.Coherence
import R3000.Proofs.Memory.Bytes

/-!
# The bus is a memory of bytes

A history is stores of any width through any image of a byte, between which RAM writes are switched off
and on.  After it every byte of storage is the last one that a store put there while it could be
written, or else the one that was there in the beginning (`AddressSpace.byte_foldl_act`), and reads of
any width see these bytes.
-/

namespace R3000

theorem Cell.writable_plus (ramWritable : Bool) (c : Cell) (k : Nat) :
    (c.plus k).writable ramWritable = c.writable ramWritable := by
  cases c <;> rfl

inductive BusAction
  | store (addr : Word) (width : Width) (value : Word)
  | allow (enabled : Bool)

namespace BusAction

def aligned : BusAction → Bool
  | .store addr width _ => width.aligned addr
  | .allow _ => true

def opens (ramWritable : Bool) : BusAction → Bool
  | .store _ _ _ => ramWritable
  | .allow enabled => enabled

def put (ramWritable : Bool) (c : Cell) : BusAction → Option UInt8
  | .store addr width value =>
    if c.writable ramWritable then
      ((List.range width.size).find? fun k => cellAt (addr + UInt32.ofNat k) = some c).map value.byte
    else none
  | .allow _ => none

section

variable {addr : Word} {width : Width} {value : Word} {ramWritable : Bool} {c : Cell}

theorem put_store_eq_some {b : UInt8} (h : (store addr width value).put ramWritable c = some b) :
    c.writable ramWritable = true ∧
      ∃ k < width.size, cellAt (addr + UInt32.ofNat k) = some c ∧ b = value.byte k := by
  rw [put] at h
  split at h
  next hopen =>
    obtain ⟨k, hfind, rfl⟩ := Option.map_eq_some_iff.mp h
    have hk := List.mem_range.mp (List.mem_of_find?_eq_some hfind)
    rw [List.find?_eq_some_iff_append] at hfind
    exact ⟨hopen, k, hk, of_decide_eq_true hfind.1, rfl⟩
  next => cases h

theorem put_store_eq_none (h : (store addr width value).put ramWritable c = none)
    (hopen : c.writable ramWritable = true) {k : Nat} (hk : k < width.size) :
    cellAt (addr + UInt32.ofNat k) ≠ some c := by
  rw [put, if_pos hopen, Option.map_eq_none_iff, List.find?_eq_none] at h
  exact fun hc => h k (List.mem_range.mpr hk) (decide_eq_true hc)

end

def lastPut (c : Cell) : Bool → List BusAction → Option UInt8
  | _, [] => none
  | ramWritable, a :: later => (lastPut c (a.opens ramWritable) later).or (a.put ramWritable c)

end BusAction

namespace AddressSpace

def act (m : AddressSpace) : BusAction → AddressSpace
  | .store addr width value => m.write addr width value
  | .allow enabled => m.setRamWritable enabled

/-- What a byte is after a history: the last one put there, or else the one of the beginning. -/
def remembered (m : AddressSpace) (history : List BusAction) (c : Cell) : UInt8 :=
  (BusAction.lastPut c m.ramWritable history).getD (m.byte c)

theorem ramWritable_act (m : AddressSpace) (a : BusAction) :
    (m.act a).ramWritable = a.opens m.ramWritable := by
  cases a with
  | store addr width value => exact (Paced.accessed.write m addr width value).ramWritable
  | allow enabled => rfl

theorem byte_act (m : AddressSpace) {a : BusAction} (ha : a.aligned = true) (c : Cell) :
    (m.act a).byte c = (a.put m.ramWritable c).getD (m.byte c) := by
  cases a with
  | allow enabled => cases c <;> rfl
  | store addr width value =>
    have hsize := Width.mod_add_size_le ha
    have hfirst : ∀ k < width.size, cellAt (addr + UInt32.ofNat k) = some c →
        ∃ c₀, cellAt addr = some c₀ ∧ c₀.plus k = c := by
      intro k hk hc
      rwa [cellAt_add (by omega), Option.map_eq_some_iff] at hc
    show (m.write addr width value).byte c = _
    -- the bytes of a store lie in one bank, so all of them can be written or none
    by_cases hopen : ∀ c₀, cellAt addr = some c₀ → c₀.writable m.ramWritable = true
    · have hputs := m.puts_write ha hopen value
      cases hput : (BusAction.store addr width value).put m.ramWritable c with
      | some b =>
        obtain ⟨-, k, hk, hc, rfl⟩ := BusAction.put_store_eq_some hput
        exact hputs.put hk hc
      | none =>
        refine hputs.frame fun k hk hc => ?_
        obtain ⟨c₀, hc₀, rfl⟩ := hfirst k hk hc
        exact BusAction.put_store_eq_none hput
          ((Cell.writable_plus _ c₀ k).trans (hopen c₀ hc₀)) hk hc
    · have hclosed : ∀ c₀, cellAt addr = some c₀ → c₀.writable m.ramWritable = false := by
        intro c₀ hc₀
        refine Bool.eq_false_iff.mpr fun h => hopen fun c₁ hc₁ => ?_
        cases hc₀.symm.trans hc₁
        exact h
      rw [m.byte_write_of_closed hclosed]
      cases hput : (BusAction.store addr width value).put m.ramWritable c with
      | some b =>
        obtain ⟨hc, k, hk, hkc, -⟩ := BusAction.put_store_eq_some hput
        obtain ⟨c₀, hc₀, rfl⟩ := hfirst k hk hkc
        rw [Cell.writable_plus, hclosed c₀ hc₀] at hc
        cases hc
      | none => rfl

theorem byte_foldl_act (m : AddressSpace) {history : List BusAction}
    (h : ∀ a ∈ history, a.aligned = true) (c : Cell) :
    (history.foldl act m).byte c = m.remembered history c := by
  induction history generalizing m with
  | nil => rfl
  | cons a later ih =>
    rw [List.foldl_cons, ih (m.act a) fun b hb => h b (List.mem_cons_of_mem a hb)]
    unfold remembered
    rw [m.ramWritable_act, m.byte_act (h a List.mem_cons_self), BusAction.lastPut]
    cases BusAction.lastPut c (a.opens m.ramWritable) later <;> rfl

/-- After any history of aligned stores, every byte of storage is the last one that was put there
through any of its addresses, and aligned reads of RAM and of the scratchpad compose these bytes.
Stores to ROM, to the expansion window, to unmapped addresses and to protected RAM change no byte, and
no access has an index outside its bank. -/
theorem bus_remembers (m : AddressSpace) (history : List BusAction)
    (h : ∀ a ∈ history, a.aligned = true) :
    let n := history.foldl act m
    (∀ c, n.byte c = m.remembered history c) ∧
    (∀ addr width, width.aligned addr = true →
      (locate addr).region = .ram ∨ (locate addr).region = .scratch →
      ∃ c, cellAt addr = some c ∧
        (∀ k < width.size, cellAt (addr + UInt32.ofNat k) = some (c.plus k)) ∧
        (n.read addr width).1.toNat = Word.littleEndian
          ((List.range width.size).map fun k => m.remembered history (c.plus k))) ∧
    (∀ addr width value,
      (locate addr).region = .bios ∨ (locate addr).region = .parallelPort ∨
        (locate addr).region = .unknown ∨ (locate addr).region = .ram ∧ n.ramWritable = false →
      ∀ c, (n.write addr width value).byte c = n.byte c) ∧
    ∀ addr, ((locate addr).region = .ram → (locate addr).index < ramWords) ∧
      ((locate addr).region = .scratch → (locate addr).index < scratchWords) ∧
      ((locate addr).region = .bios → (locate addr).index < biosWords) := by
  intro n
  have hbyte : ∀ c, n.byte c = m.remembered history c := m.byte_foldl_act h
  refine ⟨hbyte, ?_, ?_, fun addr => ⟨index_lt_of_ram, index_lt_of_scratch, index_lt_of_bios⟩⟩
  · intro addr width ha hr
    have hsize := Width.mod_add_size_le ha
    obtain ⟨c, hc⟩ : ∃ c, cellAt addr = some c :=
      hr.elim (fun h => ⟨_, cellAt_of_ram h⟩) fun h => ⟨_, cellAt_of_scratch h⟩
    refine ⟨c, hc, fun k hk => ?_, ?_⟩
    · rw [cellAt_add (by omega), hc]
      rfl
    · rw [n.toNat_read ha hc]
      simp only [hbyte]
  · intro addr width value hr c
    refine n.byte_write_of_closed (fun c₀ hc₀ => ?_) width value c
    rw [← cell?_locate, Place.cell?] at hc₀
    rcases hr with hr | hr | hr | ⟨hr, hclosed⟩ <;> rw [hr] at hc₀ <;> cases hc₀
    · rfl
    · exact hclosed

/-- A word, one of its bytes through a mirror in another segment, and an attempt on protected RAM -/
def overlaid : List BusAction :=
  [.store 0x80000100 .word 0x11223344, .store 0xA0200101 .byte 0xAA, .allow false,
    .store 0x00600102 .half 0xFFFF, .allow true]

theorem bus_remembers_overlaid :
    (∀ a ∈ overlaid, a.aligned = true) ∧
      ((overlaid.foldl act empty).read 0x00000100 .word).1.toNat = 0x1122AA44 := by
  have haligned : ∀ a ∈ overlaid, a.aligned = true := by
    simp [overlaid, BusAction.aligned, Width.aligned, Width.size]
  obtain ⟨-, hread, -⟩ := bus_remembers empty overlaid haligned
  obtain ⟨c, hc, -, hvalue⟩ := hread 0x00000100 .word (by decide) (.inl (by decide))
  have hcell : cellAt 0x00000100 = some (.ram 0x100) := by decide
  cases hcell.symm.trans hc
  refine ⟨haligned, hvalue.trans ?_⟩
  decide +kernel

end AddressSpace

end R3000
