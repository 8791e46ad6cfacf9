import Mathlib.Data.Nat.Bitwise
import R3000.Instr.Assemble
import R3000.Instr.Decode
import R3000.Proofs.Word

/-!
# Decoding what was assembled

The fields of an instruction word do not overlap, so a word is the sum of its fields, each times its
place value, and decoding reads them back by division.  `Statement.decode_encode` says so of every
statement: decoding its word gives its operation and the operands that were written, and the targets
of its branches and jumps are those that were meant.
-/

namespace R3000

namespace Word

theorem toNat_or_of_lt {a b : Word} {k : Nat} (ha : a.toNat % 2 ^ k = 0) (hb : b.toNat < 2 ^ k) :
    (a ||| b).toNat = a.toNat + b.toNat := by
  obtain ⟨c, hc⟩ := Nat.dvd_of_mod_eq_zero ha
  rw [UInt32.toNat_or, hc, Nat.two_pow_add_eq_or_of_lt hb]

theorem toNat_shiftLeft_of_lt {w shift : Word} {n : Nat} (hshift : shift.toNat = n) (hn : n < 32)
    (hw : w.toNat * 2 ^ n < 2 ^ 32) : (w <<< shift).toNat = w.toNat * 2 ^ n := by
  rw [UInt32.toNat_shiftLeft, hshift, Nat.mod_eq_of_lt hn, Nat.shiftLeft_eq, Nat.mod_eq_of_lt hw]

theorem toNat_and_mask (w : Word) {k : Nat} {mask : Word} (h : mask.toNat = 2 ^ k - 1) :
    (w &&& mask).toNat = w.toNat % 2 ^ k := by
  rw [UInt32.toNat_and, h, Nat.and_two_pow_sub_one_eq_mod]

theorem toNat_ofInt (i : Int) : ((ofInt i).toNat : Int) = i % 0x100000000 := by
  unfold ofInt
  rw [UInt32.toNat_ofNat']
  omega

theorem or_not_eq (w v : Word) : w ||| ~~~v = ~~~v ||| (w &&& v) := by
  apply UInt32.toBitVec_inj.mp
  ext i hi
  simp
  grind

theorem signExtend16_eq (w : Word) : signExtend16 w = ofInt w.toUInt16.toInt16.toInt := by
  have hlow : (w &&& 0xFFFF).toNat = w.toNat % 2 ^ 16 := toNat_and_mask w rfl
  have hsign : w &&& 0x8000 = 0 ↔ w.toNat % 2 ^ 16 < 2 ^ 15 := by
    rw [← UInt32.toNat_inj, UInt32.toNat_and]
    change w.toNat &&& 2 ^ 15 = 0 ↔ _
    rw [Nat.and_two_pow, Nat.testBit_eq_decide_div_mod_eq]
    simp
    omega
  have hhigh : w ||| 0xFFFF0000 = 0xFFFF0000 ||| (w &&& 0xFFFF) := or_not_eq w 0xFFFF
  have hint : w.toUInt16.toInt16.toInt =
      if w.toNat % 2 ^ 16 < 2 ^ 15 then ((w.toNat % 2 ^ 16 : Nat) : Int)
      else ((w.toNat % 2 ^ 16 : Nat) : Int) - 2 ^ 16 := by
    have hcond := BitVec.toInt_eq_toNat_cond w.toUInt16.toBitVec
    have hnat : w.toUInt16.toBitVec.toNat = w.toNat % 2 ^ 16 := UInt32.toNat_toUInt16 w
    rw [hnat] at hcond
    refine hcond.trans (ite_congr ?_ (fun _ => rfl) fun _ => rfl)
    apply propext
    omega
  apply UInt32.toNat_inj.mp
  have hword := toNat_ofInt w.toUInt16.toInt16.toInt
  rw [hint] at hword ⊢
  unfold signExtend16
  simp only [hsign]
  split
  next h =>
    rw [if_pos h] at hword
    omega
  next h =>
    have hor : (0xFFFF0000 ||| (w &&& 0xFFFF) : Word).toNat = 0xFFFF0000 + w.toNat % 2 ^ 16 := by
      rw [toNat_or_of_lt (k := 16) (by decide) (by omega), hlow]
      rfl
    rw [if_neg h] at hword
    rw [hhigh]
    omega

end Word

/-- Where a statement's operands are in its word. -/
inductive Layout
  | register (rs rt rd shamt : Word)
  | immediate (rs rt : Word) (imm : UInt16)
  | jump (target : Word)
  | control (rt rd : Word)

namespace Layout

/-- Register numbers and shift amounts are below 32. -/
def Fits : Layout → Prop
  | register rs rt rd shamt => rs.toNat < 32 ∧ rt.toNat < 32 ∧ rd.toNat < 32 ∧ shamt.toNat < 32
  | immediate rs rt _ => rs.toNat < 32 ∧ rt.toNat < 32
  | jump _ => True
  | control rt rd => rt.toNat < 32 ∧ rd.toNat < 32

/-- The instruction has these operands, and goes where they say. -/
def Held (i : Instr) : Layout → Prop
  | register rs rt rd shamt =>
    i.rs.val = rs.toNat ∧ i.rt.val = rt.toNat ∧ i.rd.val = rd.toNat ∧ i.shamt.val = shamt.toNat
  | immediate rs rt imm =>
    i.rs.val = rs.toNat ∧ i.rt.val = rt.toNat ∧ i.imm = imm.toUInt32 ∧
      i.simm = Word.ofInt imm.toInt16.toInt ∧
      (i.has .conditional = true →
        ∀ pc, i.staticTarget pc = some (Word.ofInt (pc.toNat + 4 + 4 * imm.toInt16.toInt)))
  | jump target =>
    ∀ pc, target.toNat % 4 = 0 → (pc + 4).toNat / 2 ^ 28 = target.toNat / 2 ^ 28 →
      i.staticTarget pc = some target
  | control rt rd => i.rt.val = rt.toNat ∧ i.rd.val = rd.toNat

end Layout

namespace Statement

def layout : Statement → Layout
  | .nop | .syscall => .register 0 0 0 0
  | .sll rd rt shamt => .register 0 rt rd shamt
  | .add rd rs rt | .addu rd rs rt | .subu rd rs rt | .or rd rs rt | .slt rd rs rt =>
    .register rs rt rd 0
  | .mult rs rt => .register rs rt 0 0
  | .mflo rd => .register 0 0 rd 0
  | .jr rs => .register rs 0 0 0
  | .jalr rd rs => .register rs 0 rd 0
  | .addi rt rs imm | .addiu rt rs imm | .andi rt rs imm | .ori rt rs imm => .immediate rs rt imm
  | .lui rt imm => .immediate 0 rt imm
  | .lw rt offset base | .lbu rt offset base | .sw rt offset base | .sh rt offset base
  | .sb rt offset base => .immediate base rt offset
  | .beq rs rt offset | .bne rs rt offset => .immediate rs rt offset
  | .blez rs offset | .bgtz rs offset => .immediate rs 0 offset
  | .j target | .jal target => .jump target
  | .mfc0 rt rd | .mtc0 rt rd => .control rt rd
  | .rfe => .control 0 0

/-- The operation that a statement names; to do nothing is to shift register 0. -/
def operation : Statement → Op
  | .nop | .sll .. => .sll
  | .add .. => .add
  | .addu .. => .addu
  | .subu .. => .subu
  | .or .. => .or
  | .slt .. => .slt
  | .mult .. => .mult
  | .mflo _ => .mflo
  | .jr _ => .jr
  | .jalr .. => .jalr
  | .syscall => .syscall
  | .addi .. => .addi
  | .addiu .. => .addiu
  | .andi .. => .andi
  | .ori .. => .ori
  | .lui .. => .lui
  | .lw .. => .lw
  | .lbu .. => .lbu
  | .sw .. => .sw
  | .sh .. => .sh
  | .sb .. => .sb
  | .beq .. => .beq
  | .bne .. => .bne
  | .blez .. => .blez
  | .bgtz .. => .bgtz
  | .j _ => .j
  | .jal _ => .jal
  | .mfc0 .. => .mfc0
  | .mtc0 .. => .mtc0
  | .rfe => .rfe

variable {opcode rs rt low rd shamt function target w : Word} {imm : UInt16}

/-! ## Targets -/

theorem toNat_and_segment (w : Word) : (w &&& 0xF0000000).toNat = w.toNat / 2 ^ 28 * 2 ^ 28 := by
  have hlt := w.toNat_lt
  have hdiv := Nat.and_div_two_pow (a := w.toNat) (b := 0xF0000000) (n := 28)
  have hmod := Nat.and_mod_two_pow (a := w.toNat) (b := 0xF0000000) (n := 28)
  have hall : w.toNat / 2 ^ 28 &&& 0xF0000000 / 2 ^ 28 = w.toNat / 2 ^ 28 % 2 ^ 4 :=
    Nat.and_two_pow_sub_one_eq_mod _ 4
  have hnone : w.toNat % 2 ^ 28 &&& 0xF0000000 % 2 ^ 28 = 0 := Nat.and_zero _
  rw [UInt32.toNat_and]
  change w.toNat &&& 0xF0000000 = _
  omega

theorem staticTarget_of_conditional {i : Instr} (h : i.has .conditional = true) {k : Int}
    (hk : i.simm = Word.ofInt k) (pc : Word) :
    i.staticTarget pc = some (Word.ofInt (pc.toNat + 4 + 4 * k)) := by
  have htarget : i.staticTarget pc = some (pc + 4 + i.simm * 4) := by
    obtain ⟨raw, op⟩ := i
    change op.has .conditional = true at h
    cases op <;> first
      | rfl
      | exact absurd h (by decide)
  have hsimm := Word.toNat_ofInt k
  have hsum := Word.toNat_ofInt (pc.toNat + 4 + 4 * k)
  rw [htarget, hk]
  refine congrArg some (UInt32.toNat_inj.mp ?_)
  rw [UInt32.toNat_add, UInt32.toNat_add, UInt32.toNat_mul]
  change ((_ + 4) % _ + _ * 4 % _) % _ = _
  omega

/-! ## Fields -/

theorem toNat_upper (hopcode : opcode.toNat < 64) (hrs : rs.toNat < 32) (hrt : rt.toNat < 32)
    (hlow : low.toNat < 2 ^ 16) :
    (opcode <<< 26 ||| rs <<< 21 ||| rt <<< 16 ||| low).toNat =
      opcode.toNat * 2 ^ 26 + rs.toNat * 2 ^ 21 + rt.toNat * 2 ^ 16 + low.toNat := by
  have h26 : (opcode <<< 26).toNat = _ :=
    Word.toNat_shiftLeft_of_lt (n := 26) rfl (by decide) (by omega)
  have h21 : (rs <<< 21).toNat = _ := Word.toNat_shiftLeft_of_lt (n := 21) rfl (by decide) (by omega)
  have h16 : (rt <<< 16).toNat = _ := Word.toNat_shiftLeft_of_lt (n := 16) rfl (by decide) (by omega)
  have hfirst := Word.toNat_or_of_lt (a := opcode <<< 26) (b := rs <<< 21) (k := 26) (by omega)
    (by omega)
  have hsecond := Word.toNat_or_of_lt (a := opcode <<< 26 ||| rs <<< 21) (b := rt <<< 16) (k := 21)
    (by omega) (by omega)
  rw [Word.toNat_or_of_lt (k := 16) (by omega) hlow]
  omega

theorem toNat_lower (hrd : rd.toNat < 32) (hshamt : shamt.toNat < 32)
    (hfunction : function.toNat < 64) :
    (rd <<< 11 ||| shamt <<< 6 ||| function).toNat =
      rd.toNat * 2 ^ 11 + shamt.toNat * 2 ^ 6 + function.toNat := by
  have h11 : (rd <<< 11).toNat = _ := Word.toNat_shiftLeft_of_lt (n := 11) rfl (by decide) (by omega)
  have h6 : (shamt <<< 6).toNat = _ := Word.toNat_shiftLeft_of_lt (n := 6) rfl (by decide) (by omega)
  have hfirst := Word.toNat_or_of_lt (a := rd <<< 11) (b := shamt <<< 6) (k := 11) (by omega)
    (by omega)
  rw [Word.toNat_or_of_lt (k := 6) (by omega) hfunction]
  omega

/-- Reading back the fields of a word from its place values. -/
theorem decode_upper {high a b rest : Nat}
    (hw : w.toNat = high * 2 ^ 26 + a * 2 ^ 21 + b * 2 ^ 16 + rest) (ha : a < 32) (hb : b < 32)
    (hrest : rest < 2 ^ 16) :
    w.toNat >>> 26 = high ∧ (Instr.decode w).rs.val = a ∧ (Instr.decode w).rt.val = b ∧
      (Instr.decode w).rd.val = rest / 2 ^ 11 ∧ (Instr.decode w).shamt.val = rest / 2 ^ 6 % 32 ∧
      w.toNat % 2 ^ 16 = rest := by
  unfold Instr.rs Instr.rt Instr.rd Instr.shamt Instr.decode Reg.ofField Reg.ofNumber
  simp only [Nat.shiftRight_eq_div_pow]
  omega

theorem decode_register (hrs : rs.toNat < 32) (hrt : rt.toNat < 32) (hrd : rd.toNat < 32)
    (hshamt : shamt.toNat < 32) (hfunction : function.toNat < 64) :
    let i := Instr.decode (register rs rt rd shamt function)
    i.op = Op.ofFunction function.toNat ∧ (Layout.register rs rt rd shamt).Held i := by
  have hparts : register rs rt rd shamt function =
      (0 : Word) <<< 26 ||| rs <<< 21 ||| rt <<< 16 ||| (rd <<< 11 ||| shamt <<< 6 ||| function) := by
    rw [UInt32.zero_shiftLeft, UInt32.zero_or, ← UInt32.or_assoc, ← UInt32.or_assoc]
    rfl
  have hlow := toNat_lower hrd hshamt hfunction
  have hword := toNat_upper (by decide : (0 : Word).toNat < 64) hrs hrt
    (by omega : (rd <<< 11 ||| shamt <<< 6 ||| function).toNat < 2 ^ 16)
  rw [← hparts] at hword
  obtain ⟨hopcode, hrs', hrt', hrd', hshamt', hrest⟩ := decode_upper hword hrs hrt (by omega)
  refine ⟨?_, hrs', hrt', by omega, by omega⟩
  have hfun : (register rs rt rd shamt function).toNat % 64 = function.toNat := by omega
  change Op.ofWord _ = _
  unfold Op.ofWord
  rw [hopcode, hfun]
  rfl

theorem decode_immediate (hopcode : opcode.toNat < 64) (hrs : rs.toNat < 32) (hrt : rt.toNat < 32)
    (hplain : opcode.toNat ≠ 0x00 ∧ opcode.toNat ≠ 0x01 ∧ opcode.toNat ≠ 0x10) :
    let i := Instr.decode (immediate opcode rs rt imm)
    i.op = Op.ofOpcode opcode.toNat ∧ (Layout.immediate rs rt imm).Held i := by
  have himm : imm.toUInt32.toNat = imm.toNat := rfl
  have hsmall := imm.toNat_lt
  have hword := toNat_upper hopcode hrs hrt (by omega : imm.toUInt32.toNat < 2 ^ 16)
  obtain ⟨hopcode', hrs', hrt', -, -, hrest⟩ := decode_upper hword hrs hrt (by omega)
  have hlow : (immediate opcode rs rt imm).toUInt16 = imm := by
    apply UInt16.toNat_inj.mp
    rw [UInt32.toNat_toUInt16]
    exact hrest
  have hsimm : (Instr.decode (immediate opcode rs rt imm)).simm = Word.ofInt imm.toInt16.toInt :=
    (Word.signExtend16_eq _).trans (congrArg (fun low => Word.ofInt low.toInt16.toInt) hlow)
  refine ⟨?_, hrs', hrt', ?_, hsimm, fun h => staticTarget_of_conditional h hsimm⟩
  · change Op.ofWord (opcode <<< 26 ||| rs <<< 21 ||| rt <<< 16 ||| imm.toUInt32) = _
    unfold Op.ofWord
    rw [hopcode', if_neg hplain.1, if_neg hplain.2.1, if_neg hplain.2.2]
  · apply UInt32.toNat_inj.mp
    exact (Word.toNat_and_mask _ rfl).trans hrest

theorem decode_control (hrs : rs.toNat < 32) (hrt : rt.toNat < 32) (hrd : rd.toNat < 32) :
    let i := Instr.decode (control rs rt rd)
    i.op = Op.ofControl rs.toNat 0 ∧ (Layout.control rt rd).Held i := by
  have hlow : (rd <<< 11).toNat = _ := Word.toNat_shiftLeft_of_lt (n := 11) rfl (by decide) (by omega)
  have hword : (control rs rt rd).toNat = _ :=
    toNat_upper (by decide : (0x10 : Word).toNat < 64) hrs hrt
      (by omega : (rd <<< 11).toNat < 2 ^ 16)
  obtain ⟨hopcode, hrs', hrt', hrd', -, hrest⟩ := decode_upper hword hrs hrt (by omega)
  refine ⟨?_, hrt', by omega⟩
  have hfun : (control rs rt rd).toNat % 64 = 0 := by omega
  change Op.ofWord _ = _
  unfold Op.ofWord
  rw [hopcode, hfun]
  exact congrArg (Op.ofControl · 0) hrs'

theorem decode_jump (hopcode : opcode.toNat = 0x02 ∨ opcode.toNat = 0x03) :
    let i := Instr.decode (jump opcode target)
    i.op = Op.ofOpcode opcode.toNat ∧ (Layout.jump target).Held i := by
  have hhead : (opcode <<< 26).toNat = _ :=
    Word.toNat_shiftLeft_of_lt (n := 26) rfl (by decide) (by omega)
  have hfield : ((target >>> 2) &&& 0x03FFFFFF).toNat = target.toNat / 4 % 2 ^ 26 := by
    rw [Word.toNat_and_mask (k := 26) _ rfl, UInt32.toNat_shiftRight, Nat.shiftRight_eq_div_pow]
    rfl
  have hword : (jump opcode target).toNat = opcode.toNat * 2 ^ 26 + target.toNat / 4 % 2 ^ 26 := by
    rw [jump, Word.toNat_or_of_lt (k := 26) (by omega) (by omega), hhead, hfield]
  have hshift : (jump opcode target).toNat >>> 26 = opcode.toNat := by
    rw [Nat.shiftRight_eq_div_pow]
    omega
  have hop : Op.ofWord (jump opcode target) = Op.ofOpcode opcode.toNat := by
    unfold Op.ofWord
    rw [hshift, if_neg (by omega), if_neg (by omega), if_neg (by omega)]
  refine ⟨hop, fun pc haligned hsegment => ?_⟩
  have htarget : (Instr.decode (jump opcode target)).staticTarget pc =
      some (((pc + 4) &&& 0xF0000000) ||| ((jump opcode target &&& 0x03FFFFFF) * 4)) := by
    unfold Instr.staticTarget Instr.decode
    dsimp only
    rw [hop]
    rcases hopcode with h | h <;> rw [h] <;> rfl
  rw [htarget]
  refine congrArg some (UInt32.toNat_inj.mp ?_)
  have hlt := target.toNat_lt
  have hhigh := toNat_and_segment (pc + 4)
  have hlow : ((jump opcode target &&& 0x03FFFFFF) * 4).toNat = target.toNat % 2 ^ 28 := by
    rw [UInt32.toNat_mul, Word.toNat_and_mask (k := 26) _ rfl, hword]
    change _ * 4 % _ = _
    omega
  rw [Word.toNat_or_of_lt (k := 28) (by omega) (by omega)]
  omega

/-- Decoding the word of a statement gives the statement's operation and operands. -/
theorem decode_encode (st : Statement) (h : st.layout.Fits) :
    (Instr.decode st.encode).op = st.operation ∧ st.layout.Held (Instr.decode st.encode) := by
  cases st
  case nop | syscall =>
    exact ⟨rfl, by decide, by decide, by decide, by decide⟩
  case sll | add | addu | subu | or | slt | mult | mflo | jr | jalr =>
    exact decode_register h.1 h.2.1 h.2.2.1 h.2.2.2 (by decide)
  case addi | addiu | andi | ori | lui | lw | lbu | sw | sh | sb | beq | bne | blez | bgtz =>
    exact decode_immediate (by decide) h.1 h.2 (by decide)
  case j | jal => exact decode_jump (by decide)
  case mfc0 | mtc0 => exact decode_control (by decide) h.1 h.2
  case rfe => exact ⟨rfl, by decide, by decide⟩

theorem decode_encode_bne :
    (Statement.bne 31 1 0xFFFE).layout.Fits ∧
      (Instr.decode (Statement.bne 31 1 0xFFFE).encode).op = .bne ∧
      (Layout.immediate 31 1 0xFFFE).Held (Instr.decode (Statement.bne 31 1 0xFFFE).encode) := by
  have hfits : (Statement.bne 31 1 0xFFFE).layout.Fits := ⟨by decide, by decide⟩
  exact ⟨hfits, decode_encode _ hfits⟩

end Statement

end R3000
