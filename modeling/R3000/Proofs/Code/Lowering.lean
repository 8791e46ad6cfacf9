import R3000.Proofs.Code.Instruction
import R3000.Proofs.Unit.Currency

/-!
# The code of one instruction

Every instruction that is not a branch has code that does what the interpreter does with it, or
leaves before it has changed anything: with the exception that the interpreter raises, because the
guess about an access does not help (`Instr.Misses`), or because only the interpreter can execute
the instruction.  A session and the interpreter are compared up to what the interpreter notes about
accesses (`Agrees`).
-/

namespace R3000

/-! ## Places in storage -/

theorem offset_lt_of_index_lt {p : Place} {words : Nat} {size : Word} (h : p.index < words)
    (hsize : size.toNat = 4 * words) : p.offset < size := by
  have hindex : p.offset.toNat / 4 < words := h
  apply UInt32.lt_iff_toNat_lt.mpr
  omega

theorem AddressSpace.exists_bufferRead (m : AddressSpace) {addr : Word}
    (h : (locate addr).region.isStorage = true) (width : Width) :
    ∃ raw, m.bufferRead (locate addr).region (locate addr).offset width = some raw := by
  unfold bufferRead
  cases hr : (locate addr).region with
  | ram => exact ⟨_, if_pos (offset_lt_of_index_lt (index_lt_of_ram hr) rfl)⟩
  | bios => exact ⟨_, if_pos (offset_lt_of_index_lt (index_lt_of_bios hr) rfl)⟩
  | scratch => exact ⟨_, if_pos (offset_lt_of_index_lt (index_lt_of_scratch hr) rfl)⟩
  | _ =>
    rw [hr] at h
    exact absurd h Bool.false_ne_true

theorem AddressSpace.bufferRead_of_not_isStorage (m : AddressSpace) {region : Region}
    (h : region.isStorage = false) (offset : Word) (width : Width) :
    m.bufferRead region offset width = none := by
  cases region <;> first
    | rfl
    | exact absurd h.symm Bool.false_ne_true

theorem AddressSpace.bufferWritable_locate {addr : Word}
    (h : (locate addr).region.isWritable = true) :
    bufferWritable (locate addr).region (locate addr).offset = true := by
  unfold bufferWritable
  cases hr : (locate addr).region with
  | ram => exact decide_eq_true (offset_lt_of_index_lt (index_lt_of_ram hr) rfl)
  | scratch => exact decide_eq_true (offset_lt_of_index_lt (index_lt_of_scratch hr) rfl)
  | _ =>
    rw [hr] at h
    exact absurd h Bool.false_ne_true

/-! ## States that agree -/

/-- How the code of an instruction at `pc` ended, next to the interpreter: it faulted before it
changed anything, or it did what the interpreter does. -/
inductive Completes (pc : Word) (watch : Bool) (s : Session) (r : Stepped) :
    OpResult × Session → Prop
  | fault {k : FaultKind} (hk : ∀ h, k ≠ .host h) : Completes pc watch s r (.fault k, s)
  | next {t : Session} (hr : r.fault = none) (ht : Mirrors t r.cpu r.mem)
      (hwatch : watch = true → s.codeChanged = false → t.codeChanged = false) :
      Completes pc watch s r (.flow .next, t)
  | skip {t : Session} (hr : r.fault = none) (ht : Mirrors t r.cpu r.mem) (hw : watch = true) :
      Completes pc watch s r (.signal (.skip pc), t)

/-- A session and the interpreter are in the same state, up to notes about accesses. -/
structure Agrees (s : Session) (c : Cpu) (m : AddressSpace) : Prop where
  get : s.regs.get = c.regs.get
  hi : s.regs.hi = c.regs.hi
  lo : s.regs.lo = c.regs.lo
  control : s.control = c.control
  mem : s.mem.unprofiled = m.unprofiled

namespace Agrees

variable {s : Session} {c : Cpu} {m : AddressSpace}

theorem mirrors (h : Agrees s c m) : Mirrors s c m :=
  ⟨h.get, h.hi, h.lo, h.control, AddressSpace.contents_of_unprofiled h.mem⟩

theorem of_mirrors (h : Mirrors s c m) (hm : s.mem.unprofiled = m.unprofiled) : Agrees s c m :=
  ⟨h.get, h.hi, h.lo, h.control, hm⟩

theorem noted (h : Agrees s c m) {c' : Cpu} {m' : AddressSpace} (hregs : c'.regs = c.regs)
    (hcontrol : c'.control = c.control) (hm : m'.unprofiled = m.unprofiled) : Agrees s c' m' :=
  .of_mirrors (h.mirrors.noted hregs hcontrol (AddressSpace.contents_of_unprofiled hm))
    (h.mem.trans hm.symm)

theorem setReg (h : Agrees s c m) (r : Reg) (v : Word) : Agrees (s.setReg r v) (c.setReg r v) m :=
  .of_mirrors (h.mirrors.setReg r v) h.mem

theorem loadAs (h : Agrees s c m) (op : Op) (addr current : Word) (r : Reg) (cycles : UInt64) :
    Agrees
      { s.setReg r (s.mem.loadAs op addr current).1 with
        mem := (s.mem.loadAs op addr current).2
        cycles }
      (c.setReg r (m.loadAs op addr current).1) (m.loadAs op addr current).2 := by
  have hload : s.mem.unprofiled.loadAs op addr current = m.unprofiled.loadAs op addr current := by
    rw [h.mem]
  rw [AddressSpace.loadAs_unprofiled, AddressSpace.loadAs_unprofiled] at hload
  obtain ⟨hvalue, hmem⟩ := Prod.mk.inj hload
  rw [hvalue]
  have hset := h.setReg r (m.loadAs op addr current).1
  exact ⟨hset.get, hset.hi, hset.lo, hset.control, hmem⟩

theorem storeAs (h : Agrees s c m) (op : Op) (addr value : Word) :
    Agrees { s with mem := s.mem.storeAs op addr value } c (m.storeAs op addr value) := by
  refine ⟨h.get, h.hi, h.lo, h.control, ?_⟩
  rw [AddressSpace.unprofiled_storeAs, AddressSpace.unprofiled_storeAs, h.mem]

end Agrees

namespace Instr

variable {i : Instr} {guess : MemoryGuess} {s : Session} {c : Cpu} {m : AddressSpace}
  {region : Region}

/-! ## Direct accesses -/

def directly (i : Instr) (guess : MemoryGuess) : Option Region :=
  guess.region.filter fun region => i.op.loadsWhole || (i.op.storesWhole && region.isWritable)

/-- The access is in order, but its code cannot make it: it does not lead into the guessed region,
or that region has no storage. -/
def Misses (i : Instr) (guess : MemoryGuess) (s : Session) : Prop :=
  ∃ region, i.directly guess = some region ∧
    i.op.alignmentFault (s.reg i.rs + i.simm) = none ∧
    ((locate (s.reg i.rs + i.simm)).region ≠ region ∨ region.isStorage = false)

theorem isMemory_of_directly (h : i.directly guess = some region) : i.isMemory = true := by
  have hwhole := (Option.filter_eq_some_iff.mp h).2
  obtain ⟨raw, op⟩ := i
  change (op.loadsWhole || (op.storesWhole && region.isWritable)) = true at hwhole
  change (op.has .memoryRead || op.has .memoryWrite) = true
  cases op <;> first
    | rfl
    | exact absurd hwhole Bool.false_ne_true

theorem Misses.plain (h : i.Misses guess s) :
    i.has .completeState = false ∧ i.has .computable = false ∧ i.isMemory = true := by
  obtain ⟨region, hdirect, -⟩ := h
  have hmem := isMemory_of_directly hdirect
  rcases Bool.or_eq_true_iff.mp hmem with hread | hwrite
  · obtain ⟨hc, -, hcomp, -⟩ := Op.plain_of_memoryRead hread
    exact ⟨hc, hcomp, hmem⟩
  · obtain ⟨hc, -, hcomp, -⟩ := Op.plain_of_memoryWrite hwrite
    exact ⟨hc, hcomp, hmem⟩

theorem loadDirect_of_miss (s : Session) (ha : i.op.alignmentFault (s.reg i.rs + i.simm) = none)
    (h : (locate (s.reg i.rs + i.simm)).region ≠ region ∨ region.isStorage = false) :
    s.loadDirect i region = (.fault .mispredict, s) := by
  simp only [Session.loadDirect, ha]
  rcases h with h | h
  · rw [if_neg h]
  · rw [s.mem.bufferRead_of_not_isStorage h, ite_self]

theorem loadDirect_of_hit (hw : i.op.loadsWhole = true) (s : Session)
    (h : ¬(i.op.alignmentFault (s.reg i.rs + i.simm) = none ∧
      ((locate (s.reg i.rs + i.simm)).region ≠ region ∨ region.isStorage = false))) :
    s.loadDirect i region = s.loadBus i false := by
  simp only [Session.loadDirect, Session.loadBus]
  cases ha : i.op.alignmentFault (s.reg i.rs + i.simm) with
  | some e => rfl
  | none =>
    obtain ⟨hregion, hstorage⟩ := not_or.mp fun hmiss => h ⟨ha, hmiss⟩
    obtain rfl := Classical.not_not.mp hregion
    obtain ⟨raw, hraw⟩ := s.mem.exists_bufferRead (eq_true_of_ne_false hstorage) i.accessWidth
    simp only [if_true, hraw, bufferRead_eq hw hraw]
    rfl

theorem storeDirect_of_miss (s : Session) (pc : Word) (watch : Bool)
    (ha : i.op.alignmentFault (s.reg i.rs + i.simm) = none)
    (h : (locate (s.reg i.rs + i.simm)).region ≠ region) :
    s.storeDirect i region pc watch = (.fault .mispredict, s) := by
  simp only [Session.storeDirect, ha]
  rw [if_neg fun hp => h hp.1]

theorem storeDirect_of_hit (hw : i.op.storesWhole = true) (s : Session)
    (hr : region.isWritable = true) (pc : Word) (watch : Bool)
    (h : ¬(i.op.alignmentFault (s.reg i.rs + i.simm) = none ∧
      (locate (s.reg i.rs + i.simm)).region ≠ region)) :
    s.storeDirect i region pc watch = s.storeBus i pc watch := by
  simp only [Session.storeDirect, Session.storeBus]
  cases ha : i.op.alignmentFault (s.reg i.rs + i.simm) with
  | some e => rfl
  | none =>
    obtain rfl := Classical.not_not.mp fun hne => h ⟨ha, hne⟩
    have hwritable := AddressSpace.bufferWritable_locate hr
    simp only [hwritable, and_self, if_true, bufferStore_eq hw hwritable]

/-! ## Loads and stores -/

theorem act_load (hi : i.has .memoryRead = true) (pc : Word) (guess : MemoryGuess) (watch : Bool)
    (s : Session) :
    (i.Misses guess s ∧ i.act pc guess watch s = (.fault .mispredict, s)) ∨
      (¬i.Misses guess s ∧ ∃ poll, i.act pc guess watch s = s.loadBus i poll) := by
  have hstores : i.op.storesWhole = false := by
    obtain ⟨raw, op⟩ := i
    change op.has .memoryRead = true at hi
    cases op <;> first
      | rfl
      | exact absurd hi (by decide)
  rw [act, lower_of_memoryRead hi, lowerLoad]
  unfold Misses directly
  cases guess.region with
  | none => exact .inr ⟨by simp, guess.poll, rfl⟩
  | some region =>
    by_cases hw : i.op.loadsWhole = true
    · simp only [hw, Bool.true_or, Option.filter_some, if_true, Option.some.injEq,
        exists_eq_left']
      by_cases hmiss : i.op.alignmentFault (s.reg i.rs + i.simm) = none ∧
          ((locate (s.reg i.rs + i.simm)).region ≠ region ∨ region.isStorage = false)
      · exact .inl ⟨hmiss, loadDirect_of_miss s hmiss.1 hmiss.2⟩
      · exact .inr ⟨hmiss, false, loadDirect_of_hit hw s hmiss⟩
    · simp only [if_neg hw]
      exact .inr ⟨by simp [hw, hstores], guess.poll, rfl⟩

theorem lowerStore_of_direct (hw : i.op.storesWhole = true) (hr : region.isWritable = true)
    {pc : Word} {watch : Bool} :
    i.lowerStore pc (some region) watch = .storeDirect i region pc watch := by
  cases region with
  | ram | scratch => exact if_pos hw
  | _ => exact absurd hr Bool.false_ne_true

theorem lowerStore_of_bus (h : ¬(i.op.storesWhole = true ∧ region.isWritable = true)) {pc : Word}
    {watch : Bool} : i.lowerStore pc (some region) watch = .storeBus i pc watch := by
  cases region with
  | ram | scratch => exact if_neg fun hw => h ⟨hw, rfl⟩
  | _ => rfl

theorem act_store (hi : i.has .memoryWrite = true) (pc : Word) (guess : MemoryGuess)
    (watch : Bool) (s : Session) :
    (i.Misses guess s ∧ i.act pc guess watch s = (.fault .mispredict, s)) ∨
      (¬i.Misses guess s ∧ i.act pc guess watch s = s.storeBus i pc watch) := by
  have hloads : i.op.loadsWhole = false := by
    obtain ⟨raw, op⟩ := i
    change op.has .memoryWrite = true at hi
    cases op <;> first
      | rfl
      | exact absurd hi (by decide)
  rw [act, lower_of_memoryWrite hi]
  unfold Misses directly
  cases guess.region with
  | none => exact .inr ⟨by simp, rfl⟩
  | some region =>
    by_cases hw : i.op.storesWhole = true ∧ region.isWritable = true
    · have hstorage := Region.isStorage_of_isWritable hw.2
      rw [lowerStore_of_direct hw.1 hw.2]
      simp only [hw, Bool.and_self, Bool.or_true, Option.filter_some, if_true, Option.some.injEq,
        exists_eq_left', hstorage,
        Bool.true_eq_false, or_false]
      by_cases hmiss : i.op.alignmentFault (s.reg i.rs + i.simm) = none ∧
          (locate (s.reg i.rs + i.simm)).region ≠ region
      · exact .inl ⟨hmiss, storeDirect_of_miss s pc watch hmiss.1 hmiss.2⟩
      · exact .inr ⟨hmiss, storeDirect_of_hit hw.1 s hw.2 pc watch hmiss⟩
    · rw [lowerStore_of_bus hw]
      refine .inr ⟨?_, rfl⟩
      rintro ⟨r, hr, -⟩
      obtain ⟨hsome, hfilter⟩ := Option.filter_eq_some_iff.mp hr
      obtain rfl := Option.some.inj hsome
      rw [hloads, Bool.false_or, Bool.and_eq_true] at hfilter
      exact hw hfilter

/-! ## Outcomes -/

/-- How the code of an instruction at `pc` ends, where the interpreter ends with `r`.  A store that
watches for changed code leaves if there is any. -/
inductive Fares (i : Instr) (pc : Word) (guess : MemoryGuess) (watch : Bool) (s : Session)
    (r : Stepped) : OpResult × Session → Prop
  | next {t : Session} (hmiss : ¬i.Misses guess s) (hr : r.fault = none)
      (ht : Agrees t r.cpu r.mem)
      (hwatch : watch = true → s.codeChanged = false → t.codeChanged = false) :
      Fares i pc guess watch s r (.flow .next, t)
  | skip {t : Session} (hmiss : ¬i.Misses guess s) (hr : r.fault = none)
      (ht : Agrees t r.cpu r.mem) (hw : watch = true) :
      Fares i pc guess watch s r (.signal (.skip pc), t)
  | exception {e : Exception} (hmiss : ¬i.Misses guess s) (hr : r.fault = some e)
      (hs : Agrees s r.cpu r.mem) : Fares i pc guess watch s r (.fault (.exception e), s)
  | mispredict (hmiss : i.Misses guess s) (hr : r.fault = none) :
      Fares i pc guess watch s r (.fault .mispredict, s)

theorem fares_computable (h : Agrees s c m) (hi : i.has .computable = true) (pc : Word)
    (guess : MemoryGuess) (watch : Bool) :
    i.Fares pc guess watch s (c.execute i m) (i.act pc guess watch s) := by
  have hmiss : ¬i.Misses guess s := fun hmiss =>
    Bool.eq_false_iff.mp hmiss.plain.2.1 hi
  rw [act_of_computable hi, execute_of_computable hi, h.get]
  cases i.evaluate c.regs.get with
  | none => exact .exception hmiss rfl h
  | some value =>
    refine .next hmiss rfl ?_ fun _ hs => hs
    unfold putDest
    cases i.dest with
    | none => exact h
    | some d => exact h.setReg d value

section Memory

variable (h : Agrees s c m)
include h

theorem execute_misaligned (hi : i.isMemory = true) {e : Exception}
    (ha : i.op.alignmentFault (s.reg i.rs + i.simm) = some e) :
    (c.execute i m).fault = some e ∧ Agrees s (c.execute i m).cpu (c.execute i m).mem := by
  obtain ⟨c', m', hregs, hcontrol, hm, heq⟩ := exists_executeAccess i c m
  rw [show s.reg = c.regs.get from h.get] at ha
  rw [execute_of_memory hi, heq, accessed, ha]
  exact ⟨rfl, h.noted hregs hcontrol hm⟩

theorem execute_load (hi : i.has .memoryRead = true)
    (ha : i.op.alignmentFault (s.reg i.rs + i.simm) = none) (cycles : UInt64) :
    (c.execute i m).fault = none ∧
      Agrees
        { s.setReg i.rt (s.mem.loadAs i.op (s.reg i.rs + i.simm) (s.reg i.rt)).1 with
          mem := (s.mem.loadAs i.op (s.reg i.rs + i.simm) (s.reg i.rt)).2
          cycles }
        (c.execute i m).cpu (c.execute i m).mem := by
  obtain ⟨c', m', hregs, hcontrol, hm, heq⟩ := exists_executeAccess i c m
  have hreg : s.reg = c.regs.get := h.get
  rw [hreg] at ha ⊢
  rw [execute_of_memory (by rw [isMemory, hi]; rfl), heq, accessed, ha]
  dsimp only
  rw [if_pos hi]
  exact ⟨rfl, (h.noted hregs hcontrol hm).loadAs _ _ _ _ cycles⟩

theorem execute_store (hi : i.has .memoryWrite = true)
    (ha : i.op.alignmentFault (s.reg i.rs + i.simm) = none) :
    (c.execute i m).fault = none ∧
      Agrees { s with mem := s.mem.storeAs i.op (s.reg i.rs + i.simm) (s.reg i.rt) }
        (c.execute i m).cpu (c.execute i m).mem := by
  have hread : i.has .memoryRead = false := (Op.plain_of_memoryWrite hi).2.2.2.1
  obtain ⟨c', m', hregs, hcontrol, hm, heq⟩ := exists_executeAccess i c m
  have hreg : s.reg = c.regs.get := h.get
  rw [hreg] at ha ⊢
  rw [execute_of_memory (by rw [isMemory, hi, Bool.or_true]), heq, accessed, ha]
  dsimp only
  rw [if_neg (Bool.eq_false_iff.mp hread)]
  exact ⟨rfl, (h.noted hregs hcontrol hm).storeAs _ _ _⟩

theorem fares_memoryRead (hi : i.has .memoryRead = true) (pc : Word) (guess : MemoryGuess)
    (watch : Bool) : i.Fares pc guess watch s (c.execute i m) (i.act pc guess watch s) := by
  rcases act_load hi pc guess watch s with ⟨hmiss, hact⟩ | ⟨hmiss, poll, hact⟩
  · obtain ⟨-, -, ha, -⟩ := id hmiss
    rw [hact]
    exact .mispredict hmiss (execute_load h hi ha 0).1
  · rw [hact]
    simp only [Session.loadBus]
    cases ha : i.op.alignmentFault (s.reg i.rs + i.simm) with
    | some e =>
      obtain ⟨hr, hs⟩ := execute_misaligned h (by rw [isMemory, hi]; rfl) ha
      exact .exception hmiss hr hs
    | none =>
      have hquiet : s.codeChanged = false →
          (s.mem.loadAs i.op (s.reg i.rs + i.simm) (s.reg i.rt)).2.watch.raised = false := by
        rw [AddressSpace.watch_loadAs]
        exact id
      cases poll with
      | true =>
        obtain ⟨hr, ht⟩ := execute_load h hi ha (max s.cycles s.deadline)
        exact .next hmiss hr ht fun _ => hquiet
      | false =>
        obtain ⟨hr, ht⟩ := execute_load h hi ha s.cycles
        exact .next hmiss hr ht fun _ => hquiet

theorem fares_memoryWrite (hi : i.has .memoryWrite = true) (pc : Word) (guess : MemoryGuess)
    (watch : Bool) : i.Fares pc guess watch s (c.execute i m) (i.act pc guess watch s) := by
  rcases act_store hi pc guess watch s with ⟨hmiss, hact⟩ | ⟨hmiss, hact⟩
  · obtain ⟨-, -, ha, -⟩ := id hmiss
    rw [hact]
    exact .mispredict hmiss (execute_store h hi ha).1
  · rw [hact]
    simp only [Session.storeBus]
    cases ha : i.op.alignmentFault (s.reg i.rs + i.simm) with
    | some e =>
      obtain ⟨hr, hs⟩ := execute_misaligned h (by rw [isMemory, hi, Bool.or_true]) ha
      exact .exception hmiss hr hs
    | none =>
      obtain ⟨hr, ht⟩ := execute_store h hi ha
      simp only [Session.afterStore]
      split
      next hw => exact .skip hmiss hr ht (Bool.and_eq_true_iff.mp hw).1
      next hw =>
        refine .next hmiss hr ht fun hwatch _ => ?_
        rw [hwatch, Bool.true_and] at hw
        exact Bool.eq_false_iff.mpr hw

end Memory

theorem fares_special (h : Agrees s c m) (hi : i.needsInterpreter = false)
    (hcomp : i.has .computable = false) (hread : i.has .memoryRead = false)
    (hwrite : i.has .memoryWrite = false) (pc : Word) (guess : MemoryGuess) (watch : Bool) :
    i.Fares pc guess watch s (c.execute i m) (i.act pc guess watch s) := by
  have hmiss : ¬i.Misses guess s := by
    intro hmiss
    have hmem := hmiss.plain.2.2
    rw [isMemory, hread, hwrite] at hmem
    exact absurd hmem Bool.false_ne_true
  have hreg : ∀ r, s.reg r = c.reg r := congrFun h.get
  have hproduct : ∀ (f : Word → Word → HiLo) (a b : Reg),
      Agrees { s with regs := s.regs.setHiLo (f (s.reg a) (s.reg b)) }
        { c with regs := c.regs.setHiLo (f (c.reg a) (c.reg b)) } m := by
    intro f a b
    rw [hreg, hreg]
    exact ⟨h.get, rfl, rfl, h.control, h.mem⟩
  obtain ⟨hb, hc, -, -⟩ := plain_of_needsInterpreter hi
  obtain ⟨raw, op⟩ := i
  change op.has .branch = false at hb
  change op.has .completeState = false at hc
  change op.has .computable = false at hcomp
  change op.has .memoryRead = false at hread
  change op.has .memoryWrite = false at hwrite
  cases op with
  | mfhi =>
    refine .next hmiss rfl ?_ fun _ hs => hs
    show Agrees (s.setReg _ s.regs.hi) (c.setReg _ c.regs.hi) m
    rw [h.hi]
    exact h.setReg _ _
  | mflo =>
    refine .next hmiss rfl ?_ fun _ hs => hs
    show Agrees (s.setReg _ s.regs.lo) (c.setReg _ c.regs.lo) m
    rw [h.lo]
    exact h.setReg _ _
  | mthi => exact .next hmiss rfl ⟨h.get, hreg _, h.lo, h.control, h.mem⟩ fun _ hs => hs
  | mtlo => exact .next hmiss rfl ⟨h.get, h.hi, hreg _, h.control, h.mem⟩ fun _ hs => hs
  | mult => exact .next hmiss rfl (hproduct (HiLo.multiply true) _ _) fun _ hs => hs
  | multu => exact .next hmiss rfl (hproduct (HiLo.multiply false) _ _) fun _ hs => hs
  | div => exact .next hmiss rfl (hproduct (HiLo.divide true) _ _) fun _ hs => hs
  | divu => exact .next hmiss rfl (hproduct (HiLo.divide false) _ _) fun _ hs => hs
  | mfc0 =>
    refine .next hmiss rfl ?_ fun _ hs => hs
    show Agrees (s.setReg _ (s.control.read _)) (c.setReg _ (c.control.read _)) m
    rw [h.control]
    exact h.setReg _ _
  | rfe =>
    have hcontrol := congrArg SystemControl.returnFromException h.control
    exact .next hmiss rfl ⟨h.get, h.hi, h.lo, hcontrol, h.mem⟩ fun _ hs => hs
  | _ =>
    exfalso
    revert hb hc hcomp hread hwrite
    decide

theorem fares (h : Agrees s c m) (hi : i.needsInterpreter = false) (pc : Word)
    (guess : MemoryGuess) (watch : Bool) :
    i.Fares pc guess watch s (c.execute i m) (i.act pc guess watch s) := by
  cases hcomp : i.has .computable with
  | true => exact fares_computable h hcomp pc guess watch
  | false =>
    cases hread : i.has .memoryRead with
    | true => exact fares_memoryRead h hread pc guess watch
    | false =>
      cases hwrite : i.has .memoryWrite with
      | true => exact fares_memoryWrite h hwrite pc guess watch
      | false => exact fares_special h hi hcomp hread hwrite pc guess watch

/-! ## What a program sees -/

theorem completes (h : Mirrors s c m) (hi : i.needsInterpreter = false) (pc : Word)
    (guess : MemoryGuess) (watch : Bool) :
    Completes pc watch s (c.execute i m) (i.act pc guess watch s) := by
  obtain ⟨hfault, hregs, hcontrol, hcontents⟩ := i.execute_congr_contents c h.contents
  have hmirrors : ∀ {t}, Agrees t (c.execute i s.mem).cpu (c.execute i s.mem).mem →
      Mirrors t (c.execute i m).cpu (c.execute i m).mem := fun ht =>
    ht.mirrors.noted hregs.symm hcontrol.symm hcontents.symm
  have hfares := fares ⟨h.get, h.hi, h.lo, h.control, rfl⟩ hi pc guess watch
  generalize i.act pc guess watch s = out at hfares ⊢
  cases hfares with
  | next _ hr ht hwatch => exact .next (hfault.symm.trans hr) (hmirrors ht) hwatch
  | skip _ hr ht hw => exact .skip (hfault.symm.trans hr) (hmirrors ht) hw
  | exception => exact .fault (by simp)
  | mispredict => exact .fault (by simp)

/-! ## All instructions -/

theorem completeState_of_invalid (h : i.has .invalid = true) : i.has .completeState = true := by
  obtain ⟨raw, op⟩ := i
  change op.has .invalid = true at h
  change op.has .completeState = true
  cases op <;> first
    | decide
    | exact absurd h (by decide)

theorem lower_of_completeState (h : i.has .completeState = true) (pc : Word)
    (guess : MemoryGuess) (watch : Bool) : i.lower pc guess watch = some (.resume pc) := by
  rw [lower, h, Bool.true_or, if_pos rfl]

theorem plain_of_lower_eq_none {pc : Word} {watch : Bool} (h : i.lower pc guess watch = none) :
    i.has .computable = true ∧ i.dest = none ∧ i.has .mayOverflow = false := by
  unfold lower at h
  split at h
  · cases h
  · split at h
    next hcomp =>
      refine ⟨hcomp, ?_⟩
      unfold lowerComputable at h
      cases hd : i.dest with
      | some d =>
        rw [hd] at h
        cases h
      | none =>
        rw [hd] at h
        dsimp only at h
        split at h
        · cases h
        next ho => exact ⟨rfl, Bool.eq_false_iff.mpr ho⟩
    · split at h
      · cases h
      · split at h <;> cases h

theorem execute_of_lower_eq_none {pc : Word} {watch : Bool} (h : i.lower pc guess watch = none) :
    c.execute i m = { cpu := c, mem := m } := by
  obtain ⟨hcomp, hdest, hoverflow⟩ := plain_of_lower_eq_none h
  obtain ⟨v, hv⟩ := exists_evaluate hcomp hoverflow c.regs.get
  rw [execute_of_computable hcomp, hv]
  unfold putDest
  rw [hdest]

/-- The outcome of an instruction's code beside the outcome `r` in the interpreter. -/
structure Follows (i : Instr) (pc : Word) (guess : MemoryGuess) (s : Session) (r : Stepped)
    (out : OpResult × Session) : Prop where
  /-- Code that comes to its end has done what the interpreter does. -/
  done : out.1 = .flow .next ∨ out.1 = .signal (.skip pc) →
    r.fault = none ∧ Agrees out.2 r.cpu r.mem
  exception : ∀ e, out.1 = .fault (.exception e) ↔ i.has .completeState = false ∧ r.fault = some e
  mispredict : out.1 = .fault .mispredict ↔ i.Misses guess s
  resume : out.1 = .signal (.resume pc) ↔ i.has .completeState = true ∨ i.has .invalid = true
  /-- Code that leaves early has changed nothing. -/
  unchanged : out.1 ≠ .flow .next → out.1 ≠ .signal (.skip pc) → out.2 = s
  /-- Nor has the interpreter when it raises an exception. -/
  refused : ∀ e, out.1 = .fault (.exception e) → Agrees s r.cpu r.mem
  /-- There is no other outcome. -/
  outcome : out.1 = .flow .next ∨ out.1 = .signal (.skip pc) ∨ out.1 = .signal (.resume pc) ∨
    out.1 = .fault .mispredict ∨ ∃ e, out.1 = .fault (.exception e)

theorem follows_resume (hc : i.has .completeState = true) (pc : Word) (guess : MemoryGuess)
    (s : Session) (r : Stepped) : i.Follows pc guess s r (.signal (.resume pc), s) := by
  have hmiss : ¬i.Misses guess s := fun hmiss => Bool.eq_false_iff.mp hmiss.plain.1 hc
  constructor <;> simp [hc, hmiss]

theorem Fares.follows {pc : Word} {watch : Bool} {r : Stepped} {out : OpResult × Session}
    (h : i.Fares pc guess watch s r out) (hc : i.has .completeState = false)
    (hinv : i.has .invalid = false) : i.Follows pc guess s r out := by
  cases h with
  | next hmiss hr ht => constructor <;> simp_all
  | skip hmiss hr ht => constructor <;> simp_all
  | exception hmiss hr hs => constructor <;> simp_all
  | mispredict hmiss hr => constructor <;> simp_all

/-- The code of an instruction that is not a branch follows the interpreter. -/
theorem code_follows_interpreter (hi : i.isBranch = false) (h : Agrees s c m) (pc : Word)
    (guess : MemoryGuess) (watch : Bool) :
    (i.lower pc guess watch = none → c.execute i m = { cpu := c, mem := m }) ∧
      ∀ op, i.lower pc guess watch = some op →
        i.Follows pc guess s (c.execute i m) (op.perform s) := by
  refine ⟨execute_of_lower_eq_none, fun op hop => ?_⟩
  cases hc : i.has .completeState with
  | true =>
    rw [lower_of_completeState hc] at hop
    obtain rfl := Option.some.inj hop
    exact follows_resume hc pc guess s (c.execute i m)
  | false =>
    have hinv : i.has .invalid = false := Bool.eq_false_iff.mpr fun hinv => by
      rw [completeState_of_invalid hinv] at hc
      cases hc
    have hfares := fares h (show i.needsInterpreter = false by rw [needsInterpreter, hi, hc, hinv]; rfl)
      pc guess watch
    rw [act, hop] at hfares
    exact hfares.follows hc hinv

def loadThere : Instr :=
  Instr.decode 0x8D410000

def pointingTo (addr : Word) : Session :=
  Session.begin (({} : Registers).set (Reg.ofNumber 10) addr) AddressSpace.empty

/-- A load that was guessed to read RAM reads the scratchpad. -/
theorem code_follows_interpreter_elsewhere :
    loadThere.isBranch = false ∧
      Agrees (pointingTo 0x1F800000) { regs := (pointingTo 0x1F800000).regs } AddressSpace.empty ∧
      ((Micro.loadDirect loadThere .ram).perform (pointingTo 0x1F800000)).1 =
        .fault .mispredict := by
  have hagrees : Agrees (pointingTo 0x1F800000) { regs := (pointingTo 0x1F800000).regs }
      AddressSpace.empty := ⟨rfl, rfl, rfl, rfl, rfl⟩
  have hfollows := (code_follows_interpreter (i := loadThere) (by decide) hagrees 0x80000000
    { region := some .ram } false).2 (.loadDirect loadThere .ram) rfl
  exact ⟨by decide, hagrees, hfollows.mispredict.mpr ⟨.ram, rfl, by decide, .inl (by decide)⟩⟩

/-- A load from a device faults although the device was guessed: there is no storage to load from
directly. -/
theorem mispredict_in_guessed_region :
    loadThere.lower 0x80000000 { region := some .hardware } false =
        some (.loadDirect loadThere .hardware) ∧
      (locate ((pointingTo 0x1F801000).reg loadThere.rs + loadThere.simm)).region = .hardware ∧
      ((Micro.loadDirect loadThere .hardware).perform (pointingTo 0x1F801000)).1 =
        .fault .mispredict :=
  ⟨rfl, by decide, congrArg Prod.fst (loadDirect_of_miss _ (by decide) (.inr rfl))⟩

end Instr

end R3000
