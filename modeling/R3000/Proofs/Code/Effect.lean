import R3000.Proofs.Constants.Known
import R3000.Session.Perform

/-!
# Effects of instructions

What the code of an instruction does to a session is an `Effect`: a result, at most one register
or the pair of products, and the parts of the session outside the register file.  The effect is
fixed by the registers that the instruction reads, so it is the same from two sessions that
differ in other registers only (`Instr.exists_effect`).
-/

namespace R3000

inductive RegisterUpdate
  | keep
  | put (d : Reg) (value : Word)
  | product (p : HiLo)

namespace RegisterUpdate

def apply : RegisterUpdate → Registers → Registers
  | .keep, f => f
  | .put d value, f => f.set d value
  | .product p, f => f.setHiLo p

def target : RegisterUpdate → Option Reg
  | .put d _ => some d
  | _ => none

end RegisterUpdate

structure Effect where
  result : OpResult
  update : RegisterUpdate
  mem : AddressSpace
  control : SystemControl
  cycles : UInt64

namespace Effect

def on (e : Effect) (s : Session) : OpResult × Session :=
  (e.result,
    { s with
      regs := e.update.apply s.regs
      mem := e.mem
      control := e.control
      cycles := e.cycles })

def wrote (s : Session) (d : Reg) (value : Word) : Effect :=
  { result := .flow .next, update := .put d value, mem := s.mem, control := s.control
    cycles := s.cycles }

def none (s : Session) (result : OpResult) : Effect :=
  { result, update := .keep, mem := s.mem, control := s.control, cycles := s.cycles }

def product (s : Session) (p : HiLo) : Effect :=
  { result := .flow .next, update := .product p, mem := s.mem, control := s.control
    cycles := s.cycles }

def stored (s : Session) (mem : AddressSpace) (result : OpResult) : Effect :=
  { result, update := .keep, mem, control := s.control, cycles := s.cycles }

end Effect

namespace Micro

variable {m : Micro} {s : Session}

def sources : Micro → List Reg
  | .set _ _ | .readHi _ | .readLo _ | .readControl _ _ | .restoreStatus | .resume _ => []
  | .add _ a b | .sub _ a b | .and _ a b | .or _ a b | .less _ a b => [a, b]
  | .addImm _ a _ | .andImm _ a _ | .orImm _ a _ => [a]
  | .shiftLeft _ a _ | .shiftRight _ a _ => [a]
  | .compute i _ => (List.finRange 32).filter fun r => Word.any i.reads r.mask
  | .writeHi a | .writeLo a => [a]
  | .multiply _ a b | .divide _ a b => [a, b]
  | .loadDirect i _ => [i.rs]
  | .loadBus i _ => if i.op.loadsWhole then [i.rs] else [i.rs, i.rt]
  | .storeDirect i _ _ _ | .storeBus i _ _ => [i.rs, i.rt]

def target : Micro → Option Reg
  | .set d _ | .add d _ _ | .addImm d _ _ | .sub d _ _ | .and d _ _ | .or d _ _ => some d
  | .andImm d _ _ | .orImm d _ _ | .shiftLeft d _ _ | .shiftRight d _ _ | .less d _ _ => some d
  | .compute _ d | .readHi d | .readLo d | .readControl d _ => some d
  | .loadDirect i _ | .loadBus i _ => some i.rt
  | _ => none

/-- The effect of an operation on `s`, and on every session that differs from `s` only in
registers that the operation does not read. -/
structure HasEffect (m : Micro) (s : Session) (e : Effect) : Prop where
  perform_eq : ∀ f : Registers, (∀ r ∈ m.sources, f.get r = s.regs.get r) →
    f.hi = s.regs.hi → f.lo = s.regs.lo →
    m.perform { s with regs := f } = e.on { s with regs := f }
  target_eq : (∀ k, e.result ≠ .fault k) → e.update.target = m.target
  none_of_fault : ∀ k, e.result = .fault k → e = Effect.none s (.fault k)
  result_cases : e.result = .flow .next ∨ (∃ sig, e.result = .signal sig) ∨
    ∃ k, e.result = .fault k

theorem HasEffect.of_wrote {d : Reg} (value : Word) (ht : m.target = some d)
    (h : ∀ f : Registers, (∀ r ∈ m.sources, f.get r = s.regs.get r) → f.hi = s.regs.hi →
      f.lo = s.regs.lo →
      m.perform { s with regs := f } = Session.wrote { s with regs := f } d value) :
    m.HasEffect s (Effect.wrote s d value) where
  perform_eq := h
  target_eq _ := ht.symm
  none_of_fault _ hk := by cases hk
  result_cases := Or.inl rfl

theorem HasEffect.of_value {d : Reg} (value : Registers → Word) (ht : m.target = some d)
    (h : ∀ f, m.perform { s with regs := f } = Session.wrote { s with regs := f } d (value f))
    (hvalue : ∀ f : Registers, (∀ r ∈ m.sources, f.get r = s.regs.get r) → f.hi = s.regs.hi →
      f.lo = s.regs.lo → value f = value s.regs) :
    m.HasEffect s (Effect.wrote s d (value s.regs)) :=
  of_wrote _ ht fun f hf hhi hlo => by rw [h f, hvalue f hf hhi hlo]

theorem HasEffect.of_product {p : HiLo} (ht : m.target = none)
    (h : ∀ f : Registers, (∀ r ∈ m.sources, f.get r = s.regs.get r) → f.hi = s.regs.hi →
      f.lo = s.regs.lo →
      m.perform { s with regs := f } = (.flow .next, { s with regs := f.setHiLo p })) :
    m.HasEffect s (Effect.product s p) where
  perform_eq := h
  target_eq _ := ht.symm
  none_of_fault _ hk := by cases hk
  result_cases := Or.inl rfl

theorem HasEffect.of_fault {k : FaultKind}
    (h : ∀ f : Registers, (∀ r ∈ m.sources, f.get r = s.regs.get r) →
      m.perform { s with regs := f } = (.fault k, { s with regs := f })) :
    m.HasEffect s (Effect.none s (.fault k)) where
  perform_eq f hf _ _ := h f hf
  target_eq hnot := absurd rfl (hnot k)
  none_of_fault _ hk := by
    cases hk
    rfl
  result_cases := Or.inr (Or.inr ⟨k, rfl⟩)

theorem HasEffect.of_store (mem : AddressSpace) (pc : Word) (watch : Bool) (ht : m.target = none)
    (h : ∀ f : Registers, (∀ r ∈ m.sources, f.get r = s.regs.get r) →
      m.perform { s with regs := f } = Session.afterStore { s with regs := f, mem } pc watch) :
    ∃ e, m.HasEffect s e := by
  by_cases hw : (watch && mem.watch.raised) = true
  · refine ⟨Effect.stored s mem (.signal (.skip pc)), fun f hf _ _ => ?_, fun _ => ht.symm, nofun,
      Or.inr (Or.inl ⟨_, rfl⟩)⟩
    rw [h f hf]
    exact if_pos hw
  · refine ⟨Effect.stored s mem (.flow .next), fun f hf _ _ => ?_, fun _ => ht.symm, nofun,
      Or.inl rfl⟩
    rw [h f hf]
    exact if_neg hw

end Micro

theorem AddressSpace.loadAs_congr (mem : AddressSpace) {op : Op} (addr : Word) {v w : Word}
    (h : op.loadsWhole = true ∨ v = w) : mem.loadAs op addr v = mem.loadAs op addr w := by
  rcases h with h | rfl
  · cases op <;> first | rfl | exact absurd h Bool.false_ne_true
  · rfl

namespace Micro

variable (i : Instr)

theorem exists_effect_loadDirect (region : Region) (s : Session) :
    ∃ e, (Micro.loadDirect i region).HasEffect s e := by
  have hread : ∀ f : Registers, (∀ r ∈ (Micro.loadDirect i region).sources,
      f.get r = s.regs.get r) → f.get i.rs + i.simm = s.regs.get i.rs + i.simm := by
    intro f hf
    rw [hf i.rs (List.mem_singleton.mpr rfl)]
  cases ha : i.op.alignmentFault (s.regs.get i.rs + i.simm) with
  | some x =>
    refine ⟨_, HasEffect.of_fault (k := .exception x) fun f hf => ?_⟩
    simp only [perform, Session.loadDirect, Session.reg, hread f hf, ha]
  | none =>
    by_cases hp : (locate (s.regs.get i.rs + i.simm)).region = region
    · cases hb : s.mem.bufferRead region (locate (s.regs.get i.rs + i.simm)).offset
          i.accessWidth with
      | some raw =>
        refine ⟨_, HasEffect.of_wrote (d := i.rt) (i.op.extend raw) rfl
          fun f hf _ _ => ?_⟩
        simp only [perform, Session.loadDirect, Session.reg, hread f hf, ha]
        rw [if_pos hp, hb]
      | none =>
        refine ⟨_, HasEffect.of_fault (k := .mispredict) fun f hf => ?_⟩
        simp only [perform, Session.loadDirect, Session.reg, hread f hf, ha]
        rw [if_pos hp, hb]
    · refine ⟨_, HasEffect.of_fault (k := .mispredict) fun f hf => ?_⟩
      simp only [perform, Session.loadDirect, Session.reg, hread f hf, ha]
      rw [if_neg hp]

theorem exists_effect_loadBus (poll : Bool) (s : Session) :
    ∃ e, (Micro.loadBus i poll).HasEffect s e := by
  have hrs : i.rs ∈ (Micro.loadBus i poll).sources := by
    show i.rs ∈ if i.op.loadsWhole then [i.rs] else [i.rs, i.rt]
    split <;> exact List.mem_cons_self
  have hrt : i.op.loadsWhole = true ∨ i.rt ∈ (Micro.loadBus i poll).sources := by
    by_cases hw : i.op.loadsWhole = true
    · exact Or.inl hw
    · right
      show i.rt ∈ if i.op.loadsWhole then [i.rs] else [i.rs, i.rt]
      rw [if_neg hw]
      exact List.mem_cons_of_mem _ List.mem_cons_self
  have hread : ∀ f : Registers, (∀ r ∈ (Micro.loadBus i poll).sources,
      f.get r = s.regs.get r) → f.get i.rs + i.simm = s.regs.get i.rs + i.simm := by
    intro f hf
    rw [hf i.rs hrs]
  cases ha : i.op.alignmentFault (s.regs.get i.rs + i.simm) with
  | some x =>
    refine ⟨_, HasEffect.of_fault (k := .exception x) fun f hf => ?_⟩
    simp only [perform, Session.loadBus, Session.reg, hread f hf, ha]
  | none =>
    have hload : ∀ f : Registers, (∀ r ∈ (Micro.loadBus i poll).sources,
        f.get r = s.regs.get r) →
        s.mem.loadAs i.op (s.regs.get i.rs + i.simm) (f.get i.rt) =
          s.mem.loadAs i.op (s.regs.get i.rs + i.simm) (s.regs.get i.rt) := by
      intro f hf
      exact AddressSpace.loadAs_congr _ _ (hrt.imp id fun hmem => hf i.rt hmem)
    refine ⟨{ result := .flow .next
              update := .put i.rt (s.mem.loadAs i.op (s.regs.get i.rs + i.simm) (s.regs.get i.rt)).1
              mem := (s.mem.loadAs i.op (s.regs.get i.rs + i.simm) (s.regs.get i.rt)).2
              control := s.control
              cycles := if poll then max s.cycles s.deadline else s.cycles },
      fun f hf _ _ => ?_, fun _ => rfl, nofun, Or.inl rfl⟩
    simp only [perform, Session.loadBus, Session.reg, hread f hf, ha, hload f hf]
    cases poll <;> rfl

theorem store_operands {f g : Registers} (h : ∀ r ∈ [i.rs, i.rt], f.get r = g.get r) :
    f.get i.rs + i.simm = g.get i.rs + i.simm ∧ f.get i.rt = g.get i.rt := by
  rw [h i.rs List.mem_cons_self, h i.rt (List.mem_cons_of_mem _ List.mem_cons_self)]
  exact ⟨rfl, rfl⟩

theorem exists_effect_storeDirect (region : Region) (pc : Word) (watch : Bool) (s : Session) :
    ∃ e, (Micro.storeDirect i region pc watch).HasEffect s e := by
  cases ha : i.op.alignmentFault (s.regs.get i.rs + i.simm) with
  | some x =>
    refine ⟨_, HasEffect.of_fault (k := .exception x) fun f hf => ?_⟩
    simp only [perform, Session.storeDirect, Session.reg, (store_operands i hf).1, ha]
  | none =>
    by_cases hp : (locate (s.regs.get i.rs + i.simm)).region = region ∧
        AddressSpace.bufferWritable region (locate (s.regs.get i.rs + i.simm)).offset = true
    · refine HasEffect.of_store
        (s.mem.bufferStore region (locate (s.regs.get i.rs + i.simm)).offset i.accessWidth
          (s.regs.get i.rt)) pc watch rfl fun f hf => ?_
      simp only [perform, Session.storeDirect, Session.reg, (store_operands i hf).1,
        (store_operands i hf).2, ha]
      rw [if_pos hp]
    · refine ⟨_, HasEffect.of_fault (k := .mispredict) fun f hf => ?_⟩
      simp only [perform, Session.storeDirect, Session.reg, (store_operands i hf).1, ha]
      rw [if_neg hp]

theorem exists_effect_storeBus (pc : Word) (watch : Bool) (s : Session) :
    ∃ e, (Micro.storeBus i pc watch).HasEffect s e := by
  cases ha : i.op.alignmentFault (s.regs.get i.rs + i.simm) with
  | some x =>
    refine ⟨_, HasEffect.of_fault (k := .exception x) fun f hf => ?_⟩
    simp only [perform, Session.storeBus, Session.reg, (store_operands i hf).1, ha]
  | none =>
    refine HasEffect.of_store
      (s.mem.storeAs i.op (s.regs.get i.rs + i.simm) (s.regs.get i.rt)) pc watch rfl fun f hf => ?_
    simp only [perform, Session.storeBus, Session.reg, (store_operands i hf).1,
      (store_operands i hf).2, ha]

theorem exists_effect_compute (d : Reg) (s : Session) : ∃ e, (Micro.compute i d).HasEffect s e := by
  have heval : ∀ f : Registers, (∀ r ∈ (Micro.compute i d).sources, f.get r = s.regs.get r) →
      i.evaluate f.get = i.evaluate s.regs.get := by
    intro f hf
    apply Instr.evaluate_congr
    rintro r (hr | hr)
    · rw [Registers.get_zero _ hr, Registers.get_zero _ hr]
    · exact hf r (List.mem_filter.mpr ⟨List.mem_finRange r, hr⟩)
  cases hv : i.evaluate s.regs.get with
  | some value =>
    refine ⟨_, HasEffect.of_wrote (d := d) value rfl fun f hf _ _ => ?_⟩
    have hreg : Session.reg { s with regs := f } = f.get := rfl
    simp only [perform, hreg, heval f hf, hv]
  | none =>
    refine ⟨_, HasEffect.of_fault (k := .exception .overflow) fun f hf => ?_⟩
    have hreg : Session.reg { s with regs := f } = f.get := rfl
    simp only [perform, hreg, heval f hf, hv]

theorem exists_effect (m : Micro) (s : Session) : ∃ e, m.HasEffect s e := by
  -- the first and the second register of the operations that name them
  have hfst : ∀ {a : Reg} {l : List Reg} {f : Registers},
      (∀ r ∈ a :: l, f.get r = s.regs.get r) → f.get a = s.regs.get a :=
    fun h => h _ List.mem_cons_self
  have hsnd : ∀ {a b : Reg} {l : List Reg} {f : Registers},
      (∀ r ∈ a :: b :: l, f.get r = s.regs.get r) → f.get b = s.regs.get b :=
    fun h => h _ (List.mem_cons_of_mem _ List.mem_cons_self)
  cases m with
  | set d value => exact ⟨_, HasEffect.of_value _ rfl (fun _ => rfl) fun _ _ _ _ => rfl⟩
  | add d a b | sub d a b | and d a b | or d a b =>
    refine ⟨_, HasEffect.of_value _ rfl (fun _ => rfl) fun f hf _ _ => ?_⟩
    simp only [Session.reg]
    rw [hfst hf, hsnd hf]
  | less d a b =>
    refine ⟨_, HasEffect.of_value (fun f => Word.ofBool (f.get a < f.get b)) rfl
      (fun _ => rfl) fun f hf _ _ => ?_⟩
    simp only [hfst hf, hsnd hf]
  | addImm d a imm | andImm d a imm | orImm d a imm =>
    refine ⟨_, HasEffect.of_value _ rfl (fun _ => rfl) fun f hf _ _ => ?_⟩
    simp only [Session.reg]
    rw [hfst hf]
  | shiftLeft d a count | shiftRight d a count =>
    refine ⟨_, HasEffect.of_value _ rfl (fun _ => rfl) fun f hf _ _ => ?_⟩
    simp only [Session.reg]
    rw [hfst hf]
  | compute i d => exact exists_effect_compute i d s
  | readHi d => exact ⟨_, HasEffect.of_value _ rfl (fun _ => rfl) fun _ _ hhi _ => hhi⟩
  | readLo d => exact ⟨_, HasEffect.of_value _ rfl (fun _ => rfl) fun _ _ _ hlo => hlo⟩
  | writeHi a =>
    refine ⟨_, HasEffect.of_product (p := ⟨s.regs.get a, s.regs.lo⟩) rfl fun f hf _ hlo => ?_⟩
    simp only [perform, Session.reg, Registers.setHiLo]
    rw [hfst hf, hlo]
  | writeLo a =>
    refine ⟨_, HasEffect.of_product (p := ⟨s.regs.hi, s.regs.get a⟩) rfl fun f hf hhi _ => ?_⟩
    simp only [perform, Session.reg, Registers.setHiLo]
    rw [hfst hf, hhi]
  | multiply signed a b =>
    refine ⟨_, HasEffect.of_product
      (p := HiLo.multiply signed (s.regs.get a) (s.regs.get b)) rfl fun f hf _ _ => ?_⟩
    simp only [perform, Session.reg]
    rw [hfst hf, hsnd hf]
  | divide signed a b =>
    refine ⟨_, HasEffect.of_product
      (p := HiLo.divide signed (s.regs.get a) (s.regs.get b)) rfl fun f hf _ _ => ?_⟩
    simp only [perform, Session.reg]
    rw [hfst hf, hsnd hf]
  | readControl d number =>
    exact ⟨_, HasEffect.of_value _ rfl (fun _ => rfl) fun _ _ _ _ => rfl⟩
  | restoreStatus =>
    exact ⟨{ Effect.none s (.flow .next) with control := s.control.returnFromException },
      fun f _ _ _ => rfl, fun _ => rfl, nofun, Or.inl rfl⟩
  | loadDirect i region => exact exists_effect_loadDirect i region s
  | loadBus i poll => exact exists_effect_loadBus i poll s
  | storeDirect i region pc watch => exact exists_effect_storeDirect i region pc watch s
  | storeBus i pc watch => exact exists_effect_storeBus i pc watch s
  | resume pc =>
    exact ⟨Effect.none s (.signal (.resume pc)), fun _ _ _ _ => rfl, fun _ => rfl, nofun,
      Or.inr (Or.inl ⟨_, rfl⟩)⟩

end Micro

namespace Instr

variable {i : Instr}

theorem lower_of_computable (h : i.has .computable = true) (pc : Word) (guess : MemoryGuess)
    (watch : Bool) : i.lower pc guess watch = i.lowerComputable := by
  obtain ⟨hc, hinv, -, -⟩ := Op.plain_of_computable h
  change i.has .completeState = false at hc
  change i.has .invalid = false at hinv
  rw [lower, hc, hinv, h]
  rfl

theorem lower_of_memoryRead (h : i.has .memoryRead = true) (pc : Word) (guess : MemoryGuess)
    (watch : Bool) : i.lower pc guess watch = some (i.lowerLoad guess) := by
  obtain ⟨hc, hinv, hcomp, -, -⟩ := Op.plain_of_memoryRead h
  change i.has .completeState = false at hc
  change i.has .invalid = false at hinv
  change i.has .computable = false at hcomp
  rw [lower, hc, hinv, hcomp, h]
  rfl

theorem lower_of_memoryWrite (h : i.has .memoryWrite = true) (pc : Word) (guess : MemoryGuess)
    (watch : Bool) : i.lower pc guess watch = some (i.lowerStore pc guess.region watch) := by
  obtain ⟨hc, hinv, hcomp, hread, -, -⟩ := Op.plain_of_memoryWrite h
  change i.has .completeState = false at hc
  change i.has .invalid = false at hinv
  change i.has .computable = false at hcomp
  change i.has .memoryRead = false at hread
  rw [lower, hc, hinv, hcomp, hread, h]
  rfl

/-- What the code of an instruction may look at and what it writes. -/
structure Lowers (i : Instr) (m : Micro) : Prop where
  sees : ∀ r ∈ m.sources, i.Sees r
  dest_eq : m.target.filter (· ≠ 0) = i.dest

theorem sees_pair (hrs : i.has .readsRs = true) (hrt : i.has .readsRt = true) :
    ∀ r ∈ [i.rs, i.rt], i.Sees r := by
  intro r hr
  rcases List.mem_cons.mp hr with rfl | hr
  · exact sees_rs hrs
  · rw [List.mem_singleton.mp hr]
    exact sees_rt hrt

theorem lowers_computable {m : Micro} (hm : i.lowerComputable = some m) : i.Lowers m := by
  have hpair : ∀ op, i.op = op → op.has .readsRs = true → op.has .readsRt = true →
      ∀ r ∈ [i.rs, i.rt], i.Sees r :=
    fun op e hrs hrt => sees_pair (by rw [has, e, hrs]) (by rw [has, e, hrt])
  have hrs : ∀ op, i.op = op → op.has .readsRs = true → ∀ r ∈ [i.rs], i.Sees r :=
    fun op e hop r hr => List.mem_singleton.mp hr ▸ sees_rs (by rw [has, e, hop])
  have hrt : ∀ op, i.op = op → op.has .readsRt = true → ∀ r ∈ [i.rt], i.Sees r :=
    fun op e hop r hr => List.mem_singleton.mp hr ▸ sees_rt (by rw [has, e, hop])
  have hcompute : ∀ d, ∀ r ∈ (Micro.compute i d).sources, i.Sees r :=
    fun d r hr => Or.inr (List.mem_filter.mp hr).2
  unfold lowerComputable at hm
  cases hd : i.dest with
  | none =>
    rw [hd] at hm
    by_cases ho : i.has .mayOverflow = true
    · rw [if_pos ho] at hm
      cases hm
      exact ⟨hcompute _, hd ▸ rfl⟩
    · rw [if_neg ho] at hm
      cases hm
  | some d =>
    rw [hd] at hm
    have hd0 : d ≠ 0 := fun e => dest_ne_zero hd (congrArg Fin.val e)
    have hfilter : (some d).filter (· ≠ 0) = i.dest := by
      rw [hd, Option.filter_some, if_pos (decide_eq_true hd0)]
    cases Option.some.inj hm
    split
    all_goals first
      | exact ⟨hcompute d, hfilter⟩
      | exact ⟨hpair _ ‹_› rfl rfl, hfilter⟩
      | exact ⟨hrs _ ‹_› rfl, hfilter⟩
      | exact ⟨hrt _ ‹_› rfl, hfilter⟩
      | exact ⟨fun r hr => absurd hr List.not_mem_nil, hfilter⟩

theorem lowers_load (h : i.has .memoryRead = true) (guess : MemoryGuess) :
    i.Lowers (i.lowerLoad guess) := by
  obtain ⟨-, -, -, hrs, hrt⟩ := Op.plain_of_memoryRead h
  obtain ⟨hwd, hwt⟩ := Op.writes_of_memoryRead h
  change i.has .readsRs = true at hrs
  change i.has .writesRd = false at hwd
  change i.has .writesRt = true at hwt
  have hdest : (some i.rt).filter (· ≠ 0) = i.dest := by
    rw [dest, hwd, hwt]
    rfl
  have hone : ∀ r ∈ [i.rs], i.Sees r :=
    fun r hr => List.mem_singleton.mp hr ▸ sees_rs hrs
  have hbus : i.Lowers (.loadBus i guess.poll) := by
    refine ⟨?_, hdest⟩
    show ∀ r ∈ if i.op.loadsWhole then [i.rs] else [i.rs, i.rt], i.Sees r
    by_cases hw : i.op.loadsWhole = true
    · rw [if_pos hw]
      exact hone
    · rw [if_neg hw]
      exact sees_pair hrs (hrt.resolve_left hw)
  unfold lowerLoad
  split
  · split
    · exact ⟨hone, hdest⟩
    · exact hbus
  · exact hbus

theorem lowers_store (h : i.has .memoryWrite = true) (pc : Word) (region : Option Region)
    (watch : Bool) : i.Lowers (i.lowerStore pc region watch) := by
  obtain ⟨-, -, -, -, hrs, hrt⟩ := Op.plain_of_memoryWrite h
  obtain ⟨hwd, hwt, hl⟩ := Op.writes_of_memoryWrite h
  change i.has .writesRd = false at hwd
  change i.has .writesRt = false at hwt
  change i.has .link = false at hl
  have hdest : (none : Option Reg).filter (· ≠ 0) = i.dest := by
    rw [dest, hwd, hwt, hl]
    rfl
  have hpair := sees_pair hrs hrt
  unfold lowerStore
  split
  · split <;> exact ⟨hpair, hdest⟩
  · split <;> exact ⟨hpair, hdest⟩
  · exact ⟨hpair, hdest⟩

theorem lowers (hi : i.needsInterpreter = false) {pc : Word} {guess : MemoryGuess} {watch : Bool}
    {m : Micro} (hm : i.lower pc guess watch = some m) : i.Lowers m := by
  obtain ⟨hb, hc, hinv, hl⟩ := plain_of_needsInterpreter hi
  by_cases hcomp : i.has .computable = true
  · rw [lower_of_computable hcomp] at hm
    exact lowers_computable hm
  by_cases hread : i.has .memoryRead = true
  · rw [lower_of_memoryRead hread] at hm
    cases hm
    exact lowers_load hread guess
  by_cases hwrite : i.has .memoryWrite = true
  · rw [lower_of_memoryWrite hwrite] at hm
    cases hm
    exact lowers_store hwrite pc guess.region watch
  -- what remains moves products, control registers or the status
  rw [Bool.not_eq_true] at hcomp hread hwrite
  rw [lower, hc, hinv, hcomp, hread, hwrite] at hm
  cases Option.some.inj hm
  obtain ⟨raw, op⟩ := i
  change op.has .branch = false at hb
  change op.has .completeState = false at hc
  change op.has .computable = false at hcomp
  change op.has .memoryRead = false at hread
  change op.has .memoryWrite = false at hwrite
  cases op with
  | mfhi | mflo | mfc0 => exact ⟨fun r hr => absurd hr List.not_mem_nil, rfl⟩
  | mthi | mtlo => exact ⟨fun r hr => List.mem_singleton.mp hr ▸ sees_rs rfl, rfl⟩
  | mult | multu | div | divu => exact ⟨sees_pair rfl rfl, rfl⟩
  | rfe => exact ⟨fun r hr => absurd hr List.not_mem_nil, rfl⟩
  | _ =>
    exfalso
    revert hb hc hcomp hread hwrite
    decide

/-- The code of an instruction that is not a branch. -/
def act (i : Instr) (pc : Word) (guess : MemoryGuess) (watch : Bool) (s : Session) :
    OpResult × Session :=
  match i.lower pc guess watch with
  | none => (.flow .next, s)
  | some m => m.perform s

/-- The effect of an instruction on `s`, and on every session that differs from `s` only in
registers that the instruction does not read. -/
structure HasEffect (i : Instr) (pc : Word) (guess : MemoryGuess) (watch : Bool) (s : Session)
    (e : Effect) : Prop where
  act_eq : ∀ f : Registers, (∀ r, i.Sees r → f.get r = s.regs.get r) →
    f.hi = s.regs.hi → f.lo = s.regs.lo →
    i.act pc guess watch { s with regs := f } = e.on { s with regs := f }
  dest_eq : (∀ k, e.result ≠ .fault k) → e.update.target.filter (· ≠ 0) = i.dest
  none_of_fault : ∀ k, e.result = .fault k → e = Effect.none s (.fault k)
  result_cases : e.result = .flow .next ∨ (∃ sig, e.result = .signal sig) ∨
    ∃ k, e.result = .fault k

theorem exists_effect (hi : i.needsInterpreter = false) (pc : Word) (guess : MemoryGuess)
    (watch : Bool) (s : Session) : ∃ e, i.HasEffect pc guess watch s e := by
  cases hm : i.lower pc guess watch with
  | none =>
    have hdest : i.dest = none := by
      by_cases hcomp : i.has .computable = true
      · rw [lower_of_computable hcomp, lowerComputable] at hm
        cases hd : i.dest with
        | none => rfl
        | some d =>
          rw [hd] at hm
          exact absurd hm (Option.some_ne_none _)
      · obtain ⟨-, hc, hinv, -⟩ := plain_of_needsInterpreter hi
        rw [Bool.not_eq_true] at hcomp
        rw [lower, hc, hinv, hcomp] at hm
        by_cases hread : i.has .memoryRead = true
        · rw [hread] at hm
          cases hm
        · rw [Bool.not_eq_true] at hread
          rw [hread] at hm
          by_cases hwrite : i.has .memoryWrite = true
          · rw [hwrite] at hm
            cases hm
          · rw [Bool.not_eq_true] at hwrite
            rw [hwrite] at hm
            cases hm
    refine ⟨Effect.none s (.flow .next), fun f _ _ _ => ?_, fun _ => hdest.symm, nofun,
      Or.inl rfl⟩
    rw [act, hm]
    rfl
  | some m =>
    obtain ⟨e, he⟩ := m.exists_effect s
    have hl := lowers hi hm
    refine ⟨e, fun f hf hhi hlo => ?_, fun hnot => ?_, he.none_of_fault, he.result_cases⟩
    · rw [act, hm]
      exact he.perform_eq f (fun r hr => hf r (hl.sees r hr)) hhi hlo
    · rw [he.target_eq hnot, hl.dest_eq]

def putDest (i : Instr) (value : Word) (f : Registers) : Registers :=
  match i.dest with
  | some d => f.set d value
  | none => f

theorem act_of_computable (h : i.has .computable = true) (pc : Word) (guess : MemoryGuess)
    (watch : Bool) (s : Session) :
    i.act pc guess watch s =
      match i.evaluate s.regs.get with
      | some value => (.flow .next, { s with regs := i.putDest value s.regs })
      | none => (.fault (.exception .overflow), s) := by
  rw [act, lower_of_computable h, lowerComputable]
  unfold putDest
  cases hd : i.dest with
  | none =>
    by_cases ho : i.has .mayOverflow = true
    · rw [if_pos ho]
      show (match i.evaluate s.regs.get with
        | some value => s.wrote .zero value
        | none => _) = _
      cases i.evaluate s.regs.get with
      | none => rfl
      | some value =>
        show (OpResult.flow .next, { s with regs := s.regs.set .zero value }) = _
        rw [Registers.set_zero _ _ rfl]
    · rw [if_neg ho]
      obtain ⟨v, hv⟩ := exists_evaluate h (Bool.eq_false_iff.mpr ho) s.regs.get
      rw [hv]
  | some d =>
    unfold evaluate
    obtain ⟨raw, op⟩ := i
    change op.has .computable = true at h
    cases op <;> rfl

end Instr

/-! ## Registers after an effect -/

namespace RegisterUpdate

theorem get_apply (u : RegisterUpdate) (f : Registers) {r : Reg}
    (h : u.target.filter (· ≠ 0) ≠ some r) : (u.apply f).get r = f.get r := by
  cases u with
  | keep => rfl
  | product p => rfl
  | put d value =>
    show (f.set d value).get r = f.get r
    rw [Registers.get_set, if_neg]
    rintro ⟨rfl, h0⟩
    apply h
    have hr : r ≠ 0 := fun e => h0 (congrArg Fin.val e)
    rw [target, Option.filter_some, if_pos (decide_eq_true hr)]

theorem sameOff_apply (u : RegisterUpdate) {regs regs' : Word} {f g : Registers}
    (h : Registers.SameOff regs f g)
    (hregs : ∀ r : Reg, r.val ≠ 0 → Word.any regs r.mask = true →
      u.target.filter (· ≠ 0) ≠ some r → Word.any regs' r.mask = true) :
    Registers.SameOff regs' (u.apply f) (u.apply g) := by
  cases u with
  | keep => exact h.mono fun r h0 hr => hregs r h0 hr nofun
  | product p => exact (h.setHiLo p).mono fun r h0 hr => hregs r h0 hr nofun
  | put d value =>
    refine (h.set d value).mono fun r h0 hr => ?_
    rw [Word.any_and, Word.any_not, Word.any_mask_mask, Bool.and_eq_true] at hr
    apply hregs r h0 hr.1
    intro e
    have hd : d = r := Option.some.inj (Option.filter_eq_some_iff.mp e).1
    rw [decide_eq_true hd] at hr
    exact Bool.false_ne_true hr.2

end RegisterUpdate

theorem Known.Holds.after {k : Known} {i : Instr} (hi : i.needsInterpreter = false) {pc : Word}
    {guess : MemoryGuess} {watch : Bool} {s : Session} {e : Effect}
    (he : i.HasEffect pc guess watch s e) (hnot : ∀ k, e.result ≠ .fault k)
    (hk : k.Holds s.regs) : (k.after i).Holds (e.update.apply s.regs) := by
  obtain ⟨-, hc, -, hl⟩ := Instr.plain_of_needsInterpreter hi
  unfold Known.after
  cases hv : k.compute? i with
  | some v =>
    obtain ⟨hcomp, heval⟩ := Known.evaluate_of_compute? hk hv
    have hact := he.act_eq s.regs (fun _ _ => rfl) rfl rfl
    rw [Instr.act_of_computable hcomp, heval] at hact
    have hregs : i.putDest v s.regs = e.update.apply s.regs :=
      congrArg (fun out : OpResult × Session => out.2.regs) hact
    rw [← hregs, Instr.putDest]
    cases i.dest with
    | none => exact hk
    | some d => exact hk.set d v
  | none =>
    refine hk.forget fun r _ hr => e.update.get_apply s.regs ?_
    rw [Instr.any_writes hc hl] at hr
    rw [he.dest_eq hnot]
    exact of_decide_eq_false hr

end R3000
