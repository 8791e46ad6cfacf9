import R3000.Proofs.Code.Stepping
import R3000.Proofs.Cpu.Coherence
import R3000.Proofs.Session.Entry

/-!
# What a run keeps

A relation between a session and a later one is proved of whole runs by proving it of the few things
that compiled code does by itself: a micro-operation, a change of what is beside memory and the
workshop, a count, and an entry.  Everything else is composed of these (`Session.Steady`), through
auxiliary routines, loops and nested units.
-/

namespace R3000

namespace Session

/-- The second session differs from the first in registers, in what is known of the last branch, in
the trace and in the clock, which does not go back.  The cache is as isolated as before. -/
structure Beside (s t : Session) : Prop where
  isolated : t.control.cacheIsolated = s.control.cacheIsolated
  mem : t.mem = s.mem
  shop : t.shop = s.shop
  depth : t.depth = s.depth
  deadline : t.deadline = s.deadline
  ret : t.ret = s.ret
  epoch : t.epoch = s.epoch
  cycles : s.cycles ≤ t.cycles

theorem Beside.of_clock {s t : Session}
    (isolated : t.control.cacheIsolated = s.control.cacheIsolated) (mem : t.mem = s.mem)
    (shop : t.shop = s.shop) (depth : t.depth = s.depth) (deadline : t.deadline = s.deadline)
    (ret : t.ret = s.ret) (epoch : t.epoch = s.epoch) (cycles : t.cycles = s.cycles) : s.Beside t :=
  ⟨isolated, mem, shop, depth, deadline, ret, epoch, UInt64.le_of_eq cycles.symm⟩

/-- A relation that holds from the beginning of a run to its end. -/
structure Steady (R : Session → Session → Prop) : Prop where
  trans : ∀ {s t u}, R s t → R t u → R s u
  micro : ∀ (m : Micro) (s : Session), R s (m.perform s).2
  beside : ∀ {s t}, s.Beside t → R s t
  counted : ∀ s : Session, R s s.counted
  refused : ∀ {s : Session} {target : Word} {out : Exit × Session},
    s.admission target = .error out → R s out.2
  admitted : ∀ {s t u : Session} {target ret : Word} {x : Executable},
    s.admission target = .ok (x, t) → R { t with ret } u →
      R s { u with ret := t.ret, depth := u.depth - 1 }

/-! An entry changes the workshop, the memory and the depth at most. -/

theorem exists_countEntry (s : Session) (base : Word) :
    ∃ shop, (s.countEntry base).2 = { s with shop } := by
  unfold countEntry
  split
  · exact ⟨_, rfl⟩
  · dsimp only
    split <;> exact ⟨_, rfl⟩

theorem exists_admission (s : Session) (target : Word) :
    ∃ shop mem depth, Admission.session (s.admission target) = { s with shop, mem, depth } := by
  have hentering : Entering fun s t => ∃ shop mem depth, t = { s with shop, mem, depth } :=
    { refl := fun _ => ⟨_, _, _, rfl⟩
      trans := by
        rintro s _ _ ⟨_, _, _, rfl⟩ ⟨_, _, _, rfl⟩
        exact ⟨_, _, _, rfl⟩
      count := fun _ _ => ⟨_, _, _, rfl⟩
      depth := fun _ _ => ⟨_, _, _, rfl⟩
      unitAt := fun _ _ => ⟨_, _, _, rfl⟩
      firstExecutable := fun _ _ => ⟨_, _, _, rfl⟩
      countEntry := fun s base => by
        obtain ⟨shop, hcount⟩ := s.exists_countEntry base
        exact ⟨shop, s.mem, s.depth, hcount⟩ }
  exact hentering.admission s target

theorem cycles_le_yield (s : Session) : s.cycles ≤ s.yield.cycles := by
  change s.cycles ≤ if s.cycles ≤ s.deadline then s.deadline else s.cycles
  split
  · assumption
  · exact UInt64.le_refl _

end Session

/-! ## Micro-operations -/

/-- The result of an instruction: it does not pass on the fault of other code or the end of the
count, and what it raises is an exception of the program or a wrong guess. -/
def OpResult.Own : OpResult → Prop
  | .signal (.fault _) | .signal .overflow | .fault (.host _) => False
  | _ => True

namespace Micro

/-- What any operation does: beside a change of registers and of the clock, an access to memory. -/
structure Acts (s : Session) (out : OpResult × Session) : Prop where
  beside : s.Beside { out.2 with mem := s.mem }
  accessed : ∀ {R : AddressSpace → AddressSpace → Prop}, AddressSpace.Accessed R →
    R s.mem out.2.mem
  own : out.1.Own

theorem acts_perform (m : Micro) (s : Session) : Acts s (m.perform s) := by
  have hbeside : ∀ regs : Registers, s.Beside { s with regs } := fun _ =>
    .of_clock rfl rfl rfl rfl rfl rfl rfl rfl
  have hsame : ∀ (regs : Registers) {result : OpResult}, result.Own →
      Acts s (result, { s with regs }) := fun regs _ hown =>
    ⟨hbeside regs, fun hR => hR.refl _, hown⟩
  have hstored : ∀ {mem : AddressSpace}, (∀ {R : AddressSpace → AddressSpace → Prop},
      AddressSpace.Accessed R → R s.mem mem) → ∀ (pc : Word) (watch : Bool),
      Acts s (({ s with mem } : Session).afterStore pc watch) := by
    intro mem hmem pc watch
    unfold Session.afterStore
    split <;> exact ⟨hbeside s.regs, hmem, trivial⟩
  cases m with
  | loadDirect i region =>
    simp only [perform, Session.loadDirect]
    split
    · exact hsame s.regs trivial
    · split
      · split <;> exact hsame _ trivial
      · exact hsame s.regs trivial
  | loadBus i poll =>
    simp only [perform, Session.loadBus]
    split
    · exact hsame s.regs trivial
    · refine ⟨?_, fun hR => ?_, trivial⟩
      · split
        · exact ⟨rfl, rfl, rfl, rfl, rfl, rfl, rfl, Session.cycles_le_yield _⟩
        · exact hbeside _
      · have hload := hR.loadAs s.mem i.op (s.reg i.rs + i.simm) (s.reg i.rt)
        split <;> exact hload
  | storeDirect i region pc watch =>
    simp only [perform, Session.storeDirect]
    split
    · exact hsame s.regs trivial
    · split
      · exact hstored (fun hR => hR.bufferStore s.mem region _ _ _) pc watch
      · exact hsame s.regs trivial
  | storeBus i pc watch =>
    simp only [perform, Session.storeBus]
    split
    · exact hsame s.regs trivial
    · exact hstored (fun hR => hR.storeAs s.mem i.op _ _) pc watch
  | compute i d =>
    simp only [perform]
    split <;> exact hsame _ trivial
  | restoreStatus =>
    exact ⟨.of_clock s.control.cacheIsolated_returnFromException rfl rfl rfl rfl rfl rfl rfl,
      fun hR => hR.refl _, trivial⟩
  | _ => exact hsame _ trivial

theorem beside_perform (m : Micro) (s : Session) : s.Beside { (m.perform s).2 with mem := s.mem } :=
  (m.acts_perform s).beside

theorem accessed_perform {R : AddressSpace → AddressSpace → Prop} (hR : AddressSpace.Accessed R)
    (m : Micro) (s : Session) : R s.mem (m.perform s).2.mem :=
  (m.acts_perform s).accessed hR

theorem shop_perform (m : Micro) (s : Session) : (m.perform s).2.shop = s.shop :=
  (m.beside_perform s).shop

end Micro

/-- Entering code is in a relation. -/
def Entry.Obeys (R : Session → Session → Prop) (enter : Entry) : Prop :=
  ∀ (target ret : Word) (s : Session), R s (enter target ret s).2

namespace Session.Steady

variable {R : Session → Session → Prop} (hR : Steady R) {enter : Entry}
include hR

theorem refl (s : Session) : R s s :=
  hR.beside (.of_clock rfl rfl rfl rfl rfl rfl rfl rfl)

/-! ## Operations -/

theorem jump (he : enter.Obeys R) (s : Session) (target : Word) : R s (s.jump enter target).2 := by
  unfold Session.jump
  split
  · exact hR.refl s
  · exact he target s.ret s

theorem call (he : enter.Obeys R) (s : Session) (target ret : Word) :
    R s (s.call enter target ret).2 :=
  hR.trans (hR.counted s) (he target ret s.counted)

theorem gotoOr (he : enter.Obeys R) (s : Session) (block : Option Nat) (addr : Word) :
    R s (s.gotoOr enter block addr).2 := by
  unfold Session.gotoOr
  split
  · exact hR.refl s
  · exact hR.jump he s addr

theorem evalBranch (s : Session) (i : Instr) (pc : Word) (notTaken : Option Nat) :
    R s (s.evalBranch i pc notTaken).2 := by
  have hlink : ∀ (b : Bool) (r : Reg) (taken : Bool) (target : Word),
      R s { (if b then s.setReg r (pc + 8) else s) with taken, target } := by
    intro b r taken target
    cases b <;> exact hR.beside (.of_clock rfl rfl rfl rfl rfl rfl rfl rfl)
  unfold Session.evalBranch
  dsimp only
  split <;> exact hlink _ _ _ _

theorem finishCall (he : enter.Obeys R) (s : Session) (ret : Word) (after : Option Nat) :
    R s (s.finishCall enter ret after).2 := by
  unfold Session.finishCall
  split
  · have hcall := hR.call he s s.target ret
    dsimp only
    generalize s.call enter s.target ret = out at hcall ⊢
    obtain ⟨exit, t⟩ := out
    dsimp only at hcall ⊢
    split
    · split
      · exact hR.trans hcall (hR.gotoOr he t after ret)
      · exact hR.trans hcall (hR.jump he t _)
    · exact hcall
  · exact hR.gotoOr he s after ret

theorem unlessChanged (s : Session) (ret : Word) (slotStores : Bool)
    {go : Session → OpResult × Session} (hgo : R s (go s).2) :
    R s (s.unlessChanged ret slotStores go).2 := by
  unfold Session.unlessChanged
  split
  · exact hR.refl s
  · exact hgo

theorem perform (he : enter.Obeys R) (op : CodeOp) (s : Session) : R s (op.perform enter s).2 := by
  cases op with
  | micro m outstanding =>
    have hm := hR.micro m s
    unfold CodeOp.perform
    dsimp only
    split
    next sig t heq =>
      rw [heq] at hm
      exact hR.trans hm (hR.beside (.of_clock rfl rfl rfl rfl rfl rfl rfl rfl))
    next => exact hm
  | blockEntry pc cycles check =>
    rw [CodeOp.perform_blockEntry]
    split
    next hroom =>
      refine hR.beside ⟨rfl, rfl, rfl, rfl, rfl, rfl, rfl, UInt64.le_iff_toNat_le.mpr ?_⟩
      rw [Session.toNat_spend hroom]
      exact Nat.le_add_right _ _
    next => exact hR.refl s
  | jump target => exact hR.jump he s target
  | evalBranch i pc notTaken => exact hR.evalBranch s i pc notTaken
  | finishCall ret slotStores after =>
    exact hR.unlessChanged s ret slotStores (hR.finishCall he s ret after)
  | finishChoice ret slotStores taken notTaken =>
    exact hR.unlessChanged s ret slotStores (hR.gotoOr he s _ _)
  | finishJump ret slotStores block => exact hR.unlessChanged s ret slotStores (hR.refl s)
  | finishIndirect ret slotStores =>
    exact hR.unlessChanged s ret slotStores (hR.jump he s s.target)
  | returnFromException =>
    exact hR.beside
      (.of_clock s.control.cacheIsolated_returnFromException rfl rfl rfl rfl rfl rfl rfl)
  | _ => exact hR.beside (.of_clock rfl rfl rfl rfl rfl rfl rfl rfl)

/-! ## Routines -/

theorem runAux (he : enter.Obeys R) (e : Executable) (index : UInt16) (pc : Nat)
    (ops : List PlacedOp) (s : Session) : R s (e.runAux enter index pc ops s).2 := by
  induction ops generalizing pc s with
  | nil => exact hR.refl s
  | cons placed rest ih =>
    have hop := hR.perform he placed.op s
    unfold Executable.runAux
    split
    next heq =>
      rw [heq] at hop
      exact hR.trans hop (ih _ _)
    all_goals
      next heq =>
        rw [heq] at hop
        exact hop

theorem callAux (he : enter.Obeys R) (e : Executable) (index : UInt16) (s : Session) :
    R s (e.callAux enter index s).2 := by
  unfold Executable.callAux
  split
  · exact hR.refl s
  · exact hR.runAux he e index 0 _ s

end Session.Steady

def Executable.Turn.session : Executable.Turn → Session
  | .inl (_, s) => s
  | .inr (_, s) => s

namespace Session.Steady

variable {R : Session → Session → Prop} (hR : Steady R) {enter : Entry}
include hR

theorem step (he : enter.Obeys R) (e : Executable) (pc : Nat) (s : Session) :
    R s (Executable.Turn.session (e.step enter pc s)) := by
  unfold Executable.step
  split
  · exact hR.refl s
  split
  · exact hR.refl s
  next placed _ =>
    have hop := hR.perform he placed.op s
    unfold Executable.turn
    split
    case h_2 block t heq =>
      rw [heq] at hop
      split <;> exact hop
    case h_3 index t heq =>
      rw [heq] at hop
      have haux := hR.trans hop (hR.callAux he e index t)
      split
      next haux' =>
        rw [haux'] at haux
        exact haux
      next haux' =>
        rw [haux'] at haux
        exact haux
    all_goals
      next heq =>
        rw [heq] at hop
        exact hop

/-! ## Runs -/

theorem enter_of_run {fuel : Nat}
    (hrun : ∀ (e : Executable) (pc : Nat) (s : Session), R s (e.run fuel pc s).2) :
    Entry.Obeys R (Session.enter (Executable.invoke fuel)) := by
  intro target ret s
  rw [enter_eq]
  cases hadmission : s.admission target with
  | error out => exact hR.refused hadmission
  | ok admitted =>
    obtain ⟨x, t⟩ := admitted
    dsimp only
    rw [session_leave]
    have hentered := hR.admitted hadmission (hrun x 0 { t with ret })
    exact hentered

theorem run (fuel : Nat) (e : Executable) (pc : Nat) (s : Session) : R s (e.run fuel pc s).2 := by
  induction fuel generalizing e pc s with
  | zero => exact hR.refl s
  | succ fuel ih =>
    have hstep := hR.step (hR.enter_of_run ih) e pc s
    rw [Executable.run_succ]
    split
    next heq =>
      rw [heq] at hstep
      exact hstep
    next heq =>
      rw [heq] at hstep
      exact hR.trans hstep (ih e _ _)

theorem entry (fuel : Nat) : Entry.Obeys R (Session.enter (Executable.invoke fuel)) :=
  hR.enter_of_run (hR.run fuel)

theorem callFrom (fuel : Nat) (s : Session) (target ret : Word) :
    R s (s.callFrom fuel target ret).2 :=
  hR.call (hR.entry fuel) s target ret

end Session.Steady

end R3000
