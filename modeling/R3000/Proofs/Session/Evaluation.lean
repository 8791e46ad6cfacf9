import R3000.Proofs.Session.Admission
import R3000.Proofs.Session.Position

/-!
# Runs that can be evaluated

An operation that stays in its executable asks the workshop only whether it has to leave
(`CodeOp.perform_of_stays`).  A run of such operations is evaluated with one workshop
(`Executable.finish`) for all that give the same answers.
-/

namespace R3000

/-- The instruction is not an access to a guessed region and does not store. -/
def Micro.plain : Micro → Bool
  | .loadDirect .. | .storeDirect .. | .storeBus .. => false
  | _ => true

theorem Micro.perform_of_plain {m : Micro} (h : m.plain = true) (s : Session) (w : Workshop) :
    m.perform { s with shop := w } = ((m.perform s).1, { (m.perform s).2 with shop := w }) := by
  have hreg : Session.reg { s with shop := w } = s.reg := rfl
  cases m with
  | compute i d =>
    dsimp only [perform]
    rw [hreg]
    cases i.evaluate s.reg <;> rfl
  | loadBus i poll =>
    dsimp only [perform, Session.loadBus]
    rw [hreg]
    cases i.op.alignmentFault (s.reg i.rs + i.simm) with
    | some e => rfl
    | none => cases poll <;> rfl
  | loadDirect | storeDirect | storeBus => exact absurd h Bool.false_ne_true
  | _ => rfl

namespace CodeOp

variable {s : Session} {w : Workshop}

/-- The operation is plain, calls no routine and enters no other code. -/
def stays (s : Session) : CodeOp → Bool
  | .micro m _ => m.plain
  | .blockEntry .. | .evalBranch .. => true
  | .finishChoice _ false taken notTaken => (if s.taken then taken else notTaken).isSome
  | .finishIndirect _ false => s.target == s.ret
  | _ => false

theorem perform_of_stays {op : CodeOp} (h : op.stays s = true)
    (hbreakout : w.breakout = s.shop.breakout) (hepoch : w.staleEpoch = s.shop.staleEpoch)
    (enter : Entry) :
    op.arrivals enter { s with shop := w } = [] ∧
      op.perform enter { s with shop := w } =
        ((op.perform Entry.none s).1, { (op.perform Entry.none s).2 with shop := w }) := by
  cases op with
  | micro m outstanding =>
    refine ⟨rfl, ?_⟩
    dsimp only [perform]
    rw [Micro.perform_of_plain h s w]
    generalize m.perform s = out
    obtain ⟨result, t⟩ := out
    cases result <;> rfl
  | blockEntry pc cycles check =>
    have hdue : Session.breakoutDue (Session.spend { s with shop := w } cycles) =
        (s.spend cycles).breakoutDue := by
      unfold Session.breakoutDue
      dsimp only [Session.spend]
      rw [hbreakout, hepoch]
      rfl
    refine ⟨rfl, ?_⟩
    rw [perform_blockEntry, perform_blockEntry, hdue]
    change (if s.hasRoom cycles then _ else _) = _
    split
    · split <;> rfl
    · rfl
  | evalBranch i pc notTaken =>
    refine ⟨rfl, (Session.evalBranch_eq _ _ _ notTaken).trans ?_⟩
    dsimp only [perform]
    rw [Session.evalBranch_eq s i pc notTaken]
    rfl
  | finishChoice ret slotStores taken notTaken =>
    cases slotStores with
    | true => exact absurd h Bool.false_ne_true
    | false =>
      obtain ⟨block, hblock⟩ := Option.isSome_iff_exists.mp h
      dsimp only [perform, arrivals, Session.unlessChanged]
      rw [hblock]
      exact ⟨rfl, rfl⟩
  | finishIndirect ret slotStores =>
    cases slotStores with
    | true => exact absurd h Bool.false_ne_true
    | false =>
      have htarget : s.target = s.ret := eq_of_beq h
      refine ⟨if_pos htarget, ?_⟩
      dsimp only [perform, Session.unlessChanged, Session.jumpOut, Session.jump]
      simp [htarget]
  | _ => exact absurd h Bool.false_ne_true

end CodeOp

/-- How an operation that stays can end a run. -/
inductive Ending
  | exit (pc : Word)
  | fault (kind : FaultKind)
  | overflow
deriving DecidableEq

def OpResult.ending? : OpResult → Option Ending
  | .flow (.exit pc) => some (.exit pc)
  | .fault kind => some (.fault kind)
  | .signal .overflow => some .overflow
  | _ => none

def Ending.exitAt (e : Executable) (pc : Nat) : Ending → Exit
  | .exit pc => .returned pc
  | .fault kind => e.fault 0 pc kind
  | .overflow => .left .overflow

namespace Executable

variable {e : Executable} {s t : Session} {w : Workshop} {pc k : Nat} {x : Ending}

/-- The operation at which the run from `pc` ends within `n` operations, if they all stay. -/
def finish (e : Executable) : Nat → Nat → Session → Option (Nat × Ending × Session)
  | 0, _, _ => none
  | n + 1, pc, s =>
    (e.placed? pc).bind fun p =>
      if p.op.stays s then
        match e.turn Entry.none pc (p.op.perform Entry.none s) with
        | .inl (_, t) => (p.op.perform Entry.none s).1.ending?.map fun x => (pc, x, t)
        | .inr (pc', t) => finish e n pc' t
      else none

theorem step_of_stays {p : PlacedOp} (hp : e.placed? pc = some p) (h : p.op.stays s = true)
    (hbreakout : w.breakout = s.shop.breakout) (hepoch : w.staleEpoch = s.shop.staleEpoch)
    (enter : Entry) :
    e.step enter pc { s with shop := w } =
      (e.turn Entry.none pc (p.op.perform Entry.none s)).map
        (Prod.map id fun t => { t with shop := w }) (Prod.map id fun t => { t with shop := w }) := by
  rw [step_of_op? (op?_of_placed? hp), (CodeOp.perform_of_stays h hbreakout hepoch enter).2]
  have hcall : ∀ index, (p.op.perform Entry.none s).1 ≠ .flow (.call index) := by
    intro index hcall
    have haux := CodeOp.isAux_of_call hcall
    generalize p.op = op at h haux
    cases op <;> first
      | exact absurd h Bool.false_ne_true
      | exact absurd haux Bool.false_ne_true
  generalize p.op.perform Entry.none s = out at hcall ⊢
  obtain ⟨result, t⟩ := out
  cases result with
  | flow f =>
    cases f with
    | goto block =>
      dsimp only [turn]
      cases e.start? block <;> rfl
    | call index => exact absurd rfl (hcall index)
    | _ => rfl
  | _ => rfl

theorem turn_of_ending {result : OpResult} (h : result.ending? = some x) (enter : Entry) :
    e.turn enter pc (result, s) = .inl (x.exitAt e pc, s) := by
  cases result with
  | flow f => cases f <;> cases h; rfl
  | signal sig => cases sig <;> cases h; rfl
  | fault kind =>
    cases h
    rfl
  | unfinished => cases h

theorem exists_flow_of_turn {enter : Entry} {out : OpResult × Session} {next : Nat × Session}
    (h : e.turn enter pc out = .inr next) : ∃ f, out.1 = .flow f := by
  obtain ⟨result, u⟩ := out
  cases result with
  | flow f => exact ⟨f, rfl⟩
  | _ => cases h

/-- Up to the operation at which it ends, the run goes on in the executable. -/
theorem of_finish {n : Nat} (h : e.finish n pc s = some (k, x, t))
    (hbreakout : w.breakout = s.shop.breakout) (hepoch : w.staleEpoch = s.shop.staleEpoch) :
    (∀ fuel, e.run (fuel + n) pc { s with shop := w } = (x.exitAt e k, { t with shop := w })) ∧
      ∀ fuel q, Position.Passes { fuel, exe := e, pc, session := { s with shop := w } } q →
        q.exe = e ∧ ∀ p, q.placed? = some p →
          q.pc = k ∨ ∃ f, (p.op.perform q.enter q.session).1 = .flow f := by
  induction n generalizing pc s with
  | zero => cases h
  | succ n ih =>
    obtain ⟨p, hp, h⟩ := Option.bind_eq_some_iff.mp h
    by_cases hstays : p.op.stays s = true
    · rw [if_pos hstays] at h
      have hstep := step_of_stays hp hstays hbreakout hepoch
      have hperform := CodeOp.perform_of_stays hstays hbreakout hepoch
      have harrivals : ∀ fuel, Position.arrivals
          { fuel, exe := e, pc, session := { s with shop := w } } = [] := by
        intro fuel
        unfold Position.arrivals Position.placed?
        rw [hp]
        rcases e.opArrivals_cases _ p.op { s with shop := w } with ⟨index, haux⟩ | hsame
        · rw [haux] at hstays
          cases hstays
        · exact hsame.trans (hperform _).1
      cases hturn : e.turn Entry.none pc (p.op.perform Entry.none s) with
      | inl out =>
        rw [hturn] at h
        obtain ⟨x', hx, heq⟩ := Option.map_eq_some_iff.mp h
        cases heq
        cases hturn.symm.trans (turn_of_ending hx Entry.none)
        refine ⟨fun fuel => ?_, fun fuel q hq => ?_⟩
        · rw [← Nat.add_assoc, run_succ, hstep, hturn]
          rfl
        · cases hq with
          | here => exact ⟨rfl, fun _ _ => .inl rfl⟩
          | next h' =>
            rw [hstep, hturn] at h'
            cases h'
          | nested ha =>
            rw [harrivals] at ha
            cases ha
      | inr next =>
        rw [hturn] at h
        obtain ⟨pc', u⟩ := next
        have hshop : u.shop = s.shop := by
          have hsame := step_of_stays hp hstays rfl rfl Entry.none
          rw [step_of_op? (op?_of_placed? hp), hturn] at hsame
          exact congrArg (fun next => next.2.shop) (Sum.inr.inj hsame)
        obtain ⟨hrun, hpasses⟩ := ih h (hshop ▸ hbreakout) (hshop ▸ hepoch)
        refine ⟨fun fuel => ?_, fun fuel q hq => ?_⟩
        · rw [← Nat.add_assoc, run_succ, hstep, hturn]
          exact hrun fuel
        · cases hq with
          | here =>
            obtain ⟨f, hf⟩ := exists_flow_of_turn hturn
            refine ⟨rfl, fun p' hp' => .inr ⟨f, ?_⟩⟩
            cases hp.symm.trans hp'
            exact (congrArg Prod.fst (hperform _).2).trans hf
          | next h' hq =>
            rw [hstep, hturn] at h'
            cases h'
            exact hpasses _ q hq
          | nested ha =>
            rw [harrivals] at ha
            cases ha
    · rw [if_neg hstays] at h
      cases h

end Executable

namespace Recompiler

variable {config : Config} {cpu : Cpu} {mem : AddressSpace} {target ret : Word} {budget : UInt64}

/-- Where a new recompiler begins to run the code that it generates for the target. -/
def starting (config : Config) (cpu : Cpu) (mem : AddressSpace) (target ret : Word)
    (budget : UInt64) : Session :=
  { ((create config).takeRegisters cpu).opening cpu mem budget with
    mem := ((create config).shop.generatedAt mem target).tag
      (((create config).shop.surveyAt mem target).tag target mem)
    depth := 1
    ret }

theorem executeWith_of_finish (he : config.enabled = true) (ht : compilable target = true)
    (hquiet : mem.watch.raised = false)
    (hdue : ((create config).opening cpu mem budget).breakoutDue = false)
    (hdepth : 0 < config.maxDepth) (hpromote : config.promote = false) {n k : Nat} {x : Ending}
    {t : Session} (h : ((create config).shop.generatedAt mem target).exe.finish n 0
      (starting config cpu mem target ret budget) = some (k, x, t)) :
    ∃ w : Workshop, w.staleEpoch = (create config).shop.staleEpoch ∧
      (∀ fuel, (create config).executeWith (fuel + n) cpu mem target ret budget =
        ((create config).takeRegisters cpu).conclude cpu (Session.leave
          (x.exitAt ((create config).shop.generatedAt mem target).exe k,
            { t with shop := w, ret := noReturn }))) ∧
      ∀ fuel q, (create config).Performs fuel cpu mem target ret budget q →
        q.exe = ((create config).shop.generatedAt mem target).exe ∧ ∀ p, q.placed? = some p →
          q.pc = k ∨ ∃ f, (p.op.perform q.enter q.session).1 = .flow f := by
  obtain ⟨s, u, hs, hcompiled, -, -, -, hadmission, hexecuted⟩ :=
    (create config).hasCompiled_executeWith cpu mem target budget he ht hquiet hdue hdepth
      Std.HashMap.getElem?_empty rfl hpromote
  have hstart : { s with ret } = { starting config cpu mem target ret budget with shop := s.shop } := by
    rw [hs]
    rfl
  obtain ⟨hrun, hpasses⟩ := Executable.of_finish h hcompiled.breakout hcompiled.staleEpoch
  rw [← hstart] at hrun hpasses
  refine ⟨s.shop, hcompiled.staleEpoch, fun fuel => ?_, ?_⟩
  · rw [hexecuted, Executable.invoke, hrun, hs]
    rfl
  · rintro fuel q ⟨x, v, hadmitted, m, -, hq⟩
    rw [prepared_of_quiet hquiet] at hadmitted
    cases hadmission.symm.trans hadmitted
    exact hpasses m q hq

end Recompiler

end R3000
