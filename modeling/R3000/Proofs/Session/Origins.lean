import R3000.Proofs.Session.Admission
import R3000.Proofs.Session.Position

/-!
# Where failures come from

Compiled code fails by a fault, or when the count of its cycles overflows.  A failure that ends an
operation is the operation's own, or one of its arrivals ended with it, in the session that the
operation ends in.  The own faults of an executable are those of places without code and those that
one of its instructions raised (`Fault.Raised`); only the entry of a block overflows.
-/

namespace R3000

namespace Executable

def opAt? (e : Executable) (site : Site) : Option PlacedOp :=
  e.routines[site.routine.toNat]?.bind fun routine => routine.ops[site.op]?

theorem line?_eq (e : Executable) (site : Site) : e.line? site = (e.opAt? site).map (·.line) := by
  unfold line? opAt?
  cases e.routines[site.routine.toNat]? with
  | none => rfl
  | some routine => cases h : routine.ops[site.op]? <;> simp [h]

end Executable

namespace Fault

def Raised (f : Fault) (s : Session) : Prop :=
  ∃ line m outstanding, f.exe.opAt? f.site = some { line, op := .micro m outstanding } ∧
    m.perform s = (.fault f.kind, s)

def Own (f : Fault) (e : Executable) (s : Session) : Prop :=
  f.exe = e ∧ ((∃ h, f.kind = .host h) ∨ f.Raised s)

end Fault

/-- A run fails that faults, overflows or does not end. -/
def Exit.isFailure : Exit → Bool
  | .left (.fault _) | .left .overflow | .unfinished => true
  | _ => false

/-- The operation enters a block with more cycles than can still be counted. -/
def CodeOp.Overflows (op : CodeOp) (s : Session) : Prop :=
  ∃ pc cycles check, op = .blockEntry pc cycles check ∧ UInt64.size ≤ s.cycles.toNat + cycles

/-- One of the arrivals ends with the exit. -/
def Entry.PassesOn (enter : Entry) (l : List Arrival) (x : Exit) (t : Session) : Prop :=
  ∃ a ∈ l, enter a.target a.ret a.session = (x, t)

/-! ## Instructions -/

def CodeOp.isMicro : CodeOp → Bool
  | .micro _ _ => true
  | _ => false

theorem CodeOp.isMicro_of_fault {op : CodeOp} {enter : Entry} {s : Session} {kind : FaultKind}
    (h : (op.perform enter s).1 = .fault kind) :
    op.isMicro = true ∧ ∀ host, kind ≠ .host host := by
  by_cases hfinal : op.isFinal = true
  · exact absurd h ((leaves_of_isFinal hfinal enter s).ne_fault kind)
  cases op with
  | micro m outstanding =>
    refine ⟨rfl, ?_⟩
    rintro host rfl
    have hown := (m.acts_perform s).own
    unfold perform at h
    dsimp only at h
    split at h
    next heq => cases h
    next heq =>
      rw [h] at hown
      exact hown
  | blockEntry pc cycles check =>
    rcases perform_blockEntry_cases enter pc cycles check s with hp | hp | hp <;>
      rw [hp] at h <;> cases h
  | evalBranch i pc notTaken =>
    simp only [perform, Session.evalBranch_eq] at h
    cases notTaken with
    | none => cases h
    | some block =>
      dsimp only at h
      split at h <;> cases h
  | write | trace | aux | exit | next => cases h
  | _ => exact absurd rfl hfinal

theorem CodeOp.exists_micro_of_fault {op : CodeOp} {enter : Entry} {s t : Session}
    {kind : FaultKind} (h : op.perform enter s = (.fault kind, t)) :
    t = s ∧ ∃ m outstanding, op = .micro m outstanding ∧ m.perform s = (.fault kind, s) := by
  obtain ⟨hmicro, -⟩ := isMicro_of_fault (congrArg Prod.fst h)
  cases op with
  | micro m outstanding =>
    obtain ⟨e, he⟩ := m.exists_effect s
    have hperform : m.perform s = e.on s := he.perform_eq s.regs (fun _ _ => rfl) rfl rfl
    have hfault : m.perform s = (.fault kind, t) := by
      unfold perform at h
      dsimp only at h
      split at h
      · cases h
      · exact h
    have hnone : m.perform s = (.fault kind, s) := by
      have hresult : e.result = .fault kind :=
        (congrArg Prod.fst hperform).symm.trans (congrArg Prod.fst hfault)
      rw [hperform, he.none_of_fault kind hresult]
      rfl
    exact ⟨congrArg Prod.snd (hfault.symm.trans hnone), m, outstanding, rfl, hnone⟩
  | _ => cases hmicro

/-! ## Failures of arrivals -/

variable {enter : Entry} {s t : Session} {x : Exit}

namespace Session

theorem jumpOut_eq_failure (hx : x.isFailure = true) {target : Word} :
    s.jumpOut enter target = (x.toResult, t) ↔ enter.PassesOn (s.jumpArrivals target) x t := by
  change ((s.jump enter target).1.toResult, (s.jump enter target).2) = _ ↔ _
  unfold jump jumpArrivals Entry.PassesOn
  split
  · cases x with
    | returned pc => cases hx
    | _ => simp [Exit.toResult]
  · simp only [List.mem_singleton, exists_eq_left]
    generalize enter target s.ret s = out
    obtain ⟨exit, u⟩ := out
    cases exit <;> cases x <;> simp [Exit.toResult]

theorem gotoOr_eq_failure (hx : x.isFailure = true) {block : Option Nat} {addr : Word} :
    s.gotoOr enter block addr = (x.toResult, t) ↔
      enter.PassesOn (s.gotoArrivals block addr) x t := by
  cases block with
  | some b => cases x <;> simp [gotoOr, gotoArrivals, Entry.PassesOn, Exit.toResult]
  | none => exact jumpOut_eq_failure hx

theorem finishCall_eq_failure (hx : x.isFailure = true) {ret : Word} {after : Option Nat} :
    s.finishCall enter ret after = (x.toResult, t) ↔
      enter.PassesOn (s.callArrivals enter ret after) x t := by
  unfold finishCall callArrivals
  split
  · rw [call_eq]
    -- the call is the first arrival; what follows it arrives only if it returned
    have hcons : ∀ l, enter.PassesOn ({ target := s.target, ret, session := s.counted } :: l) x t ↔
        enter s.target ret s.counted = (x, t) ∨ enter.PassesOn l x t := by
      intro l
      unfold Entry.PassesOn
      simp only [List.mem_cons, exists_eq_or_imp]
    rw [hcons]
    generalize enter s.target ret s.counted = out
    obtain ⟨exit, u⟩ := out
    cases exit with
    | returned pc =>
      have hne : ¬ (Exit.returned pc, u) = (x, t) := by
        rintro ⟨⟩
        cases hx
      simp only [returnArrivals, hne, false_or]
      split
      · exact gotoOr_eq_failure hx
      · exact jumpOut_eq_failure hx
    | left sig => cases x <;> simp [returnArrivals, Exit.toResult, Entry.PassesOn]
    | unfinished => cases x <;> simp [returnArrivals, Exit.toResult, Entry.PassesOn]
  · exact gotoOr_eq_failure hx

theorem unlessChanged_eq_failure (hx : x.isFailure = true) {ret : Word} {slotStores : Bool}
    {go : Session → OpResult × Session} {l : List Arrival}
    (h : go s = (x.toResult, t) ↔ enter.PassesOn l x t) :
    s.unlessChanged ret slotStores go = (x.toResult, t) ↔
      enter.PassesOn (if slotStores && s.codeChanged then [] else l) x t := by
  unfold unlessChanged
  split
  · constructor
    · intro heq
      cases x with
      | left sig =>
        cases heq
        cases hx
      | _ => cases heq
    · rintro ⟨a, ha, -⟩
      cases ha
  · exact h

end Session

theorem CodeOp.eq_aux_of_call {op : CodeOp} {index : UInt16}
    (h : op.perform enter s = (.flow (.call index), t)) : op = .aux index ∧ s = t := by
  have haux := isAux_of_call (congrArg Prod.fst h)
  cases op with
  | aux i =>
    cases h
    exact ⟨rfl, rfl⟩
  | _ => cases haux

namespace CodeOp

variable {op : CodeOp}

theorem perform_eq_failure_of_usesEntry (hx : x.isFailure = true) (huses : op.usesEntry = true) :
    op.perform enter s = (x.toResult, t) ↔ enter.PassesOn (op.arrivals enter s) x t := by
  cases op with
  | jump target => exact Session.jumpOut_eq_failure hx
  | finishCall ret slotStores after =>
    simp only [perform, arrivals]
    exact Session.unlessChanged_eq_failure hx (by exact Session.finishCall_eq_failure hx)
  | finishChoice ret slotStores taken notTaken =>
    simp only [perform, arrivals]
    exact Session.unlessChanged_eq_failure hx (by exact Session.gotoOr_eq_failure hx)
  | finishIndirect ret slotStores =>
    simp only [perform, arrivals]
    exact Session.unlessChanged_eq_failure hx (by exact Session.jumpOut_eq_failure hx)
  | _ => cases huses

/-- If an arrival fails, the operation fails in the same way. -/
theorem perform_of_passesOn (hx : x.isFailure = true)
    (h : enter.PassesOn (op.arrivals enter s) x t) : op.perform enter s = (x.toResult, t) := by
  refine (perform_eq_failure_of_usesEntry hx ?_).mpr h
  obtain ⟨a, ha, -⟩ := h
  cases op <;> first | rfl | cases ha

end CodeOp

theorem Micro.ne_failure {sig : Signal} (hsig : (Exit.left sig).isFailure = true) (m : Micro) :
    (m.perform s).1 ≠ .signal sig := by
  intro h
  have hown := (m.acts_perform s).own
  rw [h] at hown
  cases sig <;> first | exact hown.elim | cases hsig

/-- The failures of an operation: the block that it enters has no room, or an arrival failed. -/
theorem CodeOp.perform_eq_failure {sig : Signal} (hsig : (Exit.left sig).isFailure = true)
    {op : CodeOp} :
    op.perform enter s = (.signal sig, t) ↔
      (sig = .overflow ∧ t = s ∧ op.Overflows s) ∨
        enter.PassesOn (op.arrivals enter s) (.left sig) t := by
  constructor
  · intro h
    cases op with
    | blockEntry pc cycles check =>
      rw [perform_blockEntry] at h
      by_cases hroom : s.hasRoom cycles = true
      · rw [if_pos hroom] at h
        split at h <;> cases h
        cases hsig
      · rw [if_neg hroom] at h
        cases h
        have hlt := Nat.not_lt.mp (of_decide_eq_false (Bool.eq_false_iff.mpr hroom))
        exact .inl ⟨rfl, rfl, pc, cycles, check, rfl, hlt⟩
    | micro m outstanding =>
      have hne := m.ne_failure hsig (s := s)
      have hresult := congrArg Prod.fst h
      simp only [perform] at hresult
      split at hresult
      next heq => exact absurd ((congrArg Prod.fst heq).trans hresult) hne
      next => exact absurd hresult hne
    | jump | finishCall | finishChoice | finishIndirect =>
      exact .inr ((perform_eq_failure_of_usesEntry hsig rfl).mp h)
    | finishJump ret slotStores block =>
      simp only [perform, Session.unlessChanged] at h
      split at h <;> cases h
      cases hsig
    | evalBranch i pc notTaken =>
      rw [perform, Session.evalBranch_eq] at h
      cases notTaken <;> simp at h
    | resume pc =>
      cases h
      cases hsig
    | returnFromException =>
      cases h
      cases hsig
    | _ => cases h
  · rintro (⟨rfl, rfl, pc, cycles, check, rfl, hlt⟩ | hpassed)
    · rw [perform_blockEntry, if_neg (by simpa [Session.hasRoom] using hlt)]
    · exact perform_of_passesOn hsig hpassed

/-! ## Steps -/

namespace Executable

variable {e : Executable}

theorem runAux_of_passesOn (hx : x.isFailure = true) {ops : List PlacedOp}
    (h : enter.PassesOn (PlacedOp.arrivals enter ops s) x t) (index : UInt16) (pc : Nat) :
    e.runAux enter index pc ops s = (some x, t) := by
  induction ops generalizing s pc with
  | nil =>
    obtain ⟨a, ha, -⟩ := h
    cases ha
  | cons p rest ih =>
    obtain ⟨a, ha, hexit⟩ := h
    unfold PlacedOp.arrivals at ha
    unfold runAux
    rcases List.mem_append.mp ha with ha | ha
    · rw [CodeOp.perform_of_passesOn hx ⟨a, ha, hexit⟩]
      cases x <;> rfl
    · generalize p.op.perform enter s = out at ha ⊢
      split at ha
      · exact ih ⟨a, ha, hexit⟩ (pc + 1)
      · cases ha

theorem origin_runAux {f : Fault} {index : UInt16} {pc : Nat} {ops : List PlacedOp}
    (hops : ∀ k, ops[k]? = e.opAt? { routine := index, op := pc + k })
    (h : e.runAux enter index pc ops s = (some (.left (.fault f)), t)) :
    f.Own e t ∨ enter.PassesOn (PlacedOp.arrivals enter ops s) (.left (.fault f)) t := by
  induction ops generalizing pc s with
  | nil => cases h
  | cons placed rest ih =>
    unfold runAux at h
    unfold PlacedOp.arrivals
    split at h
    next u heq =>
      rw [heq]
      have hrest : ∀ k, rest[k]? = e.opAt? { routine := index, op := pc + 1 + k } := by
        intro k
        rw [← List.getElem?_cons_succ, hops, Nat.add_right_comm, Nat.add_assoc]
      rcases ih hrest h with hown | ⟨a, ha, hexit⟩
      · exact .inl hown
      · exact .inr ⟨a, List.mem_append_right _ ha, hexit⟩
    next => cases h
    next =>
      cases h
      exact .inl ⟨rfl, .inl ⟨_, rfl⟩⟩
    next heq =>
      cases h
      rcases (CodeOp.perform_eq_failure rfl).mp heq with ⟨hne, -⟩ | ⟨a, ha, hexit⟩
      · cases hne
      · exact .inr ⟨a, List.mem_append_left _ ha, hexit⟩
    next kind u heq =>
      obtain ⟨rfl, m, outstanding, hmicro, hfault⟩ := CodeOp.exists_micro_of_fault heq
      cases h
      refine .inl ⟨rfl, .inr ⟨placed.line, m, outstanding, ?_, hfault⟩⟩
      rw [← hmicro]
      exact (hops 0).symm
    next => cases h

theorem origin_step {pc : Nat} {f : Fault} (h : e.step enter pc s = .inl (.left (.fault f), t)) :
    f.Own e t ∨ ∃ p, e.placed? pc = some p ∧
      enter.PassesOn (e.opArrivals enter p.op s) (.left (.fault f)) t := by
  unfold step at h
  split at h
  · cases h
    exact .inl ⟨rfl, .inl ⟨_, rfl⟩⟩
  next main hmain =>
    split at h
    · cases h
      exact .inl ⟨rfl, .inl ⟨_, rfl⟩⟩
    next placed hplaced =>
      have hp : e.placed? pc = some placed := by
        unfold placed?
        rw [hmain]
        exact hplaced
      unfold turn at h
      split at h
      next => cases h
      next =>
        split at h
        · cases h
        · cases h
          exact .inl ⟨rfl, .inl ⟨_, rfl⟩⟩
      next index u heq =>
        obtain ⟨hop, rfl⟩ := CodeOp.eq_aux_of_call heq
        split at h
        next => cases h
        next exit v haux =>
          cases h
          unfold callAux at haux
          cases hroutine : e.routines[index.toNat]? with
          | none =>
            simp only [hroutine] at haux
            cases haux
            exact .inl ⟨rfl, .inl ⟨_, rfl⟩⟩
          | some routine =>
            simp only [hroutine] at haux
            have hops : ∀ k, routine.ops.toList[k]? = e.opAt? { routine := index, op := 0 + k } := by
              intro k
              unfold opAt?
              rw [hroutine, Nat.zero_add, Array.getElem?_toList]
              rfl
            refine (origin_runAux hops haux).imp id fun hpassed => ⟨placed, hp, ?_⟩
            unfold opArrivals
            simp only [hop, hroutine]
            exact hpassed
      next => cases h
      next heq =>
        cases h
        rcases (CodeOp.perform_eq_failure rfl).mp heq with ⟨hne, -⟩ | ⟨a, ha, hexit⟩
        · cases hne
        · exact .inr ⟨placed, hp, a, mem_opArrivals ha, hexit⟩
      next kind u heq =>
        obtain ⟨rfl, m, outstanding, hmicro, hfault⟩ := CodeOp.exists_micro_of_fault heq
        cases h
        refine .inl ⟨rfl, .inr ⟨placed.line, m, outstanding, ?_, hfault⟩⟩
        rw [← hmicro]
        exact hp
      next => cases h

end Executable

/-- If an arrival fails, the step fails in the same way. -/
theorem Position.step_of_passesOn (hx : x.isFailure = true) {p : Position}
    (h : p.enter.PassesOn p.arrivals x t) :
    p.exe.step p.enter p.pc p.session = .inl (x, t) := by
  cases hp : p.placed? with
  | none =>
    obtain ⟨a, ha, -⟩ := h
    unfold arrivals at ha
    rw [hp] at ha
    cases ha
  | some placed =>
    replace h : p.enter.PassesOn (p.exe.opArrivals p.enter placed.op p.session) x t := by
      unfold arrivals at h
      rw [hp] at h
      exact h
    rw [Executable.step_of_op? (Executable.op?_of_placed? hp)]
    rcases p.exe.opArrivals_cases p.enter placed.op p.session with ⟨index, hop⟩ | hop
    · rw [hop] at h ⊢
      have haux : p.exe.callAux p.enter index p.session = (some x, t) := by
        unfold Executable.callAux
        unfold Executable.opArrivals at h
        cases hroutine : p.exe.routines[index.toNat]? with
        | none =>
          simp only [hroutine] at h
          obtain ⟨a, ha, -⟩ := h
          cases ha
        | some routine =>
          simp only [hroutine] at h
          exact Executable.runAux_of_passesOn hx h index 0
      simp only [CodeOp.perform, Executable.turn, haux]
    · rw [hop] at h
      rw [CodeOp.perform_of_passesOn hx h]
      cases x <;> rfl

/-! ## Entries -/

/-- Only the code that was admitted fails. -/
theorem Session.enter_eq_failure (hx : x.isFailure = true) {fuel : Nat} {target ret : Word} :
    Session.enter (Executable.invoke fuel) target ret s = (x, t) ↔
      ∃ e u v, s.admission target = .ok (e, u) ∧ e.run fuel 0 { u with ret } = (x, v) ∧
        t = { v with depth := v.depth - 1, ret := u.ret } := by
  rw [enter_eq]
  cases hadmission : s.admission target with
  | error out =>
    constructor
    · obtain ⟨pc, v, rfl | rfl⟩ := admission_eq_error hadmission <;> rintro ⟨⟩ <;> cases hx
    · rintro ⟨e, u, v, h, -⟩
      cases h
  | ok admitted =>
    obtain ⟨e, u⟩ := admitted
    change leave (e.invoke fuel ret u) = _ ↔ _
    unfold Executable.invoke
    generalize hrun : e.run fuel 0 { u with ret } = out
    obtain ⟨exit, v⟩ := out
    refine ⟨fun h => ?_, ?_⟩
    · unfold leave at h
      dsimp only at h
      split at h
      · split at h <;> cases h <;> cases hx
      next =>
        cases h
        exact ⟨e, u, v, rfl, hrun, rfl⟩
    · rintro ⟨e', u', v', ⟨⟩, hrun', rfl⟩
      rw [hrun] at hrun'
      cases hrun'
      cases x with
      | returned pc => cases hx
      | _ => rfl

end R3000
