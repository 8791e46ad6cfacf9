import R3000.Proofs.Code.Integrity
import R3000.Proofs.Session.Frames

/-!
# Faults are the program's own

A run of generated code never comes to a place without code: its operations follow each other inside
a block and go on only to blocks.  So the only faults are those of instructions that were surveyed,
and each has a line to resume at.  A dispatch is fatal exactly if it enters a block whose cycles
overflow the count.
-/

namespace R3000

namespace CodeSource

variable (src : CodeSource) (stage : Stage)

end CodeSource

namespace Executable

variable {src : CodeSource} {size : Nat} {base : Word}

def Holds (size : Nat) (e : Executable) (pc : Nat) : Prop :=
  ∃ (src : CodeSource) (stage : Stage) (base : Word), e = (src.generate stage).exe ∧
    src.graph.SurveyedWithin size base ∧ ∃ id < src.graph.blocks.size,
      ∃ k < (src.mainOps stage id).length, pc = src.startOf stage id + k

end Executable

/-! ## Overflows -/

/-- The operation here enters a block with more cycles than can still be counted. -/
def Position.Overflows (q : Position) : Prop :=
  ∃ op, q.exe.op? q.pc = some op ∧ op.Overflows q.session

theorem Position.Passes.overflow {p q : Position} (h : p.Passes q) (hq : q.Overflows) :
    ∃ t, p.exe.run (p.fuel + 1) p.pc p.session = (.left .overflow, t) := by
  induction h with
  | here p =>
    obtain ⟨op, hop, hover⟩ := hq
    refine ⟨p.session, ?_⟩
    rw [Executable.run_succ, Executable.step_of_op? hop,
      (CodeOp.perform_eq_failure rfl).mpr (.inl ⟨rfl, rfl, hover⟩)]
    rfl
  | next hstep _ ih =>
    obtain ⟨t, ht⟩ := ih hq
    refine ⟨t, ?_⟩
    rw [Executable.run_succ, hstep]
    exact ht
  | @nested n pc e x s u a q ha hadmission _ ih =>
    obtain ⟨v, hv⟩ := ih hq
    have hentry : Session.enter (Executable.invoke (n + 1)) a.target a.ret a.session =
        (.left .overflow, { v with depth := v.depth - 1, ret := u.ret }) :=
      (Session.enter_eq_failure rfl).mpr ⟨x, u, v, hadmission, hv, rfl⟩
    refine ⟨{ v with depth := v.depth - 1, ret := u.ret }, ?_⟩
    have hstep := Position.step_of_passesOn (p := { fuel := n + 1, exe := e, pc, session := s }) rfl
      ⟨a, ha, hentry⟩
    change e.step (Session.enter (Executable.invoke (n + 1))) pc s = _ at hstep
    rw [Executable.run_succ, hstep]

theorem CodeOp.ne_overflow_of_inner {op : CodeOp} (h : op.inner = true) (enter : Entry)
    (s : Session) : (op.perform enter s).1 ≠ .signal .overflow := by
  intro hsig
  have hpair : op.perform enter s = (.signal .overflow, (op.perform enter s).2) := Prod.ext hsig rfl
  rcases (perform_eq_failure rfl).mp hpair with ⟨-, -, pc, cycles, check, rfl, -⟩ | ⟨a, ha, -⟩
  · cases h
  · cases op <;> first | cases ha | cases h

theorem PlacedOp.performAll_inner_ne_overflow {ops : List PlacedOp}
    (hops : ∀ p ∈ ops, p.op.inner = true) (enter : Entry) (s t : Session) (line : Line) :
    performAll enter ops s ≠ (some (line, .signal .overflow), t) := by
  induction ops generalizing s with
  | nil => simp [performAll]
  | cons p ops ih =>
    intro h
    rcases Progress.andThen_eq_some h with h | ⟨u, -, h⟩
    · exact CodeOp.ne_overflow_of_inner (hops p List.mem_cons_self) enter s
        (congrArg Prod.fst (Progress.eq_of_ofResult h).2.1)
    · exact ih (fun q hq => hops q (List.mem_cons_of_mem p hq)) u h

namespace Executable

variable {size : Nat} (hsize : size < 0x10000) {e : Executable} {pc : Nat} {s t : Session}
include hsize

/-- Auxiliary routines enter no blocks, so what overflows is the operation itself. -/
theorem Holds.overflow (hplace : e.Holds size pc) {enter : Entry}
    (h : e.step enter pc s = .inl (.left .overflow, t)) :
    ∃ p, e.placed? pc = some p ∧ p.op.perform enter s = (.signal .overflow, t) := by
  obtain ⟨src, stage, base, rfl, hsurvey, id, hid, k, hk, rfl⟩ := hplace
  have hp := List.getElem?_eq_getElem hk
  have hplaced := src.ops_mainRoutine stage hid hp
  have hstep := src.follows_step stage (src.addressable_generate stage hsurvey hsize) hid hp enter s
  rw [h] at hstep
  generalize hq : PlacedOp.performAll enter _ s = progress at hstep
  refine ⟨(src.mainOps stage id)[k], ?_, ?_⟩
  · unfold placed?
    rw [src.routines_zero]
    exact hplaced
  · cases hstep with
    | exit t hconcludes =>
      cases hconcludes with
      | signal sig =>
        unfold CodeSource.expansion at hq
        split at hq
        · exact absurd hq (PlacedOp.performAll_inner_ne_overflow
            (src.inner_blockBody stage id) enter s t _)
        · rw [PlacedOp.performAll_singleton] at hq
          exact (Progress.eq_of_ofResult hq).2.1

end Executable

/-! ## Dispatches -/

namespace Recompiler

end Recompiler

end R3000
