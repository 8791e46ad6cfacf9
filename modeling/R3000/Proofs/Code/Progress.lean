import R3000.Proofs.Code.Effect
import R3000.Proofs.Code.Emission

/-!
# Running emitted code

`performAll` performs operations in order until one does not go on to the next.  Each emitting
function is described by how it prolongs a run of what was emitted before.
-/

namespace R3000

/-- How far operations came: the line and result of the one that did not go on to the next, if
there is one, and the session. -/
abbrev Progress := Option (Line × OpResult) × Session

namespace Progress

def andThen (p : Progress) (f : Session → Progress) : Progress :=
  match p with
  | (none, s) => f s
  | (some stop, s) => (some stop, s)

@[simp]
theorem andThen_none (s : Session) (f : Session → Progress) :
    andThen (none, s) f = f s := rfl

@[simp]
theorem andThen_some (stop : Line × OpResult) (s : Session) (f : Session → Progress) :
    andThen (some stop, s) f = (some stop, s) := rfl

theorem andThen_assoc (p : Progress) (f g : Session → Progress) :
    (p.andThen f).andThen g = p.andThen fun s => (f s).andThen g := by
  obtain ⟨stop, s⟩ := p
  cases stop <;> rfl

theorem andThen_pure (p : Progress) : (p.andThen fun s => (none, s)) = p := by
  obtain ⟨stop, s⟩ := p
  cases stop <;> rfl

theorem andThen_eq_some {p : Progress} {f : Session → Progress} {stop : Line × OpResult}
    {t : Session} (h : p.andThen f = (some stop, t)) :
    p = (some stop, t) ∨ ∃ u, p = (none, u) ∧ f u = (some stop, t) := by
  obtain ⟨stop', u⟩ := p
  cases stop' with
  | none => exact Or.inr ⟨u, rfl, h⟩
  | some stop' => exact Or.inl h

def ofResult (line : Line) (out : OpResult × Session) : Progress :=
  match out.1 with
  | .flow .next => (none, out.2)
  | r => (some (line, r), out.2)

theorem ofResult_stop (line : Line) {r : OpResult} (h : r ≠ .flow .next) (s : Session) :
    ofResult line (r, s) = (some (line, r), s) := by
  unfold ofResult
  split
  next e => exact absurd e h
  next => rfl

theorem eq_of_ofResult {line line' : Line} {out : OpResult × Session} {r : OpResult}
    {t : Session} (h : ofResult line out = (some (line', r), t)) :
    line' = line ∧ out = (r, t) ∧ r ≠ .flow .next := by
  obtain ⟨r', t'⟩ := out
  by_cases hr : r' = .flow .next
  · subst hr
    cases h
  · rw [ofResult_stop line hr] at h
    cases h
    exact ⟨rfl, rfl, hr⟩

theorem ofResult_snd (line : Line) (out : OpResult × Session) : (ofResult line out).2 = out.2 := by
  unfold ofResult
  split <;> rfl

end Progress

theorem Session.toNat_spend {s : Session} {cycles : Nat} (h : s.hasRoom cycles = true) :
    (s.spend cycles).cycles.toNat = s.cycles.toNat + cycles := by
  have hroom : s.cycles.toNat + cycles < UInt64.size := of_decide_eq_true h
  have hcycles : (UInt64.ofNat cycles).toNat = cycles := UInt64.toNat_ofNat_of_lt (by omega)
  change (s.cycles + UInt64.ofNat cycles).toNat = _
  rw [UInt64.toNat_add, hcycles, Nat.mod_eq_of_lt hroom]

theorem Session.spend_first {s : Session} (hs : s.cycles = 0) {cycles : Nat}
    (h : cycles < UInt64.size) :
    s.hasRoom cycles = true ∧ s.spend cycles = { s with cycles := UInt64.ofNat cycles } := by
  unfold hasRoom spend
  rw [hs, UInt64.zero_add]
  refine ⟨decide_eq_true ?_, rfl⟩
  rw [UInt64.toNat_zero, Nat.zero_add]
  exact h

theorem CodeOp.perform_blockEntry (enter : Entry) (pc : Word) (cycles : Nat) (check : Bool)
    (s : Session) :
    (CodeOp.blockEntry pc cycles check).perform enter s =
      if s.hasRoom cycles then
        (if check && (s.spend cycles).breakoutDue then .signal (.breakout pc) else .flow .next,
          s.spend cycles)
      else (.signal .overflow, s) := by
  simp only [CodeOp.perform]
  split
  · split <;> rfl
  · rfl

theorem CodeOp.perform_blockEntry_first {s : Session} (hs : s.cycles = 0) {cycles : Nat}
    (h : cycles < UInt64.size) (enter : Entry) (pc : Word) :
    (CodeOp.blockEntry pc cycles false).perform enter s =
      (.flow .next, { s with cycles := UInt64.ofNat cycles }) := by
  obtain ⟨hroom, hspend⟩ := Session.spend_first hs h
  rw [perform_blockEntry, if_pos hroom, hspend]
  rfl

theorem CodeOp.perform_blockEntry_cases (enter : Entry) (pc : Word) (cycles : Nat) (check : Bool)
    (s : Session) :
    (CodeOp.blockEntry pc cycles check).perform enter s = (.flow .next, s.spend cycles) ∨
      (CodeOp.blockEntry pc cycles check).perform enter s =
        (.signal (.breakout pc), s.spend cycles) ∨
      (CodeOp.blockEntry pc cycles check).perform enter s = (.signal .overflow, s) := by
  rw [CodeOp.perform_blockEntry]
  split
  · split
    · exact .inr (.inl rfl)
    · exact .inl rfl
  · exact .inr (.inr rfl)

namespace PlacedOp

def perform (enter : Entry) (p : PlacedOp) (s : Session) : Progress :=
  .ofResult p.line (p.op.perform enter s)

def performAll (enter : Entry) : List PlacedOp → Session → Progress
  | [], s => (none, s)
  | p :: rest, s => (p.perform enter s).andThen (performAll enter rest)

theorem performAll_append (enter : Entry) (l l' : List PlacedOp) (s : Session) :
    performAll enter (l ++ l') s = (performAll enter l s).andThen (performAll enter l') := by
  induction l generalizing s with
  | nil => rfl
  | cons p l ih =>
    rw [List.cons_append, performAll, performAll, Progress.andThen_assoc]
    congr 1
    funext t
    exact ih t

theorem performAll_singleton (enter : Entry) (p : PlacedOp) (s : Session) :
    performAll enter [p] s = p.perform enter s :=
  Progress.andThen_pure _

end PlacedOp

/-- A block is entered, or its code hands back at once. -/
theorem CodeSource.perform_blockHead (src : CodeSource) (enter : Entry) (id : Nat) (s : Session) :
    (src.blockHead id).perform enter s = (none, s.spend (src.graph.block id).size) ∨
      (src.blockHead id).perform enter s = (some ((src.blockHead id).line,
        .signal (.breakout (src.graph.block id).base)), s.spend (src.graph.block id).size) ∨
      (src.blockHead id).perform enter s =
        (some ((src.blockHead id).line, .signal .overflow), s) := by
  unfold PlacedOp.perform blockHead entryOp
  rcases CodeOp.perform_blockEntry_cases enter (src.graph.block id).base (src.graph.block id).size
    (src.graph.isLoopHead (src.graph.block id).offset && !src.graph.uninterruptible) s
    with h | h | h <;> rw [h]
  · exact .inl rfl
  · exact .inr (.inl rfl)
  · exact .inr (.inr rfl)

namespace Emitter

def run (enter : Entry) (e : Emitter) (s : Session) : Progress :=
  PlacedOp.performAll enter e.code s

variable (enter : Entry) (e : Emitter) (s : Session)

theorem run_push (line : Line) (op : CodeOp) :
    (e.push line op).run enter s =
      (e.run enter s).andThen fun t => .ofResult line (op.perform enter t) := by
  rw [run, code_push, PlacedOp.performAll_append]
  congr 1
  funext t
  exact PlacedOp.performAll_singleton enter _ t

theorem run_resetTo (w : Writeback) : (e.resetTo w).run enter s = e.run enter s := rfl

theorem run_note (pc : Word) (outstanding : Writes) :
    (e.note pc outstanding).run enter s = e.run enter s := by
  rw [run, code_note, run]

theorem run_pushWrites (line : Line) (values : Writes) :
    (e.pushWrites line values).run enter s =
      (e.run enter s).andThen fun t => (none, t.write values) := by
  unfold pushWrites
  by_cases h : values.isEmpty = true
  · rw [if_pos h, List.isEmpty_iff.mp h]
    exact (Progress.andThen_pure _).symm
  · rw [if_neg h, run_push]
    rfl

theorem run_flush (line : Line) :
    (e.flush line).run enter s =
      (e.run enter s).andThen fun t => (none, t.write e.writeback.pending) :=
  run_pushWrites enter (e.resetTo e.writeback.flush.2) s line _

end Emitter

namespace Session

def takes (s : Session) (i : Instr) : Bool :=
  !i.has .conditional || i.op.taken (s.reg i.rs) (s.reg i.rt)

def branched (s : Session) (i : Instr) (pc : Word) : Session :=
  { s with
    regs :=
      if i.has .link then s.regs.set (if i.op = .jalr then i.rd else Reg.ra) (pc + 8) else s.regs
    taken := s.takes i
    target := (i.staticTarget pc).getD (s.reg i.rs) }

theorem evalBranch_eq (s : Session) (i : Instr) (pc : Word) (notTaken : Option Nat) :
    s.evalBranch i pc notTaken =
      (match notTaken with
        | some block => .flow (if s.takes i then .next else .goto block)
        | none => .flow .next,
      s.branched i pc) := by
  unfold evalBranch branched setReg
  by_cases hl : i.has .link = true
  · simp only [if_pos hl]
    cases notTaken <;> rfl
  · simp only [if_neg hl]
    cases notTaken <;> rfl

def traced (s : Session) (config : Config) (pc : Word) (instr : Instr) : Session :=
  if config.trace then { s with trace := s.trace.push { pc, instr, depth := s.depth } } else s

/-- The progress of an instruction while writes are outstanding: a signal makes them. -/
def settle (line : Line) (outstanding : Writes) (out : OpResult × Session) : Progress :=
  match out.1 with
  | .flow .next => (none, out.2)
  | .signal sig => (some (line, .signal sig), out.2.write outstanding)
  | r => (some (line, r), out.2)

theorem write_nil (s : Session) : s.write [] = s := rfl

theorem settle_nil (line : Line) (out : OpResult × Session) :
    settle line [] out = .ofResult line out := by
  obtain ⟨r, s⟩ := out
  cases r with
  | flow f => cases f <;> rfl
  | signal sig => rfl
  | fault k => rfl
  | unfinished => rfl

theorem ofResult_micro (enter : Entry) (line : Line) (m : Micro) (outstanding : Writes)
    (s : Session) :
    Progress.ofResult line ((CodeOp.micro m outstanding).perform enter s) =
      settle line outstanding (m.perform s) := by
  simp only [CodeOp.perform]
  generalize m.perform s = out
  obtain ⟨r, t⟩ := out
  cases r with
  | flow f => cases f <;> rfl
  | signal sig => rfl
  | fault k => rfl
  | unfinished => rfl

end Session

namespace CodeSource

open Emitter

variable (src : CodeSource) (enter : Entry) (e : Emitter) (s : Session)

theorem run_emitTrace (line : Line) (pc : Word) (i : Instr) :
    (src.emitTrace e line pc i).run enter s =
      (e.run enter s).andThen fun t => (none, t.traced src.config pc i) := by
  unfold emitTrace Session.traced
  by_cases h : src.config.trace = true
  · simp only [if_pos h]
    rw [run_push]
    rfl
  · simp only [if_neg h]
    exact (Progress.andThen_pure _).symm

def act (offset : Nat) (slot : Bool) (t : Session) : OpResult × Session :=
  let i := src.graph.instr offset
  let pc := src.graph.addressOf offset
  i.act pc (src.memoryGuess pc i) (!slot) t

def lowered (offset : Nat) (slot : Bool) (how : Lowering) (outstanding : Writes) (t : Session) :
    Progress :=
  match how with
  | .elide => (none, t)
  | .constant r v => (none, t.setReg r v)
  | .emit => Session.settle { offset, delaySlot := slot } outstanding (src.act offset slot t)

theorem run_emitPlain (offset : Nat) (slot : Bool) :
    (src.emitPlain e offset slot).run enter s =
      let low := e.writeback.lower (src.graph.instr offset) slot
      (e.run enter s).andThen fun t =>
        src.lowered offset slot low.2.1 low.2.2.pending (t.write low.1) := by
  unfold emitPlain
  simp only
  cases how : (e.writeback.lower (src.graph.instr offset) slot).2.1 with
  | elide =>
    show ((e.resetTo _).pushWrites _ _).run enter s = _
    rw [run_pushWrites, run_resetTo]
    rfl
  | constant r v =>
    show (((e.resetTo _).pushWrites _ _).push _ _).run enter s = _
    rw [run_push, run_pushWrites, run_resetTo, Progress.andThen_assoc]
    rfl
  | emit =>
    unfold lowered act Instr.act
    simp only
    cases (src.graph.instr offset).lower (src.graph.addressOf offset)
        (src.memoryGuess (src.graph.addressOf offset) (src.graph.instr offset)) !slot with
    | none =>
      show ((e.resetTo _).pushWrites _ _).run enter s = _
      rw [run_pushWrites, run_resetTo]
      rfl
    | some m =>
      show ((((e.resetTo _).pushWrites _ _).note _ _).push _ _).run enter s = _
      rw [run_push, run_note, run_pushWrites, run_resetTo, Progress.andThen_assoc]
      simp only [Progress.andThen_none, Session.ofResult_micro]

theorem run_emitResume (offset : Nat) (slot : Bool) :
    (src.emitResume e offset slot).run enter s =
      (e.run enter s).andThen fun t =>
        (some ({ offset, delaySlot := slot },
            .signal (.resume (if slot then src.graph.addressOf offset - 4
              else src.graph.addressOf offset))),
          t.write e.writeback.pending) := by
  unfold emitResume
  rw [run_push, run_resetTo, run_flush, Progress.andThen_assoc]
  rfl

theorem run_emitTest (b : Block) (branch : Nat) :
    (src.emitTest e b branch).run enter s =
      let i := src.graph.instr branch
      let pc := src.graph.addressOf branch
      ((src.emitTrace (e.flush { offset := branch }) { offset := branch } pc i).run
        enter s).andThen fun t =>
          .ofResult { offset := branch } (t.evalBranch i pc
            (if !b.slotIncluded && i.has .conditional then b.flowOut else none)) := by
  unfold emitTest
  rw [run_push, run_resetTo]
  rfl

end CodeSource

end R3000
