import R3000.Proofs.Code.Deferral

/-!
# The code of the first stage

The first stage writes every result at once, so its code for a block does what the instructions of
the block do, one after the other: the entry, the body, and the branch with its slot.
-/

namespace R3000

/-- Nothing is ever outstanding in the first stage. -/
structure Writeback.Direct (w : Writeback) : Prop where
  stage : w.stage = .first
  outstanding : w.outstanding = 0

namespace Writeback.Direct

variable {w : Writeback}

theorem flush (h : w.Direct) : w.flush.2 = w := by
  show { w with outstanding := 0 } = w
  rw [← h.outstanding]

theorem pending (h : w.Direct) : w.pending = [] :=
  pending_eq_nil h.outstanding

theorem lower (h : w.Direct) (i : Instr) (slot : Bool) :
    w.lower i slot = ([], lowerFirst i, w) :=
  lower_of_first h.stage i slot

theorem stable (h : w.Direct) : Stable (· = w) where
  lower := by
    rintro _ i slot rfl
    rw [h.lower]
  flush := by
    rintro _ rfl
    exact h.flush

end Writeback.Direct

namespace CodeSource

open Emitter

variable (src : CodeSource) {line : Line} {result : OpResult} {t : Session}

/-! ## What the code does -/

def direct (offset : Nat) (slot : Bool) (t : Session) : Progress :=
  let i := src.graph.instr offset
  let pc := src.graph.addressOf offset
  let line : Line := { offset, delaySlot := slot }
  let t := t.traced src.config pc i
  if i.needsInterpreter then
    (some (line, .signal (.resume (if slot then pc - 4 else pc))), t)
  else .ofResult line (src.act offset slot t)

def directAll : List Nat → Session → Progress
  | [], t => (none, t)
  | offset :: rest, t => (src.direct offset false t).andThen (directAll rest)

def directTest (b : Block) (branch : Nat) (t : Session) : Progress :=
  let i := src.graph.instr branch
  let pc := src.graph.addressOf branch
  .ofResult { offset := branch } ((t.traced src.config pc i).evalBranch i pc
    (if !b.slotIncluded && i.has .conditional then b.flowOut else none))

def directSlot (branch : Nat) (t : Session) : Progress :=
  if isExceptionReturn (src.graph.instr branch) (src.graph.instr (branch + 1)) then (none, t)
  else src.direct (branch + 1) true t

def directTail (enter : Entry) (b : Block) (t : Session) : Progress :=
  match b.branch with
  | none => .ofResult { offset := b.stop - 1 } ((src.fallThrough b).perform enter t)
  | some branch =>
    ((src.directTest b branch t).andThen (src.directSlot branch)).andThen fun t =>
      .ofResult { offset := branch } ((src.finish b branch).perform enter t)

variable {src} in
theorem exists_direct_effect {offset : Nat} (hi : (src.graph.instr offset).needsInterpreter = false)
    (slot : Bool) (s : Session) :
    ∃ e, (src.graph.instr offset).HasEffect (src.graph.addressOf offset)
        (src.memoryGuess (src.graph.addressOf offset) (src.graph.instr offset)) (!slot)
        (s.traced src.config (src.graph.addressOf offset) (src.graph.instr offset)) e ∧
      src.direct offset slot s = .ofResult { offset, delaySlot := slot }
        (e.on (s.traced src.config (src.graph.addressOf offset) (src.graph.instr offset))) := by
  obtain ⟨e, he⟩ := Instr.exists_effect hi (src.graph.addressOf offset)
    (src.memoryGuess (src.graph.addressOf offset) (src.graph.instr offset)) (!slot)
    (s.traced src.config (src.graph.addressOf offset) (src.graph.instr offset))
  refine ⟨e, he, ?_⟩
  unfold direct act
  simp only [hi]
  rw [← he.act_eq _ (fun _ _ => rfl) rfl rfl]
  rfl

/-- The result ends the run in compiled code. -/
def HandsBack (r : OpResult) : Prop :=
  (∃ sig, r = .signal sig) ∨ ∃ kind, r = .fault kind

theorem not_handsBack_flow (f : CodeFlow) : ¬HandsBack (.flow f) := by
  rintro (⟨_, h⟩ | ⟨_, h⟩) <;> cases h

variable {src} in
theorem handsBack_direct {offset : Nat} {slot : Bool} {s : Session}
    (h : src.direct offset slot s = (some (line, result), t)) :
    line = { offset, delaySlot := slot } ∧ HandsBack result := by
  cases hi : (src.graph.instr offset).needsInterpreter with
  | true =>
    unfold direct at h
    simp only [hi] at h
    cases h
    exact ⟨rfl, Or.inl ⟨_, rfl⟩⟩
  | false =>
    obtain ⟨e, he, heq⟩ := exists_direct_effect hi slot s
    rw [heq] at h
    unfold Effect.on Progress.ofResult at h
    rcases he.result_cases with hr | ⟨sig, hr⟩ | ⟨kind, hr⟩ <;> simp only [hr] at h <;> cases h
    · exact ⟨rfl, Or.inl ⟨sig, rfl⟩⟩
    · exact ⟨rfl, Or.inr ⟨kind, rfl⟩⟩

variable {src} in
theorem handsBack_directAll {offsets : List Nat} {s : Session}
    (h : src.directAll offsets s = (some (line, result), t)) : HandsBack result := by
  induction offsets generalizing s with
  | nil => cases h
  | cons o offsets ih =>
    unfold directAll at h
    generalize hd : src.direct o false s = p at h
    obtain ⟨stop, u⟩ := p
    cases stop with
    | none => exact ih h
    | some stop =>
      cases h
      exact (handsBack_direct hd).2

variable {src} in
theorem handsBack_blockHead {enter : Entry} {id : Nat} {s : Session}
    (h : (src.blockHead id).perform enter s = (some (line, result), t)) : HandsBack result := by
  rcases src.perform_blockHead enter id s with hp | hp | hp <;> cases hp.symm.trans h <;>
    exact Or.inl ⟨_, rfl⟩

/-! ## What is emitted -/

variable {e : Emitter} (h : e.writeback.Direct) (enter : Entry) (s : Session)
include h

theorem run_flush_direct (line : Line) : (e.flush line).run enter s = e.run enter s := by
  rw [run_flush, h.pending]
  exact Progress.andThen_pure _

theorem run_emitInstr_direct (offset : Nat) (slot : Bool) :
    (src.emitInstr e offset slot).run enter s =
      (e.run enter s).andThen (src.direct offset slot) := by
  rw [emitInstr_eq]
  unfold direct
  simp only
  by_cases hi : (src.graph.instr offset).needsInterpreter = true
  · simp only [if_pos hi]
    rw [run_emitResume, run_emitTrace, writeback_emitTrace, h.pending, Progress.andThen_assoc]
    rfl
  · simp only [if_neg hi]
    rw [run_emitPlain, run_emitTrace, writeback_emitTrace, h.lower, Progress.andThen_assoc]
    simp only [Progress.andThen_none, h.pending, Session.write_nil, src.lowered_first]

theorem run_emitInstrs_direct (offsets : List Nat) :
    (src.emitInstrs e offsets).run enter s =
      (e.run enter s).andThen (src.directAll offsets) := by
  unfold emitInstrs
  induction offsets generalizing e with
  | nil => exact (Progress.andThen_pure _).symm
  | cons o offsets ih =>
    have ho := h.stable.emitInstr src rfl o false
    rw [List.foldl_cons, ih (ho ▸ h), src.run_emitInstr_direct h, Progress.andThen_assoc]
    rfl

theorem run_emitTest_direct (b : Block) (branch : Nat) :
    (src.emitTest e b branch).run enter s =
      (e.run enter s).andThen (src.directTest b branch) := by
  rw [run_emitTest]
  simp only
  rw [run_emitTrace, run_flush_direct h, Progress.andThen_assoc]
  rfl

theorem run_emitSlot_direct (branch : Nat) :
    (src.emitSlot e branch).run enter s =
      (e.run enter s).andThen (src.directSlot branch) := by
  unfold emitSlot directSlot
  simp only
  split
  · rw [run_resetTo]
    exact (Progress.andThen_pure _).symm
  · exact src.run_emitInstr_direct h enter s _ _

theorem run_emitTail_direct (b : Block) :
    (src.emitTail e b).run enter s = (e.run enter s).andThen (src.directTail enter b) := by
  unfold directTail
  cases hb : b.branch with
  | none => rw [emitTail_of_none _ _ hb, run_push, run_flush_direct h]
  | some branch =>
    have ht := h.stable.emitTest src rfl b branch
    have hs := h.stable.emitSlot src ht branch
    rw [emitTail_of_branch _ _ hb, emitBranch_eq, run_push,
      run_flush_direct (hs ▸ h), src.run_emitSlot_direct (ht ▸ h),
      src.run_emitTest_direct h, Progress.andThen_assoc, Progress.andThen_assoc]
    simp only [Progress.andThen_assoc]

omit h

theorem direct_start (g : FlowGraph) : (Writeback.start .first g).Direct :=
  ⟨rfl, rfl⟩

theorem performAll_blockCode_first {id : Nat} (hreal : (src.graph.block id).isReal = true) :
    PlacedOp.performAll enter (src.blockCode .first id) s =
      ((src.blockHead id).perform enter s).andThen fun t =>
        (src.directAll (src.graph.block id).bodyOffsets t).andThen
          (src.directTail enter (src.graph.block id)) := by
  have hbody : (src.blockBody .first id).writeback.Direct := by
    unfold blockBody
    rw [(direct_start src.graph).stable.emitInstrs src rfl]
    exact direct_start src.graph
  rw [src.blockCode_of_real _ hreal, PlacedOp.performAll]
  congr 1
  funext t
  rw [run_blockBody_tail, src.run_emitTail_direct hbody, blockBody,
    src.run_emitInstrs_direct (direct_start src.graph)]
  rfl

end CodeSource

end R3000
