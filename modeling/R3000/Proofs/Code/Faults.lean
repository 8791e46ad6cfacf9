import R3000.Proofs.Code.Direct
import R3000.Proofs.Code.Stepping
import R3000.Proofs.Flow.Edges

/-!
# What a fault leaves unwritten

When the code of the second stage faults, the first stage faults at the same line.  In a slot the
two register files are the same.  Elsewhere the second stage may lack known values, and it has
noted the address of the instruction if it lacks any but the one that the instruction itself was
going to overwrite.
-/

namespace R3000

/-- What a fault at a line leaves unwritten: `one` is the session of the first stage, `two` that of
the second, which has noted the addresses that run with writes outstanding. -/
structure Unwritten (g : FlowGraph) (noted : List Word) (line : Line) (one two : Session) :
    Prop where
  rest : two = { one with regs := two.regs }
  hi : two.regs.hi = one.regs.hi
  lo : two.regs.lo = one.regs.lo
  slot : line.delaySlot = true → two = one
  known : line.delaySlot = false → (g.constantsAt line.offset).Holds one.regs
  value : line.delaySlot = false → ∀ r, two.reg r ≠ one.reg r →
    (g.constantsAt line.offset).get r = some (one.reg r)
  noted : line.delaySlot = false → ∀ r, two.reg r ≠ one.reg r →
    (g.instr line.offset).dest = some r ∨ g.addressOf line.offset ∈ noted

namespace Unwritten

variable {g : FlowGraph} {noted noted' : List Word} {line : Line} {one two : Session}

theorem mono (h : Unwritten g noted line one two) (hsub : noted ⊆ noted') :
    Unwritten g noted' line one two :=
  { h with noted := fun hl r hr => (h.noted hl r hr).imp id fun hmem => hsub hmem }

theorem of_slot (s : Session) (hl : line.delaySlot = true) : Unwritten g noted line s s where
  rest := rfl
  hi := rfl
  lo := rfl
  slot _ := rfl
  known h := by
    rw [hl] at h
    cases h
  value _ _ hr := absurd rfl hr
  noted _ _ hr := absurd rfl hr

end Unwritten

theorem Writeback.pending_ne_nil {w : Writeback} {r : Reg} (h0 : r.val ≠ 0)
    (h : Word.any w.outstanding r.mask = true) : w.pending ≠ [] :=
  List.ne_nil_of_mem (mem_values.mpr ⟨h0, h, rfl⟩)

namespace Emitter

theorem run_extend (enter : Entry) (e d : Emitter) (s : Session) :
    (e.extend d).run enter s = (e.run enter s).andThen (d.run enter) := by
  rw [run, code_extend, PlacedOp.performAll_append]
  rfl

end Emitter

namespace CodeSource

open Emitter

variable {src : CodeSource} {enter : Entry} {s t : Session} {line : Line} {kind : FaultKind}
  {e one two : Emitter} {offset : Nat} {u : Session}

/-! ## The faulting instruction -/

theorem lowered_fault {w : Writeback} {one two : Session}
    (hi : (src.graph.instr offset).needsInterpreter = false)
    (hknown : w.known = src.graph.constantsAt offset) (h : Deferred w one two) (hfault :
      let low := w.lowerSecond (src.graph.instr offset) false
      src.lowered offset false low.2.1 low.2.2.pending (two.write low.1) =
        (some (line, .fault kind), t)) :
    let low := w.lowerSecond (src.graph.instr offset) false
    line = { offset } ∧ src.act offset false one = (.fault kind, one) ∧ low.2.1 = .emit ∧
      (src.graph.constantsAt offset).Holds one.regs ∧ t = { one with regs := t.regs } ∧
      t.regs.hi = one.regs.hi ∧ t.regs.lo = one.regs.lo ∧
      ∀ r, t.reg r ≠ one.reg r → (src.graph.constantsAt offset).get r = some (one.reg r) ∧
        ((src.graph.instr offset).dest = some r ∨ low.2.2.pending ≠ []) := by
  obtain ⟨-, hc, -, hl⟩ := Instr.plain_of_needsInterpreter hi
  cases hv : w.known.compute? (src.graph.instr offset) with
  | some v =>
    -- an instruction whose result is known does not run
    rw [Writeback.lowerSecond_of_known hv] at hfault
    cases hfault
  | none =>
    rw [Writeback.lowerSecond_of_run (Or.inr hv)] at hfault ⊢
    have hd := h.write (w.due (src.graph.instr offset) false) fun _ => Writeback.any_due
    obtain ⟨e, he⟩ := Instr.exists_effect hi (src.graph.addressOf offset)
      (src.memoryGuess (src.graph.addressOf offset) (src.graph.instr offset)) true one
    obtain ⟨hone, htwo⟩ := hd.act_eq he fun r _ hr => Writeback.any_not_due_of_reads hr
    change Session.settle { offset } _ ((src.graph.instr offset).act _ _ true _) = _ at hfault
    rw [htwo] at hfault
    unfold Effect.on Session.settle at hfault
    rcases he.result_cases with hr | ⟨sig, hr⟩ | ⟨k, hr⟩ <;> simp only [hr] at hfault
    · cases hfault
    · cases hfault
    · rw [he.none_of_fault k hr] at hfault hone
      obtain ⟨hstop, rfl⟩ := Prod.mk.inj hfault
      cases hstop
      refine ⟨rfl, hone, rfl, hknown ▸ h.known, ?_, hd.same.hi.symm, hd.same.lo.symm,
        fun r hne => ?_⟩
      · rw [hd.rest]
        rfl
      · obtain ⟨hmem, hget⟩ := hd.get_of_ne hne
        refine ⟨hknown ▸ hget, ?_⟩
        by_cases hdest : (src.graph.instr offset).dest = some r
        · exact Or.inl hdest
        · right
          have h0 : r.val ≠ 0 := by
            intro h0
            apply hne
            unfold Session.reg
            rw [Registers.get_zero _ h0, Registers.get_zero _ h0]
          refine Writeback.pending_ne_nil h0 ?_
          rw [Word.any_and, Word.any_not, Instr.any_writes hc hl, decide_eq_false hdest, hmem]
          rfl

theorem mem_unwritten_emitPlain
    (hemit : (e.writeback.lower (src.graph.instr offset) false).2.1 = .emit)
    (hpending : (e.writeback.lower (src.graph.instr offset) false).2.2.pending ≠ [])
    (hfault : (src.act offset false s).1 = .fault kind) :
    src.graph.addressOf offset ∈ (src.emitPlain e offset false).unwritten := by
  unfold emitPlain
  simp only [hemit]
  cases hm : (src.graph.instr offset).lower (src.graph.addressOf offset)
      (src.memoryGuess (src.graph.addressOf offset) (src.graph.instr offset)) !false with
  | none =>
    unfold act Instr.act at hfault
    simp only [hm] at hfault
    cases hfault
  | some m =>
    simp only
    show _ ∈ (Emitter.note _ _ _).unwritten
    unfold note
    rw [if_neg fun h => hpending (List.isEmpty_iff.mp h)]
    exact List.mem_cons_self

theorem unwritten_emitInstr (h : Lockstep src.graph enter s one two)
    (htwo : two.run enter s = (none, u))
    (hknown : two.writeback.known = src.graph.constantsAt offset)
    (hfault : (src.emitInstr two offset false).run enter s = (some (line, .fault kind), t)) :
    ∃ v, (src.emitInstr one offset false).run enter s = (some (line, .fault kind), v) ∧
      Unwritten src.graph (src.emitInstr two offset false).unwritten line v t := by
  have ht := h.emitTrace { offset } (src.graph.addressOf offset) (src.graph.instr offset)
  rw [emitInstr_eq] at hfault ⊢
  simp only at hfault ⊢
  rw [emitInstr_eq]
  simp only
  split at hfault
  next hi =>
    rw [run_emitResume] at hfault
    rcases Progress.andThen_eq_some hfault with hstop | ⟨v, -, hstop⟩
    · rw [run_emitTrace, htwo] at hstop
      cases hstop
    · cases hstop
  next hi =>
    rw [if_neg hi, if_neg hi]
    rw [Bool.not_eq_true] at hi
    have hin := ht.inStep
    rw [run_emitPlain, writeback_emitTrace, Writeback.lower_of_second h.second] at hfault
    rw [run_emitPlain, writeback_emitTrace, Writeback.lower_of_first h.first]
    generalize (src.emitTrace one { offset } (src.graph.addressOf offset)
      (src.graph.instr offset)).run enter s = p at hin ⊢
    rw [run_emitTrace, htwo] at hin hfault
    simp only [Progress.andThen_none] at hin hfault
    cases hin with
    | going hd =>
      rw [writeback_emitTrace] at hd
      obtain ⟨rfl, hact, hemit, hholds, hrest, hhi, hlo, hlacks⟩ :=
        lowered_fault hi hknown hd hfault
      refine ⟨_, ?_, hrest, hhi, hlo, nofun, fun _ => hholds,
        fun _ r hr => (hlacks r hr).1, fun _ r hr => (hlacks r hr).2.imp id fun hpending => ?_⟩
      · simp only [Progress.andThen_none, Writeback.pending_eq_nil h.settled, Session.write_nil,
          src.lowered_first, hact]
        rfl
      · refine mem_unwritten_emitPlain (s := _) ?_ ?_ (congrArg Prod.fst hact)
        · rw [writeback_emitTrace, Writeback.lower_of_second h.second]
          exact hemit
        · rw [writeback_emitTrace, Writeback.lower_of_second h.second]
          exact hpending

/-! ## Straight-line code -/

theorem unwritten_emitInstrs {count : Nat} (h : Lockstep src.graph enter s one two)
    (htwo : two.run enter s = (none, u)) (hknown : ∀ k < count, two.writeback.known.afterAll
      ((List.range' offset k).map src.graph.instr) = src.graph.constantsAt (offset + k))
    (hfault : (src.emitInstrs two (List.range' offset count)).run enter s =
      (some (line, .fault kind), t)) :
    ∃ v, (src.emitInstrs one (List.range' offset count)).run enter s =
        (some (line, .fault kind), v) ∧
      Unwritten src.graph (src.emitInstrs two (List.range' offset count)).unwritten line v t := by
  induction count generalizing offset one two u with
  | zero =>
    have hrun : two.run enter s = _ := hfault
    rw [htwo] at hrun
    cases hrun
  | succ count ih =>
    rw [List.range'_succ] at hfault ⊢
    have hhead : two.writeback.known = src.graph.constantsAt offset :=
      hknown 0 count.succ_pos
    have hcons : ∀ e, src.emitInstrs e (offset :: List.range' (offset + 1) count) =
        src.emitInstrs (src.emitInstr e offset false) (List.range' (offset + 1) count) :=
      fun _ => rfl
    rw [hcons] at hfault
    rw [hcons, hcons]
    cases hrun : (src.emitInstr two offset false).run enter s with
    | mk stop v =>
      cases stop with
      | none =>
        refine ih (h.emitInstr (Or.inr hhead)) hrun (fun k hk => ?_) hfault
        have hnext := hknown (k + 1) (Nat.succ_lt_succ hk)
        rw [List.range'_succ, List.map_cons, Known.afterAll_cons] at hnext
        rw [Lockstep.known_emitInstr h.second, hnext, Nat.add_right_comm, Nat.add_assoc]
      | some stop =>
        -- what follows the faulting instruction changes nothing
        rw [emitInstrs_fresh, run_extend, hrun, Progress.andThen_some] at hfault
        cases hfault
        obtain ⟨v, hone, hun⟩ := unwritten_emitInstr h htwo hhead hrun
        refine ⟨v, ?_, hun.mono ?_⟩
        · rw [emitInstrs_fresh, run_extend, hone]
          rfl
        · rw [src.emitInstrs_fresh (src.emitInstr two offset false), unwritten_extend]
          exact List.subset_append_right _ _

/-! ## Branches -/

theorem run_emitSlot_settled (hw : e.writeback.stage = .second) (h0 : e.writeback.outstanding = 0)
    (branch : Nat) :
    (src.emitSlot e branch).run enter s =
      (e.run enter s).andThen (src.directSlot branch) := by
  unfold emitSlot directSlot
  simp only
  split
  · rw [run_resetTo]
    exact (Progress.andThen_pure _).symm
  · rw [emitInstr_eq]
    unfold direct
    simp only
    split
    next hi =>
      rw [run_emitResume, run_emitTrace, writeback_emitTrace, Writeback.pending_eq_nil h0,
        Progress.andThen_assoc]
      rfl
    next hi =>
      have hdue : e.writeback.due (src.graph.instr (branch + 1)) true = 0 := h0
      have hlower := Writeback.outstanding_lower hw h0 (i := src.graph.instr (branch + 1))
        (Or.inl rfl)
      rw [run_emitPlain, run_emitTrace, writeback_emitTrace, Progress.andThen_assoc]
      simp only [Writeback.pending_eq_nil hlower]
      rw [Writeback.lower_of_second hw, Writeback.lowerSecond_of_run (Or.inl rfl), hdue,
        Writeback.values_eq_nil fun r _ => Word.any_zero r]
      simp only [Progress.andThen_none, Session.write_nil, lowered, Session.settle_nil]

theorem fault_emitTail {b : Block}
    (h : (src.emitTail e b).run enter s = (some (line, .fault kind), t)) :
    e.run enter s = (some (line, .fault kind), t) ∨
      ∃ branch u, b.branch = some branch ∧ (src.emitTest e b branch).run enter s = (none, u) ∧
        (src.emitSlot (src.emitTest e b branch) branch).run enter s =
          (some (line, .fault kind), t) := by
  have hfinal : ∀ {op : CodeOp} {line' : Line} {u : Session}, op.isFinal = true →
      Progress.ofResult line' (op.perform enter u) ≠ (some (line, .fault kind), t) := by
    intro op line' u hop hq
    have hout := (Progress.eq_of_ofResult hq).2.1
    exact (CodeOp.leaves_of_isFinal hop enter u).ne_fault kind (congrArg Prod.fst hout)
  cases hb : b.branch with
  | none =>
    left
    rw [emitTail_of_none _ _ hb, run_push, run_flush] at h
    rcases Progress.andThen_eq_some h with h | ⟨u, -, h⟩
    · rcases Progress.andThen_eq_some h with h | ⟨u, -, h⟩
      · exact h
      · cases h
    · exact absurd h (hfinal (isFinal_fallThrough src b))
  | some branch =>
    rw [emitTail_of_branch _ _ hb, emitBranch_eq, run_push, run_flush] at h
    rcases Progress.andThen_eq_some h with h | ⟨u, -, h⟩
    · rcases Progress.andThen_eq_some h with h | ⟨u, -, h⟩
      · cases htest : (src.emitTest e b branch).run enter s with
        | mk stop u =>
          cases stop with
          | none => exact Or.inr ⟨branch, u, rfl, htest, h⟩
          | some stop =>
            -- the test itself does not fault
            left
            rw [emitSlot_fresh, run_extend, htest, Progress.andThen_some] at h
            cases h
            rw [run_emitTest] at htest
            rcases Progress.andThen_eq_some htest with h | ⟨u, -, h⟩
            · rw [run_emitTrace, run_flush] at h
              rcases Progress.andThen_eq_some h with h | ⟨u, -, h⟩
              · rcases Progress.andThen_eq_some h with h | ⟨u, -, h⟩
                · exact h
                · cases h
              · cases h
            · have hout := congrArg Prod.fst (Progress.eq_of_ofResult h).2.1
              rw [Session.evalBranch_eq] at hout
              simp only at hout
              split at hout <;> cases hout
      · cases h
    · exact absurd h (hfinal (isFinal_finish src b branch))

theorem fault_slot (h : Lockstep src.graph enter s one two) {b : Block} {branch : Nat}
    (hb : b.branch = some branch) (hbranch : (src.graph.instr branch).isBranch = true)
    (htest : (src.emitTest two b branch).run enter s = (none, u))
    (hslot : (src.emitSlot (src.emitTest two b branch) branch).run enter s =
      (some (line, .fault kind), t)) :
    (src.emitTail one b).run enter s = (some (line, .fault kind), t) ∧
      line.delaySlot = true := by
  have hlock := h.emitTest b hbranch
  have h0 := src.outstanding_emitTest h.second b hbranch
  have hin := hlock.inStep
  rw [run_emitSlot_settled hlock.second h0, htest, Progress.andThen_none] at hslot
  rw [emitTail_of_branch _ _ hb, emitBranch_eq, run_push, run_flush,
    src.run_emitSlot_direct ⟨hlock.first, hlock.settled⟩]
  rw [htest] at hin
  generalize (src.emitTest one b branch).run enter s = p at hin ⊢
  cases hin with
  | going hd =>
    rw [hd.eq h0] at hslot
    refine ⟨?_, ?_⟩
    · rw [Progress.andThen_none, hslot]
      rfl
    · unfold directSlot at hslot
      split at hslot
      · cases hslot
      · rw [(handsBack_direct hslot).1]

/-! ## Blocks -/

theorem unwritten_blockCode (hreg : src.graph.Regular) {id : Nat}
    (hentry : (src.graph.constants.entryOf id).Holds s.regs)
    (hfault : PlacedOp.performAll enter (src.blockCode .second id) s =
      (some (line, .fault kind), t)) :
    ∃ u, PlacedOp.performAll enter (src.blockCode .first id) s =
        (some (line, .fault kind), u) ∧
      Unwritten src.graph (src.blockUnwritten .second id) line u t := by
  by_cases hreal : (src.graph.block id).isReal = true
  · rw [src.blockCode_of_real _ hreal, PlacedOp.performAll] at hfault
    rcases Progress.andThen_eq_some hfault with hhead | ⟨v, hhead, hfault⟩
    · rcases src.perform_blockHead enter id s with h | h | h <;> cases h.symm.trans hhead
    rw [src.blockCode_of_real _ hreal, PlacedOp.performAll, hhead, Progress.andThen_none,
      run_blockBody_tail]
    rw [run_blockBody_tail] at hfault
    have hunwritten : (src.blockBody .second id).unwritten ⊆ src.blockUnwritten .second id := by
      unfold blockUnwritten
      rw [if_pos hreal]
      exact List.subset_append_right _ _
    have hstart : Lockstep src.graph enter v (fresh (src.blockStart .first id))
        (fresh (src.blockStart .second id)) := by
      refine ⟨rfl, rfl, rfl, .going (.refl ?_ rfl)⟩
      rw [regs_of_blockHead hhead]
      exact hentry
    have hknown : ∀ k < (src.graph.block id).bodySize,
        (fresh (src.blockStart .second id)).writeback.known.afterAll
          ((List.range' (src.graph.block id).offset k).map src.graph.instr) =
            src.graph.constantsAt ((src.graph.block id).offset + k) :=
      fun k hk => (constantsAt_of_blockContaining (hreg.body hk)).symm
    rcases fault_emitTail hfault with hbody | ⟨branch, w, hb, htest, hslot⟩
    · obtain ⟨u, hone, hun⟩ := unwritten_emitInstrs hstart rfl hknown hbody
      refine ⟨u, ?_, hun.mono hunwritten⟩
      change (src.blockBody .first id).run enter v = _ at hone
      rw [emitTail_fresh, run_extend, hone]
      rfl
    · have hbody : Lockstep src.graph enter v (src.blockBody .first id)
          (src.blockBody .second id) := hstart.emitInstrs hknown
      obtain ⟨hone, hl⟩ := fault_slot hbody hb (hreg.isBranch hb) htest hslot
      exact ⟨t, hone, .of_slot t hl⟩
  · rw [Bool.not_eq_true] at hreal
    rw [src.blockCode_of_wrapper _ hreal, PlacedOp.performAll_singleton] at hfault
    have hout := congrArg Prod.fst (Progress.eq_of_ofResult hfault).2.1
    exact absurd hout ((CodeOp.leaves_jumpOut enter s _).ne_fault kind)

end CodeSource

end R3000
