import R3000.Proofs.Code.Progress

/-!
# Deferred writes

The second stage leaves known values out of the register file.  A run of its code and a run of
the first stage's code stay in step: the two sessions differ in outstanding registers only, and
those hold their known values in the first stage's session (`Deferred`).
-/

namespace R3000

namespace Writeback

variable {i : Instr} {w : Writeback}

theorem lower_of_first (h : w.stage = .first) (i : Instr) (slot : Bool) :
    w.lower i slot = ([], lowerFirst i, w) := by
  rw [lower, h]

theorem lower_of_second (h : w.stage = .second) (i : Instr) (slot : Bool) :
    w.lower i slot = w.lowerSecond i slot := by
  rw [lower, h]

@[simp]
theorem stage_lowerSecond (w : Writeback) (i : Instr) (slot : Bool) :
    (w.lowerSecond i slot).2.2.stage = w.stage := by
  unfold lowerSecond
  simp only
  split <;> rfl

theorem stable_second : Stable (·.stage = .second) where
  lower w i slot h := by
    rw [lower_of_second h, stage_lowerSecond]
    exact h
  flush _ h := h

@[simp]
theorem known_lowerSecond (w : Writeback) (i : Instr) (slot : Bool) :
    (w.lowerSecond i slot).2.2.known = w.known.after i := by
  unfold lowerSecond
  simp only
  split <;> rfl

theorem pending_eq_nil (h : w.outstanding = 0) : w.pending = [] := by
  unfold pending
  rw [h]
  exact values_eq_nil fun r _ => Word.any_zero r

/-- The register that an instruction leaves outstanding when it does not run. -/
def destMask (i : Instr) : Word :=
  match i.dest with
  | some r => r.mask
  | none => 0

/-- The outstanding writes that an instruction can observe. -/
def due (w : Writeback) (i : Instr) (slot : Bool) : Word :=
  if observes i slot then w.outstanding else w.outstanding &&& i.reads

theorem lowerSecond_of_known {v : Word} (hv : w.known.compute? i = some v) :
    w.lowerSecond i false =
      ([], .elide,
        { w with known := w.known.after i, outstanding := w.outstanding ||| destMask i }) := by
  unfold lowerSecond Known.step
  rw [hv]
  rfl

theorem lowerSecond_of_run {slot : Bool} (h : slot = true ∨ w.known.compute? i = none) :
    w.lowerSecond i slot =
      (values w.known (w.due i slot), .emit,
        { w with
          known := w.known.after i
          outstanding := w.outstanding &&& ~~~w.due i slot &&& ~~~i.writes }) := by
  unfold lowerSecond Known.step
  rcases h with rfl | h
  · rfl
  · rw [h]
    cases slot <;> rfl

theorem runs_or_known (w : Writeback) (i : Instr) (slot : Bool) :
    (slot = true ∨ w.known.compute? i = none) ∨
      slot = false ∧ ∃ v, w.known.compute? i = some v := by
  cases slot with
  | true => exact Or.inl (Or.inl rfl)
  | false =>
    cases hv : w.known.compute? i with
    | none => exact Or.inl (Or.inr rfl)
    | some v => exact Or.inr ⟨rfl, v, rfl⟩

theorem any_due {slot : Bool} {r : Reg} (h : Word.any (w.due i slot) r.mask = true) :
    Word.any w.outstanding r.mask = true := by
  unfold due at h
  split at h
  · exact h
  · rw [Word.any_and, Bool.and_eq_true] at h
    exact h.1

theorem outstanding_lower (hw : w.stage = .second) (h0 : w.outstanding = 0) {slot : Bool}
    (h : slot = true ∨ w.known.compute? i = none) : (w.lower i slot).2.2.outstanding = 0 := by
  rw [lower_of_second hw, lowerSecond_of_run h]
  apply Word.eq_zero_of_any
  intro r
  rw [Word.any_and, Word.any_and, h0, Word.any_zero]
  rfl

theorem any_not_due_of_reads {slot : Bool} {r : Reg} (h : Word.any i.reads r.mask = true) :
    Word.any (w.outstanding &&& ~~~w.due i slot) r.mask = false := by
  unfold due
  rw [Word.any_and, Word.any_not]
  split
  · rw [Bool.and_not_self]
  · rw [Word.any_and, h, Bool.and_true, Bool.and_not_self]

theorem any_not_due_of_slot {r : Reg} :
    Word.any (w.outstanding &&& ~~~w.due i true) r.mask = false := by
  rw [Word.any_and, Word.any_not]
  exact Bool.and_not_self _

/-! ## Outstanding writes have known values -/

def Covered (w : Writeback) : Prop :=
  ∀ r : Reg, r.val ≠ 0 → Word.any w.outstanding r.mask = true → w.known.knows r = true

theorem covered_of_settled (h : w.outstanding = 0) : w.Covered := by
  intro r _ hr
  rw [h, Word.any_zero] at hr
  exact absurd hr Bool.false_ne_true

namespace Covered

variable {w : Writeback}

theorem keep (h : w.Covered) (regs : Word) :
    Covered { w with outstanding := w.outstanding &&& regs } := by
  intro r h0 hr
  rw [Word.any_and, Bool.and_eq_true] at hr
  exact h r h0 hr.1

theorem elide (h : w.Covered) {i : Instr} {v : Word} (hv : w.known.compute? i = some v) :
    Covered
      { w with known := w.known.after i, outstanding := w.outstanding ||| destMask i } := by
  intro r h0 hr
  rw [Word.any_or, Bool.or_eq_true] at hr
  unfold destMask at hr
  unfold Known.after
  rw [hv]
  cases hd : i.dest with
  | none =>
    rw [hd, Word.any_zero] at hr
    exact h r h0 (hr.resolve_right Bool.false_ne_true)
  | some d =>
    rw [hd, Word.any_mask_mask] at hr
    unfold Known.knows
    show ((w.known.set d v).get r).isSome = true
    rw [Known.get_set]
    by_cases hrd : r = d ∧ d.val ≠ 0
    · rw [if_pos hrd]
      rfl
    · rw [if_neg hrd]
      refine h r h0 (hr.resolve_right fun hr => hrd ?_)
      exact ⟨(of_decide_eq_true hr).symm, Instr.dest_ne_zero hd⟩

theorem run (h : w.Covered) (i : Instr) :
    Covered { w with known := w.known.after i, outstanding := w.outstanding &&& ~~~i.writes } := by
  intro r h0 hr
  rw [Word.any_and, Word.any_not, Bool.and_eq_true, Bool.not_eq_true'] at hr
  exact Known.knows_after (h r h0 hr.1) hr.2

theorem lower (h : w.Covered) (hw : w.stage = .second) (i : Instr) (slot : Bool) :
    (w.lower i slot).2.2.Covered := by
  rw [lower_of_second hw]
  rcases w.runs_or_known i slot with hrun | ⟨rfl, v, hv⟩
  · rw [lowerSecond_of_run hrun]
    exact (h.keep _).run i
  · rw [lowerSecond_of_known hv]
    exact h.elide hv

end Covered

end Writeback

/-! ## The invariant -/

/-- The session of the second stage lacks the outstanding writes. -/
structure Deferred (w : Writeback) (one two : Session) : Prop where
  rest : two = { one with regs := two.regs }
  same : Registers.SameOff w.outstanding one.regs two.regs
  known : w.known.Holds one.regs
  covered : ∀ r : Reg, r.val ≠ 0 → Word.any w.outstanding r.mask = true →
    w.known.knows r = true

namespace Deferred

variable {w : Writeback} {one two : Session}

theorem refl {s : Session} (hk : w.known.Holds s.regs) (h0 : w.outstanding = 0) :
    Deferred w s s :=
  ⟨rfl, .refl _ _, hk, Writeback.covered_of_settled h0⟩

theorem eq (h : Deferred w one two) (h0 : w.outstanding = 0) : two = one := by
  have hsame := h.same
  rw [h0] at hsame
  rw [h.rest, ← hsame.eq]

/-- Where the sessions differ a write is outstanding, and its value is known. -/
theorem get_of_ne (h : Deferred w one two) {r : Reg} (hne : two.reg r ≠ one.reg r) :
    Word.any w.outstanding r.mask = true ∧ w.known.get r = some (one.reg r) := by
  have hmem : Word.any w.outstanding r.mask = true :=
    Bool.of_not_eq_false fun hr => hne (h.same.get r hr).symm
  have h0 : r.val ≠ 0 := by
    intro h0
    apply hne
    unfold Session.reg
    rw [Registers.get_zero _ h0, Registers.get_zero _ h0]
  have hget := Known.get_of_knows (h.covered r h0 hmem)
  refine ⟨hmem, ?_⟩
  rw [hget]
  exact congrArg some (h.known r _ hget).symm

theorem write (h : Deferred w one two) (due : Word)
    (hdue : ∀ r : Reg, Word.any due r.mask = true → Word.any w.outstanding r.mask = true) :
    Deferred { w with outstanding := w.outstanding &&& ~~~due } one
      (two.write (Writeback.values w.known due)) where
  rest := by
    rw [h.rest]
    rfl
  same := by
    refine ⟨?_, ?_, ?_, fun r hr => ?_⟩
    · exact h.same.zeroCell.trans (Registers.setAll_zeroCell _ _).symm
    · exact h.same.hi.trans (Registers.setAll_hi _ _).symm
    · exact h.same.lo.trans (Registers.setAll_lo _ _).symm
    · show one.regs.get r = (two.regs.setAll (Writeback.values w.known due)).get r
      rw [Writeback.get_setAll_values]
      by_cases hmem : r.val ≠ 0 ∧ Word.any due r.mask = true
      · rw [if_pos hmem]
        exact h.known.get_eq_value (h.covered r hmem.1 (hdue r hmem.2))
      · rw [if_neg hmem]
        by_cases h0 : r.val = 0
        · rw [Registers.get_zero _ h0, Registers.get_zero _ h0]
        · apply h.same.get
          have hnot : Word.any due r.mask = false := Bool.eq_false_iff.mpr fun e => hmem ⟨h0, e⟩
          rwa [Word.any_and, Word.any_not, hnot, Bool.not_false, Bool.and_true] at hr
  known := h.known
  covered := Writeback.Covered.keep h.covered _

theorem write_pending (h : Deferred w one two) : two.write w.pending = one := by
  have hw := h.write w.outstanding fun _ hr => hr
  apply hw.eq
  apply Word.eq_zero_of_any
  intro r
  rw [Word.any_and, Word.any_not, Bool.and_not_self]

theorem flush (h : Deferred w one two) :
    Deferred w.flush.2 one (two.write w.pending) := by
  rw [h.write_pending]
  exact refl (w := w.flush.2) h.known rfl

theorem elide (h : Deferred w one two) {i : Instr} {v : Word}
    (hv : w.known.compute? i = some v) :
    Deferred
      { w with
        known := w.known.after i
        outstanding := w.outstanding ||| Writeback.destMask i }
      { one with regs := i.putDest v one.regs } two := by
  have hcovered := Writeback.Covered.elide h.covered hv
  unfold Known.after Writeback.destMask at hcovered ⊢
  unfold Instr.putDest
  rw [hv] at hcovered ⊢
  cases hd : i.dest with
  | none =>
    rw [hd] at hcovered
    refine ⟨h.rest, h.same.mono fun r _ hr => ?_, h.known, hcovered⟩
    rw [Word.any_or, hr, Bool.true_or]
  | some d =>
    rw [hd] at hcovered
    refine ⟨?_, ⟨?_, ?_, ?_, fun r hr => ?_⟩, h.known.set d v, hcovered⟩
    · rw [h.rest]
    · rw [Registers.set_zeroCell]
      exact h.same.zeroCell
    · rw [Registers.set_hi]
      exact h.same.hi
    · rw [Registers.set_lo]
      exact h.same.lo
    · rw [Word.any_or, Word.any_mask_mask, Bool.or_eq_false_iff] at hr
      have hne : r ≠ d := fun e => of_decide_eq_false hr.2 e.symm
      rw [Registers.get_set_ne _ _ hne]
      exact h.same.get r hr.1

theorem act_eq (h : Deferred w one two) {i : Instr} {pc : Word} {guess : MemoryGuess}
    {watch : Bool} {e : Effect} (he : i.HasEffect pc guess watch one e)
    (hsees : ∀ r : Reg, r.val ≠ 0 → Word.any i.reads r.mask = true →
      Word.any w.outstanding r.mask = false) :
    i.act pc guess watch one = e.on one ∧ i.act pc guess watch two = e.on two := by
  refine ⟨he.act_eq one.regs (fun _ _ => rfl) rfl rfl, ?_⟩
  rw [h.rest]
  refine he.act_eq two.regs (fun r hr => ?_) h.same.hi.symm h.same.lo.symm
  by_cases h0 : r.val = 0
  · rw [Registers.get_zero _ h0, Registers.get_zero _ h0]
  · exact (h.same.get r (hsees r h0 (hr.resolve_left h0))).symm

theorem on (h : Deferred w one two) {i : Instr} (hi : i.needsInterpreter = false)
    {pc : Word} {guess : MemoryGuess} {watch : Bool} {e : Effect}
    (he : i.HasEffect pc guess watch one e) (hnot : ∀ k, e.result ≠ .fault k) :
    Deferred
      { w with known := w.known.after i, outstanding := w.outstanding &&& ~~~i.writes }
      (e.on one).2 (e.on two).2 := by
  obtain ⟨-, hc, -, hl⟩ := Instr.plain_of_needsInterpreter hi
  have hsame : Registers.SameOff (w.outstanding &&& ~~~i.writes) (e.update.apply one.regs)
      (e.update.apply two.regs) := by
    refine e.update.sameOff_apply h.same fun r _ hr ht => ?_
    rw [he.dest_eq hnot] at ht
    rw [Word.any_and, Word.any_not, Instr.any_writes hc hl, hr, decide_eq_false ht]
    rfl
  refine ⟨?_, hsame, h.known.after hi he hnot, Writeback.Covered.run h.covered i⟩
  rw [h.rest]
  rfl

end Deferred

/-! ## Runs in step -/

/-- Two runs ended alike: in a fault the second may lack registers whose values are known at the
place of the fault, otherwise nothing differs. -/
def StopsAlike (g : FlowGraph) (line : Line) (result : OpResult) (one two : Session) : Prop :=
  match result with
  | .fault _ =>
    two = { one with regs := two.regs } ∧ two.regs.hi = one.regs.hi ∧ two.regs.lo = one.regs.lo ∧
      ∀ r, two.reg r ≠ one.reg r → (g.constantsAt line.offset).get r = some (one.reg r)
  | _ => two = one

theorem StopsAlike.refl (g : FlowGraph) (line : Line) (result : OpResult) (s : Session) :
    StopsAlike g line result s s := by
  cases result with
  | fault k => exact ⟨rfl, rfl, rfl, fun r hr => absurd rfl hr⟩
  | _ => rfl

/-- Two runs are in step: both go on with deferred writes, or both ended alike. -/
inductive InStep (g : FlowGraph) (w : Writeback) : Progress → Progress → Prop
  | going {one two : Session} (h : Deferred w one two) : InStep g w (none, one) (none, two)
  | stopped {line : Line} {result : OpResult} {one two : Session}
      (h : StopsAlike g line result one two) :
      InStep g w (some (line, result), one) (some (line, result), two)

namespace InStep

variable {g : FlowGraph} {w w' : Writeback} {p q : Progress}

theorem andThen (h : InStep g w p q) {f f' : Session → Progress}
    (hf : ∀ one two, Deferred w one two → InStep g w' (f one) (f' two)) :
    InStep g w' (p.andThen f) (q.andThen f') := by
  cases h with
  | going hd => exact hf _ _ hd
  | stopped hs => exact .stopped hs

theorem mapRight (h : InStep g w p q) {f : Session → Session}
    (hf : ∀ one two, Deferred w one two → Deferred w' one (f two)) :
    InStep g w' p (q.andThen fun t => (none, f t)) := by
  rw [← p.andThen_pure]
  exact h.andThen fun one two hd => .going (hf one two hd)

theorem flush (h : InStep g w p q) :
    InStep g w.flush.2 p (q.andThen fun t => (none, t.write w.pending)) :=
  h.mapRight fun _ _ hd => hd.flush

theorem ofResult (h0 : w'.outstanding = 0) (line : Line) (out : OpResult × Session)
    (hk : out.1 = .flow .next → w'.known.Holds out.2.regs) :
    InStep g w' (.ofResult line out) (.ofResult line out) := by
  obtain ⟨r, s⟩ := out
  by_cases hr : r = .flow .next
  · subst hr
    exact .going (.refl (hk rfl) h0)
  · rw [Progress.ofResult_stop line hr]
    exact .stopped (.refl g line r s)

theorem reset (h : InStep g w p q) (h0 : w.outstanding = 0) (h0' : w'.outstanding = 0)
    (hk : ∀ f, w.known.Holds f → w'.known.Holds f) : InStep g w' p q := by
  cases h with
  | going hd =>
    rw [hd.eq h0]
    exact .going (.refl (hk _ hd.known) h0')
  | stopped hs => exact .stopped hs

end InStep

/-- Nobody can tell two runs apart: they end at the same line with the same result, in the same
session or, after a fault, in one that lacks known values only. -/
def Indistinguishable (g : FlowGraph) (p q : Progress) : Prop :=
  q.1 = p.1 ∧
    match p.1 with
    | none => q.2 = p.2
    | some (line, result) => StopsAlike g line result p.2 q.2

theorem Indistinguishable.refl (g : FlowGraph) (p : Progress) : Indistinguishable g p p := by
  obtain ⟨stop, s⟩ := p
  cases stop with
  | none => exact ⟨rfl, rfl⟩
  | some stop => exact ⟨rfl, .refl g _ _ s⟩

theorem InStep.indistinguishable {g : FlowGraph} {w : Writeback} {p q : Progress}
    (h : InStep g w p q) (h0 : w.outstanding = 0) (f : Session → Progress) :
    Indistinguishable g (p.andThen f) (q.andThen f) := by
  cases h with
  | going hd =>
    rw [hd.eq h0]
    exact .refl g _
  | stopped hs => exact ⟨rfl, hs⟩

theorem Known.Holds.branched {k : Known} {s : Session} (hk : k.Holds s.regs) {i : Instr}
    (hi : i.isBranch = true) (pc : Word) : (k.after i).Holds (s.branched i pc).regs := by
  rw [Known.after_of_not_computable k (Op.plain_of_branch hi).1]
  refine hk.forget fun r h0 hr => ?_
  unfold Session.branched
  simp only
  split
  next hl =>
    rw [Instr.any_writes_of_link hl h0] at hr
    exact absurd hr.symm Bool.false_ne_true
  next => rfl

namespace CodeSource

open Emitter

variable (src : CodeSource)

theorem lowered_first (offset : Nat) (slot : Bool) (s : Session) :
    src.lowered offset slot (Writeback.lowerFirst (src.graph.instr offset)) [] s =
      .ofResult { offset, delaySlot := slot } (src.act offset slot s) := by
  rw [← Session.settle_nil]
  unfold Writeback.lowerFirst
  by_cases hc : ((src.graph.instr offset).has .computable &&
      (src.graph.instr offset).reads == 0) = true
  · rw [if_pos hc]
    obtain ⟨hcomp, hreads⟩ := Bool.and_eq_true_iff.mp hc
    have heval : (src.graph.instr offset).evaluate s.regs.get =
        (src.graph.instr offset).evaluate fun _ => 0 := by
      apply Instr.evaluate_congr
      rintro r (hr | hr)
      · exact Registers.get_zero _ hr
      · rw [beq_iff_eq.mp hreads, Word.any_zero] at hr
        exact absurd hr Bool.false_ne_true
    cases hv : (src.graph.instr offset).evaluate fun _ => 0 with
    | none => rfl
    | some v =>
      unfold act
      rw [Instr.act_of_computable hcomp, heval, hv]
      unfold Instr.putDest
      cases (src.graph.instr offset).dest <;> rfl
  · rw [if_neg hc]
    rfl

/-- An instruction keeps the stages in step.  In a slot nothing is outstanding any more; elsewhere
the knowledge of the second stage has to be that of the graph, which recovery relies on. -/
theorem inStep_lowered {offset : Nat} {slot : Bool} {w : Writeback} {one two : Session}
    (hi : (src.graph.instr offset).needsInterpreter = false)
    (hknown : slot = true ∨ w.known = src.graph.constantsAt offset) (h : Deferred w one two) :
    let low := w.lowerSecond (src.graph.instr offset) slot
    InStep src.graph low.2.2 (.ofResult { offset, delaySlot := slot } (src.act offset slot one))
      (src.lowered offset slot low.2.1 low.2.2.pending (two.write low.1)) := by
  rcases w.runs_or_known (src.graph.instr offset) slot with hrun | ⟨rfl, v, hv⟩
  · rw [Writeback.lowerSecond_of_run hrun]
    have hd := h.write (w.due (src.graph.instr offset) slot) fun _ => Writeback.any_due
    obtain ⟨e, he⟩ := Instr.exists_effect hi (src.graph.addressOf offset)
      (src.memoryGuess (src.graph.addressOf offset) (src.graph.instr offset)) (!slot) one
    obtain ⟨hone, htwo⟩ := hd.act_eq he fun r _ hr => Writeback.any_not_due_of_reads hr
    show InStep _ _ (.ofResult _ (src.act offset slot one))
      (Session.settle _ _ (src.act offset slot _))
    unfold act
    rw [hone, htwo]
    rcases he.result_cases with hr | ⟨sig, hr⟩ | ⟨k, hr⟩
    · have hnext := hd.on hi he fun k hk => by rw [hr] at hk; cases hk
      unfold Effect.on Progress.ofResult Session.settle
      simp only [hr]
      exact .going hnext
    · have hnext := hd.on hi he fun k hk => by rw [hr] at hk; cases hk
      unfold Effect.on Progress.ofResult Session.settle
      simp only [hr]
      exact .stopped hnext.write_pending
    · have heq := he.none_of_fault k hr
      rw [heq]
      unfold Effect.on Progress.ofResult Session.settle Effect.none
      simp only
      refine .stopped ⟨?_, hd.same.hi.symm, hd.same.lo.symm, fun r hne => ?_⟩
      · rw [hd.rest]
      · obtain ⟨hmem, hget⟩ := hd.get_of_ne hne
        rcases hknown with rfl | hknown
        · rw [Writeback.any_not_due_of_slot] at hmem
          exact absurd hmem Bool.false_ne_true
        · rw [← hknown]
          exact hget
  · obtain ⟨hcomp, heval⟩ := Known.evaluate_of_compute? h.known hv
    rw [Writeback.lowerSecond_of_known hv]
    unfold act
    rw [Instr.act_of_computable hcomp, heval]
    exact .going (h.elide hv)

/-! ## Emission -/

theorem outstanding_emitTest {e : Emitter} (h : e.writeback.stage = .second) (b : Block)
    {branch : Nat} (hbranch : (src.graph.instr branch).isBranch = true) :
    (src.emitTest e b branch).writeback.outstanding = 0 := by
  have hnone : e.writeback.flush.2.known.compute? (src.graph.instr branch) = none := by
    unfold Known.compute?
    rw [show (src.graph.instr branch).has .computable = false from (Op.plain_of_branch hbranch).1]
    rfl
  rw [writeback_emitTest]
  exact Writeback.outstanding_lower (w := e.writeback.flush.2) h rfl (Or.inr hnone)

/-- The emitters of the two stages, with runs in step. -/
structure Lockstep (g : FlowGraph) (enter : Entry) (s : Session) (one two : Emitter) : Prop where
  first : one.writeback.stage = .first
  settled : one.writeback.outstanding = 0
  second : two.writeback.stage = .second
  inStep : InStep g two.writeback (one.run enter s) (two.run enter s)

namespace Lockstep

variable {src : CodeSource} {enter : Entry} {s : Session} {one two : Emitter} {offset : Nat}

theorem flush (h : Lockstep src.graph enter s one two) (line : Line) :
    Lockstep src.graph enter s (one.flush line) (two.flush line) where
  first := by
    rw [writeback_flush]
    exact h.first
  settled := by
    rw [writeback_flush]
    rfl
  second := by
    rw [writeback_flush]
    exact h.second
  inStep := by
    rw [run_flush, run_flush, writeback_flush, Writeback.pending_eq_nil h.settled]
    show InStep _ _ ((one.run enter s).andThen fun t => (none, t)) _
    rw [Progress.andThen_pure]
    exact h.inStep.flush

theorem emitTrace (h : Lockstep src.graph enter s one two) (line : Line) (pc : Word)
    (i : Instr) :
    Lockstep src.graph enter s (src.emitTrace one line pc i) (src.emitTrace two line pc i) where
  first := by
    rw [writeback_emitTrace]
    exact h.first
  settled := by
    rw [writeback_emitTrace]
    exact h.settled
  second := by
    rw [writeback_emitTrace]
    exact h.second
  inStep := by
    rw [run_emitTrace, run_emitTrace, writeback_emitTrace]
    refine h.inStep.andThen fun one two hd => .going ?_
    unfold Session.traced
    split
    · refine ⟨?_, hd.same, hd.known, hd.covered⟩
      rw [hd.rest]
    · exact hd

theorem emitResume (h : Lockstep src.graph enter s one two) (offset : Nat) (slot : Bool) :
    Lockstep src.graph enter s (src.emitResume one offset slot)
      (src.emitResume two offset slot) where
  first := by
    rw [writeback_emitResume, Writeback.lower_of_first (w := one.writeback.flush.2) h.first]
    exact h.first
  settled := by
    rw [writeback_emitResume, Writeback.lower_of_first (w := one.writeback.flush.2) h.first]
    rfl
  second := by
    rw [writeback_emitResume, Writeback.lower_of_second (w := two.writeback.flush.2) h.second,
      Writeback.stage_lowerSecond]
    exact h.second
  inStep := by
    rw [run_emitResume, run_emitResume, Writeback.pending_eq_nil h.settled]
    exact h.inStep.andThen fun one two hd => .stopped hd.write_pending

theorem emitPlain (h : Lockstep src.graph enter s one two) {slot : Bool}
    (hi : (src.graph.instr offset).needsInterpreter = false)
    (hknown : slot = true ∨ two.writeback.known = src.graph.constantsAt offset) :
    Lockstep src.graph enter s (src.emitPlain one offset slot)
      (src.emitPlain two offset slot) where
  first := by
    rw [writeback_emitPlain, Writeback.lower_of_first h.first]
    exact h.first
  settled := by
    rw [writeback_emitPlain, Writeback.lower_of_first h.first]
    exact h.settled
  second := by
    rw [writeback_emitPlain, Writeback.lower_of_second h.second, Writeback.stage_lowerSecond]
    exact h.second
  inStep := by
    rw [run_emitPlain, run_emitPlain, writeback_emitPlain, Writeback.lower_of_first h.first,
      Writeback.lower_of_second h.second]
    refine h.inStep.andThen fun one two hd => ?_
    rw [Writeback.pending_eq_nil h.settled, Session.write_nil, src.lowered_first]
    exact src.inStep_lowered hi hknown hd

theorem emitInstr (h : Lockstep src.graph enter s one two) {slot : Bool}
    (hknown : slot = true ∨ two.writeback.known = src.graph.constantsAt offset) :
    Lockstep src.graph enter s (src.emitInstr one offset slot)
      (src.emitInstr two offset slot) := by
  rw [emitInstr_eq, emitInstr_eq]
  have ht := h.emitTrace { offset, delaySlot := slot } (src.graph.addressOf offset)
    (src.graph.instr offset)
  simp only
  split
  next hi => exact ht.emitResume offset slot
  next hi =>
    refine ht.emitPlain (Bool.eq_false_iff.mpr hi) ?_
    rw [writeback_emitTrace]
    exact hknown

theorem known_emitInstr (h : two.writeback.stage = .second) (offset : Nat) (slot : Bool) :
    (src.emitInstr two offset slot).writeback.known =
      two.writeback.known.after (src.graph.instr offset) := by
  rw [writeback_emitInstr, Writeback.lower_of_second (Writeback.stable_second.facing h _),
    Writeback.known_lowerSecond, Writeback.known_facing]

theorem emitInstrs {count : Nat} (h : Lockstep src.graph enter s one two)
    (hknown : ∀ k < count, two.writeback.known.afterAll
      ((List.range' offset k).map src.graph.instr) = src.graph.constantsAt (offset + k)) :
    Lockstep src.graph enter s (src.emitInstrs one (List.range' offset count))
      (src.emitInstrs two (List.range' offset count)) := by
  induction count generalizing offset one two with
  | zero => exact h
  | succ count ih =>
    rw [List.range'_succ]
    refine ih (h.emitInstr (Or.inr (hknown 0 count.succ_pos))) fun k hk => ?_
    have hnext := hknown (k + 1) (Nat.succ_lt_succ hk)
    rw [List.range'_succ, List.map_cons, Known.afterAll_cons] at hnext
    rw [known_emitInstr h.second, hnext, Nat.add_right_comm, Nat.add_assoc]

theorem emitTest (h : Lockstep src.graph enter s one two) (b : Block) {branch : Nat}
    (hbranch : (src.graph.instr branch).isBranch = true) :
    Lockstep src.graph enter s (src.emitTest one b branch) (src.emitTest two b branch) := by
  have ht := (h.flush { offset := branch }).emitTrace { offset := branch }
    (src.graph.addressOf branch) (src.graph.instr branch)
  refine ⟨?_, ?_, Writeback.stable_second.emitTest src h.second b branch, ?_⟩
  · rw [writeback_emitTest, Writeback.lower_of_first (w := one.writeback.flush.2) h.first]
    exact h.first
  · rw [writeback_emitTest, Writeback.lower_of_first (w := one.writeback.flush.2) h.first]
    rfl
  · have hin := ht.inStep
    rw [writeback_emitTrace, writeback_flush] at hin
    rw [run_emitTest, run_emitTest]
    refine hin.andThen fun t u hd => ?_
    rw [hd.eq rfl]
    refine .ofResult (src.outstanding_emitTest h.second b hbranch) _ _ fun _ => ?_
    rw [writeback_emitTest, Writeback.lower_of_second (w := two.writeback.flush.2) h.second,
      Writeback.known_lowerSecond, Session.evalBranch_eq]
    exact hd.known.branched hbranch _

theorem emitSlot (h : Lockstep src.graph enter s one two)
    (h0 : two.writeback.outstanding = 0) (branch : Nat) :
    Lockstep src.graph enter s (src.emitSlot one branch) (src.emitSlot two branch) := by
  unfold CodeSource.emitSlot
  simp only
  split
  next hret =>
    -- the slot restores the status, which the branch does in its place
    have hop : (src.graph.instr (branch + 1)).op = .rfe :=
      Op.plain_of_exceptionReturn (Bool.and_eq_true_iff.mp hret).2
    refine ⟨?_, ?_, ?_, ?_⟩
    · rw [writeback_resetTo, Writeback.lower_of_first h.first]
      exact h.first
    · rw [writeback_resetTo, Writeback.lower_of_first h.first]
      exact h.settled
    · rw [writeback_resetTo, Writeback.lower_of_second h.second, Writeback.stage_lowerSecond]
      exact h.second
    · rw [run_resetTo, run_resetTo, writeback_resetTo]
      refine h.inStep.reset h0 (Writeback.outstanding_lower h.second h0 (Or.inl rfl))
        fun f hf => ?_
      rw [Writeback.lower_of_second h.second, Writeback.known_lowerSecond,
        Known.after_of_not_computable _ (by rw [Instr.has, hop]; rfl)]
      exact hf.forget fun r _ _ => rfl
  next => exact h.emitInstr (Or.inl rfl)

theorem emitTail (h : Lockstep src.graph enter s one two) {b : Block}
    (hbranch : ∀ branch, b.branch = some branch → (src.graph.instr branch).isBranch = true) :
    Indistinguishable src.graph ((src.emitTail one b).run enter s)
      ((src.emitTail two b).run enter s) := by
  cases hb : b.branch with
  | none =>
    rw [emitTail_of_none _ _ hb, emitTail_of_none _ _ hb, run_push, run_push]
    refine (h.flush _).inStep.indistinguishable ?_ _
    rw [writeback_flush]
    rfl
  | some branch =>
    have ht := h.emitTest b (hbranch branch hb)
    have h0 := src.outstanding_emitTest h.second b (hbranch branch hb)
    rw [emitTail_of_branch _ _ hb, emitTail_of_branch _ _ hb, emitBranch_eq, emitBranch_eq,
      run_push, run_push]
    refine ((ht.emitSlot h0 branch).flush _).inStep.indistinguishable ?_ _
    rw [writeback_flush]
    rfl

end Lockstep

/-! ## Blocks -/

theorem Indistinguishable.andThen {g : FlowGraph} (p : Progress) {f f' : Session → Progress}
    (h : ∀ t, p = (none, t) → Indistinguishable g (f t) (f' t)) :
    Indistinguishable g (p.andThen f) (p.andThen f') := by
  obtain ⟨stop, t⟩ := p
  cases stop with
  | none => exact h t rfl
  | some stop => exact .refl g _

theorem regs_of_blockHead {src : CodeSource} {enter : Entry} {id : Nat} {s t : Session}
    (h : (src.blockHead id).perform enter s = (none, t)) : t.regs = s.regs := by
  rcases src.perform_blockHead enter id s with hp | hp | hp <;> cases hp.symm.trans h
  rfl

theorem constantsAt_of_blockContaining {g : FlowGraph} {id k : Nat}
    (h : g.blockContaining ((g.block id).offset + k) = some id) :
    g.constantsAt ((g.block id).offset + k) =
      (g.constants.entryOf id).afterAll
        ((List.range' (g.block id).offset k).map g.instr) := by
  unfold FlowGraph.constantsAt
  rw [h]
  simp only [Nat.add_sub_cancel_left]

theorem run_blockBody_tail (enter : Entry) (stage : Stage) (id : Nat) (s : Session) :
    PlacedOp.performAll enter ((src.blockBody stage id).code ++ (src.blockTail stage id).code) s =
      (src.emitTail (src.blockBody stage id) (src.graph.block id)).run enter s := by
  rw [run, emitTail_fresh, code_extend]
  rfl

/-- The stages cannot be told apart on a block that is entered with its known values in place. -/
theorem indistinguishable_blockCode (enter : Entry) {id : Nat} {s : Session}
    (hentry : (src.graph.constants.entryOf id).Holds s.regs)
    (hbody : ∀ k < (src.graph.block id).bodySize,
      src.graph.blockContaining ((src.graph.block id).offset + k) = some id)
    (hbranch : ∀ branch, (src.graph.block id).branch = some branch →
      (src.graph.instr branch).isBranch = true) :
    Indistinguishable src.graph (PlacedOp.performAll enter (src.blockCode .first id) s)
      (PlacedOp.performAll enter (src.blockCode .second id) s) := by
  by_cases hreal : (src.graph.block id).isReal = true
  · rw [src.blockCode_of_real _ hreal, src.blockCode_of_real _ hreal]
    refine Indistinguishable.andThen _ fun t ht => ?_
    rw [run_blockBody_tail, run_blockBody_tail]
    refine Lockstep.emitTail ?_ hbranch
    refine Lockstep.emitInstrs ⟨rfl, rfl, rfl, .going (.refl ?_ rfl)⟩ fun k hk => ?_
    · rw [regs_of_blockHead ht]
      exact hentry
    · exact (constantsAt_of_blockContaining (hbody k hk)).symm
  · rw [Bool.not_eq_true] at hreal
    rw [src.blockCode_of_wrapper _ hreal, src.blockCode_of_wrapper _ hreal]
    exact .refl _ _

end CodeSource

end R3000
