import R3000.Proofs.Machine.Freshness
import R3000.Proofs.Session.Position
import R3000.Proofs.Unit.Guard

/-!
# Breakpoints stop a run

A step of a run begins at a breakpoint only if it is the first one and the machine has just stopped
there.  Compiled code is entered only where no breakpoint lies in the range on record for its unit.

The range of a unit is put on record when its code is analysed first.  A later analysis may reach
further, and then compiled code can run through a breakpoint behind the range.
-/

namespace R3000

/-- Only a wrapper is a jump.  It stands for an address outside the code and does nothing there. -/
def CodeOp.isWrapper : CodeOp → Bool
  | .jump _ => true
  | _ => false

def Executable.Operates (e : Executable) (addr : Word) : Prop :=
  ∃ routine ∈ e.routines, ∃ p ∈ routine.ops,
    p.op.isWrapper = false ∧ e.graph.addressOf p.line.offset = addr

instance (e : Executable) (addr : Word) : Decidable (e.Operates addr) :=
  inferInstanceAs (Decidable (∃ routine ∈ e.routines, ∃ p ∈ routine.ops,
    p.op.isWrapper = false ∧ e.graph.addressOf p.line.offset = addr))

namespace Machine

variable {L : UnitLaw} {m n : Machine} {arrivals : List (List Command)} {remaining left k : Nat}

/-! ## The table of breakpoints -/

/-- Units guard a table without repetition. -/
def Guards (L : UnitLaw) : Prop :=
  ∃ table : List Word, table.Nodup ∧ L = .guarded table

theorem Valid.addBreakpoint_guarded {table : List Word} (h : m.Valid (.guarded table))
    (hnodup : table.Nodup) (addr : Word) : ∃ L, Guards L ∧ (m.addBreakpoint addr).1.Valid L := by
  have htable : m.breakpoints = table := h.table
  have hshops : m.recompiler.shop.breakpoints = table := h.shop.table
  obtain heq | ⟨hnot, hdone, heq⟩ := m.addBreakpoint_cases addr <;> rw [heq]
  · exact ⟨_, ⟨table, hnodup, rfl⟩, h⟩
  · have hmem : addr ∉ table := htable ▸ hnot
    refine ⟨_, ⟨table ++ [addr], ?_, rfl⟩, ?_, ?_⟩
    · refine List.nodup_append.mpr ⟨hnodup, List.nodup_singleton addr, fun a ha b hb heq => ?_⟩
      cases List.mem_singleton.mp hb
      exact hmem (heq ▸ ha)
    · obtain ⟨-, hold⟩ | ⟨-, -, hset⟩ := m.recompiler.shop.addBreakpoint_cases addr
      · exact absurd (hshops ▸ hold hdone) hmem
      · rw [hset]
        exact h.shop.setBreakpoint trivial (congrArg (· ++ [addr]) hshops) fun u hu =>
          hu.addBreakpoint addr
    · exact congrArg (· ++ [addr]) htable

theorem Valid.removeBreakpoint_guarded {table : List Word} (h : m.Valid (.guarded table))
    (hnodup : table.Nodup) (addr : Word) :
    ∃ L, Guards L ∧ (m.removeBreakpoint addr).1.Valid L := by
  have htable : m.breakpoints = table := h.table
  have hshops : m.recompiler.shop.breakpoints = table := h.shop.table
  unfold Machine.removeBreakpoint
  split
  next hhas =>
    have hmem : addr ∈ table := htable ▸ List.contains_iff_mem.mp hhas
    have hperm := swapRemove_perm table addr
    have hremoved : ∀ v : CodeUnit, v.Guarded (table.erase addr) →
        v.Guarded (swapRemove table addr) := fun v hv =>
      ⟨hv.overlay, fun other hother => hv.known other (hperm.mem_iff.mp hother)⟩
    refine ⟨_, ⟨_, hperm.nodup_iff.mpr (hnodup.erase addr), rfl⟩, ?_, ?_⟩
    · refine h.shop.removeBreakpoint (fun hnot => absurd (hshops.symm ▸ hmem) hnot) trivial
        (fun _ => congrArg (swapRemove · addr) hshops) fun u hu => ?_
      split
      · exact hremoved _ (hu.removeBreakpoint hnodup addr)
      · exact hremoved _ ⟨hu.overlay, fun other hother =>
          hu.known other (List.mem_of_mem_erase hother)⟩
    · exact congrArg (swapRemove · addr) htable
  next => exact ⟨_, ⟨table, hnodup, rfl⟩, h⟩

theorem Reachable.guarded (h : m.Reachable) : m.Valid (.guarded m.breakpoints) := by
  obtain ⟨L, ⟨table, -, rfl⟩, hm⟩ := h.exists_law (F := Guards)
    (by
      rintro _ ⟨table, -, rfl⟩
      exact ⟨UnitLaw.fixed_guarded table, trivial⟩)
    (by
      rintro _ m addr ⟨table, hnodup, rfl⟩ hm
      exact hm.addBreakpoint_guarded hnodup addr)
    (by
      rintro _ m addr ⟨table, hnodup, rfl⟩ hm
      exact hm.removeBreakpoint_guarded hnodup addr)
    (fun _ => ⟨_, ⟨[], List.nodup_nil, rfl⟩, trivial, rfl⟩)
  have htable : m.breakpoints = table := hm.table
  rw [htable]
  exact hm

/-! ## The steps of a run -/

/-- The steps of a run of `m`: step `k` finds the machine `n`, with `left` cycles to go. -/
inductive Takes : List (List Command) → Machine → Nat → Nat → Machine → Nat → Prop
  | first {arrivals : List (List Command)} {m n : Machine} {remaining : Nat} (hr : remaining ≠ 0)
      (h : m.ready (arrivals.headD []) = .ok n) : Takes arrivals m remaining 0 n remaining
  | later {arrivals : List (List Command)} {m n n' : Machine} {remaining left k : Nat}
      (hr : remaining ≠ 0) (h : m.ready (arrivals.headD []) = .ok n)
      (hf : (n.stepOnce remaining).1.fatal.isSome = false)
      (hrest : Takes arrivals.tail (n.stepOnce remaining).1 (remaining - (n.stepOnce remaining).2) k
        n' left) : Takes arrivals m remaining (k + 1) n' left

theorem ready_keeps {commands : List Command} (h : m.ready commands = .ok n) :
    n.resumeFrom = m.resumeFrom := by
  obtain ⟨-, rfl, -⟩ := ready_eq_ok h
  have hsent : ∀ (commands : List Command) (m : Machine),
      (commands.foldl send m).resumeFrom = m.resumeFrom := by
    intro commands
    induction commands with
    | nil => exact fun _ => rfl
    | cons c commands ih => exact fun m => ih (m.send c)
  have hheard : (m.hear commands).resumeFrom = m.resumeFrom := by
    unfold hear
    dsimp only
    split <;> exact hsent commands m
  rw [← hheard]
  unfold catchUp
  split <;> rfl

theorem resumeFrom_stepOnce (m : Machine) (remaining : Nat) :
    (m.stepOnce remaining).1.resumeFrom = none := by
  have hone : m.interpretOne.resumeFrom = none := by
    unfold interpretOne
    dsimp only
    generalize (if m.cpu.control.interruptReady then m.syncInterrupts else m) = synced
    split <;> rfl
  have hrun : (m.interpretOne.runDispatched remaining).resumeFrom = none := by
    unfold runDispatched
    split
    · exact hone
    · dsimp only
      split <;> exact hone
  unfold stepOnce
  dsimp only
  generalize m.interpretOne.runDispatched remaining = n at hrun ⊢
  split
  · unfold fastForward
    dsimp only
    split <;> exact hrun
  · exact hrun

theorem Takes.valid (h : Takes arrivals m remaining k n left) (hrom : L.Fixed) (hm : m.Valid L) :
    n.Valid L := by
  induction h with
  | first _ hready => exact (lasting_valid hrom).of_ready hm hready
  | later _ hready _ _ ih => exact ih (((lasting_valid hrom).of_ready hm hready).stepOnce hrom _)

/-- No breakpoint is due at a step, and only the first step can be one that goes on from a
breakpoint. -/
theorem Takes.resumed (h : Takes arrivals m remaining k n left) :
    n.breakpointDue = false ∧ n.resumeFrom = if k = 0 then m.resumeFrom else none := by
  induction h with
  | first _ hready => exact ⟨(ready_eq_ok hready).2.2, ready_keeps hready⟩
  | later _ _ _ _ ih =>
    refine ⟨ih.1, ih.2.trans ?_⟩
    rw [resumeFrom_stepOnce, ite_self]
    rfl

def Arrives (n : Machine) (remaining : Nat) (a : Arrival) : Prop :=
  ∃ d, n.interpretOne.cpu.dispatch = some d ∧
    (n.interpretOne.recompiler.onShop fun shop =>
      { shop with breakout := n.interpretOne.handshake.breakout }).Arrives Session.ampleFuel
        { n.interpretOne.cpu with dispatch := none } n.interpretOne.mem d.target
        (d.ret.getD Recompiler.noReturn) (UInt64.ofNat remaining) a

theorem Arrives.valid {a : Arrival} (ha : n.Arrives remaining a) (hrom : L.Fixed) (hn : n.Valid L) :
    a.session.shop.Valid L a.session.mem := by
  obtain ⟨d, -, ha⟩ := ha
  have hshop : (n.interpretOne.recompiler.onShop fun shop =>
      { shop with breakout := n.interpretOne.handshake.breakout }).shop.Valid L n.interpretOne.mem :=
    hn.interpretOne.shop.of_units rfl rfl rfl rfl
  exact Recompiler.Arrives.valid hrom hshop ha

/-- A run executes the instruction at a breakpoint only in two ways.  It interprets it, in its first
step, after the machine has just stopped there; or the instruction is one of compiled code that
reaches beyond the range on record for its unit. -/
theorem run_through_only_out_of_range {m : Machine} (hm : m.Reachable)
    {arrivals : List (List Command)} {maxCycles k left : Nat} {n : Machine}
    (hstep : Takes arrivals m.acknowledge maxCycles k n left) {addr : Word}
    (haddr : addr ∈ m.breakpoints) :
    (n.cpu.pc = addr → k = 0 ∧ m.resumeFrom = some addr) ∧
    ∀ a x t, n.Arrives left a → a.session.admission a.target = .ok (x, t) → x.Operates addr →
      ∃ u, t.shop.registry.find? a.target = some u ∧ u.covers addr = false := by
  have hrom := UnitLaw.fixed_guarded m.breakpoints
  have hstart : m.acknowledge.Valid (.guarded m.breakpoints) := hm.guarded.of_mem rfl rfl (.refl _)
  have hn := hstep.valid hrom hstart
  have htable : n.breakpoints = m.breakpoints := hn.table
  constructor
  · intro hpc
    obtain ⟨hdue, hresume⟩ := hstep.resumed
    have hhere : n.breakpoints.contains n.cpu.pc = true := by
      rw [htable, hpc]
      exact List.contains_iff_mem.mpr haddr
    have hjust : n.resumeFrom = some addr := by
      unfold breakpointDue at hdue
      rw [hhere, Bool.true_and, bne_eq_false_iff_eq, hpc] at hdue
      exact hdue
    rw [hjust] at hresume
    by_cases hk : k = 0
    · rw [if_pos hk] at hresume
      exact ⟨hk, hresume.symm⟩
    · rw [if_neg hk] at hresume
      cases hresume
  · intro a x t ha hadmission _
    obtain ⟨u, hfind, hunguarded⟩ := Session.unguarded_admission (ha.valid hrom hn) hadmission
    exact ⟨u, hfind, hunguarded addr haddr⟩

def watched : Machine :=
  ((create plainConfig).addBreakpoint 0xBFC00000).1

def resumed : Machine :=
  (runWith [] watched 1).1.send .resume

theorem run_through_only_out_of_range_after_stop :
    ∃ n, resumed.Reachable ∧ Takes [] resumed.acknowledge 1 0 n 1 ∧
      0xBFC00000 ∈ resumed.breakpoints ∧ n.cpu.pc = 0xBFC00000 ∧
      resumed.resumeFrom = some 0xBFC00000 := by
  have hreachable : resumed.Reachable :=
    (((Reachable.create plainConfig).addBreakpoint 0xBFC00000).runWith [] 1).send .resume
  have htakes : Takes [] resumed.acknowledge 1 0 resumed.acknowledge 1 :=
    .first (by decide) (ready_of_quiet (by decide +kernel) (by decide +kernel) (by decide +kernel)
      (by decide +kernel))
  have hmem : 0xBFC00000 ∈ resumed.breakpoints := by decide +kernel
  have hpc : resumed.acknowledge.cpu.pc = 0xBFC00000 := by decide +kernel
  obtain ⟨-, hresume⟩ := (run_through_only_out_of_range hreachable htakes hmem).1 hpc
  exact ⟨_, hreachable, htakes, hmem, hpc, hresume⟩

def jumpLast : AddressSpace :=
  { AddressSpace.empty with scratch := (Bank.blank scratchWords).setWord 1 0x0BF00008 }

def narrow : Reach := { window := 2, block := 64 }

/-- What is analysed first leaves out the jump, which may then change unnoticed.  After the unit has
lost its caches it is analysed again.  The breakpoint of the table at the changed instruction is not
one of the unit's, which has code for it. -/
theorem breakpoint_behind_range :
    let before := (CodeUnit.create 0xBF800000 0 100).flow {} jumpLast narrow true []
    let changed := before.mem.write 0xBF800004 .word 0x24420010
    let after := before.unit.dropSoftCaches.flow before.analyzer changed narrow true [0xBF800004]
    changed.watch.raised = false ∧ after.unit.breakpoints = [] ∧
      ∃ g, after.graph = some g ∧
        (CodeSource.generate { graph := g, tags := after.mem.tags, config := plainConfig }
          .first).exe.Operates 0xBF800004 := by
  intro before changed after
  have hquiet : changed.watch.raised = false := by decide +kernel
  have hnone : after.unit.breakpoints = [] := by decide +kernel
  have hcode : (after.graph.any fun g =>
      (CodeSource.generate { graph := g, tags := after.mem.tags, config := plainConfig }
        .first).exe.Operates 0xBF800004) = true := by decide +kernel
  obtain ⟨g, hg, hoperates⟩ := (Option.any_eq_true _ _).mp hcode
  exact ⟨hquiet, hnone, g, hg, of_decide_eq_true hoperates⟩

end Machine

end R3000
