import R3000.Proofs.Unit.Table

/-!
# Operations on the recompiler

Breakpoints are set and removed, units are looked up and analysed, compiled code runs, waiting jobs are
done and what was compiled is dropped, in any order.  What every operation keeps holds after all of
them (`Recompiler.operated_induction`).  So it is with the breakpoint table, which the units agree with
at any time.
-/

namespace R3000

namespace Recompiler

/-- What is done with a recompiler.  Processor and memory are what they are at that moment. -/
inductive Operation
  | addBreakpoint (addr : Word)
  | removeBreakpoint (addr : Word)
  | unitFor (target : Word)
  | flow (m : AddressSpace) (base : Word) (trusted : Bool)
  | execute (fuel : Nat) (cpu : Cpu) (m : AddressSpace) (target ret : Word) (budget : UInt64)
  | work (m : AddressSpace) (limit : Nat)
  | clearCache

def after (r : Recompiler) : Operation → Recompiler
  | .addBreakpoint addr => r.onShop fun w => (w.addBreakpoint addr).1
  | .removeBreakpoint addr => r.onShop fun w => (w.removeBreakpoint addr).1
  | .unitFor target => r.onShop fun w => ((w.unitFor target).map Prod.snd).getD w
  | .flow m base trusted => r.onShop fun w => (w.flow m base trusted).shop
  | .execute fuel cpu m target ret budget => (r.executeWith fuel cpu m target ret budget).recompiler
  | .work m limit => (r.work m limit).1
  | .clearCache => r.onShop Workshop.clearCache

def operated (r : Recompiler) (ops : List Operation) : Recompiler :=
  ops.foldl after r

theorem operated_concat (r : Recompiler) (ops : List Operation) (op : Operation) :
    r.operated (ops ++ [op]) = (r.operated ops).after op :=
  List.foldl_concat ..

theorem operated_induction {P : Recompiler → Prop} (hstep : ∀ r op, P r → P (r.after op))
    {r : Recompiler} (h : P r) (ops : List Operation) : P (r.operated ops) := by
  induction ops generalizing r with
  | nil => exact h
  | cons op ops ih => exact ih (hstep r op h)

variable {r : Recompiler}

theorem tabled_after (h : ∀ m, r.shop.Tabled m) (op : Operation) (m : AddressSpace) :
    (r.after op).shop.Tabled m := by
  cases op with
  | addBreakpoint addr => exact (h m).addBreakpoint addr
  | removeBreakpoint addr => exact (h m).removeBreakpoint addr
  | unitFor target =>
    change (((r.shop.unitFor target).map Prod.snd).getD r.shop).Tabled m
    unfold Workshop.unitFor
    split
    · exact (h m).of_valid ((h m).valid.unitAt target).1
    · exact h m
  | flow m' base trusted =>
    have hsound := ((h m').valid.flow base trusted).1
    exact ((h m').of_valid hsound.valid).elsewhere m
  | execute fuel cpu m' target ret budget =>
    have hvalid := valid_executeWith (UnitLaw.fixed_agreeing _) (h m').valid fuel cpu target ret budget
    exact ((h m').of_valid hvalid).elsewhere m
  | work m' limit =>
    have hsound := (h m').valid.pump trivial limit
    exact ((h m').of_valid hsound.valid).elsewhere m
  | clearCache => exact (h m).of_valid ((h m).valid.clearCache (UnitLaw.fixed_agreeing _) m)

/-- After any operations, the breakpoints of a unit with a range are the entries of the table in that
range.  The table has at most 64 entries, each once; it refuses a new one just when it is full, and
then nothing changes. -/
theorem breakpoints_agree (config : Config) (ops : List Operation) :
    let r := (create config).operated ops
    let table := r.shop.breakpoints
    (∀ base u stop, r.shop.registry.find? base = some u → u.stop? = some stop →
        u.breakpoints.Perm (table.filter fun addr => base ≤ addr ∧ addr < stop)) ∧
      table.Nodup ∧ table.length ≤ 64 ∧
      ∀ addr, ((r.shop.addBreakpoint addr).2 = some .breakpointTableFull ↔
          addr ∉ table ∧ table.length = 64) ∧
        ((r.shop.addBreakpoint addr).2 = some .breakpointTableFull →
          r.after (.addBreakpoint addr) = r) := by
  intro r table
  have htabled : ∀ m, r.shop.Tabled m :=
    operated_induction (P := fun r => ∀ m, r.shop.Tabled m) (fun _ op h => tabled_after h op)
      (Workshop.tabled_create config) ops
  have h := htabled AddressSpace.empty
  refine ⟨fun base u stop hfind hstop => ?_, h.nodup, h.bounded, fun addr => ⟨?_, fun hfull => ?_⟩⟩
  · obtain ⟨hbase, hagrees⟩ := h.valid.units base u hfind
    exact hbase ▸ CodeUnit.Agrees.perm_filter hagrees h.nodup hstop
  · exact h.addBreakpoint_refused_iff addr
  · change { r with shop := (r.shop.addBreakpoint addr).1 } = r
    obtain ⟨hsame, -⟩ | ⟨-, -, hset⟩ := r.shop.addBreakpoint_cases addr
    · rw [hsame]
    · rw [hset] at hfull
      cases hfull

end Recompiler

end R3000
