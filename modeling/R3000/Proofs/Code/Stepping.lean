import R3000.Proofs.Code.Layout
import R3000.Session.Run

/-!
# Running an executable block by block

`Executable.step` performs one operation of the main routine, a call of an auxiliary routine
included.  An executable that runs from the start of a block performs the code of that block in
order, whatever was moved out (`CodeSource.follows_step`); it leaves the block by its last
operation, by a branch that is not taken, or by an instruction that hands back.
-/

namespace R3000

namespace Executable

/-- What an operation of the main routine leads to: the end of the run, or the next operation and
the session it finds. -/
abbrev Turn := (Exit × Session) ⊕ (Nat × Session)

def start? (e : Executable) (block : Nat) : Option Nat :=
  e.routines[0]?.bind fun main => main.start? block

/-- What the result of the operation at `pc` leads to. -/
def turn (e : Executable) (enter : Entry) (pc : Nat) : OpResult × Session → Turn
  | (.flow .next, s) => .inr (pc + 1, s)
  | (.flow (.goto block), s) =>
    match e.start? block with
    | some start => .inr (start, s)
    | none => .inl (e.fault 0 pc (.host (.noCode block)), s)
  | (.flow (.call index), s) =>
    match e.callAux enter index s with
    | (none, s) => .inr (pc + 1, s)
    | (some exit, s) => .inl (exit, s)
  | (.flow (.exit target), s) => .inl (.returned target, s)
  | (.signal sig, s) => .inl (.left sig, s)
  | (.fault kind, s) => .inl (e.fault 0 pc kind, s)
  | (.unfinished, s) => .inl (.unfinished, s)

def step (e : Executable) (enter : Entry) (pc : Nat) (s : Session) : Turn :=
  match e.routines[0]? with
  | none => .inl (e.fault 0 0 (.host .noBody), s)
  | some main =>
    match main.ops[pc]? with
    | none => .inl (e.fault 0 pc (.host .ranOff), s)
    | some placed => e.turn enter pc (placed.op.perform enter s)

theorem run_succ (fuel : Nat) (e : Executable) (pc : Nat) (s : Session) :
    e.run (fuel + 1) pc s =
      match e.step (Session.enter (Executable.invoke fuel)) pc s with
      | .inl out => out
      | .inr (next, t) => e.run fuel next t := by
  rw [run, step]
  cases hmain : e.routines[0]? with
  | none => rfl
  | some main =>
    simp only
    cases main.ops[pc]? with
    | none => rfl
    | some placed =>
      have hinvoke : (fun callee ret (s : Session) =>
          ((run fuel callee 0 { s with ret }).1,
            { (run fuel callee 0 { s with ret }).2 with ret := s.ret })) =
              Executable.invoke fuel := rfl
      simp only [hinvoke]
      generalize placed.op.perform (Session.enter (Executable.invoke fuel)) s = out
      obtain ⟨r, t⟩ := out
      cases r with
      | flow f =>
        cases f with
        | next => rfl
        | goto block =>
          have hstart : e.start? block = main.start? block := by rw [start?, hmain]; rfl
          simp only [turn, hstart]
          cases main.start? block <;> rfl
        | call index =>
          simp only [turn]
          generalize e.callAux (Session.enter (Executable.invoke fuel)) index t = out
          obtain ⟨exit, u⟩ := out
          cases exit <;> rfl
        | exit target => rfl
      | signal sig => rfl
      | fault kind => rfl
      | unfinished => rfl

inductive Concludes (e : Executable) (line : Line) : OpResult → Exit → Prop
  | exit (target : Word) : Concludes e line (.flow (.exit target)) (.returned target)
  | signal (sig : Signal) : Concludes e line (.signal sig) (.left sig)
  | fault {site : Site} (kind : FaultKind) (h : e.line? site = some line) :
      Concludes e line (.fault kind) (.left (.fault { exe := e, site, kind }))
  | unfinished : Concludes e line .unfinished .unfinished

/-- What follows at `pc` once operations have come as far as they could. -/
inductive Follows (e : Executable) (pc : Nat) : Progress → Turn → Prop
  | next (t : Session) : Follows e pc (none, t) (.inr (pc + 1, t))
  | goto {line : Line} {block start : Nat} (t : Session) (h : e.start? block = some start) :
      Follows e pc (some (line, .flow (.goto block)), t) (.inr (start, t))
  | lost {line : Line} {block : Nat} (t : Session) (h : e.start? block = none) :
      Follows e pc (some (line, .flow (.goto block)), t)
        (.inl (e.fault 0 pc (.host (.noCode block)), t))
  | exit {line : Line} {result : OpResult} {exit : Exit} (t : Session)
      (h : e.Concludes line result exit) : Follows e pc (some (line, result), t) (.inl (exit, t))

end Executable

/-! ## Results of operations -/

namespace CodeOp

variable {op : CodeOp} (enter : Entry) (s : Session)

def usesEntry : CodeOp → Bool
  | .jump _ | .finishCall .. | .finishChoice .. | .finishIndirect .. => true
  | _ => false

def isFinal : CodeOp → Bool
  | .goto _ | .resume _ | .jump _ | .returnFromException => true
  | .finishCall .. | .finishChoice .. | .finishJump .. | .finishIndirect .. => true
  | _ => false

theorem usesEntry_of_inner (h : op.inner = true) : op.usesEntry = false := by
  cases op <;> first | rfl | exact absurd h Bool.false_ne_true

theorem perform_of_not_usesEntry (h : op.usesEntry = false) (enter enter' : Entry) (s : Session) :
    op.perform enter s = op.perform enter' s := by
  cases op <;> first | rfl | exact absurd h.symm Bool.false_ne_true

/-- What becomes of a branch: never the next operation, never a routine, never a fault. -/
structure Leaves (r : OpResult) : Prop where
  ne_next : r ≠ .flow .next
  ne_call : ∀ index, r ≠ .flow (.call index)
  ne_fault : ∀ kind, r ≠ .fault kind

theorem leaves_toResult (exit : Exit) : Leaves exit.toResult := by
  cases exit <;> exact ⟨nofun, nofun, nofun⟩

theorem leaves_jumpOut (target : Word) : Leaves (s.jumpOut enter target).1 :=
  leaves_toResult _

theorem leaves_gotoOr (block : Option Nat) (addr : Word) :
    Leaves (s.gotoOr enter block addr).1 := by
  cases block with
  | none => exact leaves_jumpOut enter s addr
  | some b => exact ⟨nofun, nofun, nofun⟩

theorem leaves_finishCall (ret : Word) (after : Option Nat) :
    Leaves (s.finishCall enter ret after).1 := by
  unfold Session.finishCall
  split
  · simp only
    split
    · split
      · exact leaves_gotoOr _ _ _ _
      · exact leaves_jumpOut _ _ _
    · exact leaves_toResult _
  · exact leaves_gotoOr _ _ _ _

theorem leaves_unlessChanged {s : Session} {ret : Word} {slotStores : Bool}
    {go : Session → OpResult × Session} (h : Leaves (go s).1) :
    Leaves (s.unlessChanged ret slotStores go).1 := by
  unfold Session.unlessChanged
  split
  · exact ⟨nofun, nofun, nofun⟩
  · exact h

theorem leaves_of_isFinal (h : op.isFinal = true) (enter : Entry) (s : Session) :
    Leaves (op.perform enter s).1 := by
  cases op with
  | goto block => exact ⟨nofun, nofun, nofun⟩
  | resume pc => exact ⟨nofun, nofun, nofun⟩
  | jump target => exact leaves_jumpOut enter s target
  | returnFromException => exact ⟨nofun, nofun, nofun⟩
  | finishCall ret slotStores after => exact leaves_unlessChanged (leaves_finishCall _ _ _ _)
  | finishChoice ret slotStores taken notTaken => exact leaves_unlessChanged (leaves_gotoOr _ _ _ _)
  | finishJump ret slotStores block => exact leaves_unlessChanged ⟨nofun, nofun, nofun⟩
  | finishIndirect ret slotStores => exact leaves_unlessChanged (leaves_jumpOut _ _ _)
  | _ => exact absurd h Bool.false_ne_true

theorem perform_inner (h : op.inner = true) (enter : Entry) (s : Session) :
    (op.perform enter s).1 = .flow .next ∨ (∃ sig, (op.perform enter s).1 = .signal sig) ∨
      ∃ kind, (op.perform enter s).1 = .fault kind := by
  cases op with
  | micro m outstanding =>
    obtain ⟨e, he⟩ := m.exists_effect s
    have hm := he.perform_eq s.regs (fun _ _ => rfl) rfl rfl
    have hp : m.perform s = e.on s := hm
    simp only [perform, hp]
    rcases he.result_cases with hr | ⟨sig, hr⟩ | ⟨kind, hr⟩
    · left
      simp only [Effect.on, hr]
    · exact Or.inr (Or.inl ⟨sig, by simp only [Effect.on, hr]⟩)
    · exact Or.inr (Or.inr ⟨kind, by simp only [Effect.on, hr]⟩)
  | write values => exact Or.inl rfl
  | resume pc => exact Or.inr (Or.inl ⟨_, rfl⟩)
  | trace pc i => exact Or.inl rfl
  | _ => exact absurd h Bool.false_ne_true

theorem isAux_of_call {enter : Entry} {s : Session} {index : UInt16}
    (h : (op.perform enter s).1 = .flow (.call index)) : op.isAux = true := by
  by_cases hfinal : op.isFinal = true
  · exact absurd h ((leaves_of_isFinal hfinal enter s).ne_call index)
  · by_cases hinner : op.inner = true
    · rcases perform_inner hinner enter s with e | ⟨sig, e⟩ | ⟨kind, e⟩ <;>
        rw [e] at h <;> cases h
    · cases op with
      | aux index => rfl
      | blockEntry pc cycles check =>
        rcases perform_blockEntry_cases enter pc cycles check s with hp | hp | hp <;>
          rw [hp] at h <;> cases h
      | evalBranch i pc notTaken =>
        simp only [perform, Session.evalBranch_eq] at h
        cases notTaken with
        | none => cases h
        | some block =>
          simp only at h
          split at h <;> cases h
      | exit target => cases h
      | next => cases h
      | micro | write | resume | trace => exact absurd rfl hinner
      | _ => exact absurd rfl hfinal

end CodeOp

/-! ## One operation -/

namespace Executable

variable {e : Executable} (enter : Entry) {pc : Nat} {r : Routine} {index : UInt16}

/-- A routine of operations that neither transfer control nor enter other code comes to its end or
leaves by the operation that did not go on. -/
theorem runAux_spec (hr : e.routines[index.toNat]? = some r)
    (hinner : ∀ p ∈ r.ops.toList, p.op.inner = true) {ops : List PlacedOp}
    (hops : r.ops.toList.drop pc = ops) (s : Session) :
    match PlacedOp.performAll enter ops s with
    | (none, t) => e.runAux enter index pc ops s = (none, t)
    | (some (line, result), t) =>
      ∃ exit, e.runAux enter index pc ops s = (some exit, t) ∧ e.Concludes line result exit := by
  induction ops generalizing pc s with
  | nil => rfl
  | cons p ops ih =>
    have hget : r.ops[pc]? = some p := by
      rw [← Array.getElem?_toList, ← List.head?_drop, hops]
      rfl
    have hline : e.line? { routine := index, op := pc } = some p.line := by
      unfold line?
      simp only [hr, hget, Option.bind_some, Option.bind_eq_bind, Option.pure_def]
    have hmem : p ∈ r.ops.toList := List.mem_of_getElem? (Array.getElem?_toList.trans hget)
    have hdrop : r.ops.toList.drop (pc + 1) = ops := by
      rw [← List.drop_drop, hops]
      rfl
    unfold PlacedOp.performAll PlacedOp.perform runAux
    generalize hout : p.op.perform enter s = out
    have hcases := CodeOp.perform_inner (hinner p hmem) enter s
    rw [hout] at hcases
    obtain ⟨result, t⟩ := out
    rcases hcases with rfl | ⟨sig, rfl⟩ | ⟨kind, rfl⟩
    · exact ih hdrop t
    · exact ⟨_, rfl, .signal sig⟩
    · exact ⟨_, rfl, .fault kind hline⟩

theorem runAux_congr {l : List PlacedOp} (h : ∀ p ∈ l, p.op.usesEntry = false)
    (enter enter' : Entry) {s : Session} :
    e.runAux enter index pc l s = e.runAux enter' index pc l s := by
  induction l generalizing pc s with
  | nil => rfl
  | cons p l ih =>
    unfold runAux
    rw [CodeOp.perform_of_not_usesEntry (h p List.mem_cons_self) enter enter']
    generalize p.op.perform enter' s = out
    obtain ⟨result, t⟩ := out
    cases result with
    | flow f =>
      cases f with
      | next => exact ih fun q hq => h q (List.mem_cons_of_mem p hq)
      | _ => rfl
    | _ => rfl

variable {main : Routine} (hmain : e.routines[0]? = some main)
include hmain

theorem follows_aux {line : Line} (hop : main.ops[pc]? = some { line, op := .aux index })
    (hr : e.routines[index.toNat]? = some r) (hinner : ∀ p ∈ r.ops.toList, p.op.inner = true)
    (s : Session) :
    e.Follows pc (PlacedOp.performAll enter r.ops.toList s) (e.step enter pc s) := by
  have haux := runAux_spec enter hr hinner List.drop_zero s
  unfold step
  simp only [hmain, hop, CodeOp.perform, turn, callAux, hr]
  generalize PlacedOp.performAll enter r.ops.toList s = out at haux ⊢
  obtain ⟨stop, t⟩ := out
  cases stop with
  | none =>
    simp only at haux
    rw [haux]
    exact .next t
  | some stop =>
    obtain ⟨exit, hcall, hc⟩ := haux
    rw [hcall]
    exact .exit t hc

theorem follows_op {p : PlacedOp} (hop : main.ops[pc]? = some p)
    (hcall : ∀ s index, (p.op.perform enter s).1 ≠ .flow (.call index)) (s : Session) :
    e.Follows pc (PlacedOp.performAll enter [p] s) (e.step enter pc s) := by
  have hline : e.line? { routine := 0, op := pc } = some p.line := by
    have hzero : e.routines[(0 : UInt16).toNat]? = some main := hmain
    unfold line?
    simp only [hzero, hop, Option.bind_some, Option.bind_eq_bind, Option.pure_def]
  have hcall := hcall s
  rw [PlacedOp.performAll_singleton]
  unfold step PlacedOp.perform
  simp only [hmain, hop]
  generalize p.op.perform enter s = out at hcall ⊢
  obtain ⟨result, t⟩ := out
  cases result with
  | flow f =>
    cases f with
    | next => exact .next t
    | goto block =>
      simp only [Progress.ofResult, turn]
      cases h : e.start? block with
      | none => exact .lost t h
      | some start => exact .goto t h
    | call index => exact absurd rfl (hcall index)
    | exit target => exact .exit t (.exit target)
  | signal sig => exact .exit t (.signal sig)
  | fault kind => exact .exit t (.fault kind hline)
  | unfinished => exact .exit t .unfinished

theorem step_congr_op {p : PlacedOp} (hop : main.ops[pc]? = some p) (huses : p.op.usesEntry = false)
    (haux : p.op.isAux = false) (enter enter' : Entry) (s : Session) :
    e.step enter pc s = e.step enter' pc s := by
  unfold step
  simp only [hmain, hop]
  rw [CodeOp.perform_of_not_usesEntry huses enter enter']
  -- what is called, if anything, is the same too
  have hcall : ∀ index, (p.op.perform enter' s).1 ≠ .flow (.call index) := fun index h =>
    Bool.false_ne_true (haux.symm.trans (CodeOp.isAux_of_call h))
  generalize p.op.perform enter' s = out at hcall ⊢
  obtain ⟨result, t⟩ := out
  cases result with
  | flow f =>
    cases f with
    | call index => exact absurd rfl (hcall index)
    | _ => rfl
  | _ => rfl

end Executable

/-! ## The code of a block -/

namespace CodeSource

open Emitter

variable (src : CodeSource) (stage : Stage) {k : Nat} {p : PlacedOp} (id : Nat)

def expansion (id : Nat) (p : PlacedOp) : List PlacedOp :=
  if p.op.isAux then (src.blockBody stage id).code else [p]

theorem expansion_aux (line : Line) (index : UInt16) :
    src.expansion stage id { line, op := .aux index } = (src.blockBody stage id).code := by
  unfold expansion
  exact if_pos rfl

theorem expansion_blockHead : src.expansion stage id (src.blockHead id) = [src.blockHead id] := by
  unfold expansion
  exact if_neg Bool.false_ne_true

theorem flatMap_expansion_of_not_aux {l : List PlacedOp} (h : ∀ p ∈ l, p.op.isAux = false) :
    l.flatMap (src.expansion stage id) = l := by
  induction l with
  | nil => rfl
  | cons p l ih =>
    rw [List.flatMap_cons, ih fun q hq => h q (List.mem_cons_of_mem p hq), expansion,
      h p List.mem_cons_self]
    rfl

theorem flatMap_expansion :
    (src.mainOps stage id).flatMap (src.expansion stage id) = src.blockCode stage id := by
  have hbody := src.not_aux_blockBody stage id
  have htail := src.not_aux_blockTail stage id
  unfold mainOps mainCode
  by_cases hreal : (src.graph.block id).isReal = true
  · rw [src.blockCode_of_real stage hreal, if_pos hreal]
    by_cases hm : src.moves src.plan id = true
    · rw [if_pos hm, List.flatMap_cons, List.flatMap_cons, expansion_blockHead, expansion_aux,
        src.flatMap_expansion_of_not_aux stage id htail]
      rfl
    · rw [if_neg hm, List.flatMap_cons, List.flatMap_append, expansion_blockHead,
        src.flatMap_expansion_of_not_aux stage id hbody,
        src.flatMap_expansion_of_not_aux stage id htail]
      rfl
  · rw [Bool.not_eq_true] at hreal
    rw [src.blockCode_of_wrapper stage hreal, if_neg (Bool.eq_false_iff.mp hreal)]
    rfl

theorem isFinal_fallThrough (b : Block) : (src.fallThrough b).isFinal = true := by
  unfold fallThrough
  split <;> rfl

theorem isFinal_finish (b : Block) (branch : Nat) : (src.finish b branch).isFinal = true := by
  unfold finish
  simp only
  split
  · rfl
  · split
    · rfl
    · split
      · rfl
      · split <;> rfl

theorem exists_tail_split : ∃ init last, (src.blockTail stage id).code = init ++ [last] ∧
    (∀ p ∈ init, p.op.usesEntry = false) ∧ last.op.isFinal = true := by
  have haside : ∀ (_ : Line) (op : CodeOp), op.aside = true → op.usesEntry = false :=
    fun _ _ h => CodeOp.usesEntry_of_inner (CodeOp.inner_of_aside h)
  have hfresh : (fresh (src.blockBody stage id).writeback).All (·.op.usesEntry = false) :=
    all_fresh _
  unfold blockTail
  cases hb : (src.graph.block id).branch with
  | none =>
    rw [emitTail_of_none _ _ hb, code_push]
    exact ⟨_, _, rfl, hfresh.flush haside _, src.isFinal_fallThrough _⟩
  | some branch =>
    rw [emitTail_of_branch _ _ hb, emitBranch_eq, code_push]
    have hslot : (src.emitSlot (src.emitTest (fresh (src.blockBody stage id).writeback)
        (src.graph.block id) branch) branch).All (·.op.usesEntry = false) :=
      hfresh.emitSlot haside src rfl fun _ _ => rfl
    exact ⟨_, _, rfl, hslot.flush haside _, src.isFinal_finish _ _⟩

theorem inner_blockBody : (src.blockBody stage id).All (·.op.inner = true) :=
  (all_fresh _).emitInstrs (fun _ _ h => CodeOp.inner_of_aside h) src fun _ _ _ _ => rfl

theorem exists_mainOps_split : ∃ init last, src.mainOps stage id = init ++ [last] ∧
    (∀ p ∈ init.flatMap (src.expansion stage id), p.op.usesEntry = false) ∧
    last.op.isFinal = true := by
  have hbody : ∀ p ∈ (src.blockBody stage id).code, p.op.usesEntry = false := fun p hp =>
    CodeOp.usesEntry_of_inner (src.inner_blockBody stage id p hp)
  obtain ⟨init, last, hcode, hinit, hlast⟩ := src.exists_tail_split stage id
  unfold mainOps mainCode
  by_cases hreal : (src.graph.block id).isReal = true
  · simp only [if_pos hreal]
    have haux : ∀ p ∈ init, p.op.isAux = false := fun p hp =>
      src.not_aux_blockTail stage id p (hcode ▸ List.mem_append_left _ hp)
    have hhead : ∀ p ∈ src.blockHead id :: ((src.blockBody stage id).code ++ init),
        p.op.usesEntry = false :=
      List.forall_mem_cons.mpr ⟨rfl, List.forall_mem_append.mpr ⟨hbody, hinit⟩⟩
    by_cases hm : src.moves src.plan id = true
    · rw [if_pos hm, hcode]
      refine ⟨_ :: _ :: init, last, rfl, fun p hp => hhead p ?_, hlast⟩
      rwa [List.flatMap_cons, List.flatMap_cons, expansion_blockHead, expansion_aux,
        src.flatMap_expansion_of_not_aux stage id haux] at hp
    · rw [if_neg hm, hcode, ← List.append_assoc]
      refine ⟨_ :: ((src.blockBody stage id).code ++ init), last, rfl, fun p hp => hhead p ?_, hlast⟩
      rwa [List.flatMap_cons, List.flatMap_append, expansion_blockHead,
        src.flatMap_expansion_of_not_aux stage id (src.not_aux_blockBody stage id),
        src.flatMap_expansion_of_not_aux stage id haux] at hp
  · simp only [if_neg hreal]
    exact ⟨[], _, rfl, fun p hp => absurd hp List.not_mem_nil, rfl⟩

def Addressable (e : Executable) : Prop :=
  e.auxCount < 0x10000

instance (e : Executable) : Decidable (Addressable e) :=
  inferInstanceAs (Decidable (e.auxCount < 0x10000))

theorem exists_aux_routine (haddr : Addressable (src.generate stage).exe) {id : Nat}
    (hid : id < src.graph.blocks.size) (hp : (src.mainOps stage id)[k]? = some p)
    (haux : p.op.isAux = true) :
    ∃ line index, p = { line, op := .aux index } ∧
      (src.generate stage).exe.routines[index.toNat]? = some (src.blockBody stage id).routine := by
  have hmem := List.mem_of_getElem? hp
  have hnot : ∀ {l : List PlacedOp}, (∀ q ∈ l, q.op.isAux = false) → p ∉ l :=
    fun hl hmem => Bool.false_ne_true ((hl p hmem).symm.trans haux)
  have hhead : p ≠ src.blockHead id := by
    rintro rfl
    exact absurd haux Bool.false_ne_true
  unfold mainOps mainCode at hmem
  simp only at hmem
  split at hmem
  next hreal =>
    split at hmem
    next hm =>
      rcases List.mem_cons.mp hmem with e | hmem
      · exact absurd e hhead
      · rcases List.mem_cons.mp hmem with e | hmem
        · refine ⟨_, _, e, ?_⟩
          have hlt := src.movedBefore_lt stage hid hreal hm
          have hindex : (UInt16.ofNat (src.movedBefore stage id + 1)).toNat =
              src.movedBefore stage id + 1 := by
            unfold Addressable at haddr
            rw [UInt16.toNat_ofNat']
            exact Nat.mod_eq_of_lt (by omega)
          rw [hindex]
          exact src.routine_of_moves stage hid hreal hm
        · exact absurd hmem (hnot (src.not_aux_blockTail stage id))
    next hm =>
      rcases List.mem_cons.mp hmem with e | hmem
      · exact absurd e hhead
      · rcases List.mem_append.mp hmem with hmem | hmem
        · exact absurd hmem (hnot (src.not_aux_blockBody stage id))
        · exact absurd hmem (hnot (src.not_aux_blockTail stage id))
  next hreal =>
    rw [List.mem_singleton.mp hmem] at haux
    exact absurd haux Bool.false_ne_true

theorem follows_step (haddr : Addressable (src.generate stage).exe) {id : Nat}
    (hid : id < src.graph.blocks.size) (hp : (src.mainOps stage id)[k]? = some p) (enter : Entry)
    (s : Session) :
    (src.generate stage).exe.Follows (src.startOf stage id + k)
      (PlacedOp.performAll enter (src.expansion stage id p) s)
      ((src.generate stage).exe.step enter (src.startOf stage id + k) s) := by
  have hmain := src.routines_zero stage
  have hop := src.ops_mainRoutine stage hid hp
  by_cases haux : p.op.isAux = true
  · obtain ⟨line, index, rfl, hr⟩ := src.exists_aux_routine stage haddr hid hp haux
    rw [expansion_aux]
    exact Executable.follows_aux enter hmain hop hr (src.inner_blockBody stage id) s
  · unfold expansion
    rw [if_neg haux]
    exact Executable.follows_op enter hmain hop (fun s index h => haux (CodeOp.isAux_of_call h)) s

theorem step_congr (haddr : Addressable (src.generate stage).exe) {id : Nat}
    (hid : id < src.graph.blocks.size) (hp : (src.mainOps stage id)[k]? = some p)
    (huses : ∀ q ∈ src.expansion stage id p, q.op.usesEntry = false) (enter enter' : Entry)
    (s : Session) :
    (src.generate stage).exe.step enter (src.startOf stage id + k) s =
      (src.generate stage).exe.step enter' (src.startOf stage id + k) s := by
  have hmain := src.routines_zero stage
  have hop := src.ops_mainRoutine stage hid hp
  by_cases haux : p.op.isAux = true
  · obtain ⟨line, index, rfl, hr⟩ := src.exists_aux_routine stage haddr hid hp haux
    rw [expansion_aux] at huses
    unfold Executable.step
    simp only [hmain, hop, CodeOp.perform, Executable.turn, Executable.callAux, hr]
    rw [Executable.runAux_congr (l := (src.blockBody stage id).routine.ops.toList) huses enter enter']
  · have hone : p.op.usesEntry = false := by
      apply huses
      unfold expansion
      rw [if_neg haux]
      exact List.mem_singleton.mpr rfl
    exact Executable.step_congr_op hmain hop hone (Bool.eq_false_iff.mpr haux) enter enter' s

/-! ## Inside a block -/

/-- A run that entered a block with session `s` has performed its first `k` operations, and none
of them left the block. -/
structure Within (id : Nat) (s : Session) (k : Nat) (t : Session) : Prop where
  lt : k < (src.mainOps stage id).length
  performed : ∀ enter, PlacedOp.performAll enter
    (((src.mainOps stage id).take k).flatMap (src.expansion stage id)) s = (none, t)

theorem Within.start (s : Session) : src.Within stage id s 0 s :=
  ⟨List.length_pos_iff.mpr (src.mainOps_ne_nil stage id), fun _ => rfl⟩

theorem performAll_of_not_usesEntry {l : List PlacedOp} (h : ∀ p ∈ l, p.op.usesEntry = false)
    (enter enter' : Entry) (s : Session) :
    PlacedOp.performAll enter l s = PlacedOp.performAll enter' l s := by
  induction l generalizing s with
  | nil => rfl
  | cons p l ih =>
    unfold PlacedOp.performAll PlacedOp.perform
    rw [CodeOp.perform_of_not_usesEntry (h p List.mem_cons_self) enter enter']
    congr 1
    funext t
    exact ih (fun q hq => h q (List.mem_cons_of_mem p hq)) t

theorem performAll_final (h : p.op.isFinal = true) (enter : Entry) (s t : Session) :
    PlacedOp.performAll enter [p] s ≠ (none, t) := by
  rw [PlacedOp.performAll_singleton]
  unfold PlacedOp.perform
  have hleaves := (CodeOp.leaves_of_isFinal h enter s).ne_next
  generalize p.op.perform enter s = out at hleaves ⊢
  obtain ⟨r, u⟩ := out
  rw [Progress.ofResult_stop _ hleaves]
  exact nofun

theorem expansion_final (h : p.op.isFinal = true) (id : Nat) : src.expansion stage id p = [p] := by
  have haux : p.op.isAux = false := by
    cases hop : p.op <;> rw [hop] at h <;> first | rfl | exact absurd h Bool.false_ne_true
  unfold expansion
  rw [haux, if_neg Bool.false_ne_true]

theorem not_final_of_next {id : Nat} {enter : Entry} {t u : Session}
    (h : PlacedOp.performAll enter (src.expansion stage id p) t = (none, u)) :
    p.op.isFinal = false := by
  apply Bool.eq_false_iff.mpr
  intro hlast
  rw [src.expansion_final stage hlast] at h
  exact performAll_final hlast enter t u h

theorem lt_of_not_final {id : Nat} (hp : (src.mainOps stage id)[k]? = some p)
    (hfinal : p.op.isFinal = false) :
    k + 1 < (src.mainOps stage id).length ∧
      ∀ q ∈ src.expansion stage id p, q.op.usesEntry = false := by
  obtain ⟨init, last, hsplit, hinit, hlast⟩ := src.exists_mainOps_split stage id
  have hk := (List.getElem?_eq_some_iff.mp hp).1
  rw [hsplit, List.length_append, List.length_singleton] at hk ⊢
  rw [hsplit] at hp
  have hlt : k < init.length := by
    apply Decidable.byContradiction
    intro hge
    rw [List.getElem?_append_right (by omega), show k - init.length = 0 by omega] at hp
    cases Option.some.inj hp
    rw [hlast] at hfinal
    cases hfinal
  rw [List.getElem?_append_left hlt] at hp
  exact ⟨by omega, fun q hq =>
    hinit q (List.mem_flatMap.mpr ⟨p, List.mem_of_getElem? hp, hq⟩)⟩

namespace Within

variable {src stage} {id k : Nat} {s t : Session} (h : src.Within stage id s k t)
include h

theorem performAll_take (hp : (src.mainOps stage id)[k]? = some p) (enter : Entry) :
    PlacedOp.performAll enter
      (((src.mainOps stage id).take (k + 1)).flatMap (src.expansion stage id)) s =
        PlacedOp.performAll enter (src.expansion stage id p) t := by
  have htake : (src.mainOps stage id).take (k + 1) = (src.mainOps stage id).take k ++ [p] := by
    rw [List.take_add_one, hp]
    rfl
  rw [htake, List.flatMap_append, PlacedOp.performAll_append, h.performed,
    Progress.andThen_none, List.flatMap_singleton]

theorem stop (hp : (src.mainOps stage id)[k]? = some p) {enter : Entry} {stop : Line × OpResult}
    {u : Session} (hq : PlacedOp.performAll enter (src.expansion stage id p) t = (some stop, u)) :
    PlacedOp.performAll enter (src.blockCode stage id) s = (some stop, u) := by
  rw [← src.flatMap_expansion stage id, ← List.take_append_drop (k + 1) (src.mainOps stage id),
    List.flatMap_append, PlacedOp.performAll_append, h.performAll_take hp, hq]
  rfl

theorem next (hp : (src.mainOps stage id)[k]? = some p) {enter : Entry} {u : Session}
    (hq : PlacedOp.performAll enter (src.expansion stage id p) t = (none, u)) :
    src.Within stage id s (k + 1) u := by
  obtain ⟨hlt, huses⟩ := src.lt_of_not_final stage hp (src.not_final_of_next stage hq)
  refine ⟨hlt, fun enter' => ?_⟩
  rw [h.performAll_take hp, performAll_of_not_usesEntry huses enter' enter, hq]

theorem step (haddr : Addressable (src.generate stage).exe) (hid : id < src.graph.blocks.size)
    (enter : Entry) :
    (∃ u, (src.generate stage).exe.step enter (src.startOf stage id + k) t =
        .inr (src.startOf stage id + (k + 1), u) ∧ src.Within stage id s (k + 1) u) ∨
      ∃ stop u, PlacedOp.performAll enter (src.blockCode stage id) s = (some stop, u) ∧
        (src.generate stage).exe.Follows (src.startOf stage id + k) (some stop, u)
          ((src.generate stage).exe.step enter (src.startOf stage id + k) t) := by
  obtain ⟨p, hp⟩ : ∃ p, (src.mainOps stage id)[k]? = some p := ⟨_, List.getElem?_eq_getElem h.lt⟩
  have hstep := src.follows_step stage haddr hid hp enter t
  generalize hq : PlacedOp.performAll enter (src.expansion stage id p) t = q at hstep
  obtain ⟨stop, u⟩ := q
  cases stop with
  | some stop => exact Or.inr ⟨stop, u, h.stop hp hq, hstep⟩
  | none =>
    refine Or.inl ⟨u, ?_, h.next hp hq⟩
    generalize (src.generate stage).exe.step enter (src.startOf stage id + k) t = turn at hstep
    cases hstep
    rfl

end Within

end CodeSource

namespace Executable

/-- The operations that a run from the first one can come to, and the sessions they find.  Each
time other code is entered it may leave anything behind. -/
inductive Visits (e : Executable) (s : Session) : Nat → Session → Prop
  | start : Visits e s 0 s
  | step {pc next : Nat} {t u : Session} (enter : Entry) (h : Visits e s pc t)
      (hstep : e.step enter pc t = .inr (next, u)) : Visits e s next u

end Executable

end R3000
