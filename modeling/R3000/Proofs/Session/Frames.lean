import R3000.Proofs.Session.Exits
import R3000.Proofs.Session.Return

/-!
# Calls return where they should

Generated code leaves its executable only by jumps, and a jump returns only to the return address of
the innermost call.  So compiled code that returns does so to the address it was given, in the frame
it was called in, and a dispatch that ran compiled code hands the registers back.
-/

namespace R3000

/-! ## Generated code has no exits of its own -/

namespace CodeSource

open Emitter

variable (src : CodeSource) (stage : Stage)

theorem isExit_blockBody (id : Nat) : (src.blockBody stage id).All (·.op.isExit = false) :=
  fun p hp => CodeOp.isExit_of_inner (src.inner_blockBody stage id p hp)

theorem isExit_blockTail (id : Nat) : (src.blockTail stage id).All (·.op.isExit = false) := by
  have haside : ∀ (_ : Line) (op : CodeOp), op.aside = true → op.isExit = false :=
    fun _ _ h => CodeOp.isExit_of_inner (CodeOp.inner_of_aside h)
  have hfinal : ∀ op : CodeOp, op.isFinal = true → op.isExit = false := by
    intro op h
    cases op <;> first | rfl | cases h
  have hfresh := all_fresh (P := (·.op.isExit = false)) (src.blockBody stage id).writeback
  exact hfresh.emitTail haside src (fun _ _ => hfinal _ (src.isFinal_fallThrough _))
    (fun _ _ => rfl) (fun _ _ _ _ => rfl) fun branch _ => hfinal _ (src.isFinal_finish _ branch)

theorem isExit_mainOps {id : Nat} {p : PlacedOp} (hp : p ∈ src.mainOps stage id) :
    p.op.isExit = false := by
  rcases src.mem_mainOps stage hp with hopens | hbody | htail
  · cases hop : p.op <;> rw [hop] at hopens <;> first | rfl | cases hopens
  · exact src.isExit_blockBody stage id p hbody
  · exact src.isExit_blockTail stage id p htail

theorem mem_assembled (count : Nat) :
    (∀ p ∈ (src.assembled stage count).main.code, ∃ id, p ∈ src.mainOps stage id) ∧
      ∀ r ∈ (src.assembled stage count).aux.toList, ∃ id, r = (src.blockBody stage id).routine := by
  induction count with
  | zero => exact ⟨fun p hp => absurd hp List.not_mem_nil, fun r hr => absurd hr List.not_mem_nil⟩
  | succ count ih =>
    have hgrown := src.grown_assembled stage count
    refine ⟨fun p hp => ?_, fun r hr => ?_⟩
    · rw [hgrown.code_eq] at hp
      rcases List.mem_append.mp hp with hp | hp
      · exact ih.1 p hp
      · exact ⟨count, hp⟩
    · rw [hgrown.aux_eq] at hr
      rcases List.mem_append.mp hr with hr | hr
      · exact ih.2 r hr
      · unfold auxRoutines at hr
        split at hr
        · exact ⟨count, List.mem_singleton.mp hr⟩
        · cases hr

theorem isExit_generate {index : Nat} {r : Routine}
    (hr : (src.generate stage).exe.routines[index]? = some r) {p : PlacedOp} (hp : p ∈ r.ops.toList) :
    p.op.isExit = false := by
  obtain ⟨hcode, haux⟩ := src.mem_assembled stage src.graph.blocks.size
  have hmem := Array.mem_of_getElem? hr
  rw [generate_eq] at hmem
  rcases Array.mem_append.mp hmem with hmem | hmem
  · obtain rfl : r = (src.assembled stage src.graph.blocks.size).main.routine := by simpa using hmem
    obtain ⟨id, hid⟩ := hcode p hp
    exact src.isExit_mainOps stage hid
  · obtain ⟨id, rfl⟩ := haux r (Array.mem_toList_iff.mpr hmem)
    exact src.isExit_blockBody stage id p hp

end CodeSource

/-! ## Runs of generated code -/

namespace Executable

variable {L : UnitLaw} {enter : Entry} {e : Executable} {s : Session}

theorem proper_runAux (he : enter.Disciplined L fun _ => True) (hs : s.shop.Valid L s.mem)
    (index : UInt16) (pc : Nat) {ops : List PlacedOp} (hops : ∀ p ∈ ops, p.op.isExit = false) :
    ∀ exit, (e.runAux enter index pc ops s).1 = some exit → exit.Proper (fun _ => True) s.ret := by
  induction ops generalizing pc s with
  | nil => nofun
  | cons p ops ih =>
    intro exit hexit
    have hproper := CodeOp.proper_perform he hs (hops p List.mem_cons_self)
    have hkeeps := Session.Keeps.steady.perform he.keeps p.op s hs
    have hframed := Session.Framed.steady.perform he.framed p.op s
    unfold runAux at hexit
    generalize p.op.perform enter s = out at hproper hkeeps hframed hexit
    obtain ⟨result, t⟩ := out
    cases result with
    | flow f =>
      cases f with
      | next =>
        have hret : t.ret = s.ret := hframed.ret
        rw [← hret]
        exact ih hkeeps.2 (pc + 1) (fun q hq => hops q (List.mem_cons_of_mem p hq)) exit hexit
      | exit target =>
        cases hexit
        exact hproper
      | goto block =>
        cases hexit
        trivial
      | call index =>
        cases hexit
        trivial
    | signal sig =>
      cases hexit
      cases sig <;> trivial
    | fault kind =>
      cases hexit
      trivial
    | unfinished =>
      cases hexit
      trivial

theorem proper_step (hops : ∀ {index : Nat} {r : Routine}, e.routines[index]? = some r →
      ∀ p ∈ r.ops.toList, p.op.isExit = false)
    (he : enter.Disciplined L fun _ => True) (hs : s.shop.Valid L s.mem) (pc : Nat) :
    ∀ out, e.step enter pc s = .inl out → out.1.Proper (fun _ => True) s.ret := by
  intro out hout
  unfold step at hout
  split at hout
  · cases hout
    trivial
  next main hmain =>
    split at hout
    · cases hout
      trivial
    next placed hplaced =>
      have hmem : placed ∈ main.ops.toList := Array.mem_toList_iff.mpr (Array.mem_of_getElem? hplaced)
      have hproper := CodeOp.proper_perform he hs (hops hmain placed hmem)
      have hkeeps := Session.Keeps.steady.perform he.keeps placed.op s hs
      have hframed := Session.Framed.steady.perform he.framed placed.op s
      generalize placed.op.perform enter s = done at hproper hkeeps hframed hout
      obtain ⟨result, t⟩ := done
      cases result with
      | flow f =>
        cases f with
        | next => cases hout
        | exit target =>
          cases hout
          exact hproper
        | goto block =>
          dsimp only [turn] at hout
          split at hout
          · cases hout
          · cases hout
            trivial
        | call index =>
          dsimp only [turn] at hout
          split at hout
          · cases hout
          next exit u hcall =>
            cases hout
            have hret : t.ret = s.ret := hframed.ret
            rw [← hret]
            unfold callAux at hcall
            split at hcall
            · cases hcall
              trivial
            next r hr =>
              exact proper_runAux he hkeeps.2 index 0 (hops hr) exit (congrArg Prod.fst hcall)
      | signal sig =>
        cases hout
        cases sig <;> trivial
      | fault kind =>
        cases hout
        trivial
      | unfinished =>
        cases hout
        trivial

end Executable

namespace UnitLaw

def generated : UnitLaw :=
  holding True (fun _ => True) (fun _ _ _ => True) (fun h _ => h) fun _ _ _ => trivial

theorem fixed_generated : generated.Fixed :=
  fun _ _ _ _ hu => hu

end UnitLaw

theorem Executable.disciplined_generated :
    Disciplined .generated (fun _ => True)
      fun e _ => ∃ (src : CodeSource) (stage : Stage), e = (src.generate stage).exe where
  step {enter e pc s} hplace hs he := by
    obtain ⟨src, stage, rfl⟩ := hplace
    have hproper := proper_step (fun hr p hp => src.isExit_generate stage hr hp) he hs pc
    generalize (src.generate stage).exe.step enter pc s = turn at hproper ⊢
    cases turn with
    | inl out => exact hproper out rfl
    | inr out => exact ⟨src, stage, rfl⟩
  entry {s t target x} hs hadmission := by
    obtain ⟨_, stage, src, rfl, -⟩ := Session.compiled_admission (fun hu => hu) hs hadmission
    exact ⟨src, stage, rfl⟩

/-! ## Dispatches -/

structure Executed.HandedBack (e : Executed) : Prop where
  owns : e.recompiler.ownsRegisters = false
  get : ∀ reg, e.cpu.regs.get reg = e.recompiler.regs.get reg
  hi : e.cpu.regs.hi = e.recompiler.regs.hi
  lo : e.cpu.regs.lo = e.recompiler.regs.lo

namespace Recompiler

variable {config : Config} {r : Recompiler}

theorem Used.generated (h : r.Used config) (m : AddressSpace) : r.shop.Valid .generated m := by
  have hvalid := h.valid m
  exact ⟨hvalid.analyzer, trivial, trivial,
    hvalid.units.mono fun _ hu => CodeUnit.Valid.mono hu fun _ _ => trivial⟩

theorem handedBack_handBack (h : r.ownsRegisters = true) (cpu : Cpu) (mem : AddressSpace)
    (outcome : Outcome) : (r.handBack cpu mem outcome).HandedBack := by
  have hjump : (r.handBack cpu mem outcome).cpu.regs = (r.giveRegisters cpu).2.regs := by
    cases outcome <;> rfl
  have hgiven := giveRegisters_of_owns h cpu
  refine ⟨?_, fun reg => ?_, ?_, ?_⟩
  · exact congrArg (·.1.ownsRegisters) hgiven
  · rw [hjump, handBack, hgiven]
    exact Registers.get_withZeroCell _ _ reg
  · rw [hjump, handBack, hgiven]
    rfl
  · rw [hjump, handBack, hgiven]
    rfl

theorem handedBack_conclude (h : r.ownsRegisters = true) (cpu : Cpu) (out : Exit × Session) :
    (r.conclude cpu out).HandedBack := by
  obtain ⟨q, outcome, hends, heq⟩ := r.exists_ends cpu out
  have hq : q.ownsRegisters = true := by
    rcases hends.recompiler with rfl | ⟨f, line, -, rfl⟩
    · exact h
    · exact ((r.regained out.2).mended_regs out.2.mem f line).2.trans h
  rw [heq]
  exact handedBack_handBack hq _ _ outcome

theorem returned_conclude {cpu : Cpu} {out : Exit × Session} {pc : Word}
    (h : (r.conclude cpu out).outcome = .returned pc) : out.1 = .returned pc := by
  obtain ⟨exit, t⟩ := out
  obtain ⟨q, outcome, hends, heq⟩ := r.exists_ends cpu (exit, t)
  rw [heq] at h
  cases h
  cases hends
  rfl

/-- Compiled code that returns does so to the address it was called with, in the frame of its caller;
it leaves in that frame too, and the registers go back to the processor. -/
theorem calls_keep_frame {config : Config} {r : Recompiler} (hr : r.Used config) {s : Session}
    (hs : s.shop.Valid .generated s.mem) (fuel : Nat) :
    (∀ (src : CodeSource) (stage : Stage) (ret : Word),
      let out := (src.generate stage).exe.invoke fuel ret s
      (∀ pc, out.1 = .returned pc → pc = ret) ∧ s.Framed out.2) ∧
    (∀ target ret : Word,
      let out := s.callFrom fuel target ret
      (∀ pc, out.1 = .returned pc → pc = ret) ∧ s.Framed out.2) ∧
    ∀ (cpu : Cpu) (mem : AddressSpace) (target ret : Word) (budget : UInt64),
      let out := r.executeWith fuel cpu mem target ret budget
      (∀ pc, out.outcome = .returned pc → pc = ret) ∧
        (out.outcome ≠ .notCompiled → out.HandedBack) := by
  have hdisc := Executable.disciplined_generated
  refine ⟨fun src stage ret => ⟨fun pc hpc => ?_, ?_⟩, fun target ret => ⟨fun pc hpc => ?_, ?_⟩,
    fun cpu mem target ret budget => ?_⟩
  · have hproper := hdisc.invoke fuel ⟨src, stage, rfl⟩ hs ret
    rw [hpc] at hproper
    exact hproper
  · have hframed := Session.Framed.steady.run fuel (src.generate stage).exe 0 { s with ret }
    exact ⟨rfl, hframed.depth⟩
  · have hproper := hdisc.callFrom fuel hs target ret
    rw [hpc] at hproper
    exact hproper
  · exact Session.Framed.steady.callFrom fuel s target ret
  · by_cases hgo : r.shop.config.enabled = true ∧ compilable target = true
    · have hprepared : (r.prepared cpu mem).1.shop.Valid .generated (r.prepared cpu mem).2 :=
        valid_prepared UnitLaw.fixed_generated (hr.generated mem) cpu
      rw [executeWith_eq hgo.1 hgo.2]
      refine ⟨fun pc hpc => ?_, fun _ => handedBack_conclude (owns_takeRegisters _ cpu) cpu _⟩
      have hproper := hdisc.callFrom fuel
        (s := (r.prepared cpu mem).1.opening cpu (r.prepared cpu mem).2 budget) hprepared target ret
      rw [returned_conclude hpc] at hproper
      exact hproper
    · rw [executeWith_skip hgo]
      exact ⟨nofun, fun hne => absurd rfl hne⟩

theorem calls_keep_frame_in_loop :
    let cpu := countdownCpu 1 31
    let r := create countdownConfig
    let s := r.opening cpu countdownCode 100
    let out := r.executeWith 11 cpu countdownCode 0x9F800000 0x80000100 100
    r.Used countdownConfig ∧ s.shop.Valid .generated s.mem ∧ out.outcome = .returned 0x80000100 ∧
    ((∀ pc, (s.callFrom 11 0x9F800000 0x80000100).1 = .returned pc → pc = 0x80000100) ∧
      s.Framed (s.callFrom 11 0x9F800000 0x80000100).2) ∧
    (∀ pc, out.outcome = .returned pc → pc = 0x80000100) ∧
    (out.outcome ≠ .notCompiled → out.HandedBack) := by
  intro cpu r s out
  have hused : r.Used countdownConfig := .create
  have hvalid : s.shop.Valid .generated s.mem := hused.generated countdownCode
  obtain ⟨-, hcall, hdispatch⟩ := calls_keep_frame hused hvalid 11
  exact ⟨hused, hvalid, dispatch_countdown.1 0, hcall 0x9F800000 0x80000100,
    hdispatch cpu countdownCode 0x9F800000 0x80000100 100⟩

end Recompiler

end R3000
