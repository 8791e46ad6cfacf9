import R3000.Proofs.Session.Faults

/-!
# Moving bodies out of a unit

The bodies that were moved out of a unit decide where its operations stand, and nothing else: a run
that enters a block performs the code of that block, and goes on to the same block or ends in the same
way (`CodeSource.run_block`).  So two executables that differ in what was moved come back alike from
every session (`CodeSource.Resplit.run`), with faults at the same instruction.
-/

namespace R3000

/-! ## More fuel

A run that came to an end does exactly the same on more fuel, because everything it entered did. -/

/-- Entering code the second way does the same wherever the first way comes back. -/
def Entry.Extends (enter enter' : Entry) : Prop :=
  ∀ target ret s, (enter target ret s).1 ≠ .unfinished →
    enter' target ret s = enter target ret s

variable {enter enter' : Entry}

theorem CodeOp.perform_extends (h : enter.Extends enter') (op : CodeOp) (s : Session)
    (hdone : (op.perform enter s).1 ≠ .unfinished) : op.perform enter' s = op.perform enter s := by
  refine perform_congr fun a ha => h a.target a.ret a.session fun hexit => hdone ?_
  have hpassed : enter.PassesOn (op.arrivals enter s) .unfinished _ := ⟨a, ha, Prod.ext hexit rfl⟩
  exact congrArg Prod.fst (perform_of_passesOn rfl hpassed)

namespace Executable

variable {e : Executable} {s : Session}

theorem runAux_extends (h : enter.Extends enter') {index : UInt16} {pc : Nat} {ops : List PlacedOp}
    (hdone : (e.runAux enter index pc ops s).1 ≠ some .unfinished) :
    e.runAux enter' index pc ops s = e.runAux enter index pc ops s := by
  induction ops generalizing pc s with
  | nil => rfl
  | cons p rest ih =>
    unfold runAux at hdone ⊢
    have hop := p.op.perform_extends h s
    generalize p.op.perform enter s = out at hop hdone ⊢
    obtain ⟨result, t⟩ := out
    cases result with
    | unfinished => exact absurd rfl hdone
    | signal sig => rw [hop OpResult.noConfusion]
    | fault kind => rw [hop OpResult.noConfusion]
    | flow f =>
      rw [hop OpResult.noConfusion]
      cases f with
      | next => exact ih hdone
      | _ => rfl

theorem callAux_extends (h : enter.Extends enter') {index : UInt16}
    (hdone : (e.callAux enter index s).1 ≠ some .unfinished) :
    e.callAux enter' index s = e.callAux enter index s := by
  unfold callAux at hdone ⊢
  cases hr : e.routines[index.toNat]? with
  | none => rfl
  | some r =>
    rw [hr] at hdone
    exact runAux_extends h hdone

theorem step_extends (h : enter.Extends enter') (pc : Nat)
    (hdone : Turn.Finished (e.step enter pc s)) : e.step enter' pc s = e.step enter pc s := by
  cases hplaced : e.placed? pc with
  | none =>
    obtain ⟨exit, -, hstep⟩ := step_of_none hplaced
    rw [hstep, hstep]
  | some p =>
    have hop := op?_of_placed? hplaced
    rw [step_of_op? hop] at hdone
    rw [step_of_op? hop, step_of_op? hop]
    have hperform := p.op.perform_extends h s
    generalize p.op.perform enter s = out at hperform hdone ⊢
    obtain ⟨result, t⟩ := out
    cases result with
    | unfinished => exact absurd rfl (hdone t)
    | signal sig => rw [hperform OpResult.noConfusion]; rfl
    | fault kind => rw [hperform OpResult.noConfusion]; rfl
    | flow f =>
      rw [hperform OpResult.noConfusion]
      cases f with
      | call index =>
        have haux : (e.callAux enter index t).1 ≠ some .unfinished := by
          intro hexit
          dsimp only [turn] at hdone
          generalize e.callAux enter index t = out at hdone hexit
          obtain ⟨exit, u⟩ := out
          cases hexit
          exact hdone u rfl
        dsimp only [turn]
        rw [callAux_extends h haux]
      | _ => rfl

/-! ## Runs -/

theorem extends_of_run {fuel : Nat} (h : ∀ (e : Executable) (pc : Nat) (s : Session),
    (e.run fuel pc s).1 ≠ .unfinished → e.run (fuel + 1) pc s = e.run fuel pc s) :
    Entry.Extends (Session.enter (invoke fuel)) (Session.enter (invoke (fuel + 1))) := by
  intro target ret s hdone
  rw [Session.enter_eq, Session.enter_eq]
  cases hadmission : s.admission target with
  | error out => rfl
  | ok admitted =>
    obtain ⟨x, t⟩ := admitted
    have hrun := h x 0 { t with ret } fun hexit => hdone (congrArg Prod.fst
      ((Session.enter_eq_failure rfl).mpr ⟨x, t, _, hadmission, Prod.ext hexit rfl, rfl⟩))
    unfold invoke
    dsimp only
    rw [hrun]

theorem run_add_one (fuel : Nat) (e : Executable) (pc : Nat) (s : Session)
    (hdone : (e.run fuel pc s).1 ≠ .unfinished) : e.run (fuel + 1) pc s = e.run fuel pc s := by
  induction fuel generalizing e pc s with
  | zero => exact absurd rfl hdone
  | succ fuel ih =>
    rw [run_succ] at hdone
    have hstep := step_extends (e := e) (s := s) (extends_of_run ih) pc
    rw [run_succ (fuel + 1), run_succ fuel]
    generalize e.step (Session.enter (invoke fuel)) pc s = turn at hstep hdone ⊢
    cases turn with
    | inl out =>
      rw [hstep fun t ht => hdone (by rw [ht])]
    | inr next =>
      rw [hstep fun t => Sum.inr_ne_inl]
      exact ih e next.1 next.2 hdone

theorem extends_of_le {fuel fuel' : Nat} (hle : fuel ≤ fuel') :
    Entry.Extends (Session.enter (invoke fuel)) (Session.enter (invoke fuel')) := by
  induction fuel', hle using Nat.le_induction with
  | base => exact fun _ _ _ _ => rfl
  | succ fuel' _ ih =>
    intro target ret s hdone
    have hsame := ih target ret s hdone
    rw [extends_of_run (run_add_one fuel') target ret s (hsame ▸ hdone), hsame]

end Executable

/-! ## The end of a block -/

namespace PlacedOp

theorem exists_of_performAll {enter : Entry} {ops : List PlacedOp} {s t : Session} {line : Line}
    {result : OpResult} (h : performAll enter ops s = (some (line, result), t)) :
    ∃ p ∈ ops, ∃ u, p.op.perform enter u = (result, t) := by
  induction ops generalizing s with
  | nil => cases h
  | cons p ops ih =>
    rw [performAll] at h
    rcases Progress.andThen_eq_some h with hstop | ⟨u, -, hrest⟩
    · obtain ⟨-, hout, -⟩ := Progress.eq_of_ofResult hstop
      exact ⟨p, List.mem_cons_self, s, hout⟩
    · obtain ⟨q, hq, hlast⟩ := ih hrest
      exact ⟨q, List.mem_cons_of_mem p hq, hlast⟩

theorem performAll_extends {enter enter' : Entry} (h : enter.Extends enter') {ops : List PlacedOp}
    {s t : Session} {line : Line} {result : OpResult} (hdone : result ≠ .unfinished)
    (hops : performAll enter ops s = (some (line, result), t)) :
    performAll enter' ops s = (some (line, result), t) := by
  induction ops generalizing s with
  | nil => cases hops
  | cons p ops ih =>
    rw [performAll] at hops ⊢
    have hop := p.op.perform_extends h s
    rcases Progress.andThen_eq_some hops with hstop | ⟨u, hnext, hrest⟩
    · obtain ⟨-, hout, -⟩ := Progress.eq_of_ofResult hstop
      have hsame : p.perform enter' s = p.perform enter s := by
        unfold perform
        rw [hop (by rw [hout]; exact hdone)]
      rw [hsame, hstop]
      rfl
    · have hsame : p.perform enter' s = p.perform enter s := by
        unfold perform at hnext ⊢
        rw [hop]
        intro hunfinished
        generalize p.op.perform enter s = out at hnext hunfinished
        obtain ⟨r, v⟩ := out
        cases hunfinished
        cases hnext
      rw [hsame, hnext]
      exact ih hrest

end PlacedOp

namespace Executable

structure Leads (e : Executable) (k pc : Nat) (s : Session) (pc' : Nat) (t : Session) : Prop where
  run : ∀ fuel, e.run (fuel + k) pc s = e.run fuel pc' t
  short : ∀ fuel ≤ k, (e.run fuel pc s).1 = .unfinished

theorem Leads.here (e : Executable) (pc : Nat) (s : Session) : e.Leads 0 pc s pc s := by
  refine ⟨fun _ => rfl, fun fuel hfuel => ?_⟩
  obtain rfl := Nat.le_zero.mp hfuel
  rfl

theorem Leads.step {e : Executable} {k pc pc' pc'' : Nat} {s t u : Session}
    (h : e.Leads k pc s pc' t) (hstep : ∀ enter, e.step enter pc' t = .inr (pc'', u)) :
    e.Leads (k + 1) pc s pc'' u := by
  have hrun : ∀ fuel, e.run (fuel + (k + 1)) pc s = e.run fuel pc'' u := by
    intro fuel
    rw [← Nat.add_assoc, Nat.add_right_comm, h.run, run_succ, hstep]
  refine ⟨hrun, fun fuel hfuel => ?_⟩
  rcases Nat.le_succ_iff.mp hfuel with hle | rfl
  · exact h.short fuel hle
  · have hzero := hrun 0
    rw [Nat.zero_add] at hzero
    rw [hzero]
    rfl

end Executable

namespace CodeSource

variable {src : CodeSource} {stage : Stage} {id : Nat}

theorem Within.exists_end (haddr : Addressable (src.generate stage).exe)
    (hid : id < src.graph.blocks.size) {s t : Session} {k : Nat} (h : src.Within stage id s k t)
    (hlead : (src.generate stage).exe.Leads k (src.startOf stage id) s (src.startOf stage id + k) t) :
    ∃ k u, (src.generate stage).exe.Leads k (src.startOf stage id) s (src.startOf stage id + k) u ∧
      ∀ enter, ∃ stop v, PlacedOp.performAll enter (src.blockCode stage id) s = (some stop, v) ∧
        (src.generate stage).exe.Follows (src.startOf stage id + k) (some stop, v)
          ((src.generate stage).exe.step enter (src.startOf stage id + k) u) := by
  obtain ⟨p, hp⟩ : ∃ p, (src.mainOps stage id)[k]? = some p := ⟨_, List.getElem?_eq_getElem h.lt⟩
  by_cases hgo : ∃ enter u, PlacedOp.performAll enter (src.expansion stage id p) t = (none, u)
  · obtain ⟨enter, u, hq⟩ := hgo
    have hwithin := h.next hp hq
    have huses := (src.lt_of_not_final stage hp (src.not_final_of_next stage hq)).2
    have hstep : ∀ enter', (src.generate stage).exe.step enter' (src.startOf stage id + k) t =
        .inr (src.startOf stage id + (k + 1), u) := by
      intro enter'
      have hfollows := src.follows_step stage haddr hid hp enter t
      rw [hq] at hfollows
      rw [src.step_congr stage haddr hid hp huses enter' enter]
      generalize (src.generate stage).exe.step enter (src.startOf stage id + k) t = turn at hfollows
      cases hfollows
      rfl
    exact hwithin.exists_end haddr hid (hlead.step hstep)
  · refine ⟨k, t, hlead, fun enter => ?_⟩
    have hfollows := src.follows_step stage haddr hid hp enter t
    generalize hq : PlacedOp.performAll enter (src.expansion stage id p) t = q at hfollows
    obtain ⟨stop, v⟩ := q
    cases stop with
    | none => exact absurd ⟨enter, v, hq⟩ hgo
    | some stop => exact ⟨stop, v, h.stop hp hq, hfollows⟩
termination_by (src.mainOps stage id).length - k
decreasing_by
  have := hwithin.lt
  omega

/-- How a run goes on after the code of a block: to another block, or out of the executable. -/
inductive Continues (src : CodeSource) (stage : Stage) (fuel : Nat) :
    Progress → Exit × Session → Prop
  | block {line : Line} {dest : Nat} {t : Session} (h : dest < src.graph.blocks.size) :
      Continues src stage fuel (some (line, .flow (.goto dest)), t)
        ((src.generate stage).exe.run fuel (src.startOf stage dest) t)
  | exit {line : Line} {result : OpResult} {t : Session} {exit : Exit}
      (h : (src.generate stage).exe.Concludes line result exit) :
      Continues src stage fuel (some (line, result), t) (exit, t)

theorem lt_of_goto {base : Word} {size : Nat} (hsurvey : src.graph.SurveyedWithin size base)
    {enter : Entry} {s t : Session} {line : Line} {dest : Nat}
    (h : PlacedOp.performAll enter (src.blockCode stage id) s = (some (line, .flow (.goto dest)), t)) :
    dest < src.graph.blocks.size := by
  obtain ⟨q, hq, u, hout⟩ := PlacedOp.exists_of_performAll h
  rw [← src.flatMap_expansion stage id] at hq
  obtain ⟨p, hp, hq⟩ := List.mem_flatMap.mp hq
  exact hsurvey.lt_of_edges rfl (src.gotos_expansion stage hp hq dest (CodeOp.mem_gotos hout))

/-- A run that enters a block performs its code, whatever was moved out. -/
theorem run_block {base : Word} {size : Nat} (hsurvey : src.graph.SurveyedWithin size base)
    (haddr : Addressable (src.generate stage).exe) (hid : id < src.graph.blocks.size) (s : Session) :
    ∃ k, (∀ fuel ≤ k, ((src.generate stage).exe.run fuel (src.startOf stage id) s).1 = .unfinished) ∧
      ∀ fuel, src.Continues stage fuel
        (PlacedOp.performAll (Session.enter (Executable.invoke fuel)) (src.blockCode stage id) s)
        ((src.generate stage).exe.run (fuel + 1 + k) (src.startOf stage id) s) := by
  obtain ⟨k, t, hlead, hend⟩ := (Within.start src stage id s).exists_end haddr hid (.here _ _ s)
  refine ⟨k, hlead.short, fun fuel => ?_⟩
  obtain ⟨stop, v, hcode, hfollows⟩ := hend (Session.enter (Executable.invoke fuel))
  rw [hlead.run, Executable.run_succ, hcode]
  generalize (src.generate stage).exe.step _ (src.startOf stage id + k) t = turn at hfollows ⊢
  cases hfollows with
  | goto _ hstart =>
    have hdest := lt_of_goto hsurvey hcode
    rw [start?_generate, if_pos hdest] at hstart
    cases hstart
    exact .block hdest
  | lost _ hstart =>
    rw [start?_generate, if_pos (lt_of_goto hsurvey hcode)] at hstart
    cases hstart
  | exit _ hconcludes => exact .exit hconcludes

end CodeSource

/-! ## Exits -/

/-- The faults are of the same kind and at the same instruction of the same unit. -/
structure Fault.Alike (f f' : Fault) : Prop where
  kind : f'.kind = f.kind
  base : f'.exe.base = f.exe.base
  stage : f'.exe.stage = f.exe.stage
  line : ∃ line, f.exe.line? f.site = some line ∧ f'.exe.line? f'.site = some line
  guestPc : ∃ pc, f.exe.guestPc? f.site = some pc ∧ f'.exe.guestPc? f'.site = some pc

/-- The exits are the same, but for where the operation of a fault stands. -/
inductive Exit.Alike : Exit → Exit → Prop
  | same (exit : Exit) : Alike exit exit
  | fault {f f' : Fault} (h : f.Alike f') : Alike (.left (.fault f)) (.left (.fault f'))

namespace CodeSource

/-- The sources agree in everything but what is to be moved out. -/
structure Resplit (src src' : CodeSource) : Prop where
  graph : src'.graph = src.graph
  blockCode : ∀ stage id, src'.blockCode stage id = src.blockCode stage id

def budgeted (src : CodeSource) (budget minSplit : Nat) : CodeSource :=
  { src with config := { src.config with budget, minSplit } }

theorem blockCode_budgeted (src : CodeSource) (budget minSplit : Nat) (stage : Stage) (id : Nat) :
    (src.budgeted budget minSplit).blockCode stage id = src.blockCode stage id := by
  by_cases hreal : (src.graph.block id).isReal = true
  · rw [blockCode_of_real (src.budgeted budget minSplit) stage hreal, src.blockCode_of_real stage hreal]
    rfl
  · rw [Bool.not_eq_true] at hreal
    rw [blockCode_of_wrapper (src.budgeted budget minSplit) stage hreal,
      src.blockCode_of_wrapper stage hreal]
    rfl

theorem resplit_budgeted (src : CodeSource) (budget minSplit budget' minSplit' : Nat) :
    (src.budgeted budget minSplit).Resplit (src.budgeted budget' minSplit') :=
  ⟨rfl, fun stage id => by rw [blockCode_budgeted, blockCode_budgeted]⟩

theorem addressable_of_blocks (src : CodeSource) (stage : Stage)
    (h : src.graph.blocks.size ≤ 65535) : Addressable (src.generate stage).exe := by
  have hle := (src.movedBefore_le stage (fun _ hid _ => hid) (Nat.le_refl _)).1
  unfold Addressable
  rw [auxCount_generate]
  omega

namespace Resplit

variable {src src' : CodeSource} (h : src.Resplit src') {stage : Stage}
include h

theorem alike_of_concludes {line : Line} {result : OpResult} {exit exit' : Exit}
    (hexit : (src.generate stage).exe.Concludes line result exit)
    (hexit' : (src'.generate stage).exe.Concludes line result exit') : exit.Alike exit' := by
  cases hexit with
  | exit target =>
    cases hexit'
    exact .same _
  | signal sig =>
    cases hexit'
    exact .same _
  | unfinished =>
    cases hexit'
    exact .same _
  | fault kind hline =>
    cases hexit' with
    | fault _ hline' =>
      have hgraph : (src'.generate stage).exe.graph = (src.generate stage).exe.graph := by
        rw [generate_eq, generate_eq]
        exact h.graph
      have hpc := Executable.guestPc?_eq hline'
      rw [hgraph] at hpc
      refine .fault ⟨rfl, ?_, ?_, ⟨line, hline, hline'⟩, ⟨_, Executable.guestPc?_eq hline, hpc⟩⟩
      · show (src'.generate stage).exe.base = (src.generate stage).exe.base
        rw [generate_eq, generate_eq]
        exact congrArg FlowGraph.base h.graph
      · show (src'.generate stage).exe.stage = (src.generate stage).exe.stage
        rw [generate_eq, generate_eq]

theorem run {base : Word} {size : Nat} (hsurvey : src.graph.SurveyedWithin size base)
    (haddr : Addressable (src.generate stage).exe)
    (haddr' : Addressable (src'.generate stage).exe) (fuel : Nat) {id : Nat}
    (hid : id < src.graph.blocks.size) (s : Session)
    (hdone : ((src.generate stage).exe.run fuel (src.startOf stage id) s).1 ≠ .unfinished) :
    ∃ least, ∀ fuel' ≥ least,
      let out := (src.generate stage).exe.run fuel (src.startOf stage id) s
      let out' := (src'.generate stage).exe.run fuel' (src'.startOf stage id) s
      out.1.Alike out'.1 ∧ out'.2 = out.2 := by
  have hsurvey' : src'.graph.SurveyedWithin size base := h.graph ▸ hsurvey
  induction fuel using Nat.strong_induction_on generalizing id s with
  | _ fuel ih =>
    obtain ⟨k, hshort, hblock⟩ := run_block hsurvey haddr hid s
    obtain ⟨k', -, hblock'⟩ := run_block hsurvey' haddr' (h.graph ▸ hid) s
    rw [h.blockCode] at hblock'
    obtain ⟨n, rfl⟩ : ∃ n, fuel = n + 1 + k := by
      refine ⟨fuel - 1 - k, ?_⟩
      have := mt (hshort fuel) hdone
      omega
    have hcontinues := hblock n
    -- the code of the block does the same on more fuel
    have hsame : ∀ {line result t}, PlacedOp.performAll (Session.enter (Executable.invoke n))
        (src.blockCode stage id) s = (some (line, result), t) → result ≠ .unfinished → ∀ n' ≥ n,
        src'.Continues stage n' (some (line, result), t)
          ((src'.generate stage).exe.run (n' + 1 + k') (src'.startOf stage id) s) := by
      intro line result t hcode hresult n' hn
      have hagain := PlacedOp.performAll_extends (Executable.extends_of_le hn) hresult hcode
      have hother := hblock' n'
      rwa [hagain] at hother
    generalize hcode : PlacedOp.performAll _ (src.blockCode stage id) s = progress at hcontinues
    generalize hout : (src.generate stage).exe.run (n + 1 + k) (src.startOf stage id) s = out
      at hcontinues hdone ⊢
    cases hcontinues with
    | @block line dest t hdest =>
      obtain ⟨least, hleast⟩ := ih n (by omega) hdest t hdone
      refine ⟨max n least + 1 + k', fun fuel' hfuel => ?_⟩
      obtain ⟨n', rfl⟩ : ∃ n', fuel' = n' + 1 + k' := ⟨fuel' - 1 - k', by omega⟩
      have hother := hsame hcode OpResult.noConfusion n' (by omega)
      generalize (src'.generate stage).exe.run (n' + 1 + k') (src'.startOf stage id) s = out'
        at hother ⊢
      cases hother with
      | block _ => exact hleast n' (by omega)
      | exit hconcludes => cases hconcludes
    | @exit line result t exit hconcludes =>
      have hresult : result ≠ .unfinished := by
        rintro rfl
        cases hconcludes
        exact hdone rfl
      refine ⟨n + 1 + k', fun fuel' hfuel => ?_⟩
      obtain ⟨n', rfl⟩ : ∃ n', fuel' = n' + 1 + k' := ⟨fuel' - 1 - k', by omega⟩
      have hother := hsame hcode hresult n' (by omega)
      generalize (src'.generate stage).exe.run (n' + 1 + k') (src'.startOf stage id) s = out'
        at hother ⊢
      cases hother with
      | block _ => cases hconcludes
      | exit hconcludes' => exact ⟨h.alike_of_concludes hconcludes hconcludes', rfl⟩

end Resplit

/-- What is moved out of a unit does not change what it does.  If its executable comes back, then so
does the one with another budget and another least body to move: it leaves the same session, returns
to the same address or hands back with the same signal, and a fault is of the same kind and at the
same instruction. -/
theorem splitting_invisible {a : Analyzer} (ha : a.Used) {m : AddressSpace} {base : Word}
    {reach : Reach} {trusted : Bool} {g : FlowGraph}
    (hg : (a.analyse m base reach trusted).graph = some g) (hblocks : g.blocks.size ≤ 65535)
    (tags : Word → UInt8) (config : Config) (stage : Stage) (ret : Word) (s : Session)
    (budget minSplit budget' minSplit' fuel : Nat) :
    let src : CodeSource := { graph := g, tags, config := { config with budget, minSplit } }
    let src' : CodeSource :=
      { graph := g, tags, config := { config with budget := budget', minSplit := minSplit' } }
    let out := (src.generate stage).exe.invoke fuel ret s
    out.1 ≠ .unfinished → ∃ least, ∀ fuel' ≥ least,
      let out' := (src'.generate stage).exe.invoke fuel' ret s
      out.1.Alike out'.1 ∧ out'.2 = out.2 := by
  intro src src' out hdone
  have hsurvey : src.graph.SurveyedWithin (max reach.window 2) base := ha.surveyedWithin hg
  have hresplit : src.Resplit src' :=
    resplit_budgeted { graph := g, tags, config } budget minSplit budget' minSplit'
  obtain ⟨least, hleast⟩ := hresplit.run hsurvey (src.addressable_of_blocks stage hblocks)
    (src'.addressable_of_blocks stage hblocks) fuel hsurvey.blocks_pos { s with ret } hdone
  refine ⟨least, fun fuel' hfuel => ?_⟩
  obtain ⟨halike, hsession⟩ := hleast fuel' hfuel
  exact ⟨halike, congrArg (fun t : Session => { t with ret := s.ret }) hsession⟩

theorem splitCandidates_deferring :
    (scratchGraph deferringProgram).splitCandidates 2 = [(3, 1)] := by
  refine (congrArg (fun l => List.mergeSort l _) ?_).trans (List.mergeSort_singleton _)
  decide +kernel

/-- The misaligned load of the deferring program, in the main routine and in a routine of its own. -/
theorem splitting_invisible_at_fault :
    let g := scratchGraph deferringProgram
    let src : CodeSource := { graph := g, tags := fun _ => 0, config := {} }
    let src' : CodeSource :=
      { graph := g, tags := fun _ => 0, config := { budget := 0, minSplit := 2 } }
    let s := Session.begin {} (scratchCode deferringProgram)
    let out := (src.generate .second).exe.invoke 10 1 s
    src.moves src.plan 1 = false ∧ src'.moves src'.plan 1 = true ∧ g.blocks.size ≤ 65535 ∧
      (∃ f, out.1 = .left (.fault f) ∧ f.kind = .exception (.addressLoad 1)) ∧
      ∃ least, ∀ fuel' ≥ least,
        let out' := (src'.generate .second).exe.invoke fuel' 1 s
        out.1.Alike out'.1 ∧ out'.2 = out.2 := by
  intro g src src' s out
  have hmoved : src'.moves src'.plan 1 = true := by
    have hcandidates : src'.graph.splitCandidates src'.config.minSplit = [(3, 1)] :=
      splitCandidates_deferring
    unfold plan FlowGraph.splitPlan
    rw [hcandidates]
    decide +kernel
  have hblocks : g.blocks.size ≤ 65535 := by decide +kernel
  have hfault : (Executable.Turn.fault? (.inl out)).map (fun p => p.1.kind) =
      some (.exception (.addressLoad 1)) := by
    decide +kernel
  obtain ⟨⟨f, t⟩, hturn, hkind⟩ := Option.map_eq_some_iff.mp hfault
  have hexit := congrArg Prod.fst (Sum.inl.inj (Executable.Turn.eq_of_fault? hturn))
  refine ⟨?_, hmoved, hblocks, ⟨f, hexit, hkind⟩, ?_⟩
  · unfold plan FlowGraph.splitPlan
    decide +kernel
  · exact splitting_invisible Analyzer.Used.fresh (analyse_scratchCode deferringProgram) hblocks
      (fun _ => 0) {} .second 1 s 1024 16 0 2 10 (hexit ▸ Exit.noConfusion)

end CodeSource

end R3000
