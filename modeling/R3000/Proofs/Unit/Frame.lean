import R3000.Unit.Workshop

/-!
# What is left alone in a unit

Every operation on a unit changes a few of its fields.  Each equation gives the new unit as the old one
with just those fields replaced, and what the operation leaves alone is read off from there.  Asking
for the graph of a unit changes the unit only by an analysis, and in a workshop no other unit.  A
registry is known by what is found in it.
-/

namespace R3000

theorem swapRemove_of_not_mem {table : List Word} {addr : Word} (h : addr ∉ table) :
    swapRemove table addr = table := by
  unfold swapRemove
  rw [List.idxOf?_eq_none_iff.mpr h]

namespace CodeUnit

variable (u : CodeUnit)

theorem installFirst_eq (exe : Executable) :
    (u.installFirst exe).2 = { u with first := some (u.installFirst exe).1 } := by
  unfold installFirst
  split
  next old hold => rw [← hold]
  next => rfl

theorem firstReady_eq : u.firstReady = { u with counter := u.firstReady.counter } := by
  unfold firstReady
  split <;> rfl

theorem countdown_eq : u.countdown.1 = { u with counter := u.countdown.1.counter } := by
  unfold countdown
  split
  · rfl
  · split <;> rfl

theorem countComplete_eq :
    u.countComplete.1 =
      { u with state := u.countComplete.1.state, counter := u.countComplete.1.counter } := by
  unfold countComplete
  split <;> rfl

/-- The unit, standing as another one does. -/
def standingAs (v : CodeUnit) : CodeUnit :=
  { u with state := v.state, optimized := v.optimized, counter := v.counter, overlaid := v.overlaid }

theorem enterState_eq (o : Overlaid) : u.enterState o = u.standingAs (u.enterState o) := by
  unfold enterState
  split <;> rfl

theorem secondReady_eq (exe : Executable) :
    (u.secondReady exe).1 =
      { u.standingAs (u.secondReady exe).1 with
        second := (u.secondReady exe).1.second
        version := (u.secondReady exe).1.version } := by
  unfold secondReady
  dsimp only
  split
  · rfl
  split
  · rfl
  · rw [enterState_eq]
    rfl

theorem secondBroken_eq :
    u.secondBroken.1 =
      { u.standingAs u.secondBroken.1 with
        second := none
        attempts := u.secondBroken.1.attempts
        gaveUp := u.secondBroken.1.gaveUp } := by
  unfold secondBroken
  dsimp only
  split
  · rfl
  split
  · rw [enterState_eq]
    rfl
  · rw [enterState_eq]
    rfl

theorem addBreakpoint_eq (addr : Word) :
    (u.addBreakpoint addr).1 =
      { u.standingAs (u.addBreakpoint addr).1 with
        breakpoints := (u.addBreakpoint addr).1.breakpoints } := by
  unfold addBreakpoint
  split
  · rfl
  · split <;> rfl

theorem removeBreakpoint_eq (addr : Word) :
    (u.removeBreakpoint addr).1 =
      { u.standingAs (u.removeBreakpoint addr).1 with
        breakpoints := swapRemove u.breakpoints addr } := by
  unfold removeBreakpoint
  split
  · dsimp only
    split <;> rfl
  next hnone =>
    rw [swapRemove_of_not_mem (by simpa using hnone)]
    rfl

/-- The first analysis sets the range, whatever breakpoints it adds. -/
theorem analysed_eq (g : FlowGraph) (table : List Word) :
    u.analysed g table =
      { u.standingAs (u.analysed g table) with
        graph := some g
        limit := if u.limit = 0 then g.limit else u.limit
        breakpoints := (u.analysed g table).breakpoints } := by
  have hfold : ∀ v : CodeUnit, table.foldl (fun u addr => (u.addBreakpoint addr).1) v =
      { v.standingAs (table.foldl (fun u addr => (u.addBreakpoint addr).1) v) with
        breakpoints := (table.foldl (fun u addr => (u.addBreakpoint addr).1) v).breakpoints } := by
    induction table with
    | nil => exact fun _ => rfl
    | cons addr table ih =>
      intro v
      rw [List.foldl_cons, ih, addBreakpoint_eq]
      rfl
  unfold analysed
  dsimp only
  split
  next hzero => exact hfold _
  next hzero => rfl

/-! ## The graph of a unit -/

variable {u} {g : FlowGraph} {table : List Word} (a : Analyzer) (m : AddressSpace) (reach : Reach)
  (trusted : Bool)

theorem flow_of_graph (hg : u.graph = some g) (table : List Word) :
    u.flow a m reach trusted table = { unit := u, graph := some g, mem := m, analyzer := a } := by
  unfold flow
  rw [hg]

/-- Without a graph at hand the code is analysed. -/
theorem flow_of_none (hg : u.graph = none) (table : List Word) :
    u.flow a m reach trusted table =
      { unit := (a.analyse m u.base reach trusted).graph.elim u (u.analysed · table)
        graph := (a.analyse m u.base reach trusted).graph
        mem := (a.analyse m u.base reach trusted).mem
        analyzer := (a.analyse m u.base reach trusted).analyzer } := by
  unfold flow
  rw [hg]
  dsimp only
  cases (a.analyse m u.base reach trusted).graph <;> rfl

theorem flow_induction {P : CodeUnit → Prop} (hu : P u) (hanalysed : ∀ g, P (u.analysed g table)) :
    P (u.flow a m reach trusted table).unit := by
  cases hg : u.graph with
  | some g =>
    rw [flow_of_graph a m reach trusted hg]
    exact hu
  | none =>
    rw [flow_of_none a m reach trusted hg]
    cases (a.analyse m u.base reach trusted).graph with
    | some g => exact hanalysed g
    | none => exact hu

end CodeUnit

/-! ## Registries and workshops -/

namespace Registry

theorem find?_put_ite (r : Registry) (u : CodeUnit) (b : Word) :
    (r.put u).find? b = if u.base = b then some u else r.find? b := by
  unfold find? put
  rw [Std.HashMap.getElem?_insert]
  simp

theorem find?_put (r : Registry) (u : CodeUnit) : (r.put u).find? u.base = some u := by
  rw [find?_put_ite, if_pos rfl]

theorem find?_modify_ite (r : Registry) (base : Word) (f : CodeUnit → CodeUnit) (b : Word) :
    (r.modify base f).find? b = if base = b then (r.find? b).map f else r.find? b := by
  unfold find? modify
  rw [Std.HashMap.getElem?_modify]
  by_cases h : base = b <;> simp [h]

theorem find?_modify (r : Registry) (base : Word) (f : CodeUnit → CodeUnit) :
    (r.modify base f).find? base = (r.find? base).map f := by
  rw [find?_modify_ite, if_pos rfl]

theorem find?_modifyCovering (r : Registry) (addr : Word) (f : CodeUnit → CodeUnit) (b : Word) :
    (r.modifyCovering addr f).find? b = (r.find? b).map fun u => if u.covers addr then f u else u := by
  unfold find? modifyCovering
  rw [Std.HashMap.getElem?_map]

theorem find?_clearRam (r : Registry) (b : Word) :
    r.clearRam.release.find? b = (r.find? b).filter fun u => u.isRom := by
  unfold find? release clearRam
  dsimp only
  rw [Std.HashMap.getElem?_filter']

end Registry

namespace Workshop

theorem touch_eq (w : Workshop) (base : Word) :
    w.touch base = { w with registry := (w.touch base).registry } := by
  unfold touch
  split <;> rfl

variable {w : Workshop} {base : Word} (m : AddressSpace) (trusted : Bool)

theorem flow_of_none (hfind : w.registry.find? base = none) :
    w.flow m base trusted = { shop := w, mem := m, result := .error (.notCompilable base) } := by
  unfold flow
  rw [hfind]

/-- What the workshop makes of the graph of a unit. -/
theorem exists_flow {u : CodeUnit} (hfind : w.registry.find? base = some u) :
    ∃ stats result,
      w.flow m base trusted =
        { shop :=
            { w with
              registry :=
                w.registry.put (u.flow w.analyzer m w.reach trusted w.breakpoints).unit
              analyzer := (u.flow w.analyzer m w.reach trusted w.breakpoints).analyzer
              stats }
          mem := (u.flow w.analyzer m w.reach trusted w.breakpoints).mem
          result } ∧
        ∀ g, result = .ok g ↔
          (u.flow w.analyzer m w.reach trusted w.breakpoints).graph = some g := by
  have hreach : Workshop.reach { w with analyzer := {} } = w.reach := rfl
  unfold flow
  rw [hfind]
  dsimp only
  rw [hreach]
  cases (u.flow w.analyzer m w.reach trusted w.breakpoints).graph with
  | some g => exact ⟨_, _, rfl, by simp⟩
  | none =>
    dsimp only
    split
    · exact ⟨_, _, rfl, by simp⟩
    · exact ⟨_, _, rfl, by simp⟩

end Workshop

end R3000
