import Mathlib.Data.List.Perm.Basic
import R3000.Proofs.Session.Validity

/-!
# Units guard their breakpoints

A unit with a breakpoint escapes at every entry, and every breakpoint of the table that lies in the
range on record for a unit is one of the unit's own (`CodeUnit.Guarded`).  So a unit that is entered
has no breakpoint in that range.
-/

namespace R3000

/-! ## The table -/

theorem swapRemove_perm (table : List Word) (addr : Word) :
    (swapRemove table addr).Perm (table.erase addr) := by
  by_cases h : addr ∈ table
  rotate_left
  · rw [swapRemove_of_not_mem h, List.erase_of_not_mem h]
  obtain ⟨before, after, rfl, hnot⟩ := List.eq_append_cons_of_mem h
  have hindex : (before ++ addr :: after).idxOf? addr = some before.length := by
    refine List.idxOf?_eq_some_iff.mpr ⟨by simp, by simp, fun j hj heq => hnot ?_⟩
    rw [List.getElem_append_left hj] at heq
    exact heq ▸ List.getElem_mem hj
  have herase : (before ++ addr :: after).erase addr = before ++ after := by
    rw [List.erase_append_right _ hnot, List.erase_cons_head]
  rw [herase]
  unfold swapRemove
  rw [hindex]
  rcases List.eq_nil_or_concat after with rfl | ⟨middle, last, rfl⟩
  · simp
  · have hlast : (before ++ addr :: middle.concat last).getLast? = some last := by
      rw [List.concat_eq_append, ← List.cons_append, ← List.append_assoc]
      exact List.getLast?_concat
    have hset : (before ++ addr :: middle.concat last).set before.length last =
        (before ++ last :: middle) ++ [last] := by simp
    rw [hlast]
    dsimp only
    rw [hset, List.dropLast_concat, List.concat_eq_append]
    exact List.Perm.append_left before (List.perm_append_singleton last middle).symm

namespace CodeUnit

/-- The unit escapes as long as it has breakpoints, and has all those of the table that lie in its
range. -/
structure Guarded (table : List Word) (u : CodeUnit) : Prop where
  overlay : u.breakpoints ≠ [] → u.state = .breakpoint ∧ u.optimized = false ∧ u.counter = 0
  known : ∀ addr ∈ table, u.covers addr = true → addr ∈ u.breakpoints

variable {table : List Word} {u v : CodeUnit} {addr : Word}

structure SameRange (u v : CodeUnit) : Prop where
  base : v.base = u.base
  limit : v.limit = u.limit
  breakpoints : v.breakpoints = u.breakpoints

theorem SameRange.trans {w : CodeUnit} (h : u.SameRange v) (h' : v.SameRange w) : u.SameRange w :=
  ⟨h'.base.trans h.base, h'.limit.trans h.limit, h'.breakpoints.trans h.breakpoints⟩

theorem covers_congr (hbase : v.base = u.base) (hlimit : v.limit = u.limit) (addr : Word) :
    v.covers addr = u.covers addr := by
  unfold covers stop?
  rw [hbase, hlimit]

theorem Guarded.of_same (h : u.Guarded table) (hv : u.SameRange v)
    (hoverlay : u.state = .breakpoint → u.optimized = false → u.counter = 0 →
      v.state = .breakpoint ∧ v.optimized = false ∧ v.counter = 0) : v.Guarded table where
  overlay hne := by
    rw [hv.breakpoints] at hne
    obtain ⟨hstate, hoptimized, hcounter⟩ := h.overlay hne
    exact hoverlay hstate hoptimized hcounter
  known addr ha hcovers := by
    rw [covers_congr hv.base hv.limit] at hcovers
    exact hv.breakpoints ▸ h.known addr ha hcovers

theorem covers_of_limit (h : u.limit = 0) (addr : Word) : u.covers addr = false := by
  unfold covers stop?
  rw [if_pos h]

theorem guarded_create (base : Word) (birth threshold : Nat) :
    (create base birth threshold).Guarded table where
  overlay hne := absurd rfl hne
  known addr _ hcovers := by
    rw [covers_of_limit rfl] at hcovers
    cases hcovers

/-! ### Breakpoints come and go -/

theorem range_addBreakpoint (u : CodeUnit) (addr : Word) :
    (u.addBreakpoint addr).1.base = u.base ∧ (u.addBreakpoint addr).1.limit = u.limit := by
  rw [addBreakpoint_eq]
  exact ⟨rfl, rfl⟩

theorem mem_addBreakpoint (u : CodeUnit) (addr : Word) :
    (u.covers addr = true → addr ∈ (u.addBreakpoint addr).1.breakpoints) ∧
      ∀ old ∈ u.breakpoints, old ∈ (u.addBreakpoint addr).1.breakpoints := by
  unfold addBreakpoint
  split
  next hskip =>
    refine ⟨fun hcovers => ?_, fun _ hold => hold⟩
    rw [hcovers] at hskip
    simpa using hskip
  next =>
    split
    next hempty =>
      refine ⟨fun _ => List.mem_singleton.mpr rfl, fun old hold => ?_⟩
      rw [List.isEmpty_iff.mp hempty] at hold
      cases hold
    next =>
      exact ⟨fun _ => List.mem_append_right _ (List.mem_singleton.mpr rfl),
        fun _ hold => List.mem_append_left _ hold⟩

theorem Guarded.addBreakpoint (h : u.Guarded table) (addr : Word) :
    (u.addBreakpoint addr).1.Guarded (table ++ [addr]) where
  overlay := by
    have hoverlay := h.overlay
    unfold CodeUnit.addBreakpoint
    split
    · exact hoverlay
    · split
      · exact fun _ => ⟨rfl, rfl, rfl⟩
      next hnone => exact fun _ => hoverlay fun hempty => hnone (List.isEmpty_iff.mpr hempty)
  known old hold hcovers := by
    obtain ⟨hbase, hlimit⟩ := u.range_addBreakpoint addr
    obtain ⟨hnew, hkept⟩ := u.mem_addBreakpoint addr
    rw [covers_congr hbase hlimit] at hcovers
    rcases List.mem_append.mp hold with hold | hold
    · exact hkept old (h.known old hold hcovers)
    · cases List.mem_singleton.mp hold
      exact hnew hcovers

theorem Guarded.removeBreakpoint (h : u.Guarded table) (hnodup : table.Nodup) (addr : Word) :
    (u.removeBreakpoint addr).1.Guarded (table.erase addr) := by
  have hknown : ∀ other ∈ table.erase addr, u.covers other = true →
      other ∈ swapRemove u.breakpoints addr := by
    intro other hother hcovers
    obtain ⟨hne, hmem⟩ := hnodup.mem_erase_iff.mp hother
    rw [(swapRemove_perm _ _).mem_iff]
    exact (List.mem_erase_of_ne hne).mpr (h.known other hmem hcovers)
  unfold CodeUnit.removeBreakpoint
  split
  next hhas =>
    have hoverlay := h.overlay (List.ne_nil_of_mem (List.contains_iff_mem.mp hhas))
    dsimp only
    split
    next hnil _ => exact ⟨fun hne => absurd hnil hne, fun other hother hcovers =>
      hknown other hother hcovers⟩
    next => exact ⟨fun _ => hoverlay, fun other hother hcovers => hknown other hother hcovers⟩
  next hhas =>
    refine ⟨h.overlay, fun other hother hcovers => ?_⟩
    exact h.known other (List.mem_of_mem_erase hother) hcovers

theorem Guarded.foldl_addBreakpoint (h : u.Guarded []) (table : List Word) :
    (table.foldl (fun u addr => (u.addBreakpoint addr).1) u).Guarded table := by
  -- What has been added so far is guarded.
  have hall : ∀ (rest seen : List Word) (u : CodeUnit), u.Guarded seen →
      (rest.foldl (fun u addr => (u.addBreakpoint addr).1) u).Guarded (seen ++ rest) := by
    intro rest
    induction rest with
    | nil =>
      intro seen u hu
      rw [List.append_nil]
      exact hu
    | cons addr rest ih =>
      intro seen u hu
      have hrest := ih (seen ++ [addr]) _ (hu.addBreakpoint addr)
      rwa [List.append_assoc] at hrest
  exact hall table [] u h

theorem Guarded.analysed (h : u.Guarded table) (g : FlowGraph) : (u.analysed g table).Guarded table := by
  unfold CodeUnit.analysed
  dsimp only
  split
  · have hfresh : ({ u with graph := some g, limit := g.limit } : CodeUnit).Guarded [] := by
      refine ⟨h.overlay, fun addr haddr => ?_⟩
      cases haddr
    exact hfresh.foldl_addBreakpoint table
  · exact h.of_same ⟨rfl, rfl, rfl⟩ fun hs ho hc => ⟨hs, ho, hc⟩

/-! ### The rest of a unit's life -/

theorem Guarded.installFirst (h : u.Guarded table) (e : Executable) :
    (u.installFirst e).2.firstReady.Guarded table := by
  have hv : (u.installFirst e).2.Guarded table := by
    rw [installFirst_eq]
    exact h.of_same ⟨rfl, rfl, rfl⟩ fun hs ho hc => ⟨hs, ho, hc⟩
  unfold firstReady
  split
  next hready =>
    refine hv.of_same ⟨rfl, rfl, rfl⟩ fun hs => ?_
    rw [hready.1] at hs
    cases hs
  next => exact hv

/-- What happens under the overlay does not show. -/
theorem Guarded.enterState (h : u.Guarded table) (o : Overlaid) : (u.enterState o).Guarded table := by
  unfold CodeUnit.enterState
  split
  · exact h.of_same ⟨rfl, rfl, rfl⟩ fun hs ho hc => ⟨hs, ho, hc⟩
  next hstate => exact h.of_same ⟨rfl, rfl, rfl⟩ fun hs => absurd hs hstate

theorem Guarded.secondReady (h : u.Guarded table) (e : Executable) :
    (u.secondReady e).1.Guarded table := by
  unfold CodeUnit.secondReady
  split
  · exact h
  split
  · exact h
  · refine Guarded.enterState ?_ _
    exact h.of_same ⟨rfl, rfl, rfl⟩ fun hs ho hc => ⟨hs, ho, hc⟩

theorem Guarded.secondBroken (h : u.Guarded table) : u.secondBroken.1.Guarded table := by
  unfold CodeUnit.secondBroken
  dsimp only
  split
  · exact h.of_same ⟨rfl, rfl, rfl⟩ fun hs ho hc => ⟨hs, ho, hc⟩
  split
  · refine Guarded.enterState ?_ _
    exact h.of_same ⟨rfl, rfl, rfl⟩ fun hs ho hc => ⟨hs, ho, hc⟩
  · refine Guarded.enterState ?_ _
    exact h.of_same ⟨rfl, rfl, rfl⟩ fun hs ho hc => ⟨hs, ho, hc⟩

theorem same_countdown (u : CodeUnit) : u.SameRange u.countdown.1 := by
  rw [countdown_eq]
  exact ⟨rfl, rfl, rfl⟩

theorem same_countComplete (u : CodeUnit) : u.SameRange u.countComplete.1 := by
  rw [countComplete_eq]
  exact ⟨rfl, rfl, rfl⟩

theorem countdown_of_zero (h : u.counter = 0) : u.countdown = (u, true) := by
  unfold countdown
  rw [h]
  rfl

theorem countComplete_of_breakpoint (h : u.state = .breakpoint) : u.countComplete = (u, .escape) := by
  unfold countComplete
  rw [h]

theorem Guarded.countdown (h : u.Guarded table) : u.countdown.1.Guarded table := by
  refine h.of_same u.same_countdown fun hs ho hc => ?_
  rw [countdown_of_zero hc]
  exact ⟨hs, ho, hc⟩

theorem Guarded.countComplete (h : u.Guarded table) : u.countComplete.1.Guarded table := by
  refine h.of_same u.same_countComplete fun hs ho hc => ?_
  rw [countComplete_of_breakpoint hs]
  exact ⟨hs, ho, hc⟩

end CodeUnit

namespace UnitLaw

/-- Units guard the breakpoints of the table. -/
def guarded (table : List Word) : UnitLaw where
  unit _ u := u.Guarded table
  graph _ _ _ := True
  two := True
  reach _ := True
  table breakpoints := breakpoints = table
  keeps h _ := h
  graph_keeps h _ := h
  create _ := CodeUnit.guarded_create
  flow {m u a r breakpoints} trusted h _ _ htable := by
    subst htable
    refine ⟨?_, fun _ _ => trivial⟩
    exact CodeUnit.flow_induction a m r trusted h fun g => h.analysed g
  dropSoftCaches h := h.of_same ⟨rfl, rfl, rfl⟩ fun hs ho hc => ⟨hs, ho, hc⟩
  installFirst {_ _ e} h _ := h.installFirst e
  secondReady {_ _ e} _ h _ _ := h.secondReady e
  countdown h := h.countdown
  countComplete h := h.countComplete
  firstMispredicted h := h.of_same ⟨rfl, rfl, rfl⟩ fun hs ho hc => ⟨hs, ho, hc⟩
  secondBroken h _ := h.secondBroken

theorem fixed_guarded (table : List Word) : (guarded table).Fixed :=
  fun _ _ _ _ hu => hu

end UnitLaw

/-! ## What is entered -/

namespace Registry

variable {r : Registry} {base : Word}

theorem isSome_find?_put (h : (r.find? base).isSome = true) (u : CodeUnit) :
    ((r.put u).find? base).isSome = true := by
  rw [find?_put_ite]
  split
  · rfl
  · exact h

theorem isSome_find?_modify (h : (r.find? base).isSome = true) (b : Word) (f : CodeUnit → CodeUnit) :
    ((r.modify b f).find? base).isSome = true := by
  rw [find?_modify_ite]
  split
  · rw [Option.isSome_map]
    exact h
  · exact h

theorem isSome_find?_touch (h : (r.find? base).isSome = true) (u : CodeUnit) :
    ((r.touch u).find? base).isSome = true := by
  unfold touch
  dsimp only
  split
  · exact h
  · split
    · exact isSome_find?_modify (r := { r with recent := _ }) h _ _
    · exact h

end Registry

namespace Workshop

variable {w : Workshop} {m : AddressSpace} {base : Word}

theorem isSome_find?_firstExecutable (h : (w.registry.find? base).isSome = true) :
    ((w.firstExecutable m base).shop.registry.find? base).isSome = true := by
  have hbuilding : Building (fun w _ => (w.registry.find? base).isSome = true)
      (fun _ _ _ => True) fun _ _ _ _ => True :=
    { flow := fun {w m} other trusted hw => by
        refine ⟨?_, fun _ _ => trivial⟩
        cases hfind : w.registry.find? other with
        | none =>
          rw [flow_of_none m trusted hfind]
          exact hw
        | some u =>
          obtain ⟨stats, result, hflow, -⟩ := exists_flow m trusted hfind
          rw [hflow]
          exact Registry.isSome_find?_put hw _
      generate := fun _ _ hw _ _ => ⟨hw, trivial⟩
      count := fun _ hw => hw
      installFirst := fun hw _ => Registry.isSome_find?_modify hw _ _ }
  refine hbuilding.firstExecutable (fun {w _} other hw => ?_) (fun _ hw => hw) h base
  unfold touch
  split
  · exact Registry.isSome_find?_touch hw _
  · exact hw

end Workshop

namespace Session

variable {s t : Session} {table : List Word} {x : Executable}

theorem unguarded_countEntry {base : Word} (h : s.shop.Valid (.guarded table) s.mem)
    (hknown : (s.shop.registry.find? base).isSome = true) {asked : CountComplete}
    (hcount : s.countEntry base = (asked, t)) (hasked : asked ≠ .escape) :
    ∃ u, t.shop.registry.find? base = some u ∧ u.breakpoints = [] := by
  obtain ⟨u, hu⟩ := Option.isSome_iff_exists.mp hknown
  obtain ⟨hbase, hguarded⟩ := h.units base u hu
  have hnone : u.breakpoints = [] := by
    by_contra hne
    obtain ⟨hstate, -, hcounter⟩ := hguarded.overlay hne
    unfold countEntry at hcount
    rw [hu] at hcount
    dsimp only at hcount
    rw [CodeUnit.countdown_of_zero hcounter] at hcount
    dsimp only at hcount
    rw [if_pos rfl, CodeUnit.countComplete_of_breakpoint hstate] at hcount
    exact hasked (congrArg Prod.fst hcount).symm
  have hput : ∀ v : CodeUnit, u.SameRange v →
      ∃ u', (s.shop.registry.put v).find? base = some u' ∧ u'.breakpoints = [] := by
    intro v hv
    refine ⟨v, ?_, hv.breakpoints.trans hnone⟩
    rw [Registry.find?_put_ite, if_pos (hv.base.trans hbase)]
  have hdown := u.same_countdown
  unfold countEntry at hcount
  rw [hu] at hcount
  dsimp only at hcount
  split at hcount
  · have hboth := hdown.trans u.countdown.1.same_countComplete
    cases hcount
    dsimp only
    split <;> exact hput _ hboth
  · cases hcount
    exact hput _ hdown

theorem unguarded_select (h : s.shop.Valid (.guarded table) s.mem) {u : CodeUnit}
    (hfind : s.shop.registry.find? u.base = some u) (hselect : s.select u = .ok (x, t)) :
    ∃ v, t.shop.registry.find? u.base = some v ∧ v.breakpoints = [] := by
  obtain ⟨-, hguarded⟩ := h.units u.base u hfind
  rcases select_eq_ok hselect with ⟨hsecond, rfl⟩ | ⟨-, asked, hasked, hcount⟩
  · refine ⟨u, hfind, ?_⟩
    by_contra hne
    obtain ⟨-, hoptimized, -⟩ := hguarded.overlay hne
    rw [hoptimized] at hsecond
    cases hsecond
  · have hknown : (s.shop.registry.find? u.base).isSome = true := by
      rw [hfind]
      rfl
    refine unguarded_countEntry (h.firstExecutable u.base).valid ?_ hcount hasked
    exact Workshop.isSome_find?_firstExecutable hknown

theorem unguarded_admission (h : s.shop.Valid (.guarded table) s.mem) {target : Word}
    (hadmission : s.admission target = .ok (x, t)) :
    ∃ u, t.shop.registry.find? target = some u ∧ ∀ addr ∈ table, u.covers addr = false := by
  have hkeeps := s.keeps_admission target h
  rw [hadmission] at hkeeps
  obtain ⟨u, hfind, hnone⟩ : ∃ u, t.shop.registry.find? target = some u ∧ u.breakpoints = [] := by
    obtain ⟨hunit, hbase, hfind⟩ := h.unitAt target
    have hentered := unguarded_select
      (s := { s with shop := (s.shop.unitAt target).2, depth := s.depth + 1 }) hunit
      (hbase.symm ▸ hfind) (admission_eq_ok hadmission).2
    rwa [hbase] at hentered
  refine ⟨u, hfind, fun addr haddr => Bool.eq_false_iff.mpr fun hcovers => ?_⟩
  have hmem := (hkeeps.2.units target u hfind).2.known addr haddr hcovers
  rw [hnone] at hmem
  cases hmem

end Session

end R3000
