import R3000.Proofs.Unit.Promotion

/-!
# The breakpoint table

A unit comes by breakpoints in two ways: they are handed to it when they are set, and when its range
becomes known it takes those of the table that lie in it.  Either way its breakpoints are the entries of
the table in its range (`CodeUnit.Agrees`), and the work on units keeps that.
-/

namespace R3000

/-! ## Units -/

def UnitEvent.isRanging : UnitEvent → Bool
  | .flow .. | .addBreakpoint _ | .removeBreakpoint _ => true
  | _ => false

namespace CodeUnit

structure Agrees (table : List Word) (u : CodeUnit) : Prop where
  overlay : u.Overlay
  mem_iff : ∀ addr, addr ∈ u.breakpoints ↔ addr ∈ table ∧ u.covers addr = true

variable {table : List Word} {u v : CodeUnit}

theorem same_secondReady (u : CodeUnit) (exe : Executable) : u.SameRange (u.secondReady exe).1 := by
  rw [secondReady_eq]
  exact ⟨rfl, rfl, rfl⟩

theorem same_secondBroken (u : CodeUnit) : u.SameRange u.secondBroken.1 := by
  rw [secondBroken_eq]
  exact ⟨rfl, rfl, rfl⟩

theorem same_after (u : CodeUnit) {e : UnitEvent} (h : e.isRanging = false) : u.SameRange (u.after e) := by
  cases e with
  | countdown => exact u.same_countdown
  | countComplete => exact u.same_countComplete
  | firstReady =>
    change u.SameRange u.firstReady
    rw [firstReady_eq]
    exact ⟨rfl, rfl, rfl⟩
  | installFirst exe =>
    change u.SameRange (u.installFirst exe).2
    rw [installFirst_eq]
    exact ⟨rfl, rfl, rfl⟩
  | secondReady exe => exact u.same_secondReady exe
  | secondBroken => exact u.same_secondBroken
  | firstMispredicted | dropSoftCaches => exact ⟨rfl, rfl, rfl⟩
  | flow | addBreakpoint | removeBreakpoint => cases h

theorem Agrees.after (h : u.Agrees table) {e : UnitEvent} (he : e.isRanging = false) :
    (u.after e).Agrees table where
  overlay := h.overlay.after e
  mem_iff addr := by
    have hsame := u.same_after he
    rw [hsame.breakpoints, covers_congr hsame.base hsame.limit]
    exact h.mem_iff addr

theorem agrees_create (base : Word) (birth threshold : Nat) :
    (create base birth threshold).Agrees table where
  overlay := overlay_create base birth threshold
  mem_iff addr := by
    rw [covers_of_limit rfl]
    simp [create]

theorem mem_addBreakpoint_iff (u : CodeUnit) (addr other : Word) :
    other ∈ (u.addBreakpoint addr).1.breakpoints ↔
      other ∈ u.breakpoints ∨ other = addr ∧ u.covers addr = true := by
  unfold addBreakpoint
  by_cases hcovers : u.covers addr = true
  · by_cases hhas : addr ∈ u.breakpoints
    · simp [hcovers, hhas]
      rintro rfl
      exact hhas
    · by_cases hempty : u.breakpoints = []
      · simp [hcovers, hempty]
      · simp [hcovers, hhas, hempty]
  · simp [hcovers]

theorem range_removeBreakpoint (u : CodeUnit) (addr : Word) :
    (u.removeBreakpoint addr).1.base = u.base ∧ (u.removeBreakpoint addr).1.limit = u.limit := by
  rw [removeBreakpoint_eq]
  exact ⟨rfl, rfl⟩

theorem mem_removeBreakpoint_iff (h : u.breakpoints.Nodup) (addr other : Word) :
    other ∈ (u.removeBreakpoint addr).1.breakpoints ↔ other ∈ u.breakpoints ∧ other ≠ addr := by
  rw [removeBreakpoint_eq]
  exact ((swapRemove_perm _ _).mem_iff.trans h.mem_erase_iff).trans and_comm

theorem Agrees.addBreakpoint (h : u.Agrees table) (addr : Word) :
    (u.addBreakpoint addr).1.Agrees (table ++ [addr]) where
  overlay := h.overlay.addBreakpoint addr
  mem_iff other := by
    obtain ⟨hbase, hlimit⟩ := u.range_addBreakpoint addr
    rw [mem_addBreakpoint_iff, covers_congr hbase hlimit, h.mem_iff, List.mem_append,
      List.mem_singleton]
    constructor
    · rintro (⟨hmem, hcovers⟩ | ⟨rfl, hcovers⟩)
      · exact ⟨Or.inl hmem, hcovers⟩
      · exact ⟨Or.inr rfl, hcovers⟩
    · rintro ⟨hmem | rfl, hcovers⟩
      · exact Or.inl ⟨hmem, hcovers⟩
      · exact Or.inr ⟨rfl, hcovers⟩

/-- A unit that does not cover the address has no breakpoint there to lose. -/
theorem Agrees.removeBreakpoint (h : u.Agrees table) {rest : List Word} {addr : Word}
    (hrest : ∀ other, other ∈ rest ↔ other ∈ table ∧ other ≠ addr) :
    (if u.covers addr then (u.removeBreakpoint addr).1 else u).Agrees rest := by
  split
  · have hrange := u.range_removeBreakpoint addr
    refine ⟨h.overlay.removeBreakpoint addr, fun other => ?_⟩
    rw [mem_removeBreakpoint_iff h.overlay.nodup, covers_congr hrange.1 hrange.2, h.mem_iff, hrest,
      and_right_comm]
  next hcovers =>
    refine ⟨h.overlay, fun other => ?_⟩
    rw [h.mem_iff, hrest]
    constructor
    · rintro ⟨hmem, hother⟩
      refine ⟨⟨hmem, ?_⟩, hother⟩
      rintro rfl
      exact hcovers hother
    · rintro ⟨⟨hmem, -⟩, hother⟩
      exact ⟨hmem, hother⟩

/-- The first analysis hands the unit the table, one entry after another. -/
theorem Agrees.foldl_addBreakpoint {seen : List Word} (h : u.Agrees seen) (rest : List Word) :
    (rest.foldl (fun u addr => (u.addBreakpoint addr).1) u).Agrees (seen ++ rest) := by
  induction rest generalizing seen u with
  | nil =>
    rw [List.append_nil]
    exact h
  | cons addr rest ih =>
    have hrest := ih (h.addBreakpoint addr)
    rwa [List.append_assoc] at hrest

theorem Agrees.analysed (h : u.Agrees table) (g : FlowGraph) : (u.analysed g table).Agrees table := by
  unfold CodeUnit.analysed
  dsimp only
  split
  next hzero =>
    have hranged := h.overlay.ranged g
    rw [if_pos hzero] at hranged
    have hfresh : ({ u with graph := some g, limit := g.limit } : CodeUnit).Agrees [] := by
      refine ⟨hranged, fun addr => ?_⟩
      have hnone : addr ∉ u.breakpoints := fun hmem => by
        have hcovers := h.overlay.covered addr hmem
        rw [covers_of_limit hzero] at hcovers
        cases hcovers
      exact ⟨fun hmem => absurd hmem hnone, fun hmem => nomatch hmem.1⟩
    exact hfresh.foldl_addBreakpoint table
  next => exact ⟨h.overlay.of_same ⟨rfl, rfl, rfl⟩ rfl rfl, h.mem_iff⟩

theorem Agrees.perm_filter (h : u.Agrees table) (htable : table.Nodup) {stop : Word}
    (hstop : u.stop? = some stop) :
    u.breakpoints.Perm (table.filter fun addr => u.base ≤ addr ∧ addr < stop) := by
  refine (List.perm_ext_iff_of_nodup h.overlay.nodup (htable.filter _)).mpr fun addr => ?_
  rw [h.mem_iff, List.mem_filter, covers, hstop]
  simp

end CodeUnit

namespace UnitLaw

def agreeing (table : List Word) : UnitLaw where
  unit _ u := u.Agrees table
  graph _ _ _ := True
  two := True
  reach _ := True
  table breakpoints := breakpoints = table
  keeps h _ := h
  graph_keeps h _ := h
  create _ := CodeUnit.agrees_create
  flow {m u a r breakpoints} trusted h _ _ htable := by
    subst htable
    refine ⟨?_, fun _ _ => trivial⟩
    exact CodeUnit.flow_induction a m r trusted h fun g => h.analysed g
  dropSoftCaches h := h.after (e := .dropSoftCaches) rfl
  installFirst {_ _ exe} h _ := (h.after (e := .installFirst exe) rfl).after (e := .firstReady) rfl
  secondReady {_ _ exe} _ h _ _ := h.after (e := .secondReady exe) rfl
  countdown h := h.after (e := .countdown) rfl
  countComplete h := h.after (e := .countComplete) rfl
  firstMispredicted h := h.after (e := .firstMispredicted) rfl
  secondBroken h _ := h.after (e := .secondBroken) rfl

theorem fixed_agreeing (table : List Word) : (agreeing table).Fixed :=
  fun _ _ _ _ hu => hu

end UnitLaw

namespace Workshop

/-- The table holds no entry twice and is not too long, and the units agree with it. -/
structure Tabled (m : AddressSpace) (w : Workshop) : Prop where
  nodup : w.breakpoints.Nodup
  bounded : w.breakpoints.length ≤ maxBreakpoints
  valid : w.Valid (.agreeing w.breakpoints) m

variable {w w' : Workshop} {m m' : AddressSpace}

theorem tabled_create (config : Config) (m : AddressSpace) : (create config).Tabled m :=
  ⟨List.nodup_nil, Nat.zero_le _, valid_create trivial rfl⟩

theorem Tabled.of_valid (h : w.Tabled m) (hvalid : w'.Valid (.agreeing w.breakpoints) m') :
    w'.Tabled m' := by
  have htable : w'.breakpoints = w.breakpoints := hvalid.table
  refine ⟨?_, ?_, ?_⟩ <;> rw [htable]
  · exact h.nodup
  · exact h.bounded
  · exact hvalid

theorem Tabled.elsewhere (h : w.Tabled m) (m' : AddressSpace) : w.Tabled m' :=
  ⟨h.nodup, h.bounded, h.valid.analyzer, trivial, rfl, h.valid.units⟩

theorem Tabled.addBreakpoint (h : w.Tabled m) (addr : Word) : (w.addBreakpoint addr).1.Tabled m := by
  obtain ⟨hsame, -⟩ | ⟨hmem, hroom, hset⟩ := w.addBreakpoint_cases addr
  · exact hsame.symm ▸ h
  · have hvalid : (w.setBreakpoint addr).Valid (.agreeing (w.breakpoints ++ [addr])) m :=
      h.valid.setBreakpoint trivial rfl fun u hu => hu.addBreakpoint addr
    rw [hset]
    refine ⟨?_, ?_, hvalid⟩
    · change (w.breakpoints ++ [addr]).Nodup
      rw [← List.concat_eq_append]
      exact h.nodup.concat hmem
    · change (w.breakpoints ++ [addr]).length ≤ maxBreakpoints
      rw [List.length_append, List.length_singleton]
      exact hroom

theorem Tabled.removeBreakpoint (h : w.Tabled m) (addr : Word) : (w.removeBreakpoint addr).1.Tabled m := by
  by_cases hmem : addr ∈ w.breakpoints
  · have hperm := swapRemove_perm w.breakpoints addr
    have hvalid : (w.removeBreakpoint addr).1.Valid (.agreeing (swapRemove w.breakpoints addr)) m :=
      h.valid.removeBreakpoint (fun hnew => absurd hmem hnew) trivial (fun _ => rfl)
        fun u hu => hu.removeBreakpoint fun other => by
          rw [hperm.mem_iff, h.nodup.mem_erase_iff]
          exact and_comm
    have htable : (w.removeBreakpoint addr).1.breakpoints = swapRemove w.breakpoints addr := hvalid.table
    refine ⟨?_, ?_, htable ▸ hvalid⟩ <;> rw [htable]
    · exact hperm.nodup_iff.mpr (h.nodup.erase addr)
    · exact hperm.length_eq.trans_le ((List.length_erase_le).trans h.bounded)
  · have hsame : (w.removeBreakpoint addr).1 = w := by
      unfold Workshop.removeBreakpoint
      rw [if_neg fun hold => hmem (List.contains_iff_mem.mp hold)]
    exact hsame.symm ▸ h

theorem Tabled.addBreakpoint_refused_iff (h : w.Tabled m) (addr : Word) :
    (w.addBreakpoint addr).2 = some .breakpointTableFull ↔
      addr ∉ w.breakpoints ∧ w.breakpoints.length = maxBreakpoints := by
  have hbounded := h.bounded
  unfold Workshop.addBreakpoint
  by_cases hmem : addr ∈ w.breakpoints
  · simp [hmem]
  · by_cases hfull : maxBreakpoints ≤ w.breakpoints.length
    · simp [hmem, Nat.le_antisymm hbounded hfull]
    · have hroom : w.breakpoints.length ≠ maxBreakpoints := by omega
      simp [hmem, hfull, hroom]

end Workshop

end R3000
