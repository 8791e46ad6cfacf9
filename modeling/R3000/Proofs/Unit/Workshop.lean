import R3000.Proofs.Unit.Validity

/-!
# Work in a valid workshop

Units change one at a time, so a property of all units of a registry is kept if the change of one
unit keeps it.  From this every piece of work in a workshop keeps each law of units, at the memory
that the work returns, and changes nothing there but tags.
-/

namespace R3000

/-! ## All units of a registry -/

namespace Registry

def All (P : CodeUnit → Prop) (r : Registry) : Prop :=
  ∀ base u, r.find? base = some u → u.base = base ∧ P u

variable {P Q : CodeUnit → Prop} {r : Registry} {u : CodeUnit}

theorem All.mono (h : r.All P) (hpq : ∀ u, P u → Q u) : r.All Q :=
  fun base u hu => ⟨(h base u hu).1, hpq u (h base u hu).2⟩

theorem all_create (threshold capacity : Nat) : (create threshold capacity).All P := by
  intro base u hu
  have hnone : (create threshold capacity).find? base = none := Std.HashMap.getElem?_empty
  rw [hnone] at hu
  cases hu

theorem All.put (h : r.All P) (hu : P u) : (r.put u).All P := by
  intro base v hv
  rw [find?_put_ite] at hv
  split at hv
  next hbase =>
    cases hv
    exact ⟨hbase, hu⟩
  next => exact h base v hv

theorem All.modify (h : r.All P) {base : Word} {f : CodeUnit → CodeUnit}
    (hf : ∀ u, r.find? base = some u → u.base = base → P u → (f u).base = u.base ∧ P (f u)) :
    (r.modify base f).All P := by
  intro b v hv
  rw [find?_modify_ite] at hv
  split at hv
  next heq =>
    subst heq
    obtain ⟨u, hu, rfl⟩ := Option.map_eq_some_iff.mp hv
    obtain ⟨hbase, hp⟩ := h _ u hu
    obtain ⟨hbase', hp'⟩ := hf u hu hbase hp
    exact ⟨hbase'.trans hbase, hp'⟩
  next => exact h b v hv

theorem All.modifyCovering (h : r.All P) (addr : Word) {f : CodeUnit → CodeUnit}
    (hbase : ∀ u, (f u).base = u.base) (hf : ∀ u, P u → Q (if u.covers addr then f u else u)) :
    (r.modifyCovering addr f).All Q := by
  intro b v hv
  rw [find?_modifyCovering] at hv
  obtain ⟨u, hu, rfl⟩ := Option.map_eq_some_iff.mp hv
  obtain ⟨hb, hp⟩ := h _ u hu
  refine ⟨?_, hf u hp⟩
  split
  · exact (hbase u).trans hb
  · exact hb

theorem All.clearRam (h : r.All P) : r.clearRam.release.All fun u => P u ∧ u.isRom = true := by
  intro b v hv
  rw [find?_clearRam] at hv
  obtain ⟨hu, hrom⟩ := Option.filter_eq_some_iff.mp hv
  exact ⟨(h b v hu).1, (h b v hu).2, hrom⟩

theorem All.getOrCreate (h : r.All P) (base : Word)
    (hnew : ∀ birth threshold, P (.create base birth threshold)) :
    (r.getOrCreate base).2.All P ∧ (r.getOrCreate base).1.base = base ∧
      (r.getOrCreate base).2.find? base = some (r.getOrCreate base).1 := by
  unfold Registry.getOrCreate
  cases hfind : r.find? base with
  | some u => exact ⟨h, (h base u hfind).1, hfind⟩
  | none =>
    exact ⟨h.put (hnew _ _), rfl, r.find?_put _⟩

theorem All.touch (h : r.All P) (u : CodeUnit)
    (hf : ∀ u, P u → P u.dropSoftCaches) : (r.touch u).All P := by
  unfold Registry.touch
  dsimp only
  split
  · exact h
  · split
    · refine All.modify (r := { r with recent := _ }) h ?_
      intro v _ hbase hp
      split
      · exact ⟨rfl, hf v hp⟩
      · exact ⟨rfl, hp⟩
    · exact h

end Registry

/-! ## Valid workshops -/

variable {L : UnitLaw} {m m' : AddressSpace} {base : Word}

namespace Workshop

/-- The analyzer has its history, and the law holds of every unit. -/
structure Valid (L : UnitLaw) (m : AddressSpace) (w : Workshop) : Prop where
  analyzer : w.analyzer.Used
  reach : L.reach w.reach
  table : L.table w.breakpoints
  units : w.registry.All (L.unit m)

variable {w w' : Workshop}

theorem valid_create {config : Config} (hr : L.reach (create config).reach) (ht : L.table []) :
    (create config).Valid L m :=
  ⟨.fresh, hr, ht, Registry.all_create _ _⟩

theorem Valid.keeps (h : w.Valid L m) (hk : m.Keeps m') : w.Valid L m' :=
  ⟨h.analyzer, h.reach, h.table, h.units.mono fun _ hu => L.keeps hu hk⟩

theorem Valid.of_units (h : w.Valid L m) (ha : w'.analyzer = w.analyzer)
    (hc : w'.config = w.config) (hb : w'.breakpoints = w.breakpoints)
    (hr : w'.registry = w.registry) : w'.Valid L m := by
  refine ⟨ha ▸ h.analyzer, ?_, hb ▸ h.table, hr ▸ h.units⟩
  have hreach : w'.reach = w.reach := by
    unfold Workshop.reach
    rw [hc]
  exact hreach ▸ h.reach

theorem Valid.clearCache (h : w.Valid L m) (hrom : L.Fixed) (m' : AddressSpace) :
    w.clearCache.Valid L m' := by
  refine ⟨h.analyzer, h.reach, h.table, ?_⟩
  refine h.units.clearRam.mono ?_
  intro u hu
  exact hrom m m' u hu.2 hu.1

theorem Valid.put (h : w.Valid L m) {u : CodeUnit} (hu : L.unit m u) :
    ({ w with registry := w.registry.put u } : Workshop).Valid L m :=
  ⟨h.analyzer, h.reach, h.table, h.units.put hu⟩

theorem Valid.touch (h : w.Valid L m) (base : Word) : (w.touch base).Valid L m := by
  unfold Workshop.touch
  split
  · exact ⟨h.analyzer, h.reach, h.table, h.units.touch _ fun _ hu => L.dropSoftCaches hu⟩
  · exact h

theorem Valid.modifyUnit (h : w.Valid L m) {f : CodeUnit → CodeUnit}
    (hf : ∀ u : CodeUnit, w.registry.find? base = some u → u.base = base → L.unit m u →
      (f u).base = u.base ∧ L.unit m (f u)) :
    (w.modifyUnit base f).Valid L m :=
  ⟨h.analyzer, h.reach, h.table, h.units.modify hf⟩

theorem addBreakpoint_cases (w : Workshop) (addr : Word) :
    (w.addBreakpoint addr).1 = w ∧ ((w.addBreakpoint addr).2 = none → addr ∈ w.breakpoints) ∨
      addr ∉ w.breakpoints ∧ w.breakpoints.length < maxBreakpoints ∧
        w.addBreakpoint addr = (w.setBreakpoint addr, none) := by
  unfold Workshop.addBreakpoint
  split
  next hold => exact .inl ⟨rfl, fun _ => List.contains_iff_mem.mp hold⟩
  next hnew =>
    split
    · exact .inl ⟨rfl, nofun⟩
    next hroom =>
      exact .inr ⟨fun hmem => hnew (List.contains_iff_mem.mpr hmem), Nat.lt_of_not_le hroom, rfl⟩

theorem Valid.setBreakpoint {L' : UnitLaw} (h : w.Valid L m) {addr : Word} (hr : L'.reach w.reach)
    (ht : L'.table (w.breakpoints ++ [addr]))
    (hf : ∀ u : CodeUnit, L.unit m u → L'.unit m (u.addBreakpoint addr).1) :
    (w.setBreakpoint addr).Valid L' m := by
  refine ⟨h.analyzer, hr, ht, ?_⟩
  refine h.units.modifyCovering addr (fun u => (u.retains_addBreakpoint addr).base) ?_
  intro u hu
  have hadd := hf u hu
  split
  next => exact hadd
  next hcovers =>
    -- A unit that does not cover the address ignores the breakpoint anyway.
    have hsame : (u.addBreakpoint addr).1 = u := by
      unfold CodeUnit.addBreakpoint
      rw [Bool.eq_false_iff.mpr hcovers]
      rfl
    rwa [hsame] at hadd

theorem Valid.addBreakpoint (h : w.Valid L m) {addr : Word} (ht : ∀ table, L.table table)
    (hf : ∀ u : CodeUnit, L.unit m u → L.unit m (u.addBreakpoint addr).1) :
    (w.addBreakpoint addr).1.Valid L m := by
  obtain ⟨hsame, -⟩ | ⟨-, -, hset⟩ := w.addBreakpoint_cases addr
  · exact hsame.symm ▸ h
  · rw [hset]
    exact h.setBreakpoint h.reach (ht _) hf

theorem Valid.removeBreakpoint {L' : UnitLaw} (h : w.Valid L m) {addr : Word}
    (hold : addr ∉ w.breakpoints → w.Valid L' m)
    (hr : L'.reach w.reach) (ht : addr ∈ w.breakpoints → L'.table (swapRemove w.breakpoints addr))
    (hf : ∀ u : CodeUnit, L.unit m u →
      L'.unit m (if u.covers addr then (u.removeBreakpoint addr).1 else u)) :
    (w.removeBreakpoint addr).1.Valid L' m := by
  unfold Workshop.removeBreakpoint
  split
  next hmem =>
    refine ⟨h.analyzer, hr, ht (by simpa using hmem), ?_⟩
    exact h.units.modifyCovering addr (fun u => (u.retains_removeBreakpoint addr).base) hf
  next hmem => exact hold (by simpa using hmem)

theorem Valid.unitAt (h : w.Valid L m) (base : Word) :
    (w.unitAt base).2.Valid L m ∧ (w.unitAt base).1.base = base ∧
      (w.unitAt base).2.registry.find? base = some (w.unitAt base).1 := by
  obtain ⟨hall, hbase, hfind⟩ := h.units.getOrCreate base fun birth threshold =>
    L.create m base birth threshold
  exact ⟨⟨h.analyzer, h.reach, h.table, hall⟩, hbase, hfind⟩

end Workshop

/-! ## Work -/

structure Worked.Sound {α : Type} (L : UnitLaw) (m : AddressSpace) (out : Worked α) : Prop where
  valid : out.shop.Valid L out.mem
  annotates : m.Annotates out.mem

namespace Workshop

variable {w : Workshop}

theorem Valid.idle {α : Type} (h : w.Valid L m) (a : α) :
    ({ shop := w, mem := m, result := a } : Worked α).Sound L m :=
  ⟨h, .refl m⟩

theorem Valid.flow (h : w.Valid L m) (base : Word) (trusted : Bool) :
    (w.flow m base trusted).Sound L m ∧
      ∀ g, (w.flow m base trusted).result = .ok g → L.graph (w.flow m base trusted).mem base g := by
  cases hfind : w.registry.find? base with
  | none =>
    rw [Workshop.flow_of_none m trusted hfind]
    exact ⟨h.idle _, nofun⟩
  | some u =>
    obtain ⟨hbase, hu⟩ := h.units base u hfind
    obtain ⟨hmem, ha, -⟩ := u.flow_spec h.analyzer m w.reach trusted w.breakpoints
    obtain ⟨hunit, hgraph⟩ := L.flow trusted hu h.analyzer h.reach h.table
    obtain ⟨stats, result, hflow, hresult⟩ := exists_flow m trusted hfind
    rw [hflow]
    refine ⟨⟨⟨ha, h.reach, h.table, (h.keeps hmem.keeps).units.put hunit⟩, hmem⟩, fun g hg => ?_⟩
    exact hbase ▸ hgraph g ((hresult g).mp hg)

theorem Valid.installFirst (h : w.Valid L m) {e : Executable}
    (he : Compiled (L.graph m) base .first e) : (w.installFirst base e).Valid L m := by
  refine h.modifyUnit ?_
  intro u _ hbase hu
  exact ⟨u.base_installFirst e, L.installFirst hu (hbase.symm ▸ he)⟩

theorem following_valid (L : UnitLaw) (m : AddressSpace) :
    Following (fun w m' => w.Valid L m' ∧ m.Annotates m') L.graph
      fun m' base stage e => Compiled (L.graph m') base stage e where
  flow base trusted h := by
    obtain ⟨hsound, hgraph⟩ := h.1.flow base trusted
    exact ⟨⟨hsound.valid, h.2.trans hsound.annotates⟩, hgraph⟩
  generate {_ m' _} src stage h hg _ := by
    have htag := (src.generate stage).annotates_tag m'
    exact ⟨⟨h.1.keeps htag.keeps, h.2.trans htag⟩, _, rfl, L.graph_keeps hg htag.keeps⟩
  count _ h := ⟨h.1.of_units rfl rfl rfl rfl, h.2⟩
  installFirst h he := ⟨h.1.installFirst he, h.2⟩
  unitAt base h := ⟨(h.1.unitAt base).1, h.2⟩
  follow _ h := ⟨h.1.of_units rfl rfl rfl rfl, h.2⟩

theorem Valid.firstExecutable (h : w.Valid L m) (base : Word) :
    (w.firstExecutable m base).Sound L m := by
  obtain ⟨hvalid, hannotates⟩ := (following_valid L m).firstExecutable (fun base h => ⟨h.1.touch base, h.2⟩)
    (fun _ h => ⟨h.1.of_units rfl rfl rfl rfl, h.2⟩) ⟨h, .refl m⟩ base
  exact ⟨hvalid, hannotates⟩

/-- The first executable of a unit that is about to run is code of the unit, if the law says so of
those that units hold. -/
theorem Valid.compiled_firstExecutable (h : w.Valid L m)
    (hfirst : ∀ {u : CodeUnit} {e : Executable}, L.unit m u → u.first = some e →
      Compiled (L.graph m) u.base .first e) {base : Word} {e : Executable}
    (he : (w.firstExecutable m base).result = .ok e) :
    Compiled (L.graph (w.firstExecutable m base).mem) base .first e := by
  refine (following_valid L m).result_firstExecutable (fun u x hu hx => ?_) ⟨h, .refl m⟩ he
  obtain ⟨hbase, hvalid⟩ := h.units base u hu
  exact hbase ▸ hfirst hvalid hx

section

variable (htwo : L.two)
include htwo

theorem Valid.secondReady (h : w.Valid L m) {e : Executable}
    (he : Compiled (L.graph m) base .second e)
    (hnone : ∀ u, w.registry.find? base = some u → u.second = none) :
    (w.modifyUnit base fun u => (u.secondReady e).1).Valid L m := by
  refine h.modifyUnit ?_
  intro u hfind hbase hu
  exact ⟨u.base_secondReady e, L.secondReady htwo hu (hbase.symm ▸ he) (hnone u hfind)⟩

theorem Valid.perform (h : w.Valid L m) (job : Job) : (w.perform m job).Sound L m := by
  obtain ⟨hvalid, hannotates⟩ := (following_valid L m).perform
    (fun h he hnone => ⟨h.1.secondReady htwo he hnone, h.2⟩) ⟨h, .refl m⟩ job
  exact ⟨hvalid, hannotates⟩

theorem Valid.pump (h : w.Valid L m) (limit : Nat) : (w.pump m limit).Sound L m := by
  obtain ⟨hvalid, hannotates⟩ := (following_valid L m).pump
    (fun h he hnone => ⟨h.1.secondReady htwo he hnone, h.2⟩)
    (fun _ h => ⟨h.1.of_units rfl rfl rfl rfl, h.2⟩) ⟨h, .refl m⟩ limit
  exact ⟨hvalid, hannotates⟩

end

theorem pump_of_idle (h : w.queues.pop = none)
    (limit : Nat) : w.pump m limit = { shop := w, mem := m, result := 0 } := by
  cases limit with
  | zero => rfl
  | succ limit =>
    unfold pump
    rw [h]

end Workshop

end R3000
