import R3000.Proofs.Memory.Recall
import R3000.Proofs.Session.Exits

/-!
# Laws of executables

A law of executables (`ExeLaw`) says something of the executables that units hold, by the memory, the
address of the unit and the stage, and something of the memory.  It depends on notes that stay, and
all code generated from such a memory is as the law wants it.  A workshop that obeys the law goes on
doing so, whatever work is done in it and whatever code runs, and only code that is as the law wants
it can fault.
-/

namespace R3000

/-! ## Laws -/

def CodeUnit.executable (u : CodeUnit) : Stage → Option Executable
  | .first => u.first
  | .second => u.second

/-- A property of executables, one of memory and one of graphs: code that is generated from the tags of
such a memory and such a graph is as the law wants it. -/
structure ExeLaw where
  mem : AddressSpace → Prop
  graph : Word → FlowGraph → Prop
  exe : AddressSpace → Word → Stage → Executable → Prop
  mem_recalls : ∀ {m m' : AddressSpace}, m.Recalls m' → mem m → mem m'
  exe_recalls : ∀ {m m' : AddressSpace} {base : Word} {stage : Stage} {x : Executable},
    m.Recalls m' → exe m base stage x → exe m' base stage x
  analysed : ∀ {a : Analyzer} {m : AddressSpace} {base : Word} {reach : Reach} {trusted : Bool}
    {g : FlowGraph}, (a.analyse m base reach trusted).graph = some g → graph base g
  generate : ∀ {m : AddressSpace} {src : CodeSource} {base : Word} (stage : Stage), mem m →
    graph base src.graph → src.tags = m.tags →
      exe ((src.generate stage).tag m) base stage (src.generate stage).exe

namespace ExeLaw

variable {L : ExeLaw} {m m' : AddressSpace} {u u' : CodeUnit}

structure Allows (L : ExeLaw) (m : AddressSpace) (u : CodeUnit) : Prop where
  graph : ∀ g, u.graph = some g → L.graph u.base g
  exe : ∀ stage x, u.executable stage = some x → L.exe m u.base stage x

theorem allows_create (base : Word) (birth threshold : Nat) :
    L.Allows m (.create base birth threshold) :=
  ⟨nofun, fun stage x hx => by cases stage <;> cases hx⟩

theorem Allows.recalls (h : L.Allows m u) (hm : m.Recalls m') : L.Allows m' u :=
  ⟨h.graph, fun stage x hx => L.exe_recalls hm (h.exe stage x hx)⟩

theorem Allows.retains (h : L.Allows m u) (hr : u.Retains u') : L.Allows m u' := by
  refine ⟨fun g hg => hr.base ▸ h.graph g (hr.graph g hg), fun stage x hx => ?_⟩
  rw [hr.base]
  cases stage with
  | first => exact h.exe .first x (hr.first x hx)
  | second => exact h.exe .second x (hr.second x hx)

theorem Allows.analysed (h : L.Allows m u) {g : FlowGraph} (hg : L.graph u.base g)
    (table : List Word) : L.Allows m (u.analysed g table) := by
  rw [CodeUnit.analysed_eq]
  refine ⟨fun g' hg' => Option.some.inj hg' ▸ hg, fun stage x hx => ?_⟩
  cases stage with
  | first => exact h.exe .first x hx
  | second => exact h.exe .second x hx

theorem Allows.flow (h : L.Allows m u) (a : Analyzer) (reach : Reach) (trusted : Bool)
    (table : List Word) : L.Allows m (u.flow a m reach trusted table).unit ∧
      ∀ g, (u.flow a m reach trusted table).graph = some g → L.graph u.base g := by
  cases hg : u.graph with
  | some g =>
    rw [CodeUnit.flow_of_graph a m reach trusted hg]
    exact ⟨h, fun g' hg' => h.graph g' (hg.trans hg')⟩
  | none =>
    rw [CodeUnit.flow_of_none a m reach trusted hg]
    cases hgraph : (a.analyse m u.base reach trusted).graph with
    | some g =>
      have hg := L.analysed hgraph
      exact ⟨h.analysed hg table, fun g' hg' => Option.some.inj hg' ▸ hg⟩
    | none => exact ⟨h, nofun⟩

theorem Allows.installFirst (h : L.Allows m u) {x : Executable} (hx : L.exe m u.base .first x) :
    L.Allows m (u.installFirst x).2.firstReady := by
  refine Allows.retains ?_ (CodeUnit.retains_firstReady _)
  unfold CodeUnit.installFirst
  split
  · exact h
  · refine ⟨h.graph, fun stage y hy => ?_⟩
    cases stage with
    | first =>
      cases hy
      exact hx
    | second => exact h.exe .second y hy

theorem Allows.secondReady (h : L.Allows m u) {x : Executable} (hx : L.exe m u.base .second x) :
    L.Allows m (u.secondReady x).1 := by
  unfold CodeUnit.secondReady
  split
  · exact h
  split
  · exact h
  · dsimp only
    rw [CodeUnit.enterState_eq]
    refine ⟨h.graph, fun stage y hy => ?_⟩
    cases stage with
    | first => exact h.exe .first y hy
    | second =>
      cases hy
      exact hx

end ExeLaw

namespace Workshop

structure Obeys (L : ExeLaw) (w : Workshop) (m : AddressSpace) : Prop where
  mem : L.mem m
  units : w.registry.All (L.Allows m)

namespace Obeys

variable {L : ExeLaw} {w w' : Workshop} {m m' : AddressSpace}

theorem of_registry (h : w.Obeys L m) (hr : w'.registry = w.registry) : w'.Obeys L m :=
  ⟨h.mem, hr ▸ h.units⟩

theorem recalls (h : w.Obeys L m) (hm : m.Recalls m') : w.Obeys L m' :=
  ⟨L.mem_recalls hm h.mem, h.units.mono fun _ hu => hu.recalls hm⟩

theorem put (h : w.Obeys L m) {u : CodeUnit} (hu : L.Allows m u) :
    ({ w with registry := w.registry.put u } : Workshop).Obeys L m :=
  ⟨h.mem, h.units.put hu⟩

theorem put_retains (h : w.Obeys L m) {base : Word} {u u' : CodeUnit}
    (hfind : w.registry.find? base = some u) (hr : u.Retains u') :
    ({ w with registry := w.registry.put u' } : Workshop).Obeys L m :=
  h.put ((h.units base u hfind).2.retains hr)

theorem touch (h : w.Obeys L m) (base : Word) : (w.touch base).Obeys L m := by
  unfold Workshop.touch
  split
  · exact ⟨h.mem, h.units.touch _ fun u hu => hu.retains u.retains_dropSoftCaches⟩
  · exact h

theorem unitAt (h : w.Obeys L m) (base : Word) : (w.unitAt base).2.Obeys L m :=
  ⟨h.mem, (h.units.getOrCreate base fun birth threshold =>
    ExeLaw.allows_create base birth threshold).1⟩

/-- If the code outside ROM is dropped, the memory matters only as far as the law of code in ROM
depends on it. -/
theorem clearCache (h : w.Obeys L m) (hm : L.mem m')
    (hrom : ∀ base stage x, isRom base = true → L.exe m base stage x → L.exe m' base stage x) :
    w.clearCache.Obeys L m' :=
  ⟨hm, h.units.clearRam.mono fun u hu =>
    ⟨hu.1.graph, fun stage x hx => hrom u.base stage x hu.2 (hu.1.exe stage x hx)⟩⟩

theorem addBreakpoint (h : w.Obeys L m) (addr : Word) : (w.addBreakpoint addr).1.Obeys L m := by
  obtain ⟨hsame, -⟩ | ⟨-, -, hset⟩ := w.addBreakpoint_cases addr
  · exact hsame.symm ▸ h
  · rw [hset]
    refine ⟨h.mem, h.units.modifyCovering addr (fun u => (u.retains_addBreakpoint addr).base) ?_⟩
    intro u hu
    split
    · exact hu.retains (u.retains_addBreakpoint addr)
    · exact hu

theorem removeBreakpoint (h : w.Obeys L m) (addr : Word) : (w.removeBreakpoint addr).1.Obeys L m := by
  unfold Workshop.removeBreakpoint
  split
  · refine ⟨h.mem, h.units.modifyCovering addr (fun u => (u.retains_removeBreakpoint addr).base) ?_⟩
    intro u hu
    split
    · exact hu.retains (u.retains_removeBreakpoint addr)
    · exact hu
  · exact h

/-! ## Work -/

theorem flow (h : w.Obeys L m) (base : Word) (trusted : Bool) :
    (w.flow m base trusted).shop.Obeys L (w.flow m base trusted).mem ∧
      ∀ g, (w.flow m base trusted).result = .ok g → L.graph base g := by
  cases hfind : w.registry.find? base with
  | none =>
    rw [Workshop.flow_of_none m trusted hfind]
    exact ⟨h, nofun⟩
  | some u =>
    obtain ⟨rfl, hu⟩ := h.units base u hfind
    obtain ⟨hunit, hgraph⟩ := hu.flow w.analyzer w.reach trusted w.breakpoints
    have hmem := AddressSpace.Recalls.enduring.accessed.unitFlow m u w.analyzer w.reach trusted
      w.breakpoints
    obtain ⟨stats, result, hflow, hresult⟩ := Workshop.exists_flow m trusted hfind
    rw [hflow]
    exact ⟨(h.put hunit).recalls hmem |>.of_registry rfl, fun g hg => hgraph g ((hresult g).mp hg)⟩

theorem installFirst (h : w.Obeys L m) {base : Word} {x : Executable}
    (hx : L.exe m base .first x) : (w.installFirst base x).Obeys L m := by
  refine ⟨h.mem, h.units.modify ?_⟩
  rintro u - rfl hu
  exact ⟨u.base_installFirst x, hu.installFirst hx⟩

theorem following (L : ExeLaw) :
    Following (fun w m => w.Obeys L m) (fun _ => L.graph) L.exe where
  flow base trusted h := h.flow base trusted
  generate _ stage h hg ht :=
    ⟨h.recalls (AddressSpace.Recalls.enduring.accessed.generatedTag _ _),
      L.generate stage h.mem hg ht⟩
  count _ h := h.of_registry rfl
  installFirst h hx := h.installFirst hx
  unitAt base h := h.unitAt base
  follow _ h := h.of_registry rfl

theorem firstExecutable (h : w.Obeys L m) (base : Word) :
    (w.firstExecutable m base).shop.Obeys L (w.firstExecutable m base).mem ∧
      ∀ x, (w.firstExecutable m base).result = .ok x →
        L.exe (w.firstExecutable m base).mem base .first x := by
  refine ⟨(following L).firstExecutable (fun base h => h.touch base) (fun _ h => h.of_registry rfl) h base,
    fun x => (following L).result_firstExecutable (fun u y hu hy => ?_) h⟩
  obtain ⟨rfl, hallows⟩ := h.units base u hu
  exact hallows.exe .first y hy

theorem pump (h : w.Obeys L m) (limit : Nat) :
    (w.pump m limit).shop.Obeys L (w.pump m limit).mem := by
  refine (following L).pump (fun {w m base x} h hx _ => ⟨h.mem, h.units.modify ?_⟩)
    (fun _ h => h.of_registry rfl) h limit
  rintro u - rfl hu
  exact ⟨u.base_secondReady x, hu.secondReady hx⟩

end Obeys

theorem durable_obeys (L : ExeLaw) : Durable fun w m => w.Obeys L m where
  mem _ := AddressSpace.Recalls.enduring.of_imp fun hm h => h.recalls hm
  beside h _ _ _ hr := h.of_registry hr
  unitAt base h := h.unitAt base
  countdown {_ _ _ u} h hfind := h.put_retains hfind u.retains_countdown
  countComplete {_ _ _ u} h hfind :=
    h.put_retains hfind (u.retains_countdown.trans (CodeUnit.retains_countComplete _))
  firstExecutable base h := (h.firstExecutable base).1
  firstMispredicted {_ _ _ u} h hfind := h.put_retains hfind u.retains_firstMispredicted
  secondBroken {_ _ _ u} h hfind _ :=
    h.put_retains hfind (u.retains_firstMispredicted.trans (CodeUnit.retains_secondBroken _))
  clearCache {_ m} h := by
    have hsame : m.Recalls { m with watch := m.watch.answer } := ⟨.refl _, .refl _, .refl _⟩
    exact h.clearCache (L.mem_recalls hsame h.mem) fun _ _ _ _ => L.exe_recalls hsame

end Workshop

namespace Session

variable {L : ExeLaw} {s t : Session} {x : Executable}

theorem exe_of_select (h : s.shop.Obeys L s.mem) {u : CodeUnit} (hu : L.Allows s.mem u)
    (hselect : s.select u = .ok (x, t)) : ∃ base stage, L.exe t.mem base stage x := by
  rcases select_eq_ok hselect with ⟨hsecond, rfl⟩ | ⟨hresult, asked, -, hcount⟩
  · split at hsecond
    · exact ⟨u.base, .second, hu.exe .second x hsecond⟩
    · cases hsecond
  · have hmem := AddressSpace.Recalls.enduring.accessed.entering.countEntry
      { s with
        shop := (s.shop.firstExecutable s.mem u.base).shop
        mem := (s.shop.firstExecutable s.mem u.base).mem } u.base
    rw [hcount] at hmem
    exact ⟨u.base, .first, L.exe_recalls hmem ((h.firstExecutable u.base).2 x hresult)⟩

theorem exe_of_admission (h : s.shop.Obeys L s.mem) {target : Word}
    (hadmission : s.admission target = .ok (x, t)) : ∃ base stage, L.exe t.mem base stage x := by
  obtain ⟨-, -, hfind⟩ := h.units.getOrCreate target fun birth threshold =>
    ExeLaw.allows_create target birth threshold
  have hunit := h.unitAt target
  exact exe_of_select (s := { s with shop := (s.shop.unitAt target).2, depth := s.depth + 1 }) hunit
    (hunit.units target _ hfind).2 (admission_eq_ok hadmission).2

end Session

/-- The fault is one of code that is as the law wants it at the memory. -/
def Fault.Under (L : ExeLaw) (f : Fault) (m : AddressSpace) : Prop :=
  (∃ base stage, L.exe m base stage f.exe) ∧ ((∃ h, f.kind = .host h) ∨ ∃ s, f.Raised s)

namespace Executable

variable {L : ExeLaw} {s t : Session} {f : Fault}

theorem under_of_enter {fuel : Nat}
    (hrun : ∀ {e : Executable} {pc : Nat} {s t : Session}, (∃ base stage, L.exe s.mem base stage e) →
      s.shop.Obeys L s.mem → e.run fuel pc s = (.left (.fault f), t) → f.Under L t.mem)
    {target ret : Word} (hs : s.shop.Obeys L s.mem)
    (h : Session.enter (invoke fuel) target ret s = (.left (.fault f), t)) : f.Under L t.mem := by
  obtain ⟨x, u, v, hadmission, hran, rfl⟩ := (Session.enter_eq_failure rfl).mp h
  have hu : u.shop.Obeys L u.mem := (Workshop.durable_obeys L).entering.admitted hadmission hs
  have hx : ∃ base stage, L.exe u.mem base stage x := Session.exe_of_admission hs hadmission
  exact hrun (s := { u with ret }) (t := v) hx hu hran

/-- A run is left only by faults of code that is as the law wants it.  By induction on the fuel: the
fault of a step is the executable's own, or it comes from an entry, which has less fuel. -/
theorem under_of_run (fuel : Nat) {e : Executable} {pc : Nat} {s t : Session}
    (he : ∃ base stage, L.exe s.mem base stage e) (hs : s.shop.Obeys L s.mem)
    (h : e.run fuel pc s = (.left (.fault f), t)) : f.Under L t.mem := by
  induction fuel generalizing e pc s t with
  | zero => cases h
  | succ fuel ih =>
    have hR := (Workshop.durable_obeys L).steady
    have hM := AddressSpace.Recalls.enduring.accessed.steady
    have hobeys := hR.step (hR.entry fuel) e pc s
    have hrecalls := hM.step (hM.entry fuel) e pc s
    rw [run_succ] at h
    cases hturn : e.step (Session.enter (invoke fuel)) pc s with
    | inl out =>
      rw [hturn] at h hrecalls
      obtain rfl : out = (.left (.fault f), t) := h
      have he' : ∃ base stage, L.exe t.mem base stage e :=
        he.imp fun _ => .imp fun _ hx => L.exe_recalls hrecalls hx
      rcases origin_step hturn with ⟨rfl, hhost | hraised⟩ | ⟨p, hp, a, ha, hexit⟩
      · exact ⟨he', .inl hhost⟩
      · exact ⟨he', .inr ⟨t, hraised⟩⟩
      · have harrives := Position.mem_arrivals (p := { fuel, exe := e, pc, session := s }) hp ha
        exact under_of_enter ih (hR.positionArrivals harrives hs) hexit
    | inr out =>
      obtain ⟨next, u⟩ := out
      rw [hturn] at h hobeys hrecalls
      exact ih (he.imp fun _ => .imp fun _ hx => L.exe_recalls hrecalls hx) (hobeys hs) h

end Executable

theorem Session.under_of_callFrom {L : ExeLaw} {fuel : Nat} {s t : Session} {target ret : Word}
    {f : Fault} (hs : s.shop.Obeys L s.mem)
    (h : s.callFrom fuel target ret = (.left (.fault f), t)) : f.Under L t.mem := by
  unfold Session.callFrom at h
  rw [Session.call_eq] at h
  have hcounted : s.counted.shop.Obeys L s.counted.mem := hs.of_registry rfl
  exact Executable.under_of_enter (Executable.under_of_run fuel) hcounted h

end R3000
