import R3000.Proofs.Unit.Currency
import R3000.Proofs.Unit.Work

/-!
# Laws of units

What is to hold of every unit of a workshop is a law (`UnitLaw`): it survives each thing that is done
to a unit, and whatever keeps code in memory.  The law of described units says that the graphs they
hold are surveys of their code, and current as long as the watch is not raised.
-/

namespace R3000

/-! ## The compiler only tags

A relation that no tag ends holds from before the work on units to after it. -/

namespace AddressSpace.Tagging

variable {R : AddressSpace → AddressSpace → Prop} (hR : Tagging R) (m : AddressSpace)
include hR

theorem surveyTag (s : Survey) (base : Word) : R m (s.tag base m) := by
  rw [s.tag_eq]
  induction s.visitedOffsets generalizing m with
  | nil => exact hR.refl m
  | cons o l ih =>
    refine hR.trans ?_ (ih _)
    unfold Survey.tagStep
    dsimp only
    split
    · exact hR.trans (hR.setTag m _ _) (hR.setTag _ _ _)
    · exact hR.setTag m _ _

theorem generatedTag (t : Generated) : R m (t.tag m) := by
  unfold Generated.tag
  induction t.unwritten generalizing m with
  | nil => exact hR.refl m
  | cons pc l ih => exact hR.trans (hR.setTag m pc _) (ih _)

theorem analyse (a : Analyzer) (base : Word) (reach : Reach) (trusted : Bool) :
    R m (a.analyse m base reach trusted).mem := by
  cases halign : Word.any base 3 with
  | true =>
    rw [a.analyse_of_unaligned m halign]
    exact hR.refl m
  | false =>
    rw [(a.analyse_of_aligned m halign reach trusted).2]
    split
    · exact hR.surveyTag m _ base
    · exact hR.refl m

theorem unitFlow (u : CodeUnit) (a : Analyzer) (reach : Reach) (trusted : Bool)
    (table : List Word) : R m (u.flow a m reach trusted table).mem := by
  cases hg : u.graph with
  | some g =>
    rw [CodeUnit.flow_of_graph a m reach trusted hg]
    exact hR.refl m
  | none =>
    rw [CodeUnit.flow_of_none a m reach trusted hg]
    exact hR.analyse m a u.base reach trusted

/-! ## Workshops -/

variable (w : Workshop)

theorem flow (base : Word) (trusted : Bool) : R m (w.flow m base trusted).mem := by
  cases hfind : w.registry.find? base with
  | none =>
    rw [Workshop.flow_of_none m trusted hfind]
    exact hR.refl m
  | some u =>
    obtain ⟨stats, result, hflow, -⟩ := Workshop.exists_flow m trusted hfind
    rw [hflow]
    exact hR.unitFlow m u w.analyzer w.reach trusted w.breakpoints

theorem following : Workshop.Following (fun _ m' => R m m') (fun _ _ _ => True)
    fun _ _ _ _ => True where
  flow base trusted h := ⟨hR.trans h (hR.flow _ _ base trusted), fun _ _ => trivial⟩
  generate _ _ h _ _ := ⟨hR.trans h (hR.generatedTag _ _), trivial⟩
  count _ h := h
  installFirst h _ := h
  unitAt _ h := h
  follow _ h := h

theorem firstExecutable (base : Word) : R m (w.firstExecutable m base).mem :=
  (hR.following m).firstExecutable (fun _ h => h) (fun _ h => h) (hR.refl m) base

theorem pump (limit : Nat) : R m (w.pump m limit).mem :=
  (hR.following m).pump (fun h _ _ => h) (fun _ h => h) (hR.refl m) limit

end AddressSpace.Tagging

namespace AddressSpace

/-- Between the two moments nothing but tags has changed, and no code has lost its tag. -/
structure Annotates (m m' : AddressSpace) : Prop where
  keeps : m.Keeps m'
  contents : m'.contents = m.contents
  watch : m'.watch = m.watch

namespace Annotates

variable {m m' m'' : AddressSpace}

theorem refl (m : AddressSpace) : m.Annotates m :=
  ⟨.refl m, rfl, rfl⟩

theorem trans (h : m.Annotates m') (h' : m'.Annotates m'') : m.Annotates m'' :=
  ⟨h.keeps.trans h'.keeps, h'.contents.trans h.contents, h'.watch.trans h.watch⟩

end Annotates

theorem watch_putTags (m : AddressSpace) (addr : Word) (t : UInt8) :
    (m.putTags addr t).watch = m.watch := by
  unfold putTags
  dsimp only
  split <;> rfl

theorem annotates_setTag (m : AddressSpace) (addr : Word) (bits : UInt8) :
    m.Annotates (m.setTag addr bits) := by
  refine ⟨m.keeps_setTag addr bits, contents_setTag m addr bits, ?_⟩
  unfold setTag
  dsimp only
  split
  · rfl
  · exact m.watch_putTags addr _

theorem Annotates.tagging : Tagging Annotates :=
  ⟨.refl, .trans, annotates_setTag⟩

end AddressSpace

theorem Survey.annotates_tag (s : Survey) (base : Word) (m : AddressSpace) :
    m.Annotates (s.tag base m) :=
  AddressSpace.Annotates.tagging.surveyTag m s base

theorem Generated.annotates_tag (t : Generated) (m : AddressSpace) : m.Annotates (t.tag m) :=
  AddressSpace.Annotates.tagging.generatedTag m t

/-! ## Described code -/

/-- The graph is a survey of the code at `base`; at the bases in `W` it is current unless the watch
is raised. -/
def Described (W : Word → Prop) (m : AddressSpace) (base : Word) (g : FlowGraph) : Prop :=
  g.Surveyed base ∧ (m.watch.raised = false → W base → g.Current m)

variable {W : Word → Prop} {two : Prop} {m m' : AddressSpace} {base : Word} {g : FlowGraph}

theorem FlowGraph.Surveyed.aligned (h : g.Surveyed base) : Word.any g.base 3 = false := by
  obtain ⟨w, s, -, ha, -, rfl⟩ := h
  exact ha

theorem Described.keeps (h : Described W m base g) (hk : m.Keeps m') : Described W m' base g :=
  ⟨h.1, fun hq hw => (h.2 (hk.quiet hq) hw).keeps h.1.aligned hk hq⟩

theorem Described.elsewhere (h : Described W m base g) (hw : ¬ W base) (m' : AddressSpace) :
    Described W m' base g :=
  ⟨h.1, fun _ h => absurd h hw⟩

namespace Analyzer

variable {a : Analyzer} {reach : Reach} {trusted : Bool}

theorem Used.described (h : a.Used) (W : Word → Prop) (m : AddressSpace) (base : Word)
    (reach : Reach) (trusted : Bool) :
    m.Annotates (a.analyse m base reach trusted).mem ∧
      ∀ g, (a.analyse m base reach trusted).graph = some g →
        Described W (a.analyse m base reach trusted).mem base g := by
  refine ⟨AddressSpace.Annotates.tagging.analyse m a base reach trusted, fun g hg => ?_⟩
  obtain ⟨halign, rfl⟩ := exists_survey hg
  have hcomplete := (h.complete hg).1
  obtain ⟨pace, hc⟩ := hcomplete.coherent
  refine ⟨⟨_, _, rfl, halign, hcomplete, rfl⟩, fun hq _ => ?_⟩
  rw [(a.analyse_of_aligned m halign reach trusted).2, if_pos (accepted_of_graph hg)] at hq ⊢
  exact hc.current rfl halign hq

end Analyzer

/-! ## Units -/

/-- What an executable of a unit is: code generated from a graph that describes the unit's code. -/
def Compiled (D : Word → FlowGraph → Prop) (base : Word) (stage : Stage) (e : Executable) : Prop :=
  ∃ src : CodeSource, e = (src.generate stage).exe ∧ D base src.graph

variable {D D' : Word → FlowGraph → Prop}

theorem Compiled.mono {stage : Stage} {e : Executable} (h : Compiled D base stage e)
    (hd : ∀ g, D base g → D' base g) : Compiled D' base stage e := by
  obtain ⟨src, he, hg⟩ := h
  exact ⟨src, he, hd _ hg⟩

namespace CodeUnit

/-- What a unit holds describes its code.  Second executables exist only if `two` holds. -/
structure Valid (two : Prop) (D : Word → FlowGraph → Prop) (u : CodeUnit) : Prop where
  graph : ∀ g, u.graph = some g → D u.base g
  first : ∀ e, u.first = some e → Compiled D u.base .first e
  second : ∀ e, u.second = some e → two ∧ Compiled D u.base .second e

/-- The second unit is the first with nothing new in it. -/
structure Retains (u u' : CodeUnit) : Prop where
  base : u'.base = u.base
  graph : ∀ g, u'.graph = some g → u.graph = some g
  first : ∀ e, u'.first = some e → u.first = some e
  second : ∀ e, u'.second = some e → u.second = some e

variable {u u' u'' : CodeUnit}

theorem Valid.mono (h : u.Valid two D) (hd : ∀ g, D u.base g → D' u.base g) : u.Valid two D' where
  graph g hg := hd g (h.graph g hg)
  first e he := (h.first e he).mono hd
  second e he := ⟨(h.second e he).1, (h.second e he).2.mono hd⟩

theorem valid_create (base : Word) (birth threshold : Nat) :
    (create base birth threshold).Valid two D :=
  ⟨nofun, nofun, nofun⟩

theorem Retains.of_eq (hb : u'.base = u.base) (hg : u'.graph = u.graph) (hf : u'.first = u.first)
    (hs : u'.second = u.second) : u.Retains u' :=
  ⟨hb, fun _ h => hg ▸ h, fun _ h => hf ▸ h, fun _ h => hs ▸ h⟩

theorem Retains.trans (h : u.Retains u') (h' : u'.Retains u'') : u.Retains u'' where
  base := h'.base.trans h.base
  graph g hg := h.graph g (h'.graph g hg)
  first e he := h.first e (h'.first e he)
  second e he := h.second e (h'.second e he)

theorem Valid.retains (h : u.Valid two D) (hr : u.Retains u') : u'.Valid two D where
  graph g hg := hr.base ▸ h.graph g (hr.graph g hg)
  first e he := hr.base ▸ h.first e (hr.first e he)
  second e he := hr.base ▸ h.second e (hr.second e he)

theorem retains_addBreakpoint (u : CodeUnit) (addr : Word) :
    u.Retains (u.addBreakpoint addr).1 := by
  rw [addBreakpoint_eq]
  exact .of_eq rfl rfl rfl rfl

theorem retains_removeBreakpoint (u : CodeUnit) (addr : Word) :
    u.Retains (u.removeBreakpoint addr).1 := by
  rw [removeBreakpoint_eq]
  exact .of_eq rfl rfl rfl rfl

theorem retains_dropSoftCaches (u : CodeUnit) : u.Retains u.dropSoftCaches :=
  ⟨rfl, nofun, nofun, fun _ h => h⟩

theorem retains_firstMispredicted (u : CodeUnit) : u.Retains u.firstMispredicted :=
  ⟨rfl, fun _ h => h, nofun, fun _ h => h⟩

theorem retains_firstReady (u : CodeUnit) : u.Retains u.firstReady := by
  rw [firstReady_eq]
  exact .of_eq rfl rfl rfl rfl

theorem retains_countdown (u : CodeUnit) : u.Retains u.countdown.1 := by
  rw [countdown_eq]
  exact .of_eq rfl rfl rfl rfl

theorem retains_countComplete (u : CodeUnit) : u.Retains u.countComplete.1 := by
  rw [countComplete_eq]
  exact .of_eq rfl rfl rfl rfl

theorem retains_secondBroken (u : CodeUnit) : u.Retains u.secondBroken.1 := by
  rw [secondBroken_eq]
  exact ⟨rfl, fun _ h => h, fun _ h => h, nofun⟩

theorem Valid.analysed (h : u.Valid two D) (hg : D u.base g) (table : List Word) :
    (u.analysed g table).Valid two D := by
  rw [analysed_eq]
  refine ⟨?_, h.first, h.second⟩
  rintro _ ⟨⟩
  exact hg

theorem base_analysed (u : CodeUnit) (g : FlowGraph) (table : List Word) :
    (u.analysed g table).base = u.base := by
  rw [analysed_eq]
  rfl

theorem Valid.installFirst (h : u.Valid two D) {e : Executable}
    (he : Compiled D u.base .first e) : (u.installFirst e).2.firstReady.Valid two D := by
  refine Valid.retains ?_ (retains_firstReady _)
  unfold CodeUnit.installFirst
  split
  · exact h
  · refine ⟨h.graph, ?_, h.second⟩
    rintro _ ⟨⟩
    exact he

theorem base_installFirst (u : CodeUnit) (e : Executable) :
    (u.installFirst e).2.firstReady.base = u.base := by
  rw [firstReady_eq, installFirst_eq]

theorem Valid.secondReady (h : u.Valid two D) (htwo : two) {e : Executable}
    (he : Compiled D u.base .second e) : (u.secondReady e).1.Valid two D := by
  unfold CodeUnit.secondReady
  split
  · exact h
  split
  · exact h
  · dsimp only
    rw [enterState_eq]
    refine ⟨h.graph, h.first, ?_⟩
    rintro _ ⟨⟩
    exact ⟨htwo, he⟩

theorem base_secondReady (u : CodeUnit) (e : Executable) : (u.secondReady e).1.base = u.base := by
  rw [secondReady_eq]
  rfl

/-- What asking a unit for its graph does, whatever is known of the unit. -/
theorem flow_spec (u : CodeUnit) {a : Analyzer} (ha : a.Used) (m : AddressSpace) (reach : Reach)
    (trusted : Bool) (table : List Word) :
    let out := u.flow a m reach trusted table
    m.Annotates out.mem ∧ out.analyzer.Used ∧ out.unit.base = u.base := by
  have hbase : (u.flow a m reach trusted table).unit.base = u.base :=
    flow_induction (P := fun v => v.base = u.base) a m reach trusted rfl fun g =>
      u.base_analysed g table
  cases hg : u.graph with
  | some g =>
    rw [flow_of_graph a m reach trusted hg]
    exact ⟨.refl m, ha, rfl⟩
  | none =>
    obtain ⟨hmem, -⟩ := ha.described (fun _ => False) m u.base reach trusted
    refine ⟨?_, ?_, hbase⟩
    · rw [flow_of_none a m reach trusted hg]
      exact hmem
    · rw [flow_of_none a m reach trusted hg]
      exact .analyse ha m u.base reach trusted

end CodeUnit

/-! ## Laws -/

/-- A property of units that the work on them keeps, with what it says of their graphs.  The property
may depend on the memory, as long as it survives what keeps code, and on the settings of the
workshop. -/
structure UnitLaw where
  unit : AddressSpace → CodeUnit → Prop
  graph : AddressSpace → Word → FlowGraph → Prop
  /-- Whether second executables may be installed. -/
  two : Prop
  reach : Reach → Prop
  table : List Word → Prop
  keeps : ∀ {m m' : AddressSpace} {u : CodeUnit}, unit m u → m.Keeps m' → unit m' u
  graph_keeps : ∀ {m m' : AddressSpace} {base : Word} {g : FlowGraph},
    graph m base g → m.Keeps m' → graph m' base g
  create : ∀ (m : AddressSpace) (base : Word) (birth threshold : Nat),
    unit m (.create base birth threshold)
  flow : ∀ {m : AddressSpace} {u : CodeUnit} {a : Analyzer} {r : Reach} {breakpoints : List Word}
    (trusted : Bool), unit m u → a.Used → reach r → table breakpoints →
      unit (u.flow a m r trusted breakpoints).mem (u.flow a m r trusted breakpoints).unit ∧
        ∀ g, (u.flow a m r trusted breakpoints).graph = some g →
          graph (u.flow a m r trusted breakpoints).mem u.base g
  dropSoftCaches : ∀ {m : AddressSpace} {u : CodeUnit}, unit m u → unit m u.dropSoftCaches
  installFirst : ∀ {m : AddressSpace} {u : CodeUnit} {e : Executable}, unit m u →
    Compiled (graph m) u.base .first e → unit m (u.installFirst e).2.firstReady
  secondReady : ∀ {m : AddressSpace} {u : CodeUnit} {e : Executable}, two → unit m u →
    Compiled (graph m) u.base .second e → u.second = none → unit m (u.secondReady e).1
  countdown : ∀ {m : AddressSpace} {u : CodeUnit}, unit m u → unit m u.countdown.1
  countComplete : ∀ {m : AddressSpace} {u : CodeUnit}, unit m u → unit m u.countComplete.1
  firstMispredicted : ∀ {m : AddressSpace} {u : CodeUnit}, unit m u → unit m u.firstMispredicted
  secondBroken : ∀ {m : AddressSpace} {u : CodeUnit}, unit m u → u.second.isSome = true →
    unit m u.secondBroken.1

namespace UnitLaw

/-- What units hold comes from graphs of one kind. -/
def holding (two : Prop) (reach : Reach → Prop) (D : AddressSpace → Word → FlowGraph → Prop)
    (hkeeps : ∀ {m m' : AddressSpace} {base : Word} {g : FlowGraph},
      D m base g → m.Keeps m' → D m' base g)
    (hanalyse : ∀ {m : AddressSpace} {a : Analyzer} {base : Word} {r : Reach} {trusted : Bool}
      {g : FlowGraph}, a.Used → reach r → (a.analyse m base r trusted).graph = some g →
        D (a.analyse m base r trusted).mem base g) : UnitLaw where
  unit m u := u.Valid two (D m)
  graph := D
  two := two
  reach := reach
  table _ := True
  keeps h hk := h.mono fun _ hg => hkeeps hg hk
  graph_keeps := hkeeps
  create _ := CodeUnit.valid_create
  flow {m u a r table} trusted h ha hreach _ := by
    cases hg : u.graph with
    | some g =>
      rw [CodeUnit.flow_of_graph a m r trusted hg]
      refine ⟨h, ?_⟩
      rintro _ ⟨⟩
      exact h.graph g hg
    | none =>
      rw [CodeUnit.flow_of_none a m r trusted hg]
      dsimp only
      obtain ⟨hmem, -⟩ := ha.described (fun _ => False) m u.base r trusted
      refine ⟨?_, fun g hg => hanalyse ha hreach hg⟩
      have hkept : u.Valid two (D (a.analyse m u.base r trusted).mem) :=
        h.mono fun _ hg => hkeeps hg hmem.keeps
      cases hout : (a.analyse m u.base r trusted).graph with
      | some g => exact hkept.analysed (hanalyse ha hreach hout) table
      | none => exact hkept
  dropSoftCaches {_ u} h := h.retains u.retains_dropSoftCaches
  installFirst h he := h.installFirst he
  secondReady htwo h he _ := h.secondReady htwo he
  countdown {_ u} h := h.retains u.retains_countdown
  countComplete {_ u} h := h.retains u.retains_countComplete
  firstMispredicted {_ u} h := h.retains u.retains_firstMispredicted
  secondBroken {_ u} h _ := h.retains u.retains_secondBroken

/-- What the law says of a unit in ROM does not depend on the memory. -/
def Fixed (L : UnitLaw) : Prop :=
  ∀ (m m' : AddressSpace) (u : CodeUnit), u.isRom = true → L.unit m u → L.unit m' u

/-- Graphs are surveys; at the bases in `W` they are current unless the watch is raised. -/
def described (two : Prop) (W : Word → Prop) : UnitLaw :=
  holding two (fun _ => True) (Described W) Described.keeps
    fun {m _ base reach trusted g} ha _ hg => (ha.described W m base reach trusted).2 g hg

theorem fixed_described {two : Prop} {W : Word → Prop} (h : ∀ base, isRom base = true → ¬ W base) :
    (described two W).Fixed :=
  fun _ m' u hrom hu => hu.mono fun _ hg => hg.elsewhere (h u.base hrom) m'

end UnitLaw

end R3000
