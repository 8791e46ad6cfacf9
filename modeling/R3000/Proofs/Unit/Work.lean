import R3000.Proofs.Unit.Frame

/-!
# What work keeps

Work on units asks for graphs, builds executables from them and installs these, and follows the calls of
a graph.  A property of workshop and memory that each of these steps keeps (`Workshop.Building`,
`Workshop.Following`) holds after all of it.
-/

namespace R3000

namespace Workshop

variable {P : Workshop → AddressSpace → Prop} {G : AddressSpace → Word → FlowGraph → Prop}
  {X : AddressSpace → Word → Stage → Executable → Prop} {w : Workshop} {m : AddressSpace} {base : Word}

/-- An executable that is built is not installed yet. -/
theorem second_build {u : CodeUnit} (hfind : w.registry.find? base = some u) (hnone : u.second = none)
    (m : AddressSpace) (stage : Stage) (trusted : Bool) :
    ∀ v, (w.build m base stage trusted).shop.registry.find? base = some v → v.second = none := by
  have hshop : (w.build m base stage trusted).shop = (w.flow m base trusted).shop := by
    unfold build
    dsimp only
    split <;> rfl
  obtain ⟨stats, result, hflow, -⟩ := exists_flow m trusted hfind
  have hunit : (u.flow w.analyzer m w.reach trusted w.breakpoints).unit.second = none :=
    CodeUnit.flow_induction (P := fun v => v.second = none) w.analyzer m w.reach trusted hnone
      fun g => by
        rw [CodeUnit.analysed_eq]
        exact hnone
  intro v hv
  rw [hshop, hflow] at hv
  change (w.registry.put _).find? base = some v at hv
  rw [Registry.find?_put_ite] at hv
  split at hv
  · cases hv
    exact hunit
  · cases hfind.symm.trans hv
    exact hnone

/-- The property `P` is kept as units are compiled.  On the way `G` holds of the graph of the unit at an
address, and `X` of its executables. -/
structure Building (P : Workshop → AddressSpace → Prop) (G : AddressSpace → Word → FlowGraph → Prop)
    (X : AddressSpace → Word → Stage → Executable → Prop) : Prop where
  flow : ∀ {w m} (base : Word) (trusted : Bool), P w m →
    P (w.flow m base trusted).shop (w.flow m base trusted).mem ∧
      ∀ g, (w.flow m base trusted).result = .ok g → G (w.flow m base trusted).mem base g
  generate : ∀ {w m base} (src : CodeSource) (stage : Stage), P w m → G m base src.graph →
    src.tags = m.tags →
      P w ((src.generate stage).tag m) ∧
        X ((src.generate stage).tag m) base stage (src.generate stage).exe
  count : ∀ {w m} (f : Stats → Stats), P w m → P (w.count f) m
  installFirst : ∀ {w m base x}, P w m → X m base .first x → P (w.installFirst base x) m

namespace Building

variable (hP : Building P G X)
include hP

theorem build (h : P w m) (base : Word) (stage : Stage) (trusted : Bool) :
    P (w.build m base stage trusted).shop (w.build m base stage trusted).mem ∧
      ∀ x, (w.build m base stage trusted).result = .ok x →
        X (w.build m base stage trusted).mem base stage x := by
  obtain ⟨hflow, hgraph⟩ := hP.flow base trusted h
  unfold Workshop.build
  dsimp only
  generalize w.flow m base trusted = out at hflow hgraph ⊢
  cases hr : out.result with
  | error e => exact ⟨hflow, nofun⟩
  | ok g =>
    obtain ⟨htag, hexe⟩ :=
      hP.generate { graph := g, tags := out.mem.tags, config := out.shop.config } stage hflow
        (hgraph g hr) rfl
    refine ⟨htag, ?_⟩
    rintro _ ⟨⟩
    exact hexe

theorem buildFirst (h : P w m) (base : Word) (trusted : Bool) :
    P (w.buildFirst m base trusted).shop (w.buildFirst m base trusted).mem ∧
      ∀ x, (w.buildFirst m base trusted).result = .ok x →
        X (w.buildFirst m base trusted).mem base .first x := by
  obtain ⟨hbuild, hexe⟩ := hP.build h base .first trusted
  unfold Workshop.buildFirst
  dsimp only
  split
  · refine ⟨?_, hexe⟩
    exact hP.count (fun stats => { stats with first := stats.first + 1 }) hbuild
  · exact ⟨hbuild, hexe⟩

theorem firstExecutable (htouch : ∀ {w m} (base : Word), P w m → P (w.touch base) m)
    (hlinks : ∀ {w m} (base : Word), P w m → P { w with queues := w.queues.addLinks base true } m)
    (h : P w m) (base : Word) :
    P (w.firstExecutable m base).shop (w.firstExecutable m base).mem := by
  unfold Workshop.firstExecutable
  split
  · exact htouch base h
  · obtain ⟨hbuild, hexe⟩ := hP.buildFirst h base true
    dsimp only
    generalize w.buildFirst m base true = built at hbuild hexe ⊢
    cases hr : built.result with
    | error e => exact hbuild
    | ok x =>
      have htouched := htouch base (hP.installFirst hbuild (hexe x hr))
      dsimp only
      split
      · exact hlinks base htouched
      · exact htouched

/-- What is about to run is an executable that the unit held, or a new one. -/
theorem result_firstExecutable
    (hheld : ∀ u x, w.registry.find? base = some u → u.first = some x → X m base .first x) (h : P w m)
    {x : Executable} (hx : (w.firstExecutable m base).result = .ok x) :
    X (w.firstExecutable m base).mem base .first x := by
  unfold Workshop.firstExecutable at hx ⊢
  cases hfirst : (w.registry.find? base).bind (·.first) with
  | some y =>
    rw [hfirst] at hx
    cases hx
    obtain ⟨u, hu, hy⟩ := Option.bind_eq_some_iff.mp hfirst
    exact hheld u x hu hy
  | none =>
    rw [hfirst] at hx
    obtain ⟨-, hexe⟩ := hP.buildFirst h base true
    dsimp only at hx ⊢
    generalize w.buildFirst m base true = built at hx hexe ⊢
    cases hr : built.result with
    | error e =>
      rw [hr] at hx
      cases hx
    | ok y =>
      rw [hr] at hx
      cases hx
      exact hexe x hr

theorem compileFirst (h : P w m) (base : Word) :
    P (w.compileFirst m base).shop (w.compileFirst m base).mem := by
  unfold Workshop.compileFirst
  split
  · exact h
  · obtain ⟨hbuild, hexe⟩ := hP.buildFirst h base false
    dsimp only
    generalize w.buildFirst m base false = built at hbuild hexe ⊢
    cases hr : built.result with
    | error e => exact hbuild
    | ok x => exact hP.installFirst hbuild (hexe x hr)

theorem compileSecond (hready : ∀ {w m base x}, P w m → X m base .second x →
      (∀ u, w.registry.find? base = some u → u.second = none) →
      P (w.modifyUnit base fun u => (u.secondReady x).1) m)
    (h : P w m) (base : Word) : P (w.compileSecond m base).shop (w.compileSecond m base).mem := by
  unfold Workshop.compileSecond
  split
  · exact h
  next u hfind =>
    split
    · exact h
    next hlacks =>
      rw [Bool.or_eq_true, not_or] at hlacks
      have hnone := second_build hfind (Option.not_isSome_iff_eq_none.mp hlacks.2) m .second false
      obtain ⟨hbuild, hexe⟩ := hP.build h base .second false
      unfold buildSecond
      dsimp only
      generalize w.build m base .second false = built at hnone hbuild hexe ⊢
      cases hr : built.result with
      | error e => exact hbuild
      | ok x =>
        have hinstalled := hready hbuild (hexe x hr) hnone
        exact hP.count (fun stats => { stats with second := stats.second + 1 }) hinstalled

end Building

/-- The property is also kept as the calls of a graph are followed. -/
structure Following (P : Workshop → AddressSpace → Prop) (G : AddressSpace → Word → FlowGraph → Prop)
    (X : AddressSpace → Word → Stage → Executable → Prop) : Prop extends Building P G X where
  unitAt : ∀ {w m} (base : Word), P w m → P (w.unitAt base).2 m
  follow : ∀ {w m} (target : Word), P w m →
    P { w with
      queues :=
        (if w.config.speculate then w.queues.addFirst target else w.queues).addLinks target false } m

namespace Following

variable (hP : Following P G X)
include hP

theorem followCallee (h : P w m) (target : Word) :
    P (w.followCallee m target).shop (w.followCallee m target).mem := by
  unfold Workshop.followCallee
  split
  · exact h
  next u w' hunit =>
    have hw' : P w' m := by
      unfold unitFor at hunit
      split at hunit
      · cases hunit
        exact hP.unitAt target h
      · cases hunit
    split
    · exact hw'
    · obtain ⟨hflow, -⟩ := hP.flow target false hw'
      dsimp only
      generalize w'.flow m target false = out at hflow ⊢
      cases out.result with
      | error e => exact hflow
      | ok g => exact hP.follow target hflow

theorem followLinks (h : P w m) (base : Word) :
    P (w.followLinks m base).shop (w.followLinks m base).mem := by
  -- Each callee is followed from where the one before it left the workshop.
  have hall : ∀ (l : List Word) (acc : Worked Unit), P acc.shop acc.mem →
      let out := l.foldl (fun (acc : Worked Unit) target => acc.shop.followCallee acc.mem target) acc
      P out.shop out.mem := by
    intro l
    induction l with
    | nil => exact fun _ hacc => hacc
    | cons target l ih => exact fun _ hacc => ih _ (hP.followCallee hacc target)
  obtain ⟨hflow, -⟩ := hP.flow base false h
  unfold Workshop.followLinks
  dsimp only
  generalize w.flow m base false = out at hflow ⊢
  cases out.result with
  | error e => exact hflow
  | ok g => exact hall _ _ hflow

section

variable (hready : ∀ {w m base x}, P w m → X m base .second x →
  (∀ u, w.registry.find? base = some u → u.second = none) →
  P (w.modifyUnit base fun u => (u.secondReady x).1) m)
include hready

theorem perform (h : P w m) (job : Job) : P (w.perform m job).shop (w.perform m job).mem := by
  cases job with
  | followLinks base => exact hP.followLinks h base
  | compileFirst base => exact hP.compileFirst h base
  | compileSecond base => exact hP.compileSecond hready h base

theorem pump (hpop : ∀ {w m} (queues : Queues), P w m → P { w with queues } m) (h : P w m)
    (limit : Nat) : P (w.pump m limit).shop (w.pump m limit).mem := by
  induction limit generalizing w m with
  | zero => exact h
  | succ limit ih =>
    unfold Workshop.pump
    split
    · exact h
    next job queues _ => exact ih (hP.perform hready (hpop queues h) job)

end

end Following

end Workshop

end R3000
