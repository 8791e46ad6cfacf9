import R3000.Proofs.Unit.Promotion

/-!
# Units that wait for their second executable

A unit that waits does not count its entries any more, so its place in the queue is its only way to a
second executable.  A unit that waits and has no place is lost (`Workshop.Lost`).  Most work neither lets
a unit begin to wait nor touches the queue (`Workshop.Undisturbed`); a job for a second executable loses
the unit just when its code cannot be read (`Workshop.lost_pump`).
-/

namespace R3000

/-! ## Queues -/

theorem Queues.mem_enqueue (queue : List Word) (base b : Word) :
    b ∈ enqueue queue base ↔ b ∈ queue ∨ b = base := by
  unfold enqueue
  by_cases h : base ∈ queue
  · simp only [List.contains_iff_mem.mpr h, if_true]
    exact ⟨Or.inl, fun hb => hb.elim id fun heq => heq ▸ h⟩
  · simp [h]

theorem Queues.nodup_enqueue {queue : List Word} (h : queue.Nodup) (base : Word) :
    (enqueue queue base).Nodup := by
  unfold enqueue
  split
  · exact h
  next hnew =>
    rw [← List.concat_eq_append]
    exact h.concat fun hmem => hnew (List.contains_iff_mem.mpr hmem)

/-! ## Units -/

/-- The event completes a count or is about a second executable. -/
def UnitEvent.isPromotion : UnitEvent → Bool
  | .countComplete | .secondReady _ | .secondBroken => true
  | _ => false

namespace Promotion

variable {p : Promotion}

def Waits (p : Promotion) : Prop :=
  p.standing.state = .waitingForStage2 ∧ p.gaveUp = false

theorem waits_after (p : Promotion) (overlaid : Bool) {e : UnitEvent} (h : e.isPromotion = false) :
    (p.after overlaid e).Waits ↔ p.Waits := by
  cases e with
  | countdown => cases overlaid with
    | true => rfl
    | false =>
      change p.countdown.Waits ↔ p.Waits
      unfold countdown
      split <;> rfl
  | firstReady => cases overlaid with
    | true => rfl
    | false =>
      change p.firstReady.Waits ↔ p.Waits
      unfold firstReady
      split <;> rfl
  | countComplete | secondReady | secondBroken => cases h
  | flow | installFirst | firstMispredicted | addBreakpoint | removeBreakpoint | dropSoftCaches => rfl

theorem Paced.not_waits_secondReady (h : p.Paced) (exe : Executable) : ¬ (p.secondReady exe).Waits := by
  rintro ⟨hstate, hgave⟩
  unfold Promotion.secondReady at hstate hgave
  split at hgave
  next hg =>
    rw [hg] at hgave
    cases hgave
  next hg =>
    rw [if_neg hg, if_neg h.version_ne] at hstate
    cases hstate

theorem Sound.not_waits_secondBroken (h : p.Sound) : ¬ p.secondBroken.Waits := by
  rintro ⟨hstate, hgave⟩
  unfold Promotion.secondBroken at hstate hgave
  split at hgave
  next hfull =>
    have hmany : p.gaveUp = true := h.gaveUp.mpr (by rw [hfull]; decide)
    rw [hgave] at hmany
    cases hmany
  next hfull =>
    rw [if_neg hfull] at hstate
    split at hgave
    next hless =>
      rw [if_pos hless] at hstate
      cases hstate
    next => cases hgave

theorem Sound.of_waits (h : p.Sound) (hw : p.Waits) :
    p.standing.counter = CodeUnit.disabled ∧ p.second = none := by
  refine ⟨h.promoted (Or.inr hw.1), Option.not_isSome_iff_eq_none.mp fun hs => ?_⟩
  have hstate := h.installed.mpr hs
  rw [hw.1] at hstate
  cases hstate

end Promotion

namespace CodeUnit

variable {u : CodeUnit}

def Waits (u : CodeUnit) : Prop :=
  u.promotion.Waits

theorem waits_after (h : u.Overlay) {e : UnitEvent} (he : e.isPromotion = false) :
    (u.after e).Waits ↔ u.Waits := by
  unfold Waits
  rw [promotion_after h]
  exact u.promotion.waits_after _ he

end CodeUnit

namespace UnitLaw

def ordered : UnitLaw where
  unit _ u := u.Paced
  graph _ _ _ := True
  two := True
  reach _ := True
  table _ := True
  keeps h _ := h
  graph_keeps h _ := h
  create _ := CodeUnit.paced_create
  flow {m _ a r table} trusted h _ _ _ :=
    ⟨h.after (.flow a m r trusted table) rfl, fun _ _ => trivial⟩
  dropSoftCaches h := h.after .dropSoftCaches rfl
  installFirst {_ _ exe} h _ := (h.after (.installFirst exe) rfl).after .firstReady rfl
  secondReady {_ _ exe} _ h _ hnone := h.secondReady exe hnone
  countdown h := h.after .countdown rfl
  countComplete h := h.after .countComplete rfl
  firstMispredicted h := h.after .firstMispredicted rfl
  secondBroken h hsome := h.secondBroken hsome

theorem fixed_ordered : ordered.Fixed :=
  fun _ _ _ _ hu => hu

end UnitLaw

namespace Registry

variable {r : Registry} {u v : CodeUnit} {base : Word}

def Waiting (r : Registry) (base : Word) : Prop :=
  ∃ u, r.find? base = some u ∧ u.Waits

theorem waiting_iff (h : r.find? base = some u) : r.Waiting base ↔ u.Waits := by
  unfold Waiting
  rw [h]
  simp

theorem not_waiting (h : r.find? base = none) : ¬ r.Waiting base := by
  rintro ⟨u, hu, -⟩
  rw [h] at hu
  cases hu

theorem waiting_congr {r' : Registry} {b : Word} (h : r'.find? b = r.find? b) :
    r'.Waiting b ↔ r.Waiting b := by
  unfold Waiting
  rw [h]

theorem waiting_put (hfind : r.find? v.base = some u) (h : v.Waits ↔ u.Waits) (b : Word) :
    (r.put v).Waiting b ↔ r.Waiting b := by
  by_cases hb : v.base = b
  · subst hb
    have hput : (r.put v).find? v.base = some v := by rw [find?_put_ite, if_pos rfl]
    rw [waiting_iff hput, waiting_iff hfind, h]
  · exact waiting_congr (by rw [find?_put_ite, if_neg hb])

theorem waiting_modify {f : CodeUnit → CodeUnit}
    (h : ∀ u, r.find? base = some u → ((f u).Waits ↔ u.Waits)) (b : Word) :
    (r.modify base f).Waiting b ↔ r.Waiting b := by
  by_cases hb : base = b
  · subst hb
    cases hfind : r.find? base with
    | none =>
      refine waiting_congr ?_
      rw [find?_modify_ite, if_pos rfl, hfind]
      rfl
    | some u =>
      have hmodify : (r.modify base f).find? base = some (f u) := by
        rw [find?_modify_ite, if_pos rfl, hfind]
        rfl
      rw [waiting_iff hmodify, waiting_iff hfind, h u hfind]
  · exact waiting_congr (by rw [find?_modify_ite, if_neg hb])

theorem waiting_secondReady (h : r.All CodeUnit.Paced) (base : Word) (exe : Executable) (b : Word) :
    (r.modify base fun u => (u.secondReady exe).1).Waiting b ↔ r.Waiting b ∧ base ≠ b := by
  by_cases hb : base = b
  · subst hb
    refine iff_of_false ?_ fun hw => hw.2 rfl
    rintro ⟨v, hv, hwaits⟩
    rw [find?_modify_ite, if_pos rfl] at hv
    obtain ⟨u, hu, rfl⟩ := Option.map_eq_some_iff.mp hv
    unfold CodeUnit.Waits at hwaits
    have hpaced := (h base u hu).2
    rw [CodeUnit.promotion_secondReady hpaced.overlay] at hwaits
    exact hpaced.promotion.not_waits_secondReady exe hwaits
  · rw [waiting_congr (r := r) (by rw [find?_modify_ite, if_neg hb])]
    exact (and_iff_left hb).symm

theorem waiting_touch (r : Registry) (u : CodeUnit) (b : Word) : (r.touch u).Waiting b ↔ r.Waiting b := by
  unfold touch
  dsimp only
  split
  · rfl
  · split
    · refine waiting_modify (r := { r with recent := _ }) (fun v _ => ?_) b
      split <;> rfl
    · rfl

theorem waiting_getOrCreate (r : Registry) (base b : Word) :
    (r.getOrCreate base).2.Waiting b ↔ r.Waiting b := by
  unfold getOrCreate
  cases hfind : r.find? base with
  | some u => rfl
  | none =>
    dsimp only
    by_cases hb : base = b
    · subst hb
      have hput : (r.put (.create base r.generation r.threshold)).find? base =
          some (.create base r.generation r.threshold) := by
        rw [find?_put_ite]
        exact if_pos rfl
      rw [waiting_iff hput]
      exact ⟨fun hw => (by cases hw.1), fun hw => absurd hw (not_waiting hfind)⟩
    · refine waiting_congr ?_
      rw [find?_put_ite]
      exact if_neg hb

theorem waiting_modifyCovering (r : Registry) (addr : Word) {f : CodeUnit → CodeUnit}
    (h : ∀ b u, r.find? b = some u → ((f u).Waits ↔ u.Waits)) (b : Word) :
    (r.modifyCovering addr f).Waiting b ↔ r.Waiting b := by
  have hmap := r.find?_modifyCovering addr f b
  cases hfind : r.find? b with
  | none => exact waiting_congr (by rw [hmap, hfind]; rfl)
  | some u =>
    rw [hfind] at hmap
    rw [waiting_iff hmap, waiting_iff hfind]
    dsimp only
    split
    · exact h b u hfind
    · rfl

theorem waiting_clearRam {P : CodeUnit → Prop} (h : r.All P) (b : Word) :
    r.clearRam.release.Waiting b ↔ r.Waiting b ∧ isRom b = true := by
  unfold Waiting
  rw [find?_clearRam]
  constructor
  · rintro ⟨u, hu, hw⟩
    obtain ⟨hfind, hrom⟩ := Option.filter_eq_some_iff.mp hu
    have hbase := (h b u hfind).1
    exact ⟨⟨u, hfind, hw⟩, hbase ▸ hrom⟩
  · rintro ⟨⟨u, hfind, hw⟩, hrom⟩
    have hbase := (h b u hfind).1
    exact ⟨u, Option.filter_eq_some_iff.mpr ⟨hfind, by rw [CodeUnit.isRom, hbase]; exact hrom⟩, hw⟩

end Registry

namespace Workshop

variable {w w' w'' : Workshop} {m : AddressSpace} {base : Word}

def Waiting (w : Workshop) (base : Word) : Prop :=
  w.registry.Waiting base

def Lost (w : Workshop) (base : Word) : Prop :=
  w.Waiting base ∧ base ∉ w.queues.second

/-- No unit is lost, none is found again, and those that wait go on waiting. -/
structure KeepsPlaces (w w' : Workshop) : Prop where
  lost : ∀ base, w'.Lost base ↔ w.Lost base
  waiting : ∀ base, w.Waiting base → w'.Waiting base

namespace KeepsPlaces

theorem refl (w : Workshop) : w.KeepsPlaces w :=
  ⟨fun _ => .rfl, fun _ => id⟩

theorem trans (h : w.KeepsPlaces w') (h' : w'.KeepsPlaces w'') : w.KeepsPlaces w'' :=
  ⟨fun base => (h'.lost base).trans (h.lost base), fun base hw => h'.waiting base (h.waiting base hw)⟩

theorem of_eq (hr : w'.registry = w.registry) (hq : w'.queues = w.queues) : w.KeepsPlaces w' := by
  refine ⟨fun base => ?_, fun base hw => ?_⟩
  · unfold Lost Waiting
    rw [hr, hq]
  · unfold Waiting
    rw [hr]
    exact hw

end KeepsPlaces

/-- No unit begins to wait or ceases to, and the queue is as before. -/
structure Undisturbed (w w' : Workshop) : Prop where
  waiting : ∀ base, w'.Waiting base ↔ w.Waiting base
  second : w'.queues.second = w.queues.second
  closed : w'.queues.closed = w.queues.closed
  config : w'.config = w.config

namespace Undisturbed

theorem refl (w : Workshop) : w.Undisturbed w :=
  ⟨fun _ => .rfl, rfl, rfl, rfl⟩

theorem trans (h : w.Undisturbed w') (h' : w'.Undisturbed w'') : w.Undisturbed w'' :=
  ⟨fun base => (h'.waiting base).trans (h.waiting base), h'.second.trans h.second,
    h'.closed.trans h.closed, h'.config.trans h.config⟩

theorem keepsPlaces (h : w.Undisturbed w') : w.KeepsPlaces w' := by
  refine ⟨fun base => ?_, fun base => (h.waiting base).mpr⟩
  unfold Lost
  rw [h.waiting, h.second]

end Undisturbed

theorem undisturbed_flow (h : w.Valid .ordered m) (base : Word) (trusted : Bool) :
    w.Undisturbed (w.flow m base trusted).shop := by
  cases hfind : w.registry.find? base with
  | none =>
    rw [flow_of_none m trusted hfind]
    exact .refl w
  | some u =>
    obtain ⟨hbase, hu⟩ := h.units base u hfind
    have hwaits := CodeUnit.waits_after hu.overlay
      (e := .flow w.analyzer m w.reach trusted w.breakpoints) rfl
    have hflowed : (u.flow w.analyzer m w.reach trusted w.breakpoints).unit.base = base :=
      (u.flow_spec h.analyzer m w.reach trusted w.breakpoints).2.2.trans hbase
    have hput := Registry.waiting_put (hflowed.symm ▸ hfind) hwaits
    obtain ⟨stats, result, hflow, -⟩ := exists_flow m trusted hfind
    rw [hflow]
    exact ⟨hput, rfl, rfl, rfl⟩

theorem undisturbed_installFirst (h : w.Valid .ordered m) (base : Word) (exe : Executable) :
    w.Undisturbed (w.installFirst base exe) := by
  refine ⟨Registry.waiting_modify fun u hfind => ?_, rfl, rfl, rfl⟩
  have hu := (h.units base u hfind).2
  have hinstalled := CodeUnit.waits_after hu.overlay (e := .installFirst exe) rfl
  have hready := CodeUnit.waits_after (hu.overlay.after (.installFirst exe)) (e := .firstReady) rfl
  exact hready.trans hinstalled

theorem undisturbed_touch (w : Workshop) (base : Word) : w.Undisturbed (w.touch base) := by
  unfold touch
  split
  · exact ⟨w.registry.waiting_touch _, rfl, rfl, rfl⟩
  · exact .refl w

theorem undisturbed_addLinks (w : Workshop) (base : Word) (urgent : Bool) :
    w.Undisturbed { w with queues := w.queues.addLinks base urgent } := by
  unfold Queues.addLinks
  split <;> exact ⟨fun _ => .rfl, rfl, rfl, rfl⟩

theorem undisturbed_addFirst (w : Workshop) (base : Word) :
    w.Undisturbed { w with queues := w.queues.addFirst base } := by
  unfold Queues.addFirst
  split <;> exact ⟨fun _ => .rfl, rfl, rfl, rfl⟩

theorem undisturbed_unitAt (w : Workshop) (base : Word) : w.Undisturbed (w.unitAt base).2 :=
  ⟨w.registry.waiting_getOrCreate base, rfl, rfl, rfl⟩

theorem undisturbed_unitFor (h : w.Valid .ordered m) {target : Word} {u : CodeUnit}
    (hunit : w.unitFor target = some (u, w')) : w.Undisturbed w' ∧ w'.Valid .ordered m := by
  unfold unitFor at hunit
  split at hunit
  · cases hunit
    exact ⟨w.undisturbed_unitAt target, (h.unitAt target).1⟩
  · cases hunit

theorem following_undisturbed (w : Workshop) :
    Following (fun w' m => w.Undisturbed w' ∧ w'.Valid .ordered m) (UnitLaw.graph .ordered)
      fun m base stage e => Compiled (UnitLaw.graph .ordered m) base stage e where
  flow base trusted h := by
    obtain ⟨hsound, hgraph⟩ := h.2.flow base trusted
    exact ⟨⟨h.1.trans (undisturbed_flow h.2 base trusted), hsound.valid⟩, hgraph⟩
  generate {_ m _} src stage h hg ht := by
    obtain ⟨⟨hvalid, -⟩, hexe⟩ := (following_valid .ordered m).generate src stage ⟨h.2, .refl m⟩ hg ht
    exact ⟨⟨h.1, hvalid⟩, hexe⟩
  count _ h := ⟨h.1.trans ⟨fun _ => .rfl, rfl, rfl, rfl⟩, h.2.of_units rfl rfl rfl rfl⟩
  installFirst h he := ⟨h.1.trans (undisturbed_installFirst h.2 _ _), h.2.installFirst he⟩
  unitAt base h := ⟨h.1.trans (undisturbed_unitAt _ base), (h.2.unitAt base).1⟩
  follow {w' _} target h := by
    refine ⟨h.1.trans ?_, h.2.of_units rfl rfl rfl rfl⟩
    split
    · exact (w'.undisturbed_addFirst target).trans (undisturbed_addLinks _ target false)
    · exact w'.undisturbed_addLinks target false

theorem undisturbed_firstExecutable (h : w.Valid .ordered m) (base : Word) :
    w.Undisturbed (w.firstExecutable m base).shop :=
  ((following_undisturbed w).firstExecutable
    (fun base h => ⟨h.1.trans (undisturbed_touch _ base), h.2.touch base⟩)
    (fun base h => ⟨h.1.trans (undisturbed_addLinks _ base true), h.2.of_units rfl rfl rfl rfl⟩)
    ⟨.refl w, h⟩ base).1

theorem undisturbed_build (h : w.Valid .ordered m) (base : Word) (stage : Stage) (trusted : Bool) :
    w.Undisturbed (w.build m base stage trusted).shop ∧
      (w.build m base stage trusted).shop.Valid .ordered (w.build m base stage trusted).mem :=
  ((following_undisturbed w).build ⟨.refl w, h⟩ base stage trusted).1

theorem undisturbed_followLinks (h : w.Valid .ordered m) (base : Word) :
    w.Undisturbed (w.followLinks m base).shop :=
  ((following_undisturbed w).followLinks ⟨.refl w, h⟩ base).1

theorem undisturbed_compileFirst (h : w.Valid .ordered m) (base : Word) :
    w.Undisturbed (w.compileFirst m base).shop :=
  ((following_undisturbed w).compileFirst ⟨.refl w, h⟩ base).1

theorem undisturbed_addBreakpoint (h : w.Valid .ordered m) (addr : Word) :
    w.Undisturbed (w.addBreakpoint addr).1 ∧ (w.addBreakpoint addr).1.Valid .ordered m := by
  refine ⟨?_, h.addBreakpoint (fun _ => trivial) fun _ hu => hu.after (.addBreakpoint addr) rfl⟩
  obtain ⟨hsame, -⟩ | ⟨-, -, hset⟩ := w.addBreakpoint_cases addr
  · exact hsame.symm ▸ .refl w
  · rw [hset]
    refine ⟨w.registry.waiting_modifyCovering addr fun b u hfind => ?_, rfl, rfl, rfl⟩
    exact CodeUnit.waits_after (h.units b u hfind).2.overlay (e := .addBreakpoint addr) rfl

theorem undisturbed_removeBreakpoint (h : w.Valid .ordered m) (addr : Word) :
    w.Undisturbed (w.removeBreakpoint addr).1 ∧ (w.removeBreakpoint addr).1.Valid .ordered m := by
  have hvalid : (w.removeBreakpoint addr).1.Valid .ordered m := by
    refine h.removeBreakpoint (fun _ => h) trivial (fun _ => trivial) fun u hu => ?_
    split
    · exact hu.after (.removeBreakpoint addr) rfl
    · exact hu
  refine ⟨?_, hvalid⟩
  unfold removeBreakpoint
  split
  · refine ⟨w.registry.waiting_modifyCovering addr fun b u hfind => ?_, rfl, rfl, rfl⟩
    exact CodeUnit.waits_after (h.units b u hfind).2.overlay (e := .removeBreakpoint addr) rfl
  · exact .refl w

/-! ## Second executables -/

/-- No graph of the unit is at hand, and its code looks like garbage. -/
def Unreadable (w : Workshop) (m : AddressSpace) (base : Word) : Prop :=
  ∃ u, w.registry.find? base = some u ∧ u.graph = none ∧
    (w.analyzer.analyse m base w.reach false).graph = none

theorem buildSecond_error_iff (h : w.Valid .ordered m) {u : CodeUnit}
    (hfind : w.registry.find? base = some u) :
    (∃ e, (w.buildSecond m base).result = .error e) ↔ w.Unreadable m base := by
  have hbase := (h.units base u hfind).1
  have hgraph : (u.flow w.analyzer m w.reach false w.breakpoints).graph = none ↔
      u.graph = none ∧ (w.analyzer.analyse m base w.reach false).graph = none := by
    cases hg : u.graph with
    | some g =>
      rw [CodeUnit.flow_of_graph _ _ _ _ hg]
      simp
    | none =>
      rw [CodeUnit.flow_of_none _ _ _ _ hg, hbase]
      simp
  have hflow : (∃ e, (w.flow m base false).result = .error e) ↔
      (u.flow w.analyzer m w.reach false w.breakpoints).graph = none := by
    obtain ⟨stats, result, hflow, hresult⟩ := exists_flow m false hfind
    rw [hflow]
    cases result with
    | ok g => simp [(hresult g).mp rfl]
    | error e =>
      refine ⟨fun _ => Option.eq_none_iff_forall_ne_some.mpr fun g hg => ?_, fun _ => ⟨e, rfl⟩⟩
      cases (hresult g).mpr hg
  have hbuild : (∃ e, (w.buildSecond m base).result = .error e) ↔
      ∃ e, (w.flow m base false).result = .error e := by
    unfold buildSecond build
    dsimp only
    generalize w.flow m base false = flowed
    cases flowed.result <;> simp
  rw [hbuild, hflow, hgraph]
  constructor
  · rintro ⟨hnone, hgarbage⟩
    exact ⟨u, hfind, hnone, hgarbage⟩
  · rintro ⟨v, hv, hnone, hgarbage⟩
    cases hfind.symm.trans hv
    exact ⟨hnone, hgarbage⟩

/-- A unit waits on after a job for its second executable just when its code cannot be read. -/
theorem waiting_compileSecond (h : w.Valid .ordered m) (base b : Word) :
    (w.compileSecond m base).shop.Waiting b ↔ w.Waiting b ∧ (base = b → w.Unreadable m b) := by
  have hidle : ¬ w.Waiting base → (w.Waiting b ↔ w.Waiting b ∧ (base = b → w.Unreadable m b)) := by
    intro hnot
    refine ⟨fun hw => ⟨hw, fun hb => ?_⟩, And.left⟩
    subst hb
    exact absurd hw hnot
  unfold compileSecond
  cases hfind : w.registry.find? base with
  | none => exact hidle (Registry.not_waiting hfind)
  | some u =>
    have hu := (h.units base u hfind).2
    dsimp only
    split
    next hskip =>
      refine hidle fun hw => ?_
      have hwaits := (Registry.waiting_iff hfind).mp hw
      have hsecond : u.second = none := (hu.promotion.of_waits hwaits).2
      have hgave : u.gaveUp = false := hwaits.2
      rw [hsecond, hgave] at hskip
      cases hskip
    next =>
      obtain ⟨hbuild, hvalid⟩ := undisturbed_build h base .second false
      have herror := buildSecond_error_iff h hfind
      unfold buildSecond at herror ⊢
      generalize w.build m base .second false = built at hbuild hvalid herror ⊢
      cases hresult : built.result with
      | error e =>
        have hbad : w.Unreadable m base := herror.mp ⟨e, hresult⟩
        refine (hbuild.waiting b).trans ⟨fun hw => ⟨hw, fun hb => hb ▸ hbad⟩, And.left⟩
      | ok exe =>
        have hgood : ¬ w.Unreadable m base := fun hbad => by
          obtain ⟨e, he⟩ := herror.mpr hbad
          rw [hresult] at he
          cases he
        change (built.shop.registry.modify base fun u => (u.secondReady exe).1).Waiting b ↔ _
        rw [Registry.waiting_secondReady hvalid.units]
        refine and_congr (hbuild.waiting b) ⟨fun hother hb => absurd hb hother, fun hbad hb => ?_⟩
        subst hb
        exact hgood (hbad rfl)

theorem waiting_perform (h : w.Valid .ordered m) (job : Job) (b : Word) :
    (w.perform m job).shop.Waiting b ↔ w.Waiting b ∧ (job = .compileSecond b → w.Unreadable m b) := by
  cases job with
  | followLinks base =>
    exact ((undisturbed_followLinks h base).waiting b).trans ⟨fun hw => ⟨hw, nofun⟩, And.left⟩
  | compileFirst base =>
    exact ((undisturbed_compileFirst h base).waiting b).trans ⟨fun hw => ⟨hw, nofun⟩, And.left⟩
  | compileSecond base =>
    rw [Job.compileSecond.injEq]
    exact waiting_compileSecond h base b

theorem queues_perform (h : w.Valid .ordered m) (job : Job) :
    (w.perform m job).shop.queues.second = w.queues.second ∧
      (w.perform m job).shop.queues.closed = w.queues.closed ∧
      (w.perform m job).shop.config = w.config := by
  cases job with
  | followLinks base =>
    have hdone := undisturbed_followLinks h base
    exact ⟨hdone.second, hdone.closed, hdone.config⟩
  | compileFirst base =>
    have hdone := undisturbed_compileFirst h base
    exact ⟨hdone.second, hdone.closed, hdone.config⟩
  | compileSecond base =>
    change (w.compileSecond m base).shop.queues.second = _ ∧
      (w.compileSecond m base).shop.queues.closed = _ ∧ (w.compileSecond m base).shop.config = _
    unfold compileSecond
    split
    · exact ⟨rfl, rfl, rfl⟩
    · split
      · exact ⟨rfl, rfl, rfl⟩
      · obtain ⟨hbuild, -⟩ := undisturbed_build h base .second false
        unfold buildSecond
        dsimp only
        generalize w.build m base .second false = built at hbuild ⊢
        cases built.result <;> exact ⟨hbuild.second, hbuild.closed, hbuild.config⟩

/-! ## Jobs -/

/-- Units are in order, no unit has two places in the queue, and places are to be had. -/
structure InOrder (config : Config) (w : Workshop) : Prop where
  analyzer : w.analyzer.Used
  units : w.registry.All CodeUnit.Paced
  nodup : w.queues.second.Nodup
  accepting : w.queues.closed = false
  config : w.config = config

variable {config : Config}

theorem inOrder_create (config : Config) : (create config).InOrder config :=
  ⟨.fresh, Registry.all_create _ _, List.nodup_nil, rfl, rfl⟩

theorem not_waiting_create (config : Config) (base : Word) : ¬ (create config).Waiting base := by
  rintro ⟨u, hu, -⟩
  have hempty : (create config).registry.All fun _ => False := Registry.all_create _ _
  exact (hempty base u hu).2

theorem InOrder.valid (h : w.InOrder config) (m : AddressSpace) : w.Valid .ordered m :=
  ⟨h.analyzer, trivial, trivial, h.units⟩

theorem InOrder.of_eq (h : w.InOrder config) (ha : w'.analyzer = w.analyzer)
    (hr : w'.registry = w.registry) (hq : w'.queues = w.queues) (hc : w'.config = w.config) :
    w'.InOrder config :=
  ⟨ha ▸ h.analyzer, hr ▸ h.units, hq ▸ h.nodup, hq ▸ h.accepting, hc.trans h.config⟩

theorem InOrder.undisturbed (h : w.InOrder config) (hw : w.Undisturbed w')
    (hvalid : w'.Valid .ordered m) : w'.InOrder config where
  analyzer := hvalid.analyzer
  units := hvalid.units
  nodup := hw.second ▸ h.nodup
  accepting := hw.closed.trans h.accepting
  config := hw.config.trans h.config

theorem keepsPlaces_put (h : w.InOrder config) {u v : CodeUnit} (hfind : w.registry.find? base = some u)
    (hbase : v.base = base) (hv : v.Paced) (hwaits : v.Waits ↔ u.Waits) :
    ({ w with registry := w.registry.put v } : Workshop).InOrder config ∧
      w.KeepsPlaces { w with registry := w.registry.put v } := by
  have hsame : w.Undisturbed { w with registry := w.registry.put v } :=
    ⟨Registry.waiting_put (hbase.symm ▸ hfind) hwaits, rfl, rfl, rfl⟩
  exact ⟨h.undisturbed hsame ((h.valid AddressSpace.empty).put hv), hsame.keepsPlaces⟩

theorem lost_clearCache (h : w.InOrder config) :
    w.clearCache.InOrder config ∧ ∀ b, w.clearCache.Lost b ↔ w.Waiting b ∧ isRom b = true := by
  have hvalid := (h.valid AddressSpace.empty).clearCache UnitLaw.fixed_ordered AddressSpace.empty
  refine ⟨⟨hvalid.analyzer, hvalid.units, List.nodup_nil, h.accepting, h.config⟩, fun b => ?_⟩
  change w.registry.clearRam.release.Waiting b ∧ b ∉ [] ↔ _
  rw [Registry.waiting_clearRam h.units]
  exact and_iff_left List.not_mem_nil

/-- The next job is for the unit, which waits, and its code cannot be read. -/
def Fails (w : Workshop) (m : AddressSpace) (base : Word) : Prop :=
  (∃ queues, w.queues.pop = some (.compileSecond base, queues)) ∧ w.Waiting base ∧ w.Unreadable m base

end Workshop

theorem Queues.pop_second {q rest : Queues} {job : Job} (h : q.pop = some (job, rest)) :
    rest.closed = q.closed ∧
      ((∃ base, job = .compileSecond base ∧ q.second = base :: rest.second) ∨
        (∀ base, job ≠ .compileSecond base) ∧ rest.second = q.second) := by
  unfold pop at h
  split at h
  · cases h
    exact ⟨rfl, Or.inr ⟨nofun, rfl⟩⟩
  · cases h
    exact ⟨rfl, Or.inr ⟨nofun, rfl⟩⟩
  next hsecond =>
    cases h
    exact ⟨rfl, Or.inl ⟨_, rfl, hsecond⟩⟩
  · cases h

namespace Workshop

variable {config : Config} {w : Workshop} {m : AddressSpace}

/-- One job loses the unit that it fails, and no other. -/
theorem lost_perform (h : w.InOrder config) {job : Job} {queues : Queues}
    (hpop : w.queues.pop = some (job, queues)) :
    (({ w with queues } : Workshop).perform m job).shop.InOrder config ∧
      ∀ b, (({ w with queues } : Workshop).perform m job).shop.Lost b ↔ w.Lost b ∨ w.Fails m b := by
  have hvalid : ({ w with queues } : Workshop).Valid .ordered m := (h.valid m).of_units rfl rfl rfl rfl
  have hwaiting := waiting_perform hvalid job
  obtain ⟨hsecond, hclosed, hconfig⟩ := queues_perform hvalid job
  have hdone := (hvalid.perform trivial job).valid
  obtain ⟨hstill, hplace⟩ := Queues.pop_second hpop
  have hfails : ∀ b, w.Fails m b ↔ job = .compileSecond b ∧ w.Waiting b ∧ w.Unreadable m b := by
    intro b
    unfold Fails
    rw [hpop]
    simp
  constructor
  · refine ⟨hdone.analyzer, hdone.units, ?_, hclosed.trans (hstill.trans h.accepting),
      hconfig.trans h.config⟩
    rw [hsecond]
    rcases hplace with ⟨base, -, hplaces⟩ | ⟨-, hplaces⟩
    · have hnodup := h.nodup
      rw [hplaces] at hnodup
      exact hnodup.of_cons
    · rw [hplaces]
      exact h.nodup
  · intro b
    have hlost : (({ w with queues } : Workshop).perform m job).shop.Lost b ↔
        (w.Waiting b ∧ (job = .compileSecond b → w.Unreadable m b)) ∧ b ∉ queues.second := by
      unfold Lost
      rw [hwaiting, hsecond]
      rfl
    rw [hlost, hfails]
    unfold Lost
    rcases hplace with ⟨base, rfl, hplaces⟩ | ⟨hother, hplaces⟩
    · have hnodup := h.nodup
      rw [hplaces] at hnodup ⊢
      have hfirst : base ∉ queues.second := (List.nodup_cons.mp hnodup).1
      rw [Job.compileSecond.injEq, List.mem_cons]
      by_cases hb : base = b
      · subst hb
        simp [hfirst]
      · simp [hb, Ne.symm hb]
    · simp [hother, hplaces]

theorem pump_succ {job : Job} {queues : Queues} (hpop : w.queues.pop = some (job, queues))
    (limit : Nat) :
    let done := ({ w with queues } : Workshop).perform m job
    (w.pump m (limit + 1)).shop = (done.shop.pump done.mem limit).shop ∧
      (w.pump m (limit + 1)).mem = (done.shop.pump done.mem limit).mem := by
  rw [pump, hpop]
  exact ⟨rfl, rfl⟩

/-- A unit is lost after some jobs if it was lost before them or one of them failed it. -/
theorem lost_pump (h : w.InOrder config) (limit : Nat) :
    (w.pump m limit).shop.InOrder config ∧
      ∀ b, (w.pump m limit).shop.Lost b ↔
        w.Lost b ∨ ∃ k < limit, (w.pump m k).shop.Fails (w.pump m k).mem b := by
  induction limit generalizing w m with
  | zero => exact ⟨h, fun b => by simp [pump]⟩
  | succ limit ih =>
    cases hpop : w.queues.pop with
    | none =>
      have hnone : ∀ b, ¬ w.Fails m b := by
        rintro b ⟨⟨queues, hsome⟩, -⟩
        rw [hpop] at hsome
        cases hsome
      simp only [pump_of_idle hpop]
      exact ⟨h, fun b => by simp [hnone b]⟩
    | some next =>
      obtain ⟨job, queues⟩ := next
      obtain ⟨horder, hlost⟩ := lost_perform (m := m) h hpop
      obtain ⟨hrest, hlater⟩ := ih (m := (({ w with queues } : Workshop).perform m job).mem) horder
      rw [(pump_succ hpop limit).1]
      refine ⟨hrest, fun b => ?_⟩
      rw [hlater, hlost, or_assoc]
      refine or_congr_right ?_
      constructor
      · rintro (hfails | ⟨k, hk, hfails⟩)
        · exact ⟨0, Nat.succ_pos limit, hfails⟩
        · refine ⟨k + 1, Nat.succ_lt_succ hk, ?_⟩
          rw [(pump_succ hpop k).1, (pump_succ hpop k).2]
          exact hfails
      · rintro ⟨k, hk, hfails⟩
        cases k with
        | zero => exact Or.inl hfails
        | succ k =>
          rw [(pump_succ hpop k).1, (pump_succ hpop k).2] at hfails
          exact Or.inr ⟨k, Nat.lt_of_succ_lt_succ hk, hfails⟩

end Workshop

end R3000
