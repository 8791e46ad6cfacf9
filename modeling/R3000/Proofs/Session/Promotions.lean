import R3000.Proofs.Session.Admission
import R3000.Proofs.Session.Operations
import R3000.Proofs.Unit.Waiting

/-!
# Promotions that are lost

A unit gets its place in the queue at the moment it begins to wait, and compiled code never takes the
place away (`Session.KeepsPlaces`).  There are two ways to lose it: the queue is cleared while the unit,
being in ROM, stays; and the job for the unit cannot read its code.  Nothing gives a lost unit a new
place, so it is lost until it is retired (`Recompiler.lost_after`).
-/

namespace R3000

/-! ## The entry that completes the count -/

namespace CodeUnit

variable {u : CodeUnit}

/-- Only a unit in its first stage completes its count, and then it waits. -/
theorem Paced.complete (h : u.Paced) (hshown : u.overlaid = none) (hcomplete : u.countdown.2 = true) :
    ¬ u.Waits ∧ u.countdown.1.countComplete.2 = .promote ∧ u.countdown.1.countComplete.1.Waits := by
  have hcounts : u.counter ≠ disabled := fun hd => by
    unfold countdown at hcomplete
    rw [if_pos hd] at hcomplete
    cases hcomplete
  have heff := effective_of_none hshown
  have hstage : u.state = .stage1 := by
    have hpromoted := h.promotion.promoted
    have hstate := (h.overlay.shown hshown).2
    change u.effective.state = _ ∨ u.effective.state = _ → u.effective.counter = _ at hpromoted
    rw [heff] at hpromoted
    cases hs : u.state with
    | stage1 => rfl
    | breakpoint => exact absurd hs hstate
    | stage2 => exact absurd (hpromoted (Or.inl hs)) hcounts
    | waitingForStage2 => exact absurd (hpromoted (Or.inr hs)) hcounts
  have hnot : u.effective.state ≠ .waitingForStage2 := by
    rw [heff]
    exact fun hwaits => nomatch hstage.symm.trans hwaits
  have hgave : u.gaveUp = false := Bool.eq_false_iff.mpr fun hg => hnot (h.promotion.abandoned hg)
  rw [countdown_eq, countComplete]
  simp only [hstage, hgave]
  refine ⟨fun hw => hnot hw.1, rfl, ?_, rfl⟩
  change (u.overlaid.getD _).state = _
  rw [hshown]
  rfl

end CodeUnit

namespace Session

variable {config : Config} {s t u : Session} {base : Word}

theorem countEntry_of_complete (h : s.shop.InOrder config) (hpromote : config.promote = true)
    {u : CodeUnit} (hfind : s.shop.registry.find? base = some u) (hshown : u.overlaid = none)
    (hcomplete : u.countdown.2 = true) :
    s.countEntry base =
      (.promote,
        { s with
          shop :=
            { s.shop with
              registry := s.shop.registry.put u.countdown.1.countComplete.1
              queues := s.shop.queues.addSecond base } }) := by
  obtain ⟨-, hasked, -⟩ := (h.units base u hfind).2.complete hshown hcomplete
  unfold countEntry
  rw [hfind]
  dsimp only
  rw [if_pos hcomplete, hasked, if_pos ⟨rfl, h.config.symm ▸ hpromote⟩]

/-- From the first session to the second the workshop stays in order, and places are kept. -/
def KeepsPlaces (config : Config) (s t : Session) : Prop :=
  s.shop.InOrder config → t.shop.InOrder config ∧ s.shop.KeepsPlaces t.shop

namespace KeepsPlaces

theorem trans (h : s.KeepsPlaces config t) (h' : t.KeepsPlaces config u) : s.KeepsPlaces config u := by
  intro hs
  obtain ⟨ht, hplaces⟩ := h hs
  obtain ⟨hu, hplaces'⟩ := h' ht
  exact ⟨hu, hplaces.trans hplaces'⟩

theorem of_undisturbed (h : s.shop.InOrder config → s.shop.Undisturbed t.shop)
    (hvalid : s.Keeps .ordered t) : s.KeepsPlaces config t := fun hs =>
  ⟨hs.undisturbed (h hs) (hvalid (hs.valid _)).2, (h hs).keepsPlaces⟩

theorem of_eq (ha : t.shop.analyzer = s.shop.analyzer) (hr : t.shop.registry = s.shop.registry)
    (hq : t.shop.queues = s.shop.queues) (hc : t.shop.config = s.shop.config) :
    s.KeepsPlaces config t :=
  fun hs => ⟨hs.of_eq ha hr hq hc, .of_eq hr hq⟩

theorem of_shop (h : t.shop = s.shop) : s.KeepsPlaces config t := by
  refine .of_eq ?_ ?_ ?_ ?_ <;> rw [h]

end KeepsPlaces

theorem keepsPlaces_place (h : s.shop.InOrder config) {v : CodeUnit} (hv : v.Paced)
    (hnot : ¬ s.shop.Waiting v.base)
    (hshop : t.shop =
      { s.shop with
        registry := s.shop.registry.put v
        queues := s.shop.queues.addSecond v.base }) :
    t.shop.InOrder config ∧ s.shop.KeepsPlaces t.shop := by
  have hput := (h.valid s.mem).put hv
  have hothers : ∀ b, v.base ≠ b → ((s.shop.registry.put v).Waiting b ↔ s.shop.Waiting b) :=
    fun b hb => Registry.waiting_congr (by rw [Registry.find?_put_ite, if_neg hb])
  rw [hshop, Queues.addSecond, h.accepting, if_neg Bool.false_ne_true]
  refine ⟨⟨hput.analyzer, hput.units, Queues.nodup_enqueue h.nodup _, rfl, h.config⟩,
    fun b => ?_, fun b hw => (hothers b fun hb => hnot (hb ▸ hw)).mpr hw⟩
  change (s.shop.registry.put v).Waiting b ∧ b ∉ Queues.enqueue s.shop.queues.second v.base ↔ _
  rw [Queues.mem_enqueue]
  by_cases hb : v.base = b
  · subst hb
    exact ⟨fun hlost => absurd (Or.inr rfl) hlost.2, fun hlost => absurd hlost.1 hnot⟩
  · rw [hothers b hb]
    simp [Workshop.Lost, Ne.symm hb]

theorem keepsPlaces_countEntry (hpromote : config.promote = true) (s : Session) (base : Word) :
    s.KeepsPlaces config (s.countEntry base).2 := by
  cases hfind : s.shop.registry.find? base with
  | none =>
    refine .of_shop ?_
    unfold countEntry
    rw [hfind]
  | some u =>
    intro h
    obtain ⟨hbase, hu⟩ := h.units base u hfind
    -- Only a unit that completes its count without breakpoints begins to wait.
    by_cases hplace : u.overlaid = none ∧ u.countdown.2 = true
    · obtain ⟨hnot, -, -⟩ := hu.complete hplace.1 hplace.2
      have hcount := u.same_countdown.trans u.countdown.1.same_countComplete
      have hv : u.countdown.1.countComplete.1.base = base := hcount.base.trans hbase
      refine keepsPlaces_place h ((hu.after .countdown rfl).after .countComplete rfl) ?_ ?_
      · change ¬ s.shop.Waiting u.countdown.1.countComplete.1.base
        rw [hv]
        exact fun hw => hnot ((Registry.waiting_iff hfind).mp hw)
      · change _ = { s.shop with
          registry := s.shop.registry.put u.countdown.1.countComplete.1
          queues := s.shop.queues.addSecond u.countdown.1.countComplete.1.base }
        rw [countEntry_of_complete h hpromote hfind hplace.1 hplace.2, hv]
    · have hput : ∃ v, (s.countEntry base).2.shop = { s.shop with registry := s.shop.registry.put v } ∧
          v.base = base ∧ v.Paced ∧ (v.Waits ↔ u.Waits) := by
        unfold countEntry
        rw [hfind]
        dsimp only
        by_cases hcomplete : u.countdown.2 = true
        · obtain ⟨o, ho⟩ := Option.ne_none_iff_exists'.mp fun hnone => hplace ⟨hnone, hcomplete⟩
          obtain ⟨-, hstate, -, hzero, -⟩ := hu.overlay.hidden o ho
          refine ⟨u, ?_, hbase, hu, .rfl⟩
          rw [CodeUnit.countdown_of_zero hzero]
          dsimp only
          rw [if_pos rfl, CodeUnit.countComplete_of_breakpoint hstate]
          rfl
        · rw [if_neg hcomplete]
          exact ⟨_, rfl, u.same_countdown.base.trans hbase, hu.after .countdown rfl,
            CodeUnit.waits_after hu.overlay (e := .countdown) rfl⟩
      obtain ⟨v, hshop, hv, hordered, hwaits⟩ := hput
      rw [hshop]
      exact Workshop.keepsPlaces_put h hfind hv hordered hwaits

theorem KeepsPlaces.entering (hpromote : config.promote = true) : Entering (KeepsPlaces config) where
  refl _ := .of_shop rfl
  trans := .trans
  count _ _ := .of_eq rfl rfl rfl rfl
  depth _ _ := .of_shop rfl
  unitAt s base :=
    .of_undisturbed (fun _ => s.shop.undisturbed_unitAt base) fun h => ⟨.refl _, (h.unitAt base).1⟩
  firstExecutable s base := by
    refine .of_undisturbed (fun h => Workshop.undisturbed_firstExecutable (h.valid s.mem) base) ?_
    intro h
    have hsound := h.firstExecutable base
    exact ⟨hsound.annotates.keeps, hsound.valid⟩
  countEntry s base := keepsPlaces_countEntry hpromote s base

end Session

namespace Session

variable {config : Config}

/-- Compiled code takes no place away and gives none to a lost unit. -/
theorem KeepsPlaces.steady (hpromote : config.promote = true) : Steady (KeepsPlaces config) where
  trans := .trans
  micro m s := .of_shop (m.shop_perform s)
  beside h := .of_shop h.shop
  counted _ := .of_eq rfl rfl rfl rfl
  refused h := (KeepsPlaces.entering hpromote).refused h
  admitted {s t u target ret x} h hu := by
    have hret : t.KeepsPlaces config { t with ret } := .of_shop rfl
    exact ((KeepsPlaces.entering hpromote).admitted h).trans (hret.trans (hu.trans (.of_shop rfl)))

end Session

namespace Recompiler

variable {config : Config} {r : Recompiler}

/-- The recompiler is in order, and has kept the places of the workshop. -/
def Follows (config : Config) (w : Workshop) (r : Recompiler) : Prop :=
  r.shop.InOrder config ∧ w.KeepsPlaces r.shop

theorem follows_of_eq {w : Workshop} (h : w.InOrder config) (ha : r.shop.analyzer = w.analyzer)
    (hr : r.shop.registry = w.registry) (hq : r.shop.queues = w.queues) (hc : r.shop.config = w.config) :
    r.Follows config w :=
  ⟨h.of_eq ha hr hq hc, .of_eq hr hq⟩

theorem Follows.of_places {w w' : Workshop} (h : r.Follows config w') (hw : w.KeepsPlaces w') :
    r.Follows config w :=
  ⟨h.1, hw.trans h.2⟩

theorem Follows.trans {r r' : Recompiler} {w : Workshop} (h : r.Follows config w)
    (h' : r.shop.InOrder config → r'.Follows config r.shop) : r'.Follows config w :=
  (h' h.1).of_places h.2

theorem follows_mispredicted (h : r.shop.InOrder config) (exe : Executable) :
    (r.mispredicted exe).Follows config r.shop := by
  unfold mispredicted
  cases hfind : r.shop.registry.find? exe.base with
  | none => exact ⟨h, .refl _⟩
  | some u =>
    obtain ⟨hbase, hu⟩ := h.units exe.base u hfind
    have hfirst : u.firstMispredicted.Paced := hu.after .firstMispredicted rfl
    dsimp only
    split
    next hbroken =>
      -- A unit with a second executable does not wait, and does not begin to.
      have hsecond : u.second.isSome = true := hbroken.2
      have hnot : ¬ u.Waits := fun hw => by
        have hnone : u.second = none := (hu.promotion.of_waits hw).2
        rw [hnone] at hsecond
        cases hsecond
      have hafter : ¬ u.firstMispredicted.secondBroken.1.Waits := by
        unfold CodeUnit.Waits
        rw [CodeUnit.promotion_secondBroken hfirst.overlay]
        exact hfirst.promotion.not_waits_secondBroken
      obtain ⟨horder, hplaces⟩ := Workshop.keepsPlaces_put h hfind
        (v := u.firstMispredicted.secondBroken.1) ((CodeUnit.retains_secondBroken _).base.trans hbase)
        (hfirst.secondBroken hsecond) (iff_of_false hafter hnot)
      refine Follows.of_places ?_ hplaces
      split <;> exact follows_of_eq horder rfl rfl rfl rfl
    next =>
      obtain ⟨horder, hplaces⟩ := Workshop.keepsPlaces_put h hfind (v := u.firstMispredicted) hbase hfirst
        (CodeUnit.waits_after hu.overlay (e := .firstMispredicted) rfl)
      refine Follows.of_places ?_ hplaces
      exact follows_of_eq horder rfl rfl rfl rfl

theorem follows_mended (h : r.shop.InOrder config) (mem : AddressSpace) (f : Fault) (line : Line) :
    (r.mended mem f line).Follows config r.shop := by
  have hfixed : (r.corrected mem f line).Follows config r.shop := by
    unfold corrected
    split <;> exact follows_of_eq h rfl rfl rfl rfl
  unfold mended
  split
  · exact hfixed.trans fun hr => follows_mispredicted hr f.exe
  · exact hfixed

theorem follows_conclude (r : Recompiler) (cpu : Cpu) {out : Exit × Session}
    (h : out.2.shop.InOrder config) : (r.conclude cpu out).recompiler.Follows config out.2.shop := by
  obtain ⟨q, outcome, hends, heq⟩ := r.exists_ends cpu out
  have hq : q.Follows config out.2.shop := by
    rcases hends.recompiler with rfl | ⟨f, line, -, rfl⟩
    · exact follows_of_eq h rfl rfl rfl rfl
    · exact follows_mended (r := r.regained out.2) h out.2.mem f line
  unfold Follows
  rw [heq, shop_handBack]
  exact hq

def Operation.clears (config : Config) : Operation → Bool
  | .execute _ _ m target _ _ => config.enabled && compilable target && m.watch.raised
  | .clearCache => true
  | _ => false

/-- The operation takes the place of a unit that waits: the queue is cleared and the unit, in ROM,
stays; or the job for the unit cannot read its code. -/
def Drops (r : Recompiler) (op : Operation) (base : Word) : Prop :=
  (op.clears r.shop.config = true ∧ isRom base = true ∧ r.shop.Waiting base ∧
      base ∈ r.shop.queues.second) ∨
    ∃ m limit k, op = .work m limit ∧ k < limit ∧
      (r.shop.pump m k).shop.Fails (r.shop.pump m k).mem base

theorem follows_execute (hpromote : config.promote = true) (h : r.shop.InOrder config) (fuel : Nat)
    (cpu : Cpu) (mem : AddressSpace) (target ret : Word) (budget : UInt64) :
    (r.executeWith fuel cpu mem target ret budget).recompiler.Follows config
      (if Operation.clears config (.execute fuel cpu mem target ret budget) then r.shop.clearCache
        else r.shop) := by
  by_cases hc : r.shop.config.enabled = true ∧ compilable target = true
  · have hclears : Operation.clears config (.execute fuel cpu mem target ret budget) =
        mem.watch.raised := by
      rw [h.config] at hc
      simp [Operation.clears, hc.1, hc.2]
    have hprepared : (r.prepared cpu mem).1.shop =
        if mem.watch.raised then r.shop.clearCache else r.shop := r.shop_prepared cpu mem
    have horder : (r.prepared cpu mem).1.shop.InOrder config := by
      rw [hprepared]
      split
      · exact (Workshop.lost_clearCache h).1
      · exact h
    rw [executeWith_eq hc.1 hc.2, hclears, ← hprepared]
    dsimp only
    obtain ⟨hran, hplaces⟩ := (Session.KeepsPlaces.steady hpromote).callFrom fuel
      ((r.prepared cpu mem).1.opening cpu (r.prepared cpu mem).2 budget) target ret horder
    exact (follows_conclude _ cpu hran).of_places hplaces
  · have hclears : Operation.clears config (.execute fuel cpu mem target ret budget) = false := by
      rw [h.config] at hc
      simpa [Operation.clears] using fun he ht => absurd ⟨he, ht⟩ hc
    rw [executeWith_skip hc, hclears, if_neg Bool.false_ne_true]
    exact follows_of_eq h rfl rfl rfl rfl

theorem drops_iff {op : Operation} (hop : ∀ m limit, op ≠ .work m limit) (base : Word) :
    r.Drops op base ↔ op.clears r.shop.config = true ∧ isRom base = true ∧ r.shop.Waiting base ∧
      base ∈ r.shop.queues.second := by
  refine or_iff_left ?_
  rintro ⟨m, limit, k, rfl, -⟩
  exact hop m limit rfl

theorem Follows.after {r' : Recompiler} {op : Operation} (hop : ∀ m limit, op ≠ .work m limit)
    (h : r.shop.InOrder config)
    (hafter : r'.Follows config (if op.clears config then r.shop.clearCache else r.shop)) :
    r'.shop.InOrder config ∧ ∀ b, r'.shop.Lost b ↔
      (r.shop.Lost b ∧ (isRom b = true ∨ op.clears config = false)) ∨ r.Drops op b := by
  refine ⟨hafter.1, fun b => ?_⟩
  rw [hafter.2.lost, drops_iff hop, h.config]
  cases op.clears config with
  | false => simp
  | true =>
    rw [if_pos rfl, (Workshop.lost_clearCache h).2]
    unfold Workshop.Lost
    by_cases hplace : b ∈ r.shop.queues.second <;> simp [hplace, and_comm]

theorem lost_after (hpromote : config.promote = true) (h : r.shop.InOrder config) (op : Operation) :
    (r.after op).shop.InOrder config ∧ ∀ b, (r.after op).shop.Lost b ↔
      (r.shop.Lost b ∧ (isRom b = true ∨ op.clears config = false)) ∨ r.Drops op b := by
  have hvalid := h.valid AddressSpace.empty
  have hquiet : ∀ {r' : Recompiler} {m : AddressSpace}, r.shop.Undisturbed r'.shop →
      r'.shop.Valid .ordered m → r'.Follows config r.shop :=
    fun hsame hafter => ⟨h.undisturbed hsame hafter, hsame.keepsPlaces⟩
  cases op with
  | addBreakpoint addr =>
    obtain ⟨hsame, hafter⟩ := Workshop.undisturbed_addBreakpoint hvalid addr
    exact Follows.after nofun h (hquiet hsame hafter)
  | removeBreakpoint addr =>
    obtain ⟨hsame, hafter⟩ := Workshop.undisturbed_removeBreakpoint hvalid addr
    exact Follows.after nofun h (hquiet hsame hafter)
  | unitFor target =>
    refine Follows.after nofun h ?_
    change Follows config r.shop { r with shop := ((r.shop.unitFor target).map Prod.snd).getD r.shop }
    cases hunit : r.shop.unitFor target with
    | some found =>
      obtain ⟨hsame, hafter⟩ := Workshop.undisturbed_unitFor hvalid hunit
      exact hquiet hsame hafter
    | none => exact ⟨h, .refl _⟩
  | flow m base trusted =>
    have hsame := Workshop.undisturbed_flow (h.valid m) base trusted
    exact Follows.after nofun h (hquiet hsame ((h.valid m).flow base trusted).1.valid)
  | execute fuel cpu m target ret budget =>
    exact Follows.after nofun h (follows_execute hpromote h fuel cpu m target ret budget)
  | work m limit =>
    obtain ⟨horder, hlost⟩ := Workshop.lost_pump (m := m) h limit
    refine ⟨horder, fun b => (hlost b).trans (or_congr (and_iff_left (Or.inr rfl)).symm ?_)⟩
    constructor
    · rintro ⟨k, hk, hfails⟩
      exact Or.inr ⟨m, limit, k, rfl, hk, hfails⟩
    · rintro (⟨hclears, -⟩ | ⟨_, _, k, ⟨⟩, hk, hfails⟩)
      · cases hclears
      · exact ⟨k, hk, hfails⟩
  | clearCache =>
    exact Follows.after nofun h ⟨(Workshop.lost_clearCache h).1, .refl _⟩

theorem inOrder_operated (hpromote : config.promote = true) (ops : List Operation) :
    ((create config).operated ops).shop.InOrder config :=
  operated_induction (P := fun r => r.shop.InOrder config) (fun _ op h => (lost_after hpromote h op).1)
    (Workshop.inOrder_create config) ops

/-- A unit waits without a place in the queue just when an operation has dropped it, and the unit is
still there. -/
theorem promotion_lost_iff (hpromote : config.promote = true) (ops : List Operation) (base : Word) :
    ((create config).operated ops).shop.Lost base ↔
      ∃ before op later, ops = before ++ op :: later ∧
        ((create config).operated before).Drops op base ∧
        (isRom base = true ∨ ∀ next ∈ later, next.clears config = false) := by
  induction ops using List.reverseRecOn with
  | nil =>
    constructor
    · rintro ⟨hw, -⟩
      exact absurd hw (Workshop.not_waiting_create config base)
    · rintro ⟨before, op, later, hops, -⟩
      exact absurd hops.symm (List.append_ne_nil_of_right_ne_nil _ (List.cons_ne_nil _ _))
  | append_singleton ops op ih =>
    rw [operated_concat, (lost_after hpromote (inOrder_operated hpromote ops) op).2, ih]
    constructor
    · rintro (⟨⟨before, op', later, rfl, hdrops, hstays⟩, hkept⟩ | hdrops)
      · refine ⟨before, op', later ++ [op], by simp, hdrops, ?_⟩
        rcases hstays with hrom | hlater
        · exact Or.inl hrom
        · refine hkept.imp_right fun hop next hnext => ?_
          rcases List.mem_append.mp hnext with hnext | hnext
          · exact hlater next hnext
          · cases List.mem_singleton.mp hnext
            exact hop
      · exact ⟨ops, op, [], rfl, hdrops, Or.inr (by simp)⟩
    · rintro ⟨before, op', later, hops, hdrops, hstays⟩
      rcases List.eq_nil_or_concat later with rfl | ⟨later, last, rfl⟩
      · obtain ⟨rfl, hlast⟩ := List.append_inj' hops rfl
        cases hlast
        exact Or.inr hdrops
      · rw [List.concat_eq_append, ← List.cons_append, ← List.append_assoc] at hops
        obtain ⟨rfl, hlast⟩ := List.append_inj' hops rfl
        cases hlast
        refine Or.inl ⟨⟨before, op', later, rfl, hdrops, ?_⟩, ?_⟩
        · exact hstays.imp_right fun h next hnext => h next (by simp [hnext])
        · exact hstays.imp_right fun h => h op (by simp)

end Recompiler

/-! ## A unit in ROM -/

theorem CodeUnit.complete_installed (base : Word) (birth : Nat) {threshold : Nat} (h : threshold ≤ 1)
    (g : FlowGraph) (exe : Executable) :
    let v := (((create base birth threshold).analysed g []).installFirst exe).2.firstReady
    v.overlaid = none ∧ v.countdown.2 = true := by
  have hcreate : create base birth threshold = { base, birth, threshold := 1, counter := 1 } := by
    unfold create
    rw [Nat.max_eq_right h]
    rfl
  rw [hcreate]
  exact ⟨rfl, rfl⟩

namespace Session

variable {config : Config} {s : Session} {target : Word}

theorem waiting_admission (h : s.shop.InOrder config) (hpromote : config.promote = true)
    (hdue : s.breakoutDue = false) (hquiet : s.codeChanged = false)
    (hdepth : s.depth < s.shop.config.maxDepth) (ht : compilable target = true)
    (hfind : s.shop.registry.find? target = none) (hbreak : s.shop.breakpoints = [])
    (hthreshold : s.shop.registry.threshold ≤ 1) :
    ∃ exe t, s.admission target = .ok (exe, t) ∧ t.shop.InOrder config ∧ t.shop.Waiting target := by
  obtain ⟨-, -, hinstalled, hadmitted⟩ := admission_of_unknown hdue hquiet hdepth ht hfind hbreak
  have hcreated := h.undisturbed (s.shop.undisturbed_unitAt target) ((h.valid s.mem).unitAt target).1
  rw [Workshop.unitAt_of_unknown hfind] at hcreated
  have hcompiled := hcreated.undisturbed
    (Workshop.undisturbed_firstExecutable (hcreated.valid s.mem) target)
    ((hcreated.valid s.mem).firstExecutable target).valid
  obtain ⟨hshown, hcomplete⟩ := CodeUnit.complete_installed target s.shop.registry.generation hthreshold
    ((s.shop.surveyAt s.mem target).graph target) (s.shop.generatedAt s.mem target).exe
  generalize Workshop.firstExecutable _ s.mem target = work at *
  generalize (CodeUnit.installFirst _ _).2.firstReady = v at *
  obtain ⟨hvbase, hv⟩ := hcompiled.units target v hinstalled
  have hcount := countEntry_of_complete
    (s := { s with shop := work.shop, mem := work.mem, depth := s.depth + 1 }) hcompiled hpromote
    hinstalled hshown hcomplete
  have hafter := (keepsPlaces_countEntry hpromote
    { s with shop := work.shop, mem := work.mem, depth := s.depth + 1 } target hcompiled).1
  rw [hcount] at hadmitted hafter
  refine ⟨_, _, hadmitted nofun, hafter, v.countdown.1.countComplete.1, ?_,
    (hv.complete hshown hcomplete).2.2⟩
  have hwaits := v.same_countdown.trans v.countdown.1.same_countComplete
  rw [Registry.find?_put_ite, if_pos (hwaits.base.trans hvbase)]

end Session

namespace Recompiler

variable {config : Config}

/-- A first dispatch with the least threshold leaves a unit that waits, however long it runs. -/
theorem waiting_execute {cpu : Cpu} {mem : AddressSpace} {target : Word} {budget : UInt64}
    (he : config.enabled = true) (hpromote : config.promote = true) (hdepth : 0 < config.maxDepth)
    (hthreshold : config.threshold ≤ 1)
    (ht : compilable target = true) (hquiet : mem.watch.raised = false)
    (hdue : (((create config).takeRegisters cpu).opening cpu mem budget).counted.breakoutDue = false)
    (fuel : Nat) (ret : Word) :
    ((create config).after (.execute fuel cpu mem target ret budget)).shop.Waiting target := by
  have hprepared := prepared_of_quiet (r := create config) hquiet cpu
  have hunknown : (create config).shop.registry.find? target = none := Std.HashMap.getElem?_empty
  obtain ⟨exe, t, hadmission, horder, hwaiting⟩ := @Session.waiting_admission config
    (((create config).takeRegisters cpu).opening cpu mem budget).counted target
    ((Workshop.inOrder_create config).of_eq rfl rfl rfl rfl) hpromote hdue hquiet hdepth ht hunknown
    rfl hthreshold
  change ((create config).executeWith fuel cpu mem target ret budget).recompiler.shop.Waiting target
  rw [executeWith_eq he ht, hprepared]
  dsimp only
  unfold Session.callFrom
  rw [Session.call_eq, Session.enter_eq, hadmission]
  dsimp only
  obtain ⟨hran, hplaces⟩ := (Session.KeepsPlaces.steady hpromote).run fuel exe 0 { t with ret } horder
  have hshop : (Session.leave (exe.invoke fuel ret t)).2.shop = (exe.run fuel 0 { t with ret }).2.shop := by
    rw [Session.session_leave]
    rfl
  rw [← hshop] at hran hplaces
  exact (follows_conclude _ cpu hran).2.waiting target (hplaces.waiting target hwaiting)

/-- The settings in which one entry of a unit asks for its second executable. -/
def eager : Config := { threshold := 1, followLinks := false }

def bootOnce : Operation :=
  .execute Session.ampleFuel {} AddressSpace.empty 0xBFC00000 0x80000100 1000

theorem drops_bootOnce : ((create eager).operated [bootOnce]).Drops .clearCache 0xBFC00000 := by
  have hwaiting : ((create eager).operated [bootOnce]).shop.Waiting 0xBFC00000 :=
    waiting_execute rfl rfl (by decide) (by decide) (by decide) rfl (by decide +kernel) _ _
  have hplace : ¬ ((create eager).operated [bootOnce]).shop.Lost 0xBFC00000 := by
    intro hafter
    have hlost := (lost_after (r := create eager) rfl (Workshop.inOrder_create eager) bootOnce).2
    rcases (hlost 0xBFC00000).mp hafter with ⟨⟨hw, -⟩, -⟩ | hdrops
    · exact Workshop.not_waiting_create eager _ hw
    · have hjobless : ∀ m limit, bootOnce ≠ .work m limit := by
        intro m limit h
        cases h
      exact Workshop.not_waiting_create eager _ ((drops_iff hjobless _).mp hdrops).2.2.1
  refine Or.inl ⟨rfl, by decide, hwaiting, ?_⟩
  by_contra hnone
  exact hplace ⟨hwaiting, hnone⟩

/-- A unit that waits in ROM loses its place when the queue is cleared. -/
theorem promotion_lost_at_clear :
    eager.promote = true ∧ ((create eager).operated [bootOnce, .clearCache]).shop.Lost 0xBFC00000 := by
  refine ⟨rfl, ?_⟩
  have horder := (lost_after (r := create eager) rfl (Workshop.inOrder_create eager) bootOnce).1
  exact ((lost_after rfl horder .clearCache).2 _).mpr (Or.inr drops_bootOnce)

/-- Once it was dropped, the unit gets no second executable, however often it is entered and however
many jobs are done. -/
theorem promotion_lost_iff_after_clear :
    eager.promote = true ∧
      ((create eager).operated [bootOnce, .clearCache, bootOnce, .work AddressSpace.empty 10]).shop.Lost
        0xBFC00000 :=
  ⟨rfl, (promotion_lost_iff rfl _ _).mpr
    ⟨[bootOnce], .clearCache, [bootOnce, .work AddressSpace.empty 10], rfl, drops_bootOnce,
      Or.inl (by decide)⟩⟩

end Recompiler

end R3000
