import R3000.Proofs.Refinement.Entry

/-!
# Runs follow the interpreter

From every block that it enters a run leads where the interpreter comes to, through loops and through
other units, by induction on the fuel.  This needs something of every operation that is performed,
nested code included (`Position.Passes`): that the numbers of auxiliary routines fit, that the code is
orderly, and that nothing hands back in a slot, or else that branches can be restarted.
-/

namespace R3000

namespace Position

/-- The operation belongs to a slot and hands back. -/
def AbortsInSlot (p : Position) : Prop :=
  ∃ placed, p.placed? = some placed ∧ placed.line.delaySlot = true ∧
    CodeSource.HandsBack (placed.op.perform p.enter p.session).1

structure Tame (p : Position) : Prop where
  addressable : CodeSource.Addressable p.exe
  orderly : p.exe.graph.Orderly
  completes : ¬p.AbortsInSlot

/-- The operation can be followed by the interpreter, which restarts branches where code may hand back
in slots. -/
structure Followed (aborts : Prop) (p : Position) : Prop where
  addressable : CodeSource.Addressable p.exe
  orderly : p.exe.graph.Orderly
  slot : p.AbortsInSlot → aborts ∧ p.exe.graph.Repeatable

theorem Tame.followed {p : Position} (h : p.Tame) : p.Followed False :=
  ⟨h.addressable, h.orderly, fun hslot => absurd hslot h.completes⟩

end Position

namespace Executable

variable {aborts : Prop} {e : Executable} {s t : Session} {pc : Word} {line : Line}
  {result : OpResult}

theorem refines_of_concludes (hstage : e.stage = Stage.first.number)
    (h : e.graph.Arrives aborts s pc line (result, t)) {exit : Exit}
    (hc : e.Concludes line result exit) : s.Refines aborts pc (exit, t) := by
  cases h with
  | goto => cases hc
  | @exit exit' _ hr =>
    cases exit' <;> cases hc <;> exact hr
  | @fault kind _ hr =>
    cases hc with
    | @fault site _ hsite =>
      have hpc : e.guestPc? site = some (e.graph.resumeAt line) := guestPc?_eq hsite
      refine ⟨fun p hp => ?_, nofun, ?_⟩
      · cases kind with
        | host f => cases hp
        | exception x =>
          cases hpc.symm.trans hp
          exact hr
        | mispredict =>
          cases hpc.symm.trans hp
          exact hr
      · rintro f ⟨⟩
        exact hstage

end Executable

namespace CodeSource

variable {aborts : Prop} {src : CodeSource} {s t : Session} {enter : Entry} {line : Line}
  {result : OpResult}

theorem slot_of_expansion {id : Nat} {p : PlacedOp}
    (h : PlacedOp.performAll enter (src.expansion .first id p) s = (some (line, result), t))
    (hline : line.delaySlot = true) : p.line = line ∧ p.op.perform enter s = (result, t) := by
  unfold expansion at h
  split at h
  next =>
    have hbody : (src.emitInstrs (Emitter.fresh (src.blockStart .first id))
        (src.graph.block id).bodyOffsets).run enter s = (some (line, result), t) := h
    rcases not_slot_emitInstrs hbody with hfresh | hnot
    · cases hfresh
    · rw [hline] at hnot
      cases hnot
  next =>
    rw [PlacedOp.performAll_singleton] at h
    obtain ⟨hl, hout, -⟩ := Progress.eq_of_ofResult h
    exact ⟨hl.symm, hout⟩

theorem performAll_expansion_congr {enter' : Entry} {id : Nat} {p : PlacedOp}
    (h : enter.AgreeOn enter' (p.op.arrivals enter s)) :
    PlacedOp.performAll enter' (src.expansion .first id p) s =
      PlacedOp.performAll enter (src.expansion .first id p) s := by
  unfold expansion
  split
  next =>
    exact performAll_of_not_usesEntry
      (fun q hq => CodeOp.usesEntry_of_inner (src.inner_blockBody .first id q hq)) enter' enter s
  next =>
    rw [PlacedOp.performAll_singleton, PlacedOp.performAll_singleton, PlacedOp.perform,
      PlacedOp.perform, CodeOp.perform_congr h]

/-! ## Runs -/

/-- Runs on the fuel, from inside any block, lead where the interpreter comes to from the block. -/
def FollowedOn (aborts : Prop) (fuel : Nat) : Prop :=
  ∀ {src : CodeSource} {base : Word} {id k : Nat} {u s : Session}, src.graph.Surveyed base →
    id < src.graph.blocks.size → src.graph.Fit u → src.Within .first id u k s →
    (∀ n, fuel = n + 1 → ∀ q, Position.Passes
      { fuel := n
        exe := (src.generate .first).exe
        pc := src.startOf .first id + k
        session := s } q → q.Followed aborts) →
    u.Refines aborts (src.graph.block id).base
      ((src.generate .first).exe.run fuel (src.startOf .first id + k) s)

theorem refines_enter {fuel : Nat} (hrun : FollowedOn aborts fuel) {s : Session} {target ret : Word}
    (hvalid : s.shop.Valid (.described False fun _ => True) s.mem)
    (hfollowed : ∀ x t, s.admission target = .ok (x, t) → ∀ n, fuel = n + 1 →
      ∀ q, Position.Passes (.first n x ret t) q → q.Followed aborts) :
    s.Refines aborts target (Session.enter (Executable.invoke fuel) target ret s) := by
  have hserves : s.Serves aborts target _ := Session.serves_admission hvalid target
  have hkeeps : s.Keeps (.described False fun _ => True) _ := s.keeps_admission target
  rw [Session.enter_eq]
  cases hadmission : s.admission target with
  | error out =>
    rw [hadmission] at hserves
    exact hserves
  | ok admitted =>
    obtain ⟨x, t⟩ := admitted
    rw [hadmission] at hserves hkeeps
    have hserves : s.Admitted target x t := hserves
    have hquiet : t.codeChanged = false := by
      unfold Session.codeChanged
      rw [hserves.watch]
      exact (Session.admission_eq_ok hadmission).1
    obtain ⟨src, rfl, hsurveyed, hcurrent⟩ := hserves.compiled
    have hfit : src.graph.Fit { t with ret } :=
      ⟨(hkeeps hvalid).2, hquiet, hcurrent hquiet trivial⟩
    have hroot := hsurveyed.navigable.root
    have hbase : src.graph.base = target := hsurveyed.base_eq
    have hrefines := hrun hsurveyed hroot.1 hfit (.start src .first 0 _) (hfollowed _ t hadmission)
    rw [hroot.2, hbase] at hrefines
    have hsame : s.Reaches target { t with ret } target := by
      apply Session.Reaches.of_eq
      · exact hserves.regs
      · exact hserves.control
      · exact hserves.contents
    refine Session.Refines.leave (.of_reaches hsame ?_)
    exact hrefines.of_eq rfl rfl rfl

theorem followedOn (fuel : Nat) : FollowedOn aborts fuel := by
  induction fuel with
  | zero =>
    intro src base id k u s _ _ _ _ _
    exact Session.refines_unfinished u s _
  | succ n ih =>
    intro src base id k u s hs hid hfit hwithin hfollowed
    have hfollowed := hfollowed n rfl
    have hhere := hfollowed _ (.here _)
    obtain ⟨p, hp⟩ : ∃ p, (src.mainOps .first id)[k]? = some p :=
      ⟨_, List.getElem?_eq_getElem hwithin.lt⟩
    have hplaced : Position.placed?
        { fuel := n
          exe := (src.generate .first).exe
          pc := src.startOf .first id + k
          session := s } = some p := by
      unfold Position.placed? Executable.placed?
      rw [src.routines_zero]
      exact src.ops_mainRoutine .first hid hp
    have hturn := src.follows_step .first hhere.addressable hid hp
      (Session.enter (Executable.invoke n)) s
    rw [Executable.run_succ]
    generalize hstep : (src.generate .first).exe.step (Session.enter (Executable.invoke n))
      (src.startOf .first id + k) s = turn at hturn ⊢
    generalize hq : PlacedOp.performAll (Session.enter (Executable.invoke n))
      (src.expansion .first id p) s = q at hturn
    obtain ⟨stop, t⟩ := q
    cases stop with
    | none =>
      cases hturn
      refine ih hs hid hfit (hwithin.next hp hq) fun n' hn q hpasses => hfollowed q ?_
      subst hn
      exact .next hstep hpasses
    | some stop =>
      obtain ⟨line, result⟩ := stop
      -- The operation cannot tell whether anything but its arrivals could be entered.
      have hsound : Entry.Sound aborts (Entry.restrict (Session.enter (Executable.invoke n))
          (p.op.arrivals (Session.enter (Executable.invoke n)) s)) := by
        refine Entry.sound_restrict
          (Session.Keeps.steady.entry n) ?_
        intro a ha hvalid
        refine refines_enter ih hvalid fun x v hadmission n' hn q hpasses => hfollowed q ?_
        subst hn
        exact .nested (Position.mem_arrivals hplaced (Executable.mem_opArrivals ha)) hadmission hpasses
      have hcode := hwithin.stop hp
        ((performAll_expansion_congr (Entry.agreeOn_restrict _ _)).trans hq)
      have hslot : line.delaySlot = true → aborts ∧ src.graph.Repeatable := by
        intro hslot
        obtain ⟨rfl, hout⟩ := slot_of_expansion hq hslot
        refine hhere.slot ⟨p, hplaced, hslot, ?_⟩
        show HandsBack (p.op.perform (Session.enter (Executable.invoke n)) s).1
        rw [hout]
        exact handsBack_of_slot hcode hslot
      have harrives := arrives_blockCode hs hhere.orderly hid hsound hfit hcode hslot
      cases hturn with
      | @goto _ block start _ hstart =>
        obtain ⟨hlt, hreaches, hfit'⟩ := harrives.of_goto
        rw [start?_generate, if_pos hlt] at hstart
        cases hstart
        refine .of_reaches hreaches (ih hs hlt hfit' (.start src .first block t) ?_)
        intro n' hn q hpasses
        subst hn
        exact hfollowed q (.next hstep hpasses)
      | @lost _ block _ hstart =>
        rw [start?_generate, if_pos harrives.of_goto.1] at hstart
        cases hstart
      | exit _ hc => exact Executable.refines_of_concludes rfl harrives hc

end CodeSource

end R3000
