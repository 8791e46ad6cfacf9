import Mathlib.Order.Filter.AtTopBot.Basic
import R3000.Proofs.Code.Loops
import R3000.Proofs.Session.Admission
import R3000.Proofs.Session.Position

/-!
# Compiled code comes back

Given enough fuel a run ends, and from then on more fuel changes nothing.  Three things go down: an
entry nests one deeper, and the depth is bounded; control that goes back in the code passes the check
of a loop head, which brings the clock closer to the deadline; and all other control goes on in the
code.

What an operation does can depend on the fuel only through the code that it enters, so it settles
once that code has settled (`Settles`).
-/

namespace R3000

open Filter

namespace Session

/-- Time does not go back, and what bounds a run stays. -/
structure Elapses (s t : Session) : Prop where
  cycles : s.cycles ≤ t.cycles
  deadline : t.deadline = s.deadline
  depth : t.depth = s.depth
  config : t.shop.config = s.shop.config

end Session

namespace Workshop

variable (w : Workshop) (m : AddressSpace) (base : Word)

theorem config_touch : (w.touch base).config = w.config := by
  rw [touch_eq]

theorem config_flow (trusted : Bool) : (w.flow m base trusted).shop.config = w.config := by
  cases hfind : w.registry.find? base with
  | none => rw [flow_of_none m trusted hfind]
  | some u =>
    obtain ⟨stats, result, hflow, -⟩ := exists_flow m trusted hfind
    rw [hflow]

theorem config_firstExecutable : (w.firstExecutable m base).shop.config = w.config := by
  have hbuilding : Building (fun w' _ => w'.config = w.config) (fun _ _ _ => True)
      fun _ _ _ _ => True :=
    { flow := fun base trusted h => ⟨(config_flow _ _ base trusted).trans h, fun _ _ => trivial⟩
      generate := fun _ _ h _ _ => ⟨h, trivial⟩
      count := fun _ h => h
      installFirst := fun h _ => h }
  exact hbuilding.firstExecutable (fun base h => (config_touch _ base).trans h) (fun _ h => h) rfl base

end Workshop

theorem Micro.elapses_perform (m : Micro) (s : Session) : s.Elapses (m.perform s).2 := by
  have hbeside := m.beside_perform s
  exact ⟨hbeside.cycles, hbeside.deadline, hbeside.depth, congrArg Workshop.config hbeside.shop⟩

namespace Session

/-- Only the workshop, memory and depth are different. -/
structure Timed (s t : Session) : Prop where
  cycles : t.cycles = s.cycles
  deadline : t.deadline = s.deadline
  config : t.shop.config = s.shop.config

theorem timed_countEntry (s : Session) (base : Word) :
    s.Timed (s.countEntry base).2 ∧ (s.countEntry base).2.depth = s.depth := by
  unfold countEntry
  split
  · exact ⟨⟨rfl, rfl, rfl⟩, rfl⟩
  · dsimp only
    split
    · refine ⟨⟨rfl, rfl, ?_⟩, rfl⟩
      dsimp only
      split <;> rfl
    · exact ⟨⟨rfl, rfl, rfl⟩, rfl⟩

theorem timed_select (s : Session) (u : CodeUnit) :
    s.Timed (Admission.session (s.select u)) ∧ (Admission.session (s.select u)).depth = s.depth := by
  unfold select
  generalize (if u.optimized = true then u.second else none) = second
  cases second with
  | some exe => exact ⟨⟨rfl, rfl, rfl⟩, rfl⟩
  | none =>
    dsimp only
    have hconfig := s.shop.config_firstExecutable s.mem u.base
    generalize s.shop.firstExecutable s.mem u.base = work at hconfig ⊢
    cases work.result with
    | error e => exact ⟨⟨rfl, rfl, hconfig⟩, rfl⟩
    | ok exe =>
      dsimp only
      have hcount := timed_countEntry { s with shop := work.shop, mem := work.mem } u.base
      generalize countEntry _ u.base = counted at hcount ⊢
      obtain ⟨asked, t⟩ := counted
      obtain ⟨htimed, hdepth⟩ := hcount
      have hall : s.Timed t ∧ t.depth = s.depth :=
        ⟨⟨htimed.cycles, htimed.deadline, htimed.config.trans hconfig⟩, hdepth⟩
      cases asked <;> exact hall

/-- What an entry does to what bounds a run: it nests one deeper, within the bound. -/
def Nests (s : Session) : Admission → Prop
  | .error out => out.1 ≠ .unfinished ∧ s.Timed out.2 ∧ out.2.depth = s.depth
  | .ok admitted =>
    s.Timed admitted.2 ∧ admitted.2.depth = s.depth + 1 ∧ s.depth < s.shop.config.maxDepth

theorem nests_admission (s : Session) (target : Word) : s.Nests (s.admission target) := by
  unfold admission
  split
  · exact ⟨by simp, ⟨rfl, rfl, rfl⟩, rfl⟩
  split
  · exact ⟨by simp, ⟨rfl, rfl, rfl⟩, rfl⟩
  split
  · exact ⟨by simp, ⟨rfl, rfl, rfl⟩, rfl⟩
  next hdepth =>
    split
    · dsimp only
      have hselect := timed_select { s with shop := (s.shop.unitAt target).2, depth := s.depth + 1 }
        (s.shop.unitAt target).1
      generalize hselected : select _ (s.shop.unitAt target).1 = selected at hselect ⊢
      cases selected with
      | error out =>
        obtain ⟨t, rfl⟩ := select_eq_error hselected
        obtain ⟨htimed, hnested⟩ := hselect
        refine ⟨nofun, ⟨htimed.cycles, htimed.deadline, htimed.config⟩, ?_⟩
        show t.depth - 1 = s.depth
        have hnested : t.depth = s.depth + 1 := hnested
        omega
      | ok admitted =>
        obtain ⟨htimed, hnested⟩ := hselect
        exact ⟨⟨htimed.cycles, htimed.deadline, htimed.config⟩, hnested, Nat.lt_of_not_le hdepth⟩
    · exact ⟨by simp, ⟨rfl, rfl, rfl⟩, rfl⟩

theorem Elapses.steady : Steady Elapses where
  trans h h' := ⟨UInt64.le_trans h.cycles h'.cycles, h'.deadline.trans h.deadline, h'.depth.trans h.depth,
    h'.config.trans h.config⟩
  micro m s := m.elapses_perform s
  beside h := ⟨h.cycles, h.deadline, h.depth, congrArg Workshop.config h.shop⟩
  counted s := ⟨UInt64.le_refl _, rfl, rfl, rfl⟩
  refused {s target out} h := by
    have hspec := s.nests_admission target
    rw [h] at hspec
    obtain ⟨-, htimed, hdepth⟩ := hspec
    exact ⟨UInt64.le_of_eq htimed.cycles.symm, htimed.deadline, hdepth, htimed.config⟩
  admitted {s t u target ret x} h hu := by
    have hspec := s.nests_admission target
    rw [h] at hspec
    obtain ⟨htimed, hdepth, -⟩ := hspec
    refine ⟨?_, hu.deadline.trans htimed.deadline, ?_, hu.config.trans htimed.config⟩
    · exact UInt64.le_trans (UInt64.le_of_eq htimed.cycles.symm) hu.cycles
    · have hback : u.depth = t.depth := hu.depth
      have hnested : t.depth = s.depth + 1 := hdepth
      show u.depth - 1 = s.depth
      omega

end Session

/-! ## Settling -/

def Entry.fueled (fuel : Nat) : Entry :=
  Session.enter (Executable.invoke fuel)

/-- With enough fuel for the code that is entered the result is done, and always the same. -/
def Settles {β : Type} (done : β → Prop) (f : Entry → β) : Prop :=
  ∃ out, done out ∧ ∀ᶠ fuel in atTop, f (Entry.fueled fuel) = out

def Arrival.Settles (a : Arrival) : Prop :=
  R3000.Settles (fun out : Exit × Session => out.1 ≠ .unfinished) fun enter =>
    enter a.target a.ret a.session

/-- The list holds the arrival whenever there is enough fuel. -/
def Arrival.Stays (a : Arrival) (l : Entry → List Arrival) : Prop :=
  ∀ᶠ fuel in atTop, a ∈ l (Entry.fueled fuel)

section

variable {β γ : Type} {done : β → Prop} {done' : γ → Prop}

theorem Settles.const {b : β} (h : done b) : Settles done fun _ => b :=
  ⟨b, h, .of_forall fun _ => rfl⟩

theorem Settles.map {f : Entry → β} (h : Settles done f) {g : β → γ}
    (hg : ∀ b, done b → done' (g b)) : Settles done' fun enter => g (f enter) := by
  obtain ⟨out, hout, hf⟩ := h
  exact ⟨g out, hg out hout, hf.mono fun _ heq => congrArg g heq⟩

theorem Settles.congr {f g : Entry → β} (h : Settles done f)
    (hfg : ∀ᶠ fuel in atTop, g (Entry.fueled fuel) = f (Entry.fueled fuel)) : Settles done g := by
  obtain ⟨out, hout, hf⟩ := h
  exact ⟨out, hout, (hf.and hfg).mono fun _ h => h.2.trans h.1⟩

theorem Arrival.Stays.of_mem {a : Arrival} {l : List Arrival} (h : a ∈ l) : a.Stays fun _ => l :=
  .of_forall fun _ => h

end

namespace Session

variable {s : Session}

def Finished (out : OpResult × Session) : Prop :=
  out.1 ≠ .unfinished

theorem settles_jumpOut {target : Word} (h : ∀ a ∈ s.jumpArrivals target, a.Settles) :
    Settles Finished fun enter => s.jumpOut enter target := by
  have hjump : Settles (fun out : Exit × Session => out.1 ≠ .unfinished) fun enter =>
      s.jump enter target := by
    unfold jump
    unfold jumpArrivals at h
    split
    next => exact .const (by simp)
    next hne =>
      rw [if_neg hne] at h
      exact h _ (List.mem_singleton.mpr rfl)
  refine hjump.map (g := fun out => (out.1.toResult, out.2)) fun out hout => ?_
  obtain ⟨exit, t⟩ := out
  unfold Finished
  cases exit with
  | unfinished => exact absurd rfl hout
  | returned pc => simp [Exit.toResult]
  | left sig => simp [Exit.toResult]

theorem settles_gotoOr {block : Option Nat} {addr : Word}
    (h : ∀ a ∈ s.gotoArrivals block addr, a.Settles) :
    Settles Finished fun enter => s.gotoOr enter block addr := by
  cases block with
  | some b => exact .const (by simp [Finished])
  | none => exact settles_jumpOut h

theorem settles_finishCall {ret : Word} {after : Option Nat}
    (h : ∀ a : Arrival, a.Stays (fun enter => s.callArrivals enter ret after) → a.Settles) :
    Settles Finished fun enter => s.finishCall enter ret after := by
  unfold callArrivals at h
  unfold finishCall
  by_cases htaken : s.taken = true
  · simp only [if_pos htaken] at h ⊢
    obtain ⟨out, hout, hcall⟩ := h { target := s.target, ret, session := s.counted }
      (.of_forall fun _ => List.mem_cons_self)
    dsimp only at hcall
    obtain ⟨exit, t⟩ := out
    -- Once the call has settled, so has what follows it.
    have hrest : ∀ a ∈ returnArrivals ret after (exit, t), a.Settles := by
      intro a ha
      refine h a (hcall.mono fun fuel heq => ?_)
      dsimp only
      rw [heq]
      exact List.mem_cons_of_mem _ ha
    cases exit with
    | unfinished => exact absurd rfl hout
    | left sig =>
      refine Settles.congr (f := fun _ => (.signal sig, t)) (.const (by simp [Finished])) ?_
      refine hcall.mono fun fuel heq => ?_
      rw [call_eq, heq]
      rfl
    | returned pc =>
      dsimp only [returnArrivals] at hrest
      by_cases hpc : pc = ret
      · rw [if_pos hpc] at hrest
        refine (settles_gotoOr hrest).congr (hcall.mono fun fuel heq => ?_)
        rw [call_eq, heq]
        simp only [if_pos hpc]
      · rw [if_neg hpc] at hrest
        refine (settles_jumpOut hrest).congr (hcall.mono fun fuel heq => ?_)
        rw [call_eq, heq]
        simp only [if_neg hpc]
  · simp only [if_neg htaken] at h ⊢
    exact settles_gotoOr fun a ha => h a (.of_mem ha)

end Session

namespace CodeOp

theorem finished_of_not_usesEntry {op : CodeOp} (h : op.usesEntry = false) (enter : Entry)
    (s : Session) : Session.Finished (op.perform enter s) := by
  unfold Session.Finished
  cases op with
  | micro m outstanding =>
    have hinner : CodeOp.inner (.micro m outstanding) = true := rfl
    rcases perform_inner hinner enter s with hr | ⟨_, hr⟩ | ⟨_, hr⟩ <;> simp [hr]
  | blockEntry pc cycles check =>
    rcases perform_blockEntry_cases enter pc cycles check s with hp | hp | hp <;> simp [hp]
  | evalBranch i pc notTaken =>
    simp only [perform, Session.evalBranch]
    split <;> simp
  | finishJump ret slotStores block =>
    simp only [perform, Session.unlessChanged]
    split <;> simp
  | jump target => cases h
  | finishCall ret slotStores after => cases h
  | finishChoice ret slotStores taken notTaken => cases h
  | finishIndirect ret slotStores => cases h
  | _ => simp [perform]

theorem settles_unlessChanged {s : Session} {ret : Word} {slotStores : Bool}
    (go : Entry → Session → OpResult × Session)
    (h : ¬(slotStores && s.codeChanged) = true → Settles Session.Finished fun enter => go enter s) :
    Settles Session.Finished fun enter => s.unlessChanged ret slotStores (go enter) := by
  unfold Session.unlessChanged
  split
  next => exact .const (by simp [Session.Finished])
  next hnot => exact h hnot

/-- An operation settles once everything that it goes on to enter has. -/
theorem settles_perform {op : CodeOp} {s : Session}
    (h : ∀ a : Arrival, a.Stays (fun enter => op.arrivals enter s) → a.Settles) :
    Settles Session.Finished fun enter => op.perform enter s := by
  cases huses : op.usesEntry with
  | false =>
    have hsame := fun enter => perform_of_not_usesEntry huses enter (Entry.fueled 0) s
    exact (Settles.const (finished_of_not_usesEntry huses (Entry.fueled 0) s)).congr
      (.of_forall fun fuel => hsame _)
  | true =>
    cases op with
    | jump target => exact Session.settles_jumpOut fun a ha => h a (.of_mem ha)
    | finishCall ret slotStores after =>
      refine settles_unlessChanged (fun enter s => s.finishCall enter ret after) fun hnot => ?_
      simp only [arrivals, if_neg hnot] at h
      exact Session.settles_finishCall h
    | finishChoice ret slotStores taken notTaken =>
      refine settles_unlessChanged (fun enter s => s.gotoOr enter
        (if s.taken then taken else notTaken) (s.branchNext ret)) fun hnot => ?_
      simp only [arrivals, if_neg hnot] at h
      exact Session.settles_gotoOr fun a ha => h a (.of_mem ha)
    | finishIndirect ret slotStores =>
      refine settles_unlessChanged (fun enter s => s.jumpOut enter s.target) fun hnot => ?_
      simp only [arrivals, if_neg hnot] at h
      exact Session.settles_jumpOut fun a ha => h a (.of_mem ha)
    | _ => cases huses

end CodeOp

namespace Executable

variable {e : Executable} {s : Session}

theorem settles_runAux {index : UInt16} {pc : Nat} {ops : List PlacedOp}
    (h : ∀ a : Arrival, a.Stays (fun enter => PlacedOp.arrivals enter ops s) → a.Settles) :
    Settles (fun out : Option Exit × Session => out.1 ≠ some .unfinished) fun enter =>
      e.runAux enter index pc ops s := by
  induction ops generalizing pc s with
  | nil => exact .const (by simp)
  | cons p rest ih =>
    obtain ⟨⟨result, t⟩, hout, hop⟩ := p.op.settles_perform (s := s) fun a ha =>
      h a (ha.mono fun _ hmem => List.mem_append_left _ hmem)
    dsimp only at hop
    -- Whatever ends the routine here ends it for good.
    have hstop : ∀ out : Option Exit × Session, out.1 ≠ some .unfinished →
        (∀ enter, p.op.perform enter s = (result, t) →
          e.runAux enter index pc (p :: rest) s = out) →
        Settles (fun out : Option Exit × Session => out.1 ≠ some .unfinished) fun enter =>
          e.runAux enter index pc (p :: rest) s := fun out hdone hrun =>
      ⟨out, hdone, hop.mono fun _ heq => hrun _ heq⟩
    cases result with
    | unfinished => exact absurd rfl hout
    | signal sig =>
      refine hstop (some (.left sig), t) (by simp) fun enter heq => ?_
      simp only [runAux, heq]
    | fault kind =>
      refine hstop (some (e.fault index pc kind), t) (by simp [fault]) fun enter heq => ?_
      simp only [runAux, heq]
    | flow flow =>
      cases flow with
      | next =>
        have hrest : Settles (fun out : Option Exit × Session => out.1 ≠ some .unfinished) fun enter =>
            e.runAux enter index (pc + 1) rest t := by
          refine ih fun a ha => ?_
          refine h a ((hop.and ha).mono fun fuel hboth => ?_)
          refine List.mem_append_right _ ?_
          rw [hboth.1]
          exact hboth.2
        refine hrest.congr (hop.mono fun fuel heq => ?_)
        simp only [runAux, heq]
      | exit target =>
        refine hstop (some (.returned target), t) (by simp) fun enter heq => ?_
        simp only [runAux, heq]
      | goto block =>
        refine hstop (some (e.fault index pc (.host (.strayFlow (.goto block) index))), t)
          (by simp [fault]) fun enter heq => ?_
        simp only [runAux, heq]
      | call callee =>
        refine hstop (some (e.fault index pc (.host (.strayFlow (.call callee) index))), t)
          (by simp [fault]) fun enter heq => ?_
        simp only [runAux, heq]

def Turn.Finished (turn : Turn) : Prop :=
  ∀ t, turn ≠ .inl (.unfinished, t)

theorem step_of_none {pc : Nat} (h : e.placed? pc = none) :
    ∃ exit : Exit, exit ≠ .unfinished ∧ ∀ enter s, e.step enter pc s = .inl (exit, s) := by
  unfold placed? at h
  cases hmain : e.routines[0]? with
  | none =>
    refine ⟨e.fault 0 0 (.host .noBody), by simp [fault], fun enter s => ?_⟩
    simp only [step, hmain]
  | some main =>
    rw [hmain] at h
    change main.ops[pc]? = none at h
    refine ⟨e.fault 0 pc (.host .ranOff), by simp [fault], fun enter s => ?_⟩
    simp only [step, hmain, h]

theorem turn_congr {pc : Nat} {out : OpResult × Session}
    (hcall : ∀ index, out.1 ≠ .flow (.call index)) (enter enter' : Entry) :
    e.turn enter pc out = e.turn enter' pc out := by
  obtain ⟨result, t⟩ := out
  cases result with
  | flow flow =>
    cases flow with
    | call index => exact absurd rfl (hcall index)
    | _ => rfl
  | _ => rfl

theorem finished_turn {pc : Nat} {out : OpResult × Session} (hout : Session.Finished out)
    (hcall : ∀ index, out.1 ≠ .flow (.call index)) (enter : Entry) :
    Turn.Finished (e.turn enter pc out) := by
  obtain ⟨result, t⟩ := out
  intro u
  cases result with
  | unfinished => exact absurd rfl hout
  | signal sig => simp [turn]
  | fault kind => simp [turn, fault]
  | flow flow =>
    cases flow with
    | next => simp [turn]
    | call index => exact absurd rfl (hcall index)
    | exit target => simp [turn]
    | goto block =>
      simp only [turn]
      split <;> simp [fault]

theorem settles_callAux {index : UInt16} {pc : Nat}
    (h : ∀ a : Arrival, a.Stays (fun enter => e.opArrivals enter (.aux index) s) → a.Settles) :
    Settles Turn.Finished fun enter => e.turn enter pc (.flow (.call index), s) := by
  have haux : Settles (fun out : Option Exit × Session => out.1 ≠ some .unfinished) fun enter =>
      e.callAux enter index s := by
    unfold callAux
    unfold opArrivals at h
    dsimp only at h
    split
    next => exact .const (by simp [fault])
    next routine hroutine =>
      rw [hroutine] at h
      exact settles_runAux h
  obtain ⟨⟨exit, t⟩, hout, haux⟩ := haux
  dsimp only at haux
  cases exit with
  | none =>
    refine ⟨.inr (pc + 1, t), by simp [Turn.Finished], haux.mono fun fuel heq => ?_⟩
    simp only [turn, heq]
  | some exit =>
    refine ⟨.inl (exit, t), fun u heq => ?_, haux.mono fun fuel heq => ?_⟩
    · cases heq
      exact hout rfl
    · simp only [turn, heq]

theorem settles_step {pc : Nat}
    (h : ∀ a : Arrival, (∀ᶠ fuel in atTop, a ∈ Position.arrivals { fuel, exe := e, pc, session := s }) →
      a.Settles) : Settles Turn.Finished fun enter => e.step enter pc s := by
  cases hplaced : e.placed? pc with
  | none =>
    obtain ⟨exit, hexit, hstep⟩ := step_of_none hplaced
    refine (Settles.const (b := .inl (exit, s)) fun t heq => ?_).congr
      (.of_forall fun fuel => hstep _ s)
    cases heq
    exact hexit rfl
  | some placed =>
    have hop := op?_of_placed? hplaced
    have harrivals : ∀ a : Arrival, a.Stays (fun enter => e.opArrivals enter placed.op s) →
        a.Settles := by
      intro a ha
      refine h a (ha.mono fun fuel hmem => ?_)
      unfold Position.arrivals Position.placed?
      rw [hplaced]
      exact hmem
    simp only [step_of_op? hop]
    by_cases haux : ∃ index, placed.op = .aux index
    · obtain ⟨index, heq⟩ := haux
      rw [heq] at harrivals ⊢
      exact settles_callAux harrivals
    · have hsame : ∀ enter, e.opArrivals enter placed.op s = placed.op.arrivals enter s := fun enter =>
        (e.opArrivals_cases enter placed.op s).resolve_left haux
      simp only [hsame] at harrivals
      have hcall : ∀ enter index, (placed.op.perform enter s).1 ≠ .flow (.call index) := by
        intro enter index heq
        have hisAux := CodeOp.isAux_of_call heq
        cases hop : placed.op <;> rw [hop] at hisAux haux <;>
          first
            | exact haux ⟨_, rfl⟩
            | exact absurd hisAux Bool.false_ne_true
      obtain ⟨out, hout, hperform⟩ := CodeOp.settles_perform harrivals
      dsimp only at hperform
      have hnot : ∀ index, out.1 ≠ .flow (.call index) := by
        obtain ⟨fuel, hfuel⟩ := hperform.exists
        exact fun index => hfuel ▸ hcall _ index
      refine ⟨e.turn (Entry.fueled 0) pc out, finished_turn hout hnot _, ?_⟩
      refine hperform.mono fun fuel heq => ?_
      dsimp only
      rw [heq]
      exact turn_congr hnot _ _

end Executable

/-! ## Runs -/

theorem eventually_succ {P : Nat → Prop} :
    (∀ᶠ n in atTop, P (n + 1)) ↔ ∀ᶠ n in atTop, P n := by
  rw [eventually_atTop, eventually_atTop]
  constructor
  · rintro ⟨least, h⟩
    refine ⟨least + 1, fun n hn => ?_⟩
    obtain ⟨k, rfl⟩ : ∃ k, n = k + 1 := ⟨n - 1, by omega⟩
    exact h k (by omega)
  · rintro ⟨least, h⟩
    exact ⟨least, fun n hn => h (n + 1) (by omega)⟩

namespace Executable

variable {e x : Executable} {pc pc' : Nat} {s t : Session}

def Ends (e : Executable) (pc : Nat) (s : Session) : Prop :=
  ∃ out : Exit × Session, out.1 ≠ .unfinished ∧ ∀ᶠ fuel in atTop, e.run fuel pc s = out

/-- Every executable that the run performs operations of has its checks. -/
def Vetted (e : Executable) (pc : Nat) (s : Session) : Prop :=
  ∀ᶠ fuel in atTop, ∀ q, Position.Passes { fuel, exe := e, pc, session := s } q → q.exe.Checked

theorem Vetted.checked (h : e.Vetted pc s) : e.Checked := by
  obtain ⟨fuel, hfuel⟩ := h.exists
  exact hfuel _ (.here _)

theorem Vetted.next (h : e.Vetted pc s)
    (hstep : ∀ᶠ fuel in atTop, e.step (Entry.fueled fuel) pc s = .inr (pc', t)) :
    e.Vetted pc' t := by
  refine ((eventually_succ.mpr h).and (eventually_succ.mpr hstep)).mono ?_
  rintro fuel ⟨hall, heq⟩ q hq
  exact hall q (.next heq hq)

theorem Vetted.nested (h : e.Vetted pc s) {a : Arrival}
    (ha : ∀ᶠ fuel in atTop, a ∈ Position.arrivals { fuel, exe := e, pc, session := s })
    (hadmission : a.session.admission a.target = .ok (x, t)) :
    x.Vetted 0 { t with ret := a.ret } := by
  refine ((eventually_succ.mpr h).and (eventually_succ.mpr ha)).mono ?_
  rintro fuel ⟨hall, hmem⟩ q hq
  exact hall q (.nested hmem hadmission hq)

theorem ends_of_step (h : Settles Turn.Finished fun enter => e.step enter pc s)
    (hnext : ∀ pc' t, (∀ᶠ fuel in atTop, e.step (Entry.fueled fuel) pc s = .inr (pc', t)) →
      e.Ends pc' t) : e.Ends pc s := by
  obtain ⟨turn, hturn, hstep⟩ := h
  dsimp only at hstep
  cases turn with
  | inl out =>
    refine ⟨out, fun hout => hturn out.2 ?_, eventually_succ.mp (hstep.mono fun fuel heq => ?_)⟩
    · rw [← hout]
    · rw [run_succ]
      change e.step (Session.enter (invoke fuel)) pc s = _ at heq
      rw [heq]
  | inr next =>
    obtain ⟨pc', t⟩ := next
    obtain ⟨out, hout, hrun⟩ := hnext pc' t hstep
    refine ⟨out, hout, eventually_succ.mp ((hstep.and hrun).mono fun fuel hboth => ?_)⟩
    rw [run_succ]
    obtain ⟨heq, hrest⟩ := hboth
    change e.step (Session.enter (invoke fuel)) pc s = _ at heq
    rw [heq]
    exact hrest

end Executable

theorem Arrival.settles_of_ends {a : Arrival}
    (h : ∀ x t, a.session.admission a.target = .ok (x, t) → x.Ends 0 { t with ret := a.ret }) :
    a.Settles := by
  unfold Arrival.Settles
  have hnests := a.session.nests_admission a.target
  have henter : ∀ fuel, Entry.fueled fuel a.target a.ret a.session = _ := fun fuel =>
    Session.enter_eq (Executable.invoke fuel) a.target a.ret a.session
  cases hadmission : a.session.admission a.target with
  | error out =>
    rw [hadmission] at hnests henter
    exact ⟨out, hnests.1, .of_forall henter⟩
  | ok admitted =>
    obtain ⟨x, t⟩ := admitted
    rw [hadmission] at henter
    obtain ⟨out, hout, hrun⟩ := h x t hadmission
    refine ⟨Session.leave (out.1, { out.2 with ret := t.ret }), ?_, hrun.mono fun fuel heq => ?_⟩
    · unfold Session.leave
      obtain ⟨exit, u⟩ := out
      cases exit with
      | unfinished => exact absurd rfl hout
      | left sig => simp
      | returned pc =>
        dsimp only
        split <;> simp
    · dsimp only
      rw [henter]
      simp only [Executable.invoke, heq]

namespace Executable

variable {e : Executable} {enter : Entry} {pc pc' : Nat} {s t : Session}

def length (e : Executable) : Nat :=
  (e.routines[0]?.map fun main => main.ops.size).getD 0

theorem lt_length_of_placed? {p : PlacedOp} (h : e.placed? pc = some p) : pc < e.length := by
  unfold placed? at h
  unfold length
  cases hmain : e.routines[0]? with
  | none =>
    rw [hmain] at h
    cases h
  | some main =>
    rw [hmain] at h
    exact (Array.getElem?_eq_some_iff.mp h).1

theorem step_inr (h : e.step enter pc s = .inr (pc', t)) :
    pc < e.length ∧ (pc' = pc + 1 ∨
      ∃ op dest, e.op? pc = some op ∧ dest ∈ op.gotos ∧ e.start? dest = some pc') := by
  cases hplaced : e.placed? pc with
  | none =>
    obtain ⟨exit, -, hstep⟩ := step_of_none hplaced
    rw [hstep] at h
    cases h
  | some p =>
    have hop := op?_of_placed? hplaced
    refine ⟨lt_length_of_placed? hplaced, ?_⟩
    rw [step_of_op? hop] at h
    generalize hout : p.op.perform enter s = out at h
    obtain ⟨result, u⟩ := out
    cases result with
    | signal sig => cases h
    | fault kind => cases h
    | unfinished => cases h
    | flow flow =>
      cases flow with
      | next =>
        cases h
        exact Or.inl rfl
      | exit target => cases h
      | call index =>
        simp only [turn] at h
        split at h
        · cases h
          exact Or.inl rfl
        · cases h
      | goto dest =>
        simp only [turn] at h
        split at h
        next start hstart =>
          cases h
          exact Or.inr ⟨p.op, dest, hop, CodeOp.mem_gotos hout, hstart⟩
        next => cases h

theorem step_loopHead {addr : Word} {cycles : Nat}
    (h : e.op? pc = some (.blockEntry addr cycles true)) :
    (∃ sig t, ∀ enter, e.step enter pc s = .inl (.left sig, t)) ∨
      s.cycles.toNat + cycles = (s.spend cycles).cycles.toNat ∧
        (s.spend cycles).cycles.toNat < s.deadline.toNat ∧
        ∀ enter, e.step enter pc s = .inr (pc + 1, s.spend cycles) := by
  by_cases hroom : s.hasRoom cycles = true
  · by_cases hdue : (s.spend cycles).breakoutDue = true
    · refine Or.inl ⟨.breakout addr, s.spend cycles, fun enter => ?_⟩
      rw [step_of_op? h, CodeOp.perform_blockEntry, if_pos hroom]
      simp only [Bool.true_and, if_pos hdue, turn]
    · refine Or.inr ⟨(Session.toNat_spend hroom).symm, ?_, fun enter => ?_⟩
      · unfold Session.breakoutDue at hdue
        simp only [Bool.or_eq_true, not_or, decide_eq_true_eq] at hdue
        exact UInt64.lt_iff_toNat_lt.mp (UInt64.not_le.mp hdue.1.1.1)
      · rw [step_of_op? h, CodeOp.perform_blockEntry, if_pos hroom]
        simp only [Bool.true_and, if_neg hdue, turn]
  · refine Or.inl ⟨.overflow, s, fun enter => ?_⟩
    rw [step_of_op? h, CodeOp.perform_blockEntry, if_neg hroom]
    rfl

/-- A run whose executables have their checks ends: entries go deeper, going back takes time, and
everything else goes on. -/
theorem Vetted.ends {e : Executable} {pc : Nat} {s : Session} (h : e.Vetted pc s) : e.Ends pc s := by
  refine ends_of_step (settles_step fun a ha => ?_) fun pc' t hstep => ?_
  · refine Arrival.settles_of_ends fun x t hadmission => ?_
    obtain ⟨fuel, hfuel⟩ := ha.exists
    have helapsed : s.Elapses a.session := Session.Elapses.steady.positionArrivals hfuel
    have hnests := a.session.nests_admission a.target
    rw [hadmission] at hnests
    obtain ⟨htimed, hdepth, hbound⟩ := hnests
    have hmax : t.shop.config.maxDepth = s.shop.config.maxDepth :=
      congrArg Config.maxDepth (htimed.config.trans helapsed.config)
    have hbound : s.depth < s.shop.config.maxDepth := by
      rw [← helapsed.depth, ← helapsed.config]
      exact hbound
    have hdeeper : t.depth = s.depth + 1 := hdepth.trans (congrArg (· + 1) helapsed.depth)
    exact (h.nested ha hadmission).ends
  · obtain ⟨fuel, hfuel⟩ := hstep.exists
    have helapsed : s.Elapses t := by
      have hsteady := Session.Elapses.steady.step (Session.Elapses.steady.entry fuel) e pc s
      change s.Elapses (Turn.session (e.step (Entry.fueled fuel) pc s)) at hsteady
      rw [hfuel] at hsteady
      exact hsteady
    have hmax : t.shop.config.maxDepth = s.shop.config.maxDepth :=
      congrArg Config.maxDepth helapsed.config
    have hdepth := helapsed.depth
    have hcycles := UInt64.le_iff_toNat_le.mp helapsed.cycles
    have hdeadline := congrArg UInt64.toNat helapsed.deadline
    obtain ⟨hlt, hnext⟩ := step_inr hfuel
    by_cases hon : pc < pc'
    · exact (h.next hstep).ends
    · obtain hsucc | ⟨op, dest, hop, hdest, hstart⟩ := hnext
      · omega
      obtain hforward | ⟨addr, cycles, hhead, hpos⟩ := h.checked pc op hop dest hdest pc' hstart
      · exact absurd hforward hon
      -- Back at a loop head: one more step either leaves or has brought the deadline closer.
      obtain ⟨sig, left, hleave⟩ | ⟨hspent, hbefore, hback⟩ := step_loopHead (s := t) hhead
      · refine ⟨(.left sig, left), by simp, eventually_succ.mp (.of_forall fun fuel => ?_)⟩
        rw [run_succ, hleave]
      · have hagain := (h.next hstep).next (.of_forall fun fuel => hback (Entry.fueled fuel))
        have hpast : Settles Turn.Finished fun enter => e.step enter pc' t :=
          ⟨_, by simp [Turn.Finished], .of_forall fun fuel => hback (Entry.fueled fuel)⟩
        refine ends_of_step hpast fun pc'' u hu => ?_
        obtain ⟨_, hfinal⟩ := hu.exists
        rw [hback] at hfinal
        cases hfinal
        change (t.spend cycles).depth = s.depth at hdepth
        change (t.spend cycles).shop.config.maxDepth = _ at hmax
        change (t.spend cycles).deadline.toNat = _ at hdeadline
        change _ < (t.spend cycles).deadline.toNat at hbefore
        exact hagain.ends
termination_by (s.shop.config.maxDepth - s.depth, s.deadline.toNat - s.cycles.toNat, e.length - pc)
decreasing_by all_goals (simp only [Prod.lex_def]; omega)

end Executable

end R3000
