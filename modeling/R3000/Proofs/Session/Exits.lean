import R3000.Proofs.Code.Recovery
import R3000.Proofs.Session.Termination

/-!
# How compiled code is left

A run keeps its frame: whatever it enters, it comes back with the return address and the depth it
began with (`Session.Framed`).  And it ends properly: it returns to its return address, or it leaves
by a signal, where a fault is one of those that are expected (`Exit.Proper`).

What is expected is a parameter.  A discipline (`Executable.Disciplined`) is a set of places in
executables that steps do not leave and that entries lead to, such that every step there that ends the
run ends it properly; every run from such a place is then proper.
-/

namespace R3000

namespace Session

structure Framed (s t : Session) : Prop where
  ret : t.ret = s.ret
  depth : t.depth = s.depth

theorem ret_admission (s : Session) (target : Word) :
    (Admission.session (s.admission target)).ret = s.ret := by
  obtain ⟨shop, mem, depth, hadmission⟩ := s.exists_admission target
  rw [hadmission]

theorem Framed.trans {s t u : Session} (h : s.Framed t) (h' : t.Framed u) : s.Framed u :=
  ⟨h'.ret.trans h.ret, h'.depth.trans h.depth⟩

theorem Framed.steady : Steady Framed where
  trans := .trans
  micro m s := by
    obtain ⟨e, he⟩ := m.exists_effect s
    have hperform : m.perform s = e.on s := he.perform_eq s.regs (fun _ _ => rfl) rfl rfl
    rw [hperform]
    exact ⟨rfl, rfl⟩
  beside h := ⟨h.ret, h.depth⟩
  counted _ := ⟨rfl, rfl⟩
  refused {s target out} h := by
    have hret := s.ret_admission target
    have hnests := s.nests_admission target
    rw [h] at hret hnests
    exact ⟨hret, hnests.2.2⟩
  admitted {s t u target ret x} h hu := by
    have hret := s.ret_admission target
    have hnests := s.nests_admission target
    rw [h] at hret hnests
    have hdepth : u.depth = s.depth + 1 := hu.depth.trans hnests.2.1
    refine ⟨hret, ?_⟩
    change u.depth - 1 = s.depth
    omega

end Session

/-! ## Exits -/

/-- The code returned to `ret`, or left by a signal; a fault has to be good. -/
def Exit.Proper (good : Fault → Prop) (ret : Word) : Exit → Prop
  | .returned pc => pc = ret
  | .left (.fault f) => good f
  | .left _ | .unfinished => True

/-- The same for the operation that ends a run. -/
def OpResult.Proper (good : Fault → Prop) (ret : Word) : OpResult → Prop
  | .flow (.exit pc) => pc = ret
  | .signal (.fault f) => good f
  | _ => True

variable {good : Fault → Prop} {ret : Word}

theorem Exit.Proper.toResult {exit : Exit} (h : exit.Proper good ret) :
    exit.toResult.Proper good ret := by
  cases exit with
  | returned pc => exact h
  | left sig => cases sig <;> exact h
  | unfinished => exact h

/-- Entering code from a valid workshop ends properly, in the frame and with the workshop valid. -/
structure Entry.Disciplined (L : UnitLaw) (good : Fault → Prop) (enter : Entry) : Prop where
  proper : ∀ (target ret : Word) (s : Session), s.shop.Valid L s.mem →
    (enter target ret s).1.Proper good ret
  keeps : enter.Obeys (Session.Keeps L)
  framed : enter.Obeys Session.Framed

variable {L : UnitLaw} {enter : Entry} {s : Session}

namespace Session

variable (he : enter.Disciplined L good) (hs : s.shop.Valid L s.mem)
include he hs

theorem proper_jumpOut (target : Word) : (s.jumpOut enter target).1.Proper good s.ret := by
  have hexit : (s.jump enter target).1.Proper good s.ret := by
    unfold jump
    split
    next hret => exact hret
    · exact he.proper target s.ret s hs
  exact hexit.toResult

theorem proper_gotoOr (block : Option Nat) (addr : Word) :
    (s.gotoOr enter block addr).1.Proper good s.ret := by
  cases block with
  | some b => trivial
  | none => exact proper_jumpOut he hs addr

theorem proper_finishCall (ret : Word) (after : Option Nat) :
    (s.finishCall enter ret after).1.Proper good s.ret := by
  unfold finishCall
  split
  · have hkeeps := Keeps.steady.call he.keeps s s.target ret hs
    have hframed := Framed.steady.call he.framed s s.target ret
    have hcounted : s.counted.shop.Valid L s.counted.mem := hs.of_units rfl rfl rfl rfl
    have hexit : (s.call enter s.target ret).1.Proper good ret :=
      he.proper s.target ret s.counted hcounted
    dsimp only
    generalize s.call enter s.target ret = out at hkeeps hframed hexit ⊢
    obtain ⟨exit, t⟩ := out
    cases exit with
    | returned pc =>
      dsimp only
      rw [← hframed.ret]
      split
      · exact proper_gotoOr he hkeeps.2 after ret
      · exact proper_jumpOut he hkeeps.2 pc
    | left sig => cases sig <;> exact hexit
    | unfinished => trivial
  · exact proper_gotoOr he hs after ret

end Session

def CodeOp.isExit : CodeOp → Bool
  | .exit _ => true
  | _ => false

theorem CodeOp.isExit_of_inner {op : CodeOp} (h : op.inner = true) : op.isExit = false := by
  cases op <;> first | rfl | cases h

theorem CodeOp.perform_micro_fst (enter : Entry) (m : Micro) (outstanding : Writes) (s : Session) :
    (CodeOp.perform enter (.micro m outstanding) s).1 = (m.perform s).1 := by
  unfold perform
  dsimp only
  split
  next heq => rw [heq]
  · rfl

theorem CodeOp.proper_perform (he : enter.Disciplined L good) (hs : s.shop.Valid L s.mem)
    {op : CodeOp} (hop : op.isExit = false) : (op.perform enter s).1.Proper good s.ret := by
  have hchanged : ∀ (ret : Word) (slotStores : Bool) (go : Session → OpResult × Session),
      (go s).1.Proper good s.ret → (s.unlessChanged ret slotStores go).1.Proper good s.ret := by
    intro ret slotStores go hgo
    unfold Session.unlessChanged
    split
    · trivial
    · exact hgo
  cases op with
  | micro m outstanding =>
    have hinner : CodeOp.inner (.micro m outstanding) = true := rfl
    rcases perform_inner hinner enter s with h | ⟨sig, h⟩ | ⟨kind, h⟩
    · rw [h]
      trivial
    · rw [h]
      cases sig with
      | fault f =>
        rw [perform_micro_fst] at h
        exact absurd h (m.ne_failure rfl)
      | _ => trivial
    · rw [h]
      trivial
  | blockEntry pc cycles check =>
    rcases perform_blockEntry_cases enter pc cycles check s with h | h | h <;> rw [h] <;> trivial
  | jump target => exact Session.proper_jumpOut he hs target
  | exit target => cases hop
  | evalBranch i pc notTaken =>
    simp only [perform, Session.evalBranch_eq]
    cases notTaken with
    | none => trivial
    | some block =>
      dsimp only
      split <;> trivial
  | finishCall ret slotStores after =>
    exact hchanged _ _ _ (Session.proper_finishCall he hs ret after)
  | finishChoice ret slotStores taken notTaken =>
    exact hchanged _ _ _ (Session.proper_gotoOr he hs _ _)
  | finishJump ret slotStores block => exact hchanged _ _ _ trivial
  | finishIndirect ret slotStores => exact hchanged _ _ _ (Session.proper_jumpOut he hs s.target)
  | _ => trivial

namespace Executable

/-- Steps from the places of an executable lead to such places or end the run properly, and entries
lead to such places. -/
structure Disciplined (L : UnitLaw) (good : Fault → Prop) (place : Executable → Nat → Prop) :
    Prop where
  step : ∀ {enter : Entry} {e : Executable} {pc : Nat} {s : Session}, place e pc →
    s.shop.Valid L s.mem → enter.Disciplined L good →
      match e.step enter pc s with
      | .inl (exit, _) => exit.Proper good s.ret
      | .inr (next, _) => place e next
  entry : ∀ {s t : Session} {target : Word} {x : Executable}, s.shop.Valid L s.mem →
    s.admission target = .ok (x, t) → place x 0

end Executable

namespace Session

theorem proper_leave {out : Exit × Session} (h : out.1.Proper good ret) :
    (leave out).1.Proper good ret := by
  obtain ⟨exit, t⟩ := out
  unfold leave
  dsimp only
  cases exit with
  | returned pc =>
    dsimp only
    split
    · exact h
    · trivial
  | left sig => exact h
  | unfinished => trivial

theorem proper_of_refused {target : Word} {out : Exit × Session}
    (h : s.admission target = .error out) (ret : Word) : out.1.Proper good ret := by
  obtain ⟨pc, t, rfl | rfl⟩ := admission_eq_error h
  · trivial
  · trivial

end Session

namespace Executable.Disciplined

variable {place : Executable → Nat → Prop} (h : Executable.Disciplined L good place)
include h

theorem enter_of_run {fuel : Nat}
    (hrun : ∀ (e : Executable) (pc : Nat) (s : Session), place e pc → s.shop.Valid L s.mem →
      (e.run fuel pc s).1.Proper good s.ret) :
    Entry.Disciplined L good (Session.enter (Executable.invoke fuel)) where
  proper target ret s hs := by
    rw [Session.enter_eq]
    cases hadmission : s.admission target with
    | error out => exact Session.proper_of_refused hadmission ret
    | ok admitted =>
      obtain ⟨x, t⟩ := admitted
      have hkeeps := s.keeps_admission target hs
      rw [hadmission] at hkeeps
      have hvalid : ({ t with ret } : Session).shop.Valid L t.mem := hkeeps.2
      exact Session.proper_leave (hrun x 0 { t with ret } (h.entry hs hadmission) hvalid)
  keeps := Session.Keeps.steady.entry fuel
  framed := Session.Framed.steady.entry fuel

/-- A run from one of the places is proper.  By induction on the fuel: a step ends the run properly
or leads to another place, and nested code runs on less fuel. -/
theorem run (fuel : Nat) {e : Executable} {pc : Nat} {s : Session} (hplace : place e pc)
    (hs : s.shop.Valid L s.mem) : (e.run fuel pc s).1.Proper good s.ret := by
  induction fuel generalizing e pc s with
  | zero => trivial
  | succ fuel ih =>
    have henter := h.enter_of_run fun _ _ _ hplace hs => ih hplace hs
    have hstep := h.step hplace hs henter
    have hkeeps := Session.Keeps.steady.step henter.keeps e pc s hs
    have hframed := Session.Framed.steady.step henter.framed e pc s
    rw [Executable.run_succ]
    generalize e.step (Session.enter (Executable.invoke fuel)) pc s = turn at hstep hkeeps hframed ⊢
    cases turn with
    | inl out => exact hstep
    | inr out =>
      obtain ⟨next, t⟩ := out
      dsimp only
      have hret : t.ret = s.ret := hframed.ret
      rw [← hret]
      exact ih hstep hkeeps.2

theorem entry_proper (fuel : Nat) :
    Entry.Disciplined L good (Session.enter (Executable.invoke fuel)) :=
  h.enter_of_run fun _ _ _ hplace hs => h.run fuel hplace hs

theorem invoke (fuel : Nat) {e : Executable} (hplace : place e 0) (hs : s.shop.Valid L s.mem)
    (ret : Word) : (e.invoke fuel ret s).1.Proper good ret :=
  h.run fuel (s := { s with ret }) hplace hs

theorem callFrom (fuel : Nat) (hs : s.shop.Valid L s.mem) (target ret : Word) :
    (s.callFrom fuel target ret).1.Proper good ret := by
  have hcounted : s.counted.shop.Valid L s.counted.mem := hs.of_units rfl rfl rfl rfl
  unfold Session.callFrom
  rw [Session.call_eq]
  exact (h.entry_proper fuel).proper target ret s.counted hcounted

end Executable.Disciplined

end R3000
