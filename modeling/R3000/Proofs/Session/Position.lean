import R3000.Proofs.Code.Transfers
import R3000.Proofs.Session.Validity

/-!
# What a run performs

What an operation enters is listed with the session it comes with (`CodeOp.arrivals`); nothing else
of the entry matters to it.  A run passes from one operation to the next, and into the code that its
operations enter (`Position.Passes`), so a property of everything that runs is one of every position.
-/

namespace R3000

structure Arrival where
  target : Word
  ret : Word
  session : Session

namespace Session

def jumpArrivals (s : Session) (target : Word) : List Arrival :=
  if target = s.ret then [] else [{ target, ret := s.ret, session := s }]

def gotoArrivals (s : Session) (block : Option Nat) (addr : Word) : List Arrival :=
  match block with
  | some _ => []
  | none => s.jumpArrivals addr

/-- A call that returns may be followed by a jump. -/
def returnArrivals (ret : Word) (after : Option Nat) : Exit × Session → List Arrival
  | (.returned pc, t) => if pc = ret then t.gotoArrivals after ret else t.jumpArrivals pc
  | _ => []

def callArrivals (enter : Entry) (s : Session) (ret : Word) (after : Option Nat) : List Arrival :=
  if s.taken then
    { target := s.target, ret, session := s.counted } ::
      returnArrivals ret after (enter s.target ret s.counted)
  else s.gotoArrivals after ret

end Session

def CodeOp.arrivals (enter : Entry) (op : CodeOp) (s : Session) : List Arrival :=
  match op with
  | .jump target => s.jumpArrivals target
  | .finishCall ret slotStores after =>
    if slotStores && s.codeChanged then [] else s.callArrivals enter ret after
  | .finishChoice ret slotStores taken notTaken =>
    if slotStores && s.codeChanged then []
    else s.gotoArrivals (if s.taken then taken else notTaken) (s.branchNext ret)
  | .finishIndirect _ slotStores =>
    if slotStores && s.codeChanged then [] else s.jumpArrivals s.target
  | _ => []

/-! ## Nothing else is entered -/

section

variable {enter enter' : Entry} {s : Session}

/-- The two ways to enter code do the same with what is about to be entered. -/
def Entry.AgreeOn (enter enter' : Entry) (l : List Arrival) : Prop :=
  ∀ a ∈ l, enter' a.target a.ret a.session = enter a.target a.ret a.session

namespace Session

theorem jumpOut_congr {target : Word} (h : enter.AgreeOn enter' (s.jumpArrivals target)) :
    s.jumpOut enter' target = s.jumpOut enter target := by
  have hjump : s.jump enter' target = s.jump enter target := by
    unfold jump
    unfold jumpArrivals at h
    split
    next => rfl
    next hne =>
      rw [if_neg hne] at h
      exact h _ (List.mem_singleton.mpr rfl)
  unfold jumpOut
  rw [hjump]

theorem gotoOr_congr {block : Option Nat} {addr : Word}
    (h : enter.AgreeOn enter' (s.gotoArrivals block addr)) :
    s.gotoOr enter' block addr = s.gotoOr enter block addr := by
  cases block with
  | some b => rfl
  | none => exact jumpOut_congr h

theorem finishCall_congr {ret : Word} {after : Option Nat}
    (h : enter.AgreeOn enter' (s.callArrivals enter ret after)) :
    s.finishCall enter' ret after = s.finishCall enter ret after := by
  unfold finishCall
  unfold callArrivals at h
  split
  next htaken =>
    rw [if_pos htaken] at h
    have hcall := h _ List.mem_cons_self
    have hrest := fun a ha => h a (List.mem_cons_of_mem _ ha)
    rw [call_eq, call_eq]
    dsimp only at hcall
    rw [hcall]
    generalize enter s.target ret s.counted = out at hrest ⊢
    obtain ⟨exit, t⟩ := out
    cases exit with
    | returned pc =>
      dsimp only [returnArrivals] at hrest ⊢
      split
      next heq =>
        rw [if_pos heq] at hrest
        exact gotoOr_congr hrest
      next hne =>
        rw [if_neg hne] at hrest
        exact jumpOut_congr hrest
    | left sig => rfl
    | unfinished => rfl
  next htaken =>
    rw [if_neg htaken] at h
    exact gotoOr_congr h

theorem unlessChanged_congr {ret : Word} {slotStores : Bool} {go go' : Session → OpResult × Session}
    (h : ¬(slotStores && s.codeChanged) = true → go' s = go s) :
    s.unlessChanged ret slotStores go' = s.unlessChanged ret slotStores go := by
  unfold unlessChanged
  split
  next => rfl
  next hnot => exact h hnot

end Session

theorem CodeOp.perform_congr {op : CodeOp} (h : enter.AgreeOn enter' (op.arrivals enter s)) :
    op.perform enter' s = op.perform enter s := by
  cases op with
  | jump target => exact Session.jumpOut_congr h
  | finishCall ret slotStores after =>
    simp only [perform]
    refine Session.unlessChanged_congr fun hnot => ?_
    simp only [arrivals, if_neg hnot] at h
    exact Session.finishCall_congr h
  | finishChoice ret slotStores taken notTaken =>
    simp only [perform]
    refine Session.unlessChanged_congr fun hnot => ?_
    simp only [arrivals, if_neg hnot] at h
    exact Session.gotoOr_congr h
  | finishIndirect ret slotStores =>
    simp only [perform]
    refine Session.unlessChanged_congr fun hnot => ?_
    simp only [arrivals, if_neg hnot] at h
    exact Session.jumpOut_congr h
  | _ => rfl

end

/-! ## Auxiliary routines -/

def PlacedOp.arrivals (enter : Entry) : List PlacedOp → Session → List Arrival
  | [], _ => []
  | p :: rest, s =>
    p.op.arrivals enter s ++
      match p.op.perform enter s with
      | (.flow .next, t) => arrivals enter rest t
      | _ => []

namespace Executable

/-- What an operation enters, by itself or in the routine that it calls. -/
def opArrivals (e : Executable) (enter : Entry) (op : CodeOp) (s : Session) : List Arrival :=
  match op with
  | .aux index =>
    match e.routines[index.toNat]? with
    | none => []
    | some routine => PlacedOp.arrivals enter routine.ops.toList s
  | op => op.arrivals enter s

theorem opArrivals_cases (e : Executable) (enter : Entry) (op : CodeOp) (s : Session) :
    (∃ index, op = .aux index) ∨ e.opArrivals enter op s = op.arrivals enter s := by
  cases op <;> first
    | exact Or.inr rfl
    | exact Or.inl ⟨_, rfl⟩

theorem mem_opArrivals {e : Executable} {enter : Entry} {op : CodeOp} {s : Session} {a : Arrival}
    (h : a ∈ op.arrivals enter s) : a ∈ e.opArrivals enter op s := by
  cases op with
  | aux index => cases h
  | _ => exact h

end Executable

/-! ## Positions -/

/-- An operation that is about to be performed: the executable, where the operation stands, the
session it finds, and the fuel for what comes after it. -/
structure Position where
  fuel : Nat
  exe : Executable
  pc : Nat
  session : Session

def Executable.placed? (e : Executable) (pc : Nat) : Option PlacedOp :=
  e.routines[0]?.bind fun main => main.ops[pc]?

theorem Executable.op?_of_placed? {e : Executable} {pc : Nat} {p : PlacedOp}
    (h : e.placed? pc = some p) : e.op? pc = some p.op := by
  obtain ⟨main, hmain, hp⟩ := Option.bind_eq_some_iff.mp h
  unfold op?
  rw [hmain, Option.bind_some, hp]
  rfl

namespace Position

def enter (p : Position) : Entry :=
  Session.enter (Executable.invoke p.fuel)

def placed? (p : Position) : Option PlacedOp :=
  p.exe.placed? p.pc

def arrivals (p : Position) : List Arrival :=
  match p.placed? with
  | none => []
  | some placed => p.exe.opArrivals p.enter placed.op p.session

theorem mem_arrivals {p : Position} {placed : PlacedOp} (h : p.placed? = some placed) {a : Arrival}
    (ha : a ∈ p.exe.opArrivals p.enter placed.op p.session) : a ∈ p.arrivals := by
  unfold arrivals
  rw [h]
  exact ha

def first (fuel : Nat) (exe : Executable) (ret : Word) (s : Session) : Position :=
  { fuel, exe, pc := 0, session := { s with ret } }

/-- The operations that are performed from here on, those of other code included. -/
inductive Passes : Position → Position → Prop
  | here (p : Position) : Passes p p
  | next {n pc pc' : Nat} {e : Executable} {s t : Session} {q : Position}
      (h : e.step (Session.enter (Executable.invoke (n + 1))) pc s = .inr (pc', t))
      (hq : Passes { fuel := n, exe := e, pc := pc', session := t } q) :
      Passes { fuel := n + 1, exe := e, pc, session := s } q
  | nested {n pc : Nat} {e x : Executable} {s t : Session} {a : Arrival} {q : Position}
      (ha : a ∈ arrivals { fuel := n + 1, exe := e, pc, session := s })
      (h : a.session.admission a.target = .ok (x, t)) (hq : Passes (first n x a.ret t) q) :
      Passes { fuel := n + 1, exe := e, pc, session := s } q

end Position

/-! ## What holds at every position -/

namespace Session.Steady

variable {R : Session → Session → Prop} (hR : Steady R) {enter : Entry} {s : Session} {a : Arrival}
include hR

theorem jumpArrivals {target : Word} (h : a ∈ s.jumpArrivals target) : R s a.session := by
  unfold Session.jumpArrivals at h
  split at h
  · cases h
  · cases List.mem_singleton.mp h
    exact hR.refl s

theorem gotoArrivals {block : Option Nat} {addr : Word} (h : a ∈ s.gotoArrivals block addr) :
    R s a.session := by
  cases block with
  | some b => cases h
  | none => exact hR.jumpArrivals h

theorem callArrivals (he : enter.Obeys R) {ret : Word} {after : Option Nat}
    (h : a ∈ s.callArrivals enter ret after) : R s a.session := by
  unfold Session.callArrivals at h
  split at h
  · have hcall := hR.call he s s.target ret
    rw [call_eq] at hcall
    generalize enter s.target ret s.counted = out at h hcall
    rcases List.mem_cons.mp h with rfl | h
    · exact hR.counted s
    · obtain ⟨exit, t⟩ := out
      cases exit with
      | returned pc =>
        dsimp only [returnArrivals] at h hcall
        split at h
        · exact hR.trans hcall (hR.gotoArrivals h)
        · exact hR.trans hcall (hR.jumpArrivals h)
      | left sig => cases h
      | unfinished => cases h
  · exact hR.gotoArrivals h

theorem arrivals (he : enter.Obeys R) {op : CodeOp} (h : a ∈ op.arrivals enter s) :
    R s a.session := by
  cases op with
  | jump target => exact hR.jumpArrivals h
  | finishCall ret slotStores after =>
    simp only [CodeOp.arrivals] at h
    split at h
    · cases h
    · exact hR.callArrivals he h
  | finishChoice ret slotStores taken notTaken =>
    simp only [CodeOp.arrivals] at h
    split at h
    · cases h
    · exact hR.gotoArrivals h
  | finishIndirect ret slotStores =>
    simp only [CodeOp.arrivals] at h
    split at h
    · cases h
    · exact hR.jumpArrivals h
  | _ => cases h

theorem routineArrivals (he : enter.Obeys R) {ops : List PlacedOp}
    (h : a ∈ PlacedOp.arrivals enter ops s) : R s a.session := by
  induction ops generalizing s with
  | nil => cases h
  | cons p rest ih =>
    have hop := hR.perform he p.op s
    unfold PlacedOp.arrivals at h
    rcases List.mem_append.mp h with h | h
    · exact hR.arrivals he h
    · split at h
      next t heq =>
        rw [heq] at hop
        exact hR.trans hop (ih h)
      next => cases h

theorem positionArrivals {p : Position} (h : a ∈ p.arrivals) : R p.session a.session := by
  have he : p.enter.Obeys R := hR.entry p.fuel
  unfold Position.arrivals at h
  split at h
  · cases h
  next placed _ =>
    rcases p.exe.opArrivals_cases p.enter placed.op p.session with ⟨index, hop⟩ | hop
    · rw [hop] at h
      unfold Executable.opArrivals at h
      dsimp only at h
      split at h
      · cases h
      · exact hR.routineArrivals he h
    · rw [hop] at h
      exact hR.arrivals he h

end Session.Steady

/-- What a run keeps of sessions and what follows for the executables that are entered hold at every
position. -/
theorem Position.Passes.invariant {R : Session → Session → Prop} (hR : Session.Steady R)
    {I : Session → Prop} {P : Executable → Prop} (hI : ∀ {s t : Session}, R s t → I s → I t)
    (hentry : ∀ {s t : Session} {target ret : Word} {x : Executable}, I s →
      s.admission target = .ok (x, t) → P x ∧ I { t with ret })
    {p q : Position} (h : p.Passes q) (hexe : P p.exe) (hs : I p.session) :
    P q.exe ∧ I q.session := by
  induction h with
  | here p => exact ⟨hexe, hs⟩
  | @next n pc pc' e s t q hstep _ ih =>
    have hkept := hR.step (hR.entry (n + 1)) e pc s
    rw [hstep] at hkept
    exact ih hexe (hI hkept hs)
  | nested ha hadmission _ ih =>
    obtain ⟨hx, ht⟩ := hentry (hI (hR.positionArrivals ha) hs) hadmission
    exact ih hx ht

def Recompiler.Performs (fuel : Nat) (r : Recompiler) (cpu : Cpu) (mem : AddressSpace) (target ret : Word)
    (budget : UInt64) (q : Position) : Prop :=
  ∃ x t, ((r.prepared cpu mem).1.opening cpu (r.prepared cpu mem).2 budget).counted.admission
      target = .ok (x, t) ∧
    ∃ n, fuel = n + 1 ∧ (Position.first n x ret t).Passes q

namespace Recompiler

variable {r : Recompiler} {cpu : Cpu} {mem : AddressSpace} {target ret : Word} {budget : UInt64} {fuel : Nat}

/-- What a dispatch enters, or tries to: its target, and what its operations lead to. -/
def Arrives (fuel : Nat) (r : Recompiler) (cpu : Cpu) (mem : AddressSpace) (target ret : Word)
    (budget : UInt64) (a : Arrival) : Prop :=
  a = { target
        ret
        session := ((r.prepared cpu mem).1.opening cpu (r.prepared cpu mem).2 budget).counted } ∨
    ∃ q, r.Performs fuel cpu mem target ret budget q ∧ a ∈ q.arrivals

theorem Arrives.valid {L : UnitLaw} (hrom : L.Fixed) (h : r.shop.Valid L mem) {a : Arrival}
    (ha : r.Arrives fuel cpu mem target ret budget a) : a.session.shop.Valid L a.session.mem := by
  have hopening : ((r.prepared cpu mem).1.opening cpu (r.prepared cpu mem).2 budget).counted.shop.Valid
      L (r.prepared cpu mem).2 := (valid_prepared hrom h cpu).of_units rfl rfl rfl rfl
  rcases ha with rfl | ⟨q, ⟨x, t, hadmission, n, -, hpasses⟩, hq⟩
  · exact hopening
  · have hentry : ∀ {s t : Session} {target ret : Word} {x : Executable}, s.shop.Valid L s.mem →
        s.admission target = .ok (x, t) →
        True ∧ ({ t with ret } : Session).shop.Valid L t.mem := by
      intro s t target ret x hs hadmission
      have hkeeps := s.keeps_admission target hs
      rw [hadmission] at hkeeps
      exact ⟨trivial, hkeeps.2⟩
    obtain ⟨-, hfirst⟩ := @hentry _ _ _ ret _ hopening hadmission
    obtain ⟨-, hhere⟩ := hpasses.invariant Session.Keeps.steady (fun hkeeps hs => (hkeeps hs).2)
      hentry trivial hfirst
    exact (Session.Keeps.steady.positionArrivals hq hhere).2

end Recompiler

end R3000
