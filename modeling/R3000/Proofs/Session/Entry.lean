import R3000.Session.Run

/-!
# Entering compiled code

`Session.admission` is what happens at an entry before an executable runs: either compiled code is not
entered, or there is an executable and the session it finds (`Session.enter_eq`).
-/

namespace R3000

abbrev Admission := Except (Exit × Session) (Executable × Session)

def Admission.session : Admission → Session
  | .error out => out.2
  | .ok admitted => admitted.2

namespace Session

def select (s : Session) (u : CodeUnit) : Admission :=
  match (if u.optimized then u.second else none) with
  | some exe => .ok (exe, s)
  | none =>
    let work := s.shop.firstExecutable s.mem u.base
    let s := { s with shop := work.shop, mem := work.mem }
    match work.result with
    | .error _ =>
      let shop := s.shop.count fun stats => { stats with fallbacks := stats.fallbacks + 1 }
      .error (.left (.resume u.base), { s with shop })
    | .ok exe =>
      match s.countEntry u.base with
      | (.escape, s) => .error (.left (.resume u.base), s)
      | (_, s) => .ok (exe, s)

theorem runUnit_eq (invoke : Invoker) (s : Session) (u : CodeUnit) (ret : Word) :
    s.runUnit invoke u ret =
      match s.select u with
      | .error out => out
      | .ok (exe, t) => invoke exe ret t := by
  unfold runUnit select
  generalize (if u.optimized = true then u.second else none) = second
  cases second with
  | some exe => rfl
  | none =>
    dsimp only
    generalize s.shop.firstExecutable s.mem u.base = work
    cases work.result with
    | error e => rfl
    | ok exe =>
      dsimp only
      generalize countEntry _ u.base = counted
      obtain ⟨asked, t⟩ := counted
      cases asked <;> rfl

def counted (s : Session) : Session :=
  { s with shop := s.shop.count fun stats => { stats with calls := stats.calls + 1 } }

theorem call_eq (enter : Entry) (s : Session) (target ret : Word) :
    s.call enter target ret = enter target ret s.counted := rfl

def leave (out : Exit × Session) : Exit × Session :=
  let s := { out.2 with depth := out.2.depth - 1 }
  match out.1 with
  | .returned pc =>
    if s.shop.staleEpoch = s.epoch then (.returned pc, s) else (.left (.resume pc), s)
  | exit => (exit, s)

def admission (s : Session) (target : Word) : Admission :=
  if s.breakoutDue then .error (.left (.breakout target), s)
  else if s.codeChanged then .error (.left (.resume target), s)
  else if s.shop.config.maxDepth ≤ s.depth then
    let shop := s.shop.count fun stats => { stats with depthOverflows := stats.depthOverflows + 1 }
    .error (.left (.resume target), { s with shop })
  else if compilable target then
    let (u, shop) := s.shop.unitAt target
    match { s with shop, depth := s.depth + 1 }.select u with
    | .error out => .error (leave out)
    | .ok admitted => .ok admitted
  else .error (.left (.resume target), s)

theorem enter_eq (invoke : Invoker) (target ret : Word) (s : Session) :
    Session.enter invoke target ret s =
      match s.admission target with
      | .error out => out
      | .ok (exe, t) => leave (invoke exe ret t) := by
  unfold Session.enter admission
  split
  · rfl
  split
  · rfl
  split
  · rfl
  split
  · dsimp only
    rw [runUnit_eq]
    generalize select _ (s.shop.unitAt target).1 = selected
    cases selected with
    | error out => rfl
    | ok admitted => rfl
  · rfl

theorem session_leave (out : Exit × Session) :
    (leave out).2 = { out.2 with depth := out.2.depth - 1 } := by
  unfold leave
  dsimp only
  split
  · split <;> rfl
  · rfl

variable {s t : Session} {x : Executable} {target : Word}

/-- What is selected is a second executable, or a first one once the entry has been counted. -/
theorem select_eq_ok {u : CodeUnit} (h : s.select u = .ok (x, t)) :
    ((if u.optimized then u.second else none) = some x ∧ t = s) ∨
      ((s.shop.firstExecutable s.mem u.base).result = .ok x ∧
        ∃ asked ≠ .escape,
          countEntry
            { s with
              shop := (s.shop.firstExecutable s.mem u.base).shop
              mem := (s.shop.firstExecutable s.mem u.base).mem } u.base = (asked, t)) := by
  unfold select at h
  split at h
  next hsecond =>
    cases h
    exact .inl ⟨hsecond, rfl⟩
  next =>
    dsimp only at h
    split at h
    · cases h
    next hresult =>
      split at h
      · cases h
      next asked _ hasked hcount =>
        cases h
        exact .inr ⟨hresult, asked, hasked, hcount⟩

/-- A unit that is not run is left where it begins. -/
theorem select_eq_error {u : CodeUnit} {out : Exit × Session} (h : s.select u = .error out) :
    ∃ t, out = (.left (.resume u.base), t) := by
  unfold select at h
  split at h
  · cases h
  · dsimp only at h
    split at h
    · cases h
      exact ⟨_, rfl⟩
    · split at h
      · cases h
        exact ⟨_, rfl⟩
      · cases h

theorem admission_eq_ok (h : s.admission target = .ok (x, t)) :
    s.codeChanged = false ∧
      select { s with shop := (s.shop.unitAt target).2, depth := s.depth + 1 }
        (s.shop.unitAt target).1 = .ok (x, t) := by
  unfold admission at h
  split at h
  · cases h
  split at h
  · cases h
  next hchanged =>
    split at h
    · cases h
    split at h
    · dsimp only at h
      split at h
      · cases h
      next hselect =>
        cases h
        exact ⟨Bool.eq_false_iff.mpr hchanged, hselect⟩
    · cases h

/-- An entry that is refused breaks out or resumes somewhere. -/
theorem admission_eq_error {out : Exit × Session} (h : s.admission target = .error out) :
    ∃ pc t, out = (.left (.breakout pc), t) ∨ out = (.left (.resume pc), t) := by
  unfold admission at h
  split at h
  · cases h
    exact ⟨_, _, .inl rfl⟩
  split at h
  · cases h
    exact ⟨_, _, .inr rfl⟩
  split at h
  · cases h
    exact ⟨_, _, .inr rfl⟩
  split at h
  · dsimp only at h
    split at h
    next hselect =>
      obtain ⟨t, rfl⟩ := select_eq_error hselect
      cases h
      exact ⟨_, _, .inr rfl⟩
    · cases h
  · cases h
    exact ⟨_, _, .inr rfl⟩

/-- A relation between sessions that nothing ends which comes before code is run. -/
structure Entering (R : Session → Session → Prop) : Prop where
  refl : ∀ s, R s s
  trans : ∀ {s t u}, R s t → R t u → R s u
  count : ∀ (s : Session) (f : Stats → Stats), R s { s with shop := s.shop.count f }
  depth : ∀ (s : Session) (depth : Nat), R s { s with depth }
  unitAt : ∀ (s : Session) (base : Word), R s { s with shop := (s.shop.unitAt base).2 }
  firstExecutable : ∀ (s : Session) (base : Word),
    R s { s with
      shop := (s.shop.firstExecutable s.mem base).shop
      mem := (s.shop.firstExecutable s.mem base).mem }
  countEntry : ∀ (s : Session) (base : Word), R s (s.countEntry base).2

namespace Entering

variable {R : Session → Session → Prop} (hR : Entering R)
include hR

theorem select (s : Session) (u : CodeUnit) : R s (Admission.session (s.select u)) := by
  have hwork := hR.firstExecutable s u.base
  unfold Session.select
  split
  · exact hR.refl s
  · dsimp only
    generalize s.shop.firstExecutable s.mem u.base = work at hwork ⊢
    cases work.result with
    | error e =>
      exact hR.trans hwork (hR.count _ fun stats => { stats with fallbacks := stats.fallbacks + 1 })
    | ok exe =>
      have hcount := hR.trans hwork (hR.countEntry _ u.base)
      dsimp only
      generalize Session.countEntry _ u.base = counted at hcount ⊢
      obtain ⟨asked, t⟩ := counted
      cases asked <;> exact hcount

theorem admission (s : Session) (target : Word) : R s (Admission.session (s.admission target)) := by
  unfold Session.admission
  split
  · exact hR.refl s
  split
  · exact hR.refl s
  split
  · exact hR.count s fun stats => { stats with depthOverflows := stats.depthOverflows + 1 }
  split
  · have hunit := hR.trans (hR.depth s (s.depth + 1)) (hR.unitAt _ target)
    have hselect := hR.trans hunit (hR.select _ (s.shop.unitAt target).1)
    dsimp only
    generalize Session.select _ (s.shop.unitAt target).1 = selected at hselect ⊢
    cases selected with
    | error out =>
      show R s (leave out).2
      rw [session_leave]
      exact hR.trans hselect (hR.depth _ _)
    | ok admitted => exact hselect
  · exact hR.refl s

theorem refused {out : Exit × Session} (h : s.admission target = .error out) : R s out.2 := by
  have hadmission := hR.admission s target
  rw [h] at hadmission
  exact hadmission

theorem admitted (h : s.admission target = .ok (x, t)) : R s t := by
  have hadmission := hR.admission s target
  rw [h] at hadmission
  exact hadmission

end Entering

end Session

end R3000
