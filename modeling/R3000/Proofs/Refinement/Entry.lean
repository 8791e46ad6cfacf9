import R3000.Proofs.Refinement.Block

/-!
# Entering compiled code

Nothing but its arrivals matters to an operation, so what else could be entered may be left out.  An
arrival that is not admitted is left to the interpreter where it stands, and one that is finds code
for its target.
-/

namespace R3000

/-! ## Nothing else is entered -/

section

variable {aborts : Prop} {enter : Entry}

open Classical in
/-- Enter what is listed, and leave everything else to the interpreter. -/
noncomputable def Entry.restrict (enter : Entry) (l : List Arrival) : Entry :=
  fun target ret s =>
    if { target, ret, session := s } ∈ l then enter target ret s else Entry.none target ret s

theorem Entry.agreeOn_restrict (enter : Entry) (l : List Arrival) :
    enter.AgreeOn (enter.restrict l) l := by
  intro a ha
  unfold Entry.restrict
  exact if_pos ha

theorem Entry.sound_restrict {l : List Arrival} (hkeeps : enter.Obeys (Session.Keeps (.described False fun _ => True)))
    (h : ∀ a ∈ l, a.session.shop.Valid (.described False fun _ => True) a.session.mem →
      a.session.Refines aborts a.target (enter a.target a.ret a.session)) :
    (enter.restrict l).Sound aborts where
  keeps target ret s := by
    unfold Entry.restrict
    split
    · exact hkeeps target ret s
    · exact .refl s
  refines target ret s hs := by
    unfold Entry.restrict
    split
    next hmem => exact h _ hmem hs
    next => exact (Session.Reaches.refl s target).left rfl nofun

end

namespace Session

variable {aborts : Prop}

/-- What the other side of an admission sees: the same program, and code that is up to date. -/
structure Admitted (s : Session) (target : Word) (x : Executable) (t : Session) : Prop where
  compiled : Compiled (Described (fun _ => True) t.mem) target .first x
  regs : t.regs = s.regs
  control : t.control = s.control
  contents : t.mem.contents = s.mem.contents
  watch : t.mem.watch = s.mem.watch

/-- An arrival at `target` is left where it stands, or finds code for it. -/
def Serves (aborts : Prop) (s : Session) (target : Word) : Admission → Prop
  | .error out => s.Refines aborts target out
  | .ok (x, t) => s.Admitted target x t

theorem mem_countEntry (s : Session) (base : Word) :
    (s.countEntry base).2.mem = s.mem ∧ (s.countEntry base).2.regs = s.regs ∧
      (s.countEntry base).2.control = s.control := by
  obtain ⟨shop, hcount⟩ := s.exists_countEntry base
  rw [hcount]
  exact ⟨rfl, rfl, rfl⟩

theorem serves_select {s : Session} {u : CodeUnit}
    (h : s.shop.Valid (.described False fun _ => True) s.mem) (hsecond : u.second = none) :
    s.Serves aborts u.base (s.select u) := by
  have hsound := h.firstExecutable u.base
  have hexe : ∀ e, (s.shop.firstExecutable s.mem u.base).result = .ok e →
      Compiled (Described (fun _ => True) (s.shop.firstExecutable s.mem u.base).mem) u.base .first e :=
    fun _ he => h.compiled_firstExecutable (fun hu he => hu.first _ he) he
  have hnone : (if u.optimized = true then u.second else none) = none := by
    rw [hsecond]
    split <;> rfl
  unfold select
  rw [hnone]
  dsimp only
  generalize s.shop.firstExecutable s.mem u.base = work at hsound hexe ⊢
  cases hresult : work.result with
  | error e =>
    refine Reaches.left ?_ rfl nofun
    apply Reaches.of_eq
    · rfl
    · rfl
    · exact hsound.annotates.contents
  | ok exe =>
    dsimp only
    have hcount := mem_countEntry { s with shop := work.shop, mem := work.mem } u.base
    generalize countEntry _ u.base = counted at hcount ⊢
    obtain ⟨asked, t⟩ := counted
    obtain ⟨hmem, hregs, hcontrol⟩ :
        t.mem = work.mem ∧ t.regs = s.regs ∧ t.control = s.control := hcount
    have hcontents : t.mem.contents = s.mem.contents := by
      rw [hmem]
      exact hsound.annotates.contents
    have hadmitted : s.Admitted u.base exe t := by
      refine ⟨?_, hregs, hcontrol, hcontents, ?_⟩
      · rw [hmem]
        exact hexe exe hresult
      · rw [hmem]
        exact hsound.annotates.watch
    have hsame : s.Reaches u.base t u.base := .of_eq hregs hcontrol hcontents _
    cases asked with
    | escape => exact hsame.left rfl nofun
    | _ => exact hadmitted

theorem Refines.leave {s : Session} {pc : Word} {out : Exit × Session} (h : s.Refines aborts pc out) :
    s.Refines aborts pc (Session.leave out) := by
  obtain ⟨exit, t⟩ := out
  have hdepth : s.Refines aborts pc (exit, { t with depth := t.depth - 1 }) := h.of_eq rfl rfl rfl
  unfold Session.leave
  cases exit with
  | returned p =>
    dsimp only
    split
    · exact hdepth
    · exact (hdepth.returns p rfl).1.left rfl nofun
  | left sig => exact hdepth
  | unfinished => exact hdepth

theorem serves_admission {s : Session} (h : s.shop.Valid (.described False fun _ => True) s.mem)
    (target : Word) : s.Serves aborts target (s.admission target) := by
  have hresume : ∀ t : Session, t.regs = s.regs → t.control = s.control → t.mem = s.mem →
      s.Serves aborts target (.error (.left (.resume target), t)) := by
    intro t hregs hcontrol hmem
    have hstays : s.Reaches target t target := .of_eq hregs hcontrol (congrArg _ hmem) target
    exact hstays.left rfl nofun
  unfold admission
  split
  · exact (Reaches.refl s target).left rfl nofun
  split
  · exact hresume s rfl rfl rfl
  split
  · exact hresume _ rfl rfl rfl
  split
  · dsimp only
    obtain ⟨hvalid, hbase, hfind⟩ := h.unitAt target
    have hsecond : (s.shop.unitAt target).1.second = none := by
      cases hx : (s.shop.unitAt target).1.second with
      | none => rfl
      | some x => exact ((hvalid.units target _ hfind).2.second x hx).1.elim
    obtain ⟨entered, hentered⟩ : ∃ t : Session,
        t = { s with shop := (s.shop.unitAt target).2, depth := s.depth + 1 } := ⟨_, rfl⟩
    have hselect : entered.Serves aborts (s.shop.unitAt target).1.base
        (entered.select (s.shop.unitAt target).1) := by
      subst hentered
      exact serves_select hvalid hsecond
    have hsame : s.Reaches target entered target := by
      subst hentered
      apply Reaches.of_eq <;> rfl
    rw [← hentered]
    rw [hbase] at hselect
    generalize entered.select (s.shop.unitAt target).1 = selected at hselect ⊢
    cases selected with
    | error out => exact (Refines.of_reaches hsame hselect).leave
    | ok admitted =>
      obtain ⟨x, t⟩ := admitted
      subst hentered
      exact ⟨hselect.compiled, hselect.regs, hselect.control, hselect.contents, hselect.watch⟩
  · exact hresume s rfl rfl rfl

end Session

end R3000
