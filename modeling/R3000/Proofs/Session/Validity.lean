import R3000.Proofs.Session.Lasting
import R3000.Proofs.Unit.Workshop

/-!
# Compiled code keeps the workshop valid

Whatever compiled code does, words that hold code keep their contents or the watch is raised, so a
valid workshop stays valid.  This needs nothing of the executable: it holds of every operation, hence
of every run, by induction on the fuel.
-/

namespace R3000

variable {L : UnitLaw}

namespace Session

/-- From the first session to the second, a valid workshop stays valid, and code is kept. -/
def Keeps (L : UnitLaw) (s t : Session) : Prop :=
  s.shop.Valid L s.mem → s.mem.Keeps t.mem ∧ t.shop.Valid L t.mem

namespace Keeps

variable {s t u : Session}

theorem of_shop (hshop : t.shop = s.shop) (hmem : s.mem.Keeps t.mem) : s.Keeps L t :=
  fun h => ⟨hmem, hshop ▸ h.keeps hmem⟩

theorem of_eq (hshop : t.shop = s.shop) (hmem : t.mem = s.mem) : s.Keeps L t :=
  of_shop hshop (hmem ▸ .refl _)

theorem refl (s : Session) : s.Keeps L s :=
  of_eq rfl rfl

theorem trans (h : s.Keeps L t) (h' : t.Keeps L u) : s.Keeps L u := by
  intro hs
  obtain ⟨hmem, ht⟩ := h hs
  obtain ⟨hmem', hu⟩ := h' ht
  exact ⟨hmem.trans hmem', hu⟩

theorem of_units (ha : t.shop.analyzer = s.shop.analyzer) (hc : t.shop.config = s.shop.config)
    (hb : t.shop.breakpoints = s.shop.breakpoints) (hr : t.shop.registry = s.shop.registry)
    (hmem : t.mem = s.mem) : s.Keeps L t := by
  intro h
  rw [hmem]
  exact ⟨.refl _, h.of_units ha hc hb hr⟩

end Keeps

end Session

theorem Micro.keeps_perform (m : Micro) (s : Session) : s.Keeps L (m.perform s).2 :=
  .of_shop (m.shop_perform s) (m.accessed_perform AddressSpace.Keeps.enduring.accessed s)

/-! ## Entering units -/

/-- A valid workshop stays valid, and so does what holds of the memory as long as code is kept. -/
theorem Workshop.lasting_valid (L : UnitLaw) {Q : AddressSpace → Prop}
    (hQ : ∀ {m m' : AddressSpace}, Q m → m.Keeps m' → Q m') :
    Workshop.Lasting fun w m => Q m ∧ w.Valid L m where
  mem _ := AddressSpace.Keeps.enduring.of_imp fun hk h => ⟨hQ h.1 hk, h.2.keeps hk⟩
  beside h ha hc hb hr := ⟨h.1, h.2.of_units ha hc hb hr⟩
  unitAt base h := ⟨h.1, (h.2.unitAt base).1⟩
  countdown h hfind := ⟨h.1, h.2.put (L.countdown (h.2.units _ _ hfind).2)⟩
  countComplete h hfind :=
    ⟨h.1, h.2.put (L.countComplete (L.countdown (h.2.units _ _ hfind).2))⟩
  firstExecutable base h := by
    have hsound := h.2.firstExecutable base
    exact ⟨hQ h.1 hsound.annotates.keeps, hsound.valid⟩

namespace Session

theorem keeps_admission (s : Session) (target : Word) :
    s.Keeps L (Admission.session (s.admission target)) := fun h =>
  (Workshop.lasting_valid L AddressSpace.Keeps.trans).entering.admission s target ⟨.refl s.mem, h⟩

theorem Keeps.steady : Steady (Keeps L) where
  trans := .trans
  micro m s := m.keeps_perform s
  beside h := .of_eq h.shop h.mem
  counted _ := .of_units rfl rfl rfl rfl rfl
  refused {s target out} h := by
    have hadmission : s.Keeps L _ := s.keeps_admission target
    rw [h] at hadmission
    exact hadmission
  admitted {s t u target ret x} h hu := by
    have hadmission : s.Keeps L _ := s.keeps_admission target
    rw [h] at hadmission
    have hret : t.Keeps L { t with ret } := .of_eq rfl rfl
    exact hadmission.trans (hret.trans (hu.trans (.of_eq rfl rfl)))

end Session

/-! ## The recompiler -/

/-- The recompiler's workshop is valid at the memory, and so it is after a dispatch. -/
def Executed.Valid (L : UnitLaw) (e : Executed) : Prop :=
  e.recompiler.shop.Valid L e.mem

theorem Workshop.durable_valid (hrom : L.Fixed) :
    Workshop.Durable fun w m => True ∧ w.Valid L m where
  toLasting := lasting_valid L fun h _ => h
  firstMispredicted h hfind := ⟨trivial, h.2.put (L.firstMispredicted (h.2.units _ _ hfind).2)⟩
  secondBroken h hfind hsome :=
    ⟨trivial, h.2.put (L.secondBroken (L.firstMispredicted (h.2.units _ _ hfind).2) hsome)⟩
  clearCache h := ⟨trivial, h.2.clearCache hrom _⟩

namespace Recompiler

variable {r : Recompiler} {mem : AddressSpace}

theorem valid_prepared (hrom : L.Fixed) (h : r.shop.Valid L mem) (cpu : Cpu) :
    (r.prepared cpu mem).1.shop.Valid L (r.prepared cpu mem).2 :=
  ((Workshop.durable_valid hrom).prepared ⟨trivial, h⟩ cpu).2

theorem valid_executeWith (hrom : L.Fixed) (h : r.shop.Valid L mem) (fuel : Nat) (cpu : Cpu)
    (target ret : Word) (budget : UInt64) :
    (r.executeWith fuel cpu mem target ret budget).Valid L :=
  ((Workshop.durable_valid hrom).executeWith ⟨trivial, h⟩ fuel cpu target ret budget).2

end Recompiler

end R3000
