import R3000.Proofs.Session.Handover
import R3000.Proofs.Session.Steady
import R3000.Proofs.Unit.Validity

/-!
# Properties that last

A property of a workshop and its memory lasts if no access ends it, nor any of the few things that an
entry does to units (`Workshop.Lasting`).  It then holds throughout every run.  If dropping code and
answering a wrong guess do not end it either (`Workshop.Durable`), it holds after every dispatch.
-/

namespace R3000

namespace Workshop

/-- A property of a workshop and its memory that no access and no entry ends. -/
structure Lasting (P : Workshop → AddressSpace → Prop) : Prop where
  mem : ∀ w : Workshop, AddressSpace.Enduring fun m m' => P w m → P w m'
  /-- Other parts of the workshop than these do not matter. -/
  beside : ∀ {w w' : Workshop} {m : AddressSpace}, P w m → w'.analyzer = w.analyzer →
    w'.config = w.config → w'.breakpoints = w.breakpoints → w'.registry = w.registry → P w' m
  unitAt : ∀ {w : Workshop} {m : AddressSpace} (base : Word), P w m → P (w.unitAt base).2 m
  countdown : ∀ {w : Workshop} {m : AddressSpace} {base : Word} {u : CodeUnit}, P w m →
    w.registry.find? base = some u → P { w with registry := w.registry.put u.countdown.1 } m
  countComplete : ∀ {w : Workshop} {m : AddressSpace} {base : Word} {u : CodeUnit}, P w m →
    w.registry.find? base = some u →
      P { w with registry := w.registry.put u.countdown.1.countComplete.1 } m
  firstExecutable : ∀ {w : Workshop} {m : AddressSpace} (base : Word), P w m →
    P (w.firstExecutable m base).shop (w.firstExecutable m base).mem

namespace Lasting

variable {P : Workshop → AddressSpace → Prop} (hP : Lasting P) {s : Session}
include hP

theorem countEntry (h : P s.shop s.mem) (base : Word) :
    P (s.countEntry base).2.shop (s.countEntry base).2.mem := by
  unfold Session.countEntry
  split
  · exact h
  next u hfind =>
    dsimp only
    split
    · have hput := hP.countComplete h hfind
      dsimp only
      split
      · exact hP.beside hput rfl rfl rfl rfl
      · exact hput
    · exact hP.countdown h hfind

theorem entering : Session.Entering fun s t => P s.shop s.mem → P t.shop t.mem where
  refl _ h := h
  trans h h' hs := h' (h hs)
  count _ _ h := hP.beside h rfl rfl rfl rfl
  depth _ _ h := h
  unitAt _ base h := hP.unitAt base h
  firstExecutable _ base h := hP.firstExecutable base h
  countEntry _ base h := hP.countEntry h base

theorem steady : Session.Steady fun s t => P s.shop s.mem → P t.shop t.mem where
  trans h h' hs := h' (h hs)
  micro m s hs := by
    rw [m.shop_perform s]
    exact m.accessed_perform (hP.mem s.shop).accessed s hs
  beside h hs := by
    rw [h.shop, h.mem]
    exact hs
  counted s hs := hP.beside hs rfl rfl rfl rfl
  refused h := hP.entering.refused h
  admitted {s t u target ret x} h hu hs := by
    have ht : P t.shop t.mem := hP.entering.admitted h hs
    exact hu ht

end Lasting

/-- A property that lasts, and that neither dropping code nor a wrong guess ends. -/
structure Durable (P : Workshop → AddressSpace → Prop) : Prop extends Lasting P where
  firstMispredicted : ∀ {w : Workshop} {m : AddressSpace} {base : Word} {u : CodeUnit}, P w m →
    w.registry.find? base = some u →
      P { w with registry := w.registry.put u.firstMispredicted } m
  secondBroken : ∀ {w : Workshop} {m : AddressSpace} {base : Word} {u : CodeUnit}, P w m →
    w.registry.find? base = some u → u.second.isSome = true →
      P { w with registry := w.registry.put u.firstMispredicted.secondBroken.1 } m
  clearCache : ∀ {w : Workshop} {m : AddressSpace}, P w m →
    P w.clearCache { m with watch := m.watch.answer }

end Workshop

namespace Workshop.Durable

variable {P : Workshop → AddressSpace → Prop} (hP : Durable P) {r : Recompiler} {mem : AddressSpace}
include hP

theorem mispredicted (h : P r.shop mem) (e : Executable) : P (r.mispredicted e).shop mem := by
  unfold Recompiler.mispredicted
  split
  · exact h
  next u hfind =>
    dsimp only
    split
    next hbroken =>
      have hput := hP.secondBroken h hfind hbroken.2
      split <;> exact hP.beside hput rfl rfl rfl rfl
    · exact hP.firstMispredicted h hfind

theorem mended (h : P r.shop mem) (f : Fault) (line : Line) :
    P (r.mended mem f line).shop mem := by
  have hfixed : P (r.corrected mem f line).shop mem := by
    unfold Recompiler.corrected
    split
    · exact hP.beside h rfl rfl rfl rfl
    · exact h
  unfold Recompiler.mended
  split
  · exact hP.mispredicted hfixed f.exe
  · exact hfixed

theorem ends (h : P r.shop mem) {exit : Exit} {q : Recompiler} {outcome : Outcome}
    (hends : r.Ends mem exit q outcome) : P q.shop mem := by
  rcases hends.recompiler with rfl | ⟨f, line, -, rfl⟩
  · exact h
  · exact hP.mended h f line

theorem recover (h : P r.shop mem) (cpu : Cpu) (f : Fault) :
    P (r.recover cpu mem f).recompiler.shop (r.recover cpu mem f).mem := by
  obtain ⟨q, outcome, hends, heq⟩ := r.exists_ends_recover cpu mem f
  rw [heq, Recompiler.shop_handBack]
  exact hP.ends h hends

theorem conclude {out : Exit × Session} (h : P out.2.shop out.2.mem) (r : Recompiler) (cpu : Cpu) :
    P (r.conclude cpu out).recompiler.shop (r.conclude cpu out).mem := by
  obtain ⟨q, outcome, hends, heq⟩ := r.exists_ends cpu out
  rw [heq, Recompiler.shop_handBack]
  exact hP.ends (r := r.regained out.2) h hends

theorem prepared (h : P r.shop mem) (cpu : Cpu) :
    P (r.prepared cpu mem).1.shop (r.prepared cpu mem).2 := by
  rw [Recompiler.shop_prepared, Recompiler.mem_prepared]
  split
  · exact hP.clearCache h
  · exact h

theorem executeWith (h : P r.shop mem) (fuel : Nat) (cpu : Cpu) (target ret : Word)
    (budget : UInt64) :
    P (r.executeWith fuel cpu mem target ret budget).recompiler.shop
      (r.executeWith fuel cpu mem target ret budget).mem := by
  by_cases hc : r.shop.config.enabled = true ∧ compilable target = true
  · rw [Recompiler.executeWith_eq hc.1 hc.2]
    exact hP.conclude (hP.steady.callFrom fuel _ target ret (hP.prepared h cpu)) _ cpu
  · rw [Recompiler.executeWith_skip hc]
    exact hP.beside h rfl rfl rfl rfl

end Workshop.Durable

/-! ## Relations between memories -/

namespace AddressSpace.Accessed

variable {R : AddressSpace → AddressSpace → Prop} (hR : Accessed R)
include hR

theorem entering : Session.Entering fun s t => R s.mem t.mem where
  refl s := hR.refl s.mem
  trans h h' := hR.trans h h'
  count s _ := hR.refl s.mem
  depth s _ := hR.refl s.mem
  unitAt s _ := hR.refl s.mem
  firstExecutable s base := hR.firstExecutable s.mem s.shop base
  countEntry s base := by
    obtain ⟨shop, hcount⟩ := s.exists_countEntry base
    rw [hcount]
    exact hR.refl s.mem

theorem steady : Session.Steady fun s t => R s.mem t.mem where
  trans := hR.trans
  micro m s := m.accessed_perform hR s
  beside {s t} h := h.mem ▸ hR.refl s.mem
  counted s := hR.refl s.mem
  refused h := hR.entering.refused h
  admitted {s t u target ret x} h hu := by
    have ht : R s.mem t.mem := hR.entering.admitted h
    exact hR.trans ht hu

end AddressSpace.Accessed

namespace Recompiler

theorem mem_conclude (r : Recompiler) (cpu : Cpu) (out : Exit × Session) :
    (r.conclude cpu out).mem = out.2.mem := by
  obtain ⟨q, outcome, -, heq⟩ := r.exists_ends cpu out
  rw [heq]
  rfl

end Recompiler

theorem AddressSpace.Accessed.executeWith {R : AddressSpace → AddressSpace → Prop}
    (hR : Accessed R) (hanswer : ∀ m : AddressSpace, R m { m with watch := m.watch.answer })
    (r : Recompiler) (fuel : Nat) (cpu : Cpu) (mem : AddressSpace) (target ret : Word) (budget : UInt64) :
    R mem (r.executeWith fuel cpu mem target ret budget).mem := by
  by_cases hc : r.shop.config.enabled = true ∧ compilable target = true
  · rw [Recompiler.executeWith_eq hc.1 hc.2]
    have hprepared : R mem (r.prepared cpu mem).2 := by
      rw [Recompiler.mem_prepared]
      split
      · exact hanswer mem
      · exact hR.refl mem
    dsimp only
    rw [Recompiler.mem_conclude]
    have hran := hR.steady.callFrom fuel
      ((r.prepared cpu mem).1.opening cpu (r.prepared cpu mem).2 budget) target ret
    exact hR.trans hprepared hran
  · rw [Recompiler.executeWith_skip hc]
    exact hR.refl mem

end R3000
