import R3000.Proofs.Code.Integrity
import R3000.Proofs.Code.Lowering
import R3000.Proofs.Memory.Recall

/-!
# Guesses about regions

The code of a load or store whose tags name one region goes straight to that region, and gives up
where the access leads elsewhere.  So an instruction of generated code guesses wrong only if its tags
named a region and the access leads to another (`CodeSource.Strays`), and code that was generated
while the tags of an instruction named no region never guesses there (`Executable.Unguessed`).
-/

namespace R3000

theorem Region.isStorage_of_ofTags {t : UInt8} {r : Region} (h : ofTags t = some r) :
    r.isStorage = true := by
  rcases eq_of_ofTags h with rfl | rfl | rfl <;> rfl

namespace Micro

def region? : Micro → Option Region
  | .loadDirect _ region | .storeDirect _ region _ _ => some region
  | _ => none

theorem perform_ne_mispredict {m : Micro} (h : m.region? = none) (s : Session) :
    (m.perform s).1 ≠ .fault .mispredict := by
  intro hfault
  cases m with
  | compute i d =>
    simp only [perform] at hfault
    split at hfault <;> cases hfault
  | loadBus i poll =>
    simp only [perform, Session.loadBus] at hfault
    split at hfault <;> cases hfault
  | storeBus i pc watch =>
    simp only [perform, Session.storeBus] at hfault
    split at hfault
    · cases hfault
    · unfold Session.afterStore at hfault
      split at hfault <;> cases hfault
  | loadDirect i region => cases h
  | storeDirect i region pc watch => cases h
  | _ => cases hfault

end Micro

namespace Instr

variable {i : Instr} {pc : Word} {guess : MemoryGuess} {watch : Bool} {m : Micro}

theorem region?_lowerComputable (h : i.lowerComputable = some m) : m.region? = none := by
  unfold lowerComputable at h
  split at h
  · split at h
    · cases h
      rfl
    · cases h
  · obtain rfl := Option.some.inj h
    split <;> rfl

theorem region?_lower (h : i.lower pc guess watch = some m) (hguess : guess.region = none) :
    m.region? = none := by
  unfold lower at h
  split at h
  · cases h
    rfl
  · split at h
    · exact region?_lowerComputable h
    · split at h
      · cases h
        unfold lowerLoad
        rw [hguess]
        rfl
      · split at h
        · cases h
          unfold lowerStore
          rw [hguess]
          rfl
        · obtain rfl := Option.some.inj h
          split <;> rfl

end Instr

/-! ## Operations of generated code -/

def CodeOp.region? : CodeOp → Option Region
  | .micro m _ => m.region?
  | _ => none

theorem CodeOp.perform_ne_mispredict {op : CodeOp} (h : op.region? = none) (enter : Entry)
    (s : Session) : (op.perform enter s).1 ≠ .fault .mispredict := by
  intro hfault
  obtain ⟨-, m, outstanding, rfl, hm⟩ := exists_micro_of_fault (t := (op.perform enter s).2)
    (Prod.ext hfault rfl)
  exact Micro.perform_ne_mispredict h s (congrArg Prod.fst hm)

/-- An instruction of compiled code is what the source makes of the instruction at its line. -/
def PlacedOp.Faithful (src : CodeSource) (p : PlacedOp) : Prop :=
  ∀ m outstanding, p.op = .micro m outstanding →
    src.micro? p.line.offset p.line.delaySlot = some m

theorem PlacedOp.faithful_of_not_micro (src : CodeSource) {p : PlacedOp}
    (h : p.op.isMicro = false) : p.Faithful src := by
  intro m outstanding hp
  rw [hp] at h
  cases h

namespace CodeSource

open Emitter

variable (src : CodeSource) (stage : Stage)

theorem faithful_aside (line : Line) (op : CodeOp) (h : op.aside = true) :
    PlacedOp.Faithful src { line, op } :=
  PlacedOp.faithful_of_not_micro src (CodeOp.isMicro_of_aside h)

theorem faithful_micro {offset : Nat} {slot : Bool} {m : Micro} {outstanding : Writes}
    (h : src.micro? offset slot = some m) :
    PlacedOp.Faithful src { line := { offset, delaySlot := slot }, op := .micro m outstanding } := by
  rintro _ _ ⟨⟩
  exact h

theorem faithful_blockBody (id : Nat) : (src.blockBody stage id).All (·.Faithful src) := by
  refine (all_fresh _).emitInstrs src.faithful_aside src ?_
  intro offset m outstanding hm
  exact src.faithful_micro hm

theorem faithful_blockTail (id : Nat) : (src.blockTail stage id).All (·.Faithful src) := by
  have hfinal : ∀ (line : Line) {op : CodeOp}, op.isFinal = true →
      PlacedOp.Faithful src { line, op } := fun _ _ h =>
    PlacedOp.faithful_of_not_micro src (CodeOp.isMicro_of_isFinal h)
  refine Emitter.All.emitTail src.faithful_aside (all_fresh _) src
    (fun _ line => hfinal line (src.isFinal_fallThrough _))
    (fun _ _ => PlacedOp.faithful_of_not_micro src rfl) ?_
    fun branch _ => hfinal _ (src.isFinal_finish _ branch)
  intro branch hb m hm
  exact src.faithful_micro hm

theorem faithful_generate {site : Site} {p : PlacedOp}
    (h : (src.generate stage).exe.opAt? site = some p) : p.Faithful src := by
  unfold Executable.opAt? at h
  obtain ⟨routine, hroutine, hp⟩ := Option.bind_eq_some_iff.mp h
  rcases src.mem_routines stage (Array.mem_of_getElem? hroutine) (Array.mem_of_getElem? hp) with
    hopens | ⟨id, hbody | htail⟩
  · exact PlacedOp.faithful_of_not_micro src (CodeOp.isMicro_of_opens hopens)
  · exact src.faithful_blockBody stage id p hbody
  · exact src.faithful_blockTail stage id p htail

/-! ## Wrong guesses -/

/-- The access at an offset leads out of the region that the tags name. -/
structure Strays (offset : Nat) (s : Session) (region : Region) : Prop where
  isMemory : (src.graph.instr offset).isMemory = true
  isBranch : (src.graph.instr offset).isBranch = false
  guessed : Region.ofTags (src.tags (src.graph.addressOf offset)) = some region
  elsewhere : (locate (s.reg (src.graph.instr offset).rs + (src.graph.instr offset).simm)).region ≠
    region

variable {src stage}

theorem ofTags_of_memoryGuess {pc : Word} {i : Instr} {r : Region}
    (h : (src.memoryGuess pc i).region = some r) : Region.ofTags (src.tags pc) = some r :=
  (Option.filter_eq_some_iff.mp h).1

theorem strays_of_micro {offset : Nat} {slot : Bool} {m : Micro} {s : Session}
    (h : src.micro? offset slot = some m) (hm : m.perform s = (.fault .mispredict, s)) :
    ∃ region, src.Strays offset s region := by
  obtain ⟨hi, hlower⟩ := lower_of_micro? h
  have hact : src.act offset slot s = (.fault .mispredict, s) := by
    unfold act Instr.act
    simp only [hlower]
    exact hm
  have hfares := Instr.fares (s := s) (c := { regs := s.regs, control := s.control }) (m := s.mem)
    ⟨rfl, rfl, rfl, rfl, rfl⟩ hi (src.graph.addressOf offset)
    (src.memoryGuess (src.graph.addressOf offset) (src.graph.instr offset)) !slot
  change Instr.Fares _ _ _ _ _ _ (src.act offset slot s) at hfares
  rw [hact] at hfares
  cases hfares with
  | mispredict hmiss =>
    obtain ⟨region, hdirect, -, hregion⟩ := id hmiss
    have hof := ofTags_of_memoryGuess (Option.filter_eq_some_iff.mp hdirect).1
    have hstorage := Region.isStorage_of_ofTags hof
    refine ⟨region, hmiss.plain.2.2, (Instr.plain_of_needsInterpreter hi).1, hof, ?_⟩
    rcases hregion with hne | hnone
    · exact hne
    · rw [hstorage] at hnone
      cases hnone

theorem exists_strays {f : Fault} {s : Session} {line : Line}
    (hexe : f.exe = (src.generate stage).exe) (hraised : f.Raised s) (hkind : f.kind = .mispredict)
    (hline : f.exe.line? f.site = some line) : ∃ region, src.Strays line.offset s region := by
  obtain ⟨place, m, outstanding, hplaced, hm⟩ := hraised
  rw [Executable.line?_eq, hplaced] at hline
  obtain rfl := Option.some.inj hline
  rw [hexe] at hplaced
  rw [hkind] at hm
  exact strays_of_micro (src.faithful_generate stage hplaced m outstanding rfl) hm

end CodeSource

/-! ## Code without a guess -/

/-- Wherever the executable has code for the instruction at the address, under whatever name, the
code has no region to go straight to and so never guesses wrong. -/
structure Executable.Unguessed (x : Executable) (p : Word) : Prop where
  region : ∀ {site : Site} {placed : PlacedOp}, x.opAt? site = some placed →
    locate (x.graph.addressOf placed.line.offset) = locate p → placed.op.region? = none
  never : ∀ {site : Site} {placed : PlacedOp}, x.opAt? site = some placed →
    locate (x.graph.addressOf placed.line.offset) = locate p →
      ∀ (enter : Entry) (s : Session), (placed.op.perform enter s).1 ≠ .fault .mispredict

theorem CodeSource.unguessed_generate {src : CodeSource} {p : Word}
    (h : ∀ q, locate q = locate p → Region.ofTags (src.tags q) = none) (stage : Stage) :
    (src.generate stage).exe.Unguessed p := by
  have hregion : ∀ {site : Site} {placed : PlacedOp},
      (src.generate stage).exe.opAt? site = some placed →
      locate (src.graph.addressOf placed.line.offset) = locate p → placed.op.region? = none := by
    intro site placed hplaced hat
    have hfaithful := src.faithful_generate stage hplaced
    unfold PlacedOp.Faithful at hfaithful
    cases hop : placed.op with
    | micro m outstanding =>
      refine Instr.region?_lower (lower_of_micro? (hfaithful m outstanding hop)).2 ?_
      show Option.filter _ (Region.ofTags (src.tags _)) = none
      rw [h _ hat]
      rfl
    | _ => rfl
  exact ⟨hregion, fun hplaced hat => CodeOp.perform_ne_mispredict (hregion hplaced hat)⟩

theorem Executable.Unguessed.ne_mispredict {x : Executable} {p : Word} (h : x.Unguessed p)
    {f : Fault} {s : Session} {line : Line} (hexe : f.exe = x) (hraised : f.Raised s)
    (hline : f.exe.line? f.site = some line)
    (hat : locate (f.exe.graph.addressOf line.offset) = locate p) : f.kind ≠ .mispredict := by
  obtain ⟨place, m, outstanding, hplaced, hm⟩ := hraised
  subst hexe
  rw [line?_eq, hplaced] at hline
  obtain rfl := Option.some.inj hline
  intro hkind
  rw [hkind] at hm
  exact Micro.perform_ne_mispredict (h.region hplaced hat) s (congrArg Prod.fst hm)

theorem AddressSpace.Varied.unguessed_generate {m : AddressSpace} {p : Word} (h : m.Varied p)
    {src : CodeSource} (hsrc : src.tags = m.tags) (stage : Stage) :
    (src.generate stage).exe.Unguessed p := by
  refine CodeSource.unguessed_generate (fun q hq => ?_) stage
  rw [hsrc, m.tags_congr hq]
  exact h.ofTags_eq_none

end R3000
