import R3000.Flow.Analyzer

/-!
# What an analysis finds

An analysis surveys the code at an aligned address.  It finds the graph of the survey if the survey is
accepted, and tags the words of that graph; otherwise it finds nothing and leaves the memory as it is.
-/

namespace R3000

namespace Analyzer

variable {a : Analyzer} {m : AddressSpace} {base : Word} {reach : Reach} {trusted : Bool}
  {g : FlowGraph}

theorem analyse_of_unaligned (a : Analyzer) (m : AddressSpace) (h : Word.any base 3 = true)
    (reach : Reach) (trusted : Bool) :
    a.analyse m base reach trusted = { graph := none, mem := m, analyzer := a } :=
  if_pos h

theorem survey_analyse (a : Analyzer) (m : AddressSpace) (halign : Word.any base 3 = false)
    (reach : Reach) (trusted : Bool) :
    (a.analyse m base reach trusted).analyzer.survey =
      a.survey.run (window m base reach trusted) := by
  unfold Analyzer.analyse
  rw [if_neg (Bool.eq_false_iff.mp halign)]
  dsimp only
  split <;> rfl

theorem analyse_of_aligned (a : Analyzer) (m : AddressSpace) (halign : Word.any base 3 = false)
    (reach : Reach) (trusted : Bool) :
    let w := window m base reach trusted
    let s := a.survey.run w
    (a.analyse m base reach trusted).graph = (if s.accepted w then some (s.graph base) else none) ∧
      (a.analyse m base reach trusted).mem = if s.accepted w then s.tag base m else m := by
  intro w s
  unfold Analyzer.analyse
  rw [if_neg (Bool.eq_false_iff.mp halign)]
  dsimp only
  split
  · exact ⟨rfl, rfl⟩
  · exact ⟨rfl, rfl⟩

theorem aligned_of_graph (h : (a.analyse m base reach trusted).graph = some g) :
    Word.any base 3 = false := by
  cases halign : Word.any base 3 with
  | false => rfl
  | true =>
    rw [a.analyse_of_unaligned m halign] at h
    cases h

theorem accepted_of_graph (hg : (a.analyse m base reach trusted).graph = some g) :
    (a.survey.run (window m base reach trusted)).accepted (window m base reach trusted) = true := by
  rw [(a.analyse_of_aligned m (aligned_of_graph hg) reach trusted).1] at hg
  split at hg
  next hacc => exact hacc
  next => cases hg

theorem exists_survey (h : (a.analyse m base reach trusted).graph = some g) :
    Word.any base 3 = false ∧
      g = (a.survey.run (Analyzer.window m base reach trusted)).graph base := by
  have halign := aligned_of_graph h
  have hgraph := (a.analyse_of_aligned m halign reach trusted).1
  rw [if_pos (accepted_of_graph h)] at hgraph
  exact ⟨halign, Option.some.inj (h.symm.trans hgraph)⟩

end Analyzer

end R3000
