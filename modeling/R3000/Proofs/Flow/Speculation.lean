import R3000.Proofs.Flow.Worklist

/-!
# Speculative analyses

An analysis that is not trusted goes the way of one that is, and gives up at the first invalid
instruction it reads: in the middle of a walk or at the slot of a branch.  `Survey.reads` lists what a
survey reads, in order, and `Survey.Speculates` relates the two surveys by it.  So a speculative
analysis finds what the trusted one finds, or nothing and then leaves no trace in memory.
-/

namespace R3000

namespace Window

/-- The same code, which may be data. -/
def doubted (w : Window) : Window :=
  { w with trusted := false }

def wordAt (w : Window) (offset : Nat) : Word :=
  w.fetch (w.address offset)

def gather (w : Window) (seen : Word) (offsets : List Nat) : Word :=
  offsets.foldl (fun seen o => seen ||| w.wordAt o) seen

theorem gather_eq_zero (w : Window) (seen : Word) (offsets : List Nat) :
    w.gather seen offsets = 0 ↔ seen = 0 ∧ ∀ o ∈ offsets, w.wordAt o = 0 := by
  induction offsets generalizing seen with
  | nil => simp [gather]
  | cons o l ih =>
    rw [gather, List.foldl_cons, ← gather, ih, UInt32.or_eq_zero_iff, List.forall_mem_cons, and_assoc]

def Valid (w : Window) (offsets : List Nat) : Prop :=
  ∀ o ∈ offsets, (w.instrAt o).has .invalid = false

theorem valid_append {w : Window} {l l' : List Nat} :
    w.Valid (l ++ l') ↔ w.Valid l ∧ w.Valid l' :=
  List.forall_mem_append

theorem not_valid {w : Window} {l : List Nat} :
    ¬ w.Valid l ↔ ∃ o ∈ l, (w.instrAt o).has .invalid = true := by
  simp only [Valid, not_forall, Bool.not_eq_false, exists_prop]

end Window

namespace Survey

/-! ## What a survey reads -/

def slotReads (s : Survey) (offset : Nat) : List Nat :=
  if s.visited.contains (offset + 1) || s.starts.contains (offset + 1) then [] else [offset + 1]

def branchReads (s : Survey) (w : Window) (offset : Nat) (i : Instr) : List Nat :=
  if offset + 1 < w.size then (s.record offset i).slotReads offset else []

def walkReads (s : Survey) (w : Window) (start offset length : Nat) : List Nat :=
  if offset < w.size then
    if offset ≠ start && s.visited.contains offset then []
    else
      let i := w.instrAt offset
      let s := (s.read w offset).2
      offset ::
        if i.isBranch then s.branchReads w offset i
        else if w.blockLimit ≤ length + 1 then []
        else (s.record offset i).walkReads w start (offset + 1) (length + 1)
  else []
termination_by w.size - offset

def visitReads (s : Survey) (w : Window) (start : Nat) : List Nat :=
  if s.visited.contains start then [] else s.walkReads w start start 0

def drainReads (w : Window) : Nat → Survey → List Nat
  | 0, _ => []
  | fuel + 1, s =>
    match s.pending with
    | [] => []
    | start :: rest =>
      { s with pending := rest }.visitReads w start ++
        drainReads w fuel ({ s with pending := rest }.visit w start)

def reads (previous : Survey) (w : Window) : List Nat :=
  drainReads w (popBound w.size) ((previous.restart w.size).push 0)

/-! ## The doubtful survey -/

/-- From one survey a trusted part of a survey comes to `t` and a doubtful one to `u`, where the
trusted one reads some offsets.  The doubtful one gives up exactly if one of them is invalid. -/
structure Speculates (w : Window) (read : List Nat) (s t u : Survey) : Prop where
  trusted : t.rejected = false
  seen : t.seen = w.gather s.seen read
  same : w.Valid read → u = t
  rejected : ¬ w.Valid read → u.rejected = true

variable {w : Window} {s t u : Survey} {read read' : List Nat}

theorem speculates_nil (hs : s.rejected = false) (hrej : t.rejected = s.rejected)
    (hseen : t.seen = s.seen) : Speculates w [] s t t :=
  ⟨hrej.trans hs, hseen, fun _ => rfl, fun h => absurd nofun h⟩

theorem Speculates.of_seen {s' : Survey} (h : Speculates w read s' t u) (hseen : s'.seen = s.seen) :
    Speculates w read s t u :=
  { h with seen := hseen ▸ h.seen }

/-- A doubtful survey that has given up stays so, and one that has not goes on from where the trusted
one is. -/
theorem Speculates.bind {f g : Survey → Survey} (h : Speculates w read s t u)
    (hg : ∀ v : Survey, v.rejected = true → (g v).rejected = true)
    (hnext : Speculates w read' t (f t) (g t)) :
    Speculates w (read ++ read') s (f t) (g u) := by
  refine ⟨hnext.trusted, ?_, fun hvalid => ?_, fun hvalid => ?_⟩
  · rw [hnext.seen, h.seen]
    exact List.foldl_append.symm
  · obtain ⟨hfirst, hlast⟩ := Window.valid_append.mp hvalid
    rw [h.same hfirst]
    exact hnext.same hlast
  · by_cases hfirst : w.Valid read
    · rw [h.same hfirst]
      exact hnext.rejected fun hlast => hvalid (Window.valid_append.mpr ⟨hfirst, hlast⟩)
    · exact hg u (h.rejected hfirst)

theorem Speculates.unlessRejected {f g : Survey → Survey} (h : Speculates w read s t u)
    (hnext : Speculates w read' t (f t) (g t)) :
    Speculates w (read ++ read') s (if t.rejected then t else f t)
      (if u.rejected then u else g u) := by
  have hgo : ¬ t.rejected = true := Bool.eq_false_iff.mp h.trusted
  refine h.bind (f := fun t => if t.rejected then t else f t)
    (g := fun u => if u.rejected then u else g u) (fun v hv => ?_) ?_
  · rw [if_pos hv]
    exact hv
  · rw [if_neg hgo, if_neg hgo]
    exact hnext

theorem seen_pushWithin (s : Survey) (w : Window) (o : Nat) :
    (s.pushWithin w o).seen = s.seen := by
  rw [pushWithin_eq]

theorem walk_doubted (s : Survey) (w : Window) (start offset length : Nat) :
    s.walk w.doubted start offset length =
      if offset < w.size then
        if offset ≠ start && s.visited.contains offset then s.markStart offset
        else if (s.read w.doubted offset).2.rejected then (s.read w.doubted offset).2
        else if (w.instrAt offset).isBranch then
          (s.read w.doubted offset).2.visitBranch w.doubted offset (w.instrAt offset)
        else if w.blockLimit ≤ length + 1 then
          ((s.read w.doubted offset).2.record offset (w.instrAt offset)).pushWithin w (offset + 1)
        else
          ((s.read w.doubted offset).2.record offset (w.instrAt offset)).walk w.doubted start
            (offset + 1) (length + 1)
      else s :=
  s.walk_eq w.doubted start offset length

section Steps

variable (hw : w.trusted = true) (hs : s.rejected = false)
include hw hs

theorem speculates_read (o : Nat) :
    Speculates w [o] s (s.read w o).2 (s.read w.doubted o).2 := by
  refine ⟨?_, rfl, fun hvalid => ?_, fun hvalid => ?_⟩
  · show (s.rejected || (!w.trusted && (w.instrAt o).has .invalid)) = false
    rw [hs, hw]
    rfl
  · have hinstr := hvalid o List.mem_cons_self
    show { s with
        seen := s.seen ||| w.wordAt o
        rejected := s.rejected || (!false && (w.instrAt o).has .invalid) } =
      { s with
        seen := s.seen ||| w.wordAt o
        rejected := s.rejected || (!w.trusted && (w.instrAt o).has .invalid) }
    rw [hinstr, Bool.and_false, Bool.and_false]
  · obtain ⟨k, hk, hinvalid⟩ := Window.not_valid.mp hvalid
    cases List.mem_singleton.mp hk
    show (s.rejected || (!false && (w.instrAt o).has .invalid)) = true
    rw [hinvalid]
    exact Bool.or_true _

theorem speculates_visitSlot (o : Nat) :
    Speculates w (s.slotReads o) s (s.visitSlot w o) (s.visitSlot w.doubted o) := by
  unfold slotReads visitSlot
  dsimp only
  split
  · refine speculates_nil hs ?_ ?_
    · rw [rejected_pushWithin]
      split <;> rfl
    · rw [seen_pushWithin]
      split <;> rfl
  · have hread := speculates_read hw hs (o + 1)
    have hslot : Speculates w [] (s.read w (o + 1)).2
        (((s.read w (o + 1)).2.delaying (o + 1)).record (o + 1) (w.instrAt (o + 1)))
        (((s.read w (o + 1)).2.delaying (o + 1)).record (o + 1) (w.instrAt (o + 1))) :=
      speculates_nil hread.trusted rfl rfl
    exact hread.unlessRejected
      (f := fun t => (t.delaying (o + 1)).record (o + 1) (w.instrAt (o + 1)))
      (g := fun u => (u.delaying (o + 1)).record (o + 1) (w.instrAt (o + 1))) hslot

omit hw in
theorem speculates_pushSuccessors (o : Nat) (i : Instr) :
    Speculates w [] s (s.pushSuccessors w o i) (s.pushSuccessors w.doubted o i) := by
  refine speculates_nil hs ?_ ?_
  · unfold pushSuccessors
    dsimp only
    split
    · rw [rejected_pushWithin]
      split <;> rfl
    · split <;> rfl
  · unfold pushSuccessors
    dsimp only
    split
    · rw [seen_pushWithin]
      split <;> rfl
    · split <;> rfl

theorem speculates_visitBranch (o : Nat) (i : Instr) :
    Speculates w (s.branchReads w o i) s (s.visitBranch w o i) (s.visitBranch w.doubted o i) := by
  unfold branchReads visitBranch
  change Speculates w _ s _ (if o + 1 < w.size then _ else _)
  split
  · have hslot := speculates_visitSlot hw (s := s.record o i) hs o
    have hbranch := hslot.unlessRejected (f := fun t => t.pushSuccessors w o i)
      (g := fun u => u.pushSuccessors w.doubted o i) (speculates_pushSuccessors hslot.trusted o i)
    rw [List.append_nil] at hbranch
    exact hbranch.of_seen rfl
  · exact speculates_nil hs rfl rfl

theorem speculates_walk (start offset length : Nat) :
    Speculates w (s.walkReads w start offset length) s (s.walk w start offset length)
      (s.walk w.doubted start offset length) := by
  induction hn : w.size - offset generalizing s offset length with
  | zero =>
    have hlt : ¬ offset < w.size := by omega
    rw [walkReads, walk_eq, walk_doubted, if_neg hlt, if_neg hlt, if_neg hlt]
    exact speculates_nil hs rfl rfl
  | succ n ih =>
    have hlt : offset < w.size := by omega
    have hread := speculates_read hw hs offset
    rw [walkReads, walk_eq, walk_doubted, if_pos hlt, if_pos hlt, if_pos hlt]
    split
    · exact speculates_nil hs rfl rfl
    · dsimp only
      by_cases hb : (w.instrAt offset).isBranch = true
      · simp only [if_pos hb]
        exact hread.unlessRejected (f := fun t => t.visitBranch w offset (w.instrAt offset))
          (g := fun u => u.visitBranch w.doubted offset (w.instrAt offset))
          (speculates_visitBranch hw hread.trusted offset _)
      · by_cases hcut : w.blockLimit ≤ length + 1
        · simp only [if_neg hb, if_pos hcut]
          refine hread.unlessRejected
            (f := fun t => (t.record offset (w.instrAt offset)).pushWithin w (offset + 1))
            (g := fun u => (u.record offset (w.instrAt offset)).pushWithin w (offset + 1)) ?_
          exact speculates_nil hread.trusted (rejected_pushWithin _ w _) (seen_pushWithin _ w _)
        · simp only [if_neg hb, if_neg hcut]
          have hrest := ih (s := (s.read w offset).2.record offset (w.instrAt offset)) hread.trusted
            (offset + 1) (length + 1) (by omega)
          exact hread.unlessRejected
            (f := fun t => (t.record offset (w.instrAt offset)).walk w start (offset + 1) (length + 1))
            (g := fun u => (u.record offset (w.instrAt offset)).walk w.doubted start (offset + 1)
              (length + 1)) (hrest.of_seen rfl)

theorem speculates_visit (start : Nat) :
    Speculates w (s.visitReads w start) s (s.visit w start) (s.visit w.doubted start) := by
  unfold visitReads visit
  split
  · dsimp only
    split
    · exact speculates_nil hs (rejected_pushWithin _ w _) (seen_pushWithin _ w _)
    · exact speculates_nil hs rfl rfl
  · exact speculates_walk hw hs start start 0

theorem speculates_drain (fuel : Nat) :
    Speculates w (drainReads w fuel s) s (drain w fuel s) (drain w.doubted fuel s) := by
  induction fuel generalizing s with
  | zero => exact speculates_nil hs rfl rfl
  | succ fuel ih =>
    have hgo : ¬ s.rejected = true := Bool.eq_false_iff.mp hs
    rw [drainReads, drain, drain, if_neg hgo, if_neg hgo]
    cases hp : s.pending with
    | nil => exact speculates_nil hs rfl rfl
    | cons start rest =>
      have hvisit : Speculates w _ s _ _ :=
        (speculates_visit hw (s := { s with pending := rest }) hs start).of_seen rfl
      refine hvisit.bind (g := drain w.doubted fuel) (fun v hv => ?_) (ih hvisit.trusted)
      rw [drain_of_rejected hv]
      exact hv

end Steps

theorem zero_mem_reads (hs : s.Reusable) (hsize : 0 < w.size) : 0 ∈ s.reads w := by
  have hfresh : ((s.restart w.size).push 0).visited.contains 0 = false :=
    OffsetSet.contains_clear hs.visited _ 0
  refine List.mem_append_left _ ?_
  unfold visitReads
  have hstart : (decide (0 ≠ 0) && ((s.restart w.size).push 0).visited.contains 0) = false := rfl
  rw [if_neg (Bool.eq_false_iff.mp hfresh), walkReads, if_pos hsize,
    if_neg (Bool.eq_false_iff.mp hstart)]
  exact List.mem_cons_self

theorem speculates_run (hw : w.trusted = true) (s : Survey) :
    Speculates w (s.reads w) (s.restart w.size) (s.run w) (s.run w.doubted) :=
  (speculates_drain hw (s := (s.restart w.size).push 0) rfl _).of_seen rfl

/-- A doubtful survey finds code unless the trusted one reads a word that is no instruction, or no
word but zero. -/
theorem accepted_run_doubted (hw : w.trusted = true) (s : Survey) :
    (s.run w.doubted).accepted w.doubted = true ↔
      w.Valid (s.reads w) ∧ ∃ o ∈ s.reads w, w.wordAt o ≠ 0 := by
  have hrun := speculates_run hw s
  have hseen : (s.run w).seen = 0 ↔ ∀ o ∈ s.reads w, w.wordAt o = 0 := by
    rw [hrun.seen]
    exact (w.gather_eq_zero _ _).trans (and_iff_right rfl)
  have haccepted : (s.run w.doubted).accepted w.doubted =
      (!(s.run w.doubted).rejected && (s.run w.doubted).seen != 0) := rfl
  rw [haccepted]
  by_cases hvalid : w.Valid (s.reads w)
  · rw [hrun.same hvalid, hrun.trusted, Bool.not_false, Bool.true_and, bne_iff_ne, ne_eq, hseen]
    simp only [hvalid, true_and, not_forall, exists_prop, ne_eq]
  · rw [hrun.rejected hvalid, Bool.not_true, Bool.false_and]
    exact ⟨nofun, fun h => absurd h.1 hvalid⟩

end Survey

namespace Analyzer

/-- A speculative analysis finds nothing exactly if the base is not aligned, or a trusted analysis of the
same code reads a word that is no instruction, or no word but zero; it then leaves the memory as it is.
Otherwise it finds the graph that the trusted analysis finds, and sets the same tags. -/
theorem speculation_agrees {a b : Analyzer} (ha : a.Used) (hb : b.Used) (m : AddressSpace)
    (base : Word) (reach : Reach) :
    let w := window m base reach true
    let read := b.survey.reads w
    let real := b.analyse m base reach true
    let speculative := a.analyse m base reach false
    (speculative.graph = none ↔ Word.any base 3 = true ∨
        (∃ o ∈ read, (w.instrAt o).has .invalid = true) ∨ ∀ o ∈ read, w.wordAt o = 0) ∧
      (speculative.graph = none → speculative.mem = m) ∧
      (speculative.graph ≠ none →
        speculative.graph = real.graph ∧ speculative.mem = real.mem) := by
  intro w read real speculative
  cases halign : Word.any base 3 with
  | true =>
    have hnone : speculative.graph = none ∧ speculative.mem = m := by
      dsimp only [speculative]
      unfold Analyzer.analyse
      rw [if_pos halign]
      exact ⟨rfl, rfl⟩
    exact ⟨iff_of_true hnone.1 (Or.inl rfl), fun _ => hnone.2, fun h => absurd hnone.1 h⟩
  | false =>
    have hsize : 0 < w.size := show 0 < max reach.window 2 by omega
    have hrun := Survey.speculates_run (w := w) rfl b.survey
    -- the storage of `a` does not matter, so both surveys may be taken in that of `b`
    have halike : Survey.Alike w.doubted (a.survey.run w.doubted) (b.survey.run w.doubted) :=
      ha.reusable.alike_run hb.reusable hsize
    have haccepted := Survey.accepted_run_doubted (w := w) rfl b.survey
    have hgraph : speculative.graph = if (a.survey.run w.doubted).accepted w.doubted then
        some ((a.survey.run w.doubted).graph base) else none :=
      (a.analyse_of_aligned m halign reach false).1
    have hmem : speculative.mem = if (a.survey.run w.doubted).accepted w.doubted then
        (a.survey.run w.doubted).tag base m else m :=
      (a.analyse_of_aligned m halign reach false).2
    obtain ⟨hgraph', hmem'⟩ := b.analyse_of_aligned m halign reach true
    rw [halike.accepted] at hgraph hmem
    by_cases hacc : (b.survey.run w.doubted).accepted w.doubted = true
    · obtain ⟨hvalid, o, ho, hword⟩ := haccepted.mp hacc
      rw [if_pos hacc] at hgraph hmem
      rw [halike.graph, hrun.same hvalid] at hgraph
      rw [halike.tag, hrun.same hvalid] at hmem
      refine ⟨iff_of_false ?_ ?_, fun h => ?_, fun _ => ⟨?_, ?_⟩⟩
      · rw [hgraph]
        exact Option.some_ne_none _
      · rintro (h | ⟨k, hk, hinvalid⟩ | hzero)
        · cases h
        · exact Bool.false_ne_true ((hvalid k hk).symm.trans hinvalid)
        · exact hword (hzero o ho)
      · rw [hgraph] at h
        cases h
      · exact hgraph.trans hgraph'.symm
      · exact hmem.trans hmem'.symm
    · rw [if_neg hacc] at hgraph hmem
      refine ⟨iff_of_true hgraph (Or.inr ?_), fun _ => hmem, fun h => absurd hgraph h⟩
      by_contra hnone
      rw [not_or] at hnone
      refine hacc (haccepted.mpr ⟨?_, ?_⟩)
      · exact Classical.byContradiction fun h => hnone.1 (Window.not_valid.mp h)
      · simpa only [not_forall, exists_prop] using hnone.2

end Analyzer

def baitProgram : List Word :=
  [Statement.encode (.beq 0 0 1), 0xFFFFFFFF]

namespace Analyzer

def baited : Analyzer :=
  (({} : Analyzer).analyse (scratchCode baitProgram) scratchBase { window := 16, block := 16 }
    false).analyzer

theorem used_baited : baited.Used :=
  Used.fresh.analyse _ _ _ false

/-- A speculative analysis gives up at the slot of the first branch of `baitProgram`, which a trusted
one walks past.  On the storage that it leaves, a loop is found as on fresh storage. -/
theorem speculation_agrees_after_bait :
    let reach : Reach := { window := 16, block := 16 }
    let bait := scratchCode baitProgram
    let w := window bait scratchBase reach true
    let gaveUp := ({} : Analyzer).analyse bait scratchBase reach false
    let real := ({} : Analyzer).analyse bait scratchBase reach true
    let loop := scratchCode countdownProgram
    (gaveUp.graph = none ∧ gaveUp.mem = bait ∧ real.graph ≠ none ∧
        ∃ o ∈ ({} : Survey).reads w, (w.instrAt o).has .invalid = true) ∧
      (baited.analyse loop scratchBase reach false).graph = some (scratchGraph countdownProgram) ∧
      (baited.analyse loop scratchBase reach false).mem =
        (({} : Analyzer).analyse loop scratchBase reach true).mem := by
  intro reach bait w gaveUp real loop
  obtain ⟨hnone, hmem, -⟩ := speculation_agrees Used.fresh Used.fresh bait scratchBase reach
  have hgaveUp : gaveUp.graph = none := by decide +kernel
  have hbait : ∃ o ∈ ({} : Survey).reads w, (w.instrAt o).has .invalid = true := by
    rcases hnone.mp hgaveUp with halign | hinvalid | hzero
    · exact absurd halign (by decide)
    · exact hinvalid
    · have hbase := Survey.zero_mem_reads Used.fresh.reusable (w := w) (by decide)
      exact absurd (hzero 0 hbase) (by decide +kernel)
  obtain ⟨-, -, hsame⟩ := speculation_agrees used_baited Used.fresh loop scratchBase reach
  obtain ⟨hgraph, hloop⟩ := hsame (by decide +kernel)
  exact ⟨⟨hgaveUp, hmem hgaveUp, by decide +kernel, hbait⟩,
    hgraph.trans (analyse_scratchCode countdownProgram), hloop⟩

end Analyzer

end R3000
