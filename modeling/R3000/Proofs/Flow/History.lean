import R3000.Proofs.Flow.Soundness

/-!
# Analyses do not remember

The storage of a survey is reused: it grows, its stamps stay behind and an analysis that gives up
leaves it half filled.  `Survey.Alike` relates two surveys of one window in different storages.
Every move of a survey reads sets and instructions only where the two agree, so the whole survey,
the graph and the tags are the same (`Survey.Reusable.alike_run`).
-/

namespace R3000

/-! ## One set in two storages -/

namespace OffsetSet

/-- Two storages hold the same set and have room for the offsets below `n`. -/
structure Same (n : Nat) (s t : OffsetSet) : Prop where
  left : s.Spans n
  right : t.Spans n
  contains : ∀ i, s.contains i = t.contains i

theorem Same.insert {n i : Nat} {s t : OffsetSet} (h : Same n s t) (hi : i < n) :
    Same n (s.insert i) (t.insert i) := by
  refine ⟨h.left.insert i, h.right.insert i, fun j => ?_⟩
  rw [contains_insert h.left hi, contains_insert h.right hi, h.contains]

theorem same_clear {s t : OffsetSet} (hs : s.WellFormed) (ht : t.WellFormed) (n : Nat) :
    Same n (s.clear n) (t.clear n) := by
  refine ⟨spans_clear hs n, spans_clear ht n, fun i => ?_⟩
  rw [contains_clear hs, contains_clear ht]

end OffsetSet

/-! ## What a graph reads of the instructions -/

namespace Linker

theorem connect_congr (l : Linker) {b : Block} {f g : Nat → Instr}
    (h : ∀ br, b.branch = some br → f br = g br) : l.connect b f = l.connect b g := by
  unfold connect
  cases hb : b.branch with
  | none => rfl
  | some br =>
    dsimp only
    rw [h br hb]

theorem connectAll_congr (l : Linker) {blocks : List Block} {f g : Nat → Instr}
    (h : ∀ b ∈ blocks, ∀ br, b.branch = some br → f br = g br) :
    l.connectAll f blocks = l.connectAll g blocks := by
  refine List.foldl_ext _ _ _ fun acc b hb => ?_
  dsimp only
  rw [acc.2.connect_congr (h b hb)]

theorem loopHead?_congr (l : Linker) {b : Block} {f g : Nat → Instr}
    (h : ∀ br, b.branch = some br → f br = g br) : l.loopHead? b f = l.loopHead? b g := by
  unfold loopHead?
  cases hb : b.branch with
  | none => rfl
  | some br =>
    dsimp only [Option.bind_eq_bind, Option.bind_some]
    rw [h br hb]

end Linker

/-! ## One survey in two storages -/

namespace Survey

/-- Two surveys of a window have found the same, each in its own storage. -/
structure Alike (w : Window) (s t : Survey) : Prop where
  visited : s.visited.Same w.size t.visited
  starts : s.starts.Same w.size t.starts
  delay : s.delay.Same w.size t.delay
  excluded : s.excluded.Same w.size t.excluded
  left : w.size ≤ s.instrs.size
  right : w.size ≤ t.instrs.size
  instr : ∀ {o}, s.visited.contains o = true → s.instr o = t.instr o
  pending : s.pending = t.pending
  within : ∀ o ∈ s.pending, o < w.size
  span : s.span = t.span
  seen : s.seen = t.seen
  rejected : s.rejected = t.rejected

theorem walk_eq (s : Survey) (w : Window) (start offset length : Nat) :
    s.walk w start offset length =
      if offset < w.size then
        if offset ≠ start && s.visited.contains offset then s.markStart offset
        else if (s.read w offset).2.rejected then (s.read w offset).2
        else if (w.instrAt offset).isBranch then
          (s.read w offset).2.visitBranch w offset (w.instrAt offset)
        else if w.blockLimit ≤ length + 1 then
          ((s.read w offset).2.record offset (w.instrAt offset)).pushWithin w (offset + 1)
        else
          ((s.read w offset).2.record offset (w.instrAt offset)).walk w start (offset + 1)
            (length + 1)
      else s := by
  rw [walk]
  rfl

theorem graph_eq (s : Survey) (base : Word) :
    s.graph base =
      { base
        limit := base + 4 * UInt32.ofNat s.span
        blocks := ((s.linker base).connectAll s.instr (s.cut base)).1 ++
          ((s.linker base).connectAll s.instr (s.cut base)).2.wrappers.map (s.linker base).wrapper
        instrs := ((List.range s.span).map fun o =>
          if s.visited.contains o then s.instr o else Instr.nop).toArray
        loopHeads := ascending ((s.cut base).filterMap ((s.linker base).loopHead? · s.instr))
        uninterruptible :=
          acknowledgesInterrupts (Vector.replicate 32 none) (s.visitedOffsets.map s.instr)
        instrCount := (s.cut base).foldl (fun total b => total + b.size) 0
        index := indexOf (s.cut base) s.span } := by
  unfold graph
  rw [s.blocksFrom_zero base]
  rfl

namespace Alike

variable {w : Window} {s t : Survey} {o : Nat}

theorem markStart (h : Alike w s t) (ho : o < w.size) : Alike w (s.markStart o) (t.markStart o) :=
  { h with starts := h.starts.insert ho }

theorem push (h : Alike w s t) (ho : o < w.size) : Alike w (s.push o) (t.push o) :=
  { h with
    starts := h.starts.insert ho
    pending := congrArg (o :: ·) h.pending
    within := List.forall_mem_cons.mpr ⟨ho, h.within⟩ }

theorem pushWithin (h : Alike w s t) (o : Nat) : Alike w (s.pushWithin w o) (t.pushWithin w o) := by
  unfold Survey.pushWithin
  split
  next ho => exact h.push ho
  next => exact h

theorem excluding (h : Alike w s t) (ho : o < w.size) : Alike w (s.excluding o) (t.excluding o) :=
  { h with excluded := h.excluded.insert ho }

theorem delaying (h : Alike w s t) (ho : o < w.size) : Alike w (s.delaying o) (t.delaying o) :=
  { h with delay := h.delay.insert ho }

theorem popped (h : Alike w s t) {start : Nat} {rest : List Nat} (hp : s.pending = start :: rest) :
    Alike w { s with pending := rest } { t with pending := rest } :=
  { h with
    pending := rfl
    within := fun k hk => h.within k (hp ▸ List.mem_cons_of_mem start hk) }

theorem read (h : Alike w s t) (o : Nat) : Alike w (s.read w o).2 (t.read w o).2 :=
  { h with
    seen := congrArg (· ||| w.fetch (w.address o)) h.seen
    rejected := congrArg (· || (!w.trusted && (w.instrAt o).has .invalid)) h.rejected }

theorem record (h : Alike w s t) (ho : o < w.size) (i : Instr) :
    Alike w (s.record o i) (t.record o i) := by
  refine { h with
    visited := h.visited.insert ho
    left := Nat.le_trans h.left (Nat.le_of_eq Array.size_setIfInBounds.symm)
    right := Nat.le_trans h.right (Nat.le_of_eq Array.size_setIfInBounds.symm)
    instr := fun {k} hk => ?_
    span := congrArg (max · (o + 1)) h.span }
  -- stale instructions may differ, but only `o` is newly visited and both have it now
  have hk' : (s.visited.insert o).contains k = true := hk
  rw [OffsetSet.contains_insert h.visited.left ho, Bool.or_eq_true, beq_iff_eq] at hk'
  rw [s.instr_recorded (Nat.lt_of_lt_of_le ho h.left),
    t.instr_recorded (Nat.lt_of_lt_of_le ho h.right)]
  split
  · rfl
  next hne => exact h.instr (hk'.resolve_right hne)

/-! ## Moves of a survey -/

theorem visitSlot (h : Alike w s t) (ho : o + 1 < w.size) :
    Alike w (s.visitSlot w o) (t.visitSlot w o) := by
  unfold Survey.visitSlot
  simp only [h.visited.contains, h.starts.contains]
  have hlt : o < w.size := Nat.lt_of_succ_lt ho
  split
  · have hslot := (h.excluding hlt).delaying ho
    by_cases hfresh : (!t.visited.contains (o + 1)) = true
    · rw [if_pos hfresh, if_pos hfresh]
      exact ((hslot.push ho).markStart ho).pushWithin _
    · rw [if_neg hfresh, if_neg hfresh]
      exact (hslot.markStart ho).pushWithin _
  · have hread := h.read (o + 1)
    change Alike w
      (if (s.read w (o + 1)).2.rejected then (s.read w (o + 1)).2
        else ((s.read w (o + 1)).2.delaying (o + 1)).record (o + 1) (w.instrAt (o + 1)))
      (if (t.read w (o + 1)).2.rejected then (t.read w (o + 1)).2
        else ((t.read w (o + 1)).2.delaying (o + 1)).record (o + 1) (w.instrAt (o + 1)))
    rw [hread.rejected]
    split
    · exact hread
    · exact (hread.delaying ho).record ho _

theorem pushSuccessors (h : Alike w s t) (o : Nat) (i : Instr) :
    Alike w (s.pushSuccessors w o i) (t.pushSuccessors w o i) := by
  unfold Survey.pushSuccessors
  cases htarget : (i.staticTarget (w.address o)).bind (windowOffset w.base · w.size) with
  | none =>
    dsimp only
    split
    · exact h.pushWithin _
    · exact h
  | some target =>
    obtain ⟨a, -, ha⟩ := Option.bind_eq_some_iff.mp htarget
    have hpush := h.push (lt_of_windowOffset ha)
    dsimp only
    split
    · exact hpush.pushWithin _
    · exact hpush

theorem visitBranch (h : Alike w s t) (o : Nat) (i : Instr) :
    Alike w (s.visitBranch w o i) (t.visitBranch w o i) := by
  unfold Survey.visitBranch
  split
  next ho =>
    have hslot := (h.record (Nat.lt_of_succ_lt ho) i).visitSlot ho
    dsimp only
    rw [hslot.rejected]
    split
    · exact hslot
    · exact hslot.pushSuccessors o i
  next => exact h

theorem walk (h : Alike w s t) (start offset length : Nat) :
    Alike w (s.walk w start offset length) (t.walk w start offset length) := by
  induction hn : w.size - offset generalizing s t offset length with
  | zero =>
    have hlt : ¬offset < w.size := by omega
    rw [s.walk_eq, t.walk_eq, if_neg hlt, if_neg hlt]
    exact h
  | succ n ih =>
    have hlt : offset < w.size := by omega
    have hread := h.read offset
    have hrecord := hread.record hlt (w.instrAt offset)
    rw [s.walk_eq, t.walk_eq, if_pos hlt, if_pos hlt, h.visited.contains, hread.rejected]
    split
    · exact h.markStart hlt
    · split
      · exact hread
      · split
        · exact hread.visitBranch offset _
        · split
          · exact hrecord.pushWithin _
          · exact ih hrecord _ _ (by omega)

theorem visit (h : Alike w s t) {start : Nat} (hlt : start < w.size) :
    Alike w (s.visit w start) (t.visit w start) := by
  have hmark := h.markStart hlt
  unfold Survey.visit
  rw [h.visited.contains]
  split
  · dsimp only
    rw [hmark.delay.contains, hmark.excluded.contains]
    split
    · exact (hmark.excluding (o := start - 1) (by omega)).pushWithin _
    · exact hmark
  · exact h.walk start start 0

theorem drain (h : Alike w s t) (fuel : Nat) : Alike w (drain w fuel s) (drain w fuel t) := by
  induction fuel generalizing s t with
  | zero => exact h
  | succ fuel ih =>
    unfold Survey.drain
    by_cases hrejected : s.rejected = true
    · rw [if_pos hrejected, if_pos (h.rejected ▸ hrejected)]
      exact h
    · rw [if_neg hrejected, if_neg (h.rejected ▸ hrejected)]
      cases hp : s.pending with
      | nil =>
        rw [← h.pending, hp]
        exact h
      | cons start rest =>
        rw [← h.pending, hp]
        exact ih ((h.popped hp).visit (h.within start (hp ▸ List.mem_cons_self)))

/-! ## The graph of a survey -/

theorem extent (h : Alike w s t) {first offset : Nat} (hv : s.visited.contains offset = true) :
    s.extent first offset = t.extent first offset := by
  fun_induction Survey.extent s first offset with
  | case1 offset hbranch slotIncluded =>
    rw [h.instr hv, h.delay.contains] at hbranch
    rw [Survey.extent.eq_def t, if_pos hbranch]
    simp only [slotIncluded, h.excluded.contains, h.span, h.visited.contains]
  | case2 offset hbranch hnext ih =>
    obtain ⟨⟨-, hnextv⟩, -⟩ : (_ ∧ s.visited.contains (offset + 1) = true) ∧ _ := by
      simpa using hnext
    rw [h.instr hv, h.delay.contains] at hbranch
    rw [h.span, h.visited.contains, h.starts.contains] at hnext
    rw [Survey.extent.eq_def t, if_neg hbranch, if_pos hnext]
    exact ih hnextv
  | case3 offset hbranch hnext =>
    rw [h.instr hv, h.delay.contains] at hbranch
    rw [h.span, h.visited.contains, h.starts.contains] at hnext
    rw [Survey.extent.eq_def t, if_neg hbranch, if_neg hnext]

theorem cutOffsets (h : Alike w s t) (offset : Nat) :
    s.cutOffsets offset = t.cutOffsets offset := by
  fun_induction Survey.cutOffsets s offset with
  | case1 offset hlt hv ih =>
    rw [Survey.cutOffsets.eq_def t, if_pos (h.span ▸ hlt), if_pos (h.visited.contains _ ▸ hv), ih,
      h.extent hv]
  | case2 offset hlt hv ih =>
    rw [Survey.cutOffsets.eq_def t, if_pos (h.span ▸ hlt), if_neg (h.visited.contains _ ▸ hv), ih]
  | case3 offset hlt => rw [Survey.cutOffsets.eq_def t, if_neg (h.span ▸ hlt)]

theorem cut (h : Alike w s t) (base : Word) : s.cut base = t.cut base := by
  unfold Survey.cut
  rw [← h.cutOffsets]
  refine List.map_congr_left fun o ho => ?_
  unfold Survey.cutBlock
  rw [h.extent (mem_cutOffsets ho).2.2]

theorem linker (h : Alike w s t) (base : Word) : s.linker base = t.linker base := by
  unfold Survey.linker
  rw [h.cut, h.span]

theorem instr_branch (h : Alike w s t) {base : Word} {b : Block} (hb : b ∈ s.cut base) {br : Nat}
    (hbr : b.branch = some br) : s.instr br = t.instr br := by
  obtain ⟨o, ho, rfl⟩ := List.mem_map.mp hb
  obtain ⟨hle, hstop⟩ := branch_lt_stop hbr
  rcases Nat.lt_or_eq_of_le hle with hlt | rfl
  · exact h.instr ((s.extent_spec o o).visited br hlt hstop)
  · exact h.instr (mem_cutOffsets ho).2.2

theorem visitedOffsets (h : Alike w s t) : s.visitedOffsets = t.visitedOffsets := by
  unfold Survey.visitedOffsets
  rw [h.span]
  exact List.filter_congr fun o _ => h.visited.contains o

theorem graph (h : Alike w s t) (base : Word) : s.graph base = t.graph base := by
  have hconnect : (s.linker base).connectAll s.instr (s.cut base) =
      (t.linker base).connectAll t.instr (t.cut base) := by
    rw [← h.linker, ← h.cut]
    exact Linker.connectAll_congr _ fun b hb br hbr => h.instr_branch hb hbr
  have hheads : (s.cut base).filterMap ((s.linker base).loopHead? · s.instr) =
      (t.cut base).filterMap ((t.linker base).loopHead? · t.instr) := by
    rw [← h.linker, ← h.cut]
    exact List.filterMap_congr fun b hb =>
      Linker.loopHead?_congr _ fun br hbr => h.instr_branch hb hbr
  have hinstrs : ((List.range s.span).map fun o =>
        if s.visited.contains o then s.instr o else Instr.nop) =
      (List.range t.span).map fun o =>
        if t.visited.contains o then t.instr o else Instr.nop := by
    rw [h.span]
    refine List.map_congr_left fun o _ => ?_
    rw [← h.visited.contains]
    exact ite_congr rfl h.instr fun _ => rfl
  have hvisited : s.visitedOffsets.map s.instr = t.visitedOffsets.map t.instr := by
    rw [← h.visitedOffsets]
    exact List.map_congr_left fun o ho => h.instr (List.mem_filter.mp ho).2
  rw [s.graph_eq, t.graph_eq, hconnect, hheads, hinstrs, hvisited, h.linker, h.cut, h.span]

theorem tag (h : Alike w s t) (base : Word) (m : AddressSpace) : s.tag base m = t.tag base m := by
  unfold Survey.tag
  simp only [h.visitedOffsets, h.delay.contains]

theorem accepted (h : Alike w s t) : s.accepted w = t.accepted w := by
  unfold Survey.accepted
  rw [h.rejected, h.seen]

end Alike

/-! ## From any storage -/

theorem alike_restart {s t : Survey} (hs : s.Reusable) (ht : t.Reusable) (w : Window) :
    Alike w (s.restart w.size) (t.restart w.size) where
  visited := OffsetSet.same_clear hs.visited ht.visited _
  starts := OffsetSet.same_clear hs.starts ht.starts _
  delay := OffsetSet.same_clear hs.delay ht.delay _
  excluded := OffsetSet.same_clear hs.excluded ht.excluded _
  left := (coherent_restart hs w).room_instrs
  right := (coherent_restart ht w).room_instrs
  instr := fun {o} hv => absurd hv
    (Bool.eq_false_iff.mp (OffsetSet.contains_clear hs.visited w.size o))
  pending := rfl
  within := nofun
  span := rfl
  seen := rfl
  rejected := rfl

theorem Reusable.alike_run {s t : Survey} (hs : s.Reusable) (ht : t.Reusable) {w : Window}
    (hsize : 0 < w.size) : Alike w (s.run w) (t.run w) :=
  ((alike_restart hs ht w).push hsize).drain _

theorem drain_of_rejected {s : Survey} (h : s.rejected = true) (w : Window) (fuel : Nat) :
    drain w fuel s = s := by
  cases fuel with
  | zero => rfl
  | succ fuel => rw [drain, if_pos h]

theorem Reusable.visited_run {s : Survey} (hs : s.Reusable) {w : Window} (hsize : 0 < w.size)
    (htrusted : w.trusted = false) (hinvalid : (w.instrAt 0).has .invalid = true) :
    (s.run w).visited = s.visited.clear w.size := by
  let start : Survey := { (s.restart w.size).push 0 with pending := [] }
  have hfresh : start.visited.contains 0 = false := OffsetSet.contains_clear hs.visited _ 0
  have hrejected : (start.read w 0).2.rejected = true := by
    show (false || (!w.trusted && (w.instrAt 0).has .invalid)) = true
    rw [htrusted, hinvalid]
    rfl
  have hvisit : start.visit w 0 = (start.read w 0).2 := by
    rw [visit, if_neg (Bool.eq_false_iff.mp hfresh), walk_eq, if_pos hsize, if_neg,
      if_pos hrejected]
    exact fun h => (of_decide_eq_true (Bool.and_eq_true_iff.mp h).1) rfl
  have hrun : s.run w = drain w (6 * w.size) (start.visit w 0) := rfl
  rw [hrun, hvisit, drain_of_rejected hrejected]
  rfl

end Survey

namespace Analyzer

/-- An analysis gives what it gives on a fresh analyzer, whatever was analysed before: other
addresses, windows and memories, analyses that found no code, and any number of epochs. -/
theorem analyse_forgets {a : Analyzer} (ha : a.Used) (m : AddressSpace) (base : Word)
    (reach : Reach) (trusted : Bool) :
    (a.analyse m base reach trusted).graph = (({} : Analyzer).analyse m base reach trusted).graph ∧
      (a.analyse m base reach trusted).mem =
        (({} : Analyzer).analyse m base reach trusted).mem := by
  have hrun : Survey.Alike (window m base reach trusted)
      (a.survey.run (window m base reach trusted))
      (({} : Analyzer).survey.run (window m base reach trusted)) :=
    ha.reusable.alike_run Used.fresh.reusable (show 0 < max reach.window 2 by omega)
  unfold Analyzer.analyse
  dsimp only
  split
  · exact ⟨rfl, rfl⟩
  · rw [hrun.accepted, hrun.graph, hrun.tag]
    split
    · exact ⟨rfl, rfl⟩
    · exact ⟨rfl, rfl⟩

def barren : AddressSpace :=
  scratchCode [0xFFFFFFFF]

/-- Fruitless analyses use up one epoch each. -/
theorem exists_used_epoch (n : Nat) (hn : n ≤ OffsetSet.lastEpoch.toNat) :
    ∃ a : Analyzer, a.Used ∧ a.survey.visited.epoch.toNat = n := by
  induction n with
  | zero => exact ⟨{}, .fresh, rfl⟩
  | succ n ih =>
    obtain ⟨a, ha, hepoch⟩ := ih (Nat.le_of_succ_le hn)
    let reach : Reach := { window := 2, block := 1 }
    have hvisited := ha.reusable.visited_run (w := window barren scratchBase reach false)
      (by decide) rfl (by decide +kernel)
    have hsurvey : (a.analyse barren scratchBase reach false).analyzer.survey =
        a.survey.run (window barren scratchBase reach false) :=
      a.survey_analyse barren (by decide) reach false
    have hne : a.survey.visited.epoch ≠ OffsetSet.lastEpoch := by
      intro he
      rw [he] at hepoch
      omega
    refine ⟨_, ha.analyse barren scratchBase reach false, ?_⟩
    rw [hsurvey, hvisited, OffsetSet.clear, if_neg hne]
    exact (OffsetSet.toNat_epoch_succ hne).trans (congrArg (· + 1) hepoch)

/-- After an analysis that found no code, and in the last epoch before the stamps are wiped. -/
theorem analyse_forgets_failure_and_wrap :
    let reach : Reach := { window := 16, block := 16 }
    let failed := ({} : Analyzer).analyse barren scratchBase reach false
    failed.graph = none ∧
      (failed.analyzer.analyse (scratchCode countdownProgram) scratchBase reach true).graph =
        some (scratchGraph countdownProgram) ∧
      ∃ a : Analyzer, a.survey.visited.epoch = OffsetSet.lastEpoch ∧
        (a.analyse (scratchCode countdownProgram) scratchBase reach true).graph =
          some (scratchGraph countdownProgram) := by
  intro reach failed
  have hfresh := analyse_scratchCode countdownProgram
  obtain ⟨a, ha, hepoch⟩ := exists_used_epoch OffsetSet.lastEpoch.toNat (Nat.le_refl _)
  refine ⟨by decide +kernel, ?_, a, UInt32.toNat_inj.mp hepoch, ?_⟩
  · rw [(analyse_forgets (Used.fresh.analyse barren scratchBase reach false) _ _ _ _).1]
    exact hfresh
  · rw [(analyse_forgets ha _ _ _ _).1]
    exact hfresh

end Analyzer

end R3000
