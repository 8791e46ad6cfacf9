import R3000.Proofs.Flow.Soundness

/-!
# Where delay slots go

The slot of a branch is code of the graph if the survey visits it: it is then the last instruction of
the branch's own block, or the first of another.  Whether it is visited depends on the order in which
starts are popped, so this is not a property of one step.  `Survey.Slotted` says what the steps keep:
a branch was walked exactly if the offset after it is noted as a slot, two branches in a row that were
both walked are in different blocks, and what follows a slot with a block of its own is a start.

The slots that remain out are those of `Window.CutsOff`: two corners at the end of the window, and
the last of four branches in a row.
-/

namespace R3000

namespace Survey

/-- How a survey deals with slots, save for those of the branches laid `bare`. -/
structure Slotted (s : Survey) (w : Window) (bare : List Nat) : Prop where
  room_visited : s.visited.Spans w.size
  room_starts : s.starts.Spans w.size
  room_delay : s.delay.Spans w.size
  room_excluded : s.excluded.Spans w.size
  after : ∀ {o}, s.delay.contains (o + 1) = true → s.visited.contains o = true
  split : ∀ {o}, s.excluded.contains o = true → o + 2 < w.size → s.starts.contains (o + 2) = true
  walked : ∀ {o}, s.visited.contains o = true → (w.instrAt o).isBranch = true →
    o ∈ bare ∨ s.delay.contains o = true ∨ s.delay.contains (o + 1) = true
  own : ∀ {o}, s.delay.contains (o + 1) = true →
    s.visited.contains (o + 1) = true ∨ s.excluded.contains o = true
  apart : ∀ {o}, s.delay.contains (o + 1) = true → s.delay.contains (o + 2) = true →
    s.excluded.contains o = true

namespace Slotted

variable {s : Survey} {w : Window} {bare : List Nat}

theorem read (h : s.Slotted w bare) (o : Nat) : (s.read w o).2.Slotted w bare :=
  { h with }

theorem popped (h : s.Slotted w bare) (rest : List Nat) :
    { s with pending := rest }.Slotted w bare :=
  { h with }

theorem markStart (h : s.Slotted w bare) (o : Nat) : (s.markStart o).Slotted w bare :=
  { h with
    room_starts := h.room_starts.insert o
    split := fun hx hlt => OffsetSet.contains_insert_of_contains (h.split hx hlt) }

theorem push (h : s.Slotted w bare) (o : Nat) : (s.push o).Slotted w bare :=
  { h.markStart o with }

theorem pushWithin (h : s.Slotted w bare) (o : Nat) : (s.pushWithin w o).Slotted w bare := by
  unfold Survey.pushWithin
  split
  · exact h.push o
  · exact h

theorem record (h : s.Slotted w bare) {o : Nat} (ho : o < w.size) (i : Instr) :
    (s.record o i).Slotted w (o :: bare) := by
  refine { h with
    room_visited := h.room_visited.insert o
    after := fun hd => OffsetSet.contains_insert_of_contains (h.after hd)
    walked := fun {k} hv hb => ?_
    own := fun hd => (h.own hd).imp_left OffsetSet.contains_insert_of_contains }
  have hv' : (s.visited.insert o).contains k = true := hv
  rw [OffsetSet.contains_insert h.room_visited ho, Bool.or_eq_true, beq_iff_eq] at hv'
  rcases hv' with hv' | rfl
  · exact (h.walked hv' hb).imp_left (List.mem_cons_of_mem o)
  · exact Or.inl List.mem_cons_self

theorem excluding (h : s.Slotted w bare) {o : Nat} (ho : o < w.size)
    (hstart : o + 2 < w.size → s.starts.contains (o + 2) = true) :
    (s.excluding o).Slotted w bare := by
  refine { h with
    room_excluded := h.room_excluded.insert o
    split := fun {k} hx hlt => ?_
    own := fun hd => (h.own hd).imp_right OffsetSet.contains_insert_of_contains
    apart := fun hd hd' => OffsetSet.contains_insert_of_contains (h.apart hd hd') }
  have hx' : (s.excluded.insert o).contains k = true := hx
  rw [OffsetSet.contains_insert h.room_excluded ho, Bool.or_eq_true, beq_iff_eq] at hx'
  rcases hx' with hx' | rfl
  · exact h.split hx' hlt
  · exact hstart hlt

/-- A walked branch notes its slot.  The branch before it was not walked, or has the branch in a
block of its own. -/
theorem noting (h : s.Slotted w bare) {o : Nat} (ho : o + 1 < w.size)
    (hbare : ∀ k ∈ bare, k = o ∨ k = o + 1) (hv : s.visited.contains o = true)
    (hprev : ∀ k, o = k + 1 → s.delay.contains o = true → s.excluded.contains k = true)
    (hslot : s.excluded.contains o = true ∨
      s.visited.contains (o + 1) = true ∧ s.delay.contains (o + 2) = false) :
    (s.delaying (o + 1)).Slotted w [] := by
  have hdelay : ∀ k, (s.delaying (o + 1)).delay.contains k =
      (s.delay.contains k || k == o + 1) := OffsetSet.contains_insert h.room_delay ho
  have hcases : ∀ {k}, (s.delaying (o + 1)).delay.contains k = true →
      s.delay.contains k = true ∨ k = o + 1 := by
    intro k hk
    rw [hdelay, Bool.or_eq_true, beq_iff_eq] at hk
    exact hk
  have hnew : (s.delaying (o + 1)).delay.contains (o + 1) = true := by
    rw [hdelay, beq_self_eq_true, Bool.or_true]
  have hkeeps : ∀ {k}, s.delay.contains k = true →
      (s.delaying (o + 1)).delay.contains k = true := OffsetSet.contains_insert_of_contains
  refine { h with
    room_delay := h.room_delay.insert (o + 1)
    after := ?after
    walked := ?walked
    own := ?own
    apart := ?apart }
  case after =>
    intro k hk
    rcases hcases hk with hk | hk
    · exact h.after hk
    · exact Nat.succ.inj hk ▸ hv
  case walked =>
    intro k hk hb
    rcases h.walked hk hb with hmem | hd | hd
    · rcases hbare k hmem with rfl | rfl
      · exact Or.inr (Or.inr hnew)
      · exact Or.inr (Or.inl hnew)
    · exact Or.inr (Or.inl (hkeeps hd))
    · exact Or.inr (Or.inr (hkeeps hd))
  case own =>
    intro k hk
    rcases hcases hk with hk | hk
    · exact h.own hk
    · cases Nat.succ.inj hk
      exact hslot.elim Or.inr fun hvisited => Or.inl hvisited.1
  case apart =>
    intro k hk hk'
    rcases hcases hk with hk | hk
    · rcases hcases hk' with hk' | hk'
      · exact h.apart hk hk'
      · exact hprev k (Nat.succ.inj hk').symm (Nat.succ.inj hk' ▸ hk)
    · cases Nat.succ.inj hk
      have hold : s.delay.contains (o + 2) = true :=
        (hcases hk').resolve_right (by omega)
      exact hslot.resolve_right fun hfresh => Bool.eq_false_iff.mp hfresh.2 hold

end Slotted

/-! ## Steps -/

variable {s : Survey} {w : Window}

theorem pushWithin_excluding (s : Survey) (w : Window) (o k : Nat) :
    (s.excluding o).pushWithin w k = (s.pushWithin w k).excluding o := by
  unfold pushWithin
  split <;> rfl

theorem pushWithin_delaying (s : Survey) (w : Window) (o k : Nat) :
    (s.delaying o).pushWithin w k = (s.pushWithin w k).delaying o := by
  unfold pushWithin
  split <;> rfl

theorem starts_pushWithin (hroom : s.starts.Spans w.size) {k : Nat} (hk : k < w.size) :
    (s.pushWithin w k).starts.contains k = true := by
  unfold pushWithin
  rw [if_pos hk]
  show (s.starts.insert k).contains k = true
  rw [OffsetSet.contains_insert hroom hk, beq_self_eq_true, Bool.or_true]

theorem slotted_separate {o : Nat} (h : s.Slotted w [o]) (ho : o + 1 < w.size)
    (hv : s.visited.contains o = true)
    (hprev : ∀ k, o = k + 1 → s.delay.contains o = true → s.excluded.contains k = true) :
    (((s.excluding o).delaying (o + 1)).pushWithin w (o + 1 + 1)).Slotted w [] := by
  rw [pushWithin_delaying, pushWithin_excluding]
  have hpush := (h.pushWithin (o + 1 + 1)).excluding (Nat.lt_of_succ_lt ho)
    (starts_pushWithin h.room_starts)
  have hx : ((s.pushWithin w (o + 1 + 1)).excluding o).excluded.contains o = true := by
    show ((s.pushWithin w (o + 1 + 1)).excluded.insert o).contains o = true
    rw [pushWithin_eq, OffsetSet.contains_insert h.room_excluded (Nat.lt_of_succ_lt ho),
      beq_self_eq_true, Bool.or_true]
  refine hpush.noting ho (fun k hk => Or.inl (List.mem_singleton.mp hk)) ?_ ?_ (Or.inl hx)
  · show (s.pushWithin w (o + 1 + 1)).visited.contains o = true
    rw [pushWithin_eq]
    exact hv
  · intro k hk hd
    show ((s.pushWithin w (o + 1 + 1)).excluded.insert o).contains k = true
    have hd' : (s.pushWithin w (o + 1 + 1)).delay.contains o = true := hd
    rw [pushWithin_eq] at hd' ⊢
    exact OffsetSet.contains_insert_of_contains (hprev k hk hd')

theorem slotted_visitSlot {o : Nat} (h : s.Slotted w [o]) (ho : o + 1 < w.size)
    (hv : s.visited.contains o = true)
    (hprev : ∀ k, o = k + 1 → s.delay.contains o = true → s.excluded.contains k = true)
    (hrej : (s.visitSlot w o).rejected = false) : (s.visitSlot w o).Slotted w [] := by
  unfold visitSlot at hrej ⊢
  dsimp only at hrej ⊢
  split
  next =>
    cases s.visited.contains (o + 1) with
    | true => exact slotted_separate (h.markStart (o + 1)) ho hv hprev
    | false => exact slotted_separate ((h.push (o + 1)).markStart (o + 1)) ho hv hprev
  next hnew =>
    obtain ⟨hfresh, -⟩ := Bool.or_eq_false_iff.mp (Bool.eq_false_iff.mpr hnew)
    rw [if_neg hnew] at hrej
    split
    next hread =>
      rw [if_pos hread] at hrej
      exact absurd hread (Bool.eq_false_iff.mp hrej)
    next =>
      -- Nothing after a fresh offset can be a slot of it yet.
      have hunslotted : s.delay.contains (o + 2) = false :=
        Bool.eq_false_iff.mpr fun hd => Bool.eq_false_iff.mp hfresh (h.after hd)
      have hslot : (s.visited.insert (o + 1)).contains (o + 1) = true := by
        rw [OffsetSet.contains_insert h.room_visited ho, beq_self_eq_true, Bool.or_true]
      refine ((h.read (o + 1)).record ho (w.instrAt (o + 1))).noting ho ?_
        (OffsetSet.contains_insert_of_contains hv) hprev (Or.inr ⟨hslot, hunslotted⟩)
      intro k hk
      rcases List.mem_cons.mp hk with rfl | hk
      · exact Or.inr rfl
      · exact Or.inl (List.mem_singleton.mp hk)

theorem slotted_pushSuccessors (h : s.Slotted w []) (o : Nat) (i : Instr) :
    (s.pushSuccessors w o i).Slotted w [] := by
  unfold pushSuccessors
  extract_lets t
  have ht : t.Slotted w [] := by
    dsimp only [t]
    split
    · exact h.push _
    · exact h
  split
  · exact ht.pushWithin _
  · exact ht

theorem slotted_visitBranch {o : Nat} (h : s.Slotted w []) (hfresh : s.visited.contains o = false)
    (hrej : (s.visitBranch w o (w.instrAt o)).rejected = false) :
    (s.visitBranch w o (w.instrAt o)).Slotted w [] := by
  unfold visitBranch at hrej ⊢
  split
  next ho =>
    rw [if_pos ho] at hrej
    dsimp only at hrej ⊢
    have hlt := Nat.lt_of_succ_lt ho
    have hv : (s.visited.insert o).contains o = true := by
      rw [OffsetSet.contains_insert h.room_visited hlt, beq_self_eq_true, Bool.or_true]
    have hprev : ∀ k, o = k + 1 → s.delay.contains o = true → s.excluded.contains k = true := by
      rintro k rfl hd
      exact (h.own hd).resolve_left (Bool.eq_false_iff.mp hfresh)
    split
    next hslot =>
      rw [if_pos hslot] at hrej
      exact absurd hslot (Bool.eq_false_iff.mp hrej)
    next hslot =>
      have hslotted := slotted_visitSlot (h.record hlt (w.instrAt o)) ho hv hprev
        (Bool.eq_false_iff.mpr hslot)
      exact slotted_pushSuccessors hslotted o _
  next => exact h

theorem slotted_record {o : Nat} (h : s.Slotted w []) (ho : o < w.size)
    (hb : (w.instrAt o).isBranch = false) : (s.record o (w.instrAt o)).Slotted w [] := by
  refine { h.record ho (w.instrAt o) with walked := fun {k} hv hbranch => ?_ }
  rcases (h.record ho (w.instrAt o)).walked hv hbranch with hmem | hd
  · rcases List.mem_cons.mp hmem with rfl | hmem
    · exact absurd hbranch (Bool.eq_false_iff.mp hb)
    · exact absurd hmem List.not_mem_nil
  · exact Or.inr hd

theorem slotted_walk {start offset length : Nat} (h : s.Slotted w [])
    (hstart : offset = start → s.visited.contains start = false) (hle : start ≤ offset)
    (hrej : (s.walk w start offset length).rejected = false) :
    (s.walk w start offset length).Slotted w [] := by
  fun_induction walk s w start offset length with
  | case1 s offset length hlt hvis => exact h.markStart offset
  | case2 s offset length hlt hvis i s' hread hrejected =>
    exact absurd hrejected (Bool.eq_false_iff.mp hrej)
  | case3 s offset length hlt hvis i s' hread hrejected hb =>
    cases hread
    have hfresh : s.visited.contains offset = false := by grind
    exact slotted_visitBranch (h.read offset) hfresh hrej
  | case4 s offset length hlt hvis i s' hread hrejected hb =>
    cases hread
    exact (slotted_record (h.read offset) hlt (Bool.eq_false_iff.mpr hb)).pushWithin _
  | case5 s offset length hlt hvis i s' hread hrejected hb visited hcut ih =>
    cases hread
    exact ih (slotted_record (h.read offset) hlt (Bool.eq_false_iff.mpr hb)) (by omega) (by omega)
      hrej
  | case6 s offset length hlt => exact h

theorem slotted_visit {start : Nat} (h : s.Slotted w []) (hlt : start < w.size)
    (hrej : (s.visit w start).rejected = false) : (s.visit w start).Slotted w [] := by
  unfold visit at hrej ⊢
  split
  next hv =>
    dsimp only
    split
    next hsplit =>
      have hpos : 0 < start := by grind
      show (((s.markStart start).excluding (start - 1)).pushWithin w (start + 1)).Slotted w []
      rw [pushWithin_excluding]
      refine ((h.markStart start).pushWithin (start + 1)).excluding (by omega) ?_
      rw [show start - 1 + 2 = start + 1 by omega]
      exact starts_pushWithin (h.markStart start).room_starts
    next => exact h.markStart start
  next hnew =>
    rw [if_neg hnew] at hrej
    exact slotted_walk h (fun _ => Bool.eq_false_iff.mpr hnew) (Nat.le_refl _) hrej

theorem slotted_drain {fuel : Nat} (hl : Leaves w fuel s) (hlimit : 0 < w.blockLimit)
    (h : s.rejected = false → s.Slotted w []) (hrej : (drain w fuel s).rejected = false) :
    (drain w fuel s).Slotted w [] := by
  induction fuel generalizing s with
  | zero => exact h hrej
  | succ fuel ih =>
    unfold drain at hrej ⊢
    split
    next hrejected =>
      rw [if_pos hrejected] at hrej
      exact h hrej
    next hgoing =>
      rw [if_neg hgoing] at hrej
      have hslotted := h (Bool.eq_false_iff.mpr hgoing)
      split
      next => exact hslotted
      next start rest hp =>
        rw [hp] at hrej
        obtain ⟨pace, hc⟩ := hl.coherent
        obtain ⟨hstart, hlt⟩ := hc.pending start (hp ▸ List.mem_cons_self)
        have hvisit := leaves_visit (hc.popped hp) hlimit
          (fun hrejected => (hl.served hrejected).popped hp) hlt hstart
        have hbudget := budget_popped w hp
        have hle := hl.budget_le
        exact ih (hvisit.mono (by omega)) (slotted_visit (hslotted.popped rest) hlt) hrej

theorem slotted_run (h : s.Reusable) (hsize : 0 < w.size) (hlimit : 0 < w.blockLimit)
    (hrej : (s.run w).rejected = false) : (s.run w).Slotted w [] := by
  refine slotted_drain (leaves_start h hsize) hlimit (fun _ => ?_) hrej
  have hexcluded : ∀ {o}, ¬(s.restart w.size).excluded.contains o = true := fun {o} =>
    Bool.eq_false_iff.mp (OffsetSet.contains_clear h.excluded w.size o)
  have hrestart : (s.restart w.size).Slotted w [] :=
    { room_visited := OffsetSet.spans_clear h.visited _
      room_starts := OffsetSet.spans_clear h.starts _
      room_delay := OffsetSet.spans_clear h.delay _
      room_excluded := OffsetSet.spans_clear h.excluded _
      after := fun hd => absurd hd h.not_delay
      split := fun hx => absurd hx hexcluded
      walked := fun hv => absurd hv h.not_visited
      own := fun hd => absurd hd h.not_delay
      apart := fun hd => absurd hd h.not_delay }
  exact hrestart.push 0

/-! ## The slot of a block's branch -/

theorem extent_branch {first offset br : Nat} (h : (s.extent first offset).branch = some br) :
    (s.delay.contains br = true → br = first) ∧
      (s.extent first offset).slotIncluded =
        (!s.excluded.contains br && decide (br + 1 < s.span) && s.visited.contains (br + 1)) := by
  fun_induction extent s first offset with
  | case1 offset hbranch slotIncluded =>
    cases h
    refine ⟨fun hd => ?_, rfl⟩
    rw [hd, Bool.not_true, Bool.false_or, Bool.and_eq_true, beq_iff_eq] at hbranch
    exact hbranch.2
  | case2 offset hgoes hnext ih => exact ih h
  | case3 offset hgoes hnext => cases h

variable {pace : Nat → Nat}

theorem stop_le_of_lt {o o' : Nat} (h : o ∈ s.cutOffsets 0) (h' : o' ∈ s.cutOffsets 0)
    (hlt : o < o') : (s.extent o o).stop ≤ o' := by
  obtain ⟨i, hi⟩ := List.getElem?_of_mem h
  obtain ⟨j, hj⟩ := List.getElem?_of_mem h'
  rcases Nat.lt_trichotomy i j with hij | rfl | hij
  · exact stop_le_offset hi hj hij
  · exact absurd (Option.some.inj (hi.symm.trans hj)) (Nat.ne_of_lt hlt)
  · have hstop := stop_le_offset hj hi hij
    have hpos := s.lt_extent_stop o' o'
    omega

theorem stop_mem_cutOffsets (h : s.Coherent w pace) {o : Nat} (ho : o ∈ s.cutOffsets 0)
    (hv : s.visited.contains (s.extent o o).stop = true) :
    (s.extent o o).stop ∈ s.cutOffsets 0 := by
  obtain ⟨c, hc, hle, hlt⟩ := exists_cutOffset (Nat.zero_le _) (h.lt_span hv) hv
  have hpos := s.lt_extent_stop o o
  rcases Nat.lt_trichotomy c o with hco | rfl | hco
  · have := stop_le_of_lt hc ho hco
    omega
  · omega
  · have := stop_le_of_lt ho hc hco
    exact Nat.le_antisymm hle this ▸ hc

end Survey

namespace FlowGraph

/-- The slot of the branch that ends a block is the last instruction of the block or the first of
another. -/
def SlotPlaced (g : FlowGraph) (b : Block) (branch : Nat) : Prop :=
  b.slotIncluded = true ∧ b.stop = branch + 2 ∨ ∃ c ∈ g.realBlocks, c.offset = branch + 1

end FlowGraph

/-- The branches whose slot may be left out: the window ends before the slot, or with a slot that is
itself a branch, or the branch is the last of four in a row. -/
def Window.CutsOff (w : Window) (branch : Nat) : Prop :=
  branch + 1 = w.size ∨ branch + 2 = w.size ∧ (w.instrAt (branch + 1)).isBranch = true ∨
    ∃ o, branch = o + 3 ∧ ∀ k, o ≤ k → k ≤ branch → (w.instrAt k).isBranch = true

namespace Survey

variable {s : Survey} {w : Window} {pace : Nat → Nat} {base : Word} {id o br : Nat}

theorem slotPlaced_iff (h : s.Coherent w pace) (hid : (s.cutOffsets 0)[id]? = some o)
    (hbr : (s.extent o o).branch = some br) :
    (s.graph base).SlotPlaced ((s.graph base).block id) br ↔
      s.visited.contains (br + 1) = true := by
  have hmem := List.mem_of_getElem? hid
  have hspec := s.extent_spec o o
  obtain ⟨hle, -, hstop⟩ := hspec.branch br hbr
  have hincluded : ((s.graph base).block id).slotIncluded = (s.extent o o).slotIncluded :=
    (connected_block base hid).slotIncluded
  constructor
  · rintro (⟨hslot, -⟩ | ⟨c, hc, hoffset⟩)
    · rw [hincluded] at hslot
      obtain ⟨br', hbr', -, hv⟩ := hspec.slot hslot
      cases hbr.symm.trans hbr'
      exact hv
    · obtain ⟨id', o', hid', rfl⟩ := mem_realBlocks hc
      rw [(connected_block base hid').offset] at hoffset
      have hoffset' : o' = br + 1 := hoffset
      exact hoffset' ▸ (mem_cutOffsets (List.mem_of_getElem? hid')).2.2
  · intro hv
    cases hslot : (s.extent o o).slotIncluded with
    | true =>
      rw [hslot, if_pos rfl] at hstop
      exact Or.inl ⟨hincluded.trans hslot, (stop_block base hid).trans hstop⟩
    | false =>
      rw [hslot, if_neg Bool.false_ne_true] at hstop
      obtain ⟨id', hid'⟩ := List.getElem?_of_mem (stop_mem_cutOffsets h hmem (hstop ▸ hv))
      refine Or.inr ⟨_, block_mem_realBlocks base hid', ?_⟩
      rw [(connected_block base hid').offset]
      exact hstop

/-- A branch that is itself a slot begins its block.  The branch before it then has its slot apart,
or is the slot of a branch that was never walked, which is again a slot. -/
theorem apart_or_fourth (h : s.Coherent w pace) (hslotted : s.Slotted w [])
    (hbr : o ∈ s.cutOffsets 0) (hb : (w.instrAt o).isBranch = true)
    (hd : s.delay.contains o = true) :
    (∃ p, o = p + 1 ∧ s.excluded.contains p = true) ∨
      ∃ p, o = p + 3 ∧ ∀ k, p ≤ k → k ≤ o → (w.instrAt k).isBranch = true := by
  obtain ⟨hpos, hv, hbefore⟩ := h.after_branch hd
  obtain ⟨p, rfl⟩ := Nat.exists_eq_succ_of_ne_zero (Nat.ne_of_gt hpos)
  rw [Nat.succ_sub_one] at hv hbefore
  obtain ⟨-, hspan, hvisited⟩ := mem_cutOffsets hbr
  obtain ⟨c, hc, hle, hlt⟩ := exists_cutOffset (Nat.zero_le p) (h.lt_span hv) hv
  obtain ⟨-, -, hvc⟩ := mem_cutOffsets hc
  have hend : (s.extent c c).stop = p + 1 :=
    Nat.le_antisymm (stop_le_of_lt hc hbr (Nat.lt_succ_of_le hle)) hlt
  rw [← h.instr_eq hv] at hbefore
  rcases h.branch_of_extent (Or.inl rfl) hvc hle hlt hbefore with hbr' | ⟨hslot, q, hbr', rfl⟩
  · refine Or.inl ⟨p, rfl, ?_⟩
    obtain ⟨-, -, hstop⟩ := (s.extent_spec c c).branch p hbr'
    have hapart : (s.extent c c).slotIncluded = false := by
      apply Bool.eq_false_iff.mpr
      intro hslot
      rw [hslot, if_pos rfl] at hstop
      omega
    rw [(extent_branch hbr').2, decide_eq_true hspan, hvisited, Bool.and_true, Bool.and_true,
      Bool.not_eq_false'] at hapart
    exact hapart
  · refine Or.inr ?_
    obtain ⟨q', hq', hnot, -⟩ := (s.extent_spec c c).slot hslot
    cases hbr'.symm.trans hq'
    have hq := (s.extent_spec c c).branch q hbr'
    have hvq : s.visited.contains q = true := by
      rcases Nat.eq_or_lt_of_le hq.1 with heq | hgt
      · exact heq ▸ hvc
      · exact (s.extent_spec c c).visited q hgt (by omega)
    have hbq : (w.instrAt q).isBranch = true := h.instr_eq hvq ▸ hq.2.1
    have hunwalked : ¬s.delay.contains (q + 1) = true := fun hwalked =>
      Bool.eq_false_iff.mp hnot (hslotted.apart hwalked hd)
    have hslotq : s.delay.contains q = true := by
      rcases hslotted.walked hvq hbq with hmem | hdq | hwalked
      · exact absurd hmem List.not_mem_nil
      · exact hdq
      · exact absurd hwalked hunwalked
    obtain ⟨hpos', -, hfirst⟩ := h.after_branch hslotq
    obtain ⟨r, rfl⟩ := Nat.exists_eq_succ_of_ne_zero (Nat.ne_of_gt hpos')
    refine ⟨r, rfl, fun k hk hk' => ?_⟩
    have hcases : k = r ∨ k = r + 1 ∨ k = r + 2 ∨ k = r + 3 := by omega
    rcases hcases with rfl | rfl | rfl | rfl
    · exact hfirst
    · exact hbq
    · exact h.instr_eq hv ▸ hbefore
    · exact hb

theorem cutsOff_of_unvisited (h : s.Coherent w pace) (hserved : s.Served w [] [])
    (hpending : s.pending = []) (hslotted : s.Slotted w [])
    (hid : (s.cutOffsets 0)[id]? = some o) (hbr : (s.extent o o).branch = some br)
    (hv : s.visited.contains (br + 1) = false) : w.CutsOff br := by
  have hmem := List.mem_of_getElem? hid
  obtain ⟨hle, hlt⟩ := branch_lt_stop hbr
  have hvisited := (visited_of_lt_stop hid hle hlt).2
  have hsize := h.lt_size hvisited
  have hb : (w.instrAt br).isBranch = true :=
    h.instr_eq hvisited ▸ ((s.extent_spec o o).branch br hbr).2.1
  have hstart : s.starts.contains (br + 1) = true → w.CutsOff br := by
    intro hstart
    rcases hserved.visited_of_start hpending hstart with hv' | ⟨hbranch, hend⟩
    · exact absurd hv' (Bool.eq_false_iff.mp hv)
    · rcases Nat.eq_or_lt_of_le (Nat.succ_le_of_lt hsize) with heq | hroom
      · exact Or.inl heq
      · exact Or.inr (Or.inl ⟨by omega, hbranch⟩)
  rcases hserved.slots hvisited hb with hbare | hd | hv' | hs
  · exact absurd hbare List.not_mem_nil
  · obtain rfl := (extent_branch hbr).1 hd
    rcases apart_or_fourth h hslotted hmem hb hd with ⟨p, rfl, hx⟩ | ⟨p, rfl, hrow⟩
    · by_cases hroom : p + 2 < w.size
      · exact hstart (hslotted.split hx hroom)
      · exact Or.inl (by omega)
    · exact Or.inr (Or.inr ⟨p, rfl, hrow⟩)
  · exact absurd hv' (Bool.eq_false_iff.mp hv)
  · exact hstart hs

end Survey

namespace Analyzer

/-- Every slot that an analysis visits is placed and holds the word in memory.  A slot that it does
not visit has no place, the graph holds a no-operation for it, and it is one of those that a window
can cut off. -/
theorem slot_placed_or_cut_off {a : Analyzer} (ha : a.Used) {m : AddressSpace} {base : Word}
    {reach : Reach} {trusted : Bool} {g : FlowGraph}
    (hg : (a.analyse m base reach trusted).graph = some g) :
    let w := window m base reach trusted
    let visited := (a.analyse m base reach trusted).analyzer.survey.visitedIn w
    ∀ b ∈ g.realBlocks, ∀ branch, b.branch = some branch →
      branch + 1 ∈ visited ∧ g.SlotPlaced b branch ∧ g.instr (branch + 1) = w.instrAt (branch + 1) ∨
        branch + 1 ∉ visited ∧ ¬g.SlotPlaced b branch ∧ g.instr (branch + 1) = Instr.nop ∧
          w.CutsOff branch := by
  intro w visited b hb branch hbranch
  obtain ⟨-, hsurvey⟩ := ha.complete hg
  obtain ⟨-, rfl⟩ := exists_survey hg
  have hacc := accepted_of_graph hg
  have hsize : 0 < w.size := show 0 < max reach.window 2 by omega
  have hlimit : 0 < w.blockLimit := show 0 < max reach.block 1 by omega
  obtain ⟨⟨pace, hc⟩, hrej, hserved, hpending⟩ :=
    Survey.served_run ha.reusable hsize hlimit hacc
  have hslotted := Survey.slotted_run ha.reusable hsize hlimit hrej
  obtain ⟨id, o, hid, rfl⟩ := Survey.mem_realBlocks hb
  have hbr : ((a.survey.run w).extent o o).branch = some branch :=
    (Survey.connected_block base hid).branch.symm.trans hbranch
  have hplaced : ((a.survey.run w).graph base).SlotPlaced _ branch ↔ _ :=
    Survey.slotPlaced_iff hc hid hbr
  show (branch + 1 ∈ (a.analyse m base reach trusted).analyzer.survey.visitedIn w ∧ _) ∨
    (branch + 1 ∉ (a.analyse m base reach trusted).analyzer.survey.visitedIn w ∧ _)
  rw [hsurvey, hc.mem_visitedIn, hplaced, Survey.instr_graph]
  cases hv : (a.survey.run w).visited.contains (branch + 1) with
  | true =>
    refine Or.inl ⟨rfl, rfl, ?_⟩
    rw [if_pos ⟨hc.lt_span hv, rfl⟩]
    exact hc.instr_eq hv
  | false =>
    refine Or.inr ⟨Bool.false_ne_true, Bool.false_ne_true, ?_, ?_⟩
    · rw [if_neg fun h => Bool.false_ne_true h.2]
    · exact Survey.cutsOff_of_unvisited hc hserved hpending hslotted hid hbr hv

end Analyzer

def sharedSlotProgram : List Word :=
  [Statement.bne 1 0 4, .addiu 2 0 7, .j (scratchBase + 4), .nop].map Statement.encode

/-- Two jumps in a row.  The second is the target of the first branch, so it is a start when the first
jump is walked. -/
def crowdedProgram : List Word :=
  [Statement.beq 0 0 2, .nop, .j 0x1F800100, .j 0x1F800200].map Statement.encode

def crowdedGraph : FlowGraph :=
  (({} : Survey).run (Analyzer.window (scratchCode crowdedProgram) scratchBase
    { window := 4, block := 16 } true)).graph scratchBase

namespace Analyzer

theorem slot_placed_or_cut_off_shared :
    let g := scratchGraph sharedSlotProgram
    let reach : Reach := { window := 16, block := 16 }
    let w := window (scratchCode sharedSlotProgram) scratchBase reach true
    let analysis := ({} : Analyzer).analyse (scratchCode sharedSlotProgram) scratchBase reach true
    analysis.graph = some g ∧ g.block 0 ∈ g.realBlocks ∧ (g.block 0).branch = some 0 ∧
      (g.block 0).slotIncluded = false ∧
      (1 ∈ analysis.analyzer.survey.visitedIn w ∧ g.SlotPlaced (g.block 0) 0 ∧
          g.instr 1 = w.instrAt 1 ∨
        1 ∉ analysis.analyzer.survey.visitedIn w ∧ ¬g.SlotPlaced (g.block 0) 0 ∧
          g.instr 1 = Instr.nop ∧ w.CutsOff 0) :=
  ⟨analyse_scratchCode sharedSlotProgram, by decide +kernel, by decide +kernel, by decide +kernel,
    slot_placed_or_cut_off Used.fresh (analyse_scratchCode sharedSlotProgram) _ (by decide +kernel)
      0 (by decide +kernel)⟩

/-- The first jump of `crowdedProgram` ends a block, but its slot is neither in the block nor in
another, and the graph holds a no-operation where the second jump is in memory. -/
theorem slot_cut_off_at_window_end :
    let reach : Reach := { window := 4, block := 16 }
    let w := window (scratchCode crowdedProgram) scratchBase reach true
    let analysis := ({} : Analyzer).analyse (scratchCode crowdedProgram) scratchBase reach true
    analysis.graph = some crowdedGraph ∧ crowdedGraph.block 1 ∈ crowdedGraph.realBlocks ∧
      (crowdedGraph.block 1).branch = some 2 ∧ (crowdedGraph.block 1).slotIncluded = false ∧
      (∀ c ∈ crowdedGraph.realBlocks, c.offset ≠ 3) ∧ crowdedGraph.instr 3 = Instr.nop ∧
      w.instrAt 3 ≠ Instr.nop := by
  refine ⟨?_, by decide +kernel, by decide +kernel, by decide +kernel, by decide +kernel,
    by decide +kernel, by decide +kernel⟩
  show (Analyzer.analyse {} _ _ _ _).graph = _
  unfold Analyzer.analyse
  rw [if_neg (by decide)]
  rfl

end Analyzer

end R3000
