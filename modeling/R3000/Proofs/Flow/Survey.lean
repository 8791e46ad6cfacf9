import Mathlib.Data.Finset.Card
import Mathlib.Data.Finset.Range
import Mathlib.Logic.Function.Basic
import R3000.Proofs.Flow.Blocks

/-!
# What a survey finds

Everything a survey does is a handful of small changes: an offset is visited, becomes a start, is
queued, or is noted as a delay slot.  `Survey.Coherent` is what all of them keep; its `pace` counts
how far into a walk each visited offset lies, which bounds the length of a block.  `Survey.Served`
says that no start and no slot is forgotten, and `Survey.budget` that the queue empties in time, so a
whole survey that met nothing invalid is complete.
-/

namespace R3000

namespace OffsetSet

variable {n : Nat} {s : OffsetSet}

/-- The set is well formed and holds every offset below `n`. -/
structure Spans (s : OffsetSet) (n : Nat) : Prop where
  wellFormed : s.WellFormed
  le_size : n ≤ s.stamps.size

theorem contains_insert {i : Nat} (h : s.Spans n) (hi : i < n) (j : Nat) :
    (s.insert i).contains j = (s.contains j || j == i) := by
  unfold contains insert
  rw [Array.getElem?_setIfInBounds]
  by_cases hj : i = j
  · subst hj
    have hlt : i < s.stamps.size := Nat.lt_of_lt_of_le hi h.le_size
    simp [hlt]
  · have hne : (j == i) = false := beq_false_of_ne (Ne.symm hj)
    rw [if_neg hj, hne, Bool.or_false]

theorem contains_insert_of_contains {i j : Nat} (h : s.contains j = true) :
    (s.insert i).contains j = true := by
  unfold contains insert at *
  rw [Array.getElem?_setIfInBounds]
  have hlt : j < s.stamps.size := by
    apply Decidable.byContradiction
    intro hge
    rw [Array.getElem?_eq_none (Nat.le_of_not_lt hge)] at h
    exact absurd h Bool.false_ne_true
  split
  · simp_all
  · exact h

theorem Spans.insert (h : s.Spans n) (i : Nat) : (s.insert i).Spans n := by
  refine ⟨?_, Nat.le_trans h.le_size (Nat.le_of_eq Array.size_setIfInBounds.symm)⟩
  intro stamp hstamp
  rcases Array.mem_or_eq_of_mem_setIfInBounds hstamp with hold | rfl
  · exact h.wellFormed stamp hold
  · exact UInt32.le_refl _

theorem mem_grown {stamp : UInt32} (h : stamp ∈ s.stamps ++ Array.replicate (n - s.stamps.size) 0) :
    stamp ∈ s.stamps ∨ stamp = 0 := by
  rcases Array.mem_append.mp h with h | h
  · exact Or.inl h
  · exact Or.inr (Array.eq_of_mem_replicate h)

theorem toNat_epoch_succ {e : UInt32} (h : e ≠ lastEpoch) : (e + 1).toNat = e.toNat + 1 := by
  have hlt := e.toNat_lt
  have hne : e.toNat ≠ 4294967295 := fun hn => h (UInt32.toNat_inj.mp hn)
  have h1 : (1 : UInt32).toNat = 1 := rfl
  rw [UInt32.toNat_add, h1]
  omega

theorem spans_clear (h : s.WellFormed) (n : Nat) : (s.clear n).Spans n := by
  unfold clear
  split
  · refine ⟨?_, ?_⟩
    · intro stamp hstamp
      have hz : stamp = 0 := Array.eq_of_mem_replicate hstamp
      rw [hz]
      exact Nat.zero_le _
    · simp only [Array.size_replicate, Array.size_append]
      omega
  next hlast =>
    refine ⟨?_, ?_⟩
    · intro stamp hstamp
      rw [UInt32.le_iff_toNat_le]
      show stamp.toNat ≤ (s.epoch + 1).toNat
      rw [toNat_epoch_succ hlast]
      rcases mem_grown hstamp with hold | rfl
      · exact Nat.le_succ_of_le (UInt32.le_iff_toNat_le.mp (h stamp hold))
      · exact Nat.zero_le _
    · simp only [Array.size_replicate, Array.size_append]
      omega

theorem contains_clear (h : s.WellFormed) (n i : Nat) : (s.clear n).contains i = false := by
  unfold contains
  rw [beq_eq_false_iff_ne]
  intro hi
  have hmem := Array.mem_of_getElem? hi
  unfold clear at hmem
  split at hmem
  next hlast =>
    have hz : (1 : UInt32) = 0 := Array.eq_of_mem_replicate hmem
    exact absurd hz (by decide)
  next hlast =>
    have hepoch := toNat_epoch_succ hlast
    rcases mem_grown hmem with hold | hz
    · have hle := UInt32.le_iff_toNat_le.mp (h _ hold)
      simp only at hle
      omega
    · simp only at hz
      rw [hz] at hepoch
      exact absurd hepoch (Nat.succ_ne_zero _).symm

def missing (s : OffsetSet) (n : Nat) : Nat :=
  ((Finset.range n).filter fun o => s.contains o = false).card

theorem missing_le (s : OffsetSet) (n : Nat) : s.missing n ≤ n :=
  (Finset.card_filter_le _ _).trans (Nat.le_of_eq (Finset.card_range n))

theorem missing_insert_le (s : OffsetSet) (n i : Nat) : (s.insert i).missing n ≤ s.missing n := by
  refine Finset.card_le_card (Finset.monotone_filter_right _ ?_)
  intro o _ ho
  exact Bool.eq_false_iff.mpr fun ht =>
    Bool.eq_false_iff.mp ho (contains_insert_of_contains ht)

theorem missing_insert {i : Nat} (h : s.Spans n) (hi : i < n) (hfresh : s.contains i = false) :
    (s.insert i).missing n + 1 = s.missing n := by
  have hmem : i ∈ (Finset.range n).filter fun o => s.contains o = false :=
    Finset.mem_filter.mpr ⟨Finset.mem_range.mpr hi, hfresh⟩
  have herase : ((Finset.range n).filter fun o => (s.insert i).contains o = false) =
      ((Finset.range n).filter fun o => s.contains o = false).erase i := by
    ext o
    simp only [Finset.mem_filter, Finset.mem_erase, contains_insert h hi, Bool.or_eq_false_iff,
      beq_eq_false_iff_ne]
    tauto
  unfold missing
  rw [herase]
  exact Finset.card_erase_add_one hmem

end OffsetSet

namespace Window

def instrAt (w : Window) (offset : Nat) : Instr :=
  Instr.decode (w.fetch (w.address offset))

end Window

theorem lt_of_windowOffset {base target : Word} {size o : Nat}
    (h : windowOffset base target size = some o) : o < size := by
  unfold windowOffset at h
  split at h
  next hc =>
    cases h
    exact hc.2.2
  next => cases h

/-! ## The invariant -/

namespace Survey

def excluding (s : Survey) (o : Nat) : Survey :=
  { s with excluded := s.excluded.insert o }

def delaying (s : Survey) (o : Nat) : Survey :=
  { s with delay := s.delay.insert o }

theorem instr_recorded (s : Survey) {o : Nat} (ho : o < s.instrs.size) (i : Instr) (k : Nat) :
    (s.record o i).instr k = if k = o then i else s.instr k := by
  show (s.instrs.setIfInBounds o i).getD k Instr.nop = _
  rw [Array.getD_eq_getD_getElem?, Array.getElem?_setIfInBounds]
  split
  next hk =>
    subst hk
    rw [if_pos rfl]
    rfl
  next hk =>
    rw [if_neg (Ne.symm hk)]
    exact (Array.getD_eq_getD_getElem? ..).symm

/-- What is true of a survey at every moment. -/
structure Coherent (s : Survey) (w : Window) (pace : Nat → Nat) : Prop where
  room_visited : s.visited.Spans w.size
  room_starts : s.starts.Spans w.size
  room_delay : s.delay.Spans w.size
  room_excluded : s.excluded.Spans w.size
  room_instrs : w.size ≤ s.instrs.size
  lt_size : ∀ {o}, s.visited.contains o = true → o < w.size
  lt_span : ∀ {o}, s.visited.contains o = true → o < s.span
  instr_eq : ∀ {o}, s.visited.contains o = true → s.instr o = w.instrAt o
  after_branch : ∀ {o}, s.delay.contains o = true →
    0 < o ∧ s.visited.contains (o - 1) = true ∧ (w.instrAt (o - 1)).isBranch = true
  reached : ∀ {o}, s.visited.contains o = true →
    s.starts.contains o = true ∨ 0 < o ∧ s.visited.contains (o - 1) = true
  pending : ∀ o ∈ s.pending, s.starts.contains o = true ∧ o < w.size
  paced : ∀ {o}, s.visited.contains o = true → pace o < w.blockLimit
  pace_succ : ∀ {o}, s.visited.contains o = true → s.visited.contains (o + 1) = true →
    s.starts.contains (o + 1) = false → (w.instrAt o).isBranch = false →
      pace (o + 1) = pace o + 1
  not_rejected : w.trusted = true → s.rejected = false

namespace Coherent

variable {s : Survey} {w : Window} {pace : Nat → Nat} {o : Nat}

theorem markStart (h : s.Coherent w pace) (o : Nat) : (s.markStart o).Coherent w pace := by
  have hstarts : ∀ {k}, s.starts.contains k = true → (s.starts.insert o).contains k = true :=
    OffsetSet.contains_insert_of_contains
  refine { h with
    room_starts := h.room_starts.insert o
    reached := fun hv => (h.reached hv).imp_left hstarts
    pending := fun k hk => ⟨hstarts (h.pending k hk).1, (h.pending k hk).2⟩
    pace_succ := fun hv hv' hs hb => h.pace_succ hv hv' ?_ hb }
  exact Bool.eq_false_iff.mpr fun ht => Bool.eq_false_iff.mp hs (hstarts ht)

theorem push (h : s.Coherent w pace) (ho : o < w.size) : (s.push o).Coherent w pace := by
  refine { h.markStart o with pending := ?_ }
  intro k hk
  rcases List.mem_cons.mp hk with rfl | hk
  · refine ⟨?_, ho⟩
    show (s.starts.insert k).contains k = true
    rw [OffsetSet.contains_insert h.room_starts ho, beq_self_eq_true, Bool.or_true]
  · exact (h.markStart o).pending k hk

theorem pushWithin (h : s.Coherent w pace) (o : Nat) : (s.pushWithin w o).Coherent w pace := by
  unfold Survey.pushWithin
  split
  next ho => exact h.push ho
  next => exact h

theorem read (h : s.Coherent w pace) (o : Nat) : (s.read w o).2.Coherent w pace := by
  refine { h with not_rejected := fun htrusted => ?_ }
  show (s.rejected || (!w.trusted && _)) = false
  rw [h.not_rejected htrusted, htrusted]
  rfl

theorem popped (h : s.Coherent w pace) {start : Nat} {rest : List Nat}
    (hp : s.pending = start :: rest) : { s with pending := rest }.Coherent w pace :=
  { h with pending := fun k hk => h.pending k (hp ▸ List.mem_cons_of_mem start hk) }

theorem excluding (h : s.Coherent w pace) (o : Nat) : (s.excluding o).Coherent w pace :=
  { h with room_excluded := h.room_excluded.insert o }

theorem delaying (h : s.Coherent w pace) (ho : o + 1 < w.size) (hv : s.visited.contains o = true)
    (hb : (w.instrAt o).isBranch = true) : (s.delaying (o + 1)).Coherent w pace := by
  refine { h with room_delay := h.room_delay.insert (o + 1), after_branch := ?_ }
  intro k hk
  have hk' : (s.delay.insert (o + 1)).contains k = true := hk
  rw [OffsetSet.contains_insert h.room_delay ho, Bool.or_eq_true, beq_iff_eq] at hk'
  rcases hk' with hk' | rfl
  · exact h.after_branch hk'
  · exact ⟨Nat.succ_pos o, hv, hb⟩

theorem instr_record (h : s.Coherent w pace) (ho : o < w.size) (k : Nat) :
    (s.record o (w.instrAt o)).instr k = if k = o then w.instrAt o else s.instr k :=
  s.instr_recorded (Nat.lt_of_lt_of_le ho h.room_instrs) _ k

/-- An offset can be visited as the `n`th of a walk: it is a start, the slot of a visited branch, or
follows an offset of the same walk. -/
def Ahead (s : Survey) (w : Window) (pace : Nat → Nat) (o n : Nat) : Prop :=
  s.starts.contains o = true ∨ ∃ p, o = p + 1 ∧ s.visited.contains p = true ∧
    ((w.instrAt p).isBranch = true ∨ n = pace p + 1)

theorem record (h : s.Coherent w pace) {n : Nat} (ho : o < w.size)
    (hfresh : s.visited.contains o = false) (hn : n < w.blockLimit) (hahead : Ahead s w pace o n) :
    (s.record o (w.instrAt o)).Coherent w (Function.update pace o n) := by
  have hvisited : ∀ k, (s.record o (w.instrAt o)).visited.contains k =
      (s.visited.contains k || k == o) := OffsetSet.contains_insert h.room_visited ho
  have hcases : ∀ {k}, (s.record o (w.instrAt o)).visited.contains k = true →
      s.visited.contains k = true ∨ k = o := by
    intro k hk
    rw [hvisited, Bool.or_eq_true, beq_iff_eq] at hk
    exact hk
  have hkeeps : ∀ {k}, s.visited.contains k = true →
      (s.record o (w.instrAt o)).visited.contains k = true :=
    OffsetSet.contains_insert_of_contains
  have hother : ∀ {k}, s.visited.contains k = true → k ≠ o := by
    rintro k hk rfl
    exact Bool.eq_false_iff.mp hfresh hk
  constructor
  case room_visited => exact h.room_visited.insert o
  case room_starts => exact h.room_starts
  case room_delay => exact h.room_delay
  case room_excluded => exact h.room_excluded
  case room_instrs => exact Nat.le_trans h.room_instrs (Nat.le_of_eq Array.size_setIfInBounds.symm)
  case lt_size =>
    intro k hk
    rcases hcases hk with hk | rfl
    · exact h.lt_size hk
    · exact ho
  case lt_span =>
    intro k hk
    show k < max s.span (o + 1)
    rcases hcases hk with hk | rfl
    · have := h.lt_span hk
      omega
    · omega
  case instr_eq =>
    intro k hk
    rw [h.instr_record ho]
    split
    next hko => rw [hko]
    next hko => exact h.instr_eq ((hcases hk).resolve_right hko)
  case after_branch =>
    intro k hk
    obtain ⟨hpos, hv, hb⟩ := h.after_branch hk
    exact ⟨hpos, hkeeps hv, hb⟩
  case reached =>
    intro k hk
    rcases hcases hk with hk | rfl
    · exact (h.reached hk).imp_right fun hp => ⟨hp.1, hkeeps hp.2⟩
    · refine hahead.imp_right ?_
      rintro ⟨p, rfl, hp, -⟩
      exact ⟨Nat.succ_pos p, hkeeps hp⟩
  case pending => exact h.pending
  case paced =>
    intro k hk
    rcases hcases hk with hk | rfl
    · rw [Function.update_of_ne (hother hk)]
      exact h.paced hk
    · rw [Function.update_self]
      exact hn
  case pace_succ =>
    intro k hk hk' hs hb
    rcases hcases hk with hk | rfl
    · rcases hcases hk' with hk' | rfl
      · rw [Function.update_of_ne (hother hk), Function.update_of_ne (hother hk')]
        exact h.pace_succ hk hk' hs hb
      · rw [Function.update_self, Function.update_of_ne (Nat.ne_of_lt (Nat.lt_succ_self k))]
        rcases hahead with hstart | ⟨p, hp, -, hbranch | hn⟩
        · exact absurd hstart (Bool.eq_false_iff.mp hs)
        · cases Nat.succ.inj hp
          exact absurd hbranch (Bool.eq_false_iff.mp hb)
        · cases Nat.succ.inj hp
          exact hn
    · -- What follows a new offset was not reached from it, so it is a start.
      have hnext : s.visited.contains (k + 1) = true :=
        (hcases hk').resolve_right (Nat.succ_ne_self k)
      rcases h.reached hnext with hstart | ⟨-, hprev⟩
      · exact absurd hstart (Bool.eq_false_iff.mp hs)
      · exact absurd hprev (Bool.eq_false_iff.mp hfresh)
  case not_rejected => exact h.not_rejected

theorem visited_record (h : s.Coherent w pace) (ho : o < w.size) (i : Instr) :
    (s.record o i).visited.contains o = true := by
  show (s.visited.insert o).contains o = true
  rw [OffsetSet.contains_insert h.room_visited ho, beq_self_eq_true, Bool.or_true]

end Coherent

/-! ## Nothing is forgotten -/

/-- Every start is visited, queued or in hand, or is a branch without room for its slot; and the slot
of every branch that is not itself a slot is visited or a start, save for those laid `bare`. -/
structure Served (s : Survey) (w : Window) (hand bare : List Nat) : Prop where
  root : s.starts.contains 0 = true
  starts : ∀ {o}, s.starts.contains o = true → s.visited.contains o = true ∨ o ∈ s.pending ∨
    o ∈ hand ∨ (w.instrAt o).isBranch = true ∧ w.size ≤ o + 1
  slots : ∀ {o}, s.visited.contains o = true → (w.instrAt o).isBranch = true → o ∈ bare ∨
    s.delay.contains o = true ∨ s.visited.contains (o + 1) = true ∨ s.starts.contains (o + 1) = true

namespace Served

variable {s : Survey} {w : Window} {pace : Nat → Nat} {hand bare : List Nat}

theorem read (h : s.Served w hand bare) (o : Nat) : (s.read w o).2.Served w hand bare :=
  { h with }

theorem excluding (h : s.Served w hand bare) (o : Nat) : (s.excluding o).Served w hand bare :=
  { h with }

theorem delaying (h : s.Served w hand bare) (o : Nat) : (s.delaying o).Served w hand bare :=
  { h with slots := fun hv hb =>
      (h.slots hv hb).imp_right (Or.imp_left OffsetSet.contains_insert_of_contains) }

theorem markStart (h : s.Served w hand bare) (hroom : s.starts.Spans w.size) {o : Nat}
    (ho : o < w.size) (hcase : s.visited.contains o = true ∨ o ∈ s.pending) :
    (s.markStart o).Served w hand bare where
  root := OffsetSet.contains_insert_of_contains h.root
  starts {k} hk := by
    have hk' : (s.starts.insert o).contains k = true := hk
    rw [OffsetSet.contains_insert hroom ho, Bool.or_eq_true, beq_iff_eq] at hk'
    rcases hk' with hk' | rfl
    · exact h.starts hk'
    · exact hcase.imp_right Or.inl
  slots hv hb := (h.slots hv hb).imp_right
    (Or.imp_right (Or.imp_right OffsetSet.contains_insert_of_contains))

theorem push (h : s.Served w hand bare) (hroom : s.starts.Spans w.size) {o : Nat}
    (ho : o < w.size) : (s.push o).Served w hand bare := by
  have hqueued : { s with pending := o :: s.pending }.Served w hand bare :=
    { h with starts := fun hk =>
        (h.starts hk).imp_right (Or.imp_left (List.mem_cons_of_mem o)) }
  exact hqueued.markStart hroom ho (Or.inr List.mem_cons_self)

theorem pushWithin (h : s.Served w hand bare) (hroom : s.starts.Spans w.size) (o : Nat) :
    (s.pushWithin w o).Served w hand bare := by
  unfold Survey.pushWithin
  split
  next ho => exact h.push hroom ho
  next => exact h

theorem popped (h : s.Served w hand bare) {start : Nat} {rest : List Nat}
    (hp : s.pending = start :: rest) :
    { s with pending := rest }.Served w (start :: hand) bare := by
  refine { h with starts := fun {k} hk => ?_ }
  rcases h.starts hk with hv | hq | hh | hend
  · exact Or.inl hv
  · rw [hp] at hq
    rcases List.mem_cons.mp hq with rfl | hq
    · exact Or.inr (Or.inr (Or.inl List.mem_cons_self))
    · exact Or.inr (Or.inl hq)
  · exact Or.inr (Or.inr (Or.inl (List.mem_cons_of_mem start hh)))
  · exact Or.inr (Or.inr (Or.inr hend))

theorem putDown (h : s.Served w hand bare) (hhand : ∀ k ∈ hand, s.visited.contains k = true ∨
    (w.instrAt k).isBranch = true ∧ w.size ≤ k + 1) : s.Served w [] bare := by
  refine { h with starts := fun {k} hk => ?_ }
  rcases h.starts hk with hv | hq | hh | hend
  · exact Or.inl hv
  · exact Or.inr (Or.inl hq)
  · exact (hhand k hh).imp_right fun hend => Or.inr (Or.inr hend)
  · exact Or.inr (Or.inr (Or.inr hend))

theorem record (h : s.Served w hand bare) (hroom : s.visited.Spans w.size) {o : Nat}
    (ho : o < w.size) (i : Instr) : (s.record o i).Served w hand (o :: bare) where
  root := h.root
  starts hk := (h.starts hk).imp_left OffsetSet.contains_insert_of_contains
  slots {k} hk hb := by
    have hk' : (s.visited.insert o).contains k = true := hk
    rw [OffsetSet.contains_insert hroom ho, Bool.or_eq_true, beq_iff_eq] at hk'
    rcases hk' with hk' | rfl
    · rcases h.slots hk' hb with hbare | hd | hv | hs
      · exact Or.inl (List.mem_cons_of_mem o hbare)
      · exact Or.inr (Or.inl hd)
      · exact Or.inr (Or.inr (Or.inl (OffsetSet.contains_insert_of_contains hv)))
      · exact Or.inr (Or.inr (Or.inr hs))
    · exact Or.inl List.mem_cons_self

theorem settle {o : Nat} (h : s.Served w hand (o :: bare))
    (ho : (w.instrAt o).isBranch = true → s.delay.contains o = true ∨
      s.visited.contains (o + 1) = true ∨ s.starts.contains (o + 1) = true) :
    s.Served w hand bare := by
  refine { h with slots := fun {k} hk hb => ?_ }
  rcases h.slots hk hb with hbare | hrest
  · rcases List.mem_cons.mp hbare with rfl | hbare
    · exact Or.inr (ho hb)
    · exact Or.inl hbare
  · exact Or.inr hrest

end Served

variable {hand : List Nat} {o start : Nat}

/-! ## The queue empties in time -/

/-- The number of pops that can still come: the queue, four for every offset that is not visited and
one for every branch that may yet lose its slot. -/
def budget (s : Survey) (w : Window) : Nat :=
  s.pending.length + 4 * s.visited.missing w.size + s.excluded.missing w.size

theorem budget_push (s : Survey) (w : Window) (o : Nat) :
    (s.push o).budget w = s.budget w + 1 := by
  show s.pending.length + 1 + 4 * s.visited.missing w.size + s.excluded.missing w.size = _
  unfold budget
  omega

theorem budget_pushWithin_le (s : Survey) (w : Window) (o : Nat) :
    (s.pushWithin w o).budget w ≤ s.budget w + 1 := by
  unfold pushWithin
  split
  · exact Nat.le_of_eq (s.budget_push w o)
  · exact Nat.le_succ _

theorem budget_popped {s : Survey} (w : Window) {rest : List Nat} (hp : s.pending = start :: rest) :
    { s with pending := rest }.budget w + 1 = s.budget w := by
  unfold budget
  rw [hp, List.length_cons]
  show rest.length + 4 * s.visited.missing w.size + s.excluded.missing w.size + 1 = _
  omega

theorem budget_excluding_le (s : Survey) (w : Window) (o : Nat) :
    (s.excluding o).budget w ≤ s.budget w :=
  Nat.add_le_add_left (s.excluded.missing_insert_le w.size o) _

theorem budget_record {s : Survey} {w : Window} (hroom : s.visited.Spans w.size) (ho : o < w.size)
    (hfresh : s.visited.contains o = false) (i : Instr) :
    (s.record o i).budget w + 4 = s.budget w := by
  have h := OffsetSet.missing_insert hroom ho hfresh
  show s.pending.length + 4 * (s.visited.insert o).missing w.size +
    s.excluded.missing w.size + 4 = _
  unfold budget
  omega

/-! ## Steps of a survey -/

/-- What a part of a survey leaves behind, if it had the given budget. -/
structure Leaves (w : Window) (budget : Nat) (t : Survey) : Prop where
  coherent : ∃ pace, t.Coherent w pace
  served : t.rejected = false → t.Served w [] []
  budget_le : t.budget w ≤ budget

variable {s : Survey} {w : Window} {pace : Nat → Nat}

theorem Leaves.mono {n m : Nat} {t : Survey} (h : Leaves w n t) (hle : n ≤ m) : Leaves w m t :=
  ⟨h.coherent, h.served, Nat.le_trans h.budget_le hle⟩

theorem pushWithin_eq (s : Survey) (w : Window) (o : Nat) :
    s.pushWithin w o =
      { s with starts := (s.pushWithin w o).starts, pending := (s.pushWithin w o).pending } := by
  unfold pushWithin
  split <;> rfl

theorem rejected_pushWithin (s : Survey) (w : Window) (o : Nat) :
    (s.pushWithin w o).rejected = s.rejected := by
  rw [pushWithin_eq]

theorem Leaves.pushWithin {n : Nat} {t : Survey} (h : Leaves w n t) (o : Nat) :
    Leaves w (n + 1) (t.pushWithin w o) := by
  obtain ⟨pace, hc⟩ := h.coherent
  refine ⟨⟨pace, hc.pushWithin o⟩, fun hrej => ?_, ?_⟩
  · rw [rejected_pushWithin] at hrej
    exact (h.served hrej).pushWithin hc.room_starts o
  · exact Nat.le_trans (t.budget_pushWithin_le w o) (Nat.succ_le_succ h.budget_le)

theorem rejected_of_read (h : (s.read w o).2.rejected = false) : s.rejected = false :=
  (Bool.or_eq_false_iff.mp h).1

theorem leaves_splitSlot (h : s.Coherent w pace) (hserved : s.rejected = false → s.Served w [] [o])
    (ho : o + 1 < w.size) (hslot : s.visited.contains (o + 1) = true ∨ o + 1 ∈ s.pending) :
    Leaves w (s.budget w + 1) ((s.markStart (o + 1)).pushWithin w (o + 1 + 1)) := by
  have hmark := h.markStart (o + 1)
  suffices hl : Leaves w (s.budget w) (s.markStart (o + 1)) from hl.pushWithin _
  refine ⟨⟨pace, hmark⟩, fun hrej => ?_, Nat.le_refl _⟩
  have hstart : (s.markStart (o + 1)).starts.contains (o + 1) = true := by
    show (s.starts.insert (o + 1)).contains (o + 1) = true
    rw [OffsetSet.contains_insert h.room_starts ho, beq_self_eq_true, Bool.or_true]
  exact ((hserved hrej).markStart h.room_starts ho hslot).settle fun _ => Or.inr (Or.inr hstart)

theorem leaves_visitSlot (h : s.Coherent w pace) (hlimit : 0 < w.blockLimit)
    (hserved : s.rejected = false → s.Served w [] [o]) (ho : o + 1 < w.size)
    (hv : s.visited.contains o = true) (hb : (w.instrAt o).isBranch = true) :
    Leaves w (s.budget w + 2) (s.visitSlot w o) := by
  unfold visitSlot
  dsimp only
  split
  next =>
    have hslot := (h.excluding o).delaying ho hv hb
    have hslotServed := fun hrej => ((hserved hrej).excluding o).delaying (o + 1)
    have hbudget : ((s.excluding o).delaying (o + 1)).budget w ≤ s.budget w :=
      s.budget_excluding_le w o
    cases hvs : s.visited.contains (o + 1) with
    | true =>
      exact (leaves_splitSlot hslot hslotServed ho (Or.inl hvs)).mono (by omega)
    | false =>
      have hpush := budget_push ((s.excluding o).delaying (o + 1)) w (o + 1)
      exact (leaves_splitSlot (hslot.push ho) (fun hrej => (hslotServed hrej).push h.room_starts ho)
        ho (Or.inr List.mem_cons_self)).mono (by omega)
  next hnew =>
    obtain ⟨hfresh, -⟩ := Bool.or_eq_false_iff.mp (Bool.eq_false_iff.mpr hnew)
    show Leaves w (s.budget w + 2) (if (s.read w (o + 1)).2.rejected then (s.read w (o + 1)).2
      else ((s.read w (o + 1)).2.delaying (o + 1)).record (o + 1) (w.instrAt (o + 1)))
    split
    next hrej =>
      exact ⟨⟨pace, h.read (o + 1)⟩, fun hrej' => absurd hrej (Bool.eq_false_iff.mp hrej'),
        Nat.le_add_right _ _⟩
    next hrej =>
      have hslot := (h.read (o + 1)).delaying ho hv hb
      have hbudget : (((s.read w (o + 1)).2.delaying (o + 1)).record (o + 1)
          (w.instrAt (o + 1))).budget w + 4 = s.budget w :=
        budget_record hslot.room_visited ho hfresh (w.instrAt (o + 1))
      refine ⟨⟨_, hslot.record ho hfresh hlimit (Or.inr ⟨o, rfl, hv, Or.inl hb⟩)⟩, ?_, by omega⟩
      intro hrej'
      have hdelay : (s.delay.insert (o + 1)).contains (o + 1) = true := by
        rw [OffsetSet.contains_insert h.room_delay ho, beq_self_eq_true, Bool.or_true]
      have hrec := (((hserved (rejected_of_read hrej')).read (o + 1)).delaying (o + 1)).record
        hslot.room_visited ho (w.instrAt (o + 1))
      exact (hrec.settle fun _ => Or.inl hdelay).settle fun _ =>
        Or.inr (Or.inl (hslot.visited_record ho _))

theorem leaves_pushSuccessors (h : s.Coherent w pace) (hserved : s.rejected = false → s.Served w [] [])
    (o : Nat) (i : Instr) : Leaves w (s.budget w + 2) (s.pushSuccessors w o i) := by
  unfold pushSuccessors
  extract_lets t
  have ht : Leaves w (s.budget w + 1) t := by
    dsimp only [t]
    split
    next target htarget =>
      obtain ⟨a, -, ha⟩ := Option.bind_eq_some_iff.mp htarget
      have hlt := lt_of_windowOffset ha
      exact ⟨⟨pace, h.push hlt⟩, fun hrej => (hserved hrej).push h.room_starts hlt,
        Nat.le_of_eq (s.budget_push w target)⟩
    next => exact ⟨⟨pace, h⟩, hserved, Nat.le_succ _⟩
  split
  · exact ht.pushWithin (o + 2)
  · exact ht.mono (Nat.le_succ _)

theorem leaves_visitBranch (h : s.Coherent w pace) (hlimit : 0 < w.blockLimit) {n : Nat}
    (hserved : s.rejected = false → s.Served w hand []) (hhand : ∀ k ∈ hand, k = o)
    (hlt : o < w.size) (hfresh : s.visited.contains o = false) (hn : n < w.blockLimit)
    (hahead : Coherent.Ahead s w pace o n) (hb : (w.instrAt o).isBranch = true) :
    Leaves w (s.budget w) (s.visitBranch w o (w.instrAt o)) := by
  unfold visitBranch
  split
  next ho =>
    have hrec := h.record hlt hfresh hn hahead
    have hbudget := budget_record h.room_visited hlt hfresh (w.instrAt o)
    have hv := h.visited_record hlt (w.instrAt o)
    have hslot := leaves_visitSlot hrec hlimit (fun hrej =>
      ((hserved hrej).record h.room_visited hlt _).putDown fun k hk => Or.inl (hhand k hk ▸ hv))
      ho hv hb
    dsimp only
    split
    next => exact hslot.mono (by omega)
    next =>
      obtain ⟨pace', hc⟩ := hslot.coherent
      have hle := hslot.budget_le
      exact (leaves_pushSuccessors hc hslot.served o _).mono (by omega)
  next ho =>
    refine ⟨⟨pace, h⟩, fun hrej => (hserved hrej).putDown fun k hk => Or.inr ?_, Nat.le_refl _⟩
    rw [hhand k hk]
    exact ⟨hb, Nat.le_of_not_lt ho⟩

theorem served_record (h : s.Coherent w pace) (hserved : s.Served w hand [])
    (hhand : ∀ k ∈ hand, k = o) (hlt : o < w.size) (hb : (w.instrAt o).isBranch = false) :
    (s.record o (w.instrAt o)).Served w [] [] := by
  have hrec := (hserved.record h.room_visited hlt (w.instrAt o)).putDown fun k hk =>
    Or.inl (hhand k hk ▸ h.visited_record hlt (w.instrAt o))
  exact hrec.settle fun hb' => absurd hb' (Bool.eq_false_iff.mp hb)

/-- A walk from a start, part of the way: the start is in hand until it is visited. -/
theorem leaves_walk {offset length : Nat} (h : s.Coherent w pace) (hlimit : 0 < w.blockLimit)
    (hserved : s.rejected = false → s.Served w hand [])
    (hhand : ∀ k ∈ hand, k = offset ∧ k < w.size) (hlength : length < w.blockLimit)
    (hstart : offset = start → s.visited.contains start = false) (hle : start ≤ offset)
    (hahead : Coherent.Ahead s w pace offset length) :
    Leaves w (s.budget w) (s.walk w start offset length) := by
  fun_induction walk s w start offset length generalizing pace hand with
  | case1 s offset length hlt hvis =>
    have hv : s.visited.contains offset = true := (Bool.and_eq_true_iff.mp hvis).2
    refine ⟨⟨pace, h.markStart _⟩, fun hrej => ?_, Nat.le_refl _⟩
    exact ((hserved hrej).putDown fun k hk => Or.inl ((hhand k hk).1 ▸ hv)).markStart h.room_starts
      hlt (Or.inl hv)
  | case2 s offset length hlt hvis i s' hread hrej =>
    cases hread
    exact ⟨⟨pace, h.read offset⟩, fun hrej' => absurd hrej (Bool.eq_false_iff.mp hrej'),
      Nat.le_refl _⟩
  | case3 s offset length hlt hvis i s' hread hrej hb =>
    cases hread
    have hfresh : s.visited.contains offset = false := by grind
    exact leaves_visitBranch (h.read offset) hlimit
      (fun hrej' => (hserved (rejected_of_read hrej')).read offset) (fun k hk => (hhand k hk).1)
      hlt hfresh hlength hahead hb
  | case4 s offset length hlt hvis i s' hread hrej hb =>
    cases hread
    have hfresh : s.visited.contains offset = false := by grind
    have hbudget := budget_record (h.read offset).room_visited hlt hfresh (w.instrAt offset)
    have hl : Leaves w _ ((s.read w offset).2.record offset (w.instrAt offset)) :=
      ⟨⟨_, (h.read offset).record hlt hfresh hlength hahead⟩, fun hrej' => served_record
        (h.read offset) ((hserved (rejected_of_read hrej')).read offset) (fun k hk => (hhand k hk).1)
        hlt (Bool.eq_false_iff.mpr hb), Nat.le_refl _⟩
    exact (hl.pushWithin _).mono (Nat.le_trans (Nat.add_le_add_left (by decide) _)
      (Nat.le_of_eq hbudget))
  | case5 s offset length hlt hvis i s' hread hrej hb visited hcut =>
    rename_i ih
    cases hread
    have hfresh : s.visited.contains offset = false := by grind
    have hbudget := budget_record (h.read offset).room_visited hlt hfresh (w.instrAt offset)
    have hrec := (h.read offset).record hlt hfresh hlength hahead
    have hahead' : Coherent.Ahead visited w (Function.update pace offset length) (offset + 1)
        (length + 1) := by
      refine Or.inr ⟨offset, rfl, (h.read offset).visited_record hlt (w.instrAt offset), Or.inr ?_⟩
      rw [Function.update_self]
    have hl := ih hrec (fun hrej' => served_record (h.read offset)
      ((hserved (rejected_of_read hrej')).read offset) (fun k hk => (hhand k hk).1) hlt
      (Bool.eq_false_iff.mpr hb)) nofun (Nat.lt_of_not_le hcut) (by omega) (by omega) hahead'
    exact hl.mono (Nat.le_trans (Nat.le_add_right _ 4) (Nat.le_of_eq hbudget))
  | case6 s offset length hlt =>
    refine ⟨⟨pace, h⟩, fun hrej => (hserved hrej).putDown fun k hk => ?_, Nat.le_refl _⟩
    obtain ⟨rfl, hk⟩ := hhand k hk
    exact absurd hk hlt

theorem leaves_visit (h : s.Coherent w pace) (hlimit : 0 < w.blockLimit)
    (hserved : s.rejected = false → s.Served w [start] []) (hlt : start < w.size)
    (hstart : s.starts.contains start = true) : Leaves w (s.budget w) (s.visit w start) := by
  unfold visit
  split
  next hv =>
    have hmarked : s.rejected = false → (s.markStart start).Served w [] [] := fun hrej =>
      ((hserved hrej).putDown fun k hk => Or.inl (List.mem_singleton.mp hk ▸ hv)).markStart
        h.room_starts hlt (Or.inl hv)
    dsimp only
    split
    next hsplit =>
      have hnew : s.excluded.contains (start - 1) = false := by grind [markStart]
      have hbudget := OffsetSet.missing_insert h.room_excluded (by omega) hnew
      have hl : Leaves w _ ((s.markStart start).excluding (start - 1)) :=
        ⟨⟨pace, (h.markStart start).excluding _⟩, fun hrej => (hmarked hrej).excluding _,
          Nat.le_refl _⟩
      exact (hl.pushWithin _).mono (Nat.le_of_eq (congrArg (_ + ·) hbudget))
    next => exact ⟨⟨pace, h.markStart start⟩, hmarked, Nat.le_refl _⟩
  next hnew =>
    refine leaves_walk h hlimit hserved ?_ hlimit (fun _ => Bool.eq_false_iff.mpr hnew)
      (Nat.le_refl _) (Or.inl hstart)
    intro k hk
    cases List.mem_singleton.mp hk
    exact ⟨rfl, hlt⟩

theorem Leaves.visit {n : Nat} (h : Leaves w n s) (hlimit : 0 < w.blockLimit) {rest : List Nat}
    (hp : s.pending = start :: rest) :
    0 < n ∧ Leaves w (n - 1) ({ s with pending := rest }.visit w start) := by
  obtain ⟨pace, hc⟩ := h.coherent
  obtain ⟨hstart, hlt⟩ := hc.pending start (hp ▸ List.mem_cons_self)
  have hbudget := budget_popped w hp
  have hle := h.budget_le
  refine ⟨by omega, Leaves.mono (leaves_visit (hc.popped hp) hlimit
    (fun hrej => (h.served hrej).popped hp) hlt hstart) (by omega)⟩

/-- With enough pops the queue empties, unless the survey gives up. -/
theorem leaves_drain {fuel : Nat} (h : Leaves w fuel s) (hlimit : 0 < w.blockLimit) :
    Leaves w fuel (drain w fuel s) ∧
      ((drain w fuel s).rejected = true ∨ (drain w fuel s).pending = []) := by
  induction fuel generalizing s with
  | zero =>
    refine ⟨h, Or.inr (List.eq_nil_of_length_eq_zero ?_)⟩
    have hle := h.budget_le
    unfold budget at hle
    show s.pending.length = 0
    omega
  | succ fuel ih =>
    unfold drain
    split
    next hrej => exact ⟨h, Or.inl hrej⟩
    next =>
      split
      next hp => exact ⟨h, Or.inr hp⟩
      next start rest hp =>
        obtain ⟨hl, hend⟩ := ih (h.visit hlimit hp).2
        exact ⟨hl.mono (Nat.le_succ _), hend⟩

/-! ## Whole surveys -/

structure Reusable (s : Survey) : Prop where
  visited : s.visited.WellFormed
  starts : s.starts.WellFormed
  delay : s.delay.WellFormed
  excluded : s.excluded.WellFormed

theorem Reusable.not_visited (h : s.Reusable) {size o : Nat} :
    ¬(s.restart size).visited.contains o = true :=
  Bool.eq_false_iff.mp (OffsetSet.contains_clear h.visited size o)

theorem Reusable.not_delay (h : s.Reusable) {size o : Nat} :
    ¬(s.restart size).delay.contains o = true :=
  Bool.eq_false_iff.mp (OffsetSet.contains_clear h.delay size o)

theorem coherent_restart (h : s.Reusable) (w : Window) :
    (s.restart w.size).Coherent w fun _ => 0 := by
  refine
    { room_visited := OffsetSet.spans_clear h.visited _
      room_starts := OffsetSet.spans_clear h.starts _
      room_delay := OffsetSet.spans_clear h.delay _
      room_excluded := OffsetSet.spans_clear h.excluded _
      room_instrs := ?_
      lt_size := fun hv => absurd hv h.not_visited
      lt_span := fun hv => absurd hv h.not_visited
      instr_eq := fun hv => absurd hv h.not_visited
      after_branch := fun hd => absurd hd h.not_delay
      reached := fun hv => absurd hv h.not_visited
      pending := nofun
      paced := fun hv => absurd hv h.not_visited
      pace_succ := fun hv => absurd hv h.not_visited
      not_rejected := fun _ => rfl }
  show w.size ≤ (s.instrs ++ Array.replicate (w.size - s.instrs.size) Instr.nop).size
  rw [Array.size_append, Array.size_replicate]
  omega

theorem leaves_start (h : s.Reusable) (hsize : 0 < w.size) :
    Leaves w (popBound w.size) ((s.restart w.size).push 0) := by
  have hc := coherent_restart h w
  refine ⟨⟨_, hc.push hsize⟩, fun _ => ?_, ?_⟩
  · constructor
    case root =>
      exact ((hc.push hsize).pending 0 List.mem_cons_self).1
    case starts =>
      intro o ho
      have ho' : ((s.restart w.size).starts.insert 0).contains o = true := ho
      rw [OffsetSet.contains_insert hc.room_starts hsize, Bool.or_eq_true, beq_iff_eq] at ho'
      rcases ho' with ho' | rfl
      · exact absurd ho' (Bool.eq_false_iff.mp (OffsetSet.contains_clear h.starts w.size o))
      · exact Or.inr (Or.inl List.mem_cons_self)
    case slots =>
      intro o ho
      exact absurd ho (Bool.eq_false_iff.mp (OffsetSet.contains_clear h.visited w.size o))
  · rw [budget_push]
    have hv := (s.restart w.size).visited.missing_le w.size
    have hx := (s.restart w.size).excluded.missing_le w.size
    show 0 + 4 * (s.restart w.size).visited.missing w.size + (s.restart w.size).excluded.missing w.size
      + 1 ≤ 6 * w.size + 1
    omega

theorem Coherent.reusable (h : s.Coherent w pace) : s.Reusable :=
  ⟨h.room_visited.wellFormed, h.room_starts.wellFormed, h.room_delay.wellFormed,
    h.room_excluded.wellFormed⟩

theorem Reusable.run (h : s.Reusable) (hsize : 0 < w.size) (hlimit : 0 < w.blockLimit) :
    (s.run w).Reusable := by
  obtain ⟨pace, hc⟩ := (leaves_drain (leaves_start h hsize) hlimit).1.coherent
  exact hc.reusable

structure Complete (t : Survey) (w : Window) : Prop where
  coherent : ∃ pace, t.Coherent w pace
  root : t.visited.contains 0 = true
  /-- The slot of a branch is visited, unless the branch is itself a slot or the slot is a branch. -/
  slot : ∀ {o}, t.visited.contains o = true → (w.instrAt o).isBranch = true →
    t.delay.contains o = true ∨ t.visited.contains (o + 1) = true ∨
      (w.instrAt (o + 1)).isBranch = true

theorem Served.visited_of_start (h : s.Served w [] []) (hp : s.pending = [])
    (ho : s.starts.contains o = true) :
    s.visited.contains o = true ∨ (w.instrAt o).isBranch = true ∧ w.size ≤ o + 1 := by
  rcases h.starts ho with hv | hq | hh | hstuck
  · exact Or.inl hv
  · rw [hp] at hq
    exact absurd hq List.not_mem_nil
  · exact absurd hh List.not_mem_nil
  · exact Or.inr hstuck

theorem served_run (h : s.Reusable) (hsize : 0 < w.size) (hlimit : 0 < w.blockLimit)
    (hacc : (s.run w).accepted w = true) :
    (∃ pace, (s.run w).Coherent w pace) ∧ (s.run w).rejected = false ∧
      (s.run w).Served w [] [] ∧ (s.run w).pending = [] := by
  obtain ⟨hl, hend⟩ := leaves_drain (leaves_start h hsize) hlimit
  obtain ⟨pace, hc⟩ := hl.coherent
  have hrej : (s.run w).rejected = false := by
    rcases Bool.or_eq_true_iff.mp hacc with htrusted | hclean
    · exact hc.not_rejected htrusted
    · exact (Bool.not_eq_true' _).mp (Bool.and_eq_true_iff.mp hclean).1
  exact ⟨⟨pace, hc⟩, hrej, hl.served hrej, hend.resolve_left (Bool.eq_false_iff.mp hrej)⟩

theorem complete_run (h : s.Reusable) (hsize : 1 < w.size) (hlimit : 0 < w.blockLimit)
    (hacc : (s.run w).accepted w = true) : (s.run w).Complete w := by
  obtain ⟨hc, -, hserved, hp⟩ := served_run h (Nat.lt_of_succ_lt hsize) hlimit hacc
  refine ⟨hc, ?_, fun hv hb => ?_⟩
  · rcases hserved.visited_of_start hp hserved.root with hv | ⟨-, hle⟩
    · exact hv
    · omega
  · rcases hserved.slots hv hb with hbare | hd | hv' | hs
    · exact absurd hbare List.not_mem_nil
    · exact Or.inl hd
    · exact Or.inr (Or.inl hv')
    · exact Or.inr ((hserved.visited_of_start hp hs).imp_right And.left)

end Survey

end R3000
