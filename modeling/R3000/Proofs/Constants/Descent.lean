import R3000.Instr.Assemble
import R3000.Proofs.Constants.Greatest

/-!
# Visits end, and every visit knows less than the one before

`Solution.Course` follows the visits one by one, without a bound on their number.  They end because
each takes a block from the queue, and none goes past 32 visits per block.  What a visited block has
at its exit came from an entry that has only lost registers since (`Solution.Receding`), so a visit
never adds to it.
-/

namespace R3000

/-! ## Masks of known registers -/

namespace Known

theorem any_foldl_mask (l : List (Reg × Word)) (m : Word) (r : Reg) :
    Word.any (l.foldl (fun m p => m ||| Reg.mask p.1) m) r.mask =
      (Word.any m r.mask || l.any fun p => decide (p.1 = r)) := by
  induction l generalizing m with
  | nil => simp
  | cons p l ih =>
    rw [List.foldl_cons, ih, Word.any_or, Word.any_mask_mask, List.any_cons, Bool.or_assoc]

theorem any_mask (k : Known) (r : Reg) : Word.any k.mask r.mask = k.knows r := by
  unfold mask
  rw [any_foldl_mask]
  by_cases h0 : r.val = 0
  · have hr : r = Reg.zero := Fin.ext h0
    have hone : Word.any 1 r.mask = true := by
      rw [hr]
      decide
    rw [hone, Bool.true_or, knows, get_zero k h0]
    rfl
  · have hone : Word.any 1 r.mask = false := by
      revert r
      decide
    rw [hone, Bool.false_or]
    cases hv : k.get r with
    | some v =>
      rw [knows, hv]
      exact List.any_eq_true.mpr ⟨(r, v), mem_toList.mpr ⟨h0, hv⟩, decide_eq_true rfl⟩
    | none =>
      rw [knows, hv]
      refine List.any_eq_false.mpr ?_
      rintro ⟨q, v⟩ hq
      rw [decide_eq_true_eq]
      rintro rfl
      rw [(mem_toList.mp hq).2] at hv
      cases hv

theorem mask_sub_of_le {k l : Known} (h : k.le l) : k.mask &&& ~~~l.mask = 0 := by
  apply Word.eq_zero_of_any
  intro r
  rw [Word.any_and, Word.any_not, any_mask, any_mask]
  cases hr : k.knows r with
  | false => rfl
  | true =>
    rw [knows_mono h hr]
    rfl

end Known

namespace Solution

variable {g : FlowGraph} {s popped : Solution} {id : Nat}

/-! ## The loop of visits -/

def pop? (s : Solution) : Option (Nat × Solution) :=
  match s.front with
  | id :: rest => some (id, { s with front := rest })
  | [] =>
    match s.back.reverse with
    | id :: rest => some (id, { s with front := rest, back := [] })
    | [] => none

theorem pop?_eq_some (h : s.pop? = some (id, popped)) :
    popped.facts = s.facts ∧ popped.visits = s.visits ∧ s.queue = id :: popped.queue := by
  unfold pop? at h
  unfold queue
  cases hfront : s.front with
  | cons a rest =>
    rw [hfront] at h
    cases h
    exact ⟨rfl, rfl, rfl⟩
  | nil =>
    rw [hfront] at h
    cases hback : s.back.reverse with
    | cons a rest =>
      simp only [hback] at h
      cases h
      exact ⟨rfl, rfl, (List.append_nil _).symm⟩
    | nil =>
      simp only [hback] at h
      cases h

theorem pop?_eq_none (h : s.queue = []) : s.pop? = none := by
  obtain ⟨hfront, hback⟩ := List.append_eq_nil_iff.mp h
  unfold pop?
  rw [hfront]
  simp only [hback]

theorem iterate_succ (g : FlowGraph) (fuel : Nat) (s : Solution) :
    iterate g (fuel + 1) s = s.pop?.elim s fun p => iterate g fuel (visit g p.2 p.1) := by
  rw [iterate, pop?]
  cases s.front with
  | cons a rest => rfl
  | nil => cases s.back.reverse <;> rfl

theorem iterate_of_idle (h : s.pop? = none) (fuel : Nat) : iterate g fuel s = s := by
  cases fuel with
  | zero => rfl
  | succ fuel =>
    rw [iterate_succ, h]
    rfl

/-- The solutions after the first, the second, … visit, for as long as a block waits. -/
inductive Course (g : FlowGraph) : Nat → Solution → Prop
  | start : Course g 0 (start g)
  | visit {n : Nat} {s popped : Solution} {id : Nat} (h : Course g n s)
      (hpop : s.pop? = some (id, popped)) : Course g (n + 1) (visit g popped id)

theorem Course.scheduled {n : Nat} (h : Course g n s) : Scheduled g s ∧ s.visits = n := by
  induction h with
  | start => exact ⟨.start, rfl⟩
  | visit _ hpop ih =>
    obtain ⟨hfacts, hvisits, hqueue⟩ := pop?_eq_some hpop
    refine ⟨ih.1.visit hfacts hvisits (.of_eq hqueue), ?_⟩
    rw [visits_visit, hvisits, ih.2]

theorem Course.le (hclosed : g.Closed) {n : Nat} (h : Course g n s) : n ≤ 32 * g.blocks.size := by
  have hle := (h.scheduled.1.spec hclosed).2.2
  have hvisits := h.scheduled.2
  omega

theorem Course.iterate {n : Nat} (h : Course g n s) (fuel : Nat) :
    ∃ n', Course g n' (iterate g fuel s) := by
  induction fuel generalizing n s with
  | zero => exact ⟨n, h⟩
  | succ fuel ih =>
    cases hpop : s.pop? with
    | none =>
      rw [iterate_of_idle hpop]
      exact ⟨n, h⟩
    | some p =>
      rw [iterate_succ, hpop]
      exact ih (h.visit hpop)

/-! ## Exits -/

/-- The exit of every visited block follows from an entry that was no lower than the one it has
now. -/
def Receding (g : FlowGraph) (s : Solution) : Prop :=
  ∀ j, (s.fact j).visited = true → (g.block j).isReal = true →
    ∃ k l, (s.fact j).entry = some k ∧ k.le l ∧ (s.fact j).exit = g.exitOf (g.block j) l

theorem receding_start (g : FlowGraph) : Receding g (start g) := by
  intro j hj
  rcases Nat.eq_zero_or_pos g.blocks.size with h | h
  · rw [fact_of_facts_eq_empty (start_of_empty h).1] at hj
    cases hj
  · rw [fact_start h] at hj
    split at hj <;> cases hj

theorem fact_send (hid : id < s.facts.size) (incoming : Known) (j : Nat) :
    ((s.send id incoming).fact j).exit = (s.fact j).exit ∧
      ((s.send id incoming).fact j).visited = (s.fact j).visited := by
  rw [send_eq]
  split
  · exact ⟨rfl, rfl⟩
  · rw [fact_lower hid]
    split
    next hj =>
      rw [hj]
      exact ⟨rfl, rfl⟩
    next => exact ⟨rfl, rfl⟩

theorem Receding.send (h : Receding g s) (hs : Sound g s) (hid : id < g.blocks.size)
    {incoming : Known} (hin : incoming.Clean) : Receding g (s.send id incoming) := by
  have hfact := fact_send (s := s) (hs.size ▸ hid) incoming
  intro j hvisited hreal
  rw [(hfact j).2] at hvisited
  obtain ⟨k, l, hk, hle, hexit⟩ := h j hvisited hreal
  obtain ⟨k', hk', hle'⟩ := (sent_send hs hid hin).1.lowered.le j k hk
  exact ⟨k', l, hk', Known.le_trans hle' hle, (hfact j).1.trans hexit⟩

theorem Receding.sendAll (h : Receding g s) (hs : Sound g s) {out : List (Nat × Known)}
    (hout : ∀ p ∈ out, p.1 < g.blocks.size ∧ p.2.Clean) :
    Receding g (out.foldl (fun s p => s.send p.1 p.2) s) := by
  induction out generalizing s with
  | nil => exact h
  | cons p out ih =>
    obtain ⟨hid, hin⟩ := hout p List.mem_cons_self
    exact ih (h.send hs hid hin) (sent_send hs hid hin).1.sound
      fun q hq => hout q (List.mem_cons_of_mem p hq)

theorem exit_sendAll (hs : Sound g s) {out : List (Nat × Known)}
    (hout : ∀ p ∈ out, p.1 < g.blocks.size ∧ p.2.Clean) (j : Nat) :
    ((out.foldl (fun s p => s.send p.1 p.2) s).fact j).exit = (s.fact j).exit := by
  induction out generalizing s with
  | nil => rfl
  | cons p out ih =>
    obtain ⟨hid, hin⟩ := hout p List.mem_cons_self
    exact (ih (sent_send hs hid hin).1.sound fun q hq => hout q (List.mem_cons_of_mem p hq)).trans
      (fact_send (s := s) (hs.size ▸ hid) p.2 j).1

section Visit

variable (hclosed : g.Closed) (h : Approaches g s) (hfacts : popped.facts = s.facts)
  (hqueue : s.queue.Perm (id :: popped.queue))
include h hfacts hqueue

theorem entryOf_popped : (s.fact id).entry = some (popped.entryOf id) := by
  obtain ⟨k, hk⟩ := h.queued id (hqueue.mem_iff.mpr List.mem_cons_self)
  rw [hk, entryOf, fact, hfacts, ← fact, hk]
  rfl

theorem fact_opened_popped (j : Nat) :
    (opened g popped id).fact j =
      if j = id then
        { s.fact id with
          exit :=
            if (g.block id).isReal then g.exitOf (g.block id) (popped.entryOf id)
            else (s.fact id).exit
          visited := true
          waiting := false }
      else s.fact j := by
  have hid := h.sound.bound id (hqueue.mem_iff.mpr List.mem_cons_self)
  have hfact : ∀ j, popped.fact j = s.fact j := fun j => by rw [fact, hfacts, fact]
  rw [fact_opened g (by rw [hfacts, h.sound.size]; exact hid), hfact, hfact]

theorem receding_opened (hr : Receding g s) : Receding g (opened g popped id) := by
  intro j hvisited hreal
  rw [fact_opened_popped h hfacts hqueue] at hvisited ⊢
  by_cases hj : j = id
  · subst hj
    rw [if_pos rfl, if_pos hreal]
    exact ⟨popped.entryOf j, popped.entryOf j, entryOf_popped h hfacts hqueue, Known.le_refl _, rfl⟩
  · rw [if_neg hj] at hvisited ⊢
    exact hr j hvisited hreal

include hclosed

theorem outgoing_popped : ∀ p ∈ g.outgoing (g.block id) (g.exitOf (g.block id) (popped.entryOf id)),
    p.1 < g.blocks.size ∧ p.2.Clean := by
  intro p hp
  have hclean : (g.exitOf (g.block id) (popped.entryOf id)).Clean :=
    (h.sound.clean id _ (entryOf_popped h hfacts hqueue)).afterAll _
  obtain ⟨hj, hp'⟩ := FlowGraph.mem_outgoing hp hclean
  exact ⟨hclosed id p.1 hj, hp'⟩

theorem receding_visit (hr : Receding g s) : Receding g (visit g popped id) := by
  have hopened := receding_opened h hfacts hqueue hr
  rw [visit_eq]
  split
  · exact hopened.sendAll (sound_opened h.sound hfacts hqueue)
      (outgoing_popped hclosed h hfacts hqueue)
  · exact hopened

theorem exit_visit :
    ((visit g popped id).fact id).exit =
      if (g.block id).isReal then g.exitOf (g.block id) (popped.entryOf id)
      else (s.fact id).exit := by
  have hopened : ((opened g popped id).fact id).exit =
      if (g.block id).isReal then g.exitOf (g.block id) (popped.entryOf id)
      else (s.fact id).exit := by
    rw [fact_opened_popped h hfacts hqueue, if_pos rfl]
  rw [visit_eq]
  split
  next hreal =>
    rw [exit_sendAll (sound_opened h.sound hfacts hqueue)
      (outgoing_popped hclosed h hfacts hqueue), hopened, if_pos hreal]
  next hreal => rw [hopened, if_neg hreal]

end Visit

theorem Scheduled.receding (hclosed : g.Closed) (h : Scheduled g s) : Receding g s := by
  induction h with
  | start => exact receding_start g
  | visit h hfacts _ hqueue ih =>
    exact receding_visit hclosed (h.spec hclosed).2.1 hfacts hqueue ih

theorem Scheduled.exit_visit_le (hclosed : g.Closed) (h : Scheduled g s)
    (hfacts : popped.facts = s.facts) (hqueue : s.queue.Perm (id :: popped.queue))
    (hvisited : (s.fact id).visited = true) :
    ((Solution.visit g popped id).fact id).exit.le (s.fact id).exit := by
  have happ := (h.spec hclosed).2.1
  rw [exit_visit hclosed happ hfacts hqueue]
  split
  next hreal =>
    -- the last exit came from an entry `l` that has only lost registers since
    obtain ⟨k, l, hk, hle, hexit⟩ := h.receding hclosed id hvisited hreal
    rw [entryOf_popped happ hfacts hqueue] at hk
    rw [hexit, Option.some.inj hk]
    exact Known.afterAll_mono hle _
  next => exact Known.le_refl _

end Solution

/-! ## Surveyed graphs -/

/-- The visits of a surveyed graph come to an end, after at most 32 per block and with no block
waiting, and a block that is visited again knows no register at its exit that it did not know before
with the same value. -/
theorem Survey.visits_end_and_exits_shrink (s : Survey) (base : Word) :
    let g := s.graph base
    (∃ n ≤ 32 * g.blocks.size, Solution.Course g n g.constants ∧ g.constants.pop? = none) ∧
      (∀ n t, Solution.Course g n t → n ≤ 32 * g.blocks.size) ∧
      ∀ n t id popped, Solution.Course g n t → t.pop? = some (id, popped) →
        (t.fact id).visited = true →
          let exit := ((Solution.visit g popped id).fact id).exit
          exit.le (t.fact id).exit ∧ exit.mask &&& ~~~(t.fact id).exit.mask = 0 := by
  intro g
  have hclosed : g.Closed := (s.regular_graph base).closed
  refine ⟨?_, fun n t ht => ht.le hclosed, fun n t id popped ht hpop hvisited => ?_⟩
  · obtain ⟨n, hn⟩ := (Solution.Course.start (g := g)).iterate (32 * g.blocks.size)
    exact ⟨n, hn.le hclosed, hn, Solution.pop?_eq_none (FlowGraph.scheduled_constants hclosed).2⟩
  · obtain ⟨hfacts, -, hqueue⟩ := Solution.pop?_eq_some hpop
    have hle := ht.scheduled.1.exit_visit_le hclosed hfacts (.of_eq hqueue) hvisited
    exact ⟨hle, Known.mask_sub_of_le hle⟩

def Window.countingLoop : Window :=
  { fetch := fun addr =>
      (([.addiu 1 0 0, .addiu 1 1 1, .bne 1 2 0xFFFE, .nop, .jr 31, .nop] : List Statement).map
        Statement.encode).getD (addr.toNat / 4) 0
    base := 0
    size := 6
    blockLimit := 6
    trusted := true }

/-- The loop is visited with 0 in register 1, and again when its own branch has brought a 1. -/
theorem Survey.visits_end_and_exits_shrink_in_loop :
    let g := (({} : Survey).run Window.countingLoop).graph 0
    let t := Solution.iterate g 3 (Solution.start g)
    ∃ popped, Solution.Course g 3 t ∧ t.pop? = some (1, popped) ∧
      (t.fact 1).visited = true ∧ (t.fact 1).exit.get 1 = some 1 ∧
      let exit := ((Solution.visit g popped 1).fact 1).exit
      exit.get 1 = none ∧ exit.le (t.fact 1).exit := by
  intro g t
  have hcourse : Solution.Course g 3 t := by
    obtain ⟨n, hn⟩ := (Solution.Course.start (g := g)).iterate 3
    have h3 : t.visits = 3 := by decide +kernel
    rwa [← hn.scheduled.2, h3] at hn
  have hvisited : (t.fact 1).visited = true := by decide +kernel
  have hnext : (t.pop?.map fun p => (p.1, ((Solution.visit g p.2 p.1).fact 1).exit.get 1)) =
      some (1, none) := by decide +kernel
  obtain ⟨⟨id, popped⟩, hpop, hp⟩ := Option.map_eq_some_iff.mp hnext
  obtain ⟨rfl, hexit⟩ := Prod.mk.inj hp
  have hle := (visits_end_and_exits_shrink _ 0).2.2 3 t 1 popped hcourse hpop hvisited
  exact ⟨popped, hcourse, hpop, hvisited, by decide +kernel, hexit, hle.1⟩

end R3000
