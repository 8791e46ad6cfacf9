import Mathlib.Algebra.Order.BigOperators.Group.Finset
import Mathlib.Data.Fintype.Card
import R3000.Proofs.Constants.Known
import R3000.Proofs.Flow.Edges

/-!
# The known registers of a graph are a fixed point

Visits stop because no block waits any more, not because the visits run out: every visit takes a
block from the queue, and a block is queued again only after its entry has lost a register.  What
is left is a fixed point: the root knows nothing (`FlowGraph.knownAt_root`), and no block knows
more on entry than any block that was reached sends it (`FlowGraph.knownAt_outgoing`).
-/

namespace R3000

namespace Known

variable {k : Known}

/-! ## How much is known -/

/-- Register 0 is known without a cell of its own. -/
def Clean (k : Known) : Prop :=
  k.cells.get Reg.zero = none

theorem clean_nothing : nothing.Clean :=
  Vector.getElem_replicate Reg.zero.isLt

theorem Clean.set (h : k.Clean) (r : Reg) (v : Word) : (k.set r v).Clean := by
  unfold Known.set
  split
  · exact h
  next hr =>
    unfold Clean
    rw [Reg.update_get, if_neg fun e => hr (congrArg Fin.val e.symm)]
    exact h

theorem Clean.forget (h : k.Clean) (regs : Word) : (k.forget regs).Clean := by
  show (Vector.ofFn _)[Reg.zero.val] = none
  rw [Vector.getElem_ofFn]
  split
  · rfl
  · exact h

theorem Clean.meet (h : k.Clean) (l : Known) : (k.meet l).Clean := by
  show (Vector.ofFn _)[Reg.zero.val] = none
  rw [Vector.getElem_ofFn]
  split
  · exact h
  · rfl

theorem Clean.after (h : k.Clean) (i : Instr) : (k.after i).Clean := by
  unfold Known.after
  split
  · split
    · exact h.set _ _
    · exact h
  · exact h.forget _

theorem Clean.afterAll (h : k.Clean) (l : List Instr) : (k.afterAll l).Clean := by
  induction l generalizing k with
  | nil => exact h
  | cons i l ih => exact ih (h.after i)

def filled (k : Known) : Finset Reg :=
  Finset.univ.filter fun r => (k.cells.get r).isSome

theorem Clean.card_filled_lt (h : k.Clean) : k.filled.card < 32 := by
  have hzero : Reg.zero ∉ k.filled := by
    rw [filled, Finset.mem_filter, h]
    exact fun hmem => Bool.false_ne_true hmem.2
  have hlt := Finset.card_lt_univ_of_notMem hzero
  rwa [Fintype.card_fin] at hlt

theorem cells_meet (k l : Known) (r : Reg) :
    (k.meet l).cells.get r =
      if k.cells.get r = l.cells.get r then k.cells.get r else none := by
  show (Vector.ofFn _)[r.val] = _
  rw [Vector.getElem_ofFn]

theorem card_filled_meet_lt {l : Known} (h : k.meet l ≠ k) :
    (k.meet l).filled.card < k.filled.card := by
  have hne : ∃ r : Reg, (k.meet l).cells.get r ≠ k.cells.get r := by
    by_contra hall
    simp only [not_exists, not_not] at hall
    exact h (congrArg Known.mk (Vector.ext fun i hi => hall ⟨i, hi⟩))
  obtain ⟨r, hr⟩ := hne
  rw [cells_meet] at hr
  have hdiff : ¬k.cells.get r = l.cells.get r := fun e => hr (if_pos e)
  rw [if_neg hdiff] at hr
  apply Finset.card_lt_card
  refine Finset.ssubset_iff_subset_ne.mpr ⟨fun q hq => ?_, fun e => ?_⟩
  · rw [filled, Finset.mem_filter, cells_meet] at hq
    rw [filled, Finset.mem_filter]
    refine ⟨hq.1, ?_⟩
    by_cases he : k.cells.get q = l.cells.get q
    · rw [if_pos he] at hq
      exact hq.2
    · rw [if_neg he] at hq
      exact absurd hq.2 Bool.false_ne_true
  · have hmem : r ∈ k.filled := by
      rw [filled, Finset.mem_filter]
      exact ⟨Finset.mem_univ r, Option.isSome_iff_ne_none.mpr hr.symm⟩
    rw [← e, filled, Finset.mem_filter, cells_meet, if_neg hdiff] at hmem
    exact absurd hmem.2 Bool.false_ne_true

end Known

/-! ## Facts after a replacement -/

namespace Solution

variable {id : Nat} {t : Solution}

theorem getD_replace (facts : Array BlockFacts) (h : id < facts.size) (f : BlockFacts) (j : Nat) :
    (replace facts id f).getD j {} = if j = id then f else facts.getD j {} := by
  unfold replace
  rw [Array.getD_eq_getD_getElem?, Array.getElem?_setIfInBounds, Array.getD_eq_getD_getElem?]
  by_cases hj : id = j
  · rw [if_pos hj, if_pos h, if_pos hj.symm]
    rfl
  · rw [if_neg hj, if_neg fun e => hj e.symm]

theorem size_replace (facts : Array BlockFacts) (id : Nat) (f : BlockFacts) :
    (replace facts id f).size = facts.size :=
  Array.size_setIfInBounds

/-! ## Entries only get lower -/

/-- One solution comes from another by lowering entries: a block whose entry changed waits. -/
structure Lowered (s t : Solution) : Prop where
  size : t.facts.size = s.facts.size
  queue : ∀ j ∈ s.queue, j ∈ t.queue
  entry : ∀ j, (t.fact j).entry = (s.fact j).entry ∨ j ∈ t.queue
  le : ∀ j k, (s.fact j).entry = some k → ∃ l, (t.fact j).entry = some l ∧ l.le k

theorem Lowered.refl (s : Solution) : Lowered s s :=
  ⟨rfl, fun _ h => h, fun _ => Or.inl rfl, fun _ k h => ⟨k, h, k.le_refl⟩⟩

theorem Lowered.trans {s u : Solution} (h : Lowered s t) (h' : Lowered t u) : Lowered s u where
  size := h'.size.trans h.size
  queue j hj := h'.queue j (h.queue j hj)
  entry j := by
    rcases h'.entry j with e | hj
    · rcases h.entry j with e' | hj
      · exact Or.inl (e.trans e')
      · exact Or.inr (h'.queue j hj)
    · exact Or.inr hj
  le j k hk := by
    obtain ⟨l, hl, hle⟩ := h.le j k hk
    obtain ⟨m, hm, hle'⟩ := h'.le j l hl
    exact ⟨m, hm, Known.le_trans hle' hle⟩

/-- What is true of a solution between visits. -/
structure Sound (g : FlowGraph) (s : Solution) : Prop where
  size : s.facts.size = g.blocks.size
  bound : ∀ j ∈ s.queue, j < g.blocks.size
  waiting : ∀ j, (s.fact j).waiting = true → j ∈ s.queue
  clean : ∀ j k, (s.fact j).entry = some k → k.Clean

def weight : Option Known → Nat
  | none => 32
  | some k => k.filled.card

def potential (g : FlowGraph) (s : Solution) : Nat :=
  (∑ j ∈ Finset.range g.blocks.size, weight (s.fact j).entry) + s.queue.length

def met (entry : Option Known) (incoming : Known) : Known :=
  match entry with
  | none => incoming
  | some old => old.meet incoming

theorem met_le (entry : Option Known) (incoming : Known) : (met entry incoming).le incoming := by
  cases entry with
  | none => exact incoming.le_refl
  | some old => exact Known.meet_le_right old incoming

theorem clean_met {entry : Option Known} {incoming : Known} (hin : incoming.Clean)
    (h : ∀ k, entry = some k → k.Clean) : (met entry incoming).Clean := by
  cases entry with
  | none => exact hin
  | some old => exact (h old rfl).meet incoming

theorem weight_met_lt {entry : Option Known} {incoming : Known} (hin : incoming.Clean)
    (h : entry ≠ some (met entry incoming)) :
    weight (some (met entry incoming)) < weight entry := by
  cases entry with
  | none => exact hin.card_filled_lt
  | some old => exact Known.card_filled_meet_lt fun e => h (congrArg some e.symm)

def lower (s : Solution) (id : Nat) (incoming : Known) : Solution :=
  { s with
    facts := replace s.facts id
      { s.fact id with entry := some (met (s.fact id).entry incoming), waiting := true }
    back := if (s.fact id).waiting then s.back else id :: s.back }

theorem send_eq (s : Solution) (id : Nat) (incoming : Known) :
    s.send id incoming =
      if (s.fact id).entry = some (met (s.fact id).entry incoming) then s
      else s.lower id incoming := rfl

theorem fact_lower {s : Solution} (h : id < s.facts.size) (incoming : Known) (j : Nat) :
    (s.lower id incoming).fact j =
      if j = id then
        { s.fact id with entry := some (met (s.fact id).entry incoming), waiting := true }
      else s.fact j :=
  getD_replace s.facts h _ j

theorem queue_lower (s : Solution) (id : Nat) (incoming : Known) :
    (s.lower id incoming).queue = if (s.fact id).waiting then s.queue else s.queue ++ [id] := by
  unfold queue lower
  simp only
  split
  · rfl
  · rw [List.reverse_cons, List.append_assoc]

theorem mem_queue_lower {s : Solution} (incoming : Known)
    (hw : (s.fact id).waiting = true → id ∈ s.queue) (j : Nat) :
    j ∈ (s.lower id incoming).queue ↔ j ∈ s.queue ∨ j = id := by
  rw [queue_lower]
  by_cases h : (s.fact id).waiting = true
  · rw [if_pos h]
    refine ⟨Or.inl, fun hj => hj.elim (fun hj => hj) fun hj => ?_⟩
    rw [hj]
    exact hw h
  · rw [if_neg h, List.mem_append, List.mem_singleton]

variable {g : FlowGraph} {s : Solution}

theorem sound_lower (hs : Sound g s) (hid : id < g.blocks.size) {incoming : Known}
    (hin : incoming.Clean) : Sound g (s.lower id incoming) := by
  have hlt : id < s.facts.size := hs.size ▸ hid
  have hqueue := mem_queue_lower incoming (hs.waiting id)
  refine ⟨(size_replace _ _ _).trans hs.size, fun j hj => ?_, fun j hj => ?_, fun j k hk => ?_⟩
  · rcases (hqueue j).mp hj with hj | rfl
    · exact hs.bound j hj
    · exact hid
  · by_cases hji : j = id
    · exact (hqueue j).mpr (Or.inr hji)
    · rw [fact_lower hlt, if_neg hji] at hj
      exact (hqueue j).mpr (Or.inl (hs.waiting j hj))
  · rw [fact_lower hlt] at hk
    by_cases hji : j = id
    · rw [if_pos hji] at hk
      rw [← Option.some.inj hk]
      exact clean_met hin (hs.clean id)
    · rw [if_neg hji] at hk
      exact hs.clean j k hk

theorem lowered_lower (hs : Sound g s) (hid : id < g.blocks.size) (incoming : Known) :
    Lowered s (s.lower id incoming) := by
  have hlt : id < s.facts.size := hs.size ▸ hid
  have hqueue := mem_queue_lower incoming (hs.waiting id)
  refine ⟨size_replace _ _ _, fun j hj => (hqueue j).mpr (Or.inl hj), fun j => ?_,
    fun j k hk => ?_⟩
  · by_cases hji : j = id
    · exact Or.inr ((hqueue j).mpr (Or.inr hji))
    · rw [fact_lower hlt, if_neg hji]
      exact Or.inl rfl
  · rw [fact_lower hlt]
    by_cases hji : j = id
    · rw [if_pos hji]
      subst hji
      refine ⟨_, rfl, ?_⟩
      rw [hk]
      exact Known.meet_le_left k incoming
    · rw [if_neg hji]
      exact ⟨k, hk, k.le_refl⟩

theorem potential_lower_le (hs : Sound g s) (hid : id < g.blocks.size) {incoming : Known}
    (hin : incoming.Clean) (hne : (s.fact id).entry ≠ some (met (s.fact id).entry incoming)) :
    potential g (s.lower id incoming) ≤ potential g s := by
  have hlt : id < s.facts.size := hs.size ▸ hid
  have hsum : (∑ j ∈ Finset.range g.blocks.size, weight ((s.lower id incoming).fact j).entry) <
      ∑ j ∈ Finset.range g.blocks.size, weight (s.fact j).entry := by
    apply Finset.sum_lt_sum
    · intro j _
      rw [fact_lower hlt]
      by_cases hji : j = id
      · rw [if_pos hji, hji]
        exact Nat.le_of_lt (weight_met_lt hin hne)
      · rw [if_neg hji]
    · refine ⟨id, Finset.mem_range.mpr hid, ?_⟩
      rw [fact_lower hlt, if_pos rfl]
      exact weight_met_lt hin hne
  have hqueue : (s.lower id incoming).queue.length ≤ s.queue.length + 1 := by
    rw [queue_lower]
    split
    · exact Nat.le_succ _
    · rw [List.length_append, List.length_singleton]
  unfold potential
  omega

/-! ## Sending knowledge -/

structure Sent (g : FlowGraph) (s t : Solution) : Prop where
  sound : Sound g t
  lowered : Lowered s t
  potential : potential g t ≤ potential g s

theorem Sent.refl (hs : Sound g s) : Sent g s s :=
  ⟨hs, .refl s, Nat.le_refl _⟩

theorem Sent.trans {u : Solution} (h : Sent g s t) (h' : Sent g t u) : Sent g s u :=
  ⟨h'.sound, h.lowered.trans h'.lowered, Nat.le_trans h'.potential h.potential⟩

theorem sent_send (hs : Sound g s) (hid : id < g.blocks.size) {incoming : Known}
    (hin : incoming.Clean) :
    Sent g s (s.send id incoming) ∧
      ∃ k, ((s.send id incoming).fact id).entry = some k ∧ k.le incoming := by
  rw [send_eq]
  by_cases h : (s.fact id).entry = some (met (s.fact id).entry incoming)
  · rw [if_pos h]
    exact ⟨.refl hs, _, h, met_le _ incoming⟩
  · rw [if_neg h]
    refine ⟨⟨sound_lower hs hid hin, lowered_lower hs hid incoming,
      potential_lower_le hs hid hin h⟩, met (s.fact id).entry incoming, ?_, met_le _ incoming⟩
    rw [fact_lower (hs.size ▸ hid), if_pos rfl]

def Arrived (s : Solution) (out : List (Nat × Known)) : Prop :=
  ∀ p ∈ out, ∃ k, (s.fact p.1).entry = some k ∧ k.le p.2

theorem Arrived.lowered {out : List (Nat × Known)} (h : Arrived s out) (hl : Lowered s t) :
    Arrived t out := by
  intro p hp
  obtain ⟨k, hk, hle⟩ := h p hp
  obtain ⟨l, hl', hle'⟩ := hl.le p.1 k hk
  exact ⟨l, hl', Known.le_trans hle' hle⟩

theorem sent_all (hs : Sound g s) {out : List (Nat × Known)}
    (hout : ∀ p ∈ out, p.1 < g.blocks.size ∧ p.2.Clean) :
    Sent g s (out.foldl (fun s p => s.send p.1 p.2) s) ∧
      Arrived (out.foldl (fun s p => s.send p.1 p.2) s) out := by
  induction out generalizing s with
  | nil => exact ⟨.refl hs, nofun⟩
  | cons p out ih =>
    obtain ⟨hid, hin⟩ := hout p List.mem_cons_self
    obtain ⟨hsent, k, hk, hle⟩ := sent_send hs hid hin
    obtain ⟨hrest, harr⟩ := ih hsent.sound fun q hq => hout q (List.mem_cons_of_mem p hq)
    refine ⟨hsent.trans hrest, fun q hq => ?_⟩
    rcases List.mem_cons.mp hq with rfl | hq
    · obtain ⟨l, hl, hle'⟩ := hrest.lowered.le q.1 k hk
      exact ⟨l, hl, Known.le_trans hle' hle⟩
    · exact harr q hq

/-! ## Visits -/

end Solution

theorem FlowGraph.mem_outgoing {g : FlowGraph} {b : Block} {exit : Known} {p : Nat × Known}
    (h : p ∈ g.outgoing b exit) (hexit : exit.Clean) :
    (b.flowOut = some p.1 ∨ b.branchOut = some p.1) ∧ p.2.Clean := by
  unfold outgoing at h
  cases hb : b.branch with
  | none =>
    simp only [hb, Option.mem_toList, Option.map_eq_some_iff] at h
    obtain ⟨a, ha, rfl⟩ := h
    exact ⟨Or.inl ha, hexit⟩
  | some branch =>
    simp only [hb] at h
    split at h
    · simp only [List.mem_append, Option.mem_toList, Option.map_eq_some_iff] at h
      rcases h with ⟨a, ha, rfl⟩ | ⟨a, ha, rfl⟩
      · exact ⟨Or.inl ha, Known.clean_nothing⟩
      · exact ⟨Or.inr ha, Known.clean_nothing⟩
    · simp only [List.mem_append, Option.mem_toList, Option.map_eq_some_iff] at h
      rcases h with ⟨a, ha, rfl⟩ | ⟨a, ha, rfl⟩
      · exact ⟨Or.inl ha, hexit⟩
      · refine ⟨Or.inr ha, ?_⟩
        split
        · exact hexit
        · exact hexit.after _

namespace Solution

variable {g : FlowGraph} {s : Solution} {id : Nat}

def Settled (g : FlowGraph) (s : Solution) (id : Nat) : Prop :=
  (g.block id).isReal = true → ∀ k, (s.fact id).entry = some k →
    Arrived s (g.outgoing (g.block id) (g.exitOf (g.block id) k))

/-- A solution between visits: whoever does not wait is settled. -/
structure Invariant (g : FlowGraph) (s : Solution) : Prop where
  sound : Sound g s
  settled : ∀ j, j ∈ s.queue ∨ Settled g s j

def opened (g : FlowGraph) (s : Solution) (id : Nat) : Solution :=
  let exit :=
    if (g.block id).isReal then g.exitOf (g.block id) (s.entryOf id) else (s.fact id).exit
  { s with
    facts := replace s.facts id { s.fact id with exit, visited := true, waiting := false }
    visits := s.visits + 1 }

theorem visit_eq (g : FlowGraph) (s : Solution) (id : Nat) :
    visit g s id =
      if (g.block id).isReal then
        (g.outgoing (g.block id) (g.exitOf (g.block id) (s.entryOf id))).foldl
          (fun s p => s.send p.1 p.2) (opened g s id)
      else opened g s id := by
  unfold visit opened
  by_cases h : (g.block id).isReal = true
  · simp only [if_pos h]
  · simp only [if_neg h]

theorem entry_opened (g : FlowGraph) (h : id < s.facts.size) (j : Nat) :
    ((opened g s id).fact j).entry = (s.fact j).entry := by
  show ((replace s.facts id _).getD j {}).entry = _
  rw [getD_replace _ h]
  split
  next e => rw [e]
  next => rfl

theorem waiting_opened (g : FlowGraph) (h : id < s.facts.size) (j : Nat) :
    ((opened g s id).fact j).waiting = (decide (j ≠ id) && (s.fact j).waiting) := by
  show ((replace s.facts id _).getD j {}).waiting = _
  rw [getD_replace _ h]
  by_cases hj : j = id
  · rw [if_pos hj, decide_eq_false fun hne => hne hj]
    rfl
  · rw [if_neg hj, decide_eq_true hj]
    rfl

/-- What is left when a block is taken off the queue. -/
theorem Sound.of_popped {popped : Solution} (hs : Sound g s) (hfacts : popped.facts = s.facts)
    (hqueue : s.queue.Perm (id :: popped.queue)) :
    (∀ j, popped.fact j = s.fact j) ∧ (∀ j, j ∈ s.queue ↔ j = id ∨ j ∈ popped.queue) ∧
      id < popped.facts.size := by
  have hmem : ∀ j, j ∈ s.queue ↔ j = id ∨ j ∈ popped.queue := by
    intro j
    rw [hqueue.mem_iff, List.mem_cons]
  refine ⟨fun j => by rw [fact, hfacts, fact], hmem, ?_⟩
  rw [hfacts, hs.size]
  exact hs.bound id ((hmem id).mpr (Or.inl rfl))

theorem sound_opened {popped : Solution} (hs : Sound g s) (hfacts : popped.facts = s.facts)
    (hqueue : s.queue.Perm (id :: popped.queue)) : Sound g (opened g popped id) := by
  obtain ⟨hfact, hmem, hlt⟩ := hs.of_popped hfacts hqueue
  refine ⟨?_, fun j hj => hs.bound j ((hmem j).mpr (Or.inr hj)), fun j hj => ?_, fun j k hk => ?_⟩
  · exact (size_replace _ _ _).trans (hfacts ▸ hs.size)
  · rw [waiting_opened g hlt, Bool.and_eq_true, hfact] at hj
    exact ((hmem j).mp (hs.waiting j hj.2)).resolve_left (of_decide_eq_true hj.1)
  · rw [entry_opened g hlt, hfact] at hk
    exact hs.clean j k hk

section Visit

variable {popped : Solution} (h : Invariant g s) (hfacts : popped.facts = s.facts)
  (hqueue : s.queue.Perm (id :: popped.queue))
include h hfacts hqueue

theorem lowered_opened : Lowered popped (opened g popped id) := by
  obtain ⟨-, -, hlt⟩ := h.sound.of_popped hfacts hqueue
  exact ⟨size_replace _ _ _, fun _ hj => hj, fun j => Or.inl (entry_opened g hlt j),
    fun j k hk => ⟨k, (entry_opened g hlt j).trans hk, k.le_refl⟩⟩

theorem entry_opened_popped (j : Nat) :
    ((opened g popped id).fact j).entry = (s.fact j).entry := by
  obtain ⟨hfact, -, hlt⟩ := h.sound.of_popped hfacts hqueue
  rw [entry_opened g hlt, hfact]

theorem potential_opened : potential g (opened g popped id) < potential g s := by
  have hsum : (∑ j ∈ Finset.range g.blocks.size, weight ((opened g popped id).fact j).entry) =
      ∑ j ∈ Finset.range g.blocks.size, weight (s.fact j).entry :=
    Finset.sum_congr rfl fun j _ => congrArg weight (entry_opened_popped h hfacts hqueue j)
  have hlength : s.queue.length = (opened g popped id).queue.length + 1 := hqueue.length_eq
  unfold potential
  omega

/-- The blocks that are not visited are settled as before. -/
theorem settled_others {t : Solution} (ht : Lowered (opened g popped id) t) {j : Nat}
    (hj : j ≠ id) : j ∈ t.queue ∨ Settled g t j := by
  obtain ⟨-, hmem, -⟩ := h.sound.of_popped hfacts hqueue
  rcases ht.entry j with he | hmemt
  · rcases h.settled j with hjq | hset
    · exact Or.inl (ht.queue j (((hmem j).mp hjq).resolve_left hj))
    · right
      intro hreal k hk
      rw [he, entry_opened_popped h hfacts hqueue] at hk
      refine Arrived.lowered (s := opened g popped id) (fun p hp => ?_) ht
      rw [entry_opened_popped h hfacts hqueue]
      exact hset hreal k hk p hp
  · exact Or.inl hmemt

theorem invariant_visit (hclosed : g.Closed) :
    Invariant g (visit g popped id) ∧ Lowered popped (visit g popped id) ∧
      potential g (visit g popped id) < potential g s := by
  obtain ⟨hfact, -, -⟩ := h.sound.of_popped hfacts hqueue
  have hopened : Sound g (opened g popped id) := sound_opened h.sound hfacts hqueue
  have hlower := lowered_opened h hfacts hqueue
  have hpotential := potential_opened h hfacts hqueue
  rw [visit_eq]
  by_cases hreal : (g.block id).isReal = true
  · rw [if_pos hreal]
    have hclean : (g.exitOf (g.block id) (popped.entryOf id)).Clean := by
      apply Known.Clean.afterAll
      unfold entryOf
      rw [hfact]
      cases he : (s.fact id).entry with
      | none => exact Known.clean_nothing
      | some k => exact h.sound.clean id k he
    have hout : ∀ p ∈ g.outgoing (g.block id) (g.exitOf (g.block id) (popped.entryOf id)),
        p.1 < g.blocks.size ∧ p.2.Clean := fun p hp =>
      ⟨hclosed id p.1 (FlowGraph.mem_outgoing hp hclean).1, (FlowGraph.mem_outgoing hp hclean).2⟩
    obtain ⟨hsent, harr⟩ := sent_all hopened hout
    refine ⟨⟨hsent.sound, fun j => ?_⟩, hlower.trans hsent.lowered,
      Nat.lt_of_le_of_lt hsent.potential hpotential⟩
    by_cases hj : j = id
    · subst hj
      rcases hsent.lowered.entry j with he | hmemt
      · right
        intro _ k hk
        rw [he, entry_opened_popped h hfacts hqueue] at hk
        have hk' : popped.entryOf j = k := by
          unfold entryOf
          rw [hfact, hk]
          rfl
        rw [hk'] at harr ⊢
        exact harr
      · exact Or.inl hmemt
    · exact settled_others h hfacts hqueue hsent.lowered hj
  · rw [if_neg hreal]
    refine ⟨⟨hopened, fun j => ?_⟩, hlower, hpotential⟩
    by_cases hj : j = id
    · subst hj
      exact Or.inr fun hr => absurd hr hreal
    · exact settled_others h hfacts hqueue (.refl _) hj

end Visit

theorem invariant_iterate (hclosed : g.Closed) {fuel : Nat} (h : Invariant g s)
    (hfuel : potential g s ≤ fuel) :
    Invariant g (iterate g fuel s) ∧ (iterate g fuel s).queue = [] ∧
      ∀ j k, (s.fact j).entry = some k →
        ∃ l, ((iterate g fuel s).fact j).entry = some l ∧ l.le k := by
  induction fuel generalizing s with
  | zero =>
    have hlength : s.queue.length ≤ potential g s := Nat.le_add_left _ _
    have hnil : s.queue.length = 0 := by omega
    exact ⟨h, List.eq_nil_of_length_eq_zero hnil, fun j k hk => ⟨k, hk, k.le_refl⟩⟩
  | succ fuel ih =>
    have hnext : ∀ {id popped}, popped.facts = s.facts → s.queue = id :: popped.queue →
        Invariant g (iterate g fuel (visit g popped id)) ∧
          (iterate g fuel (visit g popped id)).queue = [] ∧
          ∀ j k, (s.fact j).entry = some k →
            ∃ l, ((iterate g fuel (visit g popped id)).fact j).entry = some l ∧ l.le k := by
      intro id popped hfacts hqueue
      obtain ⟨hinv, hlow, hless⟩ := invariant_visit h hfacts (.of_eq hqueue) hclosed
      obtain ⟨hinv', hnil, hle⟩ := ih hinv (by omega)
      refine ⟨hinv', hnil, fun j k hk => ?_⟩
      obtain ⟨l, hl, hlk⟩ := hlow.le j k (by rw [fact, hfacts]; exact hk)
      obtain ⟨m, hm, hml⟩ := hle j l hl
      exact ⟨m, hm, Known.le_trans hml hlk⟩
    unfold iterate
    cases hfront : s.front with
    | cons id rest => exact hnext rfl (by rw [queue, hfront]; rfl)
    | nil =>
      cases hback : s.back.reverse with
      | cons id rest =>
        exact hnext rfl (by rw [queue, hfront, hback]; exact (List.append_nil _).symm)
      | nil =>
        exact ⟨h, by rw [queue, hfront, hback]; rfl, fun j k hk => ⟨k, hk, k.le_refl⟩⟩

theorem fact_start {g : FlowGraph} (h : 0 < g.blocks.size) (j : Nat) :
    (start g).fact j =
      if j = FlowGraph.root then { entry := some Known.nothing, waiting := true } else {} := by
  have hsize : FlowGraph.root < (Array.replicate g.blocks.size ({} : BlockFacts)).size := by
    rw [Array.size_replicate]
    exact h
  show (replace (Array.replicate g.blocks.size {}) FlowGraph.root _).getD j {} = _
  rw [getD_replace _ hsize]
  split
  · rfl
  · rw [Array.getD_eq_getD_getElem?, Array.getElem?_replicate]
    split <;> rfl

theorem queue_start {g : FlowGraph} (h : 0 < g.blocks.size) :
    (start g).queue = [FlowGraph.root] := by
  have hne : g.blocks.isEmpty = false := by
    rw [Array.isEmpty_eq_false_iff]
    exact Array.ne_empty_of_size_pos h
  unfold queue start
  simp only [hne]
  rfl

theorem invariant_start {g : FlowGraph} (h : 0 < g.blocks.size) :
    Invariant g (start g) ∧ potential g (start g) ≤ 32 * g.blocks.size := by
  have hentry : ∀ j k, ((start g).fact j).entry = some k →
      k = Known.nothing ∧ j = FlowGraph.root := by
    intro j k hk
    rw [fact_start h] at hk
    split at hk
    next e => exact ⟨(Option.some.inj hk).symm, e⟩
    next => cases hk
  refine ⟨⟨⟨?_, ?_, ?_, ?_⟩, ?_⟩, ?_⟩
  · exact (Array.size_setIfInBounds).trans Array.size_replicate
  · intro j hj
    rw [queue_start h, List.mem_singleton] at hj
    rw [hj]
    exact h
  · intro j hj
    rw [fact_start h] at hj
    rw [queue_start h, List.mem_singleton]
    split at hj
    next e => exact e
    next => cases hj
  · intro j k hk
    rw [(hentry j k hk).1]
    exact Known.clean_nothing
  · intro j
    by_cases hj : j = FlowGraph.root
    · rw [queue_start h, List.mem_singleton]
      exact Or.inl hj
    · exact Or.inr fun _ k hk => absurd (hentry j k hk).2 hj
  · unfold potential
    have hsum : ∑ j ∈ Finset.range g.blocks.size, weight ((start g).fact j).entry <
        ∑ _j ∈ Finset.range g.blocks.size, 32 := by
      apply Finset.sum_lt_sum
      · intro j _
        rw [fact_start h]
        split
        · exact Nat.le_of_lt Known.clean_nothing.card_filled_lt
        · exact Nat.le_refl _
      · refine ⟨FlowGraph.root, Finset.mem_range.mpr h, ?_⟩
        rw [fact_start h, if_pos rfl]
        exact Known.clean_nothing.card_filled_lt
    rw [Finset.sum_const_nat fun _ _ => rfl, Finset.card_range] at hsum
    rw [queue_start h, List.length_singleton]
    omega

end Solution

namespace FlowGraph

variable {g : FlowGraph}

def knownAt (g : FlowGraph) (id : Nat) : Option Known :=
  (g.constants.fact id).entry

theorem entryOf_of_knownAt {id : Nat} {k : Known} (h : g.knownAt id = some k) :
    g.constants.entryOf id = k := by
  unfold Solution.entryOf
  unfold knownAt at h
  rw [h]
  rfl

theorem knownAt_root (hclosed : g.Closed) (h : 0 < g.blocks.size) :
    ∃ k, g.knownAt root = some k ∧ k.le Known.nothing := by
  obtain ⟨hinv, hfuel⟩ := Solution.invariant_start h
  refine (Solution.invariant_iterate hclosed hinv hfuel).2.2 root Known.nothing ?_
  rw [Solution.fact_start h, if_pos rfl]

theorem knownAt_outgoing (hclosed : g.Closed) (h : 0 < g.blocks.size) {id : Nat} {k : Known}
    (hreal : (g.block id).isReal = true) (hk : g.knownAt id = some k) {p : Nat × Known}
    (hp : p ∈ g.outgoing (g.block id) (g.exitOf (g.block id) k)) :
    ∃ l, g.knownAt p.1 = some l ∧ l.le p.2 := by
  obtain ⟨hstart, hfuel⟩ := Solution.invariant_start h
  obtain ⟨hinv, hnil, -⟩ := Solution.invariant_iterate hclosed hstart hfuel
  rcases hinv.settled id with hmem | hset
  · rw [hnil] at hmem
    exact absurd hmem List.not_mem_nil
  · exact hset hreal k hk p hp

end FlowGraph

end R3000
