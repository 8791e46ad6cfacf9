import R3000.Proofs.Constants.Fixpoint

/-!
# The known registers of a graph are its greatest solution

`FlowGraph.Solves` states the equations of a graph for any knowledge on entry to its blocks.  Who
knows more at a block's entry knows more at its exit and sends more (`Known.afterAll_mono`,
`FlowGraph.exists_outgoing_le`), so no visit ever takes an entry below a solution.  This does not
depend on which waiting block is visited next: every order of visits (`Solution.Scheduled`) comes to
an end, and all ends are the same.
-/

namespace R3000

/-! ## More knowledge stays more -/

namespace Known

variable {k l m : Known}

theorem le_meet (hl : k.le l) (hm : k.le m) : k.le (l.meet m) := by
  intro r v h
  rw [get_meet, hl r v h, hm r v h, if_pos rfl]

theorem eq_of_le (hk : k.Clean) (hl : l.Clean) (h : k.le l) (h' : l.le k) : k = l := by
  obtain ⟨cells⟩ := k
  obtain ⟨cells'⟩ := l
  refine congrArg Known.mk (Vector.ext fun n hn => ?_)
  by_cases h0 : n = 0
  · subst h0
    exact Eq.trans (b := none) hk hl.symm
  · have hget : ∀ k : Known, k.get ⟨n, hn⟩ = k.cells.get ⟨n, hn⟩ := fun k => if_neg h0
    have heq : (Known.mk cells).get ⟨n, hn⟩ = (Known.mk cells').get ⟨n, hn⟩ :=
      Option.ext fun v => ⟨h ⟨n, hn⟩ v, h' ⟨n, hn⟩ v⟩
    rwa [hget, hget] at heq

theorem knows_mono (h : k.le l) {r : Reg} (hr : k.knows r = true) : l.knows r = true := by
  rw [knows, h r _ (get_of_knows hr)]
  rfl

theorem covers_mono (h : k.le l) {regs : Word} (hk : k.covers regs = true) :
    l.covers regs = true := by
  refine List.all_eq_true.mpr fun r _ => ?_
  cases hr : Word.any regs (Reg.mask r) with
  | false => rfl
  | true => exact knows_mono h (knows_of_covers hk hr)

theorem compute?_mono (h : k.le l) {i : Instr} {v : Word} (hv : k.compute? i = some v) :
    l.compute? i = some v := by
  unfold compute? at hv ⊢
  by_cases hc : (i.has .computable && k.covers i.reads) = true
  · rw [if_pos hc] at hv
    obtain ⟨hcomp, hcov⟩ := Bool.and_eq_true_iff.mp hc
    rw [if_pos (Bool.and_eq_true_iff.mpr ⟨hcomp, covers_mono h hcov⟩), ← hv]
    apply Instr.evaluate_congr
    rintro r (hr | hr)
    · rw [value_of_get (get_zero l hr), value_of_get (get_zero k hr)]
    · exact value_of_get (h r _ (get_of_knows (knows_of_covers hcov hr)))
  · rw [if_neg hc] at hv
    exact absurd hv.symm (Option.some_ne_none v)

theorem set_mono (h : k.le l) (r : Reg) (v : Word) : (k.set r v).le (l.set r v) := by
  intro q u hu
  rw [get_set] at hu ⊢
  split
  next hq => rwa [if_pos hq] at hu
  next hq =>
    rw [if_neg hq] at hu
    exact h q u hu

theorem forget_le (k : Known) (regs : Word) : (k.forget regs).le k := by
  intro r v h
  rw [get_forget] at h
  split at h
  · exact absurd h.symm (Option.some_ne_none v)
  · exact h

theorem forget_mono (h : k.le l) (regs : Word) : (k.forget regs).le (l.forget regs) := by
  intro r v hv
  rw [get_forget] at hv ⊢
  split at hv
  · exact absurd hv.symm (Option.some_ne_none v)
  next hr =>
    rw [if_neg hr]
    exact h r v hv

theorem forget_le_set (h : k.le l) {regs : Word} {r : Reg} (hr : Word.any regs r.mask = true)
    (v : Word) : (k.forget regs).le (l.set r v) := by
  intro q u hu
  rw [get_set]
  split
  next hq =>
    rw [get_forget, hq.1, if_pos ⟨hq.2, hr⟩] at hu
    exact absurd hu.symm (Option.some_ne_none u)
  · exact h q u (forget_le k regs q u hu)

/-- The instruction may be predicted from more knowledge and not from less.  Then less knowledge
has lost the register that more knowledge has set. -/
theorem after_mono (h : k.le l) (i : Instr) : (k.after i).le (l.after i) := by
  unfold after
  cases hk : k.compute? i with
  | some v =>
    rw [compute?_mono h hk]
    cases i.dest with
    | some r => exact set_mono h r v
    | none => exact h
  | none =>
    cases hl : l.compute? i with
    | none => exact forget_mono h i.writes
    | some v =>
      cases hd : i.dest with
      | none => exact le_trans (forget_le k i.writes) h
      | some r =>
        have hcomp : i.has .computable = true := by
          unfold compute? at hl
          split at hl
          next hc => exact (Bool.and_eq_true_iff.mp hc).1
          next => cases hl
        obtain ⟨hc, -, -, hlink⟩ := Op.plain_of_computable hcomp
        exact forget_le_set h (by rw [Instr.any_writes hc hlink, hd, decide_eq_true rfl]) v

theorem afterAll_mono (h : k.le l) (is : List Instr) : (k.afterAll is).le (l.afterAll is) := by
  induction is generalizing k l with
  | nil => exact h
  | cons i is ih => exact ih (after_mono h i)

end Known

/-! ## Edges and equations -/

namespace FlowGraph

variable {g : FlowGraph} {b : Block}

theorem exists_outgoing_le {k l : Known} (h : k.le l) {p : Nat × Known}
    (hp : p ∈ g.outgoing b l) : ∃ m, (p.1, m) ∈ g.outgoing b k ∧ m.le p.2 := by
  unfold outgoing at hp ⊢
  cases hb : b.branch with
  | none =>
    simp only [hb, Option.mem_toList, Option.map_eq_some_iff] at hp ⊢
    obtain ⟨a, ha, rfl⟩ := hp
    exact ⟨k, ⟨a, ha, rfl⟩, h⟩
  | some branch =>
    simp only [hb] at hp ⊢
    by_cases hlink : (g.instr branch).has .link = true
    · rw [if_pos hlink] at hp ⊢
      exact ⟨p.2, hp, p.2.le_refl⟩
    · rw [if_neg hlink] at hp ⊢
      simp only [List.mem_append, Option.mem_toList, Option.map_eq_some_iff] at hp ⊢
      rcases hp with ⟨a, ha, rfl⟩ | ⟨a, ha, rfl⟩
      · exact ⟨k, Or.inl ⟨a, ha, rfl⟩, h⟩
      · refine ⟨_, Or.inr ⟨a, ha, rfl⟩, ?_⟩
        split
        · exact h
        · exact Known.after_mono h _

def Forked (g : FlowGraph) : Prop :=
  ∀ id, (g.block id).branch = none → (g.block id).branchOut = none

theorem Forked.exists_outgoing (h : g.Forked) {id j : Nat}
    (hj : (g.block id).flowOut = some j ∨ (g.block id).branchOut = some j) (exit : Known) :
    ∃ k, (j, k) ∈ g.outgoing (g.block id) exit := by
  unfold outgoing
  cases hb : (g.block id).branch with
  | none =>
    rw [h id hb] at hj
    rcases hj with hj | hj
    · exact ⟨exit, by simp [hj]⟩
    · cases hj
  | some branch =>
    simp only
    split <;> rcases hj with hj | hj
    · exact ⟨.nothing, by simp [hj]⟩
    · exact ⟨.nothing, by simp [hj]⟩
    · exact ⟨exit, by simp [hj]⟩
    · exact ⟨_, List.mem_append_right _ (by rw [hj]; exact List.mem_singleton_self _)⟩

/-- The blocks that the edges of real blocks lead to from the root. -/
inductive Reached (g : FlowGraph) : Nat → Prop
  | root (h : 0 < g.blocks.size) : Reached g root
  | edge {id j : Nat} (h : Reached g id) (hreal : (g.block id).isReal = true)
      (hj : (g.block id).flowOut = some j ∨ (g.block id).branchOut = some j) : Reached g j

/-- The equations for the knowledge on entry to the reached blocks: the root knows only register 0,
and no block knows more than any reached block sends it. -/
structure Solves (g : FlowGraph) (entry : Nat → Known) : Prop where
  root : (entry root).le Known.nothing
  edge : ∀ {id}, g.Reached id → (g.block id).isReal = true →
    ∀ p ∈ g.outgoing (g.block id) (g.exitOf (g.block id) (entry id)), (entry p.1).le p.2

/-- No solution knows more than `k` at a reached block. -/
def Bounds (g : FlowGraph) (id : Nat) (k : Known) : Prop :=
  g.Reached id ∧ ∀ entry, g.Solves entry → (entry id).le k

theorem Bounds.meet {id : Nat} {k l : Known} (h : g.Bounds id k) (h' : g.Bounds id l) :
    g.Bounds id (k.meet l) :=
  ⟨h.1, fun entry he => Known.le_meet (h.2 entry he) (h'.2 entry he)⟩

theorem Bounds.outgoing {id : Nat} {k : Known} (h : g.Bounds id k) (hclean : k.Clean)
    (hreal : (g.block id).isReal = true) {p : Nat × Known}
    (hp : p ∈ g.outgoing (g.block id) (g.exitOf (g.block id) k)) : g.Bounds p.1 p.2 := by
  refine ⟨.edge h.1 hreal (mem_outgoing hp (hclean.afterAll _)).1, fun entry he => ?_⟩
  obtain ⟨m, hm, hle⟩ := exists_outgoing_le (Known.afterAll_mono (h.2 entry he) _) hp
  exact Known.le_trans (he.edge h.1 hreal (p.1, m) hm) hle

end FlowGraph

/-! ## Visits in any order -/

namespace Solution

variable {g : FlowGraph} {s t : Solution} {id : Nat}

def finished (g : FlowGraph) (id : Nat) (entry : Option Known) : BlockFacts :=
  match entry with
  | none => {}
  | some k =>
    { entry := some k
      exit := if (g.block id).isReal then g.exitOf (g.block id) k else Known.nothing
      visited := true }

structure Approaches (g : FlowGraph) (s : Solution) : Prop where
  sound : Sound g s
  bounds : ∀ j k, (s.fact j).entry = some k → g.Bounds j k
  root : 0 < g.blocks.size → ∃ k, (s.fact FlowGraph.root).entry = some k ∧ k.le Known.nothing
  queued : ∀ j ∈ s.queue, ∃ k, (s.fact j).entry = some k
  wrapper : ∀ j, (g.block j).isReal = false → (s.fact j).exit = Known.nothing
  finished : ∀ j, j ∈ s.queue ∨ s.fact j = finished g j (s.fact j).entry

theorem bounds_met {incoming : Known} {entry : Option Known} (hin : g.Bounds id incoming)
    (h : ∀ k, entry = some k → g.Bounds id k) : g.Bounds id (met entry incoming) := by
  cases entry with
  | none => exact hin
  | some old => exact (h old rfl).meet hin

theorem Approaches.send (h : Approaches g s) {incoming : Known} (hid : id < g.blocks.size)
    (hclean : incoming.Clean) (hin : g.Bounds id incoming) : Approaches g (s.send id incoming) := by
  rw [send_eq]
  split
  · exact h
  next hne =>
    have hlt : id < s.facts.size := h.sound.size ▸ hid
    have hqueue := mem_queue_lower incoming (h.sound.waiting id)
    have hlow := lowered_lower h.sound hid incoming
    have hother : ∀ {j}, j ≠ id → (s.lower id incoming).fact j = s.fact j := fun hj => by
      rw [fact_lower hlt, if_neg hj]
    refine ⟨sound_lower h.sound hid hclean, fun j k hk => ?_, fun hpos => ?_, fun j hj => ?_,
      fun j hj => ?_, fun j => ?_⟩
    · by_cases hj : j = id
      · subst hj
        rw [fact_lower hlt, if_pos rfl] at hk
        rw [← Option.some.inj hk]
        exact bounds_met hin (h.bounds j)
      · exact h.bounds j k (by rw [← hother hj]; exact hk)
    · obtain ⟨k, hk, hle⟩ := h.root hpos
      obtain ⟨l, hl, hle'⟩ := hlow.le _ k hk
      exact ⟨l, hl, Known.le_trans hle' hle⟩
    · by_cases hji : j = id
      · rw [fact_lower hlt, if_pos hji]
        exact ⟨_, rfl⟩
      · rw [hother hji]
        exact h.queued j (((hqueue j).mp hj).resolve_right hji)
    · rw [fact_lower hlt]
      split
      next hji => exact h.wrapper id (hji ▸ hj)
      · exact h.wrapper j hj
    · by_cases hji : j = id
      · exact Or.inl ((hqueue j).mpr (Or.inr hji))
      · rw [hother hji]
        exact (h.finished j).imp_left fun hj => (hqueue j).mpr (Or.inl hj)

theorem Approaches.sendAll (h : Approaches g s) {out : List (Nat × Known)}
    (hout : ∀ p ∈ out, p.1 < g.blocks.size ∧ p.2.Clean ∧ g.Bounds p.1 p.2) :
    Approaches g (out.foldl (fun s p => s.send p.1 p.2) s) := by
  induction out generalizing s with
  | nil => exact h
  | cons p out ih =>
    obtain ⟨hid, hclean, hin⟩ := hout p List.mem_cons_self
    exact ih (h.send hid hclean hin) fun q hq => hout q (List.mem_cons_of_mem p hq)

theorem fact_opened (g : FlowGraph) (h : id < s.facts.size) (j : Nat) :
    (opened g s id).fact j =
      if j = id then
        { s.fact id with
          exit :=
            if (g.block id).isReal then g.exitOf (g.block id) (s.entryOf id) else (s.fact id).exit
          visited := true
          waiting := false }
      else s.fact j :=
  getD_replace s.facts h _ j

theorem Approaches.opened {popped : Solution} (h : Approaches g s) (hfacts : popped.facts = s.facts)
    (hqueue : s.queue.Perm (id :: popped.queue)) : Approaches g (opened g popped id) := by
  obtain ⟨hfact, hmem, hlt⟩ := h.sound.of_popped hfacts hqueue
  have hentry : ∀ j, ((Solution.opened g popped id).fact j).entry = (s.fact j).entry := by
    intro j
    rw [entry_opened g hlt, hfact]
  refine ⟨sound_opened h.sound hfacts hqueue, fun j k hk => h.bounds j k (hentry j ▸ hk),
    fun hpos => ?_, fun j hj => ?_, fun j hj => ?_, fun j => ?_⟩
  · rw [hentry]
    exact h.root hpos
  · rw [hentry]
    exact h.queued j ((hmem j).mpr (Or.inr hj))
  · rw [fact_opened g hlt]
    by_cases hji : j = id
    · subst hji
      rw [if_pos rfl, hj, hfact]
      exact h.wrapper j hj
    · rw [if_neg hji, hfact]
      exact h.wrapper j hj
  · by_cases hji : j = id
    · subst hji
      obtain ⟨k, hk⟩ := h.queued j ((hmem j).mpr (Or.inl rfl))
      have hk' : popped.entryOf j = k := by
        rw [entryOf, hfact, hk]
        rfl
      right
      rw [hentry, fact_opened g hlt, if_pos rfl, hk', hfact, hk]
      cases hreal : (g.block j).isReal with
      | true => simp [Solution.finished, hreal, hk]
      | false => simp [Solution.finished, hreal, hk, h.wrapper j hreal]
    · rw [fact_opened g hlt, if_neg hji, hfact]
      exact (h.finished j).imp_left fun hj => ((hmem j).mp hj).resolve_left hji

theorem Approaches.visit (hclosed : g.Closed) {popped : Solution} (h : Approaches g s)
    (hfacts : popped.facts = s.facts) (hqueue : s.queue.Perm (id :: popped.queue)) :
    Approaches g (visit g popped id) := by
  have hopened := h.opened hfacts hqueue
  rw [visit_eq]
  split
  next hreal =>
    obtain ⟨k, hk⟩ := h.queued id (hqueue.mem_iff.mpr List.mem_cons_self)
    have hk' : popped.entryOf id = k := by
      rw [entryOf, fact, hfacts, ← fact, hk]
      rfl
    have hclean : k.Clean := h.sound.clean id k hk
    rw [hk']
    refine hopened.sendAll fun p hp => ?_
    obtain ⟨hj, hp'⟩ := FlowGraph.mem_outgoing hp (hclean.afterAll _)
    exact ⟨hclosed id p.1 hj, hp', (h.bounds id k hk).outgoing hclean hreal hp⟩
  · exact hopened

/-- The solutions that visits lead to, whichever waiting block is visited next. -/
inductive Scheduled (g : FlowGraph) : Solution → Prop
  | start : Scheduled g (start g)
  | visit {s popped : Solution} {id : Nat} (h : Scheduled g s) (hfacts : popped.facts = s.facts)
      (hvisits : popped.visits = s.visits) (hqueue : s.queue.Perm (id :: popped.queue)) :
      Scheduled g (visit g popped id)

theorem visits_visit (g : FlowGraph) (s : Solution) (id : Nat) :
    (visit g s id).visits = s.visits + 1 := by
  have hsend : ∀ (out : List (Nat × Known)) (s : Solution),
      (out.foldl (fun s p => s.send p.1 p.2) s).visits = s.visits := by
    intro out
    induction out with
    | nil => exact fun _ => rfl
    | cons p out ih =>
      intro s
      refine (ih (s.send p.1 p.2)).trans ?_
      rw [send_eq]
      split <;> rfl
  rw [visit_eq]
  split
  · exact hsend _ _
  · rfl

theorem start_of_empty (h : g.blocks.size = 0) :
    (start g).facts = #[] ∧ (start g).queue = [] := by
  have he : g.blocks = #[] := Array.eq_empty_of_size_eq_zero h
  unfold queue start
  rw [he]
  exact ⟨rfl, rfl⟩

theorem fact_of_facts_eq_empty (h : s.facts = #[]) (j : Nat) : s.fact j = {} := by
  rw [fact, h]
  rfl

theorem invariant_start_le (g : FlowGraph) :
    Invariant g (start g) ∧ potential g (start g) ≤ 32 * g.blocks.size := by
  rcases Nat.eq_zero_or_pos g.blocks.size with h | h
  · obtain ⟨hfacts, hqueue⟩ := start_of_empty h
    have hfact := fact_of_facts_eq_empty hfacts
    refine ⟨⟨⟨?_, ?_, ?_, ?_⟩, fun j => Or.inr ?_⟩, ?_⟩
    · rw [hfacts, h]
      rfl
    · rw [hqueue]
      exact nofun
    · intro j hj
      rw [hfact] at hj
      cases hj
    · intro j k hk
      rw [hfact] at hk
      cases hk
    · intro _ k hk
      rw [hfact] at hk
      cases hk
    · rw [potential, hqueue, h]
      exact Nat.le_refl _
  · exact invariant_start h

theorem approaches_start (g : FlowGraph) : Approaches g (start g) := by
  have hsound := (invariant_start_le g).1.sound
  rcases Nat.eq_zero_or_pos g.blocks.size with h | h
  · obtain ⟨hfacts, hqueue⟩ := start_of_empty h
    have hfact := fact_of_facts_eq_empty hfacts
    refine ⟨hsound, fun j k hk => ?_, fun hpos => absurd hpos (by omega), fun j hj => ?_,
      fun j _ => by rw [hfact], fun j => Or.inr (by rw [hfact]; rfl)⟩
    · rw [hfact] at hk
      cases hk
    · rw [hqueue] at hj
      exact absurd hj List.not_mem_nil
  · have hroot : ((start g).fact FlowGraph.root).entry = some Known.nothing := by
      rw [fact_start h, if_pos rfl]
    refine ⟨hsound, fun j k hk => ?_, fun _ => ⟨_, hroot, Known.le_refl _⟩, fun j hj => ?_,
      fun j _ => ?_, fun j => ?_⟩
    · rw [fact_start h] at hk
      split at hk
      next e =>
        rw [e, ← Option.some.inj hk]
        exact ⟨.root h, fun entry he => he.root⟩
      next => cases hk
    · rw [queue_start h, List.mem_singleton] at hj
      exact ⟨_, hj ▸ hroot⟩
    · rw [fact_start h]
      split <;> rfl
    · by_cases hj : j = FlowGraph.root
      · exact Or.inl (by rw [queue_start h, hj]; exact List.mem_singleton_self _)
      · rw [fact_start h, if_neg hj]
        exact Or.inr rfl

namespace Scheduled

theorem spec (hclosed : g.Closed) (h : Scheduled g s) :
    Invariant g s ∧ Approaches g s ∧ s.visits + potential g s ≤ 32 * g.blocks.size := by
  induction h with
  | start =>
    obtain ⟨hinv, hle⟩ := invariant_start_le g
    refine ⟨hinv, approaches_start g, ?_⟩
    rwa [show (Solution.start g).visits = 0 from rfl, Nat.zero_add]
  | @visit s popped id _ hfacts hvisits hqueue ih =>
    obtain ⟨hinv, happ, hle⟩ := ih
    obtain ⟨hinv', -, hless⟩ := invariant_visit hinv hfacts hqueue hclosed
    refine ⟨hinv', happ.visit hclosed hfacts hqueue, ?_⟩
    rw [visits_visit, hvisits]
    omega

theorem iterate (h : Scheduled g s) (fuel : Nat) : Scheduled g (iterate g fuel s) := by
  induction fuel generalizing s with
  | zero => exact h
  | succ fuel ih =>
    unfold Solution.iterate
    cases hfront : s.front with
    | cons id rest =>
      exact ih (h.visit rfl rfl (.of_eq (by rw [queue, hfront]; rfl)))
    | nil =>
      cases hback : s.back.reverse with
      | cons id rest =>
        refine ih (h.visit rfl rfl (.of_eq ?_))
        rw [queue, hfront, hback]
        exact (List.append_nil _).symm
      | nil => exact h

section Finished

variable (hclosed : g.Closed) (hforked : g.Forked) (h : Scheduled g s) (hend : s.queue = [])
include hclosed h hend

variable {j : Nat}

theorem fact_eq_finished (j : Nat) : s.fact j = Solution.finished g j (s.fact j).entry :=
  ((h.spec hclosed).2.1.finished j).resolve_left (by rw [hend]; exact List.not_mem_nil)

theorem arrived {k : Known} (hreal : (g.block id).isReal = true) (hk : (s.fact id).entry = some k) :
    Arrived s (g.outgoing (g.block id) (g.exitOf (g.block id) k)) :=
  ((h.spec hclosed).1.settled id).resolve_left (by rw [hend]; exact List.not_mem_nil) hreal k hk

include hforked

theorem exists_entry (hj : g.Reached j) : ∃ k, (s.fact j).entry = some k := by
  induction hj with
  | root hpos =>
    obtain ⟨k, hk, -⟩ := (h.spec hclosed).2.1.root hpos
    exact ⟨k, hk⟩
  | @edge id j _ hreal hj ih =>
    obtain ⟨k, hk⟩ := ih
    obtain ⟨l, hl⟩ := hforked.exists_outgoing hj (g.exitOf (g.block id) k)
    obtain ⟨m, hm, -⟩ := h.arrived hclosed hend hreal hk _ hl
    exact ⟨m, hm⟩

theorem isSome_entry_iff (j : Nat) : (s.fact j).entry.isSome = true ↔ g.Reached j := by
  constructor
  · intro hsome
    obtain ⟨k, hk⟩ := Option.isSome_iff_exists.mp hsome
    exact ((h.spec hclosed).2.1.bounds j k hk).1
  · intro hj
    exact Option.isSome_iff_exists.mpr (h.exists_entry hclosed hforked hend hj)

theorem entry_eq (hj : g.Reached j) : (s.fact j).entry = some (s.entryOf j) := by
  obtain ⟨k, hk⟩ := h.exists_entry hclosed hforked hend hj
  rw [entryOf, hk]
  rfl

theorem solves : g.Solves s.entryOf := by
  have happ := (h.spec hclosed).2.1
  refine ⟨?_, fun {id} hid hreal p hp => ?_⟩
  · rcases Nat.eq_zero_or_pos g.blocks.size with hempty | hpos
    · have hnone : (s.fact FlowGraph.root).entry = none := by
        rw [fact, Array.getD_eq_getD_getElem?, Array.getElem?_eq_none (by rw [happ.sound.size]; omega)]
        rfl
      rw [entryOf, hnone]
      exact Known.le_refl _
    · obtain ⟨k, hk, hle⟩ := happ.root hpos
      rw [entryOf, hk]
      exact hle
  · obtain ⟨l, hl, hle⟩ :=
      h.arrived hclosed hend hreal (h.entry_eq hclosed hforked hend hid) p hp
    rw [entryOf, hl]
    exact hle

theorem le_entryOf {entry : Nat → Known} (he : g.Solves entry) (hj : g.Reached j) :
    (entry j).le (s.entryOf j) :=
  ((h.spec hclosed).2.1.bounds j _ (h.entry_eq hclosed hforked hend hj)).2 entry he

theorem exit_eq (hj : g.Reached j) (hreal : (g.block j).isReal = true) :
    (s.fact j).exit = g.exitOf (g.block j) (s.entryOf j) := by
  rw [h.fact_eq_finished hclosed hend j, h.entry_eq hclosed hforked hend hj]
  simp [Solution.finished, hreal]

theorem facts_unique (ht : Scheduled g t) (htend : t.queue = []) : s.facts = t.facts := by
  have hs := (h.spec hclosed).2.1.sound
  have ht' := (ht.spec hclosed).2.1.sound
  have hentry : ∀ j, (s.fact j).entry = (t.fact j).entry := by
    intro j
    by_cases hj : g.Reached j
    · have hsome := h.entry_eq hclosed hforked hend hj
      have htsome := ht.entry_eq hclosed hforked htend hj
      rw [hsome, htsome]
      congr 1
      exact Known.eq_of_le (hs.clean j _ hsome) (ht'.clean j _ htsome)
        (ht.le_entryOf hclosed hforked htend (h.solves hclosed hforked hend) hj)
        (h.le_entryOf hclosed hforked hend (ht.solves hclosed hforked htend) hj)
    · have hnone := mt (h.isSome_entry_iff hclosed hforked hend j).mp hj
      have htnone := mt (ht.isSome_entry_iff hclosed hforked htend j).mp hj
      rw [Option.not_isSome_iff_eq_none.mp hnone, Option.not_isSome_iff_eq_none.mp htnone]
  have hfact : ∀ j, s.fact j = t.fact j := by
    intro j
    rw [h.fact_eq_finished hclosed hend j, ht.fact_eq_finished hclosed htend j, hentry j]
  refine Array.ext (hs.size.trans ht'.size.symm) fun j hj hj' => ?_
  have hget := hfact j
  rwa [fact, fact, Array.getD_eq_getD_getElem?, Array.getD_eq_getD_getElem?,
    Array.getElem?_eq_getElem hj, Array.getElem?_eq_getElem hj'] at hget

end Finished

end Scheduled

end Solution

/-! ## Surveyed graphs -/

theorem Survey.forked_graph (s : Survey) (base : Word) : (s.graph base).Forked := by
  intro id hbranch
  by_cases hid : id < s.realCount
  · have hc := connected_block base (List.getElem?_eq_getElem hid)
    rw [hc.branch] at hbranch
    have hnone := hc.branchOut
    rw [Linker.branchTarget, hbranch] at hnone
    exact hnone
  · exact (block_of_realCount_le base (Nat.le_of_not_lt hid)).2.2.1

theorem FlowGraph.scheduled_constants {g : FlowGraph} (hclosed : g.Closed) :
    Solution.Scheduled g g.constants ∧ g.constants.queue = [] := by
  obtain ⟨hinv, hfuel⟩ := Solution.invariant_start_le g
  exact ⟨Solution.Scheduled.start.iterate _, (Solution.invariant_iterate hclosed hinv hfuel).2.1⟩

/-- The known registers of a surveyed graph are the greatest solution of its equations, with the
exits that follow from the entries, and every order of visits comes to them. -/
theorem Survey.constants_greatest (s : Survey) (base : Word) :
    let g := s.graph base
    (∀ id, (g.constants.fact id).entry.isSome = true ↔ g.Reached id) ∧
      g.Solves g.constants.entryOf ∧
      (∀ id, g.Reached id → (g.block id).isReal = true →
        (g.constants.fact id).exit = g.exitOf (g.block id) (g.constants.entryOf id)) ∧
      (∀ entry, g.Solves entry → ∀ id, g.Reached id → (entry id).le (g.constants.entryOf id)) ∧
      ∀ t, Solution.Scheduled g t →
        t.visits ≤ 32 * g.blocks.size ∧ (t.queue = [] → t.facts = g.constants.facts) := by
  intro g
  have hclosed : g.Closed := (s.regular_graph base).closed
  have hforked : g.Forked := s.forked_graph base
  obtain ⟨h, hend⟩ := FlowGraph.scheduled_constants hclosed
  refine ⟨h.isSome_entry_iff hclosed hforked hend, h.solves hclosed hforked hend,
    fun id hid hreal => h.exit_eq hclosed hforked hend hid hreal,
    fun entry he id hid => h.le_entryOf hclosed hforked hend he hid, fun t ht => ⟨?_, ?_⟩⟩
  · have hle := (ht.spec hclosed).2.2
    omega
  · exact fun htend => ht.facts_unique hclosed hforked htend h hend

end R3000
