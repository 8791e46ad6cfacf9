import Mathlib.Data.Set.Card
import Mathlib.Logic.Relation
import R3000.Proofs.Unit.Waiting

/-!
# Waiting work comes to an end

Background work fills the caches of units and drops none (`Registry.Fills`).  A job leaves at most two
new jobs for a unit, and only if it was the one to find the unit's graph.  There are finitely many
addresses, so the work that follows from the calls in a program ends, whatever units call each other
(`Workshop.Drains`).
-/

namespace R3000

theorem Word.finite_set (s : Set Word) : s.Finite := by
  have hinj : Function.Injective fun w : Word => (⟨w.toNat, w.toNat_lt⟩ : Fin (2 ^ 32)) := by
    intro a b h
    exact UInt32.toNat_inj.mp (Fin.mk.inj h)
  exact (Set.finite_univ.preimage hinj.injOn).subset (Set.subset_univ s)

/-! ## Filling caches -/

/-- The unit is the same one, and has lost nothing that can be computed again. -/
structure CodeUnit.Fills (u u' : CodeUnit) : Prop where
  id : u'.id = u.id
  graph : u.graph.isSome = true → u'.graph.isSome = true
  first : u.first.isSome = true → u'.first.isSome = true

namespace CodeUnit

variable {u u' u'' : CodeUnit}

theorem Fills.of_eq (hid : u'.id = u.id) (hg : u'.graph = u.graph) (hf : u'.first = u.first) :
    u.Fills u' :=
  ⟨hid, fun h => hg ▸ h, fun h => hf ▸ h⟩

theorem Fills.trans (h : u.Fills u') (h' : u'.Fills u'') : u.Fills u'' :=
  ⟨h'.id.trans h.id, fun hg => h'.graph (h.graph hg), fun hf => h'.first (h.first hf)⟩

theorem flow_fills (u : CodeUnit) (a : Analyzer) (m : AddressSpace) (reach : Reach) (trusted : Bool)
    (table : List Word) :
    u.Fills (u.flow a m reach trusted table).unit ∧
      (u.flow a m reach trusted table).unit.graph = (u.flow a m reach trusted table).graph := by
  cases hu : u.graph with
  | some g =>
    rw [flow_of_graph a m reach trusted hu]
    exact ⟨.of_eq rfl rfl rfl, hu⟩
  | none =>
    rw [flow_of_none a m reach trusted hu]
    cases (a.analyse m u.base reach trusted).graph with
    | none => exact ⟨.of_eq rfl rfl rfl, hu⟩
    | some g =>
      change u.Fills (u.analysed g table) ∧ (u.analysed g table).graph = some g
      rw [analysed_eq]
      exact ⟨⟨rfl, fun _ => rfl, fun h => h⟩, rfl⟩

theorem fills_installFirst (u : CodeUnit) (exe : Executable) :
    u.Fills (u.installFirst exe).2.firstReady := by
  rw [firstReady_eq, installFirst_eq]
  exact ⟨rfl, fun h => h, fun _ => rfl⟩

theorem fills_secondReady (u : CodeUnit) (exe : Executable) : u.Fills (u.secondReady exe).1 := by
  rw [secondReady_eq]
  exact .of_eq rfl rfl rfl

end CodeUnit

namespace Registry

variable {r r' r'' : Registry} {u v : CodeUnit} {base : Word}

def Filed (r : Registry) : Prop :=
  ∀ base u, r.find? base = some u → u.base = base

theorem All.filed {P : CodeUnit → Prop} (h : r.All P) : r.Filed :=
  fun base u hu => (h base u hu).1

def Knows (r : Registry) (base : Word) : Prop :=
  ∃ u, r.find? base = some u ∧ u.graph.isSome = true

theorem knows_iff (h : r.find? base = some u) : r.Knows base ↔ u.graph.isSome = true := by
  unfold Knows
  rw [h]
  simp

/-- No unit is lost or used, and none loses its caches. -/
structure Fills (r r' : Registry) : Prop where
  filed : r'.Filed
  units : ∀ base u, r.find? base = some u → ∃ u', r'.find? base = some u' ∧ u.Fills u'
  recent : r'.recent = r.recent
  capacity : r'.capacity = r.capacity

namespace Fills

theorem refl (h : r.Filed) : r.Fills r :=
  ⟨h, fun _ u hu => ⟨u, hu, .of_eq rfl rfl rfl⟩, rfl, rfl⟩

theorem trans (h : r.Fills r') (h' : r'.Fills r'') : r.Fills r'' := by
  refine ⟨h'.filed, fun base u hu => ?_, h'.recent.trans h.recent, h'.capacity.trans h.capacity⟩
  obtain ⟨u', hu', hfills⟩ := h.units base u hu
  obtain ⟨u'', hu'', hfills'⟩ := h'.units base u' hu'
  exact ⟨u'', hu'', hfills.trans hfills'⟩

theorem knows (h : r.Fills r') (hk : r.Knows base) : r'.Knows base := by
  obtain ⟨u, hu, hg⟩ := hk
  obtain ⟨u', hu', hfills⟩ := h.units base u hu
  exact ⟨u', hu', hfills.graph hg⟩

end Fills

theorem fills_put (hr : r.Filed) (hfind : r.find? base = some u) (h : u.Fills v) :
    r.Fills (r.put v) := by
  have hbase : v.base = base := (congrArg UnitId.base h.id).trans (hr base u hfind)
  refine ⟨fun b x hx => ?_, fun b x hx => ?_, rfl, rfl⟩
  · rw [find?_put_ite] at hx
    split at hx
    next hb =>
      cases hx
      exact hb
    next => exact hr b x hx
  · rw [find?_put_ite]
    by_cases hb : v.base = b
    · rw [if_pos hb]
      rw [← hb, hbase, hfind] at hx
      cases hx
      exact ⟨v, rfl, h⟩
    · rw [if_neg hb]
      exact ⟨x, hx, .of_eq rfl rfl rfl⟩

theorem fills_modify (hr : r.Filed) {f : CodeUnit → CodeUnit} (h : ∀ u : CodeUnit, u.Fills (f u)) :
    r.Fills (r.modify base f) := by
  refine ⟨fun b x hx => ?_, fun b x hx => ?_, rfl, rfl⟩
  · rw [find?_modify_ite] at hx
    split at hx
    next hb =>
      obtain ⟨y, hy, rfl⟩ := Option.map_eq_some_iff.mp hx
      exact (congrArg UnitId.base (h y).id).trans (hr b y hy)
    next => exact hr b x hx
  · rw [find?_modify_ite, hx]
    split
    · exact ⟨f x, rfl, h x⟩
    · exact ⟨x, rfl, .of_eq rfl rfl rfl⟩

theorem fills_getOrCreate (hr : r.Filed) (base : Word) : r.Fills (r.getOrCreate base).2 := by
  unfold getOrCreate
  cases hfind : r.find? base with
  | some u => exact .refl hr
  | none =>
    refine ⟨fun b x hx => ?_, fun b x hx => ?_, rfl, rfl⟩
    · dsimp only at hx
      rw [find?_put_ite] at hx
      split at hx
      next hb =>
        cases hx
        exact hb
      next => exact hr b x hx
    · have hne : (CodeUnit.create base r.generation r.threshold).base ≠ b := by
        rintro rfl
        exact nomatch hfind.symm.trans hx
      refine ⟨x, ?_, .of_eq rfl rfl rfl⟩
      dsimp only
      rw [find?_put_ite, if_neg hne]
      exact hx

theorem knows_getOrCreate (r : Registry) (base b : Word) :
    (r.getOrCreate base).2.Knows b ↔ r.Knows b := by
  unfold getOrCreate
  cases hfind : r.find? base with
  | some u => rfl
  | none =>
    dsimp only
    unfold Knows
    rw [find?_put_ite]
    split
    next hb =>
      change base = b at hb
      subst hb
      rw [hfind]
      refine ⟨?_, ?_⟩
      · rintro ⟨u, hu, hg⟩
        cases hu
        cases hg
      · rintro ⟨u, hu, -⟩
        cases hu
    next => rfl

theorem find?_getOrCreate (r : Registry) (base : Word) :
    (r.getOrCreate base).2.find? base = some (r.getOrCreate base).1 := by
  unfold getOrCreate
  cases hfind : r.find? base with
  | some u => exact hfind
  | none =>
    dsimp only
    rw [find?_put_ite]
    exact if_pos rfl

end Registry

namespace Queues

variable {q q' : Queues} {base : Word}

structure Distinct (q : Queues) : Prop where
  links : q.links.Nodup
  first : q.first.Nodup
  second : q.second.Nodup

/-- One unit is put into a queue or taken out of it. -/
inductive Change : Queues → Queues → Prop
  | addLinks (q : Queues) (base : Word) (urgent : Bool) : Change q (q.addLinks base urgent)
  | addFirst (q : Queues) (base : Word) : Change q (q.addFirst base)
  | addSecond (q : Queues) (base : Word) : Change q (q.addSecond base)
  | pop {q rest : Queues} {job : Job} (h : q.pop = some (job, rest)) : Change q rest

/-- What the next job leaves, and which queues are empty when it is taken. -/
theorem pop_cases {rest : Queues} {job : Job} (h : q.pop = some (job, rest)) :
    (∃ base, job = .followLinks base ∧ q.links = base :: rest.links ∧ rest.first = q.first ∧
        rest.second = q.second) ∨
      (∃ base, job = .compileFirst base ∧ q.links = [] ∧ rest.links = [] ∧
        q.first = base :: rest.first ∧ rest.second = q.second) ∨
      ∃ base, job = .compileSecond base ∧ q.links = [] ∧ rest.links = [] ∧
        q.first = [] ∧ rest.first = [] ∧ q.second = base :: rest.second := by
  unfold pop at h
  split at h
  next base links hlinks =>
    cases h
    exact .inl ⟨base, rfl, hlinks, rfl, rfl⟩
  next base first hlinks hfirst =>
    cases h
    exact .inr (.inl ⟨base, rfl, hlinks, hlinks, hfirst, rfl⟩)
  next base second hlinks hfirst hsecond =>
    cases h
    exact .inr (.inr ⟨base, rfl, hlinks, hlinks, hfirst, hfirst, hsecond⟩)
  next => cases h

theorem size_of_pop {rest : Queues} {job : Job} (h : q.pop = some (job, rest)) :
    q.size = rest.size + 1 := by
  unfold size
  rcases pop_cases h with ⟨base, -, hl, hf, hs⟩ | ⟨base, -, hl, hl', hf, hs⟩ |
    ⟨base, -, hl, hl', hf, hf', hs⟩
  · rw [hl, hf, hs, List.length_cons]
    omega
  · rw [hl, hl', hf, hs, List.length_cons]
    omega
  · rw [hl, hl', hf, hf', hs, List.length_cons]
    omega

theorem pop_eq_none_iff : q.pop = none ↔ q.size = 0 := by
  constructor
  · intro h
    unfold pop at h
    split at h
    · cases h
    · cases h
    · cases h
    next hlinks hfirst hsecond =>
      unfold size
      rw [hlinks, hfirst, hsecond]
      rfl
  · intro h
    cases hpop : q.pop with
    | none => rfl
    | some next =>
      have hsize := size_of_pop hpop
      omega

theorem length_enqueue (queue : List Word) (base : Word) :
    (enqueue queue base).length ≤ queue.length + 1 := by
  unfold enqueue
  split
  · omega
  · simp

theorem size_addFirst (q : Queues) (base : Word) : (q.addFirst base).size ≤ q.size + 1 := by
  unfold addFirst
  split
  · omega
  · have hlength := length_enqueue q.first base
    unfold size
    dsimp only
    omega

theorem size_addLinks (q : Queues) (base : Word) (urgent : Bool) :
    (q.addLinks base urgent).size ≤ q.size + 1 := by
  unfold addLinks
  split
  · omega
  · unfold size
    dsimp only
    split
    · rw [List.length_cons]
      omega
    · rw [List.length_append, List.length_singleton]
      omega

theorem Distinct.change (h : q.Distinct) (hc : Change q q') : q'.Distinct := by
  cases hc with
  | addLinks base urgent =>
    unfold addLinks
    split
    · exact h
    next hnew =>
      have hmem : base ∉ q.links := fun hmem => hnew (by simp [hmem])
      refine ⟨?_, h.first, h.second⟩
      dsimp only
      split
      · exact List.nodup_cons.mpr ⟨hmem, h.links⟩
      · rw [← List.concat_eq_append]
        exact h.links.concat hmem
  | addFirst base =>
    unfold addFirst
    split
    · exact h
    · exact ⟨h.links, nodup_enqueue h.first base, h.second⟩
  | addSecond base =>
    unfold addSecond
    split
    · exact h
    · exact ⟨h.links, h.first, nodup_enqueue h.second base⟩
  | pop hpop =>
    rcases pop_cases hpop with ⟨base, -, hl, hf, hs⟩ | ⟨base, -, hl, hl', hf, hs⟩ |
      ⟨base, -, hl, hl', hf, hf', hs⟩
    · exact ⟨(List.nodup_cons.mp (hl ▸ h.links)).2, hf ▸ h.first, hs ▸ h.second⟩
    · exact ⟨hl' ▸ List.nodup_nil, (List.nodup_cons.mp (hf ▸ h.first)).2, hs ▸ h.second⟩
    · exact ⟨hl' ▸ List.nodup_nil, hf' ▸ List.nodup_nil, (List.nodup_cons.mp (hs ▸ h.second)).2⟩

theorem Distinct.changes (h : q.Distinct) (hc : Relation.ReflTransGen Change q q') : q'.Distinct := by
  induction hc with
  | refl => exact h
  | tail _ hchange ih => exact ih.change hchange

end Queues

/-! ## The account of a drain -/

namespace Workshop

variable {w w' w'' : Workshop} {m : AddressSpace}

/-- The addresses at which flow information has come to be cached. -/
def gained (w w' : Workshop) : Set Word :=
  { base | w'.registry.Knows base ∧ ¬ w.registry.Knows base }

/-- Some jobs have been done.  Each of them, and each that is waiting now, was waiting before or
belongs to a unit whose flow information has come to be cached, which has two of them at most. -/
structure Drains (jobs : Nat) (w w' : Workshop) : Prop where
  fills : w.registry.Fills w'.registry
  changes : Relation.ReflTransGen Queues.Change w.queues w'.queues
  account : jobs + w'.queues.size ≤ w.queues.size + 2 * (w.gained w').ncard

namespace Drains

theorem of_queues (h : w.registry.Fills w'.registry) (hq : w'.queues = w.queues) : w.Drains 0 w' := by
  refine ⟨h, hq ▸ .refl, ?_⟩
  rw [hq]
  omega

theorem trans {jobs jobs' : Nat} (h : w.Drains jobs w') (h' : w'.Drains jobs' w'') :
    w.Drains (jobs + jobs') w'' := by
  refine ⟨h.fills.trans h'.fills, h.changes.trans h'.changes, ?_⟩
  have hsplit : w.gained w' ∪ w'.gained w'' ⊆ w.gained w'' := by
    rintro base (⟨hknown, hnew⟩ | ⟨hknown, hnew⟩)
    · exact ⟨h'.fills.knows hknown, hnew⟩
    · exact ⟨hknown, fun hold => hnew (h.fills.knows hold)⟩
  have hdisjoint : Disjoint (w.gained w') (w'.gained w'') :=
    Set.disjoint_left.mpr fun base hbefore hafter => hafter.2 hbefore.1
  have hcount := Set.ncard_le_ncard hsplit (Word.finite_set _)
  rw [Set.ncard_union_eq hdisjoint (Word.finite_set _) (Word.finite_set _)] at hcount
  have haccount := h.account
  have haccount' := h'.account
  omega

/-- The unit at an address has come to be known, so it may be waiting twice. -/
theorem of_gained (h : w.Drains 0 w') (hq : w'.queues = w.queues) {base : Word}
    (hgained : base ∈ w.gained w') {q : Queues}
    (hchanges : Relation.ReflTransGen Queues.Change w'.queues q) (hsize : q.size ≤ w'.queues.size + 2) :
    w.Drains 0 { w' with queues := q } := by
  refine ⟨h.fills, h.changes.trans hchanges, ?_⟩
  have hpos : 0 < (w.gained w').ncard :=
    (Set.ncard_pos (Word.finite_set _)).mpr ⟨base, hgained⟩
  change 0 + q.size ≤ w.queues.size + 2 * (w.gained w').ncard
  rw [hq] at hsize
  omega

end Drains

/-! ## Work -/

theorem fills_flow (hw : w.registry.Filed) (base : Word) (trusted : Bool) :
    w.registry.Fills (w.flow m base trusted).shop.registry ∧
      (w.flow m base trusted).shop.queues = w.queues ∧
      ∀ g, (w.flow m base trusted).result = .ok g →
        (w.flow m base trusted).shop.registry.Knows base := by
  cases hfind : w.registry.find? base with
  | none =>
    rw [flow_of_none m trusted hfind]
    exact ⟨.refl hw, rfl, fun _ h => by cases h⟩
  | some u =>
    obtain ⟨stats, result, hflow, hresult⟩ := exists_flow m trusted hfind
    obtain ⟨hfills, hgraph⟩ := u.flow_fills w.analyzer m w.reach trusted w.breakpoints
    rw [hflow]
    refine ⟨Registry.fills_put hw hfind hfills, rfl, fun g hg => ?_⟩
    have hbase : (u.flow w.analyzer m w.reach trusted w.breakpoints).unit.base = base :=
      (congrArg UnitId.base hfills.id).trans (hw base u hfind)
    refine ⟨_, by rw [Registry.find?_put_ite, if_pos hbase], ?_⟩
    rw [hgraph, (hresult g).mp hg]
    rfl

theorem building_fills (w : Workshop) :
    Building (fun w' _ => w.registry.Fills w'.registry ∧ w'.queues = w.queues) (fun _ _ _ => True)
      fun _ _ _ _ => True where
  flow base trusted h := by
    obtain ⟨hfills, hqueues, -⟩ := fills_flow h.1.filed base trusted
    exact ⟨⟨h.1.trans hfills, hqueues.trans h.2⟩, fun _ _ => trivial⟩
  generate _ _ h _ _ := ⟨h, trivial⟩
  count _ h := h
  installFirst {_ _ _ exe} h _ :=
    ⟨h.1.trans (Registry.fills_modify h.1.filed fun u => u.fills_installFirst exe), h.2⟩

theorem fills_compileFirst (hw : w.registry.Filed) (base : Word) :
    w.registry.Fills (w.compileFirst m base).shop.registry ∧
      (w.compileFirst m base).shop.queues = w.queues :=
  (building_fills w).compileFirst ⟨.refl hw, rfl⟩ base

theorem fills_compileSecond (hw : w.registry.Filed) (base : Word) :
    w.registry.Fills (w.compileSecond m base).shop.registry ∧
      (w.compileSecond m base).shop.queues = w.queues :=
  (building_fills w).compileSecond (fun {_ _ _ exe} h _ _ =>
    ⟨h.1.trans (Registry.fills_modify h.1.filed fun u => u.fills_secondReady exe), h.2⟩)
    ⟨.refl hw, rfl⟩ base

theorem drains_followCallee (hw : w.registry.Filed) (target : Word) :
    w.Drains 0 (w.followCallee m target).shop := by
  unfold followCallee
  split
  · exact .of_queues (.refl hw) rfl
  next u w' hunit =>
    obtain ⟨rfl, rfl⟩ : (w.unitAt target).1 = u ∧ (w.unitAt target).2 = w' := by
      unfold unitFor at hunit
      split at hunit
      · cases hunit
        exact ⟨rfl, rfl⟩
      · cases hunit
    have hat : w.registry.Fills (w.unitAt target).2.registry :=
      Registry.fills_getOrCreate hw target
    split
    · exact .of_queues hat rfl
    next hunknown =>
      have hnew : ¬ w.registry.Knows target := by
        rw [← Registry.knows_getOrCreate w.registry target,
          Registry.knows_iff (w.registry.find?_getOrCreate target)]
        exact hunknown
      obtain ⟨hfills, hqueues, hknows⟩ := fills_flow (m := m) hat.filed target false
      have hqueues' : ((w.unitAt target).2.flow m target false).shop.queues = w.queues := hqueues
      dsimp only
      generalize (w.unitAt target).2.flow m target false = flowed at hfills hqueues' hknows ⊢
      have hflowed : w.Drains 0 flowed.shop := .of_queues (hat.trans hfills) hqueues'
      cases hresult : flowed.result with
      | error e => exact hflowed
      | ok g =>
        have hgained : target ∈ w.gained flowed.shop := ⟨hknows g hresult, hnew⟩
        dsimp only
        split
        · have hfirst := flowed.shop.queues.size_addFirst target
          have hlinks := (flowed.shop.queues.addFirst target).size_addLinks target false
          exact hflowed.of_gained hqueues' hgained
            (.tail (.single (.addFirst _ target)) (.addLinks _ target false)) (by omega)
        · have hlinks := flowed.shop.queues.size_addLinks target false
          exact hflowed.of_gained hqueues' hgained (.single (.addLinks _ target false)) (by omega)

theorem drains_followLinks (hw : w.registry.Filed) (base : Word) :
    w.Drains 0 (w.followLinks m base).shop := by
  obtain ⟨hfills, hqueues, -⟩ := fills_flow (m := m) hw base false
  unfold followLinks
  dsimp only
  generalize w.flow m base false = flowed at hfills hqueues ⊢
  have hflowed : w.Drains 0 flowed.shop := .of_queues hfills hqueues
  cases flowed.result with
  | error e => exact hflowed
  | ok g =>
    dsimp only
    -- Each callee is followed from where the one before it left the workshop.
    have hall : ∀ (targets : List Word) (acc : Worked Unit), w.Drains 0 acc.shop →
        w.Drains 0 (targets.foldl
          (fun (acc : Worked Unit) target => acc.shop.followCallee acc.mem target) acc).shop := by
      intro targets
      induction targets with
      | nil => exact fun _ hacc => hacc
      | cons target targets ih =>
        exact fun acc hacc => ih _ (hacc.trans (drains_followCallee hacc.fills.filed target))
    exact hall _ _ hflowed

theorem drains_perform (hw : w.registry.Filed) (job : Job) : w.Drains 0 (w.perform m job).shop := by
  cases job with
  | followLinks base => exact drains_followLinks hw base
  | compileFirst base =>
    obtain ⟨hfills, hqueues⟩ := fills_compileFirst (m := m) hw base
    exact .of_queues hfills hqueues
  | compileSecond base =>
    obtain ⟨hfills, hqueues⟩ := fills_compileSecond (m := m) hw base
    exact .of_queues hfills hqueues

theorem queues_perform_of_ne (hw : w.registry.Filed) {job : Job}
    (hjob : ∀ base, job ≠ .followLinks base) : (w.perform m job).shop.queues = w.queues := by
  cases job with
  | followLinks base => exact absurd rfl (hjob base)
  | compileFirst base => exact (fills_compileFirst hw base).2
  | compileSecond base => exact (fills_compileSecond hw base).2

theorem drains_pop {job : Job} {rest : Queues} (hw : w.registry.Filed)
    (h : w.queues.pop = some (job, rest)) : w.Drains 1 { w with queues := rest } := by
  refine ⟨.refl hw, .single (.pop h), ?_⟩
  have hsize := Queues.size_of_pop h
  change 1 + rest.size ≤ _
  omega

theorem drains_pump (hw : w.registry.Filed) (m : AddressSpace) (limit : Nat) :
    w.Drains (w.pump m limit).result (w.pump m limit).shop := by
  induction limit generalizing w m with
  | zero => exact .of_queues (.refl hw) rfl
  | succ limit ih =>
    unfold pump
    cases hpop : w.queues.pop with
    | none => exact .of_queues (.refl hw) rfl
    | some next =>
      obtain ⟨job, rest⟩ := next
      dsimp only
      have hdone := (drains_pop hw hpop).trans
        (drains_perform (w := { w with queues := rest }) (m := m) hw job)
      generalize ({ w with queues := rest } : Workshop).perform m job = done at hdone ⊢
      have hpumped := hdone.trans (ih hdone.fills.filed done.mem)
      rwa [Nat.add_comm (1 + 0)] at hpumped

/-! ## The end of a drain -/

theorem pump_add (w : Workshop) (m : AddressSpace) (a b : Nat) :
    w.pump m (a + b) =
      { (w.pump m a).shop.pump (w.pump m a).mem b with
        result := (w.pump m a).result + ((w.pump m a).shop.pump (w.pump m a).mem b).result } := by
  induction a generalizing w m with
  | zero =>
    rw [Nat.zero_add]
    simp only [pump, Nat.zero_add]
  | succ a ih =>
    rw [Nat.add_right_comm]
    cases hpop : w.queues.pop with
    | none =>
      rw [pump_of_idle hpop, pump_of_idle hpop, pump_of_idle hpop]
      rfl
    | some next =>
      obtain ⟨job, rest⟩ := next
      simp only [pump, hpop, ih, Nat.add_right_comm]

def pumpEach (w : Workshop) (m : AddressSpace) : List Nat → Worked Nat
  | [] => { shop := w, mem := m, result := 0 }
  | limit :: limits =>
    let done := w.pump m limit
    let rest := pumpEach done.shop done.mem limits
    { rest with result := done.result + rest.result }

theorem pumpEach_eq (w : Workshop) (m : AddressSpace) (limits : List Nat) :
    w.pumpEach m limits = w.pump m (limits.foldr (· + ·) 0) := by
  induction limits generalizing w m with
  | nil => rfl
  | cons limit limits ih =>
    rw [List.foldr_cons, pump_add, pumpEach]
    dsimp only
    rw [ih]

theorem result_pump_one (hsize : w.queues.size ≠ 0) (m : AddressSpace) :
    (w.pump m 1).result = 1 := by
  cases hpop : w.queues.pop with
  | none => exact absurd (Queues.pop_eq_none_iff.mp hpop) hsize
  | some next =>
    unfold pump
    rw [hpop]
    rfl

theorem result_pump {n : Nat} (h : ∀ k < n, (w.pump m k).shop.queues.size ≠ 0) :
    (w.pump m n).result = n := by
  induction n with
  | zero => rfl
  | succ n ih =>
    have hone := result_pump_one (h n (Nat.lt_succ_self n)) (w.pump m n).mem
    rw [pump_add]
    dsimp only
    rw [ih fun k hk => h k (Nat.lt_succ_of_lt hk), hone]

theorem exists_drained (hw : w.registry.Filed) (m : AddressSpace) :
    ∃ n, (w.pump m n).shop.queues.size = 0 := by
  by_contra hnever
  have hbusy : ∀ n, (w.pump m n).shop.queues.size ≠ 0 := fun n hn => hnever ⟨n, hn⟩
  -- Otherwise more jobs would be done than all the addresses could account for.
  have haccount := (drains_pump hw m (w.queues.size + 2 * (Set.univ : Set Word).ncard + 1)).account
  rw [result_pump fun k _ => hbusy k] at haccount
  have hgained := Set.ncard_le_ncard (Set.subset_univ (w.gained
    (w.pump m (w.queues.size + 2 * (Set.univ : Set Word).ncard + 1)).shop)) (Word.finite_set _)
  omega

/-- Pumping empties the queues, after as many jobs as were waiting and two for each unit whose flow
information has come to be cached, at most.  On the way no unit waits twice in one queue, and nothing
is compiled while links are to be followed. -/
theorem pump_drains {w : Workshop} (hw : w.registry.Filed) (m : AddressSpace) :
    ∃ n, n ≤ w.queues.size + 2 * (w.gained (w.pump m n).shop).ncard ∧
      (w.pump m n).shop.queues.size = 0 ∧
      (∀ k ≤ n, (w.pump m k).result = k) ∧
      (∀ limits : List Nat, n ≤ limits.foldr (· + ·) 0 → w.pumpEach m limits = w.pump m n) ∧
      (∀ k, Relation.ReflTransGen Queues.Change w.queues (w.pump m k).shop.queues) ∧
      (w.queues.Distinct →
        ∀ q, Relation.ReflTransGen Queues.Change w.queues q → q.Distinct) ∧
      ∀ k job rest, (w.pump m k).shop.queues.pop = some (job, rest) →
        (∀ base, job ≠ .followLinks base) →
        rest.links = [] ∧
          (({ (w.pump m k).shop with queues := rest } : Workshop).perform (w.pump m k).mem
            job).shop.queues = rest := by
  classical
  have hdrained := exists_drained hw m
  have hsize := Nat.find_spec hdrained
  have hbusy : ∀ k < Nat.find hdrained, (w.pump m k).shop.queues.size ≠ 0 :=
    fun k hk => Nat.find_min hdrained hk
  generalize Nat.find hdrained = n at hsize hbusy
  have hresult : ∀ k ≤ n, (w.pump m k).result = k :=
    fun k hk => result_pump fun j hj => hbusy j (Nat.lt_of_lt_of_le hj hk)
  refine ⟨n, ?_, hsize, hresult, fun limits hlimits => ?_, fun k => (drains_pump hw m k).changes,
    fun hdistinct q hq => hdistinct.changes hq, fun k job rest hpop hjob => ⟨?_, ?_⟩⟩
  · have haccount := (drains_pump hw m n).account
    rw [hresult n (Nat.le_refl n), hsize] at haccount
    exact haccount
  · obtain ⟨more, hmore⟩ := Nat.exists_eq_add_of_le hlimits
    rw [pumpEach_eq, hmore, pump_add, pump_of_idle (Queues.pop_eq_none_iff.mpr hsize)]
    rfl
  · rcases Queues.pop_cases hpop with ⟨base, rfl, -⟩ | ⟨base, -, -, hlinks, -⟩ |
      ⟨base, -, -, hlinks, -⟩
    · exact absurd rfl (hjob base)
    · exact hlinks
    · exact hlinks
  · exact queues_perform_of_ne (w := { (w.pump m k).shop with queues := rest })
      (drains_pump hw m k).fills.filed hjob

def circle : AddressSpace :=
  AddressSpace.empty.pokeAll 0x80000000
    [0x0C000000, 0, 0x0C000008, 0, 0x03E00008, 0, 0, 0, 0x0C000000, 0, 0x03E00008, 0]

def circling : Workshop :=
  { ((create {}).unitAt 0x80000000).2 with
    queues := { links := [0x80000000], second := [0x80000000] } }

theorem pump_drains_circle :
    circling.registry.Filed ∧ circling.queues.Distinct ∧
      ∃ n, 0 < n ∧ n ≤ 2 + 2 * (circling.gained (circling.pump circle n).shop).ncard ∧
        (circling.pump circle n).shop.queues.size = 0 ∧
        (circling.pump circle n).shop.queues.Distinct := by
  have hfiled : circling.registry.Filed :=
    (Registry.fills_getOrCreate (Registry.all_create (P := fun _ => True) _ _).filed
      0x80000000).filed
  have hdistinct : circling.queues.Distinct := ⟨by decide, by decide, by decide⟩
  obtain ⟨n, hbound, hempty, -, -, hchanges, hstays, -⟩ := pump_drains hfiled circle
  refine ⟨hfiled, hdistinct, n, Nat.pos_of_ne_zero ?_, hbound, hempty,
    hstays hdistinct _ (hchanges n)⟩
  rintro rfl
  cases hempty

end Workshop

end R3000
