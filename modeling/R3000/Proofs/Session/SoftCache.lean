import R3000.Proofs.Session.Admission
import R3000.Proofs.Session.Operations
import R3000.Proofs.Unit.Draining

/-!
# How many units keep their caches

A unit that runs is noted as used, and when too many are, the coldest one loses its caches.  So of the
units that hold something that can be computed again, those that are noted are within the capacity
(`Registry.Tended`).  Background work fills caches too, but notes nothing: what it fills is overlooked
until the unit runs or is retired, and the capacity does not bound the number of units that are
overlooked (`Recompiler.cached_units`).
-/

namespace R3000

/-! ## Units -/

/-- The unit is the same one, and holds nothing new that can be computed again. -/
structure CodeUnit.Sheds (u u' : CodeUnit) : Prop where
  id : u'.id = u.id
  cached : u'.cached = true → u.cached = true

namespace CodeUnit

variable {u u' : CodeUnit}

theorem Sheds.refl (u : CodeUnit) : u.Sheds u :=
  ⟨rfl, fun h => h⟩

theorem Sheds.of_retains (h : u.Retains u') (hbirth : u'.birth = u.birth) : u.Sheds u' := by
  refine ⟨?_, fun hc => ?_⟩
  · unfold CodeUnit.id
    rw [h.base, hbirth]
  · unfold CodeUnit.cached at hc ⊢
    rcases Bool.or_eq_true_iff.mp hc with hg | hf
    · obtain ⟨g, hg⟩ := Option.isSome_iff_exists.mp hg
      exact Bool.or_eq_true_iff.mpr (.inl (Option.isSome_of_mem (h.graph g hg)))
    · obtain ⟨exe, hf⟩ := Option.isSome_iff_exists.mp hf
      exact Bool.or_eq_true_iff.mpr (.inr (Option.isSome_of_mem (h.first exe hf)))

theorem sheds_countdown (u : CodeUnit) : u.Sheds u.countdown.1 := by
  refine .of_retains u.retains_countdown ?_
  rw [countdown_eq]

theorem sheds_countComplete (u : CodeUnit) : u.Sheds u.countdown.1.countComplete.1 := by
  refine .of_retains (u.retains_countdown.trans (retains_countComplete _)) ?_
  rw [countComplete_eq, countdown_eq]

theorem sheds_firstMispredicted (u : CodeUnit) : u.Sheds u.firstMispredicted :=
  .of_retains u.retains_firstMispredicted rfl

theorem sheds_secondBroken (u : CodeUnit) : u.Sheds u.firstMispredicted.secondBroken.1 := by
  refine .of_retains (u.retains_firstMispredicted.trans (retains_secondBroken _)) ?_
  rw [secondBroken_eq]
  rfl

theorem sheds_addBreakpoint (u : CodeUnit) (addr : Word) : u.Sheds (u.addBreakpoint addr).1 := by
  refine .of_retains (u.retains_addBreakpoint addr) ?_
  rw [addBreakpoint_eq]
  rfl

theorem sheds_removeBreakpoint (u : CodeUnit) (addr : Word) : u.Sheds (u.removeBreakpoint addr).1 := by
  refine .of_retains (u.retains_removeBreakpoint addr) ?_
  rw [removeBreakpoint_eq]
  rfl

end CodeUnit

namespace Registry

variable {r r' : Registry} {u v : CodeUnit} {base : Word} {room : Nat} {S S' : Set Word}

def Caches (r : Registry) (base : Word) : Prop :=
  ∃ u, r.find? base = some u ∧ u.cached = true

theorem Knows.caches (h : r.Knows base) : r.Caches base := by
  obtain ⟨u, hu, hg⟩ := h
  exact ⟨u, hu, Bool.or_eq_true_iff.mpr (.inl hg)⟩

def cachedSize (r : Registry) : Nat :=
  (r.live.filter fun _ u => u.cached).size

/-- Where the units with caches are that are noted as used. -/
def noted (r : Registry) : Set Word :=
  { base | ∃ u, r.find? base = some u ∧ u.cached = true ∧ u.id ∈ r.recent }

/-- Where the units with caches are that are not noted as used. -/
def overlooked (r : Registry) : Set Word :=
  { base | ∃ u, r.find? base = some u ∧ u.cached = true ∧ u.id ∉ r.recent }

/-- Every unit stands at its address, no more units are noted than there is room for, and only the
given ones may be overlooked. -/
structure Tended (room : Nat) (S : Set Word) (r : Registry) : Prop where
  filed : r.Filed
  capacity : r.capacity = room
  pos : 0 < room
  recent : r.recent.length ≤ room
  overlooked : r.overlooked ⊆ S

/-- A unit that is found after another one was evicted was there before.  If it holds caches, it is not
the one that was evicted. -/
theorem find?_of_evicted (hr : r.Filed) {cold : UnitId} {b : Word}
    (h : (r.modifyUnit cold CodeUnit.dropSoftCaches).find? b = some v) :
    ∃ u, r.find? b = some u ∧ v.id = u.id ∧ (v.cached = true → v.id ≠ cold ∧ u = v) := by
  change (r.modify cold.base fun u => if u.id = cold then u.dropSoftCaches else u).find? b = _ at h
  rw [find?_modify_ite] at h
  split at h
  · obtain ⟨u, hu, rfl⟩ := Option.map_eq_some_iff.mp h
    refine ⟨u, hu, ?_⟩
    split
    · exact ⟨rfl, fun hcached => Bool.noConfusion hcached⟩
    next hne => exact ⟨rfl, fun _ => ⟨hne, rfl⟩⟩
  next hb =>
    refine ⟨v, h, rfl, fun _ => ⟨fun hid => hb ?_, rfl⟩⟩
    exact (congrArg UnitId.base hid).symm.trans (hr b v h)

namespace Tended

theorem of_units (h : r.Tended room S) (hS : S ⊆ S') (hrecent : r'.recent = r.recent)
    (hcapacity : r'.capacity = r.capacity)
    (hunits : ∀ b v, r'.find? b = some v →
      (∃ u, r.find? b = some u ∧ u.Sheds v) ∨ v.base = b ∧ (v.cached = true → b ∈ S')) :
    r'.Tended room S' := by
  refine ⟨fun b v hv => ?_, hcapacity.trans h.capacity, h.pos, hrecent ▸ h.recent, ?_⟩
  · rcases hunits b v hv with ⟨u, hu, hsheds⟩ | ⟨hb, -⟩
    · exact (congrArg UnitId.base hsheds.id).trans (h.filed b u hu)
    · exact hb
  · rintro b ⟨v, hv, hcached, hid⟩
    rcases hunits b v hv with ⟨u, hu, hsheds⟩ | ⟨-, hnew⟩
    · rw [hsheds.id, hrecent] at hid
      exact hS (h.overlooked ⟨u, hu, hsheds.cached hcached, hid⟩)
    · exact hnew hcached

theorem mono (h : r.Tended room S) (hS : S ⊆ S') : r.Tended room S' :=
  ⟨h.filed, h.capacity, h.pos, h.recent, h.overlooked.trans hS⟩

theorem put (h : r.Tended room S) (hfind : r.find? base = some u) (hs : u.Sheds v) :
    (r.put v).Tended room S := by
  refine h.of_units .rfl rfl rfl fun b x hx => .inl ?_
  rw [find?_put_ite] at hx
  split at hx
  next hb =>
    cases hx
    have hbase : v.base = base := (congrArg UnitId.base hs.id).trans (h.filed base u hfind)
    exact ⟨u, (hb.symm.trans hbase) ▸ hfind, hs⟩
  next => exact ⟨x, hx, .refl x⟩

theorem fill (h : r.Tended room S) (hfill : r.Fills r')
    (hothers : ∀ b, b ≠ base → r'.find? b = r.find? b) : r'.Tended room (insert base S) := by
  refine h.of_units (Set.subset_insert base S) hfill.recent hfill.capacity fun b x hx => ?_
  by_cases hb : b = base
  · exact .inr ⟨hfill.filed b x hx, fun _ => .inl hb⟩
  · rw [hothers b hb] at hx
    exact .inl ⟨x, hx, .refl x⟩

theorem modifyCovering (h : r.Tended room S) (addr : Word) {f : CodeUnit → CodeUnit}
    (hf : ∀ u : CodeUnit, u.Sheds (f u)) : (r.modifyCovering addr f).Tended room S := by
  refine h.of_units .rfl rfl rfl fun b x hx => .inl ?_
  rw [find?_modifyCovering] at hx
  obtain ⟨u, hu, rfl⟩ := Option.map_eq_some_iff.mp hx
  refine ⟨u, hu, ?_⟩
  split
  · exact hf u
  · exact .refl u

theorem clearRam (h : r.Tended room S) : r.clearRam.release.Tended room S := by
  refine h.of_units .rfl rfl rfl fun b x hx => .inl ?_
  rw [find?_clearRam] at hx
  exact ⟨x, (Option.filter_eq_some_iff.mp hx).1, .refl x⟩

theorem getOrCreate (h : r.Tended room S) (base : Word) :
    (r.getOrCreate base).2.Tended room S := by
  unfold Registry.getOrCreate
  cases r.find? base with
  | some u => exact h
  | none =>
    refine h.of_units .rfl rfl rfl fun b x hx => ?_
    dsimp only at hx
    rw [find?_put_ite] at hx
    split at hx
    next hb =>
      cases hx
      exact .inr ⟨hb, fun hc => Bool.noConfusion hc⟩
    next => exact .inl ⟨x, hx, .refl x⟩

/-- A unit that is used is not overlooked, and nothing else comes to be. -/
theorem touch (h : r.Tended room (insert u.base S)) (hfind : r.find? u.base = some u) :
    (r.touch u).Tended room S := by
  -- A unit elsewhere that was noted still is, unless it is the coldest one.
  have helsewhere : ∀ b v, r.find? b = some v → b ≠ u.base → v.cached = true →
      v.id ∉ r.recent.filter (·.base ≠ u.base) → b ∈ S := by
    intro b v hv hb hcached hid
    have hbase : v.id.base ≠ u.base := fun heq => hb ((h.filed b v hv).symm.trans heq)
    have hnot : v.id ∉ r.recent := fun hmem =>
      hid (List.mem_filter.mpr ⟨hmem, decide_eq_true hbase⟩)
    exact (h.overlooked ⟨v, hv, hcached, hnot⟩).resolve_left hb
  have hothers : ∀ id ∈ r.recent.filter (·.base ≠ u.base), id.base ≠ u.base :=
    fun id hid => of_decide_eq_true (List.mem_filter.mp hid).2
  have hlength : (r.recent.filter (·.base ≠ u.base)).length ≤ r.recent.length :=
    List.length_filter_le _ _
  have hrecent := h.recent
  have hpos := h.pos
  have hcapacity := h.capacity
  unfold Registry.touch
  dsimp only
  generalize r.recent.filter (·.base ≠ u.base) = others at helsewhere hothers hlength ⊢
  split
  next hfits =>
    refine ⟨h.filed, h.capacity, h.pos, ?_, ?_⟩
    · show others.length + 1 ≤ room
      omega
    · rintro b ⟨v, hv, hcached, hid⟩
      change r.find? b = some v at hv
      by_cases hb : b = u.base
      · subst hb
        cases hfind.symm.trans hv
        exact absurd List.mem_cons_self hid
      · exact helsewhere b v hv hb hcached fun hmem => hid (List.mem_cons_of_mem _ hmem)
  next hfull =>
    cases hlast : others.getLast? with
    | none =>
      -- Something is noted already, since there is room for something.
      rw [List.getLast?_eq_none_iff.mp hlast] at hfull
      simp only [List.length_nil] at hfull
      omega
    | some cold =>
      have hsplit := List.dropLast_append_getLast? cold hlast
      have hcold : cold.base ≠ u.base := hothers cold (List.mem_of_getLast? hlast)
      refine ⟨fun b v hv => ?_, h.capacity, h.pos, ?_, ?_⟩
      · obtain ⟨x, hx, hid, -⟩ := find?_of_evicted h.filed hv
        exact (congrArg UnitId.base hid).trans (h.filed b x hx)
      · show (others.dropLast).length + 1 ≤ room
        rw [List.length_dropLast]
        omega
      · rintro b ⟨v, hv, hcached, hid⟩
        obtain ⟨x, hx, -, hkept⟩ := find?_of_evicted h.filed hv
        obtain ⟨hne, rfl⟩ := hkept hcached
        change r.find? b = some x at hx
        by_cases hb : b = u.base
        · subst hb
          cases hfind.symm.trans hx
          exact absurd List.mem_cons_self hid
        · refine helsewhere b x hx hb hcached fun hmem => ?_
          rw [← hsplit] at hmem
          rcases List.mem_append.mp hmem with hmem | hmem
          · exact hid (List.mem_cons_of_mem _ hmem)
          · exact hne (List.mem_singleton.mp hmem)

end Tended

/-- What background work leaves overlooked was so before, or had no caches. -/
theorem Fills.overlooked (h : r.Fills r') (hb : base ∈ r'.overlooked) :
    base ∈ r.overlooked ∨ ¬ r.Caches base := by
  refine or_iff_not_imp_right.mpr fun hcaches => ?_
  obtain ⟨u, hu, hcached⟩ := Classical.not_not.mp hcaches
  obtain ⟨v, hv, -, hid⟩ := hb
  obtain ⟨u', hu', hfills⟩ := h.units base u hu
  cases hu'.symm.trans hv
  rw [hfills.id, h.recent] at hid
  exact ⟨u, hu, hcached, hid⟩

theorem cachedSize_eq (r : Registry) : r.cachedSize = { base | r.Caches base }.ncard := by
  have hkeys : { base | r.Caches base } =
      ((r.live.filter fun _ u => u.cached).keys.toFinset : Set Word) := by
    ext base
    rw [List.coe_toFinset, Set.mem_ofPred_eq, Set.mem_ofPred_eq, Std.HashMap.mem_keys,
      Std.HashMap.mem_iff_isSome_getElem?, Std.HashMap.getElem?_filter', Option.isSome_iff_exists]
    exact exists_congr fun u => Option.filter_eq_some_iff.symm
  rw [hkeys, Set.ncard_coe_finset, List.toFinset_card_of_nodup Std.HashMap.nodup_keys,
    Std.HashMap.length_keys]
  rfl

theorem cachedSize_eq_add (r : Registry) :
    r.cachedSize = r.noted.ncard + r.overlooked.ncard := by
  have hsplit : { base | r.Caches base } = r.noted ∪ r.overlooked := by
    ext base
    constructor
    · rintro ⟨u, hu, hcached⟩
      by_cases hid : u.id ∈ r.recent
      · exact .inl ⟨u, hu, hcached, hid⟩
      · exact .inr ⟨u, hu, hcached, hid⟩
    · rintro (⟨u, hu, hcached, -⟩ | ⟨u, hu, hcached, -⟩)
      · exact ⟨u, hu, hcached⟩
      · exact ⟨u, hu, hcached⟩
  have hdisjoint : Disjoint r.noted r.overlooked := by
    refine Set.disjoint_left.mpr ?_
    rintro base ⟨u, hu, -, hin⟩ ⟨v, hv, -, hout⟩
    cases hu.symm.trans hv
    exact hout hin
  rw [cachedSize_eq, hsplit, Set.ncard_union_eq hdisjoint (Word.finite_set _) (Word.finite_set _)]

theorem Tended.noted (h : r.Tended room S) : r.noted.ncard ≤ room := by
  have hsub : r.noted ⊆ ((r.recent.map UnitId.base).toFinset : Set Word) := by
    rintro base ⟨u, hu, -, hid⟩
    rw [List.coe_toFinset]
    exact List.mem_map.mpr ⟨u.id, hid, h.filed base u hu⟩
  calc r.noted.ncard ≤ ((r.recent.map UnitId.base).toFinset : Set Word).ncard :=
        Set.ncard_le_ncard hsub (Word.finite_set _)
    _ = (r.recent.map UnitId.base).toFinset.card := Set.ncard_coe_finset _
    _ ≤ (r.recent.map UnitId.base).length := List.toFinset_card_le _
    _ = r.recent.length := List.length_map _
    _ ≤ room := h.recent

theorem tended_create (threshold capacity : Nat) :
    (create threshold capacity).Tended (max capacity 1) ∅ := by
  have hnone : (create threshold capacity).All fun _ => False := all_create _ _
  refine ⟨hnone.filed, rfl, by omega, Nat.zero_le _, ?_⟩
  rintro base ⟨u, hu, -⟩
  exact (hnone base u hu).2.elim

end Registry

/-! ## Workshops -/

theorem CodeUnit.unit_flow {u : CodeUnit} {a : Analyzer} {m : AddressSpace} {reach : Reach}
    {trusted : Bool} {table : List Word} (h : (u.flow a m reach trusted table).graph = none) :
    (u.flow a m reach trusted table).unit = u := by
  cases hg : u.graph with
  | some g => rw [flow_of_graph a m reach trusted hg]
  | none =>
    rw [flow_of_none a m reach trusted hg] at h ⊢
    dsimp only at h ⊢
    rw [h]
    rfl

namespace Workshop

variable {w : Workshop} {m : AddressSpace} {room : Nat} {S : Set Word} {base : Word}

theorem tended_touch (h : w.registry.Tended room (insert base S)) :
    (w.touch base).registry.Tended room S := by
  unfold touch
  cases hfind : w.registry.find? base with
  | some u =>
    have hbase : u.base = base := h.filed base u hfind
    subst hbase
    exact h.touch hfind
  | none =>
    refine ⟨h.filed, h.capacity, h.pos, h.recent, ?_⟩
    rintro b ⟨u, hu, hcached, hid⟩
    refine (h.overlooked ⟨u, hu, hcached, hid⟩).resolve_left fun hb => ?_
    subst hb
    exact nomatch hfind.symm.trans hu

theorem tended_flow (h : w.registry.Tended room S) (m : AddressSpace) (base : Word) (trusted : Bool) :
    (w.flow m base trusted).shop.registry.Tended room (insert base S) ∧
      ∀ e, (w.flow m base trusted).result = .error e →
        (w.flow m base trusted).shop.registry.Tended room S := by
  obtain ⟨hfills, -, -⟩ := fills_flow (m := m) h.filed base trusted
  cases hfind : w.registry.find? base with
  | none =>
    rw [flow_of_none m trusted hfind]
    exact ⟨h.mono (Set.subset_insert base S), fun _ _ => h⟩
  | some u =>
    obtain ⟨stats, result, hflow, hresult⟩ := exists_flow m trusted hfind
    rw [hflow] at hfills ⊢
    have hunit := (u.flow_fills w.analyzer m w.reach trusted w.breakpoints).1
    have hbase : (u.flow w.analyzer m w.reach trusted w.breakpoints).unit.base = base :=
      (congrArg UnitId.base hunit.id).trans (h.filed base u hfind)
    refine ⟨h.fill hfills fun b hb => ?_, fun e he => ?_⟩
    · rw [Registry.find?_put_ite, if_neg (hbase ▸ Ne.symm hb)]
    · have hnone : (u.flow w.analyzer m w.reach trusted w.breakpoints).graph = none := by
        refine Option.eq_none_iff_forall_ne_some.mpr fun g hg => ?_
        exact nomatch he.symm.trans ((hresult g).mpr hg)
      rw [CodeUnit.unit_flow hnone]
      exact h.put hfind (.refl u)

theorem tended_buildFirst (h : w.registry.Tended room S) (m : AddressSpace) (base : Word)
    (trusted : Bool) :
    (w.buildFirst m base trusted).shop.registry.Tended room (insert base S) ∧
      ∀ e, (w.buildFirst m base trusted).result = .error e →
        (w.buildFirst m base trusted).shop.registry.Tended room S := by
  have hflow := tended_flow h m base trusted
  unfold buildFirst build
  dsimp only
  generalize w.flow m base trusted = flowed at hflow ⊢
  cases hresult : flowed.result with
  | error e => exact ⟨hflow.1, fun _ _ => hflow.2 e hresult⟩
  | ok g => exact ⟨hflow.1, fun _ he => nomatch he⟩

theorem tended_firstExecutable (h : w.registry.Tended room S) (m : AddressSpace) (base : Word) :
    (w.firstExecutable m base).shop.registry.Tended room S := by
  unfold firstExecutable
  split
  · exact tended_touch (h.mono (Set.subset_insert base S))
  · have hbuilt := tended_buildFirst h m base true
    dsimp only
    generalize w.buildFirst m base true = built at hbuilt ⊢
    cases hresult : built.result with
    | error e => exact hbuilt.2 e hresult
    | ok exe =>
      have hinstalled : (built.shop.installFirst base exe).registry.Tended room (insert base S) := by
        have hfills : built.shop.registry.Fills (built.shop.installFirst base exe).registry :=
          Registry.fills_modify hbuilt.1.filed fun u => u.fills_installFirst exe
        have hothers (b : Word) (hb : b ≠ base) :
            (built.shop.installFirst base exe).registry.find? b = built.shop.registry.find? b :=
          (Registry.find?_modify_ite ..).trans (if_neg hb.symm)
        have hfilled := hbuilt.1.fill hfills hothers
        rwa [Set.insert_idem] at hfilled
      dsimp only
      split
      · exact tended_touch hinstalled
      · exact tended_touch hinstalled

theorem durable_tended (room : Nat) (S : Set Word) :
    Durable fun w _ => w.registry.Tended room S where
  mem _ := AddressSpace.Keeps.enduring.of_imp fun _ h => h
  beside h _ _ _ hr := hr ▸ h
  unitAt base h := h.getOrCreate base
  countdown h hfind := h.put hfind (CodeUnit.sheds_countdown _)
  countComplete h hfind := h.put hfind (CodeUnit.sheds_countComplete _)
  firstExecutable base h := tended_firstExecutable h _ base
  firstMispredicted h hfind := h.put hfind (CodeUnit.sheds_firstMispredicted _)
  secondBroken h hfind _ := h.put hfind (CodeUnit.sheds_secondBroken _)
  clearCache h := h.clearRam

end Workshop

namespace Recompiler

variable {r : Recompiler} {room : Nat} {S : Set Word}

def Operation.isBackground : Operation → Bool
  | .work _ _ | .flow _ _ _ => true
  | _ => false

/-- Background work fills the caches of the unit at the address, which is not noted as used. -/
def Overlooks (r : Recompiler) (op : Operation) (base : Word) : Prop :=
  op.isBackground = true ∧ ¬ r.shop.registry.Caches base ∧
    base ∈ (r.after op).shop.registry.overlooked

theorem tended_of_fills (h : r.shop.registry.Tended room S) {op : Operation}
    (hop : op.isBackground = true) (hfills : r.shop.registry.Fills (r.after op).shop.registry) :
    (r.after op).shop.registry.Tended room (S ∪ { base | r.Overlooks op base }) := by
  refine ⟨hfills.filed, hfills.capacity.trans h.capacity, h.pos, hfills.recent ▸ h.recent, ?_⟩
  intro base hb
  rcases hfills.overlooked hb with hold | hnew
  · exact .inl (h.overlooked hold)
  · exact .inr ⟨hop, hnew, hb⟩

theorem tended_after (h : r.shop.registry.Tended room S) (op : Operation) :
    (r.after op).shop.registry.Tended room (S ∪ { base | r.Overlooks op base }) := by
  cases op with
  | addBreakpoint addr =>
    refine Registry.Tended.mono ?_ Set.subset_union_left
    change (r.shop.addBreakpoint addr).1.registry.Tended room S
    obtain ⟨hsame, -⟩ | ⟨-, -, hset⟩ := r.shop.addBreakpoint_cases addr
    · exact hsame.symm ▸ h
    · rw [hset]
      exact h.modifyCovering addr fun u => u.sheds_addBreakpoint addr
  | removeBreakpoint addr =>
    refine Registry.Tended.mono ?_ Set.subset_union_left
    change (r.shop.removeBreakpoint addr).1.registry.Tended room S
    unfold Workshop.removeBreakpoint
    split
    · exact h.modifyCovering addr fun u => u.sheds_removeBreakpoint addr
    · exact h
  | unitFor target =>
    refine Registry.Tended.mono ?_ Set.subset_union_left
    change (((r.shop.unitFor target).map Prod.snd).getD r.shop).registry.Tended room S
    unfold Workshop.unitFor
    split
    · exact h.getOrCreate target
    · exact h
  | flow m base trusted => exact tended_of_fills h rfl (Workshop.fills_flow h.filed base trusted).1
  | execute fuel cpu m target ret budget =>
    have htended : (r.executeWith fuel cpu m target ret budget).recompiler.shop.registry.Tended room S :=
      (Workshop.durable_tended room S).executeWith h fuel cpu target ret budget
    exact htended.mono Set.subset_union_left
  | work m limit => exact tended_of_fills h rfl (Workshop.drains_pump h.filed m limit).fills
  | clearCache => exact h.clearRam.mono Set.subset_union_left

theorem tended_operated (config : Config) (ops : List Operation) :
    ((create config).operated ops).shop.registry.Tended (max config.softCapacity 1)
      { base | ∃ before op later, ops = before ++ op :: later ∧
        ((create config).operated before).Overlooks op base } := by
  induction ops using List.reverseRecOn with
  | nil => exact (Registry.tended_create _ _).mono (Set.empty_subset _)
  | append_singleton ops op ih =>
    rw [operated_concat]
    refine (tended_after ih op).mono ?_
    rintro base (⟨before, op', later, rfl, hoverlooks⟩ | hoverlooks)
    · exact ⟨before, op', later ++ [op], by simp, hoverlooks⟩
    · exact ⟨ops, op, [], rfl, hoverlooks⟩

/-- The units with caches are those that are noted as used, for which the capacity is the bound, and
those that are overlooked.  A unit is overlooked only if background work once filled its caches, and
found it neither with caches nor noted as used.  So the capacity is the bound for all of them if that
never happened. -/
theorem cached_units_bounded (config : Config) (ops : List Operation) :
    let registry := ((create config).operated ops).shop.registry
    registry.cachedSize = registry.noted.ncard + registry.overlooked.ncard ∧
      registry.noted.ncard ≤ max config.softCapacity 1 ∧
      (∀ base ∈ registry.overlooked, ∃ before op later, ops = before ++ op :: later ∧
        ((create config).operated before).Overlooks op base) ∧
      ((∀ before op later base, ops = before ++ op :: later →
          ¬ ((create config).operated before).Overlooks op base) →
        registry.cachedSize ≤ max config.softCapacity 1) := by
  intro registry
  have htended := tended_operated config ops
  have hsize : registry.cachedSize = registry.noted.ncard + registry.overlooked.ncard :=
    registry.cachedSize_eq_add
  have hnoted : registry.noted.ncard ≤ max config.softCapacity 1 := htended.noted
  refine ⟨hsize, hnoted, fun base hb => htended.overlooked hb, fun hnever => ?_⟩
  have hnone : registry.overlooked = ∅ := by
    refine Set.eq_empty_iff_forall_notMem.mpr fun base hb => ?_
    obtain ⟨before, op, later, hops, hoverlooks⟩ := htended.overlooked hb
    exact hnever before op later base hops hoverlooks
  rw [hsize, hnone, Set.ncard_empty]
  exact hnoted

end Recompiler

/-! ## A callee that is overlooked -/

namespace Workshop

variable {w : Workshop} {m : AddressSpace} {base : Word} {u : CodeUnit} {g : FlowGraph}

theorem flow_of_graph (hfind : w.registry.find? base = some u) (hg : u.graph = some g)
    (trusted : Bool) :
    w.flow m base trusted =
      { shop := { w with registry := w.registry.put u }, mem := m, result := .ok g } := by
  unfold flow
  rw [hfind]
  dsimp only
  rw [CodeUnit.flow_of_graph _ _ _ _ hg]

theorem knows_followCallee (hw : w.registry.Filed) {target : Word} (ht : compilable target = true)
    (hcode : (w.analyzer.analyse m target w.reach false).graph.isSome = true) :
    (w.followCallee m target).shop.registry.Knows target := by
  have hat := w.registry.find?_getOrCreate target
  have hfills := Registry.fills_getOrCreate hw target
  unfold followCallee unitFor
  rw [if_pos ht]
  dsimp only
  split
  next hknown => exact (Registry.knows_iff hat).mpr hknown
  next hunknown =>
    obtain ⟨-, -, hknows⟩ := fills_flow (w := (w.unitAt target).2) (m := m) hfills.filed target false
    obtain ⟨stats, result, hflow, hresult⟩ := exists_flow (w := (w.unitAt target).2) m false hat
    have hgraph : (CodeUnit.flow (w.unitAt target).1 w.analyzer m w.reach false w.breakpoints).graph =
        (w.analyzer.analyse m target w.reach false).graph := by
      have hnone : (w.unitAt target).1.graph = none := by simpa using hunknown
      have hbase : (w.unitAt target).1.base = target := hfills.filed target _ hat
      rw [CodeUnit.flow_of_none w.analyzer m w.reach false hnone, hbase]
    obtain ⟨g, hg⟩ := Option.isSome_iff_exists.mp hcode
    have hok : ((w.unitAt target).2.flow m target false).result = .ok g := by
      rw [hflow]
      exact (hresult g).mpr (hgraph.trans hg)
    rw [hok]
    exact hknows g hok

end Workshop

namespace Recompiler

def crowded : Config := { softCapacity := 1, promote := false, speculate := false, window := 4 }

def loopAndCall : AddressSpace :=
  (AddressSpace.empty.pokeAll 0x80000000 [0x0401FFFF, 0, 0x0C000010, 0]).pokeAll 0x80000040
    [0x03E00008, 0]

def looping : Survey := (create crowded).shop.surveyAt loopAndCall 0x80000000

def loop : Generated := (create crowded).shop.generatedAt loopAndCall 0x80000000

def looped : AddressSpace := loop.tag (looping.tag 0x80000000 loopAndCall)

def loopOnce : Operation :=
  .execute Session.ampleFuel {} loopAndCall 0x80000000 noReturn 1

def followCalls : Operation :=
  .work ((create crowded).execute {} loopAndCall 0x80000000 noReturn 1).mem 10

theorem invoke_loop {s : Session} (hc : s.cycles = 0) (hd : s.deadline = 1) :
    loop.exe.invoke Session.ampleFuel noReturn s =
      (.left (.breakout 0x80000000), { s with cycles := 2 }) := by
  have hentry : loop.exe.op? 0 = some (.blockEntry 0x80000000 2 true) := by decide +kernel
  have hfuel : Session.ampleFuel = (Session.ampleFuel - 1) + 1 := by decide
  have hleave : ∀ enter, CodeOp.perform enter (.blockEntry 0x80000000 2 true)
      { s with ret := noReturn } =
        (.signal (.breakout 0x80000000), { s with ret := noReturn, cycles := 2 }) := by
    intro enter
    have hdue : Session.breakoutDue { s with ret := noReturn, cycles := 2 } = true := by
      unfold Session.breakoutDue
      rw [hd]
      rfl
    obtain ⟨hroom, hspend⟩ := Session.spend_first (s := { s with ret := noReturn }) hc
      (show 2 < UInt64.size by decide)
    rw [CodeOp.perform_blockEntry, if_pos hroom, hspend]
    exact congrArg (Prod.mk · _) (if_pos hdue)
  unfold Executable.invoke
  rw [hfuel, Executable.run_succ, Executable.step_of_op? hentry, hleave]
  rfl

theorem exists_loop_unit :
    followCalls = .work looped 10 ∧ ∃ u, ((create crowded).after loopOnce).shop.registry.find? 0x80000000 = some u ∧
      u.graph = some (looping.graph 0x80000000) ∧
      (create crowded).shop.HasCompiled loopAndCall 0x80000000
        ((create crowded).after loopOnce).shop := by
  have hunknown : (create crowded).shop.registry.find? 0x80000000 = none :=
    Std.HashMap.getElem?_empty
  obtain ⟨s, u, hs, hcompiled, hfind, hgraph, -, -, hexecuted⟩ :=
    (create crowded).hasCompiled_executeWith {} loopAndCall 0x80000000 1 rfl (by decide)
      (by decide +kernel) (by decide +kernel) (by decide) hunknown rfl rfl
  replace hexecuted := hexecuted Session.ampleFuel noReturn
  change _ = conclude _ _ (Session.leave (loop.exe.invoke _ _ s)) at hexecuted
  rw [invoke_loop (by rw [hs]; rfl) (by rw [hs]; rfl)] at hexecuted
  have hshop : ((create crowded).after loopOnce).shop = s.shop :=
    (congrArg (·.recompiler.shop) hexecuted).trans (conclude_breakout _ _ _ _).1
  have hmem : ((create crowded).execute {} loopAndCall 0x80000000 noReturn 1).mem = looped := by
    refine (congrArg Executed.mem hexecuted).trans ((conclude_breakout _ _ _ _).2.trans ?_)
    show s.mem = looped
    rw [hs]
    rfl
  refine ⟨congrArg (Operation.work · 10) hmem, u, ?_⟩
  rw [hshop]
  exact ⟨hfind, hgraph, hcompiled⟩

/-- Without background work the capacity is the bound, and here it is reached. -/
theorem cached_units_bounded_in_loop :
    ((create crowded).operated [loopOnce]).shop.registry.cachedSize = 1 := by
  obtain ⟨-, -, -, hbound⟩ := cached_units_bounded crowded [loopOnce]
  refine Nat.le_antisymm (hbound fun before op later base hops hoverlooks => ?_) ?_
  · have hmem : op ∈ [loopOnce] := by simp [hops]
    cases List.mem_singleton.mp hmem
    exact Bool.noConfusion hoverlooks.1
  · obtain ⟨-, u, hu, hgraph, -⟩ := exists_loop_unit
    rw [Registry.cachedSize_eq]
    have hknows : Registry.Knows _ 0x80000000 := ⟨u, hu, by rw [hgraph]; rfl⟩
    exact (Set.ncard_pos (Word.finite_set _)).mpr ⟨0x80000000, hknows.caches⟩

theorem knows_followCalls :
    (((create crowded).after loopOnce).shop.pump looped 1).shop.registry.Knows 0x80000000 ∧
      (((create crowded).after loopOnce).shop.pump looped 1).shop.registry.Knows 0x80000040 := by
  obtain ⟨-, u, hu, hgraph, hcompiled⟩ := exists_loop_unit
  have hfiled : ((create crowded).after loopOnce).shop.registry.Filed :=
    (tended_operated crowded [loopOnce]).filed
  generalize ((create crowded).after loopOnce).shop = w at hu hcompiled hfiled ⊢
  have hknows : w.registry.Knows 0x80000000 := ⟨u, hu, by rw [hgraph]; rfl⟩
  refine ⟨(Workshop.drains_pump hfiled looped 1).fills.knows hknows, ?_⟩
  have hpop : w.queues.pop = some (.followLinks 0x80000000, { worker := true }) := by
    rw [hcompiled.queues]
    decide
  have hcallees : Workshop.callees (looping.graph 0x80000000) = [0x80000040] := by decide +kernel
  have hput := Registry.fills_put hfiled hu (.of_eq rfl rfl rfl : u.Fills u)
  have hcode : (w.analyzer.analyse looped 0x80000040 w.reach false).graph.isSome = true := by
    have hreach : w.reach = (create crowded).shop.reach := by
      unfold Workshop.reach
      rw [hcompiled.config]
    rw [hcompiled.analyzer, hreach]
    show (Analyzer.analyse { survey := looping } _ _ _ _).graph.isSome = true
    decide +kernel
  rw [Workshop.pump, hpop]
  dsimp only [Workshop.pump, Workshop.perform]
  unfold Workshop.followLinks
  rw [Workshop.flow_of_graph (w := { w with queues := { worker := true } }) hu hgraph]
  dsimp only
  rw [hcallees, List.foldl_cons, List.foldl_nil]
  exact Workshop.knows_followCallee
    (w := { w with queues := { worker := true }, registry := w.registry.put u }) hput.filed (by decide) hcode

/-- After the loop has run and its callee was found, both units keep their caches, and there is room
for one. -/
theorem capacity_exceeded_by_links :
    max crowded.softCapacity 1 <
      ((create crowded).operated [loopOnce, followCalls]).shop.registry.cachedSize := by
  obtain ⟨hloop, hcallee⟩ := knows_followCalls
  have hfiled := (Workshop.drains_pump (tended_operated crowded [loopOnce]).filed looped 1).fills.filed
  have hshop : ((create crowded).operated [loopOnce, followCalls]).shop =
      (((create crowded).after loopOnce).shop.pump looped (1 + 9)).shop := by
    rw [exists_loop_unit.1]
    rfl
  rw [hshop, Workshop.pump_add, Registry.cachedSize_eq]
  change (((create crowded).after loopOnce).shop.pump looped 1).shop.registry.Filed at hfiled
  dsimp only
  generalize ((create crowded).after loopOnce).shop.pump looped 1 = done at hloop hcallee hfiled ⊢
  -- The other jobs drop nothing.
  have hlater := (Workshop.drains_pump hfiled done.mem 9).fills
  have hboth : ({0x80000000, 0x80000040} : Set Word) ⊆
      { base | (done.shop.pump done.mem 9).shop.registry.Caches base } := by
    rintro base (rfl | rfl)
    · exact (hlater.knows hloop).caches
    · exact (hlater.knows hcallee).caches
  have htwo : ({0x80000000, 0x80000040} : Set Word).ncard = 2 := Set.ncard_pair (by decide)
  have hle := Set.ncard_le_ncard hboth (Word.finite_set _)
  rw [htwo] at hle
  exact hle

end Recompiler

end R3000
