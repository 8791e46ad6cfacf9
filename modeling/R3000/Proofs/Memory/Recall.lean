import R3000.Proofs.Memory.Keeping

/-!
# Notes that stay

The interpreter notes in the tags of a load or store which region it touched, and generation notes
where registers may be unwritten.  Whatever a program does, such a note stays
(`AddressSpace.Recalls`).  An instruction that has been seen in two regions is
`AddressSpace.Varied`: its tags name no region any more.
-/

namespace R3000

/-- No store clears any of the bits. -/
def Tag.Lasting (bits : UInt8) : Prop :=
  ~~~Tag.code &&& bits = bits

namespace Region

theorem lasting_tag (r : Region) : Tag.Lasting r.tag := by
  cases r <;> rfl

theorem tag_ne_zero (r : Region) : r.tag ≠ 0 := by
  cases r <;> decide

theorem regions_and_tag (r : Region) : Tag.regions &&& r.tag = r.tag := by
  cases r <;> rfl

theorem tag_eq_of_and {r s : Region} (h : r.tag &&& s.tag ≠ 0) : s.tag = r.tag := by
  cases r <;> cases s <;> first
    | rfl
    | exact absurd rfl h

variable {t : UInt8} {r s : Region}

theorem and_regions_of_ofTags (h : ofTags t = some r) : t &&& Tag.regions = r.tag := by
  unfold ofTags at h
  simp only at h
  split at h
  next hseen =>
    cases h
    exact hseen
  next =>
    split at h
    next hseen =>
      cases h
      exact hseen
    next =>
      split at h
      next hseen =>
        cases h
        exact hseen
      next => cases h

theorem and_tag_of_ofTags (h : ofTags t = some r) (s : Region) : t &&& s.tag = r.tag &&& s.tag := by
  rw [← and_regions_of_ofTags h, UInt8.and_assoc, regions_and_tag]

theorem and_tag_ne_zero_iff (h : ofTags t = some r) : t &&& s.tag ≠ 0 ↔ s.tag = r.tag := by
  rw [and_tag_of_ofTags h]
  refine ⟨tag_eq_of_and, fun hs => ?_⟩
  rw [hs, UInt8.and_self]
  exact r.tag_ne_zero

theorem eq_of_ofTags (h : ofTags t = some r) : r = .ram ∨ r = .scratch ∨ r = .bios := by
  unfold ofTags at h
  simp only at h
  split at h
  · exact .inl (Option.some.inj h).symm
  · split at h
    · exact .inr (.inl (Option.some.inj h).symm)
    · split at h
      · exact .inr (.inr (Option.some.inj h).symm)
      · cases h

theorem tag_injective_of_ofTags (h : ofTags t = some r) (hs : s.tag = r.tag) : s = r := by
  rcases eq_of_ofTags h with rfl | rfl | rfl <;> cases s <;> first
    | rfl
    | exact absurd hs (by decide)

end Region

namespace Bank

variable {n : Nat} {b b' b'' : Bank n}

/-- Whatever was noted for a word is still noted. -/
def Recalls (b b' : Bank n) : Prop :=
  ∀ (i : Nat) (bits : UInt8), Tag.Lasting bits → b.tag i &&& bits ≠ 0 → b'.tag i &&& bits ≠ 0

theorem Recalls.refl (b : Bank n) : b.Recalls b :=
  fun _ _ _ h => h

theorem Recalls.trans (h : b.Recalls b') (h' : b'.Recalls b'') : b.Recalls b'' :=
  fun i bits hbits hi => h' i bits hbits (h i bits hbits hi)

theorem recalls_setTag {i : Nat} {t : UInt8}
    (h : ∀ bits, Tag.Lasting bits → b.tag i &&& bits ≠ 0 → t &&& bits ≠ 0) :
    b.Recalls (b.setTag i t) := by
  intro j bits hbits hj
  rw [tag_setTag]
  split
  next hij =>
    rw [← hij.1] at hj
    exact h bits hbits hj
  next => exact hj

theorem recalls_store (b : Bank n) (offset : Word) (width : Width) (value : Word) :
    b.Recalls (b.store offset width value) := by
  intro i bits _ hi
  rwa [show (b.store offset width value).tag i = b.tag i from b.tag_setWord _ i _]

theorem recalls_store_code (b : Bank n) (offset : Word) (width : Width) (value : Word) :
    b.Recalls ((b.store offset width value).setTag (offset.toNat / 4)
      (b.tag (offset.toNat / 4) &&& ~~~Tag.code)) := by
  refine (b.recalls_store offset width value).trans (recalls_setTag fun bits hbits hi => ?_)
  rw [show (b.store offset width value).tag _ = b.tag _ from b.tag_setWord _ _ _] at hi
  rwa [UInt8.and_assoc, hbits]

end Bank

namespace AddressSpace

/-- The instruction at the address has been seen to touch the region, or one that is noted alike. -/
def Seen (m : AddressSpace) (p : Word) (r : Region) : Prop :=
  m.tags p &&& r.tag ≠ 0

/-- Between two moments no note was lost. -/
structure Recalls (m m' : AddressSpace) : Prop where
  ram : m.ram.Recalls m'.ram
  bios : m.bios.Recalls m'.bios
  scratch : m.scratch.Recalls m'.scratch

variable {m m' m'' : AddressSpace} {p q : Word} {r : Region} {bits : UInt8}

theorem Recalls.refl (m : AddressSpace) : m.Recalls m :=
  ⟨.refl _, .refl _, .refl _⟩

theorem Recalls.trans (h : m.Recalls m') (h' : m'.Recalls m'') : m.Recalls m'' :=
  ⟨h.ram.trans h'.ram, h.bios.trans h'.bios, h.scratch.trans h'.scratch⟩

theorem Recalls.noted (h : m.Recalls m') (hbits : Tag.Lasting bits) (hp : m.tags p &&& bits ≠ 0) :
    m'.tags p &&& bits ≠ 0 := by
  unfold tags at hp ⊢
  simp only at hp ⊢
  cases hr : (locate p).region with
  | ram =>
    simp only [hr] at hp
    exact h.ram _ _ hbits hp
  | bios =>
    simp only [hr] at hp
    exact h.bios _ _ hbits hp
  | scratch =>
    simp only [hr] at hp
    exact h.scratch _ _ hbits hp
  | hardware | parallelPort | unknown =>
    simp only [hr] at hp
    exact hp

theorem Recalls.seen (h : m.Recalls m') (hp : m.Seen p r) : m'.Seen p r :=
  h.noted r.lasting_tag hp

theorem recalls_putTags (m : AddressSpace) {addr : Word} {t : UInt8}
    (h : ∀ bits, m.tags addr &&& bits ≠ 0 → t &&& bits ≠ 0) : m.Recalls (m.putTags addr t) := by
  unfold tags at h
  unfold putTags
  simp only at h ⊢
  cases hr : (locate addr).region with
  | ram =>
    simp only [hr] at h
    exact ⟨Bank.recalls_setTag fun bits _ => h bits, .refl _, .refl _⟩
  | bios =>
    simp only [hr] at h
    exact ⟨.refl _, Bank.recalls_setTag fun bits _ => h bits, .refl _⟩
  | scratch =>
    simp only [hr] at h
    exact ⟨.refl _, .refl _, Bank.recalls_setTag fun bits _ => h bits⟩
  | hardware | parallelPort | unknown => exact .refl m

theorem Recalls.enduring : Enduring Recalls where
  refl := .refl
  trans := .trans
  setTag m addr bits := by
    unfold setTag
    simp only
    split
    · exact .refl m
    · exact m.recalls_putTags fun _ h => Tag.and_ne_zero_or h bits
  writeRam m offset width value := by
    unfold writeRam
    split
    · simp only
      split
      · exact ⟨m.ram.recalls_store offset width value, .refl _, .refl _⟩
      · exact ⟨m.ram.recalls_store_code offset width value, .refl _, .refl _⟩
    · exact .refl m
  writeScratch m offset width value := by
    unfold writeScratch
    simp only
    split
    · exact ⟨.refl _, .refl _, m.scratch.recalls_store offset width value⟩
    · exact ⟨.refl _, .refl _, m.scratch.recalls_store_code offset width value⟩
  setRamWritable _ _ := ⟨.refl _, .refl _, .refl _⟩
  devices _ _ := ⟨.refl _, .refl _, .refl _⟩

theorem recalls_poke (m : AddressSpace) (addr value : Word) : m.Recalls (m.poke addr value) := by
  have hbank : ∀ {n : Nat} (b : Bank n) (i : Nat), b.Recalls (b.setWord i value) := by
    intro n b i j bits _ hj
    rwa [b.tag_setWord]
  unfold poke
  simp only
  split
  · exact ⟨hbank _ _, .refl _, .refl _⟩
  · exact ⟨.refl _, hbank _ _, .refl _⟩
  · exact ⟨.refl _, .refl _, hbank _ _⟩
  · exact .refl m

/-! ## New notes -/

theorem isStorage_of_tags_ne_zero (h : m.tags p ≠ 0) : (locate p).region.isStorage = true := by
  unfold tags at h
  simp only at h
  cases hr : (locate p).region with
  | ram | bios | scratch => rfl
  | hardware | parallelPort | unknown =>
    simp only [hr] at h
    exact absurd rfl h

theorem seen_setTag (h : m.tags p ≠ 0) (r : Region) : (m.setTag p r.tag).Seen p r :=
  and_setTag r.tag_ne_zero (isStorage_of_tags_ne_zero h)

theorem Seen.tags_ne_zero (h : m.Seen p r) : m.tags p ≠ 0 := by
  intro hzero
  unfold Seen at h
  rw [hzero, UInt8.zero_and] at h
  exact h rfl

theorem seen_executeAccess (h : m.tags p ≠ 0) {c : Cpu} (hp : c.currentPc = p) (i : Instr) :
    (c.executeAccess i m).mem.Seen p (locate (c.reg i.rs + i.simm)).region := by
  subst hp
  exact (Recalls.enduring.accessed.executeAccess_noted m c i).seen (seen_setTag h _)

/-! ## Two regions -/

/-- The instruction at the address has been seen in two regions. -/
def Varied (m : AddressSpace) (p : Word) : Prop :=
  ∃ r s : Region, m.Seen p r ∧ m.Seen p s ∧ r.tag ≠ s.tag

theorem Varied.recalls (h : m.Varied p) (hm : m.Recalls m') : m'.Varied p := by
  obtain ⟨r, s, hr, hs, hne⟩ := h
  exact ⟨r, s, hm.seen hr, hm.seen hs, hne⟩

theorem tags_congr (m : AddressSpace) (h : locate q = locate p) : m.tags q = m.tags p := by
  unfold tags
  rw [h]

theorem Varied.of_tags (h : m.Varied p) (htags : m'.tags p = m.tags p) : m'.Varied p := by
  unfold Varied Seen at h ⊢
  rwa [htags]

theorem Varied.ofTags_eq_none (h : m.Varied p) : Region.ofTags (m.tags p) = none := by
  obtain ⟨r, s, hr, hs, hne⟩ := h
  cases hof : Region.ofTags (m.tags p) with
  | none => rfl
  | some region =>
    have hr' := (Region.and_tag_ne_zero_iff hof).mp hr
    have hs' := (Region.and_tag_ne_zero_iff hof).mp hs
    exact absurd (hr'.trans hs'.symm) hne

end AddressSpace

end R3000
