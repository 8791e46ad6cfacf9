import R3000.Flow.Graph

/-!
# Offsets and addresses

Offset `n` of a window stands for the address `4 * n` past its base.
-/

namespace R3000

theorem Word.toNat_and_three (w : Word) : (w &&& 3).toNat = w.toNat % 4 := by
  rw [UInt32.toNat_and]
  exact Nat.and_two_pow_sub_one_eq_mod w.toNat 2

theorem Word.any_three (w : Word) : Word.any w 3 = false ↔ w.toNat % 4 = 0 := by
  unfold any
  rw [bne_eq_false_iff_eq, ← toNat_and_three, ← UInt32.toNat_inj]
  rfl

theorem Word.toNat_add_four_mul (base : Word) (n : Nat) :
    (base + 4 * UInt32.ofNat n).toNat = (base.toNat + 4 * n) % 4294967296 := by
  rw [UInt32.toNat_add, UInt32.toNat_mul, UInt32.toNat_ofNat']
  have : (4 : Word).toNat = 4 := rfl
  rw [this]
  omega

namespace FlowGraph

theorem addressOf_succ (g : FlowGraph) (offset : Nat) :
    g.addressOf (offset + 1) = g.addressOf offset + 4 := by
  unfold addressOf
  rw [UInt32.ofNat_add, UInt32.mul_add, UInt32.add_assoc]
  rfl

theorem aligned_addressOf {g : FlowGraph} (h : Word.any g.base 3 = false) (offset : Nat) :
    Word.any (g.addressOf offset) 3 = false := by
  rw [Word.any_three] at h ⊢
  have haddr : (g.addressOf offset).toNat = (g.base.toNat + 4 * offset) % 4294967296 :=
    Word.toNat_add_four_mul g.base offset
  rw [haddr]
  omega

end FlowGraph

theorem windowOffset_eq_some {base target : Word} {size o : Nat} (hbase : Word.any base 3 = false)
    (h : windowOffset base target size = some o) :
    o < size ∧ base + 4 * UInt32.ofNat o = target := by
  unfold windowOffset at h
  split at h
  next hc =>
    obtain ⟨halign, hle, hlt⟩ := hc
    cases h
    refine ⟨hlt, ?_⟩
    have htarget : target.toNat % 4 = 0 :=
      (Word.any_three target).mp (by unfold Word.any; rw [halign]; rfl)
    have hbase' := (Word.any_three base).mp hbase
    have hsub : (target - base).toNat = target.toNat - base.toNat := by
      rw [UInt32.toNat_sub_of_le _ _ hle]
    have hle' : base.toNat ≤ target.toNat := UInt32.le_iff_toNat_le.mp hle
    have hlt' : target.toNat < 4294967296 := target.toNat_lt
    apply UInt32.toNat_inj.mp
    refine (Word.toNat_add_four_mul base _).trans ?_
    rw [hsub]
    omega
  next => cases h

end R3000
